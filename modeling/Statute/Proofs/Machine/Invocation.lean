import Statute.Proofs.Machine.History
import Statute.Proofs.Machine.Isolation
import Statute.Proofs.Machine.Likeness

/-!
# The invocation of a machine

A machine that was begun for a call goes through the stages of this one invocation: it makes up for
the arguments that are missing, enters the body, and for a class does so with the constructor of the
new object. The arguments that were given come first all the way.

Had the same call been made by another machine, in the same scopes, this would have taken the same
steps above its own frames. So in the same worlds both enter the same calls with the same variables,
unless the other machine is inside of too many calls already.
-/

namespace Statute

open Relation (ReflTransGen)

namespace Machine

/-- The next step of a machine enters the body of a call: the variables of the call are bound in a
fresh scope. -/
structure Opens (s : Setting) (w : World) (m : Machine) (c : Call) (below : List Frame) : Prop
    where
  step : (m.step s w).step = .next
  world : (m.step s w).world = c.opened w
  frames : (m.step s w).machine.frames =
    .body c.procedure.body false false :: .running c :: below

def Overreaches (s : Setting) (w : World) (m : Machine) : Prop :=
  ∃ m₀ c, s.config.recursionLimit ≤ m₀.depth ∧ m.step s w = enter s w m₀ c

/-- In this world the second machine does what the first one does, and it enters the same call with
the same variables. -/
structure StepsLike (s : Setting) (w : World) (m m' : Machine) : Prop where
  step : (m'.step s w).step = (m.step s w).step
  world : (m'.step s w).world = (m.step s w).world
  opens : ∀ c below, m.Opens s w c below →
    ∃ site below', m'.Opens s w { c with site := site } below'

/-- In whatever world, the second machine does what the first one does, unless it overreaches. -/
def Matches (s : Setting) (m m' : Machine) : Prop :=
  ∀ w, m'.Overreaches s w ∨ StepsLike s w m m'

/-- A machine goes through the worlds of the history of another one and does in each of them what
the other one did there, until it overreaches in one of them or comes to match what the other one
has come to. -/
inductive Mirrors (s : Setting) : Machine → List Moment → Machine → Prop
  | matches {m m' : Machine} (hmatches : m.frames ≠ [] → m.Matches s m') : Mirrors s m' [] m
  | overreaches {m m' : Machine} {t : Moment} {ts : List Moment} (h : m'.Overreaches s t.world) :
      Mirrors s m' (t :: ts) m
  | goesOn {m m' : Machine} {t : Moment} {ts : List Moment}
      (hlike : StepsLike s t.world t.machine m')
      (hrest : Mirrors s (m'.step s t.world).machine ts m) : Mirrors s m' (t :: ts) m

def calling (m : Machine) (callee : Value) (args : List Value) (site : Location) : Machine :=
  (m.push (.call callee args (some site))).send .run

variable {s : Setting} {w : World} {m m' m₀ : Machine} {env : Env} {callee : Value}
  {args : List Value} {goal : Shape}

/-! ## Above other frames -/

/-- The second machine is the first one above other frames, but for the places of calls. -/
structure Shadows (env : Env) (d : Nat) (below : List Frame) (outer : ScopeStack)
    (m m' : Machine) : Prop where
  order : ∃ goal, m.InOrder goal 0 env
  above : ∃ m₀ goal, m.Alike d m₀ ∧ m₀.InOrder goal d outer.current ∧
    m' = m₀.above below outer

theorem shadows_call (callee : Value) (args : List Value) (k : Machine) (site : Location) :
    (ofCall k.scopes.current callee args).Shadows k.scopes.current k.depth k.frames k.scopes
      (k.calling callee args site) := by
  have hfresh : (ofCall k.scopes.current callee args).Fresh k.scopes.current := .call callee args
  refine ⟨hfresh.inOrder, ⟨[.call callee args (some site)], .run, ⟨k.scopes.current, []⟩, k.depth⟩,
    .value, ⟨.cons (.call callee args none (some site)) .nil, .same _, rfl, ?_⟩, ?_, rfl⟩
  · exact (Nat.zero_add _).symm
  · exact ⟨rfl, rfl, _, _, .nothing rfl rfl _ _, .root⟩

theorem InOrder.depth_pos {base : Nat} (h : m.InOrder goal base env) {f : Frame} {fs : List Frame}
    (hframes : m.frames = f :: fs) (hcall : f.isCall = true) : 0 < m.depth := by
  rw [h.counts.2, hframes, List.countP_cons_of_pos hcall]
  omega

/-- What the step of a machine does, that of its shadow does as well. -/
theorem Shadows.agrees {d : Nat} {below : List Frame} {outer : ScopeStack}
    (h : m.Shadows env d below outer m') (hframes : m.frames ≠ []) (w : World) :
    m'.Overreaches s w ∨ ∃ (m₀ : Machine) (goal : Shape),
      (m.step s w).Alike d (m₀.step s w) ∧ m₀.InOrder goal d outer.current ∧
        m'.step s w = (m₀.step s w).above below outer := by
  obtain ⟨⟨goal, horder⟩, m₀, goal₀, halike, horder₀, rfl⟩ := h
  have hframes₀ : m₀.frames ≠ [] := by
    intro hnil
    have hall := halike.frames
    rw [hnil] at hall
    exact hframes (List.forall₂_nil_right_iff.mp hall)
  have habove : (m₀.above below outer).step s w = (m₀.step s w).above below outer :=
    step_above horder₀ hframes₀
  rcases halike.step s w (fun f fs hf hcall => horder.depth_pos hf hcall) with hstep | hdeep
  · exact Or.inr ⟨m₀, goal₀, hstep, horder₀, habove⟩
  · obtain ⟨m₁, c, hlimit, heq⟩ := hdeep
    refine Or.inl ⟨m₁.above below outer, c, hlimit, ?_⟩
    rw [habove, heq, enter_above]

theorem Shadows.step {d : Nat} {below : List Frame} {outer : ScopeStack}
    (h : m.Shadows env d below outer m') (hframes : m.frames ≠ [])
    (hreaches : ¬ m'.Overreaches s w) (hcrash : ∀ message, (m.step s w).step ≠ .crash message) :
    (m.step s w).machine.Shadows env d below outer (m'.step s w).machine := by
  obtain ⟨m₀, goal₀, halike, horder₀, hstep⟩ := (h.agrees hframes w).resolve_left hreaches
  obtain ⟨goal, horder⟩ := h.order
  have hcrash₀ : ∀ message, (m₀.step s w).step ≠ .crash message := by
    rw [halike.step]
    exact hcrash
  refine ⟨⟨goal, Steps.inOrder (s := s) ⟨w, rfl, hcrash⟩ horder⟩, (m₀.step s w).machine, goal₀,
    halike.machine, Steps.inOrder (s := s) ⟨w, rfl, hcrash₀⟩ horder₀, ?_⟩
  rw [hstep]
  rfl

theorem Shadows.matches {d : Nat} {below : List Frame} {outer : ScopeStack}
    (h : m.Shadows env d below outer m') (hframes : m.frames ≠ []) : m.Matches s m' := by
  intro w
  refine (h.agrees hframes w).imp_right ?_
  rintro ⟨m₀, -, halike, -, hstep⟩
  refine ⟨?_, ?_, fun c rest hopens => ?_⟩
  · rw [hstep]
    exact halike.step
  · rw [hstep]
    exact halike.world
  · have hall := halike.machine.frames
    rw [hopens.frames] at hall
    -- The frame of the call is alike but for its place, and that of the body is the same.
    obtain ⟨g, gs, hbody, hgs, hframes₀⟩ := List.forall₂_cons_left_iff.mp hall
    obtain ⟨g', rest', hrunning, -, rfl⟩ := List.forall₂_cons_left_iff.mp hgs
    obtain rfl : g = .body c.procedure.body false false := by
      cases hbody
      rfl
    obtain ⟨site, rfl⟩ : ∃ site, g' = .running { c with site := site } := by
      cases hrunning with
      | same => exact ⟨c.site, rfl⟩
      | running _ site => exact ⟨site, rfl⟩
    refine ⟨site, rest' ++ below, ?_, ?_, ?_⟩
    · rw [hstep]
      exact halike.step.trans hopens.step
    · rw [hstep]
      exact halike.world.trans hopens.world
    · rw [hstep]
      exact congrArg (· ++ below) hframes₀

theorem Shadows.mirrors {d : Nat} {below : List Frame} {outer : ScopeStack} {ts : List Moment}
    {m₁ : Machine} (hpasses : Passes s m ts m₁) (hbusy : ∀ t ∈ ts, t.machine.frames ≠ [])
    (h : m.Shadows env d below outer m') : Mirrors s m' ts m₁ := by
  induction hpasses generalizing m' with
  | stay m => exact .matches h.matches
  | @go w m _ ts hcrash hrest ih =>
      obtain ⟨hframes, hbusy⟩ := List.forall_mem_cons.mp hbusy
      by_cases hover : m'.Overreaches s w
      · exact .overreaches hover
      · exact .goesOn ((h.matches hframes w).resolve_left hover)
          (ih hbusy (h.step hframes hover hcrash))

/-- Whatever the history of a machine that was begun for a call, the same call mirrors it when
another machine makes the call in the same scopes. -/
theorem mirrors_calling {ts : List Moment} (k : Machine) (site : Location)
    (h : Passes s (ofCall k.scopes.current callee args) ts m)
    (hbusy : ∀ t ∈ ts, t.machine.frames ≠ []) :
    Mirrors s (k.calling callee args site) ts m :=
  (shadows_call callee args k site).mirrors h hbusy

end Machine

/-! ## The arguments that were given -/

/-- The leading arguments that a construction hands on to the constructor of each ancestor. -/
inductive Class.Hands (cls : Class) (args : List Value) : Class → List Value → Prop
  | own : Hands cls args cls args
  | parent {c parent : Class} {given : List Value} (h : Hands cls args c given)
      (hparent : c.parent? = some parent) :
      Hands cls args parent (given.take (min parent.constructorArity given.length))

/-- The call of a procedure that a call of a value comes to. The arguments that were given come
first. For a class there is one for every level that has a constructor. -/
inductive Call.Stems (args : List Value) : Value → Call → Prop
  | itself {c : Call} (hargs : args <+: c.args) : Stems args c.callee c
  | constructor {cls ancestor : Class} {given : List Value} {c : Call} {object : ObjectRef}
      (hands : cls.Hands args ancestor given) (hctor : ancestor.own.ctor = some c.procedure)
      (hreceiver : c.receiver = some object) (hargs : given <+: c.args) :
      Stems args (.classDef cls) c

/-- Frames of one call of a procedure with some arguments, and more may have come after these: the
lowest frame is that of the call, until it has gone. -/
inductive Serving (args : List Value) : Value → List Frame → Prop
  | gone (callee : Value) : Serving args callee []
  | begins (c : Call) (hargs : c.args = args) : Serving args c.callee [c.frame]
  | goesOn (above : List Frame) {f : Frame} {c : Call} (hcall : f.call? = some c)
      (hargs : args <+: c.args) : Serving args c.callee (above ++ [f])

/-- The frames of objects that wait for their parents, from the class that is constructed up to one
of its ancestors. -/
inductive Adopting (cls : Class) (args : List Value) : Class → List Value → List Frame → Prop
  | own : Adopting cls args cls args []
  | parent {c parent : Class} {given : List Value} {below : List Frame}
      (h : Adopting cls args c given below) (hparent : c.parent? = some parent)
      (object : ObjectRef) (taken : Nat) (site : Option Location) :
      Adopting cls args parent (given.take (min parent.constructorArity given.length))
        (.adopt object c given taken site :: below)

/-- The frames of a machine that was begun for a call: the lowest ones say which stage it is at. -/
inductive Pursues (args : List Value) : Value → List Frame → Prop
  | begins (callee : Value) (site : Option Location) :
      Pursues args callee [.call callee args site]
  | serves {callee : Value} {gs : List Frame} (h : Serving args callee gs) :
      Pursues args callee gs
  | constructs {cls c : Class} {given : List Value} {below : List Frame}
      (h : Adopting cls args c given below) (site : Option Location) :
      Pursues args (.classDef cls) (.construct c given site :: below)
  | adopts {cls c : Class} {given : List Value} {below : List Frame}
      (h : Adopting cls args c given below) (object : ObjectRef) (taken : Nat)
      (site : Option Location) :
      Pursues args (.classDef cls) (.adopt object c given taken site :: below)
  | initialises {cls c : Class} {given : List Value} {below g : List Frame} {p : Procedure}
      {object : ObjectRef} (h : Adopting cls args c given below) (hctor : c.own.ctor = some p)
      (hserving : Serving given (.method object p) g) :
      Pursues args (.classDef cls) (g ++ .finish object :: below)

theorem Call.receiver_of_callee {c : Call} {object : ObjectRef} {p : Procedure}
    (h : c.callee = .method object p) : c.receiver = some object ∧ c.procedure = p := by
  obtain ⟨q, receiver, args, site⟩ := c
  cases receiver with
  | none => cases h
  | some r =>
      cases h
      exact ⟨rfl, rfl⟩

theorem Adopting.hands {cls c : Class} {args given : List Value} {below : List Frame}
    (h : Adopting cls args c given below) : cls.Hands args c given := by
  induction h with
  | own => exact .own
  | parent _ hparent _ _ _ ih => exact .parent ih hparent

/-- When an ancestor is through, the object below goes on, if there is one. -/
theorem Adopting.pursues {cls c : Class} {args given : List Value} {below : List Frame}
    (h : Adopting cls args c given below) : Pursues args (.classDef cls) below := by
  cases h with
  | own => exact .serves (.gone _)
  | parent h _ object taken site => exact .adopts h object taken site

namespace Machine

variable {s : Setting} {w : World} {m m' : Machine} {env : Env} {callee : Value}
  {args : List Value} {goal : Shape} {base : Nat} {f : Frame} {fs gs : List Frame}

/-- A frame that is left goes, or it stays, unless it has handlers. -/
theorem frames_unwind (m : Machine) (w : World) (e : Exit)
    (hguard : ∀ handlers, f ≠ .guard handlers) :
    (m.unwind s w e f).machine.frames = m.frames ∨
      (m.unwind s w e f).machine.frames = f :: m.frames := by
  unfold unwind
  split
  · exact Or.inr rfl
  · exact Or.inr rfl
  · exact Or.inl rfl
  · exact Or.inl rfl
  · split
    · exact absurd rfl (hguard _)
    · split
      · exact Or.inl rfl
      · exact Or.inl rfl
    · split
      · exact Or.inr rfl
      · exact Or.inl rfl
    · exact Or.inl rfl

theorem serving_supply (m : Machine) (c : Call) (hargs : args <+: c.args) (params : List Param) :
    ∃ gs, (m.supply s w c params).machine.frames = gs ++ m.frames ∧
      Serving args c.callee gs := by
  obtain ⟨gs, hframes, -, hsupplies⟩ := leads_supply (s := s) (w := w) (m := m) c params
  refine ⟨gs, hframes, ?_⟩
  generalize (m.supply s w c params).machine.signal = sig at hsupplies
  cases hsupplies with
  | enters _ => exact .goesOn [_] (f := .running c) rfl hargs
  | default _ _ => exact .goesOn [_] (f := .supply c _) rfl hargs
  | refused _ _ => exact .gone _

theorem serving_bind (m : Machine) (c : Call) :
    ∃ gs, (m.bind s w c).machine.frames = gs ++ m.frames ∧ Serving c.args c.callee gs := by
  unfold bind
  dsimp only
  split
  · exact ⟨[], rfl, .gone _⟩
  · exact serving_supply m c (List.prefix_refl _) _

theorem call_callee (m : Machine) (c : Call) :
    m.call s w c.callee c.args c.site = m.bind s w c := by
  obtain ⟨p, receiver, args, site⟩ := c
  cases receiver <;> rfl

theorem serving_step_begins (c : Call) (hframes : m.frames = c.frame :: fs) :
    ∃ gs, (m.step s w).machine.frames = gs ++ fs ∧ Serving c.args c.callee gs := by
  obtain ⟨frames, signal, scopes, depth⟩ := m
  change frames = c.frame :: fs at hframes
  subst hframes
  cases signal with
  | run =>
      change ∃ gs, (Machine.call s w _ c.callee c.args c.site).machine.frames = _ ∧ _
      rw [call_callee]
      exact serving_bind ⟨fs, .run, scopes, depth⟩ c
  | value v => exact ⟨[c.frame], rfl, .begins c rfl⟩
  | leave e =>
      rcases frames_unwind (f := c.frame) ⟨fs, .run, scopes, depth⟩ w e nofun with hgone | hstays
      · exact ⟨[], hgone, .gone _⟩
      · exact ⟨[c.frame], hstays, .begins c rfl⟩

theorem serving_step_goesOn {c : Call} (hcall : f.call? = some c) (hargs : args <+: c.args)
    (hframes : m.frames = f :: fs) :
    ∃ gs, (m.step s w).machine.frames = gs ++ fs ∧ Serving args c.callee gs := by
  obtain ⟨frames, signal, scopes, depth⟩ := m
  change frames = f :: fs at hframes
  subst hframes
  have hstays : ∃ gs, f :: fs = gs ++ fs ∧ Serving args c.callee gs :=
    ⟨[f], rfl, .goesOn [] hcall hargs⟩
  have hguard : ∀ handlers, f ≠ .guard handlers := by
    rintro handlers rfl
    cases hcall
  have hleft : ∀ e, ∃ gs, (Machine.unwind s w ⟨fs, .run, scopes, depth⟩ e f).machine.frames =
      gs ++ fs ∧ Serving args c.callee gs := by
    intro e
    rcases frames_unwind ⟨fs, .run, scopes, depth⟩ w e hguard with hgone | hsame
    · exact ⟨[], hgone, .gone _⟩
    · rw [hsame]
      exact hstays
  cases f with
  | supply c rest =>
      cases hcall
      -- Whatever the default comes to is put behind the arguments that are there.
      have hsupply : ∀ v, ∃ gs, (Machine.supply s w ⟨fs, .run, scopes, depth⟩
          { c with args := c.args ++ [v] } rest).machine.frames = gs ++ fs ∧
            Serving args c.callee gs :=
        fun v => serving_supply _ { c with args := c.args ++ [v] }
          (hargs.trans (List.prefix_append _ _)) rest
      cases signal with
      | run => exact hsupply .empty
      | value v => exact hsupply v
      | leave e => exact hleft e
  | running c =>
      cases signal with
      | run => exact ⟨[], rfl, .gone _⟩
      | value v => exact hstays
      | leave e => exact hleft e
  | _ => cases hcall

/-- Frames of a call of a procedure are so after a step, as long as there are any. -/
theorem Steps.serving (h : m.Steps s m') (horder : m.InOrder goal base env)
    (hgs : Serving args callee (f :: gs)) (hframes : m.frames = f :: (gs ++ fs)) :
    ∃ gs', m'.frames = gs' ++ fs ∧ Serving args callee gs' := by
  generalize hall : f :: gs = all at hgs
  cases hgs with
  | gone => cases hall
  | begins c hargs =>
      cases hall
      subst hargs
      obtain ⟨w, rfl, -⟩ := h
      exact serving_step_begins c hframes
  | @goesOn above low c hcall hargs =>
      cases above with
      | nil =>
          cases hall
          obtain ⟨w, rfl, -⟩ := h
          exact serving_step_goesOn hcall hargs hframes
      | cons top above =>
          change f :: gs = top :: (above ++ [low]) at hall
          obtain ⟨rfl, rfl⟩ := List.cons.inj hall
          obtain ⟨new, -, -, -, -, hnew, -⟩ := h.split horder hframes
          refine ⟨new ++ above ++ [low], ?_, .goesOn (new ++ above) hcall hargs⟩
          rw [hnew]
          simp only [List.append_assoc]

theorem pursues_initialise {cls c : Class} {given : List Value} {m : Machine}
    (h : Adopting cls args c given m.frames) (object : ObjectRef) (taken : Nat)
    (site : Option Location) :
    Pursues args (.classDef cls)
      (m.initialise w object c given taken site).machine.frames := by
  unfold initialise
  split
  · next p hctor =>
      exact .initialises (g := [_]) h hctor (.begins ⟨p, some object, given, site⟩ rfl)
  · split
    · exact h.pursues
    · exact h.pursues

theorem pursues_construct {cls c : Class} {given : List Value} {m : Machine}
    (h : Adopting cls args c given m.frames) (site : Option Location) :
    Pursues args (.classDef cls) (m.construct w c given site).machine.frames := by
  unfold construct
  split
  · split
    · exact h.pursues
    · exact h.pursues
  · dsimp only
    split
    · exact pursues_initialise h _ _ site
    · next parent hparent => exact .constructs (.parent h hparent _ _ _) site

theorem pursues_call (m : Machine) (hframes : m.frames = []) (site : Option Location) :
    Pursues args callee (m.call s w callee args site).machine.frames := by
  have hbind : ∀ c : Call, c.callee = callee → c.args = args →
      Pursues args callee (m.bind s w c).machine.frames := by
    rintro c rfl rfl
    obtain ⟨gs, hgs, hserving⟩ := serving_bind (s := s) (w := w) m c
    rw [hgs, hframes, List.append_nil]
    exact .serves hserving
  have hover : Pursues args callee m.frames := by
    rw [hframes]
    exact .serves (.gone _)
  cases callee with
  | procedure p => exact hbind ⟨p, none, args, site⟩ rfl rfl
  | method r p => exact hbind ⟨p, some r, args, site⟩ rfl rfl
  | classDef cls =>
      change Pursues args (.classDef cls) (.construct cls args site :: m.frames)
      rw [hframes]
      exact .constructs .own site
  | extension e =>
      unfold call
      dsimp only
      split
      · exact hover
      · exact hover
      · exact hover
  | _ => exact hover

/-- A frame that is neither run nor given a value either goes or stays. -/
theorem pursues_unwind (m : Machine) (e : Exit) (hguard : ∀ handlers, f ≠ .guard handlers)
    (hgone : Pursues args callee m.frames) (hstays : Pursues args callee (f :: m.frames)) :
    Pursues args callee (m.unwind s w e f).machine.frames := by
  rcases frames_unwind m w e hguard with hframes | hframes
  · rw [hframes]
    exact hgone
  · rw [hframes]
    exact hstays

/-- An invocation goes on to one of its stages with every step of the machine. -/
theorem Steps.pursues (h : m.Steps s m') (horder : m.InOrder goal base env)
    (hpursues : Pursues args callee m.frames) : Pursues args callee m'.frames := by
  have hsteps := h
  obtain ⟨w, rfl, -⟩ := h
  obtain ⟨frames, signal, scopes, depth⟩ := m
  change Pursues args callee frames at hpursues
  cases hpursues with
  | begins callee site =>
      cases signal with
      | run => exact pursues_call ⟨[], .run, scopes, depth⟩ rfl site
      | value v => exact .begins callee site
      | leave e =>
          exact pursues_unwind ⟨[], .run, scopes, depth⟩ e nofun (.serves (.gone _))
            (.begins callee site)
  | serves hgs =>
      cases frames with
      | nil => exact .serves (.gone _)
      | cons f gs =>
          obtain ⟨gs', hframes, hserving⟩ :=
            hsteps.serving horder hgs (congrArg (f :: ·) (List.append_nil gs).symm)
          rw [hframes, List.append_nil]
          exact .serves hserving
  | @constructs cls c given below hadopting site =>
      cases signal with
      | run => exact pursues_construct (m := ⟨below, .run, scopes, depth⟩) hadopting site
      | value v => exact .constructs hadopting site
      | leave e =>
          exact pursues_unwind ⟨below, .run, scopes, depth⟩ e nofun hadopting.pursues
            (.constructs hadopting site)
  | @adopts cls c given below hadopting object taken site =>
      cases signal with
      | run =>
          exact pursues_initialise (m := ⟨below, .run, scopes, depth⟩) hadopting object taken site
      | value v =>
          exact pursues_initialise (m := ⟨below, .run, scopes, depth⟩) hadopting object taken site
      | leave e =>
          exact pursues_unwind ⟨below, .run, scopes, depth⟩ e nofun hadopting.pursues
            (.adopts hadopting object taken site)
  | @initialises cls c given below gs p object hadopting hctor hgs =>
      cases gs with
      | cons f gs =>
          obtain ⟨gs', hframes, hserving⟩ := hsteps.serving horder hgs rfl
          rw [hframes]
          exact .initialises hadopting hctor hserving
      | nil =>
          cases signal with
          | run => exact hadopting.pursues
          | value v => exact hadopting.pursues
          | leave e =>
              exact pursues_unwind ⟨below, .run, scopes, depth⟩ e nofun hadopting.pursues
                (.initialises (g := []) hadopting hctor (.gone _))

theorem pursues_of_steps
    (h : ReflTransGen (Steps s) (ofCall env callee args) m) :
    (∃ goal, m.InOrder goal 0 env) ∧ Pursues args callee m.frames := by
  induction h with
  | refl => exact ⟨Fresh.inOrder (.call callee args), .begins callee none⟩
  | tail _ hstep ih =>
      obtain ⟨⟨goal, horder⟩, hpursues⟩ := ih
      exact ⟨⟨goal, hstep.inOrder horder⟩, hstep.pursues horder hpursues⟩

end Machine

/-- Of the frames of a call, none but the lowest belongs to it. -/
theorem Serving.of_running {args : List Value} {callee : Value} {top : Frame} {c : Call}
    {rest : List Frame} (h : Serving args callee (top :: .running c :: rest))
    (hrest : ∀ f ∈ rest, f.call? = none) : c.callee = callee ∧ args <+: c.args := by
  generalize hall : top :: Frame.running c :: rest = all at h
  cases h with
  | gone => cases hall
  | begins c hargs => cases hall
  | @goesOn above low c' hcall hargs =>
      rcases List.eq_nil_or_concat rest with rfl | ⟨rest, last, rfl⟩
      · change [top] ++ [Frame.running c] = above ++ [low] at hall
        obtain ⟨-, hlast⟩ := List.append_inj' hall rfl
        cases hlast
        cases hcall
        exact ⟨rfl, hargs⟩
      · rw [List.concat_eq_append] at hall hrest
        change top :: Frame.running c :: rest ++ [last] = above ++ [low] at hall
        obtain ⟨-, hlast⟩ := List.append_inj' hall rfl
        cases hlast
        have hnone := hrest low (List.mem_append_right _ (List.mem_singleton_self _))
        rw [hcall] at hnone
        contradiction

/-- When an invocation enters a body and no other call is under way, this is the call that it stems
from. -/
theorem Pursues.stems {args : List Value} {callee : Value} {top : Frame} {c : Call}
    {rest : List Frame} (h : Pursues args callee (top :: .running c :: rest))
    (hrest : ∀ f ∈ rest, f.call? = none) : c.Stems args callee := by
  generalize hall : top :: Frame.running c :: rest = all at h
  cases h with
  | begins callee site => cases hall
  | serves hserving =>
      rw [← hall] at hserving
      obtain ⟨rfl, hargs⟩ := hserving.of_running hrest
      exact .itself hargs
  | constructs hadopting site =>
      cases hall
      cases hadopting
  | adopts hadopting object taken site =>
      cases hall
      cases hadopting
  | @initialises cls ancestor given below g p object hadopting hctor hserving =>
      match g, hall, hserving with
      | [], hall, _ =>
          cases hall
          cases hadopting
      | f :: .running c' :: g, hall, hserving =>
          cases hall
          obtain ⟨hcallee, hargs⟩ := hserving.of_running fun f hf =>
            hrest f (List.mem_append_left _ hf)
          obtain ⟨hreceiver, rfl⟩ := Call.receiver_of_callee hcallee
          exact .constructor hadopting.hands hctor hreceiver hargs

namespace Machine

variable {s : Setting} {w : World} {m : Machine} {env : Env} {callee : Value}
  {args : List Value}

/-- A machine that was begun for a call enters no body on its own account but with the arguments
that the call was given. -/
theorem stems_of_opens {c : Call} {below : List Frame}
    (hsteps : ReflTransGen (Steps s) (ofCall env callee args) m) (hopens : m.Opens s w c below)
    (hbelow : ∀ f ∈ below, f.call? = none) : c.Stems args callee := by
  have hnext : m.Steps s (m.step s w).machine := by
    refine ⟨w, rfl, fun message => ?_⟩
    rw [hopens.step]
    exact Step.noConfusion
  have hpursues := (pursues_of_steps (hsteps.tail hnext)).2
  rw [hopens.frames] at hpursues
  exact hpursues.stems hbelow

end Machine

end Statute
