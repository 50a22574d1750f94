import Statute.Proofs.Machine.Nesting

/-!
# What takes the place of a frame

A step takes off the frame on top and puts others in its place. Which ones these can be is said here
once, for each kind of frame and each signal, together with how the step goes and how the machine
goes on: `Frame.Becomes`. What the frames keep of the program is part of it, and so is the place at
which the limit of calls is looked at; what the step does to the world is not.

Whatever shrinks or stays within bounds along the steps of a machine can be read off these cases.
-/

namespace Statute

/-- The procedure that a value stands for. -/
def Value.procedure? : Value → Option Procedure
  | .procedure p => some p
  | .method _ p => some p
  | _ => none

/-- The frame that a statement leaves behind to wait for the value of its first expression. -/
def Statement.waiting? : Statement → Option (Frame × Expression)
  | .declare name e => some (.act (.declare name) e.location, e)
  | .assign target e => some (.act (.assign target) e.location, e)
  | .repeatFor var lower upper body => some (.lower var lower.location upper body, lower)
  | .repeatWhile test body => some (.test test body, test)
  | .raise e => some (.act .raise e.location, e)
  | .print e => some (.act .print e.location, e)
  | .returnWith (some e) => some (.act .returnWith e.location, e)
  | .perform e => some (.act .discard e.location, e)
  | _ => none

/-! ## Parts of a step -/

/-- An expression is begun for a frame that waits for its value, unless it does not compile. -/
inductive Evaluates (f : Frame) (e : Expression) : List Frame → Signal → Prop
  | begun {c : Code} (hcode : e.compile = .ok c) :
      Evaluates f e [.eval c.items [] c.location, f] .run
  | refused (failure : Failure) : Evaluates f e [] (.leave (.failWith failure))

/-- Branches are tried in order. -/
inductive Chooses (otherwise : Option Body) : List Branch → List Frame → Signal → Prop
  | tests {test : Expression} {body : Body} {rest : List Branch} {gs : List Frame} {sig : Signal}
      (htest : Evaluates (.branch test.location body rest otherwise) test gs sig) :
      Chooses otherwise (.mk test body :: rest) gs sig
  | otherwise {body : Body} (hbody : otherwise = some body) :
      Chooses otherwise [] [.body body true false] .run
  | nothing : Chooses otherwise [] [] .run

/-- A statement is begun. -/
inductive Begins : Statement → List Frame → Signal → Prop
  | evaluates {stmt : Statement} {f : Frame} {e : Expression} {gs : List Frame} {sig : Signal}
      (hwaiting : stmt.waiting? = some (f, e)) (he : Evaluates f e gs sig) : Begins stmt gs sig
  | chooses {branches : List Branch} {otherwise : Option Body} {gs : List Frame} {sig : Signal}
      (h : Chooses otherwise branches gs sig) : Begins (.choose branches otherwise) gs sig
  | attempts (body : Body) (handlers : List Handler) :
      Begins (.attempt body handlers) [.body body true false, .guard handlers] .run
  | excludes (lock : LockRef) (body : Body) :
      Begins (.exclusive lock body) [.enter lock body] .run
  | leaves (stmt : Statement) (e : Exit) : Begins stmt [] (.leave e)

/-- A call goes on with the parameters that remain: with the default of the next one, or with its
body if there are none and the limit of calls is not reached. -/
inductive Supplies (limit depth : Nat) (c : Call) : List Param → List Frame → Signal → Prop
  | enters (hdepth : depth < limit) :
      Supplies limit depth c [] [.body c.procedure.body false false, .running c] .run
  | default {p : Param} {rest : List Param} {e : Expression} {code : Code}
      (hdefault : p.default = some e) (hcode : e.compile = .ok code) :
      Supplies limit depth c (p :: rest) [.eval code.items [] code.location, .supply c rest] .run
  | refused (params : List Param) (failure : Failure) :
      Supplies limit depth c params [] (.leave (.failWith failure))

/-- The constructor of a class is called for an object, or the object is finished without one. -/
inductive Initialises (cls : Class) (site : Option Location) : List Frame → Signal → Prop
  | calls {p : Procedure} (hctor : cls.own.ctor = some p) (object : ObjectRef)
      (args : List Value) :
      Initialises cls site [.call (.method object p) args site, .finish object] .run
  | ends (sig : Signal) : Initialises cls site [] sig

/-! ## A whole step -/

/-- What takes the place of a frame in a step that begins at the given depth of calls: a frame and a
signal, how the step goes, the new frames with the highest one first, and the new signal. -/
inductive Frame.Becomes (limit depth : Nat) :
    Frame → Signal → Step → List Frame → Signal → Prop
  | ends (f : Frame) (sig sig' : Signal) : Becomes limit depth f sig .next [] sig'
  | waits (f : Frame) : Becomes limit depth f .run .blocked [f] .run
  /-- The way out of a loop ends here. -/
  | stops (f : Frame) {e : Exit} (hexit : e = .breakOut ∨ e = .continueOn) {sig : Signal}
      (hsig : sig = .run ∨ ∃ failure, sig = .leave (.failWith failure)) :
      Becomes limit depth f (.leave e) .next [f] sig
  | rests (rest : Body) (own : Bool) :
      Becomes limit depth (.body rest own true) .run .pause [.body rest own false] .run
  | begins {stmt : Statement} {rest : Body} {own : Bool} {gs : List Frame} {sig : Signal}
      (h : Begins stmt gs sig) :
      Becomes limit depth (.body (stmt :: rest) own false) .run .next
        (gs ++ [.body rest own true]) sig
  | counts (var : Option String) (now next : Option Int64) (last : Int64) (body : Body) :
      Becomes limit depth (.count var now last body) .run .pause
        [.body body true false, .count var next last body] .run
  | retests {test : Expression} {body : Body} {gs : List Frame} {sig : Signal}
      (h : Evaluates (.test test body) test gs sig) :
      Becomes limit depth (.again test body) .run .next gs sig
  | locks (lock : LockRef) (body : Body) :
      Becomes limit depth (.enter lock body) .run .next [.body body true false, .hold lock] .run
  | goesOn (i : Item) (rest : List Item) (stack stack' : List Operand) (site : Location) :
      Becomes limit depth (.eval (i :: rest) stack site) .run .next [.eval rest stack' site] .run
  | calls {i : Item} (hcalls : i.calls = true) (rest : List Item) (stack stack' : List Operand)
      (site : Location) (callee : Value) (args : List Value) :
      Becomes limit depth (.eval (i :: rest) stack site) .run .next
        [.call callee args (some site), .eval rest stack' site] .run
  | binds {callee : Value} {c : Call} (hcallee : callee.procedure? = some c.procedure) (n : Nat)
      {gs : List Frame} {sig : Signal}
      (h : Supplies limit depth c (c.procedure.params.drop n) gs sig) (args : List Value) :
      Becomes limit depth (.call callee args c.site) .run .next gs sig
  | constructs (cls : Class) (args : List Value) (site : Option Location) :
      Becomes limit depth (.call (.classDef cls) args site) .run .next [.construct cls args site]
        .run
  | initialises {cls : Class} {site : Option Location} {gs : List Frame} {sig : Signal}
      (h : Initialises cls site gs sig) (args : List Value) :
      Becomes limit depth (.construct cls args site) .run .next gs sig
  | descends {cls parent : Class} (hparent : cls.parent? = some parent) (object : ObjectRef)
      (args args' : List Value) (taken : Nat) (site : Option Location) :
      Becomes limit depth (.construct cls args site) .run .next
        [.construct parent args' site, .adopt object cls args taken site] .run
  | accepts (site : Location) (body : Body) (rest : List Branch) (otherwise : Option Body)
      (v : Value) :
      Becomes limit depth (.branch site body rest otherwise) (.value v) .next
        [.body body true false] .run
  | rejects {rest : List Branch} {otherwise : Option Body} {gs : List Frame} {sig : Signal}
      (h : Chooses otherwise rest gs sig) (site : Location) (body : Body) (v : Value) :
      Becomes limit depth (.branch site body rest otherwise) (.value v) .next gs sig
  | bounds {var : Option String} {next : Int64} {upper : Expression} {body : Body}
      {gs : List Frame} {sig : Signal}
      (h : Evaluates (.upper var next upper.location body) upper gs sig) (site : Location)
      (v : Value) : Becomes limit depth (.lower var site upper body) (.value v) .next gs sig
  | bounded (var : Option String) (next last : Int64) (site : Location) (body : Body)
      (v : Value) :
      Becomes limit depth (.upper var next site body) (.value v) .next
        [.count var (some next) last body] .run
  | turns (test : Expression) (body : Body) (v : Value) :
      Becomes limit depth (.test test body) (.value v) .pause
        [.body body true false, .again test body] .run
  | receives (items : List Item) (stack : List Operand) (site : Location) (v : Value) :
      Becomes limit depth (.eval items stack site) (.value v) .next
        [.eval items (.value v :: stack) site] .run
  | supplies {c c' : Call} (hc : c'.procedure = c.procedure) (hsite : c'.site = c.site)
      {rest : List Param} {gs : List Frame} {sig : Signal} (h : Supplies limit depth c' rest gs sig)
      (v : Value) :
      Becomes limit depth (.supply c rest) (.value v) .next gs sig
  | adopts {cls : Class} {site : Option Location} {gs : List Frame} {sig : Signal}
      (h : Initialises cls site gs sig) (object : ObjectRef) (args : List Value) (taken : Nat)
      (v : Value) :
      Becomes limit depth (.adopt object cls args taken site) (.value v) .next gs sig
  | handles {handler : Handler} {handlers : List Handler} (hmem : handler ∈ handlers) (e : Exit) :
      Becomes limit depth (.guard handlers) (.leave e) .next [.body handler.body true false] .run

/-! ## Handlers -/

/-- After a step new frames are on top of the others, and they are as `P` says. -/
def Reply.Leads (P : Step → List Frame → Signal → Prop) (fs : List Frame) (r : Reply) : Prop :=
  ∃ gs, r.machine.frames = gs ++ fs ∧ P r.step gs r.machine.signal

def Onward (P : List Frame → Signal → Prop) (st : Step) (gs : List Frame) (sig : Signal) : Prop :=
  st = .next ∧ P gs sig

theorem Reply.Leads.imp {P Q : Step → List Frame → Signal → Prop} {fs : List Frame} {r : Reply}
    (h : r.Leads P fs) (himp : ∀ {st gs sig}, P st gs sig → Q st gs sig) : r.Leads Q fs :=
  let ⟨gs, hframes, hP⟩ := h
  ⟨gs, hframes, himp hP⟩

namespace Machine

variable {s : Setting} {w : World} {m : Machine} {f : Frame} {P : List Frame → Signal → Prop}

theorem leads_evaluate (f : Frame) (e : Expression) :
    (m.evaluate w f e).Leads (Onward (Evaluates f e)) m.frames := by
  unfold evaluate
  split
  · next c hcode => exact ⟨[.eval c.items [] c.location, f], rfl, rfl, .begun hcode⟩
  · exact ⟨[], rfl, rfl, .refused _⟩

theorem leads_choose (otherwise : Option Body) (branches : List Branch) :
    (m.choose w otherwise branches).Leads (Onward (Chooses otherwise branches)) m.frames := by
  cases branches with
  | nil =>
      cases otherwise with
      | none => exact ⟨[], rfl, rfl, .nothing⟩
      | some body => exact ⟨[.body body true false], rfl, rfl, .otherwise rfl⟩
  | cons b rest =>
      obtain ⟨test, body⟩ := b
      exact (leads_evaluate _ test).imp fun ⟨hst, h⟩ => ⟨hst, .tests h⟩

theorem leads_begin (stmt : Statement) :
    (m.begin w stmt).Leads (Onward (Begins stmt)) m.frames := by
  have hevaluate : ∀ {f : Frame} {e : Expression}, stmt.waiting? = some (f, e) →
      (m.evaluate w f e).Leads (Onward (Begins stmt)) m.frames :=
    fun hwaiting => (leads_evaluate _ _).imp fun ⟨hst, h⟩ => ⟨hst, .evaluates hwaiting h⟩
  cases stmt with
  | choose branches otherwise =>
      exact (leads_choose otherwise branches).imp fun ⟨hst, h⟩ => ⟨hst, .chooses h⟩
  | attempt body handlers =>
      exact ⟨[.body body true false, .guard handlers], rfl, rfl, .attempts body handlers⟩
  | exclusive lock body => exact ⟨[.enter lock body], rfl, rfl, .excludes lock body⟩
  | returnWith e =>
      cases e with
      | none => exact ⟨[], rfl, rfl, .leaves _ _⟩
      | some e => exact hevaluate rfl
  | breakOut => exact ⟨[], rfl, rfl, .leaves _ _⟩
  | continueOn => exact ⟨[], rfl, rfl, .leaves _ _⟩
  | _ => exact hevaluate rfl

theorem leads_supply (c : Call) (params : List Param) :
    (m.supply s w c params).Leads
      (Onward (Supplies s.config.recursionLimit m.depth c params)) m.frames := by
  cases params with
  | nil =>
      simp only [supply, enter]
      split
      · exact ⟨[], rfl, rfl, .refused _ _⟩
      · next hdepth =>
          exact ⟨[.body c.procedure.body false false, .running c], rfl, rfl,
            .enters (Nat.lt_of_not_le hdepth)⟩
  | cons p rest =>
      simp only [supply]
      split
      · exact ⟨[], rfl, rfl, .refused _ _⟩
      · next e hdefault =>
          split
          · next code hcode =>
              exact ⟨[.eval code.items [] code.location, .supply c rest], rfl, rfl,
                .default hdefault hcode⟩
          · exact ⟨[], rfl, rfl, .refused _ _⟩

theorem leads_initialise (object : ObjectRef) (cls : Class) (args : List Value) (taken : Nat)
    (site : Option Location) :
    (m.initialise w object cls args taken site).Leads (Onward (Initialises cls site)) m.frames := by
  unfold initialise
  split
  · next p hctor =>
      exact ⟨[.call (.method object p) args site, .finish object], rfl, rfl,
        .calls hctor object args⟩
  · split
    · exact ⟨[], rfl, rfl, .ends _⟩
    · exact ⟨[], rfl, rfl, .ends _⟩

/-! ## Frames -/

/-- A frame ends. -/
theorem leads_nil {limit depth : Nat} {sig sig' : Signal} {r : Reply} {fs : List Frame}
    (hstep : r.step = .next) (hframes : r.machine.frames = fs) (hsig : r.machine.signal = sig') :
    r.Leads (f.Becomes limit depth sig) fs := by
  refine ⟨[], hframes, ?_⟩
  rw [hstep, hsig]
  exact .ends f sig sig'

theorem leads_call (callee : Value) (args : List Value) (site : Option Location)
    (hcrash : ∀ message, (m.call s w callee args site).step ≠ .crash message) :
    (m.call s w callee args site).Leads
      ((Frame.call callee args site).Becomes s.config.recursionLimit m.depth .run) m.frames := by
  have hbind : ∀ c : Call, callee.procedure? = some c.procedure → c.site = site →
      (m.bind s w c).Leads
        ((Frame.call callee args site).Becomes s.config.recursionLimit m.depth .run) m.frames := by
    rintro c hcallee rfl
    simp only [bind]
    split
    · exact leads_nil rfl rfl rfl
    · refine (leads_supply c _).imp ?_
      rintro _ gs sig ⟨rfl, h⟩
      exact .binds hcallee _ h args
  cases callee with
  | procedure p => exact hbind ⟨p, none, args, site⟩ rfl rfl
  | method r p => exact hbind ⟨p, some r, args, site⟩ rfl rfl
  | classDef cls => exact ⟨[.construct cls args site], rfl, .constructs cls args site⟩
  | extension e =>
      simp only [call] at hcrash ⊢
      split
      · exact leads_nil rfl rfl rfl
      · exact leads_nil rfl rfl rfl
      · next message hanswer =>
          rw [hanswer] at hcrash
          exact absurd rfl (hcrash message)
  | _ => exact leads_nil rfl rfl rfl

theorem leads_construct (cls : Class) (args : List Value) (site : Option Location) :
    (m.construct w cls args site).Leads
      ((Frame.construct cls args site).Becomes s.config.recursionLimit m.depth .run) m.frames := by
  unfold construct
  split
  · split
    · exact leads_nil rfl rfl rfl
    · exact leads_nil rfl rfl rfl
  · simp only
    split
    · refine (leads_initialise _ cls args 0 site).imp ?_
      rintro _ gs sig ⟨rfl, h⟩
      exact .initialises h args
    · next parent hparent =>
        exact ⟨[.construct parent _ site, .adopt _ cls args _ site], rfl,
          .descends hparent _ args _ _ site⟩

theorem leads_evalItem (hsignal : m.signal = .run) (items : List Item) (stack : List Operand)
    (site : Location)
    (hcrash : ∀ message, (m.evalItem s w items stack site).step ≠ .crash message) :
    (m.evalItem s w items stack site).Leads
      ((Frame.eval items stack site).Becomes s.config.recursionLimit m.depth .run) m.frames := by
  cases items with
  | nil =>
      simp only [evalItem]
      split
      · exact leads_nil rfl rfl rfl
      · exact leads_nil rfl rfl rfl
  | cons i rest =>
      have hgoes : ∀ stack' w', ((m.push (.eval rest stack' site)).next w').Leads
          ((Frame.eval (i :: rest) stack site).Becomes s.config.recursionLimit m.depth .run)
          m.frames :=
        fun stack' w' => ⟨[.eval rest stack' site], rfl, .goesOn i rest stack stack' site⟩
      simp only [evalItem] at hcrash ⊢
      split
      · exact hgoes _ _
      · next callee args stack' heffect =>
          exact ⟨[.call callee args (some site), .eval rest stack' site], rfl,
            .calls (Item.calls_of_effect heffect) rest stack stack' site callee args⟩
      · split
        · exact hgoes _ _
        · exact leads_nil rfl rfl rfl
      · split
        · exact leads_nil rfl rfl rfl
        · split
          · refine ⟨[.eval (i :: rest) stack site], rfl, ?_⟩
            rw [push, hsignal]
            exact .waits _
          · split
            · exact hgoes _ _
            · exact leads_nil rfl rfl rfl
            · exact leads_nil rfl rfl rfl
      · exact leads_nil rfl rfl rfl
      · next message heffect =>
          rw [heffect] at hcrash
          exact absurd rfl (hcrash message)

/-- A frame receives the value that it waited for. -/
theorem leads_receive (hawaits : f.awaits = some .value) (v : Value) :
    (m.receive s w v f).Leads (f.Becomes s.config.recursionLimit m.depth (.value v)) m.frames := by
  cases f with
  | act action site =>
      cases action with
      | declare name =>
          simp only [receive, act]
          split <;> exact leads_nil rfl rfl rfl
      | assign target =>
          simp only [receive, act]
          split <;> exact leads_nil rfl rfl rfl
      | raise =>
          simp only [receive, act]
          split <;> exact leads_nil rfl rfl rfl
      | _ => exact leads_nil rfl rfl rfl
  | branch site body rest otherwise =>
      simp only [receive]
      split
      · exact ⟨[.body body true false], rfl, .accepts site body rest otherwise v⟩
      · refine (leads_choose otherwise rest).imp ?_
        rintro _ gs sig ⟨rfl, h⟩
        exact .rejects h site body v
      · exact leads_nil rfl rfl rfl
  | lower var site upper body =>
      simp only [receive]
      split
      · refine (leads_evaluate _ upper).imp ?_
        rintro _ gs sig ⟨rfl, h⟩
        exact .bounds h site v
      · exact leads_nil rfl rfl rfl
  | upper var next site body =>
      simp only [receive]
      split
      · next hi _ => exact ⟨[.count var (some next) hi body], rfl, .bounded var next hi site body v⟩
      · exact leads_nil rfl rfl rfl
  | test test body =>
      simp only [receive]
      split
      · exact ⟨[.body body true false, .again test body], rfl, .turns test body v⟩
      · exact leads_nil rfl rfl rfl
      · exact leads_nil rfl rfl rfl
  | eval items stack site =>
      exact ⟨[.eval items (.value v :: stack) site], rfl, .receives items stack site v⟩
  | supply c rest =>
      have hsame : ({ c with args := c.args ++ [v] } : Call).procedure = c.procedure := rfl
      refine (leads_supply { c with args := c.args ++ [v] } rest).imp ?_
      rintro _ gs sig ⟨rfl, h⟩
      exact .supplies hsame rfl h v
  | adopt object cls args taken site =>
      refine (leads_initialise object cls args taken site).imp ?_
      rintro _ gs sig ⟨rfl, h⟩
      exact .adopts h object args taken v
  | finish object => exact leads_nil rfl rfl rfl
  | _ => simp [Frame.awaits] at hawaits

/-- A frame goes on by itself. -/
theorem leads_resumeFrame (hsignal : m.signal = .run) (hgoes : f.goesOn = true)
    (hcrash : ∀ message, (m.resumeFrame s w f).step ≠ .crash message) :
    (m.resumeFrame s w f).Leads (f.Becomes s.config.recursionLimit m.depth .run) m.frames := by
  cases f with
  | body rest own begun =>
      cases begun with
      | true =>
          refine ⟨[.body rest own false], rfl, ?_⟩
          simp only [resumeFrame, push, hsignal]
          exact .rests rest own
      | false =>
          cases rest with
          | nil => exact leads_nil rfl rfl rfl
          | cons stmt rest =>
              obtain ⟨gs, hframes, hst, h⟩ :=
                leads_begin (m := m.push (.body rest own true)) (w := w) stmt
              refine ⟨gs ++ [.body rest own true], ?_, ?_⟩
              · rw [List.append_assoc]
                exact hframes
              · simp only [resumeFrame]
                rw [hst]
                exact .begins h
  | count var next last body =>
      cases next with
      | none => exact leads_nil rfl rfl rfl
      | some i =>
          simp only [resumeFrame]
          split
          · exact leads_nil rfl rfl rfl
          · exact ⟨[.body body true false, .count var (successor? i) last body], rfl,
              .counts var _ _ last body⟩
  | again test body =>
      refine (leads_evaluate _ test).imp ?_
      rintro _ gs sig ⟨rfl, h⟩
      exact .retests h
  | guard handlers => exact leads_nil rfl rfl rfl
  | enter lock body =>
      simp only [resumeFrame]
      split
      · refine ⟨[.enter lock body], rfl, ?_⟩
        rw [push, hsignal]
        exact .waits _
      · exact ⟨[.body body true false, .hold lock], rfl, .locks lock body⟩
  | hold lock => exact leads_nil rfl rfl rfl
  | eval items stack site => exact leads_evalItem hsignal items stack site hcrash
  | call callee args site => exact leads_call callee args site hcrash
  | running c => exact leads_nil rfl rfl rfl
  | construct cls args site => exact leads_construct cls args site
  | _ => simp [Frame.goesOn, Frame.awaits] at hgoes

/-- A frame is left. -/
theorem leads_unwind (f : Frame) (e : Exit) :
    (m.unwind s w e f).Leads (f.Becomes s.config.recursionLimit m.depth (.leave e)) m.frames := by
  unfold unwind
  split
  · exact ⟨[f], rfl, .stops f (Or.inl rfl) (Or.inr ⟨_, rfl⟩)⟩
  · exact ⟨[f], rfl, .stops f (Or.inr rfl) (Or.inr ⟨_, rfl⟩)⟩
  · exact leads_nil rfl rfl rfl
  · exact leads_nil rfl rfl rfl
  · split
    · simp only [handle]
      split
      · exact leads_nil rfl rfl rfl
      · next handler hfind =>
          exact ⟨[.body handler.body true false], rfl,
            .handles (List.mem_of_find?_eq_some hfind) _⟩
    · split
      · exact leads_nil rfl rfl rfl
      · exact leads_nil rfl rfl rfl
    · split
      · exact ⟨[f], rfl, .stops f (Or.inr rfl) (Or.inl rfl)⟩
      · exact leads_nil rfl rfl rfl
    · exact leads_nil rfl rfl rfl

/-- What takes the place of the frame on top in one step. -/
theorem InOrder.becomes {goal : Shape} {base : Nat} {env : Env} {fs : List Frame}
    (horder : m.InOrder goal base env) (hframes : m.frames = f :: fs)
    (hcrash : ∀ message, (m.step s w).step ≠ .crash message) :
    ∃ gs, (m.step s w).machine.frames = gs ++ fs ∧
      f.Becomes s.config.recursionLimit m.depth m.signal (m.step s w).step gs
        (m.step s w).machine.signal := by
  obtain ⟨frames, signal, scopes, depth⟩ := m
  change frames = f :: fs at hframes
  subst hframes
  cases signal with
  | run => exact leads_resumeFrame (m := ⟨fs, .run, scopes, depth⟩) rfl horder.2.1 hcrash
  | value v =>
      exact leads_receive (m := ⟨fs, .run, scopes, depth⟩) (Upholds.of_cons horder.2).1 v
  | leave e => exact leads_unwind (m := ⟨fs, .run, scopes, depth⟩) f e

/-- What holds of all frames goes on to hold of them if it holds of whatever takes the place of one
that it holds of. -/
theorem InOrder.forall_step {goal : Shape} {base : Nat} {env : Env} {P : Frame → Prop}
    (horder : m.InOrder goal base env) (hcrash : ∀ message, (m.step s w).step ≠ .crash message)
    (hbecomes : ∀ {f st gs sig}, f ∈ m.frames → P f →
      f.Becomes s.config.recursionLimit m.depth m.signal st gs sig → ∀ g ∈ gs, P g)
    (h : ∀ f ∈ m.frames, P f) : ∀ f ∈ (m.step s w).machine.frames, P f := by
  cases hframes : m.frames with
  | nil =>
      rw [step_of_frames_nil hframes]
      exact h
  | cons f fs =>
      obtain ⟨gs, hgs, hb⟩ := horder.becomes hframes hcrash
      have hmem : f ∈ m.frames := hframes ▸ List.mem_cons_self
      have htop : ∀ g ∈ gs, P g := hbecomes hmem (h f hmem) hb
      rw [hframes] at h
      rw [hgs]
      exact List.forall_mem_append.mpr ⟨htop, (List.forall_mem_cons.mp h).2⟩

end Machine

end Statute
