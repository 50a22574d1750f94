import Statute.Proofs.Machine.Cargo
import Statute.Proofs.Machine.Interference
import Statute.Proofs.Machine.Nesting

/-!
# Calls are isolated from their callers

A call that has all its arguments runs its body in a fresh scope inside the global one. Neither the
scopes of the caller nor the frames below are within its reach. So two calls of the same procedure
with the same arguments do the same, wherever they are made from, provided that the worlds agree on
what anyone can see, and go on agreeing whenever others change it. And neither of them touches a
scope that was there before, the global one apart.

The proof follows both calls at once. At every point there is a third world, without the scopes of
the callers, and a machine in it that works at the body alone; each of the two calls is there amid
its own surroundings.
-/

namespace Statute

/-- Who makes a call: in which world, above which frames and inside which scopes. Others leave the
scopes in `held` alone. -/
structure Caller where
  world : World
  below : List Frame
  scopes : ScopeStack
  held : List ScopeRef

/-- The scopes of a caller have not changed, apart from the global one. -/
def Caller.Keeps (k : Caller) (w : World) : Prop :=
  ∀ r ∈ k.held, 0 < r → r < k.world.heap.scopes.size →
    w.heap.scope r = k.world.heap.scope r

namespace Call

/-! ## Calls -/

def frame (c : Call) : Frame :=
  .call c.callee c.args c.site

def begins (c : Call) (k : Caller) (depth : Nat) : Machine :=
  ⟨c.frame :: k.below, .run, k.scopes, depth⟩

/-- The world after the scope of a call has been opened. -/
def opened (c : Call) (w : World) : World :=
  { w with
    heap := (w.heap.newScope c.procedure.name).1.defineAll w.heap.scopes.size
      (Machine.callVars c) }

def inside (c : Call) (r : ScopeRef) (depth : Nat) : Machine :=
  ⟨[.body c.procedure.body false false], .run, ⟨r :: World.globals, []⟩, depth + 1⟩

def tooDeep (c : Call) (limit : Nat) : Failure :=
  (Failure.new .recursionLimit ("maximum recursion depth of " ++ toString limit ++
    " exceeded calling '" ++ c.procedure.name ++ "'")).atCall c.site

def IsAnswer (signal : Signal) : Prop :=
  (∃ v, signal = .value v) ∨ ∃ f, signal = .leave (.failWith f)

variable {s : Setting} {c : Call} {depth : Nat} {k : Caller} {u v w w' : World} {m m₀ : Machine}
  {e : Surroundings} {held : List ScopeRef} {st : Step}

/-- With all its arguments a call enters its body at once. -/
theorem step_begins (hargs : c.args.length = c.procedure.params.length) :
    (c.begins k depth).step s w = Machine.enter s w ⟨k.below, .run, k.scopes, depth⟩ c := by
  have hbind : Machine.bind s w ⟨k.below, .run, k.scopes, depth⟩ c =
      Machine.enter s w ⟨k.below, .run, k.scopes, depth⟩ c := by
    have hrequired := Procedure.requiredOf_le_length c.procedure.params
    have hfits : ¬ (c.args.length < c.procedure.required ∨
        c.procedure.params.length < c.args.length) := by
      simp only [Procedure.required]
      omega
    simp only [Machine.bind, if_neg hfits]
    rw [hargs, List.drop_length]
    rfl
  rw [← hbind]
  obtain ⟨p, receiver, args, site⟩ := c
  cases receiver <;> rfl

theorem step_begins_deep (hargs : c.args.length = c.procedure.params.length)
    (hdepth : s.config.recursionLimit ≤ depth) (k : Caller) (w : World) :
    (c.begins k depth).step s w =
      ⟨.next, w, ⟨k.below, .leave (.failWith (c.tooDeep s.config.recursionLimit)), k.scopes,
        depth⟩⟩ := by
  rw [step_begins hargs, Machine.enter, if_pos hdepth]
  rfl

theorem step_begins_inside (hargs : c.args.length = c.procedure.params.length)
    (hdepth : depth < s.config.recursionLimit) (k : Caller) (w : World) :
    (c.begins k depth).step s w =
      ⟨.next, c.opened w, (c.inside w.heap.scopes.size depth).above (.running c :: k.below)
        (k.scopes.push (w.heap.scopes.size :: World.globals))⟩ := by
  rw [step_begins hargs, Machine.enter, if_neg (Nat.not_le.mpr hdepth)]
  rfl

theorem inOrder_inside (c : Call) (r : ScopeRef) (depth : Nat) :
    (c.inside r depth).InOrder .statement (depth + 1) (r :: World.globals) :=
  ⟨rfl, rfl, _, _, .nothing rfl rfl _ _, .root⟩

theorem opened_amid (c : Call) (hfree : Scope.freeCount e.scopes < w.heap.scopes.size) :
    c.opened (w.amid e) = (c.opened w).amid e := by
  have hsize : (w.amid e).heap.scopes.size = past e.scopes w.heap.scopes.size :=
    Heap.size_amid hfree
  unfold opened
  rw [hsize, World.heap_amid, Heap.newScope_amid hfree, Heap.defineAll_amid]
  rfl

theorem size_opened (c : Call) (w : World) :
    (c.opened w).heap.scopes.size = w.heap.scopes.size + 1 := by
  simp [opened, Heap.size_defineAll, Heap.size_newScope]

theorem fits_inside (c : Call) (hfree : Scope.freeCount e.scopes < w.heap.scopes.size) :
    (c.inside w.heap.scopes.size depth).Fits e (c.opened w) := by
  unfold Machine.Fits
  rw [c.size_opened w]
  refine ⟨Nat.lt_succ_of_lt hfree, ?_, ?_⟩
  · intro r hr
    rcases List.mem_cons.mp hr with rfl | hr
    · exact Nat.lt_succ_self _
    · rw [List.mem_singleton.mp hr]
      exact Nat.succ_pos _
  · intro env henv
    exact absurd henv List.not_mem_nil

/-! ## Points that a call passes -/

/-- How far a call has got, whoever has made it. -/
inductive Point where
  | begun
  /-- The body is at work, and `m` is what works at it. -/
  | inside (m : Machine)
  /-- The body has come to its end. -/
  | leaving (signal : Signal)
  | left (answer : Signal)

def Point.after (m : Machine) : Point :=
  if m.frames = [] then .leaving m.signal else .inside m

/-- The point after the frame of a call has heard how the body ended. -/
def Point.leave (c : Call) : Signal → Point
  | .run => .left (.value .empty)
  | .value _ => .leaving .run
  | .leave .breakOut => .leaving (.leave (.failWith (Machine.outsideLoop "break")))
  | .leave .continueOn => .leaving (.leave (.failWith (Machine.outsideLoop "continue")))
  | .leave (.returnWith v) => .left (.value v)
  | .leave (.failWith f) =>
      .left (.leave (.failWith (f.leaving ⟨c.procedure.name, c.site⟩)))

/-- The surroundings of a call: the scopes of the caller are among them, and what the call opens is
its own. -/
structure Surrounds (k : Caller) (e : Surroundings) (u : World) (held : List ScopeRef) :
    Prop where
  printed : e.output = k.world.output
  taken : ∀ r, r + 1 < k.world.heap.scopes.size → ∃ other, e.scopes[r]? = some (some other)
  own : ∀ r, 0 < r → r < u.heap.scopes.size → past e.scopes r ∈ held

/-- A call that a caller has made is at a point. Without its surroundings it is in the world `u`. -/
inductive At (c : Call) (depth : Nat) (k : Caller) (u : World) :
    Point → World → Machine → List ScopeRef → Prop
  | begun {w : World} {held : List ScopeRef} :
      At c depth k u .begun w (c.begins k depth) held
  | inside {held : List ScopeRef} {e : Surroundings} {env : Env} {m : Machine}
      (hframes : m.frames ≠ []) (hfits : m.Fits e u) (hsurrounds : Surrounds k e u held)
      (horder : (m.amid e).InOrder .statement (depth + 1) env) :
      At c depth k u (.inside m) (u.amid e)
        ((m.amid e).above (.running c :: k.below) (k.scopes.push env)) held
  | leaving {w : World} {held : List ScopeRef} {env : Env} {signal : Signal} :
      At c depth k u (.leaving signal) w
        ⟨.running c :: k.below, signal, k.scopes.push env, depth + 1⟩ held
  | left {w : World} {held : List ScopeRef} {signal : Signal} (hanswer : IsAnswer signal) :
      At c depth k u (.left signal) w ⟨k.below, signal, k.scopes, depth⟩ held

/-- What a call has left of the world of its caller, given what anyone can see. -/
structure Shares (k : Caller) (u w : World) (held : List ScopeRef) : Prop where
  agrees : w.Agrees u
  printed : w.output = k.world.output ++ u.output
  keeps : k.Keeps w
  size_le : k.world.heap.scopes.size ≤ w.heap.scopes.size
  held : k.held ⊆ held

/-- A call keeps to its course: it is at a point, and shares what anyone can see. -/
structure Tracks (c : Call) (depth : Nat) (k : Caller) (u : World) (p : Point) (w : World)
    (m : Machine) (held : List ScopeRef) : Prop where
  shares : Shares k u w held
  point : At c depth k u p w m held

/-! ### Others at work -/

theorem Shares.others (h : Shares k u w held) (hmeanwhile : w.Meanwhile held v w') :
    Shares k (u.madeLike v) w' held where
  agrees := hmeanwhile.seen.trans (World.madeLike_agrees hmeanwhile.seen.symm.size_pos).symm
  printed := by
    rw [hmeanwhile.printed, h.printed]
    exact Array.append_assoc
  keeps r hr hpos hlt := by rw [hmeanwhile.kept r (h.held hr) hpos, h.keeps r hr hpos hlt]
  size_le := Nat.le_trans h.size_le hmeanwhile.size_le
  held := h.held

theorem At.others {p : Point} (h : At c depth k u p w m held)
    (hmeanwhile : w.Meanwhile held v w') : At c depth k (u.madeLike v) p w' m held := by
  have hv : 0 < v.heap.scopes.size := hmeanwhile.seen.symm.size_pos
  cases h with
  | begun => exact .begun
  | @inside held e env m hframes hfits hsurrounds horder =>
      obtain ⟨e', rfl, hprinted, hretaken⟩ := hmeanwhile.exists_amid hfits hsurrounds.own
      have hpast := Machine.past_eq_of_retaken hretaken
      have hsame : m.amid e' = m.amid e := Machine.amid_congr hfits hpast
      have hpos : 0 < u.heap.scopes.size := Nat.zero_lt_of_lt hfits.free
      rw [← hsame] at horder ⊢
      refine .inside hframes (hfits.retaken hv hretaken) ⟨?_, ?_, ?_⟩ horder
      · exact hprinted.trans hsurrounds.printed
      · intro r hr
        obtain ⟨other, hother⟩ := hsurrounds.taken r hr
        exact hretaken.taken r other hother
      · intro r hr hlt
        rw [World.size_madeLike hv hpos] at hlt
        rw [hpast r hlt]
        exact hsurrounds.own r hr hlt
  | leaving => exact .leaving
  | left hanswer => exact .left hanswer

theorem Tracks.others {p : Point} (h : Tracks c depth k u p w m held)
    (hmeanwhile : w.Meanwhile held v w') : Tracks c depth k (u.madeLike v) p w' m held :=
  ⟨h.shares.others hmeanwhile, h.point.others hmeanwhile⟩

/-! ### Steps -/

theorem Shares.append (h : Shares k u w held) (more : List ScopeRef) :
    Shares k u w (held ++ more) :=
  { h with held := fun _ hr => List.mem_append_left more (h.held hr) }

theorem Surrounds.size_le (h : Surrounds k e u held)
    (hfree : Scope.freeCount e.scopes < u.heap.scopes.size) :
    k.world.heap.scopes.size ≤ (u.amid e).heap.scopes.size := by
  cases hsize : k.world.heap.scopes.size with
  | zero => exact Nat.zero_le _
  | succ n =>
      cases n with
      | zero => exact (World.agrees_amid (Nat.zero_lt_of_lt hfree) e).size_pos
      | succ r =>
          obtain ⟨other, htaken⟩ := h.taken r (by omega)
          have hscope : (Scope.amid e.scopes u.heap.scopes.toList)[r + 1]? = some other :=
            Scope.getElem?_amid_of_taken hfree htaken
          exact (List.getElem?_eq_some_iff.mp hscope).1

/-- What a call opens is its own from then on. -/
theorem Surrounds.next {u' : World} (h : Surrounds k e u held)
    (hfree : Scope.freeCount e.scopes < u.heap.scopes.size)
    (hfree' : Scope.freeCount e.scopes < u'.heap.scopes.size) :
    Surrounds k e u' (held ++ (u.amid e).openedUntil (u'.amid e)) where
  printed := h.printed
  taken := h.taken
  own r hpos hlt := by
    by_cases hr : r < u.heap.scopes.size
    · exact List.mem_append_left _ (h.own r hpos hr)
    · refine List.mem_append_right _ (World.mem_openedUntil ?_ ?_)
      · rw [World.heap_amid, Heap.size_amid hfree]
        exact past_le_past e.scopes (Nat.le_of_not_lt hr)
      · rw [World.heap_amid, Heap.size_amid hfree']
        exact past_lt_past e.scopes hlt

theorem Surrounds.keeps {u' : World} (h : Surrounds k e u held)
    (hfree : Scope.freeCount e.scopes < u.heap.scopes.size)
    (hfree' : Scope.freeCount e.scopes < u'.heap.scopes.size) (hkeeps : k.Keeps (u.amid e)) :
    k.Keeps (u'.amid e) := by
  intro r hr hpos hlt
  obtain ⟨r, rfl⟩ := Nat.exists_eq_add_one_of_ne_zero (Nat.ne_of_gt hpos)
  obtain ⟨other, htaken⟩ := h.taken r hlt
  rw [← hkeeps (r + 1) hr hpos hlt, World.heap_amid, World.heap_amid,
    Heap.scope_amid_of_taken hfree htaken, Heap.scope_amid_of_taken hfree' htaken]

/-- A body that goes on amid the same surroundings keeps to its course. -/
theorem Surrounds.tracks {u' : World} {env : Env} (hsurrounds : Surrounds k e u held)
    (hfree : Scope.freeCount e.scopes < u.heap.scopes.size) (hshares : Shares k v (u.amid e) held)
    (hfits : m.Fits e u') (horder : (m.amid e).InOrder .statement (depth + 1) env) :
    Tracks c depth k u' (.after m) (u'.amid e)
      ((m.amid e).above (.running c :: k.below) (k.scopes.push env))
      (held ++ (u.amid e).openedUntil (u'.amid e)) := by
  have hnext := hsurrounds.next hfree hfits.free
  refine ⟨⟨?_, ?_, ?_, hnext.size_le hfits.free, (hshares.append _).held⟩, ?_⟩
  · exact World.agrees_amid (Nat.zero_lt_of_lt hfits.free) e
  · rw [← hsurrounds.printed]
    rfl
  · exact hsurrounds.keeps hfree hfits.free hshares.keeps
  · unfold Point.after
    split
    · next hframes =>
        obtain ⟨hinner, hdepth⟩ := horder.of_frames_nil hframes
        have hleaving : (m.amid e).above (.running c :: k.below) (k.scopes.push env) =
            ⟨.running c :: k.below, m.signal, k.scopes.push env, depth + 1⟩ := by
          have hframes' : (m.amid e).frames = [] := hframes
          simp only [Machine.above, hframes', hinner, hdepth, List.nil_append]
          rfl
        rw [hleaving]
        exact .leaving
    · next hframes => exact .inside hframes hfits hnext horder

theorem Tracks.step_deep (h : Tracks c depth k u .begun w m held)
    (hargs : c.args.length = c.procedure.params.length)
    (hdepth : s.config.recursionLimit ≤ depth) :
    ∃ m', m.step s w = ⟨.next, w, m'⟩ ∧
      Tracks c depth k u (.left (.leave (.failWith (c.tooDeep s.config.recursionLimit)))) w m'
        (held ++ w.openedUntil w) := by
  obtain ⟨hshares, hpoint⟩ := h
  cases hpoint with
  | begun => exact ⟨_, step_begins_deep hargs hdepth k w, hshares.append _, .left (Or.inr ⟨_, rfl⟩)⟩

/-- The surroundings of a call that is about to begin: all scopes that there are, apart from the
global one. -/
theorem Shares.exists_surrounds (h : Shares k u w held) :
    ∃ e, w = u.withoutLocals.amid e ∧
      Scope.freeCount e.scopes < u.withoutLocals.heap.scopes.size ∧
      Surrounds k e u.withoutLocals held := by
  have hone := World.size_withoutLocals h.agrees.symm.size_pos
  refine ⟨_, World.eq_amid_locals h.agrees h.printed, ?_, rfl, ?_, ?_⟩
  · rw [hone]
    simp [World.around, Scope.freeCount]
  · intro r hr
    have hsize := h.size_le
    have hlocals := w.length_locals
    have hr : r < w.locals.length := by omega
    exact ⟨w.locals.get ⟨r, hr⟩, by simp [World.around, hr]⟩
  · intro r hpos hr
    omega

theorem Tracks.step_begun (h : Tracks c depth k u .begun w m held)
    (hargs : c.args.length = c.procedure.params.length)
    (hdepth : depth < s.config.recursionLimit) :
    ∃ w' m', m.step s w = ⟨.next, w', m'⟩ ∧ w'.tasks.size = w.tasks.size ∧
      Tracks c depth k (c.opened u.withoutLocals)
        (.after (c.inside u.withoutLocals.heap.scopes.size depth)) w' m'
        (held ++ w.openedUntil w') := by
  obtain ⟨hshares, hpoint⟩ := h
  cases hpoint with
  | begun =>
      refine ⟨_, _, step_begins_inside hargs hdepth k w, rfl, ?_⟩
      obtain ⟨e, rfl, hfree, hsurrounds⟩ := hshares.exists_surrounds
      have horder := c.inOrder_inside (u.withoutLocals.amid e).heap.scopes.size depth
      have hinside : c.inside (u.withoutLocals.amid e).heap.scopes.size depth =
          (c.inside u.withoutLocals.heap.scopes.size depth).amid e := by
        rw [World.heap_amid, Heap.size_amid hfree]
        rfl
      rw [hinside] at horder ⊢
      rw [c.opened_amid hfree]
      exact hsurrounds.tracks hfree hshares (c.fits_inside hfree) horder

/-- The body of a call takes the steps that it takes without the surroundings. -/
theorem Tracks.step_inside {u' : World} {m₁ : Machine}
    (h : Tracks c depth k u (.inside m₀) w m held)
    (hstep : m₀.step s u = ⟨st, u', m₁⟩) (hst : st = .next ∨ st = .pause ∨ st = .blocked)
    (hquiet : u'.tasks.size = u.tasks.size) :
    ∃ w' m', m.step s w = ⟨st, w', m'⟩ ∧ w'.tasks.size = w.tasks.size ∧
      Tracks c depth k u' (.after m₁) w' m' (held ++ w.openedUntil w') := by
  obtain ⟨hshares, hpoint⟩ := h
  cases hpoint with
  | @inside held e env m hframes hfits hsurrounds horder =>
      have habove : ((m₀.amid e).above (.running c :: k.below) (k.scopes.push env)).step s
          (u.amid e) = ((m₀.amid e).step s (u.amid e)).above (.running c :: k.below)
            (k.scopes.push env) := Machine.step_above horder hframes
      have hparallel := Machine.step_amid (s := s) hfits
      rw [hstep] at hparallel
      cases hparallel with
      | scheduled hlt => exact absurd hquiet (Nat.ne_of_gt hlt)
      | amid hamid =>
          have hafter := horder.step (s := s) (w := u.amid e)
          rw [hamid.eq] at habove hafter
          refine ⟨_, _, habove, ?_, hsurrounds.tracks hfits.free hshares hamid.fits ?_⟩
          · change (u'.amid e).tasks.size = (u.amid e).tasks.size
            simpa using hquiet
          · rcases hafter with hafter | ⟨message, rfl⟩
            · exact hafter
            · simp at hst

/-- If a body schedules nothing in a step, then it would not without the surroundings. -/
theorem Tracks.exists_step {w₁ : World} {m₁ : Machine}
    (h : Tracks c depth k u (.inside m₀) w m held) (hstep : m.step s w = ⟨st, w₁, m₁⟩)
    (hquiet : w₁.tasks.size = w.tasks.size) :
    ∃ u' m', m₀.step s u = ⟨st, u', m'⟩ ∧ u'.tasks.size = u.tasks.size := by
  cases h.point with
  | @inside held e env m hframes hfits hsurrounds horder =>
      have hamong : (m₀.amid e).frames ≠ [] := hframes
      rw [Machine.step_above horder hamong] at hstep
      have hworld : ((m₀.amid e).step s (u.amid e)).world = w₁ := congrArg Reply.world hstep
      rw [World.tasks_size_amid, ← hworld] at hquiet
      cases Machine.step_amid (s := s) hfits with
      | scheduled _ hlt => exact absurd hquiet (Nat.ne_of_gt hlt)
      | amid hamid =>
          rw [hamid.eq] at hstep hquiet
          have hkind : (m₀.step s u).step = st := congrArg Reply.step hstep
          subst hkind
          exact ⟨_, _, rfl, World.tasks_size_amid.symm.trans hquiet⟩

theorem Tracks.step_leaving {signal : Signal} (h : Tracks c depth k u (.leaving signal) w m held)
    (s : Setting) :
    ∃ m', m.step s w = ⟨.next, w, m'⟩ ∧
      Tracks c depth k u (.leave c signal) w m' (held ++ w.openedUntil w) := by
  obtain ⟨hshares, hpoint⟩ := h
  have hshares := hshares.append (w.openedUntil w)
  cases hpoint with
  | leaving =>
      cases signal with
      | run => exact ⟨_, rfl, hshares, .left (Or.inl ⟨_, rfl⟩)⟩
      | value v => exact ⟨_, rfl, hshares, .leaving⟩
      | leave x =>
          cases x with
          | breakOut => exact ⟨_, rfl, hshares, .leaving⟩
          | continueOn => exact ⟨_, rfl, hshares, .leaving⟩
          | returnWith v => exact ⟨_, rfl, hshares, .left (Or.inl ⟨v, rfl⟩)⟩
          | failWith f => exact ⟨_, rfl, hshares, .left (Or.inr ⟨_, rfl⟩)⟩

/-- Of all calls at one point, if one takes a step that schedules nothing, then each does, and they
come to one point again. -/
theorem Tracks.step {w₁ : World} {m₁ : Machine} {p : Point}
    (h : Tracks c depth k u p w m held) (hargs : c.args.length = c.procedure.params.length)
    (hframes : k.below.length < m.frames.length) (hstep : m.step s w = ⟨st, w₁, m₁⟩)
    (hst : st = .next ∨ st = .pause ∨ st = .blocked) (hquiet : w₁.tasks.size = w.tasks.size) :
    ∃ u' p', ∀ {k : Caller} {w : World} {m : Machine} {held : List ScopeRef},
      Tracks c depth k u p w m held →
        ∃ w' m', m.step s w = ⟨st, w', m'⟩ ∧ w'.tasks.size = w.tasks.size ∧
          Tracks c depth k u' p' w' m' (held ++ w.openedUntil w') := by
  cases p with
  | begun =>
      by_cases hdepth : s.config.recursionLimit ≤ depth
      · obtain ⟨m', hown, -⟩ := h.step_deep hargs hdepth
        rw [hown] at hstep
        cases hstep
        refine ⟨u, .left (.leave (.failWith (c.tooDeep s.config.recursionLimit))), fun h => ?_⟩
        obtain ⟨m', hstep, htracks⟩ := h.step_deep hargs hdepth
        exact ⟨_, m', hstep, rfl, htracks⟩
      · have hdepth := Nat.lt_of_not_le hdepth
        obtain ⟨w', m', hown, -⟩ := h.step_begun hargs hdepth
        rw [hown] at hstep
        cases hstep
        exact ⟨_, _, fun h => h.step_begun hargs hdepth⟩
  | inside m₀ =>
      obtain ⟨u', m', hsmall, hquiet⟩ := h.exists_step hstep hquiet
      exact ⟨u', .after m', fun h => h.step_inside hsmall hst hquiet⟩
  | leaving signal =>
      obtain ⟨m', hown, -⟩ := h.step_leaving s
      rw [hown] at hstep
      cases hstep
      refine ⟨u, .leave c signal, fun h => ?_⟩
      obtain ⟨m', hstep, htracks⟩ := h.step_leaving s
      exact ⟨_, m', hstep, rfl, htracks⟩
  | left signal =>
      cases h.point with
      | left => exact absurd hframes (Nat.lt_irrefl _)

/-! ### Runs -/

theorem Tracks.exists_left {p : Point} (h : Tracks c depth k u p w m held)
    (hframes : m.frames.length = k.below.length) : ∃ signal, p = .left signal := by
  cases h.point with
  | begun => exact absurd hframes (Nat.succ_ne_self _)
  | inside =>
      simp only [Machine.above, List.length_append, List.length_cons] at hframes
      omega
  | leaving => exact absurd hframes (Nat.succ_ne_self _)
  | @left _ _ signal => exact ⟨signal, rfl⟩

theorem Tracks.lt_of_ne_left {p : Point} (h : Tracks c depth k u p w m held)
    (hp : ∀ signal, p ≠ .left signal) : k.below.length < m.frames.length := by
  cases h.point with
  | begun => exact Nat.lt_succ_self _
  | inside =>
      simp only [Machine.above, List.length_append, List.length_cons]
      omega
  | leaving => exact Nat.lt_succ_self _
  | @left _ _ signal => exact absurd rfl (hp signal)

theorem Tracks.ne_left {p : Point} (h : Tracks c depth k u p w m held)
    (hframes : k.below.length < m.frames.length) : ∀ signal, p ≠ .left signal := by
  rintro signal rfl
  cases h.point with
  | left => exact absurd hframes (Nat.lt_irrefl _)

/-- Of all calls at one point, if one comes down to the frames of its caller, then each does, while
others do the same, and they come to the same answer. -/
theorem Tracks.run {moves : List (Option World)} {p : Point} {w₁ : World} {m₁ : Machine}
    (hrun : Machine.Descends s k.below.length held moves w m w₁ m₁)
    (h : Tracks c depth k u p w m held) (hargs : c.args.length = c.procedure.params.length) :
    ∃ u' signal, ∀ {k : Caller} {w : World} {m : Machine} {held : List ScopeRef},
      Tracks c depth k u p w m held →
        (∃ w' m', Machine.Descends s k.below.length held moves w m w' m') ∧
        ∀ w' m', Machine.Descends s k.below.length held moves w m w' m' →
          ∃ held', Tracks c depth k u' (.left signal) w' m' held' := by
  induction hrun generalizing u p with
  | @here held w m hframes =>
      obtain ⟨signal, rfl⟩ := h.exists_left hframes
      refine ⟨u, signal, fun {k w m held} h => ⟨⟨w, m, .here ?_⟩, ?_⟩⟩
      · cases h.point
        rfl
      · intro w' m' hrun
        cases hrun
        exact ⟨held, h⟩
  | @go held moves w w₂ w₁ m m₂ m₁ st hframes hstep hst hquiet _ ih =>
      have hp := h.ne_left hframes
      obtain ⟨u₂, p₂, hall⟩ := h.step hargs hframes hstep hst hquiet
      have hnext : Tracks c depth k u₂ p₂ w₂ m₂ (held ++ w.openedUntil w₂) := by
        obtain ⟨w', m', hstep', -, htracks⟩ := hall h
        rw [hstep] at hstep'
        cases hstep'
        exact htracks
      obtain ⟨u', signal, hrest⟩ := ih hnext
      refine ⟨u', signal, fun {k w m held} h => ?_⟩
      have hframes := h.lt_of_ne_left hp
      obtain ⟨w₃, m₃, hstep₃, hquiet₃, htracks⟩ := hall h
      obtain ⟨⟨w', m', hruns⟩, hends⟩ := hrest htracks
      refine ⟨⟨w', m', .go hframes hstep₃ hst hquiet₃ hruns⟩, fun w' m' hrun => ?_⟩
      cases hrun with
      | go _ hstep' _ _ hruns =>
          rw [hstep₃] at hstep'
          cases hstep'
          exact hends w' m' hruns
  | @others held moves v w w₂ w₁ m m₁ hframes hmeanwhile _ ih =>
      have hp := h.ne_left hframes
      have hv : 0 < v.heap.scopes.size := hmeanwhile.seen.symm.size_pos
      obtain ⟨u', signal, hrest⟩ := ih (h.others hmeanwhile)
      refine ⟨u', signal, fun {k w m held} h => ?_⟩
      have hframes := h.lt_of_ne_left hp
      have hlike := World.meanwhile_madeLike hv h.shares.agrees.size_pos held
      obtain ⟨⟨w', m', hruns⟩, -⟩ := hrest (h.others hlike)
      refine ⟨⟨w', m', .others hframes hlike hruns⟩, fun w' m' hrun => ?_⟩
      cases hrun with
      | others _ hmeanwhile hruns => exact (hrest (h.others hmeanwhile)).2 w' m' hruns

/-- A call that is about to begin is on its course, seen without what was printed before. -/
theorem tracks_begins (hagrees : k.world.Agrees v) :
    Tracks c depth k { v with output := #[] } .begun k.world (c.begins k depth) k.held where
  shares :=
    { agrees := ⟨hagrees.globals, hagrees.boxes, hagrees.objects, hagrees.records, hagrees.locks,
        hagrees.tasks, hagrees.closed⟩
      printed := Array.append_empty.symm
      keeps := fun _ _ _ _ => rfl
      size_le := Nat.le_refl _
      held := List.Subset.refl _ }
  point := .begun

/-- A call that has left comes back to the frames, the scopes and the depth of its caller. -/
theorem Tracks.of_left {answer : Signal} (h : Tracks c depth k u (.left answer) w m held) :
    m = ⟨k.below, answer, k.scopes, depth⟩ ∧ IsAnswer answer := by
  cases h.point with
  | left hanswer => exact ⟨rfl, hanswer⟩

/-! ## Isolation -/

/-- Of two calls of one procedure, or of one method of one object, with the same arguments and from
the same place, each made by a caller of its own, one comes to what the other comes to, as long as
others change what anyone can see in the same way: the same value, or the same failure with the same
calls that it has left. Both print the same lines and leave behind worlds that agree again, and
neither changes a scope of its caller. -/
theorem isolated_from_caller {k₁ k₂ : Caller} {moves : List (Option World)} {w₁ : World}
    {m₁ : Machine} (hargs : c.args.length = c.procedure.params.length)
    (hagrees : k₁.world.Agrees k₂.world)
    (hends : Machine.Descends s k₁.below.length k₁.held moves k₁.world (c.begins k₁ depth) w₁ m₁) :
    ∃ answer, IsAnswer answer ∧ m₁ = ⟨k₁.below, answer, k₁.scopes, depth⟩ ∧ k₁.Keeps w₁ ∧
      (∃ w₂ m₂, Machine.Descends s k₂.below.length k₂.held moves k₂.world (c.begins k₂ depth)
        w₂ m₂) ∧
      ∀ w₂ m₂, Machine.Descends s k₂.below.length k₂.held moves k₂.world (c.begins k₂ depth)
          w₂ m₂ →
        m₂ = ⟨k₂.below, answer, k₂.scopes, depth⟩ ∧ k₂.Keeps w₂ ∧ w₁.Agrees w₂ ∧
          ∃ lines, w₁.output = k₁.world.output ++ lines ∧
            w₂.output = k₂.world.output ++ lines := by
  have hfirst : Tracks c depth k₁ { k₂.world with output := #[] } .begun k₁.world
      (c.begins k₁ depth) k₁.held := tracks_begins hagrees
  have hsecond : Tracks c depth k₂ { k₂.world with output := #[] } .begun k₂.world
      (c.begins k₂ depth) k₂.held := tracks_begins (hagrees.symm.trans hagrees)
  obtain ⟨u, answer, hall⟩ := hfirst.run hends hargs
  obtain ⟨held₁, h₁⟩ := (hall hfirst).2 w₁ m₁ hends
  obtain ⟨hm₁, hanswer⟩ := h₁.of_left
  refine ⟨answer, hanswer, hm₁, h₁.shares.keeps, (hall hsecond).1, fun w₂ m₂ hends₂ => ?_⟩
  obtain ⟨held₂, h₂⟩ := (hall hsecond).2 w₂ m₂ hends₂
  exact ⟨h₂.of_left.1, h₂.shares.keeps, h₁.shares.agrees.trans h₂.shares.agrees.symm, u.output,
    h₁.shares.printed, h₂.shares.printed⟩

/-- A call of a procedure that raises the global total by five, prints it and then throws it. -/
def note : Call :=
  ⟨⟨"note", [⟨"x", none⟩], [.assign ⟨"total", none⟩ ⟨["total", "+", "x"], default⟩,
    .print ⟨["total"], default⟩, .raise ⟨["total"], default⟩]⟩, none, [.int 5], none⟩

/-- A world with a global total and the scopes of a caller. -/
def totalling (total : Int64) (locals : List Scope) : World :=
  { World.new default with
    heap := { Heap.empty with
      scopes := (⟨"global", [("total", .int total)]⟩ :: locals).toArray } }

/-- Whether the call raises a total of 3 to 8, prints it and fails, when there is no caller. -/
def notes : Bool :=
  match Machine.descend? ⟨default, default, Host.none⟩ 0 40 (totalling 3 [])
      (note.begins ⟨totalling 0 [], [], ⟨World.globals, []⟩, []⟩ 0) with
  | some (w, ⟨[], .leave (.failWith f), _, _⟩) =>
      match w.heap.local? 0 "total" with
      | some (.int i) => decide (i = 8 ∧ f.kind = .notThrowable ∧ f.trace = [⟨"note", none⟩] ∧
          w.output = #["8"])
      | _ => false
  | _ => false

/-- The caller has a total of its own. The global one is changed from 0 to 3 by others when the call
has begun, and it is this one that the procedure raises, prints and throws. -/
theorem isolated_from_caller_total :
    let caller : Caller := ⟨totalling 0 [⟨"caller", [("total", .int 7)]⟩], [.body [] false true],
      ⟨[1, 0], []⟩, [1]⟩
    ∃ moves w f, some (totalling 3 []) ∈ moves ∧
      Machine.Descends ⟨default, default, Host.none⟩ 1 caller.held moves caller.world
        (note.begins caller 0) w ⟨caller.below, .leave (.failWith f), caller.scopes, 0⟩ ∧
      f.kind = .notThrowable ∧ f.trace = [⟨"note", none⟩] ∧
      w.heap.local? 0 "total" = some (.int 8) ∧
      w.heap.local? 1 "total" = some (.int 7) ∧ w.output = #["8"] := by
  intro caller
  let nobody : Caller := ⟨totalling 0 [], [], ⟨World.globals, []⟩, []⟩
  have hrun : notes = true := by decide +kernel
  unfold notes at hrun
  split at hrun
  · next w₁ f scopes depth hdescend =>
      split at hrun
      · next i htotal =>
          obtain ⟨rfl, hkind, htrace, houtput⟩ := of_decide_eq_true hrun
          obtain ⟨moves, hdescends⟩ := Machine.descends_of_descend? hdescend
          have hmeanwhile : nobody.world.Meanwhile [] (totalling 3 []) (totalling 3 []) :=
            ⟨⟨⟨_, rfl, rfl⟩, rfl, rfl, rfl, rfl, rfl, rfl⟩, rfl, nofun, Nat.le_refl _⟩
          have hends₁ : Machine.Descends ⟨default, default, Host.none⟩ nobody.below.length
              nobody.held (some (totalling 3 []) :: moves) nobody.world (note.begins nobody 0) w₁
              ⟨[], .leave (.failWith f), scopes, depth⟩ :=
            .others (Nat.succ_pos _) hmeanwhile (hdescends [])
          have hagrees : nobody.world.Agrees caller.world :=
            ⟨⟨_, rfl, rfl⟩, rfl, rfl, rfl, rfl, rfl, rfl⟩
          obtain ⟨answer, -, hanswer, -, ⟨w, m, hends⟩, hsame⟩ :=
            isolated_from_caller rfl hagrees hends₁
          obtain ⟨rfl, hkeeps, hagain, lines, hlines₁, hlines⟩ := hsame w m hends
          cases hanswer
          have hcaller : w.heap.local? 1 "total" = some (.int 7) :=
            congrArg (fun scope : Scope => scope.vars.get? "total")
              (hkeeps 1 (.head _) (by decide) (by decide))
          refine ⟨_, w, f, .head _, hends, hkind, htrace,
            (hagain.local?_zero "total").symm.trans htotal, hcaller, ?_⟩
          rw [hlines, ← houtput, hlines₁]
          rfl
      · contradiction
  · contradiction

end Call

end Statute
