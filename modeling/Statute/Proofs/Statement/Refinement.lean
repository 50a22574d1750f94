import Statute.Proofs.Machine.Locality
import Statute.Proofs.Statement.Structured

/-!
# Machines and the structured meaning of statements

A machine that runs a body and ends has done what the structured meaning of the body says, and has
left the world in the same state.

The frames of a machine are taken apart from the top. `Ends` says that a machine, alone in the
world, gets to its end in so many steps, and `Returns` that on its way there it comes to a point
where the frames below have their turn and learn what the structured meaning says. Each statement is
shown to return, given that the bodies inside it do; the number of steps decreases from a statement
to the bodies inside it, and that is what the induction is on.
-/

namespace Statute

/-- The signal that tells the frames below how a statement ended. -/
def Signal.ofFlow : Except Failure Flow → Signal
  | .ok .stop => .run
  | .ok .breakOut => .leave .breakOut
  | .ok .continueOn => .leave .continueOn
  | .ok (.returnWith v) => .leave (.returnWith v)
  | .error f => .leave (.failWith f)

/-- The signal that tells the frames below what the value of an expression is. -/
def Signal.ofResult : Except Failure Value → Signal
  | .ok v => .value v
  | .error f => .leave (.failWith f)

namespace Frame

def IsWaiting (f : Frame) : Prop :=
  f.awaits = some .value ∧ f.result = .statement

end Frame

namespace Machine

/-- A machine, alone in the world, gets to its end in so many steps. -/
structure Ends (s : Setting) (n : Nat) (w : World) (m : Machine) (w' : World) (m' : Machine) :
    Prop where
  walks : ∃ sts : List Step, sts.length = n ∧ Walks s w m sts w' m'
  frames : m'.frames = []
  alone : Alone s w m

end Machine

/-- What a step left behind gets to its end in so many steps. -/
def Reply.Ends (s : Setting) (n : Nat) (r : Reply) (w' : World) (m' : Machine) : Prop :=
  Machine.Ends s n r.world r.machine w' m'

namespace Machine

/-- On the way to its end a machine comes back to the given frames, in the given scopes, and tells
them how a computation ends that has enough fuel. -/
def Returns (s : Setting) (n : Nat) (below : List Frame) (scopes : ScopeStack) (w' : World)
    (m' : Machine) (x : Nat → Run Flow) : Prop :=
  ∃ k w₁ o, k ≤ n ∧ Eventually x (w₁, o) ∧ Ends s k w₁ ⟨below, .ofFlow o, scopes, 0⟩ w' m'

variable {s : Setting} {n k : Nat} {w w₁ w' : World} {m m₁ m' : Machine} {below : List Frame}
  {scopes : ScopeStack} {x y : Nat → Run Flow}

theorem Ends.step (h : Ends s n w m w' m') (hframes : m.frames ≠ []) :
    ((m.step s w).step = .next ∨ (m.step s w).step = .pause) ∧
      ∃ k, n = k + 1 ∧ (m.step s w).Ends s k w' m' := by
  obtain ⟨⟨sts, rfl, hwalk⟩, hend, halone⟩ := h
  cases hwalk with
  | stay => exact absurd hend hframes
  | go hstep hst hwalk =>
      rw [hstep]
      exact ⟨hst, _, rfl, ⟨_, rfl, hwalk⟩, hend, halone.of_walks (.one hstep hst)⟩

theorem Ends.of_frames_nil (h : Ends s n w m w' m') (hframes : m.frames = []) :
    w' = w ∧ m' = m := by
  obtain ⟨⟨sts, -, hwalk⟩, -, -⟩ := h
  cases hwalk with
  | stay => exact ⟨rfl, rfl⟩
  | go hstep hst hwalk =>
      rw [step_of_frames_nil hframes] at hstep
      cases hstep
      rcases hst with hst | hst <;> contradiction

theorem Returns.mono (h : Returns s n below scopes w' m' x) (hn : n ≤ k) :
    Returns s k below scopes w' m' x := by
  obtain ⟨j, w₁, o, hj, hx, hends⟩ := h
  exact ⟨j, w₁, o, Nat.le_trans hj hn, hx, hends⟩

theorem Returns.of_succ (h : Returns s n below scopes w' m' y)
    (hxy : ∀ fuel, x (fuel + 1) = y fuel) : Returns s n below scopes w' m' x := by
  obtain ⟨j, w₁, o, hj, hy, hends⟩ := h
  exact ⟨j, w₁, o, hj, hy.of_succ hxy, hends⟩

theorem Ends.returns {o : Except Failure Flow} (h : Ends s n w ⟨below, .ofFlow o, scopes, 0⟩ w' m')
    (hx : ∀ fuel, x fuel = some (w, o)) : Returns s n below scopes w' m' x :=
  ⟨n, w, o, Nat.le_refl n, .of_forall hx, h⟩

/-- A computation in two parts, of which the frames in between see the first. -/
theorem Returns.bind {frames : List Frame} {scopes' : ScopeStack}
    {z : Nat → World × Except Failure Flow → Run Flow}
    (h : Returns s n frames scopes' w' m' x)
    (hz : ∀ k w₁ o, k ≤ n → Ends s k w₁ ⟨frames, .ofFlow o, scopes', 0⟩ w' m' →
      Returns s k below scopes w' m' fun fuel => z fuel (w₁, o)) :
    Returns s n below scopes w' m' fun fuel => (x fuel).bind (z fuel) := by
  obtain ⟨k, w₁, o, hk, hx, hends⟩ := h
  obtain ⟨j, w₂, o₂, hj, hy, hends₂⟩ := hz k w₁ o hk hends
  exact ⟨j, w₂, o₂, Nat.le_trans hj hk, hx.bind hy, hends₂⟩

/-- The frame on top takes a step, and what that leads to returns. -/
theorem Ends.returns_of_step {f : Frame} {frames : List Frame} {signal : Signal}
    {scopes' : ScopeStack} {depth : Nat}
    (h : Ends s n w ⟨f :: frames, signal, scopes', depth⟩ w' m')
    (hnext : ∀ k, k < n → (Machine.step s w ⟨f :: frames, signal, scopes', depth⟩).Ends s k w' m' →
      Returns s k below scopes w' m' x) : Returns s n below scopes w' m' x := by
  obtain ⟨-, k, rfl, hends⟩ := h.step (List.cons_ne_nil _ _)
  exact (hnext k (Nat.lt_succ_self k) hends).mono (Nat.le_succ k)

/-! ## Expressions -/

theorem unwind_of_isWaiting {f : Frame} (hf : f.IsWaiting) (failure : Failure) :
    m.unwind s w (.failWith failure) f = m.fail w failure := by
  obtain ⟨hawaits, hresult⟩ := hf
  cases f with
  | act action site => rfl
  | branch site body rest otherwise => rfl
  | lower var site upper body => rfl
  | upper var next site body => rfl
  | test test body => rfl
  | _ => simp [Frame.awaits, Frame.result] at hawaits hresult

theorem eventually_evaluate {c : Code} {e : Expression} {env : Env} {sts : List Step}
    (hcompile : e.compile = .ok c) (halone : Alone s w (ofCode env c))
    (hwalk : Walks s w (ofCode env c) sts w₁ m₁) (hend : m₁.frames = []) :
    Eventually (fun fuel => Structured.evaluate s fuel env w e) (w₁, m₁.outcome) := by
  refine ⟨sts.length + 1, fun fuel hfuel => ?_⟩
  have hrun : (ofCode env c).run s fuel w = ⟨.finished, w₁, m₁⟩ :=
    (hwalk.run halone hend fuel).mpr hfuel
  simp only [Structured.evaluate, hcompile, hrun]

/-- A computation of a value that has ended hands its outcome to the frames below. -/
theorem InOrder.above_of_nil {base : Nat} (h : m.InOrder .value base scopes.current)
    (hframes : m.frames = []) :
    m.above below scopes = ⟨below, .ofResult m.outcome, scopes, base⟩ := by
  obtain ⟨hsignal, hscopes, hdepth⟩ := h.signal_of_nil hframes
  obtain ⟨frames, signal, scopes₁, depth⟩ := m
  change frames = [] at hframes
  change scopes₁ = _ at hscopes
  change depth = base at hdepth
  subst hframes hscopes hdepth
  rcases hsignal with ⟨v, hsignal⟩ | ⟨f, hsignal⟩
  · change signal = .value v at hsignal
    subst hsignal
    rfl
  · change signal = .leave (.failWith f) at hsignal
    subst hsignal
    rfl

/-- The frames below an expression learn what the expression comes to on its own. -/
theorem Ends.ofCode {c : Code} {e : Expression} (hcompile : e.compile = .ok c)
    (h : Ends s n w ((ofCode scopes.current c).above below scopes) w' m') :
    ∃ (k : Nat) (w₁ : World) (r : Except Failure Value), k ≤ n ∧
      Eventually (fun fuel => Structured.evaluate s fuel scopes.current w e) (w₁, r) ∧
      Ends s k w₁ ⟨below, .ofResult r, scopes, 0⟩ w' m' := by
  obtain ⟨⟨sts, rfl, hwalk⟩, hend, halone⟩ := h
  have horder := inOrder_ofCode scopes.current c
  obtain ⟨sts₁, sts₂, w₁, m₁, rfl, hwalk₁, hend₁, hwalk₂⟩ := exists_walks_of_above horder hwalk hend
  have habove := halone.of_walks (hwalk₁.above horder)
  rw [(horder.walks hwalk₁).above_of_nil hend₁] at hwalk₂ habove
  refine ⟨sts₂.length, w₁, m₁.outcome, ?_, ?_, ⟨sts₂, rfl, hwalk₂⟩, hend, habove⟩
  · rw [List.length_append]
    omega
  · exact eventually_evaluate hcompile (halone.of_above horder) hwalk₁ hend₁

/-- A statement that begins with an expression goes on with its value, or ends with its failure. -/
theorem Returns.withValue {f : Frame} {e : Expression} {z : Nat → World → Value → Run Flow}
    (hf : f.IsWaiting)
    (h : (evaluate w ⟨below, .run, scopes, 0⟩ f e).Ends s n w' m')
    (hz : ∀ k w₁ v, k ≤ n → Ends s k w₁ ⟨f :: below, .value v, scopes, 0⟩ w' m' →
      Returns s k below scopes w' m' fun fuel => z fuel w₁ v) :
    Returns s n below scopes w' m' fun fuel =>
      (Structured.evaluate s fuel scopes.current w e).bind (Structured.withValue (z fuel)) := by
  unfold Machine.evaluate at h
  cases hcompile : e.compile with
  | error failure =>
      rw [hcompile] at h
      have hends : Ends s n w ⟨below, .ofFlow (.error failure), scopes, 0⟩ w' m' := h
      refine hends.returns fun fuel => ?_
      simp only [Structured.evaluate, hcompile, Option.bind_some, Structured.withValue]
  | ok c =>
      rw [hcompile] at h
      have habove : Ends s n w ((ofCode scopes.current c).above (f :: below) scopes) w' m' := h
      obtain ⟨k, w₁, r, hk, heval, hends⟩ := habove.ofCode hcompile
      cases r with
      | ok v =>
          obtain ⟨j, w₂, o, hj, hx, hends₂⟩ := hz k w₁ v hk hends
          exact ⟨j, w₂, o, Nat.le_trans hj hk, heval.bind hx, hends₂⟩
      | error failure =>
          obtain ⟨-, j, rfl, hends₂⟩ := hends.step (List.cons_ne_nil _ _)
          change (unwind s w₁ ⟨below, .run, scopes, 0⟩ (.failWith failure) f).Ends s j w' m'
            at hends₂
          rw [unwind_of_isWaiting hf] at hends₂
          exact ⟨j, w₁, .error failure, by omega, heval.bind (.of_forall fun _ => rfl), hends₂⟩

/-- Doing what a statement asks for is one step, and it is what the structured meaning says. -/
theorem act_eq_perform (site : Location) (v : Value) (action : Action) :
    act s w ⟨below, .run, scopes, 0⟩ site v action =
      ⟨.next, (Structured.perform s scopes.current w site v action).1, below,
        .ofFlow (Structured.perform s scopes.current w site v action).2, scopes, 0⟩ := by
  cases action with
  | declare name =>
      simp only [act, Structured.perform]
      split <;> rfl
  | assign target =>
      simp only [act, Structured.perform]
      cases s.place w.heap scopes.current target <;> rfl
  | raise =>
      simp only [act, Structured.perform]
      cases w.heap.thrown v <;> rfl
  | _ => rfl

theorem returns_act {action : Action} {e : Expression}
    (h : (evaluate w ⟨below, .run, scopes, 0⟩ (.act action e.location) e).Ends s n w' m') :
    Returns s n below scopes w' m' fun fuel =>
      Structured.act s fuel scopes.current w action e := by
  refine Returns.withValue ⟨rfl, rfl⟩ h fun k w₁ v hk hends => ?_
  refine hends.returns_of_step fun j hj hends₁ => ?_
  change (act s w₁ ⟨below, .run, scopes, 0⟩ e.location v action).Ends s j w' m' at hends₁
  rw [act_eq_perform] at hends₁
  exact hends₁.returns fun _ => rfl

/-! ## Blocks and loops -/

/-- Bodies that get to the end in at most so many steps return what their structured meaning
says. -/
def BodiesReturn (s : Setting) (n : Nat) (w' : World) (m' : Machine) : Prop :=
  ∀ k w rest own below scopes, k ≤ n →
    Ends s k w ⟨.body rest own false :: below, .run, scopes, 0⟩ w' m' →
      Returns s k below (if own then scopes.pop else scopes) w' m' fun fuel =>
        Structured.runBody s fuel scopes.current w rest

theorem BodiesReturn.block (hbodies : BodiesReturn s n w' m') (hk : k ≤ n) {name : String}
    {vars : List (String × Value)} {body : Body}
    (h : (block w ⟨below, .run, scopes, 0⟩ name vars body).Ends s k w' m') :
    Returns s k below scopes w' m' fun fuel =>
      Structured.inChild w scopes.current name vars fun inner w =>
        Structured.runBody s fuel inner w body :=
  hbodies k _ body true below _ hk h

/-- A loop between two turns ends when it is broken out of, goes on when its turn is cut short, and
is left otherwise. -/
theorem unwind_of_isLoop {f : Frame} (hf : f.isLoop = true) :
    m.unwind s w .breakOut f = m.next w ∧ m.unwind s w .continueOn f = (m.push f).next w ∧
      (∀ v, m.unwind s w (.returnWith v) f = m.leave w (.returnWith v)) ∧
      ∀ failure, m.unwind s w (.failWith failure) f = m.fail w failure := by
  cases f with
  | count var next last body => exact ⟨rfl, rfl, fun _ => rfl, fun _ => rfl⟩
  | again test body => exact ⟨rfl, rfl, fun _ => rfl, fun _ => rfl⟩
  | _ => simp [Frame.isLoop] at hf

/-- What leaves a turn of a loop ends the loop or lets it go on. -/
theorem Returns.absorb {f : Frame} {again : Nat → World → Run Flow} (hf : f.isLoop = true)
    (h : Returns s n (f :: below) scopes w' m' x)
    (hagain : ∀ k w₁, k ≤ n → Ends s k w₁ ⟨f :: below, .run, scopes, 0⟩ w' m' →
      Returns s k below scopes w' m' fun fuel => again fuel w₁) :
    Returns s n below scopes w' m' fun fuel =>
      (x fuel).bind (Structured.absorb (again fuel)) := by
  refine h.bind fun k w₁ o hk hends => ?_
  obtain ⟨hbreak, hcontinue, hreturn, hfail⟩ :=
    unwind_of_isLoop (w := w₁) (m := ⟨below, .run, scopes, 0⟩) hf
  cases o with
  | error failure =>
      refine hends.returns_of_step fun j hj hends₁ => ?_
      change (unwind s w₁ ⟨below, .run, scopes, 0⟩ (.failWith failure) f).Ends s j w' m' at hends₁
      rw [hfail] at hends₁
      exact Ends.returns (o := .error failure) hends₁ fun _ => rfl
  | ok flow =>
      cases flow with
      | stop => exact hagain k w₁ hk hends
      | continueOn =>
          refine hends.returns_of_step fun j hj hends₁ => ?_
          change (unwind s w₁ ⟨below, .run, scopes, 0⟩ .continueOn f).Ends s j w' m' at hends₁
          rw [hcontinue] at hends₁
          exact hagain j w₁ (by omega) hends₁
      | breakOut =>
          refine hends.returns_of_step fun j hj hends₁ => ?_
          change (unwind s w₁ ⟨below, .run, scopes, 0⟩ .breakOut f).Ends s j w' m' at hends₁
          rw [hbreak] at hends₁
          exact Ends.returns (o := .ok .stop) hends₁ fun _ => rfl
      | returnWith v =>
          refine hends.returns_of_step fun j hj hends₁ => ?_
          change (unwind s w₁ ⟨below, .run, scopes, 0⟩ (.returnWith v) f).Ends s j w' m' at hends₁
          rw [hreturn] at hends₁
          exact Ends.returns (o := .ok (.returnWith v)) hends₁ fun _ => rfl

theorem BodiesReturn.runWhile (hbodies : BodiesReturn s n w' m') {test : Expression} {body : Body}
    (hk : k ≤ n)
    (h : (evaluate w ⟨below, .run, scopes, 0⟩ (.test test body) test).Ends s k w' m') :
    Returns s k below scopes w' m' fun fuel =>
      Structured.runWhile s fuel scopes.current w test body := by
  induction k using Nat.strongRecOn generalizing w with
  | ind k ih =>
      refine Returns.of_succ (Returns.withValue ⟨rfl, rfl⟩ h fun i w₁ v hi hends => ?_) fun _ => rfl
      refine hends.returns_of_step fun j hj hends₁ => ?_
      simp only [Machine.step, receive] at hends₁
      cases hholds : condition w₁.heap test.location v with
      | error failure =>
          rw [hholds] at hends₁
          exact Ends.returns (o := .error failure) hends₁ fun _ => rfl
      | ok holds =>
          rw [hholds] at hends₁
          cases holds with
          | false => exact Ends.returns (o := .ok .stop) hends₁ fun _ => rfl
          | true =>
              -- The turn is a body above the loop, and every way it ends comes back to the loop.
              refine Returns.absorb rfl (hbodies.block (by omega) hends₁) fun l w₂ hl hends₂ => ?_
              exact hends₂.returns_of_step fun i hi hends₃ => ih i (by omega) (by omega) hends₃

theorem BodiesReturn.runCount (hbodies : BodiesReturn s n w' m') {var : Option String}
    {next : Option Int64} {last : Int64} {body : Body} (hk : k ≤ n)
    (h : Ends s k w ⟨.count var next last body :: below, .run, scopes, 0⟩ w' m') :
    Returns s k below scopes w' m' fun fuel =>
      Structured.runCount s fuel scopes.current w var next last body := by
  induction k using Nat.strongRecOn generalizing w next with
  | ind k ih =>
      refine h.returns_of_step fun j hj hends => ?_
      cases next with
      | none =>
          have hstop : Ends s j w ⟨below, .ofFlow (.ok .stop), scopes, 0⟩ w' m' := hends
          exact Returns.of_succ (hstop.returns fun _ => rfl) fun _ => rfl
      | some i =>
          simp only [Machine.step, resumeFrame] at hends
          by_cases hlast : last < i
          · rw [if_pos hlast] at hends
            exact Returns.of_succ (Ends.returns (o := .ok .stop) hends fun _ => rfl)
              fun _ => if_pos hlast
          · rw [if_neg hlast] at hends
            exact Returns.of_succ (Returns.absorb rfl (hbodies.block (by omega) hends)
              fun l w₁ hl hends₁ => ih l (by omega) (by omega) hends₁) fun _ => if_neg hlast

/-! ## Statements -/

theorem BodiesReturn.runBranches (hbodies : BodiesReturn s n w' m') {otherwise : Option Body}
    {branches : List Branch} (hk : k ≤ n)
    (h : (choose w ⟨below, .run, scopes, 0⟩ otherwise branches).Ends s k w' m') :
    Returns s k below scopes w' m' fun fuel =>
      Structured.runBranches s fuel scopes.current w otherwise branches := by
  induction branches generalizing k w with
  | nil =>
      cases otherwise with
      | none =>
          exact Returns.of_succ (Ends.returns (o := .ok .stop) h fun _ => rfl) fun _ => rfl
      | some body => exact Returns.of_succ (hbodies.block hk h) fun _ => rfl
  | cons branch rest ih =>
      obtain ⟨test, body⟩ := branch
      refine Returns.of_succ (Returns.withValue ⟨rfl, rfl⟩ h fun i w₁ v hi hends => ?_) fun _ => rfl
      refine hends.returns_of_step fun j hj hends₁ => ?_
      simp only [Machine.step, receive] at hends₁
      cases hholds : condition w₁.heap test.location v with
      | error failure =>
          rw [hholds] at hends₁
          exact Ends.returns (o := .error failure) hends₁ fun _ => rfl
      | ok holds =>
          rw [hholds] at hends₁
          cases holds with
          | false => exact ih (by omega) hends₁
          | true => exact hbodies.block (by omega) hends₁

theorem BodiesReturn.repeatFor (hbodies : BodiesReturn s n w' m') {var : Option String}
    {lower upper : Expression} {body : Body} (hk : k ≤ n)
    (h : (evaluate w ⟨below, .run, scopes, 0⟩ (.lower var lower.location upper body) lower).Ends
      s k w' m') :
    Returns s k below scopes w' m' fun fuel =>
      Structured.runStatement s fuel scopes.current w (.repeatFor var lower upper body) := by
  refine Returns.of_succ (Returns.withValue ⟨rfl, rfl⟩ h fun i w₁ lo hi hends => ?_) fun _ => rfl
  refine hends.returns_of_step fun j hj hends₁ => ?_
  simp only [Machine.step, receive] at hends₁
  cases hfirst : bound w₁.heap lower.location lo with
  | error failure =>
      rw [hfirst] at hends₁
      exact Ends.returns (o := .error failure) hends₁ fun _ => rfl
  | ok first =>
      rw [hfirst] at hends₁
      refine Returns.withValue ⟨rfl, rfl⟩ hends₁ fun i₁ w₂ hi hi₁ hends₂ => ?_
      refine hends₂.returns_of_step fun j₁ hj₁ hends₃ => ?_
      simp only [Machine.step, receive] at hends₃
      cases hlast : bound w₂.heap upper.location hi with
      | error failure =>
          rw [hlast] at hends₃
          exact Ends.returns (o := .error failure) hends₃ fun _ => rfl
      | ok last =>
          rw [hlast] at hends₃
          exact hbodies.runCount (by omega) hends₃

/-- Handlers have no part in what ends without a failure. -/
theorem step_guard (handlers : List Handler) (flow : Flow) :
    step s w ⟨.guard handlers :: below, .ofFlow (.ok flow), scopes, 0⟩ =
      ⟨.next, w, below, .ofFlow (.ok flow), scopes, 0⟩ := by
  cases flow <;> rfl

/-- A lock is set free however the block that holds it ends. -/
theorem step_hold (lock : LockRef) (o : Except Failure Flow) :
    step s w ⟨.hold lock :: below, .ofFlow o, scopes, 0⟩ =
      ⟨.next, { w with heap := w.heap.release lock }, below, .ofFlow o, scopes, 0⟩ := by
  cases o with
  | error failure => rfl
  | ok flow => cases flow <;> rfl

theorem BodiesReturn.attempt (hbodies : BodiesReturn s n w' m') {body : Body}
    {handlers : List Handler} (hk : k ≤ n)
    (h : (Machine.block w ⟨.guard handlers :: below, .run, scopes, 0⟩ "try" [] body).Ends
      s k w' m') :
    Returns s k below scopes w' m' fun fuel =>
      Structured.runStatement s fuel scopes.current w (.attempt body handlers) := by
  refine Returns.of_succ (Returns.bind (hbodies.block hk h) fun i w₁ o hi hends => ?_)
    fun _ => rfl
  refine hends.returns_of_step fun j hj hends₁ => ?_
  cases o with
  | error failure =>
      change (handle s w₁ ⟨below, .run, scopes, 0⟩ failure handlers).Ends s j w' m' at hends₁
      simp only [handle] at hends₁
      simp only [Structured.orElse]
      cases hfind : handlers.find? fun h => w₁.heap.catches h.className failure with
      | none =>
          rw [hfind] at hends₁
          exact Ends.returns (o := .error failure) hends₁ fun _ => rfl
      | some handler =>
          rw [hfind] at hends₁
          exact hbodies.block (by omega) hends₁
  | ok flow =>
      rw [step_guard] at hends₁
      refine hends₁.returns fun _ => ?_
      cases flow <;> rfl

theorem BodiesReturn.exclusive (hbodies : BodiesReturn s n w' m') {lock : LockRef} {body : Body}
    (hk : k ≤ n) (h : Ends s k w ⟨.enter lock body :: below, .run, scopes, 0⟩ w' m') :
    Returns s k below scopes w' m' fun fuel =>
      Structured.runStatement s fuel scopes.current w (.exclusive lock body) := by
  obtain ⟨hst, j, rfl, hends⟩ := h.step (List.cons_ne_nil _ _)
  refine Returns.mono ?_ (Nat.le_succ j)
  simp only [Machine.step, resumeFrame] at hst hends
  by_cases hheld : w.heap.isHeld lock
  · rw [if_pos hheld] at hst
    simp at hst
  · rw [if_neg hheld] at hends
    refine Returns.of_succ
      (Returns.bind (hbodies.block (by omega) hends) fun i w₁ o hi hends₁ => ?_)
      fun _ => if_neg hheld
    refine hends₁.returns_of_step fun l hl hends₂ => ?_
    rw [step_hold] at hends₂
    exact hends₂.returns fun _ => rfl

/-- A statement returns what its structured meaning says. -/
theorem BodiesReturn.runStatement (hbodies : BodiesReturn s n w' m') {stmt : Statement} (hk : k ≤ n)
    (h : (begin w ⟨below, .run, scopes, 0⟩ stmt).Ends s k w' m') :
    Returns s k below scopes w' m' fun fuel =>
      Structured.runStatement s fuel scopes.current w stmt := by
  cases stmt with
  | declare name e => exact (returns_act h).of_succ fun _ => rfl
  | assign target e => exact (returns_act h).of_succ fun _ => rfl
  | choose branches otherwise => exact (hbodies.runBranches hk h).of_succ fun _ => rfl
  | repeatFor var lower upper body => exact hbodies.repeatFor hk h
  | repeatWhile test body => exact (hbodies.runWhile hk h).of_succ fun _ => rfl
  | attempt body handlers => exact hbodies.attempt hk h
  | raise e => exact (returns_act h).of_succ fun _ => rfl
  | exclusive lock body => exact hbodies.exclusive hk h
  | print e => exact (returns_act h).of_succ fun _ => rfl
  | returnWith e =>
      cases e with
      | some e => exact (returns_act h).of_succ fun _ => rfl
      | none =>
          have hleave : Ends s k w ⟨below, .ofFlow (.ok (.returnWith .empty)), scopes, 0⟩ w' m' := h
          exact Returns.of_succ (hleave.returns fun _ => rfl) fun _ => rfl
  | breakOut =>
      have hleave : Ends s k w ⟨below, .ofFlow (.ok .breakOut), scopes, 0⟩ w' m' := h
      exact Returns.of_succ (hleave.returns fun _ => rfl) fun _ => rfl
  | continueOn =>
      have hleave : Ends s k w ⟨below, .ofFlow (.ok .continueOn), scopes, 0⟩ w' m' := h
      exact Returns.of_succ (hleave.returns fun _ => rfl) fun _ => rfl
  | perform e => exact (returns_act h).of_succ fun _ => rfl

/-! ## Bodies -/

/-- A body goes on after a statement that simply ended, and is left after any other. -/
theorem bodiesReturn (s : Setting) (n : Nat) (w' : World) (m' : Machine) :
    BodiesReturn s n w' m' := by
  induction n using Nat.strongRecOn with
  | ind n ih =>
      intro k w rest own below scopes hk h
      refine h.returns_of_step fun j hj hends => ?_
      cases rest with
      | nil =>
          have hstop : Ends s j w
              ⟨below, .ofFlow (.ok .stop), if own then scopes.pop else scopes, 0⟩ w' m' := hends
          exact Returns.of_succ (hstop.returns fun _ => rfl) fun _ => rfl
      | cons stmt rest =>
          have hstmt := (ih j (by omega)).runStatement (Nat.le_refl j) hends
          refine Returns.of_succ (hstmt.bind fun i w₁ o hi hends₁ => ?_) fun _ => rfl
          refine hends₁.returns_of_step fun l hl hends₂ => ?_
          cases o with
          | error failure => exact Ends.returns (o := .error failure) hends₂ fun _ => rfl
          | ok flow =>
              cases flow with
              | stop => exact ih j (by omega) l w₁ rest own below scopes (by omega) hends₂
              | breakOut => exact Ends.returns (o := .ok .breakOut) hends₂ fun _ => rfl
              | continueOn => exact Ends.returns (o := .ok .continueOn) hends₂ fun _ => rfl
              | returnWith v => exact Ends.returns (o := .ok (.returnWith v)) hends₂ fun _ => rfl

theorem flow_ofFlow (o : Except Failure Flow) : flow ⟨below, .ofFlow o, scopes, 0⟩ = o := by
  cases o with
  | error failure => rfl
  | ok flow => cases flow <;> rfl

/-- A machine that runs a body, alone in the world, and ends has done what the structured meaning of
the body says: it ends in the same way, and in the same world. -/
theorem eventually_runBody_of_run_ofBody {env : Env} {body : Body}
    (halone : Alone s w (ofBody env body))
    (hrun : (ofBody env body).run s k w = ⟨.finished, w', m'⟩) :
    Eventually (fun fuel => Structured.runBody s fuel env w body) (w', m'.flow) := by
  obtain ⟨sts, hwalk, hend⟩ := walks_of_run hrun halone
  have hends : Ends s sts.length w (ofBody env body) w' m' := ⟨⟨sts, rfl, hwalk⟩, hend, halone⟩
  obtain ⟨j, w₁, o, -, hmeaning, hends₁⟩ :=
    bodiesReturn s sts.length w' m' _ w body false [] ⟨env, []⟩ (Nat.le_refl _) hends
  obtain ⟨rfl, rfl⟩ := hends₁.of_frames_nil rfl
  rw [flow_ofFlow]
  exact hmeaning

/-- A return out of a guarded body inside an exclusive block leaves everything, and the lock is free
again. -/
theorem eventually_runBody_of_run_ofBody_return :
    let s : Setting := ⟨default, default, Host.none⟩
    let w : World := { World.new default with heap := (World.new default).heap.reserveLocks 1 }
    let body : Body := [.exclusive 0 [.attempt [.returnWith none] []], .breakOut]
    ∃ w', w'.heap.locks = #[false] ∧
      Eventually (fun fuel => Structured.runBody s fuel World.globals w body)
        (w', .ok (.returnWith .empty)) := by
  intro s w body
  have halone : Alone s w (ofBody World.globals body) := by
    iterate 9 refine Alone.of_step rfl rfl ?_
    exact Alone.of_frames_nil rfl rfl
  exact ⟨_, rfl, eventually_runBody_of_run_ofBody (k := 10) halone rfl⟩

end Machine

end Statute
