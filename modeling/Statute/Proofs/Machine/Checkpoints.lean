import Statute.Proofs.Machine.History
import Statute.Proofs.Machine.Origins

/-!
# Accounting for checkpoints

A machine that is resumed again and again is set aside once for every statement that runs to its
end, once for every turn of a loop, and once for every attempt to take a lock or the outcome of a
task that comes too early. Nothing else sets it aside.

All of this can be counted along the moments at which the machine takes its steps, from the frames
alone. A statement is begun where it is the next one of the body on top. It is over as soon as the
machine has as few frames again, and it has run to its end if the machine then goes on; otherwise
it is being left. That a body remembers whether it owes a checkpoint does not enter into this. The
two counts agree because of what the frames owe: at every moment, each body below the top that has
begun a statement owes one checkpoint, and pays it if it comes to the top again and goes on.
-/

namespace Statute

namespace Moment

/-- Whether the machine is set aside after the step. -/
def suspends (s : Setting) (t : Moment) : Bool :=
  match (t.machine.step s t.world).step with
  | .pause => true
  | .blocked => true
  | _ => false

/-- Whether the frame on top simply goes on. -/
def runs (t : Moment) : Bool :=
  match t.machine.signal with
  | .run => true
  | _ => false

/-- Whether the step begins a statement. -/
def begins (t : Moment) : Bool :=
  match t.machine.signal, t.machine.frames with
  | .run, .body (_ :: _) _ false :: _ => true
  | _, _ => false

/-- Whether the step begins a turn of a loop: it leaves the loop in its place, and the body of the
turn on top of it. -/
def turns (s : Setting) (t : Moment) : Bool :=
  match (t.after s).frames with
  | .body _ _ _ :: f :: fs => f.isLoop && fs.length + 1 == t.machine.frames.length
  | _ => false

/-- Whether the machine asks for the outcome of a task that is not done. -/
def polls (t : Moment) : Bool :=
  match t.machine.signal, t.machine.frames with
  | .run, .eval (.op .wait :: _) (.value v :: _) _ :: _ =>
      match t.world.heap.unbox v with
      | .task r => !(t.world.task r).waited && !(t.world.task r).done
      | _ => false
  | _, _ => false

/-- Whether the machine asks for a lock that is held. -/
def knocks (t : Moment) : Bool :=
  match t.machine.signal, t.machine.frames with
  | .run, .enter lock _ :: _ => t.world.heap.isHeld lock
  | _, _ => false

def downTo (n : Nat) (ts : List Moment) : Option Moment :=
  ts.find? fun t => decide (t.machine.frames.length ≤ n)

/-- Whether the machine goes on when it has come down to `n` frames. -/
def returns (n : Nat) (ts : List Moment) : Bool :=
  (downTo n ts).any runs

/-- Whether a statement is begun that runs to its end within the moments that follow. -/
def completes (t : Moment) (later : List Moment) : Bool :=
  t.begins && returns t.machine.frames.length later

/-- A statement begun at `t` is over at `u`: for the first time its body is on top again. -/
structure Over (t : Moment) (between : List Moment) (u : Moment) : Prop where
  frames : ∃ stmt rest own fs, t.machine.frames = .body (stmt :: rest) own false :: fs ∧
    u.machine.frames = .body rest own true :: fs
  first : ∀ v ∈ between, t.machine.frames.length < v.machine.frames.length

/-- How many statements run to their end. -/
def completions : List Moment → Nat
  | [] => 0
  | t :: ts => (t.completes ts).toNat + completions ts

end Moment

namespace Machine

/-- The moments at which a machine takes its steps when it is resumed. -/
def moments (s : Setting) : Nat → World → Machine → List Moment
  | 0, _, _ => []
  | fuel + 1, w, m =>
      ⟨w, m⟩ ::
        match m.step s w with
        | ⟨.next, w, m⟩ => moments s fuel w m
        | _ => []

/-- A machine is resumed until it has ended, each time in the world that it finds and with as much
fuel as it takes to be set aside. The moments of all its steps are recorded, and how often it was
set aside. -/
inductive Resumed (s : Setting) : Machine → List Moment → Nat → Machine → Prop
  | ends {fuel : Nat} {w w' : World} {m m' : Machine}
      (hresume : m.resume s fuel w = ⟨.finished, w', m'⟩) :
      Resumed s m (moments s fuel w m) 0 m'
  | again {fuel : Nat} {w w₁ : World} {m m₁ m' : Machine} {ts : List Moment} {n : Nat}
      (hresume : m.resume s fuel w = ⟨.suspended, w₁, m₁⟩)
      (hfuel : (moments s fuel w m).length < fuel) (hrest : Resumed s m₁ ts n m') :
      Resumed s m (moments s fuel w m ++ ts) (n + 1) m'

variable {s : Setting} {w w' : World} {m m₁ m' : Machine} {t : Moment} {ts ts' : List Moment}
  {f : Frame} {fs gs : List Frame} {goal : Shape} {base : Nat} {env : Env}

/-! ## Resuming -/

/-- A machine that is resumed takes its steps one after the other, and the last one sets it
aside. -/
theorem passes_of_suspended {fuel : Nat} (h : m.resume s fuel w = ⟨.suspended, w', m'⟩)
    (hfuel : (moments s fuel w m).length < fuel) :
    Passes s m (moments s fuel w m) m' ∧
      (moments s fuel w m).countP (Moment.suspends s) = 1 := by
  induction fuel generalizing w m with
  | zero => contradiction
  | succ fuel ih =>
      simp only [resume] at h
      simp only [moments] at hfuel ⊢
      split at h
      · next w₁ m₁ hstep =>
          rw [hstep] at hfuel ⊢
          obtain ⟨hpasses, hcount⟩ := ih h (Nat.lt_of_succ_lt_succ hfuel)
          refine ⟨.of_step hstep nofun hpasses, ?_⟩
          rw [List.countP_cons, hcount]
          simp [Moment.suspends, hstep]
      · next hstep =>
          cases h
          rw [hstep]
          exact ⟨.of_step hstep nofun (.stay _), by simp [Moment.suspends, hstep]⟩
      · next hstep =>
          cases h
          rw [hstep]
          exact ⟨.of_step hstep nofun (.stay _), by simp [Moment.suspends, hstep]⟩
      · cases h
      · cases h

/-- A machine that is resumed and ends is not set aside. -/
theorem passes_of_finished {fuel : Nat} (h : m.resume s fuel w = ⟨.finished, w', m'⟩) :
    Passes s m (moments s fuel w m) m' ∧
      (moments s fuel w m).countP (Moment.suspends s) = 0 ∧ m'.frames = [] := by
  induction fuel generalizing w m with
  | zero => cases h
  | succ fuel ih =>
      simp only [resume] at h
      simp only [moments]
      split at h
      · next w₁ m₁ hstep =>
          rw [hstep]
          obtain ⟨hpasses, hcount, hend⟩ := ih h
          refine ⟨.of_step hstep nofun hpasses, ?_, hend⟩
          rw [List.countP_cons, hcount]
          simp [Moment.suspends, hstep]
      · cases h
      · cases h
      · next hstep =>
          have hframes := frames_of_step_done (s := s) (w := w) (m := m) (by rw [hstep])
          rw [step_of_frames_nil hframes] at hstep ⊢
          cases hstep
          cases h
          exact ⟨.of_step (step_of_frames_nil hframes) nofun (.stay _),
            by simp [Moment.suspends, step_of_frames_nil hframes], hframes⟩
      · cases h

/-- However a machine is resumed until it has ended, it takes its steps one after the other, and is
set aside after those that suspend it. -/
theorem Resumed.passes {n : Nat} (h : Resumed s m ts n m') :
    Passes s m ts m' ∧ ts.countP (Moment.suspends s) = n ∧ m'.frames = [] := by
  induction h with
  | ends hresume => exact passes_of_finished hresume
  | again hresume hfuel hrest ih =>
      obtain ⟨hpasses, hcount⟩ := passes_of_suspended hresume hfuel
      obtain ⟨hlater, hcounts, hend⟩ := ih
      refine ⟨hpasses.append hlater, ?_, hend⟩
      rw [List.countP_append, hcount, hcounts, Nat.add_comm]

end Machine

/-! ## What a step owes -/

def Frame.owes : Frame → Bool
  | .body _ _ begun => begun
  | _ => false

def Frame.IsTurn (gs : List Frame) : Prop :=
  ∃ rest own begun g, gs = [.body rest own begun, g] ∧ g.isLoop = true

section Successors

variable {limit depth : Nat} {f : Frame} {gs : List Frame} {sig sig' : Signal} {st : Step}

theorem Evaluates.owes {e : Expression} (h : Evaluates f e gs sig) (hf : f.owes = false) :
    (∀ g ∈ gs, g.owes = false) ∧ ¬ Frame.IsTurn gs := by
  cases h with
  | begun hcode => exact ⟨by simpa [Frame.owes] using hf, by simp [Frame.IsTurn]⟩
  | refused failure => exact ⟨by simp, by simp [Frame.IsTurn]⟩

theorem Chooses.owes {otherwise : Option Body} {branches : List Branch}
    (h : Chooses otherwise branches gs sig) :
    (∀ g ∈ gs, g.owes = false) ∧ ¬ Frame.IsTurn gs := by
  cases h with
  | tests htest => exact htest.owes rfl
  | otherwise hbody => exact ⟨by simp [Frame.owes], by simp [Frame.IsTurn]⟩
  | nothing => exact ⟨by simp, by simp [Frame.IsTurn]⟩

theorem Begins.owes {stmt : Statement} (h : Begins stmt gs sig) : ∀ g ∈ gs, g.owes = false := by
  cases h with
  | @evaluates _ f _ _ _ hwaiting he =>
      refine (he.owes ?_).1
      unfold Statement.waiting? at hwaiting
      split at hwaiting <;> cases hwaiting <;> rfl
  | chooses h => exact h.owes.1
  | attempts body handlers => simp [Frame.owes]
  | excludes lock body => simp [Frame.owes]
  | leaves stmt e => simp

theorem Supplies.owes {c : Call} {params : List Param} (h : Supplies limit depth c params gs sig) :
    (∀ g ∈ gs, g.owes = false) ∧ ¬ Frame.IsTurn gs := by
  cases h <;> exact ⟨by simp [Frame.owes], by simp [Frame.IsTurn, Frame.isLoop]⟩

theorem Initialises.owes {cls : Class} {site : Option Location}
    (h : Initialises cls site gs sig) : (∀ g ∈ gs, g.owes = false) ∧ ¬ Frame.IsTurn gs := by
  cases h <;> exact ⟨by simp [Frame.owes], by simp [Frame.IsTurn, Frame.isLoop]⟩

/-- A frame that owes nothing and does not begin a statement leaves nothing behind that owes
anything, and it reaches a checkpoint exactly if it begins a turn. -/
theorem Frame.Becomes.owes (h : f.Becomes limit depth sig st gs sig') (hf : f.owes = false) :
    ((∀ stmt rest own, f = .body (stmt :: rest) own false → sig ≠ .run) →
        ∀ g ∈ gs, g.owes = false) ∧ (st = .pause ↔ Frame.IsTurn gs) := by
  have hplain : ∀ {gs : List Frame}, (∀ g ∈ gs, g.owes = false) ∧ ¬ Frame.IsTurn gs →
      ((∀ stmt rest own, f = .body (stmt :: rest) own false → sig ≠ .run) →
        ∀ g ∈ gs, g.owes = false) ∧ (Step.next = .pause ↔ Frame.IsTurn gs) :=
    fun h => ⟨fun _ => h.1, by simp [h.2]⟩
  cases h with
  | waits f => exact ⟨fun _ => by simpa using hf, by simp [IsTurn]⟩
  | stops f hexit hsig => exact hplain ⟨by simpa using hf, by simp [IsTurn]⟩
  | rests rest own => contradiction
  | begins h =>
      refine ⟨fun hnot => absurd rfl (hnot _ _ _ rfl), ?_⟩
      simp only [IsTurn, reduceCtorEq, false_iff, not_exists, not_and, Bool.not_eq_true]
      intro rest' own' begun g hsplit
      -- The frame at the bottom is the body that goes on after the statement.
      have hlast := congrArg List.getLast? hsplit
      rw [List.getLast?_concat] at hlast
      cases hlast
      rfl
  | counts var now next last body =>
      have hturn : IsTurn [.body body true false, .count var next last body] :=
        ⟨body, true, false, _, rfl, rfl⟩
      exact ⟨fun _ => by simp [Frame.owes], by simp [hturn]⟩
  | turns test body v =>
      have hturn : IsTurn [.body body true false, .again test body] :=
        ⟨body, true, false, _, rfl, rfl⟩
      exact ⟨fun _ => by simp [Frame.owes], by simp [hturn]⟩
  | retests h => exact hplain (h.owes rfl)
  | binds hcallee n h args => exact hplain h.owes
  | initialises h args => exact hplain h.owes
  | rejects h site body v => exact hplain h.owes
  | bounds h site v => exact hplain (h.owes rfl)
  | supplies hc hsite h v => exact hplain h.owes
  | adopts h object args taken v => exact hplain h.owes
  | _ => exact hplain ⟨by simp [Frame.owes], by simp [IsTurn, Frame.isLoop]⟩

end Successors

namespace Moment

variable {s : Setting} {t : Moment} {ts : List Moment} {f : Frame} {fs gs : List Frame}
  {goal : Shape} {base : Nat} {env : Env}

/-- A turn of a loop puts two frames in the place of one. -/
theorem turns_iff (hframes : t.machine.frames = f :: fs) (hafter : (t.after s).frames = gs ++ fs) :
    t.turns s = true ↔ Frame.IsTurn gs := by
  unfold turns
  rw [hafter, hframes]
  constructor
  · intro h
    split at h
    · next rest own begun g low heq =>
        simp only [Bool.and_eq_true, List.length_cons, beq_iff_eq, Nat.add_right_cancel_iff] at h
        obtain ⟨hloop, hlength⟩ := h
        have hsplit : gs ++ fs = [.body rest own begun, g] ++ low := heq
        obtain ⟨rfl, rfl⟩ := List.append_inj' hsplit hlength.symm
        exact ⟨rest, own, begun, g, rfl, hloop⟩
    · contradiction
  · rintro ⟨rest, own, begun, g, rfl, hloop⟩
    simp [hloop]

end Moment

namespace Machine

variable {s : Setting} {w : World} {m : Machine} {f : Frame}

/-- An item has to wait exactly if it asks for the outcome of a task that is not done. -/
theorem evalItem_blocked_iff (items : List Item) (stack : List Operand) (site : Location) :
    (m.evalItem s w items stack site).step = .blocked ↔
      ∃ rest v below r, items = .op .wait :: rest ∧ stack = .value v :: below ∧
        w.heap.unbox v = .task r ∧ (w.task r).waited = false ∧ (w.task r).done = false := by
  constructor
  · intro h
    cases items with
    | nil =>
        simp only [evalItem] at h
        split at h <;> contradiction
    | cons i rest =>
        have heffect := i.within_effect s w.heap m.scopes.current stack
        simp only [evalItem] at h
        split at h
        · contradiction
        · contradiction
        · split at h <;> contradiction
        · next r under he =>
            rw [he] at heffect
            obtain ⟨rfl, v, below, rfl, htask⟩ := heffect
            split at h
            · contradiction
            · next hwaited =>
                split at h
                · next hdone =>
                    exact ⟨rest, v, below, r, rfl, rfl, htask, by simpa using hwaited,
                      by simpa using hdone⟩
                · split at h <;> contradiction
        · contradiction
        · contradiction
  · rintro ⟨rest, v, below, r, rfl, rfl, htask, hwaited, hdone⟩
    simp [evalItem, Item.effect, Item.operatorEffect, Item.awaitEffect, htask, hwaited, hdone]

/-- A frame that goes on has to wait exactly if it asks for a lock that is held or for a task that
is not done. -/
theorem resumeFrame_blocked_iff (f : Frame) :
    (m.resumeFrame s w f).step = .blocked ↔
      (∃ lock body, f = .enter lock body ∧ w.heap.isHeld lock = true) ∨
        ∃ rest v below site r, f = .eval (.op .wait :: rest) (.value v :: below) site ∧
          w.heap.unbox v = .task r ∧ (w.task r).waited = false ∧ (w.task r).done = false := by
  cases f with
  | enter lock body =>
      simp only [resumeFrame]
      split
      · next hheld => simp [hheld]
      · next hfree => simp [hfree, block, next]
  | eval items stack site =>
      refine (evalItem_blocked_iff items stack site).trans ⟨?_, ?_⟩
      · rintro ⟨rest, v, below, r, rfl, rfl, hr⟩
        exact Or.inr ⟨rest, v, below, site, r, rfl, hr⟩
      · rintro (⟨lock, body, ⟨⟩, -⟩ | ⟨rest, v, below, site, r, ⟨⟩, hr⟩)
        exact ⟨rest, v, below, r, rfl, rfl, hr⟩
  | _ => exact iff_of_false (resumeFrame_quiet (by simp) (by simp)).taken.1 (by simp)

end Machine

namespace Moment

/-- A machine has to wait exactly if it asks for a task that is not done or for a lock that is
held. -/
theorem blocked_iff (s : Setting) (t : Moment) :
    (t.machine.step s t.world).step = .blocked ↔ t.polls = true ∨ t.knocks = true := by
  obtain ⟨w, frames, signal, scopes, depth⟩ := t
  cases frames with
  | nil => simp [Machine.step, polls, knocks]
  | cons f fs =>
      cases signal with
      | value v =>
          refine iff_of_false ?_ (by simp [polls, knocks])
          exact (Machine.receive_quiet (m := ⟨fs, .run, scopes, depth⟩) v f).taken.1
      | leave e =>
          refine iff_of_false ?_ (by simp [polls, knocks])
          exact (Machine.unwind_quiet (m := ⟨fs, .run, scopes, depth⟩) e f).taken.1
      | run =>
          refine (Machine.resumeFrame_blocked_iff (m := ⟨fs, .run, scopes, depth⟩) f).trans
            (or_comm.trans (or_congr ?_ ?_))
          · unfold polls
            constructor
            · rintro ⟨rest, v, below, site, r, rfl, htask, hwaited, hdone⟩
              simp [htask, hwaited, hdone]
            · intro h
              split at h
              · next hframes =>
                  cases hframes
                  split at h
                  · next r htask =>
                      simp only [Bool.and_eq_true, Bool.not_eq_true'] at h
                      exact ⟨_, _, _, _, r, rfl, htask, h⟩
                  · contradiction
              · contradiction
          · cases f <;> simp [knocks]

variable {s : Setting} {t : Moment} {ts : List Moment} {f : Frame} {fs gs : List Frame}
  {goal : Shape} {base : Nat} {env : Env} {n : Nat}

theorem not_polls_of_knocks (h : t.knocks = true) : t.polls = false := by
  unfold knocks at h
  split at h
  · next hsignal hframes => simp [polls, hsignal, hframes]
  · contradiction

/-! ## What is owed and what is paid -/

theorem returns_cons_of_lt (h : n < t.machine.frames.length) :
    returns n (t :: ts) = returns n ts := by
  simp [returns, downTo, Nat.not_le_of_lt h]

theorem returns_cons_of_le (h : t.machine.frames.length ≤ n) : returns n (t :: ts) = t.runs := by
  simp [returns, downTo, h]

/-- How many of the checkpoints that frames owe are going to be paid. -/
def owed (ts : List Moment) : List Frame → Nat
  | [] => 0
  | f :: fs => (f.owes && returns (fs.length + 1) ts).toNat + owed ts fs

/-- Frames that owe nothing do not change what is owed below. -/
theorem owed_append (ts : List Moment) (fs : List Frame) (h : ∀ g ∈ gs, g.owes = false) :
    owed ts (gs ++ fs) = owed ts fs := by
  induction gs with
  | nil => rfl
  | cons g gs ih =>
      obtain ⟨hg, hgs⟩ := List.forall_mem_cons.mp h
      simp [owed, hg, ih hgs]

@[simp] theorem owed_nil (fs : List Frame) : owed [] fs = 0 := by
  induction fs with
  | nil => rfl
  | cons f fs ih => simp [owed, returns, downTo, ih]

/-- As long as there are more frames on top, nothing is paid. -/
theorem owed_cons_moment (h : fs.length < t.machine.frames.length) :
    owed (t :: ts) fs = owed ts fs := by
  induction fs with
  | nil => rfl
  | cons f fs ih =>
      rw [List.length_cons] at h
      rw [owed, owed, returns_cons_of_lt h, ih (Nat.lt_of_succ_lt h)]

/-- Where no statement has just ended, the machine is set aside at the turns of loops and where it
has to wait. -/
theorem suspends_toNat (hpause : (t.machine.step s t.world).step = .pause ↔ t.turns s = true) :
    (t.suspends s).toNat = (t.turns s).toNat + t.polls.toNat + t.knocks.toNat := by
  have hblocked := blocked_iff s t
  unfold suspends
  cases hstep : (t.machine.step s t.world).step with
  | pause =>
      have hturns : t.turns s = true := hpause.mp hstep
      simp_all
  | blocked =>
      have hturns : t.turns s = false := by simpa [hstep] using hpause
      cases hknocks : t.knocks with
      | true => simp [hturns, not_polls_of_knocks hknocks]
      | false =>
          have hpolls : t.polls = true := by simpa [hstep, hknocks] using hblocked
          simp [hturns, hpolls]
  | _ =>
      have hturns : t.turns s = false := by simpa [hstep] using hpause
      simp_all

/-- A statement that is begun leaves its body below, which owes a checkpoint for it. -/
theorem after_of_begins (s : Setting) (hbegins : t.begins = true) :
    ∃ stmt rest own fs gs, t.machine.frames = .body (stmt :: rest) own false :: fs ∧
      (t.after s).frames = gs ++ .body rest own true :: fs ∧ ∀ g ∈ gs, g.owes = false := by
  obtain ⟨w, frames, signal, scopes, depth⟩ := t
  unfold begins at hbegins
  split at hbegins
  · next stmt rest own fs hsignal hframes =>
      change signal = .run at hsignal
      change frames = .body (stmt :: rest) own false :: fs at hframes
      subst hsignal hframes
      obtain ⟨gs, hgs, -, hb⟩ := Machine.leads_begin (w := w)
        (m := ⟨.body rest own true :: fs, .run, scopes, depth⟩) stmt
      exact ⟨stmt, rest, own, fs, gs, rfl, hgs, hb.owes⟩
  · contradiction

theorem owed_of_begins (hframes : t.machine.frames = f :: fs) (hbegins : t.begins = true) :
    owed ts (t.after s).frames = (t.completes ts).toNat + owed ts fs := by
  obtain ⟨stmt, rest, own, low, gs, hstmt, hafter, hgs⟩ := after_of_begins s hbegins
  obtain ⟨rfl, rfl⟩ := List.cons.inj (hframes.symm.trans hstmt)
  have hcompletes : t.completes ts = returns (fs.length + 1) ts := by
    rw [completes, hbegins, hframes, List.length_cons, Bool.true_and]
  rw [hafter, owed_append _ _ hgs, owed, hcompletes]
  rfl

/-- A body that owes a checkpoint pays it when it goes on, and does not when it is left. -/
theorem ledger_of_owes (ts : List Moment) (horder : t.machine.InOrder goal base env)
    (hframes : t.machine.frames = f :: fs) (howes : f.owes = true) :
    (t.suspends s).toNat = t.runs.toNat ∧ owed ts (t.after s).frames = owed ts fs ∧
      t.begins = false ∧ t.turns s = false ∧ t.polls = false ∧ t.knocks = false := by
  obtain ⟨w, frames, signal, scopes, depth⟩ := t
  change frames = f :: fs at hframes
  subst hframes
  cases f with
  | body rest own begun =>
      change begun = true at howes
      subst howes
      have hturns : ∀ gs, (after s ⟨w, .body rest own true :: fs, signal, scopes, depth⟩).frames =
          gs ++ fs → gs.length ≤ 1 →
          turns s ⟨w, .body rest own true :: fs, signal, scopes, depth⟩ = false := by
        intro gs hgs hlength
        refine Bool.eq_false_of_not_eq_true fun h => ?_
        obtain ⟨rest', own', begun, g, rfl, -⟩ := (turns_iff rfl hgs).mp h
        contradiction
      cases signal with
      | run =>
          have hbegins : begins ⟨w, .body rest own true :: fs, .run, scopes, depth⟩ = false := by
            cases rest <;> rfl
          refine ⟨rfl, ?_, hbegins, hturns [.body rest own false] rfl le_rfl, rfl, rfl⟩
          have hrested : ∀ g ∈ [Frame.body rest own false], g.owes = false := by simp [Frame.owes]
          exact owed_append ts fs hrested
      | value v => exact absurd (Upholds.of_cons horder.2).1 (by simp [Frame.awaits])
      | leave e =>
          have hafter : (after s ⟨w, .body rest own true :: fs, .leave e, scopes, depth⟩).frames =
              fs := by
            cases e <;> rfl
          have hstep :
              (Machine.step s w ⟨.body rest own true :: fs, .leave e, scopes, depth⟩).step =
                .next := by
            cases e <;> rfl
          refine ⟨?_, by rw [hafter], rfl, hturns [] hafter (Nat.zero_le _), rfl, rfl⟩
          simp [suspends, hstep, runs]
  | _ => contradiction

/-- One step: what is paid at a checkpoint was owed before, and a statement that is begun owes a
checkpoint if it is going to run to its end. -/
theorem ledger (ts : List Moment) (horder : t.machine.InOrder goal base env)
    (hcrash : ∀ message, (t.machine.step s t.world).step ≠ .crash message) :
    (t.suspends s).toNat + owed ts (t.after s).frames =
      (t.completes ts).toNat + (t.turns s).toNat + t.polls.toNat + t.knocks.toNat +
        owed (t :: ts) t.machine.frames := by
  cases hframes : t.machine.frames with
  | nil =>
      have hstep := Machine.step_of_frames_nil (s := s) (w := t.world) hframes
      simp [suspends, after, hstep, completes, begins, turns, polls, knocks, owed, hframes]
  | cons f fs =>
      have hlength : t.machine.frames.length = fs.length + 1 := by rw [hframes, List.length_cons]
      rw [owed, owed_cons_moment (by rw [hlength]; exact Nat.lt_succ_self _),
        returns_cons_of_le hlength.le]
      cases howes : f.owes with
      | true =>
          obtain ⟨hsuspends, howed, hbegins, hturns, hpolls, hknocks⟩ :=
            ledger_of_owes (s := s) ts horder hframes howes
          simp [completes, hsuspends, howed, hbegins, hturns, hpolls, hknocks]
      | false =>
          obtain ⟨gs, hgs, hbecomes⟩ := horder.becomes hframes hcrash
          obtain ⟨hnothing, hpause⟩ := hbecomes.owes howes
          have howed : owed ts (t.after s).frames = (t.completes ts).toNat + owed ts fs := by
            cases hbegins : t.begins with
            | true => exact owed_of_begins hframes hbegins
            | false =>
                have hgs' : ∀ g ∈ gs, g.owes = false := by
                  refine hnothing ?_
                  rintro stmt rest own rfl hrun
                  simp [begins, hrun, hframes] at hbegins
                rw [after, hgs, owed_append _ _ hgs']
                simp [completes, hbegins]
          have hsuspends := suspends_toNat (hpause.trans (turns_iff hframes hgs).symm)
          rw [hsuspends, howed, Bool.false_and, Bool.toNat_false]
          omega

end Moment

namespace Machine

variable {s : Setting} {m m' : Machine} {ts xs ys : List Moment} {goal : Shape} {base : Nat}
  {env : Env} {n : Nat}

/-- Along whatever moments a machine passes, it is set aside for the statements that run to their
end, for turns, for attempts that come too early, and for what its frames owed at first. -/
theorem Passes.accounts (h : Passes s m ts m') (horder : m.InOrder goal base env) :
    ts.countP (Moment.suspends s) =
      Moment.completions ts + ts.countP (Moment.turns s) + ts.countP Moment.polls +
        ts.countP Moment.knocks + Moment.owed ts m.frames := by
  induction h with
  | stay m => simp [Moment.completions]
  | @go w m m' ts hcrash hrest ih =>
      have hlater := ih (Steps.inOrder ⟨w, rfl, hcrash⟩ horder)
      have hledger := Moment.ledger (t := ⟨w, m⟩) ts horder hcrash
      have hcount : ∀ p : Moment → Bool,
          (⟨w, m⟩ :: ts).countP p = (p ⟨w, m⟩).toNat + ts.countP p := by
        intro p
        rw [List.countP_cons, Nat.add_comm]
        cases p ⟨w, m⟩ <;> rfl
      rw [hcount, hcount, hcount, hcount, Moment.completions]
      change _ + Moment.owed ts (m.step s w).machine.frames =
        _ + Moment.owed (⟨w, m⟩ :: ts) m.frames at hledger
      omega

/-- A machine is begun without any statement under way. -/
theorem Fresh.owed (h : m.Fresh env) (ts : List Moment) : Moment.owed ts m.frames = 0 := by
  cases h <;> rfl

/-- In every stretch of a run, what sets the machine aside accounts for the statements that run to
their end in it. -/
theorem Fresh.completions_append (hfresh : m.Fresh env) (h : Passes s m (xs ++ ys) m') :
    Moment.completions (xs ++ ys) + ys.countP (Moment.turns s) + ys.countP Moment.polls +
        ys.countP Moment.knocks =
      Moment.completions xs + ys.countP (Moment.suspends s) := by
  obtain ⟨goal, horder⟩ := hfresh.inOrder
  obtain ⟨m₁, hxs, -⟩ := h.split
  have hwhole := h.accounts horder
  have hfirst := hxs.accounts horder
  rw [hfresh.owed] at hwhole hfirst
  simp only [List.countP_append] at hwhole
  omega

/-- The first moment at which a machine has no more than `n` frames finds them, and what they own,
as they were. -/
theorem Passes.first_down (h : Passes s m ts m') (horder : m.InOrder goal base env)
    (hn : n ≤ m.frames.length) (hend : m'.frames.length < n) :
    ∃ mid t later, ts = mid ++ t :: later ∧ (∀ u ∈ mid, n < u.machine.frames.length) ∧
      t.machine.whole = m.lowest n ∧ t.machine.InOrder goal base env := by
  induction h with
  | stay m => exact absurd hn (Nat.not_le_of_lt hend)
  | @go w m m' ts hcrash hrest ih =>
      rcases Nat.eq_or_lt_of_le hn with rfl | hlt
      · exact ⟨[], ⟨w, m⟩, ts, rfl, by simp, (lowest_length _).symm, horder⟩
      · have hstep : m.Steps s (m.step s w).machine := ⟨w, rfl, hcrash⟩
        obtain ⟨f, fs, hframes⟩ := List.exists_cons_of_length_pos (Nat.zero_lt_of_lt hlt)
        obtain ⟨gs, own, es, inner, depth, hgs, -⟩ := hstep.split horder hframes
        have hlength : n ≤ (m.step s w).machine.frames.length := by
          rw [hframes, List.length_cons] at hlt
          rw [hgs, List.length_append]
          omega
        obtain ⟨mid, t', later, rfl, hmid, hwhole, horder'⟩ :=
          ih (hstep.inOrder horder) hlength hend
        refine ⟨⟨w, m⟩ :: mid, t', later, rfl, List.forall_mem_cons.mpr ⟨hlt, hmid⟩, ?_, horder'⟩
        rw [hwhole, hstep.lowest horder hlt]

theorem returns_of_append {mid later : List Moment} {t : Moment}
    (hmid : ∀ u ∈ mid, n < u.machine.frames.length) (ht : t.machine.frames.length ≤ n) :
    Moment.returns n (mid ++ t :: later) = t.runs := by
  induction mid with
  | nil => exact Moment.returns_cons_of_le ht
  | cons u mid ih =>
      obtain ⟨hu, hmid⟩ := List.forall_mem_cons.mp hmid
      rw [List.cons_append, Moment.returns_cons_of_lt hu, ih hmid]

/-- A statement that is begun is over before the machine ends: its body is on top again, and goes on
if the statement has run to its end; otherwise the body is left in its turn. -/
theorem Passes.over {t : Moment} (h : Passes s t.machine (t :: ts) m')
    (horder : t.machine.InOrder goal base env) (hend : m'.frames = []) (hbegins : t.begins = true) :
    ∃ between u later, ts = between ++ u :: later ∧ t.Over between u ∧
      (t.completes ts = true ∧ u.machine.signal = .run ∨
        t.completes ts = false ∧ ∃ e, u.machine.signal = .leave e) := by
  obtain ⟨w, m⟩ := t
  obtain ⟨stmt, rest, own, fs, gs, hframes, hafter, -⟩ := Moment.after_of_begins s hbegins
  change m.frames = _ at hframes
  change (m.step s w).machine.frames = _ at hafter
  cases h with
  | go hcrash hrest =>
      have horder₁ := Steps.inOrder ⟨w, rfl, hcrash⟩ horder
      have hlength : fs.length + 1 ≤ (m.step s w).machine.frames.length := by
        rw [hafter, List.length_append, List.length_cons]
        exact Nat.le_add_left _ _
      obtain ⟨between, u, later, rfl, hfirst, hwhole, horder₂⟩ :=
        hrest.first_down horder₁ hlength (by rw [hend]; exact Nat.succ_pos _)
      have hu : u.machine.frames = .body rest own true :: fs := by
        have hlow := congrArg Base.frames hwhole
        rw [lowest, hafter] at hlow
        simpa [whole] using hlow
      have hcompletes : Moment.completes ⟨w, m⟩ (between ++ u :: later) = u.runs := by
        rw [Moment.completes, hbegins, hframes, Bool.true_and]
        exact returns_of_append hfirst (by rw [hu]; exact le_rfl)
      refine ⟨between, u, later, rfl, ⟨⟨stmt, rest, own, fs, hframes, hu⟩, ?_⟩, ?_⟩
      · change ∀ v ∈ between, m.frames.length < v.machine.frames.length
        rw [hframes]
        exact hfirst
      rw [hcompletes]
      cases hsignal : u.machine.signal with
      | run => exact Or.inl ⟨by rw [Moment.runs, hsignal], rfl⟩
      | leave e => exact Or.inr ⟨by rw [Moment.runs, hsignal], e, rfl⟩
      | value v =>
          -- A body does not wait for a value.
          have hawaits := horder₂.2
          rw [hsignal, hu] at hawaits
          exact absurd (Upholds.of_cons hawaits).1 (by simp [Frame.awaits])

/-- However a machine is resumed until it has ended, the number of times that it is set aside is the
number of statements that run to their end, and of turns that loops begin, and of attempts that come
too early: to take the outcome of a task that is not done, or a lock that is held. From one time to
the next no more than one statement runs to its end.

A statement that is begun either runs to its end, and then the machine goes on with the rest of its
body, or its body is left, and then it does not count. -/
theorem Fresh.suspensions_eq (hfresh : m.Fresh env) (h : Resumed s m ts n m') :
    n = Moment.completions ts + ts.countP (Moment.turns s) + ts.countP Moment.polls +
        ts.countP Moment.knocks ∧
      (∀ xs ys zs, ts = xs ++ ys ++ zs → ys.countP (Moment.suspends s) ≤ 1 →
        Moment.completions (xs ++ ys) ≤ Moment.completions xs + 1) ∧
      ∀ xs t ys, ts = xs ++ t :: ys → t.begins = true →
        ∃ between u later, ys = between ++ u :: later ∧ t.Over between u ∧
          (t.completes ys = true ∧ u.machine.signal = .run ∨
            t.completes ys = false ∧ ∃ e, u.machine.signal = .leave e) := by
  obtain ⟨hpasses, rfl, hend⟩ := h.passes
  refine ⟨?_, ?_, ?_⟩
  · have hall := hfresh.completions_append (show Passes s m ([] ++ ts) m' from hpasses)
    simp only [List.nil_append, Moment.completions] at hall
    omega
  · rintro xs ys zs rfl hone
    obtain ⟨m₁, hfirst, -⟩ := hpasses.split
    have hpart := hfresh.completions_append hfirst
    omega
  · rintro xs t ys rfl hbegins
    obtain ⟨goal, horder⟩ := hfresh.inOrder
    obtain ⟨m₁, hxs, hys⟩ := hpasses.split
    have horder₁ := hxs.inOrder horder
    obtain ⟨w, m₂⟩ := t
    obtain rfl : m₂ = m₁ := by cases hys; rfl
    exact hys.over (t := ⟨w, m₂⟩) horder₁ hend hbegins

/-- A choice without branches is followed by an exclusive block, whose lock is held by somebody else
at first: the machine is set aside after the choice, before the lock and after the block. -/
theorem Fresh.suspensions_eq_lock :
    let s : Setting := ⟨default, default, Host.none⟩
    let m := ofBody World.globals [.choose [] none, .exclusive 0 []]
    ∃ ts m', Resumed s m ts 3 m' ∧ Moment.completions ts = 2 ∧ ts.countP Moment.knocks = 1 := by
  intro s m
  let held : World := { (default : World) with heap := Heap.empty.hold 0 }
  let stand (frames : List Frame) : Machine := ⟨frames, .run, ⟨World.globals, []⟩, 0⟩
  let m₁ := stand [.body [.exclusive 0 []] false false]
  let m₂ := stand [.enter 0 [], .body [] false true]
  let m₃ := stand [.body [] false false]
  let ts := moments s 9 default m ++
    (moments s 9 held m₁ ++ (moments s 9 default m₂ ++ moments s 9 default m₃))
  have hrun : Resumed s m ts 3 (stand []) :=
    .again rfl (by decide) (.again rfl (by decide) (.again rfl (by decide) (.ends rfl)))
  have hcount := (Fresh.suspensions_eq (.body _) hrun).1
  have hknocks : ts.countP Moment.knocks = 1 := rfl
  have hothers : ts.countP (Moment.turns s) = 0 ∧ ts.countP Moment.polls = 0 := ⟨rfl, rfl⟩
  exact ⟨ts, stand [], hrun, by omega, hknocks⟩

end Machine

end Statute
