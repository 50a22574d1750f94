import Statute.Proofs.Concurrency.Tasks
import Statute.Proofs.Machine.Nesting
import Mathlib.Data.List.Nodup
import Mathlib.Data.List.ReduceOption

/-!
# Exclusive blocks

Many machines work in one world. Some of them are at work, in the foreground or taken out of their
tasks for a while, and the others rest in tasks. In any order they take steps, come and go; a
machine can go at any time, because its task is given up or because the host broke down.

Every lock that is held is held by one frame of one of the machines, and every frame that holds a
lock has it for itself. So nobody else is let into the block, a lock is set free by its holder only,
and whoever is gone holds nothing.
-/

namespace Statute

open Relation (ReflTransGen)

/-- The only frames that hold a lock are those of blocks that were entered. -/
theorem Frame.lock?_eq_some_iff {f : Frame} {l : LockRef} : f.lock? = some l ↔ f = .hold l := by
  cases f <;> simp [lock?]

namespace World

def parked (w : World) : List Machine :=
  w.slots.reduceOption

/-- When a task is changed, its new machine rests in place of the old one. -/
theorem parked_setTask {w : World} {t : TaskRef} (ht : t < w.tasks.size) (task : Task) :
    ((w.task t).machine.toList ++ (w.setTask t task).parked).Perm
      (task.machine.toList ++ w.parked) := by
  obtain ⟨hlength, hget⟩ := List.getElem?_eq_some_iff.mp (slots_getElem? ht)
  obtain ⟨before, after, hslots, -, hset⟩ :=
    @List.exists_of_set _ t task.machine w.slots hlength
  rw [hget] at hslots
  have hparked : ∀ o : Option Machine, (before ++ o :: after).reduceOption =
      before.reduceOption ++ (o.toList ++ after.reduceOption) := by
    intro o
    rw [List.reduceOption_append]
    cases o with
    | none => rfl
    | some m => rw [List.reduceOption_cons_of_some]; rfl
  rw [parked, parked, slots_setTask, hset, hslots, hparked, hparked]
  set o := (w.task t).machine
  have hswap : ∀ front : List Machine,
      (front ++ (before.reduceOption ++ after.reduceOption)).Perm
        (before.reduceOption ++ (front ++ after.reduceOption)) :=
    fun front => List.perm_append_comm_assoc _ _ _
  calc o.toList ++ (before.reduceOption ++ (task.machine.toList ++ after.reduceOption))
    _ |>.Perm (o.toList ++ (task.machine.toList ++ (before.reduceOption ++ after.reduceOption))) :=
        (hswap _).symm.append_left _
    _ |>.Perm (task.machine.toList ++ (o.toList ++ (before.reduceOption ++ after.reduceOption))) :=
        List.perm_append_comm_assoc _ _ _
    _ |>.Perm (task.machine.toList ++ (before.reduceOption ++ (o.toList ++ after.reduceOption))) :=
        (hswap _).append_left _

end World

/-- Machines that work in one world; those that are not at work rest in its tasks. -/
structure System where
  world : World
  atWork : List Machine

namespace System

variable {s : Setting} {σ σ' : System} {w w' : World} {ms : List Machine} {m m' : Machine}
  {l : LockRef}

def live (σ : System) : List Machine :=
  σ.atWork ++ σ.world.parked

def frames (σ : System) : List Frame :=
  σ.live.flatMap (·.frames)

def held (σ : System) (l : LockRef) : Bool :=
  σ.world.heap.isHeld l

def locks (σ : System) : List LockRef :=
  σ.live.flatMap (·.locks)

/-- What can happen, and which machine does it.

A breakdown of the host ends a step like anything else, and what is left of the machine is dropped
after it. A machine that has come to its end is dropped as well. -/
inductive Moves (s : Setting) : System → Option Machine → System → Prop
  | start {w : World} {ms : List Machine} {env : Env} {m : Machine} (hfresh : m.Fresh env) :
      Moves s ⟨w, ms⟩ none ⟨w, m :: ms⟩
  | step {w : World} (before : List Machine) (m : Machine) (after : List Machine) :
      Moves s ⟨w, before ++ m :: after⟩ (some m)
        ⟨(m.step s w).world, before ++ (m.step s w).machine :: after⟩
  /-- A machine is dropped, wherever it has got to. -/
  | drop {w : World} (before : List Machine) (m : Machine) (after : List Machine) :
      Moves s ⟨w, before ++ m :: after⟩ (some m) ⟨w.discard m, before ++ after⟩
  | take {w : World} {ms : List Machine} {t : TaskRef} {m : Machine} {task : Task}
      (hmachine : (w.task t).machine = some m) (htask : task.machine = none) :
      Moves s ⟨w, ms⟩ none ⟨w.setTask t task, m :: ms⟩
  /-- A machine is put into a task that has none. -/
  | park {w : World} {t : TaskRef} {task : Task} (before : List Machine) (m : Machine)
      (after : List Machine) (hplace : t < w.tasks.size) (hmachine : (w.task t).machine = none)
      (htask : task.machine = some m) :
      Moves s ⟨w, before ++ m :: after⟩ none ⟨w.setTask t task, before ++ after⟩
  /-- Something happens that has nothing to do with machines and locks. -/
  | elsewhere {w w' : World} {ms : List Machine}
      (hheld : ∀ l, w'.heap.isHeld l = w.heap.isHeld l) (hslots : w'.slots = w.slots) :
      Moves s ⟨w, ms⟩ none ⟨w', ms⟩

def Reaches (s : Setting) : System → System → Prop :=
  ReflTransGen fun σ σ' => ∃ actor, Moves s σ actor σ'

/-- A system that came from one without machines and with all locks free. -/
def Reachable (s : Setting) (σ : System) : Prop :=
  ∃ σ₀, σ₀.live = [] ∧ (∀ l, σ₀.held l = false) ∧ Reaches s σ₀ σ

/-! ## The account of the locks -/

theorem mem_locks_iff : l ∈ m.locks ↔ Frame.hold l ∈ m.frames := by
  simp only [Machine.locks, List.mem_filterMap, Frame.lock?_eq_some_iff, exists_eq_right]

/-- Each lock that is held stands once among the locks of the machines, and no other lock does. -/
def Accounted (σ : System) : Prop :=
  ∀ l, σ.locks.count l = (σ.held l).toNat

theorem locks_eq (σ : System) : σ.locks = σ.frames.filterMap Frame.lock? := by
  simp only [locks, frames, Machine.locks, List.filterMap_flatMap]

theorem locks_mk (w : World) (ms : List Machine) :
    (System.mk w ms).locks = ms.flatMap (·.locks) ++ w.parked.flatMap (·.locks) := by
  rw [locks, live, List.flatMap_append]

theorem locks_of_fresh {env : Env} (h : m.Fresh env) : m.locks = [] := by
  cases h <;> rfl

theorem Accounted.of_perm (h : σ.Accounted) (hheld : ∀ l, σ'.held l = σ.held l)
    (hlive : σ'.live.Perm σ.live) : σ'.Accounted := by
  intro l
  rw [hheld, ← h l]
  exact (hlive.flatMap_right _).count_eq l

theorem flatMap_locks_reduceOption {new : List (Option Machine)}
    (h : ∀ o ∈ new, ∀ k ∈ o, Machine.locks k = []) :
    new.reduceOption.flatMap (·.locks) = [] := by
  rw [List.flatMap_eq_nil_iff]
  intro k hk
  exact h (some k) (List.reduceOption_mem_iff.mp hk) k rfl

/-- What a machine exchanges is the difference between the locks that are held before and after. -/
theorem balance_of_exchange {w₁ : World} {m₁ : Machine} (h : Machine.Exchange w m w₁ m₁)
    (l : LockRef) (hle : m.locks.count l ≤ (w.heap.isHeld l).toNat) :
    (w₁.heap.isHeld l).toNat + m.locks.count l = (w.heap.isHeld l).toNat + m₁.locks.count l := by
  cases h with
  | nothing hlocks hdepth => rw [hlocks]
  | @take m₁ l' hfree hlocks hdepth =>
      rw [hlocks, Heap.isHeld_hold]
      by_cases hl : l = l'
      · subst hl
        simp [hfree, Nat.add_comm]
      · simp [hl, List.count_cons_of_ne (Ne.symm hl)]
  | @give m₁ l' hlocks hdepth =>
      rw [hlocks] at hle ⊢
      rw [Heap.isHeld_release]
      by_cases hl : l = l'
      · subst hl
        rw [List.count_cons_self] at hle ⊢
        cases hheld : w.heap.isHeld l with
        | false => simp [hheld] at hle
        | true => simp [Nat.add_comm]
      · simp [hl, List.count_cons_of_ne (Ne.symm hl)]

theorem Accounted.step {before after : List Machine}
    (h : (System.mk w (before ++ m :: after)).Accounted) :
    (System.mk (m.step s w).world (before ++ (m.step s w).machine :: after)).Accounted := by
  obtain ⟨w₁, m₁, hexchange, hsettles⟩ := Machine.step_settles (s := s) (w := w) m
  obtain ⟨new, hslots, hnew⟩ := hsettles.slots
  have hparked : (m.step s w).world.parked.flatMap (·.locks) = w.parked.flatMap (·.locks) := by
    rw [World.parked, hslots, Machine.slots_of_exchange hexchange, List.reduceOption_append,
      List.flatMap_append, flatMap_locks_reduceOption hnew, List.append_nil, World.parked]
  have hheld : ∀ l, (m.step s w).world.heap.isHeld l = w₁.heap.isHeld l := by
    intro l
    rw [Heap.isHeld, hsettles.held, Heap.isHeld]
  intro l
  have hl := h l
  rw [locks_mk, held] at hl ⊢
  rw [hparked, hheld]
  simp only [List.flatMap_append, List.flatMap_cons, List.count_append, hsettles.locks] at hl ⊢
  have hbalance := balance_of_exchange hexchange l (by omega)
  omega

theorem Accounted.drop {before after : List Machine}
    (h : (System.mk w (before ++ m :: after)).Accounted) :
    (System.mk (w.discard m) (before ++ after)).Accounted := by
  intro l
  have hl := h l
  rw [locks_mk, held] at hl ⊢
  rw [World.parked, World.slots_discard, ← World.parked, World.isHeld_discard]
  simp only [List.flatMap_append, List.flatMap_cons, List.count_append] at hl ⊢
  by_cases hmem : l ∈ m.locks
  · have hpos := List.count_pos_iff.mpr hmem
    have hle := Bool.toNat_le (w.heap.isHeld l)
    simp only [hmem, not_true, decide_false, Bool.and_false, Bool.toNat_false]
    omega
  · rw [List.count_eq_zero_of_not_mem hmem] at hl
    simp only [hmem, not_false_eq_true, decide_true, Bool.and_true]
    omega

/-- Whatever happens, the account stays right. -/
theorem Moves.accounted {actor : Option Machine} (hmove : Moves s σ actor σ')
    (h : σ.Accounted) : σ'.Accounted := by
  cases hmove with
  | start hfresh =>
      intro l
      have hl := h l
      rw [locks_mk, held] at hl ⊢
      rw [List.flatMap_cons, locks_of_fresh hfresh, List.nil_append]
      exact hl
  | step before m after => exact h.step
  | drop before m after => exact h.drop
  | @take w ms t m task hmachine htask =>
      refine h.of_perm (fun l => rfl) ?_
      have hperm := World.parked_setTask (World.lt_size_of_machine hmachine) task
      rw [hmachine, htask] at hperm
      exact List.perm_middle.symm.trans (hperm.append_left ms)
  | @park w t task before m after hplace hmachine htask =>
      refine h.of_perm (fun l => rfl) ?_
      have hperm := World.parked_setTask hplace task
      rw [hmachine, htask] at hperm
      have hmiddle : (before ++ after ++ m :: w.parked).Perm (before ++ m :: after ++ w.parked) :=
        List.perm_middle.trans (List.perm_middle.symm.append_right w.parked)
      exact (hperm.append_left (before ++ after)).trans hmiddle
  | elsewhere hheld hslots =>
      refine h.of_perm hheld ?_
      rw [live, live, World.parked, World.parked, hslots]

theorem Reaches.accounted (hreach : Reaches s σ σ') (h : σ.Accounted) : σ'.Accounted := by
  induction hreach with
  | refl => exact h
  | tail _ hmove ih =>
      obtain ⟨actor, hmove⟩ := hmove
      exact hmove.accounted ih

theorem Reachable.accounted (h : σ.Reachable s) : σ.Accounted := by
  obtain ⟨σ₀, hlive, hfree, hreach⟩ := h
  refine hreach.accounted fun l => ?_
  rw [locks, hlive, hfree]
  rfl

/-! ## Who sets locks free -/

/-- A lock is set free by the machine that holds it, and by no other. -/
theorem Moves.freed {actor : Option Machine} (hmove : Moves s σ actor σ')
    (hheld : σ.held l = true) (hfree : σ'.held l = false) :
    ∃ m ∈ σ.live, actor = some m ∧ l ∈ m.locks := by
  cases hmove with
  | @step w before m after =>
      refine ⟨m, by simp [live], rfl, ?_⟩
      obtain ⟨w₁, m₁, hexchange, hsettles⟩ := Machine.step_settles (s := s) (w := w) m
      simp only [held] at hheld hfree
      rw [Heap.isHeld, hsettles.held, ← Heap.isHeld] at hfree
      cases hexchange with
      | nothing hlocks hdepth => simp [hheld] at hfree
      | take hfree' hlocks hdepth => simp [hheld] at hfree
      | give hlocks hdepth =>
          simp [hheld] at hfree
          simp [hlocks, hfree]
  | @drop w before m after =>
      refine ⟨m, by simp [live], rfl, ?_⟩
      simp only [held, World.isHeld_discard] at hheld hfree
      simpa [hheld] using hfree
  | elsewhere hsame hslots =>
      simp only [held] at hheld hfree
      simp [hsame, hheld] at hfree
  | start hfresh => exact absurd (hheld.symm.trans hfree) (by decide)
  | take hmachine htask => exact absurd (hheld.symm.trans hfree) (by decide)
  | park before m after hplace hmachine htask => exact absurd (hheld.symm.trans hfree) (by decide)

/-! ## Runs are made of moves -/

theorem Reaches.single {actor : Option Machine} (h : Moves s σ actor σ') : Reaches s σ σ' :=
  ReflTransGen.single ⟨actor, h⟩

theorem Reaches.drop (w : World) (m : Machine) (ms : List Machine) :
    Reaches s ⟨w, m :: ms⟩ ⟨w.discard m, ms⟩ :=
  .single (.drop [] m ms)

theorem Reaches.elsewhere (hheld : ∀ l, w'.heap.isHeld l = w.heap.isHeld l)
    (hslots : w'.slots = w.slots) : Reaches s ⟨w, ms⟩ ⟨w', ms⟩ :=
  .single (.elsewhere hheld hslots)

theorem reaches_resume (fuel : Nat) (w : World) (m : Machine) (before after : List Machine) :
    Reaches s ⟨w, before ++ m :: after⟩
      ⟨(m.resume s fuel w).world, before ++ (m.resume s fuel w).machine :: after⟩ := by
  induction fuel generalizing w m with
  | zero => exact .refl
  | succ fuel ih =>
      have hstep : Reaches s ⟨w, before ++ m :: after⟩
          ⟨(m.step s w).world, before ++ (m.step s w).machine :: after⟩ :=
        .single (.step before m after)
      rw [Machine.resume]
      rcases hreply : m.step s w with ⟨st, w₁, m₁⟩
      rw [hreply] at hstep
      cases st with
      | next => exact hstep.trans (ih w₁ m₁)
      | _ => exact hstep

/-- Advancing a task takes its machine out, lets it work, and puts it back or drops it. -/
theorem reaches_advance (fuel : Nat) (w : World) (t : TaskRef) (ms : List Machine) :
    Reaches s ⟨w, ms⟩ ⟨w.advance s fuel t, ms⟩ := by
  cases hmachine : (w.task t).machine with
  | none =>
      rw [World.advance_of_machine_none hmachine]
      exact .refl
  | some m =>
      have hplace := World.lt_size_of_machine hmachine
      set w₀ := w.setTask t { w.task t with machine := none } with hw₀
      have htake : Moves s ⟨w, ms⟩ none ⟨w₀, m :: ms⟩ := .take hmachine rfl
      have hresume := reaches_resume (s := s) fuel w₀ m [] ms
      obtain ⟨new, hslots⟩ := Machine.slots_resume (s := s) fuel w₀ m
      rcases hcarried : m.resume s fuel w₀ with ⟨p, w₁, m₁⟩
      rw [hcarried] at hresume hslots
      -- The place of the task is still there, and still empty.
      obtain ⟨hplace₁, hmachine₁⟩ := World.task_of_slots_append (t := t) hslots (by simpa [hw₀])
      rw [hw₀, World.task_setTask hplace] at hmachine₁
      refine (Reaches.single htake).trans (hresume.trans ?_)
      rw [World.advance_eq hmachine, hcarried]
      cases p with
      | suspended => exact Reaches.single (.park [] m₁ ms hplace₁ hmachine₁ rfl)
      | finished =>
          have hnothing : w₁.discard m₁ = w₁ := by
            rw [World.discard, Machine.locks, Machine.frames_of_resume_finished hcarried]
            rfl
          have hdrop := Reaches.drop (s := s) w₁ m₁ ms
          rw [hnothing] at hdrop
          exact hdrop.trans (Reaches.elsewhere (fun l => rfl)
            (World.slots_setTask_of_machine hmachine₁.symm))
      | crashed message =>
          have hsame : (w₁.discard m₁).slots = w₁.slots ++ [] := by
            rw [World.slots_discard, List.append_nil]
          obtain ⟨-, hmachine₂⟩ := World.task_of_slots_append hsame hplace₁
          exact (Reaches.drop w₁ m₁ ms).trans (Reaches.elsewhere (fun l => rfl)
            (World.slots_setTask_of_machine (hmachine₁.symm.trans hmachine₂.symm)))

theorem reaches_abandon (w : World) (t : TaskRef) (ms : List Machine) :
    Reaches s ⟨w, ms⟩ ⟨w.abandon t, ms⟩ := by
  have htask := Task.machine_abandoned t (w.task t)
  cases hmachine : (w.task t).machine with
  | none =>
      rw [World.abandon_of_machine_none hmachine]
      exact Reaches.elsewhere (fun l => rfl)
        (World.slots_setTask_of_machine (htask.trans hmachine.symm))
  | some m =>
      rw [World.abandon_of_machine hmachine]
      have htake : Moves s ⟨w, ms⟩ none ⟨w.setTask t ((w.task t).abandoned t), m :: ms⟩ :=
        .take hmachine htask
      refine (Reaches.single htake).trans ((Reaches.drop _ m ms).trans ?_)
      refine Reaches.elsewhere (fun l => ?_) ?_
      · rw [World.isHeld_discard]
        exact World.isHeld_discard w m l
      · rw [World.slots_discard, World.slots_setTask, World.slots_setTask, World.slots_discard]

theorem reaches_abandonAll (w : World) (ts : List TaskRef) (ms : List Machine) :
    Reaches s ⟨w, ms⟩ ⟨w.abandonAll ts, ms⟩ := by
  induction ts generalizing w with
  | nil => exact .refl
  | cons t ts ih => exact (reaches_abandon w t ms).trans (ih _)

theorem reaches_shutdown (w : World) (ms : List Machine) :
    Reaches s ⟨w, ms⟩ ⟨w.shutdown, ms⟩ := by
  unfold World.shutdown
  split
  · exact .refl
  · exact (reaches_abandonAll w _ ms).trans (Reaches.elsewhere (fun l => rfl) rfl)

theorem reaches_advanceAll (fuel : Nat) (w : World) (ts : List TaskRef) (ms : List Machine) :
    Reaches s ⟨w, ms⟩ ⟨w.advanceAll s fuel ts, ms⟩ := by
  induction ts generalizing w with
  | nil => exact .refl
  | cons t ts ih => exact (reaches_advance fuel w t ms).trans (ih _)

theorem reaches_pass (fuel : Nat) (w : World) (ms : List Machine) :
    Reaches s ⟨w, ms⟩ ⟨w.pass s fuel, ms⟩ := by
  unfold World.pass
  split
  · exact .refl
  · exact (reaches_advanceAll fuel w _ ms).trans (Reaches.elsewhere (fun l => rfl) rfl)

/-- Running a machine in the foreground, with turns of the pool in between. -/
theorem reaches_run (fuel : Nat) (w : World) (m : Machine) (before after : List Machine) :
    Reaches s ⟨w, before ++ m :: after⟩
      ⟨(m.run s fuel w).world, before ++ (m.run s fuel w).machine :: after⟩ := by
  induction fuel generalizing w m with
  | zero => exact .refl
  | succ fuel ih =>
      rw [Machine.run]
      set w₀ := if fuel % Machine.share = 0 then w.pass s Machine.share else w with hw₀
      have hpass : Reaches s ⟨w, before ++ m :: after⟩ ⟨w₀, before ++ m :: after⟩ := by
        rw [hw₀]
        split
        · exact reaches_pass _ _ _
        · exact .refl
      have hstep : Reaches s ⟨w₀, before ++ m :: after⟩
          ⟨(m.step s w₀).world, before ++ (m.step s w₀).machine :: after⟩ :=
        .single (.step before m after)
      refine hpass.trans ?_
      rcases hreply : m.step s w₀ with ⟨st, w₁, m₁⟩
      rw [hreply] at hstep
      cases st with
      | next => exact hstep.trans (ih w₁ m₁)
      | pause => exact hstep.trans (ih w₁ m₁)
      | blocked => exact hstep.trans ((reaches_pass _ _ _).trans (ih _ m₁))
      | done => exact hstep
      | crash message => exact hstep

/-! ## Exclusion -/

/-- How many frames hold a lock, among those of all machines. -/
def holders (σ : System) (l : LockRef) : Nat :=
  σ.frames.countP fun f => f.lock? == some l

theorem holders_eq (σ : System) (l : LockRef) : σ.holders l = σ.locks.count l := by
  rw [locks_eq, List.count_filterMap]
  rfl

theorem Accounted.holders (h : σ.Accounted) (l : LockRef) :
    (σ.held l = true ↔ σ.holders l = 1) ∧ σ.holders l ≤ 1 := by
  rw [holders_eq, h l]
  cases σ.held l <;> simp

/-- No two machines are inside the same block. -/
theorem Accounted.pairwise (h : σ.Accounted) :
    σ.live.Pairwise fun m k => ∀ l, Frame.hold l ∈ m.frames → Frame.hold l ∉ k.frames := by
  have hnodup : σ.locks.Nodup := by
    rw [List.nodup_iff_count_le_one]
    intro l
    rw [h l]
    exact Bool.toNat_le _
  refine (List.nodup_flatMap.mp hnodup).2.imp fun hdisjoint l hm hk => ?_
  exact hdisjoint (mem_locks_iff.mpr hm) (mem_locks_iff.mpr hk)

/-- In whatever order machines work, are given up and break down, a lock is held if and only if
exactly one frame of all machines holds it, which is the frame of a block that was entered. So there
is at most one machine in each block, nobody sets the lock of another machine free, and a machine
that has come to its end or was dropped holds no lock.

This is about all that the pool and the foreground do: advancing and giving up tasks, closing the
pool and running machines. -/
theorem Reachable.excludes (h : σ.Reachable s) :
    (∀ l, (σ.held l = true ↔ σ.holders l = 1) ∧ σ.holders l ≤ 1 ∧
      ∀ f ∈ σ.frames, f.lock? = some l → f = .hold l) ∧
    (σ.live.Pairwise fun m k => ∀ l, Frame.hold l ∈ m.frames → Frame.hold l ∉ k.frames) ∧
    (∀ actor σ', Moves s σ actor σ' → ∀ l, σ.held l = true → σ'.held l = false →
      ∃ m ∈ σ.live, actor = some m ∧ Frame.hold l ∈ m.frames) ∧
    (∀ m ∈ σ.live, ∀ l, (m.step s σ.world).step = .done ∨ (σ.world.discard m).heap.isHeld l →
      Frame.hold l ∉ m.frames) ∧
    (∀ fuel t, Reachable s ⟨σ.world.advance s fuel t, σ.atWork⟩) ∧
    (∀ t, Reachable s ⟨σ.world.abandon t, σ.atWork⟩) ∧
    Reachable s ⟨σ.world.shutdown, σ.atWork⟩ ∧
    (∀ fuel before m after, σ.atWork = before ++ m :: after →
      Reachable s ⟨(m.run s fuel σ.world).world,
        before ++ (m.run s fuel σ.world).machine :: after⟩) := by
  have haccount := h.accounted
  have hreach : ∀ {σ'}, Reaches s σ σ' → Reachable s σ' := fun hrest =>
    let ⟨σ₀, hlive, hfree, hbefore⟩ := h
    ⟨σ₀, hlive, hfree, hbefore.trans hrest⟩
  refine ⟨?_, haccount.pairwise, ?_, ?_, ?_, ?_, ?_, ?_⟩
  · intro l
    obtain ⟨hiff, hle⟩ := haccount.holders l
    exact ⟨hiff, hle, fun f _ => Frame.lock?_eq_some_iff.mp⟩
  · intro actor σ' hmove l hheld hfree
    obtain ⟨m, hlive, hactor, hlock⟩ := hmove.freed hheld hfree
    exact ⟨m, hlive, hactor, mem_locks_iff.mp hlock⟩
  · rintro m - l (hdone | hheld) hmem
    · rw [Machine.frames_of_step_done hdone] at hmem
      contradiction
    · rw [World.isHeld_discard] at hheld
      simp [mem_locks_iff.mpr hmem] at hheld
  · exact fun fuel t => hreach (reaches_advance fuel σ.world t σ.atWork)
  · exact fun t => hreach (reaches_abandon σ.world t σ.atWork)
  · exact hreach (reaches_shutdown σ.world σ.atWork)
  · intro fuel before m after hwork
    obtain ⟨w, ms⟩ := σ
    subst hwork
    exact hreach (reaches_run fuel w m before after)

/-- Two machines want into one block. One is inside, and the lock is its own; if it is dropped the
block is free for the other one. -/
theorem Reachable.excludes_two :
    let s : Setting := ⟨default, default, Host.none⟩
    let m := Machine.ofBody World.globals [.exclusive 0 []]
    let r := Machine.step s (World.new default) m
    let entered := Machine.step s r.world r.machine
    let σ : System := ⟨entered.world, [entered.machine, m]⟩
    σ.held 0 = true ∧ σ.holders 0 = 1 ∧ Frame.hold 0 ∈ entered.machine.frames ∧
      (σ.world.discard entered.machine).heap.isHeld 0 = false := by
  intro s m r entered σ
  have hreach : Reachable s σ := by
    refine ⟨⟨World.new default, []⟩, rfl, fun l => rfl, ?_⟩
    have h₁ : Reaches s ⟨World.new default, []⟩ ⟨World.new default, [m, m]⟩ :=
      (Reaches.single (.start (.body _))).trans (Reaches.single (.start (.body _)))
    have h₂ : Reaches s ⟨World.new default, [m, m]⟩ ⟨r.world, [r.machine, m]⟩ :=
      .single (.step [] m [m])
    exact (h₁.trans h₂).trans (Reaches.single (.step [] r.machine [m]))
  obtain ⟨hlocks, -, -, hgone, -⟩ := Reachable.excludes hreach
  have hheld : σ.held 0 = true := rfl
  have hinside : Frame.hold 0 ∈ entered.machine.frames := .tail _ (.head _)
  refine ⟨hheld, (hlocks 0).1.mp hheld, hinside, ?_⟩
  by_contra hlocked
  exact hgone entered.machine (.head _) 0 (Or.inr (Bool.not_eq_false _ |>.mp hlocked)) hinside

end System

end Statute
