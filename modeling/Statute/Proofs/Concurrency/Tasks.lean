import Statute.Proofs.Machine.Holdings
import Statute.Proofs.Machine.Pool
import Statute.Proofs.Value.Operations

/-!
# Tasks of a world

What advancing a task and giving it up do to the tasks: the task in question is put into its new
state, and all others keep theirs. While a machine is at work, no other machine gets into a task or
out of it.
-/

namespace Statute

/-- What becomes of a task when its machine has been carried somewhere. -/
def Carried.putBack (s : Setting) (t : TaskRef) (task : Task) : Carried → World
  | ⟨.suspended, w, m⟩ => w.setTask t { task with machine := some m }
  | ⟨.finished, w, m⟩ => w.setTask t (task.finish m.outcome)
  | ⟨.crashed message, w, m⟩ =>
      (w.discard m).setTask t (task.finish (task.breakdown s.config.debug message))

/-- What becomes of a task that is given up. -/
def Task.abandoned (ref : TaskRef) (t : Task) : Task :=
  if t.done then { t with machine := none } else t.finish (.error (t.abandonment ref))

theorem Task.machine_abandoned (ref : TaskRef) (t : Task) : (t.abandoned ref).machine = none := by
  unfold abandoned
  split <;> rfl

/-- A breakdown of the host that is not to be shown leaves the empty value. -/
theorem Task.eq_empty_of_breakdown {t : Task} {debug : Bool} {message : Option String} {v : Value}
    (h : t.breakdown debug message = .ok v) : v = .empty := by
  unfold breakdown at h
  split at h
  · contradiction
  · exact (Except.ok.inj h).symm

theorem Task.plain_of_breakdown {t : Task} {debug : Bool} {message : Option String} {f : Failure}
    (h : t.breakdown debug message = .error f) : f.Plain := by
  unfold breakdown at h
  split at h
  · rw [← Except.error.inj h]
    exact Failure.plain_new _ _
  · contradiction

namespace World

theorem lt_size_of_machine {w : World} {t : TaskRef} {m : Machine}
    (h : (w.task t).machine = some m) : t < w.tasks.size := by
  by_contra hlt
  have hnone : (w.task t).machine = none := by
    simp [task, hlt]
    rfl
  rw [hnone] at h
  contradiction

theorem advance_eq {s : Setting} {fuel : Nat} {w : World} {t : TaskRef} {m : Machine}
    (hmachine : (w.task t).machine = some m) :
    w.advance s fuel t =
      (m.resume s fuel (w.setTask t { w.task t with machine := none })).putBack s t (w.task t) := by
  simp only [advance, hmachine]
  rfl

/-- A task without a machine stays as it is. -/
theorem advance_of_machine_none {s : Setting} {fuel : Nat} {w : World} {t : TaskRef}
    (h : (w.task t).machine = none) : w.advance s fuel t = w := by
  simp only [advance, h]

theorem abandon_of_machine_none {w : World} {t : TaskRef} (h : (w.task t).machine = none) :
    w.abandon t = w.setTask t ((w.task t).abandoned t) := by
  simp only [abandon, h, Task.abandoned]
  split <;> rfl

theorem abandon_of_machine {w : World} {t : TaskRef} {m : Machine}
    (h : (w.task t).machine = some m) :
    w.abandon t = (w.discard m).setTask t ((w.task t).abandoned t) := by
  simp only [abandon, h, Task.abandoned]
  split <;> rfl

/-- The place of a task can be read off the places of all tasks. -/
theorem task_of_slots_append {w w' : World} {t : TaskRef} {new : List (Option Machine)}
    (hslots : w'.slots = w.slots ++ new) (ht : t < w.tasks.size) :
    t < w'.tasks.size ∧ (w'.task t).machine = (w.task t).machine := by
  have hget : w'.slots[t]? = some (w.task t).machine := by
    rw [hslots, List.getElem?_append_left (by rw [slots_length]; exact ht), slots_getElem? ht]
  obtain ⟨hlt, -⟩ := List.getElem?_eq_some_iff.mp hget
  rw [slots_length] at hlt
  rw [slots_getElem? hlt] at hget
  exact ⟨hlt, Option.some.inj hget⟩

@[simp] theorem size_setTask (w : World) (t : TaskRef) (task : Task) :
    (w.setTask t task).tasks.size = w.tasks.size :=
  Array.size_setIfInBounds

theorem task_setTask {w : World} {t : TaskRef} (ht : t < w.tasks.size) (task : Task) :
    (w.setTask t task).task t = task := by
  simp [setTask, World.task, ht]

theorem task_setTask_of_ne {w : World} {t t' : TaskRef} (h : t' ≠ t) (task : Task) :
    (w.setTask t task).task t' = w.task t' := by
  simp [setTask, World.task, Ne.symm h]

theorem isHeld_releaseAll (w : World) (ls : List LockRef) (l : LockRef) :
    (w.releaseAll ls).heap.isHeld l = (w.heap.isHeld l && decide (l ∉ ls)) := by
  induction ls generalizing w with
  | nil => simp [releaseAll]
  | cons l' ls ih =>
      rw [releaseAll, ih, Heap.isHeld_release]
      by_cases h : l = l' <;> simp [h]

theorem isHeld_discard (w : World) (m : Machine) (l : LockRef) :
    (w.discard m).heap.isHeld l = (w.heap.isHeld l && decide (l ∉ m.locks)) :=
  isHeld_releaseAll w m.locks l

theorem tasks_releaseAll (w : World) (ls : List LockRef) : (w.releaseAll ls).tasks = w.tasks := by
  induction ls generalizing w with
  | nil => rfl
  | cons l ls ih => rw [releaseAll, ih]

theorem pool_releaseAll (w : World) (ls : List LockRef) : (w.releaseAll ls).pool = w.pool := by
  induction ls generalizing w with
  | nil => rfl
  | cons l ls ih => rw [releaseAll, ih]

theorem slots_discard (w : World) (m : Machine) : (w.discard m).slots = w.slots := by
  rw [slots, discard, tasks_releaseAll, slots]

end World

namespace Machine

variable {s : Setting} {w w' : World} {m m' : Machine}

theorem slots_of_exchange {w₁ : World} {m₁ : Machine} (h : Exchange w m w₁ m₁) :
    w₁.slots = w.slots := by
  cases h <;> rfl

/-- The tasks that there are keep their machines while another machine is at work. -/
theorem slots_resume (fuel : Nat) (w : World) (m : Machine) :
    ∃ new, (m.resume s fuel w).world.slots = w.slots ++ new := by
  induction fuel generalizing w m with
  | zero => exact ⟨[], (List.append_nil _).symm⟩
  | succ fuel ih =>
      obtain ⟨w₀, m₀, hexchange, hsettles⟩ := step_settles (s := s) (w := w) m
      obtain ⟨new, hslots, -⟩ := hsettles.slots
      rw [slots_of_exchange hexchange] at hslots
      rw [resume]
      rcases hreply : m.step s w with ⟨st, w₁, m₁⟩
      rw [hreply] at hslots
      cases st with
      | next =>
          obtain ⟨later, hlater⟩ := ih w₁ m₁
          exact ⟨new ++ later, by rw [hlater, hslots, List.append_assoc]⟩
      | _ => exact ⟨new, hslots⟩

theorem frames_of_resume_finished {fuel : Nat} (h : m.resume s fuel w = ⟨.finished, w', m'⟩) :
    m'.frames = [] := by
  induction fuel generalizing w m with
  | zero => cases h
  | succ fuel ih =>
      rw [resume] at h
      rcases hreply : m.step s w with ⟨st, w₁, m₁⟩
      rw [hreply] at h
      cases st with
      | next => exact ih h
      | done =>
          cases h
          have hframes := frames_of_step_done (s := s) (w := w) (m := m) (by rw [hreply])
          rw [step_of_frames_nil hframes] at hreply
          cases hreply
          exact hframes
      | _ => cases h

end Machine

end Statute
