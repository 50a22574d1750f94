import Statute.Proofs.Concurrency.Dispatch
import Statute.Proofs.Concurrency.Interleaving

/-!
# Advancing tasks on a round

A worker advances a task by steps of its machine. A step that schedules a call is made of the moves
of that call. Any other step leaves the pool alone, and no step takes it back that a task is done.
So whatever a machine does when its task is advanced in one go is made of moves of calls, with other
changes in between.
-/

namespace Statute

open Relation (ReflTransGen)

/-- Scheduling takes a deferred call off the operands, or fails. -/
theorem Item.scheduleEffect_cases (stack : List Operand) :
    (∃ callee args below, scheduleEffect stack = .schedule callee args below) ∨
      ∃ f, scheduleEffect stack = .fail f := by
  unfold scheduleEffect
  cases hpop : Operand.pop stack with
  | error f => exact Or.inr ⟨f, rfl⟩
  | ok top =>
      obtain ⟨v, below⟩ := top
      cases v with
      | deferred callee args => exact Or.inl ⟨callee, args, below, rfl⟩
      | _ => exact Or.inr ⟨_, rfl⟩

namespace Machine

variable {s : Setting} {w : World} {t : TaskRef}

/-- A step neither ends a task nor takes it back that one is done. -/
theorem done_step (m : Machine) (ht : t < w.tasks.size) :
    ((m.step s w).world.task t).done = (w.task t).done := by
  obtain ⟨ts, htasks, hafter⟩ := m.exists_tasksAfter s w
  rw [World.task, htasks]
  cases hafter with
  | same => rfl
  | @claimed t' hdone =>
      change ((w.setTask t' _).task t).done = _
      by_cases heq : t = t'
      · rw [heq] at ht ⊢
        rw [World.task_setTask ht]
      · rw [World.task_setTask_of_ne heq]
  | scheduled label hcall => simp [World.task, ht, Array.getElem?_push_lt ht]

/-- A step that schedules nothing lets some time go by. -/
theorem precedes_step {m : Machine} (h : ¬ m.Schedules) : w.Precedes (m.step s w).world :=
  ⟨step_pool h, World.size_le_step m,
    fun _ hdone => (m.done_step (World.lt_size_of_done hdone)).trans hdone⟩

/-- A step that carries out a scheduling operator schedules a machine, or fails. -/
theorem schedule_of_schedules {m : Machine} (h : m.Schedules) :
    (m.step s w).world = w ∨
      ∃ label m' t, w.schedule label m' = .ok ((m.step s w).world, t) := by
  obtain ⟨frames, signal, scopes, depth⟩ := m
  obtain ⟨rfl, rest, stack, site, frames, rfl⟩ := h
  have heffect : Item.effect s w.heap scopes.current stack (.op .background) =
      Item.scheduleEffect stack := rfl
  simp only [step, resumeFrame, evalItem, heffect]
  rcases Item.scheduleEffect_cases stack with ⟨callee, args, below, hschedule⟩ | ⟨f, hfail⟩
  · rw [hschedule]
    simp only
    split
    · next hok => exact Or.inr ⟨_, _, _, hok⟩
    · exact Or.inl rfl
  · rw [hfail]
    exact Or.inl rfl

/-- What a machine does on its way to the next checkpoint neither ends a task nor takes it back that
one is done. -/
theorem done_resume (fuel : Nat) (m : Machine) (ht : t < w.tasks.size) :
    ((m.resume s fuel w).world.task t).done = (w.task t).done := by
  induction fuel generalizing w m with
  | zero => rfl
  | succ fuel ih =>
      have hsize := Nat.lt_of_lt_of_le ht (World.size_le_step (s := s) m)
      have hdone := m.done_step (s := s) ht
      rw [resume]
      rcases hreply : m.step s w with ⟨st, w₁, m₁⟩
      rw [hreply] at hsize hdone
      cases st with
      | next => exact (ih m₁ hsize).trans hdone
      | _ => exact hdone

end Machine

namespace World

variable {w w₁ w₂ : World} {t : TaskRef} {task : Task}

theorem Precedes.refl (w : World) : w.Precedes w :=
  ⟨rfl, Nat.le_refl _, fun _ => id⟩

theorem Precedes.trans (h₁ : w.Precedes w₁) (h₂ : w₁.Precedes w₂) : w.Precedes w₂ :=
  ⟨h₂.pool.trans h₁.pool, Nat.le_trans h₁.size h₂.size, fun t hdone => h₂.done t (h₁.done t hdone)⟩

theorem precedes_setTask (h : (w.task t).done = true → task.done = true) :
    w.Precedes (w.setTask t task) := by
  refine ⟨rfl, (size_setTask w t task).ge, fun t' hdone => ?_⟩
  by_cases heq : t' = t
  · rw [heq] at hdone ⊢
    rw [task_setTask (lt_size_of_done hdone)]
    exact h hdone
  · rw [task_setTask_of_ne heq]
    exact hdone

theorem precedes_discard (w : World) (m : Machine) : w.Precedes (w.discard m) := by
  refine ⟨pool_releaseAll w m.locks, ?_, fun t hdone => ?_⟩
  · rw [discard, tasks_releaseAll]
  · rwa [discard, World.task, tasks_releaseAll]

/-- A task that gets its machine back, or has ended, is done if it was. -/
theorem precedes_putBack (s : Setting) (carried : Carried)
    (h : (carried.world.task t).done = task.done) :
    carried.world.Precedes (carried.putBack s t task) := by
  obtain ⟨progress, w, m⟩ := carried
  cases progress with
  | suspended => exact precedes_setTask h.symm.trans
  | finished => exact precedes_setTask fun _ => rfl
  | crashed message => exact (precedes_discard w m).trans (precedes_setTask fun _ => rfl)

/-! Once the pool is closed nobody is scheduled any more. -/

theorem precedes_step_of_closed {s : Setting} (m : Machine) (hclosed : w.pool.closed = true) :
    w.Precedes (m.step s w).world := by
  by_cases hschedules : m.Schedules
  · rcases Machine.schedule_of_schedules (s := s) (w := w) hschedules with
      hsame | ⟨label, m', t, hschedule⟩
    · exact hsame.symm ▸ .refl w
    · rw [schedule, if_pos hclosed] at hschedule
      contradiction
  · exact Machine.precedes_step hschedules

theorem precedes_resume_of_closed {s : Setting} (fuel : Nat) (m : Machine)
    (hclosed : w.pool.closed = true) : w.Precedes (m.resume s fuel w).world := by
  induction fuel generalizing w m with
  | zero => exact .refl w
  | succ fuel ih =>
      have hstep := precedes_step_of_closed (s := s) m hclosed
      rw [Machine.resume]
      rcases hreply : m.step s w with ⟨st, w₁, m₁⟩
      rw [hreply] at hstep
      cases st with
      | next => exact hstep.trans (ih m₁ (hstep.pool ▸ hclosed))
      | _ => exact hstep

theorem precedes_advance_of_closed {s : Setting} (fuel : Nat) (t : TaskRef)
    (hclosed : w.pool.closed = true) : w.Precedes (w.advance s fuel t) := by
  cases hmachine : (w.task t).machine with
  | none => exact (advance_of_machine_none hmachine).symm ▸ .refl w
  | some m =>
      have ht := lt_size_of_machine hmachine
      set w₁ := w.setTask t { w.task t with machine := none } with hw₁
      have hdone : ((m.resume s fuel w₁).world.task t).done = (w.task t).done := by
        have ht₁ : t < w₁.tasks.size := ht.trans_eq (size_setTask w t _).symm
        rw [m.done_resume fuel ht₁, hw₁, task_setTask ht]
      rw [advance_eq hmachine]
      have htake : w.Precedes w₁ := precedes_setTask id
      have hresume := precedes_resume_of_closed (s := s) fuel m (w := w₁) hclosed
      exact htake.trans (hresume.trans (precedes_putBack s _ hdone))

end World

namespace Office

variable {s : Setting} {w : World} {fs : List Worker} {es : List Errand} {rs : List Round}

theorem Moves.capacity {σ σ' : Office} (hmove : Moves σ σ') :
    σ'.world.pool.capacity = σ.world.pool.capacity := by
  cases hmove with
  | pick a b hpick =>
      unfold Pool.pick
      simp only
      split <;> rfl
  | accept a b hsubmit hreplaces =>
      obtain ⟨ws, fs', rfl, -, -⟩ := hreplaces.frame
      rfl
  | advance a b hlater => rw [hlater.pool]
  | sweep a b hreplaces =>
      obtain ⟨ws, fs', rfl, -, -⟩ := hreplaces.frame
      rfl
  | retire htasks hreplaces =>
      obtain ⟨ws, fs', rfl, -, -⟩ := hreplaces.frame
      rfl
  | elsewhere hlater => rw [hlater.pool]
  | _ => rfl

theorem capacity_pos_of_reaches {σ σ' : Office} (hmoves : ReflTransGen Moves σ σ')
    (hcapacity : 0 < σ.world.pool.capacity) : 0 < σ'.world.pool.capacity := by
  induction hmoves with
  | refl => exact hcapacity
  | tail _ hmove ih => exact hmove.capacity ▸ ih

/-- A step of a machine is made of the moves of a call, or lets some time go by. -/
theorem reaches_step (m : Machine) (hcapacity : 0 < w.pool.capacity) :
    ∃ fs' es', ReflTransGen Moves ⟨w, fs, es, rs⟩ ⟨(m.step s w).world, fs', es', rs⟩ := by
  by_cases hschedules : m.Schedules
  · rcases Machine.schedule_of_schedules (s := s) (w := w) hschedules with
      hsame | ⟨label, m', t, hschedule⟩
    · rw [hsame]
      exact ⟨fs, es, .refl⟩
    · obtain ⟨fs', hmoves⟩ := reaches_schedule hcapacity hschedule
      exact ⟨fs', .placed t :: es, hmoves⟩
  · exact ⟨fs, es, .single (.elsewhere (Machine.precedes_step hschedules))⟩

theorem reaches_resume (fuel : Nat) (m : Machine) (hcapacity : 0 < w.pool.capacity) :
    ∃ fs' es', ReflTransGen Moves ⟨w, fs, es, rs⟩
      ⟨(m.resume s fuel w).world, fs', es', rs⟩ := by
  induction fuel generalizing w m fs es with
  | zero => exact ⟨fs, es, .refl⟩
  | succ fuel ih =>
      obtain ⟨fs₁, es₁, hstep⟩ := reaches_step (s := s) m hcapacity
      have hcapacity₁ := capacity_pos_of_reaches hstep hcapacity
      rw [Machine.resume]
      rcases hreply : m.step s w with ⟨st, w₁, m₁⟩
      rw [hreply] at hstep hcapacity₁
      cases st with
      | next =>
          obtain ⟨fs₂, es₂, hrest⟩ := ih m₁ hcapacity₁
          exact ⟨fs₂, es₂, hstep.trans hrest⟩
      | _ => exact ⟨fs₁, es₁, hstep⟩

/-- A worker on its round advances a task in one go. -/
theorem reaches_advance {a b : List Round} {id fuel : Nat} {t : TaskRef} {ts : List TaskRef}
    {finished : Bool} (hcapacity : 0 < w.pool.capacity) :
    ∃ fs' es', ReflTransGen Moves ⟨w, fs, es, a ++ ⟨id, t :: ts, finished⟩ :: b⟩
      ⟨w.advance s fuel t, fs', es',
        a ++ ⟨id, ts, finished || ((w.advance s fuel t).task t).done⟩ :: b⟩ := by
  cases hmachine : (w.task t).machine with
  | none =>
      rw [World.advance_of_machine_none hmachine]
      exact ⟨fs, es, .single (.advance a b (.refl w))⟩
  | some m =>
      have ht := World.lt_size_of_machine hmachine
      set w₁ := w.setTask t { w.task t with machine := none } with hw₁
      have htake : w.Precedes w₁ := World.precedes_setTask fun hdone => hdone
      have hdone : ((m.resume s fuel w₁).world.task t).done = (w.task t).done := by
        have ht₁ : t < w₁.tasks.size := ht.trans_eq (World.size_setTask w t _).symm
        rw [m.done_resume fuel ht₁, hw₁, World.task_setTask ht]
      obtain ⟨fs', es', hresume⟩ := reaches_resume (s := s) fuel m (w := w₁) hcapacity
      rw [World.advance_eq hmachine]
      exact ⟨fs', es', .head (.elsewhere htake)
        (hresume.tail (.advance a b (World.precedes_putBack s _ hdone)))⟩

/-- A worker makes its round in one go. -/
theorem reaches_advanceAll {a b : List Round} {id fuel : Nat} {ts : List TaskRef} {finished : Bool}
    (hcapacity : 0 < w.pool.capacity) :
    ∃ fs' es' finished', ReflTransGen Moves ⟨w, fs, es, a ++ ⟨id, ts, finished⟩ :: b⟩
      ⟨w.advanceAll s fuel ts, fs', es', a ++ ⟨id, [], finished'⟩ :: b⟩ := by
  induction ts generalizing w fs es finished with
  | nil => exact ⟨fs, es, finished, .refl⟩
  | cons t ts ih =>
      obtain ⟨fs₁, es₁, hadvance⟩ := reaches_advance (s := s) hcapacity
      obtain ⟨fs₂, es₂, finished₂, hrest⟩ := ih (w := w.advance s fuel t)
        (capacity_pos_of_reaches hadvance hcapacity)
      exact ⟨fs₂, es₂, finished₂, hadvance.trans hrest⟩

end Office

end Statute
