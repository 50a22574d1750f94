import Statute.Proofs.Concurrency.Exclusion
import Statute.Proofs.Machine.Scheduling

/-!
# Runs of many machines, step by step

What can happen in a system, one step of one machine at a time: a machine in the foreground takes a
step, or a task of the pool is advanced by one step. In between machines are begun and dropped,
tasks are given up, and names are bound in the global scope from outside.

Something holds of every machine and of every outcome in a run if steps keep it. Whatever the pool
and the foreground do is made of such moves, so a run in big strides is one of these runs as well.
-/

namespace Statute

open Relation (ReflTransGen)

namespace World

/-- `M` holds of every machine that rests in a task, and `O` of every outcome. -/
structure Holds (M : Machine → Prop) (O : Outcome → Prop) (w : World) : Prop where
  machine : ∀ t m, (w.task t).machine = some m → M m
  outcome : ∀ t o, (w.task t).outcome = some o → O o

variable {M : Machine → Prop} {O : Outcome → Prop} {w w' : World} {s : Setting} {m : Machine}

theorem Holds.imp {M' : Machine → Prop} {O' : Outcome → Prop} (h : w.Holds M O)
    (hM : ∀ m, M m → M' m) (hO : ∀ o, O o → O' o) : w.Holds M' O' :=
  ⟨fun t m hm => hM m (h.machine t m hm), fun t o ho => hO o (h.outcome t o ho)⟩

theorem Holds.of_tasks (h : w.Holds M O) (htasks : w'.tasks = w.tasks) : w'.Holds M O := by
  have htask : ∀ t, w'.task t = w.task t := fun t => by rw [task, htasks, task]
  refine ⟨fun t m hm => h.machine t m ?_, fun t o ho => h.outcome t o ?_⟩
  · rw [← htask, hm]
  · rw [← htask, ho]

theorem Holds.setTask (h : w.Holds M O) (t : TaskRef) (task : Task)
    (hmachine : ∀ m, task.machine = some m → M m)
    (houtcome : ∀ o, task.outcome = some o → O o) : (w.setTask t task).Holds M O := by
  by_cases ht : t < w.tasks.size
  · have htask : ∀ t', (w.setTask t task).task t' = if t' = t then task else w.task t' := by
      intro t'
      split
      · next heq => rw [heq, task_setTask ht]
      · next hne => rw [task_setTask_of_ne hne]
    refine ⟨fun t' => ?_, fun t' => ?_⟩
    · rw [htask]
      split
      · exact hmachine
      · exact h.machine t'
    · rw [htask]
      split
      · exact houtcome
      · exact h.outcome t'
  · refine h.of_tasks ?_
    exact Array.setIfInBounds_eq_of_size_le (Nat.le_of_not_lt ht)

theorem Holds.push (h : w.Holds M O) {label : String} (hm : M m) :
    ({ w with tasks := w.tasks.push (.new label m) }).Holds M O := by
  have htask : ∀ t, (World.mk w.heap (w.tasks.push (.new label m)) w.pool w.output).task t =
      if t = w.tasks.size then .new label m else w.task t := by
    intro t
    simp only [task, Array.getD_eq_getD_getElem?, Array.getElem?_push]
    split <;> rfl
  refine ⟨fun t k hk => ?_, fun t o ho => ?_⟩
  · rw [htask] at hk
    split at hk
    · rwa [← Option.some.inj hk]
    · exact h.machine t k hk
  · rw [htask] at ho
    split at ho
    · contradiction
    · exact h.outcome t o ho

theorem Holds.discard (h : w.Holds M O) (m : Machine) : (w.discard m).Holds M O :=
  h.of_tasks (tasks_releaseAll w m.locks)

/-- A step keeps what holds of the tasks, if it holds of the calls that it entrusts to the pool. -/
theorem Holds.step (h : w.Holds M O)
    (hentrusts : ∀ callee args, m.Entrusts s w.heap callee args →
      M (.ofCall m.scopes.current callee args)) : (m.step s w).world.Holds M O := by
  obtain ⟨ts, htasks, hafter⟩ := m.exists_tasksAfter s w
  cases hafter with
  | same => exact h.of_tasks htasks
  | @claimed t hdone =>
      exact (h.setTask t { w.task t with waited := true, outcome := none } (h.machine t)
        fun o ho => nomatch ho).of_tasks htasks
  | scheduled label hcall => exact (h.push (hentrusts _ _ hcall)).of_tasks htasks

/-- A task that is advanced by one step goes on, or it ends, or the host breaks down. -/
theorem advance_cases {t : TaskRef} (hmachine : (w.task t).machine = some m) :
    let w₀ := w.setTask t { w.task t with machine := none }
    let r := m.step s w₀
    (∀ message, r.step ≠ .crash message) ∧
        w.advance s 1 t = r.world.setTask t { w.task t with machine := some r.machine } ∨
      m.frames = [] ∧ w.advance s 1 t = w₀.setTask t ((w.task t).finish m.outcome) ∨
      ∃ message, r.step = .crash message ∧
        w.advance s 1 t = (r.world.discard r.machine).setTask t
          ((w.task t).finish ((w.task t).breakdown s.config.debug message)) := by
  intro w₀ r
  rw [advance_eq hmachine, Machine.resume]
  rcases hreply : m.step s w₀ with ⟨st, w₁, m₁⟩
  cases st with
  | done =>
      have hframes := Machine.frames_of_step_done (s := s) (w := w₀) (m := m) (by rw [hreply])
      rw [Machine.step_of_frames_nil hframes] at hreply
      cases hreply
      exact Or.inr (Or.inl ⟨hframes, rfl⟩)
  | crash message =>
      refine Or.inr (Or.inr ⟨message, ?_⟩)
      simp only [r, hreply]
      exact ⟨trivial, rfl⟩
  | _ =>
      refine Or.inl ?_
      simp only [r, hreply]
      refine ⟨fun message hcrash => ?_, rfl⟩
      contradiction

end World

namespace System

variable {s : Setting} {σ σ' σ₀ : System} {w w' : World} {ms : List Machine} {m m' : Machine}
  {Begun : Machine → Prop} {Given : Value → Prop}

/-- What can happen. Machines that are begun and values that are given from outside are as required;
the heap is changed by nothing else but steps. -/
inductive Happens (s : Setting) (Begun : Machine → Prop) (Given : Value → Prop) :
    System → System → Prop
  | start {w : World} {ms : List Machine} {m : Machine} (hbegun : Begun m) :
      Happens s Begun Given ⟨w, ms⟩ ⟨w, m :: ms⟩
  | step {w : World} (before : List Machine) (m : Machine) (after : List Machine)
      (hstep : ∀ message, (m.step s w).step ≠ .crash message) :
      Happens s Begun Given ⟨w, before ++ m :: after⟩
        ⟨(m.step s w).world, before ++ (m.step s w).machine :: after⟩
  /-- The host breaks down during a step, and what is left of the machine is dropped. -/
  | crash {w : World} {message : Option String} (before : List Machine) (m : Machine)
      (after : List Machine) (hstep : (m.step s w).step = .crash message) :
      Happens s Begun Given ⟨w, before ++ m :: after⟩
        ⟨(m.step s w).world.discard (m.step s w).machine, before ++ after⟩
  | drop {w : World} (before : List Machine) (m : Machine) (after : List Machine) :
      Happens s Begun Given ⟨w, before ++ m :: after⟩ ⟨w.discard m, before ++ after⟩
  | advance {w : World} {ms : List Machine} (t : TaskRef) :
      Happens s Begun Given ⟨w, ms⟩ ⟨w.advance s 1 t, ms⟩
  | abandon {w : World} {ms : List Machine} (t : TaskRef) :
      Happens s Begun Given ⟨w, ms⟩ ⟨w.abandon t, ms⟩
  | give {w : World} {ms : List Machine} {v : Value} (name : String) (hgiven : Given v) :
      Happens s Begun Given ⟨w, ms⟩ ⟨{ w with heap := w.heap.define 0 name v }, ms⟩
  /-- Something happens to the locks, to the pool or to what was printed. -/
  | elsewhere {w : World} {ms : List Machine} (locks : Array Bool) (pool : Pool)
      (output : Array String) :
      Happens s Begun Given ⟨w, ms⟩
        ⟨{ w with heap := { w.heap with locks := locks }, pool := pool, output := output }, ms⟩

def Runs (s : Setting) (Begun : Machine → Prop) (Given : Value → Prop) : System → System → Prop :=
  ReflTransGen (Happens s Begun Given)

theorem mem_live_iff : m ∈ σ.live ↔ m ∈ σ.atWork ∨ ∃ t, (σ.world.task t).machine = some m := by
  rw [live, List.mem_append, World.parked, List.reduceOption_mem_iff]
  refine or_congr_right ⟨fun h => ?_, ?_⟩
  · obtain ⟨t, hlt, ht⟩ := List.getElem_of_mem h
    refine ⟨t, ?_⟩
    rw [World.slots_length] at hlt
    have hslot := World.slots_getElem? hlt
    rw [List.getElem?_eq_getElem (by rwa [World.slots_length]), ht] at hslot
    exact (Option.some.inj hslot).symm
  · rintro ⟨t, ht⟩
    have hslot := World.slots_getElem? (World.lt_size_of_machine ht)
    rw [ht] at hslot
    exact List.mem_of_getElem? hslot

/-! ## What steps keep -/

/-- `H` holds of the heap, `M` of every machine and `O` of every outcome. -/
structure Holds (H : Heap → Prop) (M : Machine → Prop) (O : Outcome → Prop) (σ : System) : Prop
    where
  heap : H σ.world.heap
  tasks : σ.world.Holds M O
  atWork : ∀ m ∈ σ.atWork, M m

theorem Holds.imp {H : Heap → Prop} {M M' : Machine → Prop} {O O' : Outcome → Prop}
    (h : σ.Holds H M O) (hM : ∀ m, M m → M' m) (hO : ∀ o, O o → O' o) : σ.Holds H M' O' :=
  ⟨h.heap, h.tasks.imp hM hO, fun m hm => hM m (h.atWork m hm)⟩

theorem Holds.of_live {H : Heap → Prop} {M : Machine → Prop} {O : Outcome → Prop}
    (h : σ.Holds H M O) (hm : m ∈ σ.live) : M m := by
  rcases mem_live_iff.mp hm with hm | ⟨t, hm⟩
  · exact h.atWork m hm
  · exact h.tasks.machine t m hm

/-- What has to be shown of steps so that `H`, `M` and `O` go on to hold. Only the steps that `Q`
allows are asked about. -/
structure Keeps (s : Setting) (Q : Heap → Machine → Prop) (H : Heap → Prop) (M : Machine → Prop)
    (O : Outcome → Prop) : Prop where
  heap : ∀ {w : World} {m : Machine}, H w.heap → w.Holds M O → M m →
    H (m.step s w).world.heap
  machine : ∀ {w : World} {m : Machine}, H w.heap → w.Holds M O → M m → Q w.heap m →
    (∀ message, (m.step s w).step ≠ .crash message) → M (m.step s w).machine
  entrusts : ∀ {w : World} {m : Machine} {callee : Value} {args : List Value}, H w.heap → M m →
    m.Entrusts s w.heap callee args → M (.ofCall m.scopes.current callee args)
  outcome : ∀ {m : Machine}, M m → m.frames = [] → O m.outcome
  breakdown : ∀ {w : World} {m : Machine} {message : Option String}, M m → Q w.heap m →
    (m.step s w).step = .crash message → ∀ task : Task, O (task.breakdown s.config.debug message)
  abandonment : ∀ (t : TaskRef) (task : Task), O (.error (task.abandonment t))
  locks : ∀ {h : Heap} (locks : Array Bool), H h → H { h with locks := locks }

section

variable {Q : Heap → Machine → Prop} {H : Heap → Prop} {M : Machine → Prop} {O : Outcome → Prop}

theorem Keeps.discard (hkeeps : Keeps s Q H M O) (h : H w.heap) (m : Machine) :
    H (w.discard m).heap := by
  have hrelease : ∀ ls : List LockRef, ∀ w : World, H w.heap → H (w.releaseAll ls).heap := by
    intro ls
    induction ls with
    | nil => exact fun w hw => hw
    | cons l ls ih => exact fun w hw => ih _ (hkeeps.locks _ hw)
  exact hrelease m.locks w h

/-- A task is advanced by one step of its machine. -/
theorem Keeps.advance (hkeeps : Keeps s Q H M O) (hheap : H w.heap) (htasks : w.Holds M O)
    (t : TaskRef) (hQ : ∀ m, (w.task t).machine = some m → Q w.heap m) :
    H (w.advance s 1 t).heap ∧ (w.advance s 1 t).Holds M O := by
  cases hmachine : (w.task t).machine with
  | none =>
      rw [World.advance_of_machine_none hmachine]
      exact ⟨hheap, htasks⟩
  | some m =>
      have hm := htasks.machine t m hmachine
      set w₀ := w.setTask t { w.task t with machine := none } with hw₀
      have hheap₀ : H w₀.heap := hheap
      have htasks₀ : w₀.Holds M O :=
        htasks.setTask t { w.task t with machine := none } (by simp) (htasks.outcome t)
      have hheap₁ := hkeeps.heap hheap₀ htasks₀ hm
      have htasks₁ : (m.step s w₀).world.Holds M O :=
        htasks₀.step fun callee args => hkeeps.entrusts hheap₀ hm
      have hfinish : ∀ {w' : World} (o : Outcome), H w'.heap → w'.Holds M O → O o →
          H (w'.setTask t ((w.task t).finish o)).heap ∧
            (w'.setTask t ((w.task t).finish o)).Holds M O := by
        intro w' o hheap' htasks' ho
        refine ⟨hheap', htasks'.setTask t _ (by simp [Task.finish]) fun o' ho' => ?_⟩
        rwa [← Option.some.inj ho']
      rcases World.advance_cases (s := s) hmachine with ⟨hcrash, heq⟩ | ⟨hframes, heq⟩ |
        ⟨message, hcrash, heq⟩
      · have hm₁ := hkeeps.machine hheap₀ htasks₀ hm (hQ m hmachine) hcrash
        rw [heq]
        refine ⟨hheap₁, htasks₁.setTask t _ (fun k hk => ?_) (htasks.outcome t)⟩
        rwa [← Option.some.inj hk]
      · rw [heq]
        exact hfinish _ hheap₀ htasks₀ (hkeeps.outcome hm hframes)
      · rw [heq]
        exact hfinish _ (hkeeps.discard hheap₁ _) (htasks₁.discard _)
          (hkeeps.breakdown (w := w₀) hm (hQ m hmachine) hcrash (w.task t))

theorem Keeps.abandon (hkeeps : Keeps s Q H M O) (hheap : H w.heap) (htasks : w.Holds M O)
    (t : TaskRef) : H (w.abandon t).heap ∧ (w.abandon t).Holds M O := by
  have habandoned : ∀ {w' : World}, H w'.heap → w'.Holds M O →
      H (w'.setTask t ((w.task t).abandoned t)).heap ∧
        (w'.setTask t ((w.task t).abandoned t)).Holds M O := by
    intro w' hheap' htasks'
    refine ⟨hheap', htasks'.setTask t _ ?_ ?_⟩
    · intro m hm
      rw [Task.machine_abandoned] at hm
      contradiction
    · intro o ho
      unfold Task.abandoned at ho
      split at ho
      · exact htasks.outcome t o ho
      · rw [← Option.some.inj ho]
        exact hkeeps.abandonment t (w.task t)
  cases hmachine : (w.task t).machine with
  | none =>
      rw [World.abandon_of_machine_none hmachine]
      exact habandoned hheap htasks
  | some m =>
      rw [World.abandon_of_machine hmachine]
      exact habandoned (hkeeps.discard hheap m) (htasks.discard m)

theorem forall_mem_middle {P : Machine → Prop} {before after : List Machine} {m m' : Machine}
    (h : ∀ k ∈ before ++ m :: after, P k) (hm : P m') : ∀ k ∈ before ++ m' :: after, P k := by
  intro k hk
  rcases List.mem_append.mp hk with hk | hk
  · exact h k (List.mem_append_left _ hk)
  · rcases List.mem_cons.mp hk with rfl | hk
    · exact hm
    · exact h k (List.mem_append_right _ (List.mem_cons_of_mem _ hk))

/-- Whatever happens, what steps keep goes on to hold. -/
theorem Happens.holds (hmove : Happens s Begun Given σ σ') (hkeeps : Keeps s Q H M O)
    (hbegun : ∀ m, Begun m → M m)
    (hgiven : ∀ h name v, Given v → H h → H (h.define 0 name v))
    (hQ : ∀ m ∈ σ.live, Q σ.world.heap m) (h : σ.Holds H M O) : σ'.Holds H M O := by
  obtain ⟨hheap, htasks, hwork⟩ := h
  cases hmove with
  | start hstart =>
      refine ⟨hheap, htasks, fun m hm => ?_⟩
      rcases List.mem_cons.mp hm with rfl | hm
      · exact hbegun m hstart
      · exact hwork m hm
  | step before m after hstep =>
      have hm := hwork m (by simp)
      have hlive := hQ m (mem_live_iff.mpr (Or.inl (by simp)))
      exact ⟨hkeeps.heap hheap htasks hm,
        htasks.step fun callee args => hkeeps.entrusts hheap hm,
        forall_mem_middle hwork (hkeeps.machine hheap htasks hm hlive hstep)⟩
  | crash before m after hstep =>
      have hm := hwork m (by simp)
      refine ⟨hkeeps.discard (hkeeps.heap hheap htasks hm) _,
        (htasks.step fun callee args => hkeeps.entrusts hheap hm).discard _, fun k hk => ?_⟩
      exact hwork k (List.mem_append.mpr ((List.mem_append.mp hk).imp_right (.tail _)))
  | drop before m after =>
      refine ⟨hkeeps.discard hheap m, htasks.discard m, fun k hk => ?_⟩
      exact hwork k (List.mem_append.mpr ((List.mem_append.mp hk).imp_right (.tail _)))
  | advance t =>
      obtain ⟨hheap', htasks'⟩ := hkeeps.advance hheap htasks t fun m hm =>
        hQ m (mem_live_iff.mpr (Or.inr ⟨t, hm⟩))
      exact ⟨hheap', htasks', hwork⟩
  | abandon t =>
      obtain ⟨hheap', htasks'⟩ := hkeeps.abandon hheap htasks t
      exact ⟨hheap', htasks', hwork⟩
  | give name hv => exact ⟨hgiven _ name _ hv hheap, htasks.of_tasks rfl, hwork⟩
  | elsewhere locks pool output => exact ⟨hkeeps.locks locks hheap, htasks.of_tasks rfl, hwork⟩

/-- Where there is no machine yet, all that is asked of machines and of outcomes holds. -/
theorem Holds.of_idle (hheap : H σ.world.heap) (htasks : σ.world.tasks = #[])
    (hwork : σ.atWork = []) : σ.Holds H M O := by
  have htask : ∀ t, σ.world.task t = default := fun t => by
    rw [World.task, htasks]
    rfl
  refine ⟨hheap, ⟨fun t m hm => ?_, fun t o ho => ?_⟩, fun m hm => ?_⟩
  · rw [htask] at hm
    contradiction
  · rw [htask] at ho
    contradiction
  · rw [hwork] at hm
    contradiction

/-- What steps keep holds of every run that begins without machines. -/
theorem Runs.holds (hkeeps : Keeps s (fun _ _ => True) H M O) (hbegun : ∀ m, Begun m → M m)
    (hgiven : ∀ h name v, Given v → H h → H (h.define 0 name v)) (hheap : H σ₀.world.heap)
    (htasks : σ₀.world.tasks = #[]) (hwork : σ₀.atWork = [])
    (hruns : Runs s Begun Given σ₀ σ) : σ.Holds H M O := by
  induction hruns with
  | refl => exact .of_idle hheap htasks hwork
  | tail _ hmove ih => exact hmove.holds hkeeps hbegun hgiven (fun _ _ => trivial) ih

end

end System

/-! ## Strides of the pool and of the foreground -/

namespace World

variable {s : Setting} {w : World} {m : Machine} {t : TaskRef}

def Idle (w : World) : Prop :=
  ∀ t m, (w.task t).machine = some m → (w.task t).done = false

theorem setTask_setTask (w : World) (t : TaskRef) (task task' : Task) :
    (w.setTask t task).setTask t task' = w.setTask t task' := by
  simp [setTask]

theorem setTask_task (w : World) (t : TaskRef) : w.setTask t (w.task t) = w := by
  by_cases ht : t < w.tasks.size
  · have hself : w.tasks.setIfInBounds t (w.task t) = w.tasks := by
      rw [Array.setIfInBounds_def, dif_pos ht]
      simp [task, ht]
    rw [setTask, hself]
  · rw [setTask, Array.setIfInBounds_eq_of_size_le (Nat.le_of_not_lt ht)]

theorem size_le_step (m : Machine) : w.tasks.size ≤ (m.step s w).world.tasks.size := by
  obtain ⟨ts, htasks, hafter⟩ := m.exists_tasksAfter s w
  rw [htasks]
  cases hafter with
  | same => exact le_rfl
  | claimed => exact (size_setTask w _ _).ge
  | scheduled => simp

/-- A step of another machine leaves a task alone that is not done. -/
theorem task_step (ht : t < w.tasks.size) (hdone : (w.task t).done = false) :
    (m.step s w).world.task t = w.task t := by
  obtain ⟨ts, htasks, hafter⟩ := m.exists_tasksAfter s w
  rw [task, htasks]
  cases hafter with
  | same => rfl
  | @claimed t' hdone' =>
      refine task_setTask_of_ne ?_ _
      rintro rfl
      rw [hdone] at hdone'
      contradiction
  | scheduled label hcall =>
      rw [Array.getD_eq_getD_getElem?, Array.getElem?_push_lt ht]
      simp [task, ht]

/-- What becomes of a task does not depend on the machine that it had. -/
theorem putBack_machine (s : Setting) (t : TaskRef) (task : Task) (o : Option Machine)
    (c : Carried) : c.putBack s t { task with machine := o } = c.putBack s t task := by
  obtain ⟨p, w, m⟩ := c
  cases p <;> rfl

/-- Advancing a task by many steps is advancing it by one, and then by the others unless the first
has reached a checkpoint. -/
theorem advance_succ (hidle : w.Idle) (fuel : Nat) (t : TaskRef) :
    w.advance s (fuel + 1) t = w.advance s 1 t ∨
      w.advance s (fuel + 1) t = (w.advance s 1 t).advance s fuel t := by
  cases hmachine : (w.task t).machine with
  | none =>
      rw [advance_of_machine_none hmachine, advance_of_machine_none hmachine]
      exact Or.inl rfl
  | some m =>
      have hlt := lt_size_of_machine hmachine
      set w₀ := w.setTask t { w.task t with machine := none } with hw₀
      have htask₀ : w₀.task t = { w.task t with machine := none } := task_setTask hlt _
      have hlt₀ : t < w₀.tasks.size := by rwa [hw₀, size_setTask]
      have hone : (m.step s w₀).world.task t = { w.task t with machine := none } := by
        rw [task_step hlt₀ (by rw [htask₀]; exact hidle t m hmachine), htask₀]
      rw [advance_eq hmachine, advance_eq hmachine, Machine.resume, Machine.resume]
      rcases hreply : m.step s w₀ with ⟨st, w₁, m₁⟩
      rw [hreply] at hone
      cases st with
      | next =>
          right
          have hsize := size_le_step (s := s) (w := w₀) m
          rw [hreply] at hsize
          have hlt₁ : t < w₁.tasks.size := hlt₀.trans_le hsize
          have hmachine₁ : ((w₁.setTask t { w.task t with machine := some m₁ }).task t).machine =
              some m₁ := by rw [task_setTask hlt₁]
          change _ = advance s fuel (w₁.setTask t { w.task t with machine := some m₁ }) t
          rw [advance_eq hmachine₁, task_setTask hlt₁, setTask_setTask, putBack_machine, ← hone]
          change (m₁.resume s fuel w₁).putBack s t (w.task t) =
            (m₁.resume s fuel (w₁.setTask t (w₁.task t))).putBack s t (w.task t)
          rw [setTask_task]
      | _ => exact Or.inl rfl

theorem Idle.of_tasks {w' : World} (h : w.Idle) (htasks : w'.tasks = w.tasks) : w'.Idle := by
  intro t
  rw [task, htasks]
  exact h t

theorem Idle.setTask (h : w.Idle) (task : Task)
    (htask : ∀ m, task.machine = some m → task.done = false) (t : TaskRef) :
    (w.setTask t task).Idle := by
  intro t'
  by_cases ht : t' = t
  · subst ht
    by_cases hlt : t' < w.tasks.size
    · rw [task_setTask hlt]
      exact htask
    · exact h.of_tasks (Array.setIfInBounds_eq_of_size_le (Nat.le_of_not_lt hlt)) t'
  · rw [task_setTask_of_ne ht]
    exact h t'

theorem Idle.step (h : w.Idle) (m : Machine) : (m.step s w).world.Idle := by
  obtain ⟨ts, htasks, hafter⟩ := m.exists_tasksAfter s w
  cases hafter with
  | same => exact h.of_tasks htasks
  | @claimed t hdone =>
      exact (h.setTask { w.task t with waited := true, outcome := none } (h t)
        t).of_tasks htasks
  | scheduled label hcall =>
      intro t
      rw [task, htasks, Array.getD_eq_getD_getElem?, Array.getElem?_push]
      split
      · exact fun _ _ => rfl
      · rw [← Array.getD_eq_getD_getElem?]
        exact h t

theorem Idle.resume (h : w.Idle) (fuel : Nat) (m : Machine) : (m.resume s fuel w).world.Idle := by
  induction fuel generalizing w m with
  | zero => exact h
  | succ fuel ih =>
      have hstep := h.step (s := s) m
      rw [Machine.resume]
      rcases hreply : m.step s w with ⟨st, w₁, m₁⟩
      rw [hreply] at hstep
      cases st with
      | next => exact ih hstep m₁
      | _ => exact hstep

theorem Idle.discard (h : w.Idle) (m : Machine) : (w.discard m).Idle :=
  h.of_tasks (tasks_releaseAll w m.locks)

theorem Idle.advance (h : w.Idle) (fuel : Nat) (t : TaskRef) : (w.advance s fuel t).Idle := by
  cases hmachine : (w.task t).machine with
  | none =>
      rw [advance_of_machine_none hmachine]
      exact h
  | some m =>
      have hdone := h t m hmachine
      have hresume : (m.resume s fuel (w.setTask t { w.task t with machine := none })).world.Idle :=
        Idle.resume (h.setTask { w.task t with machine := none }
          (fun k hk => nomatch hk) t) fuel m
      rw [advance_eq hmachine]
      rcases hcarried : m.resume s fuel (w.setTask t { w.task t with machine := none }) with
        ⟨p, w₁, m₁⟩
      rw [hcarried] at hresume
      cases p with
      | suspended =>
          exact Idle.setTask hresume { w.task t with machine := some m₁ } (fun k hk => hdone) t
      | finished =>
          exact Idle.setTask hresume ((w.task t).finish _) (fun k hk => nomatch hk) t
      | crashed message =>
          exact Idle.setTask (hresume.discard m₁) ((w.task t).finish _)
            (fun k hk => nomatch hk) t

end World

namespace System

variable {s : Setting} {σ σ' : System} {w : World} {ms : List Machine} {m : Machine}
  {Begun : Machine → Prop} {Given : Value → Prop}

theorem Happens.idle (hmove : Happens s Begun Given σ σ') (h : σ.world.Idle) : σ'.world.Idle := by
  cases hmove with
  | start => exact h
  | step before m after hstep => exact h.step m
  | crash before m after hstep => exact (h.step m).discard _
  | drop before m after => exact h.discard m
  | advance t => exact h.advance 1 t
  | @abandon w ms t =>
      have habandoned : ∀ k, ((w.task t).abandoned t).machine = some k →
          ((w.task t).abandoned t).done = false := by
        intro k hk
        rw [Task.machine_abandoned] at hk
        contradiction
      cases hmachine : (w.task t).machine with
      | none =>
          rw [World.abandon_of_machine_none hmachine]
          exact h.setTask _ habandoned t
      | some m =>
          rw [World.abandon_of_machine hmachine]
          exact (h.discard m).setTask _ habandoned t
  | give name hgiven => exact h.of_tasks rfl
  | elsewhere locks pool output => exact h.of_tasks rfl

theorem Runs.idle (hruns : Runs s Begun Given σ σ') (h : σ.world.Idle) : σ'.world.Idle := by
  induction hruns with
  | refl => exact h
  | tail _ hmove ih => exact hmove.idle ih

/-- A task is advanced to its next checkpoint. -/
theorem runs_advance (h : w.Idle) (fuel : Nat) (t : TaskRef) (ms : List Machine) :
    Runs s Begun Given ⟨w, ms⟩ ⟨w.advance s (fuel + 1) t, ms⟩ := by
  induction fuel generalizing w with
  | zero => exact .single (.advance t)
  | succ fuel ih =>
      rcases World.advance_succ (s := s) h (fuel + 1) t with heq | heq
      · rw [heq]
        exact .single (.advance t)
      · rw [heq]
        exact .head (.advance t) (ih (h.advance 1 t))

theorem runs_pass (h : w.Idle) (fuel : Nat) (ms : List Machine) :
    Runs s Begun Given ⟨w, ms⟩ ⟨w.pass s (fuel + 1), ms⟩ := by
  have hall : ∀ ts : List TaskRef, ∀ w : World, w.Idle →
      Runs s Begun Given ⟨w, ms⟩ ⟨w.advanceAll s (fuel + 1) ts, ms⟩ := by
    intro ts
    induction ts with
    | nil => exact fun w _ => .refl
    | cons t ts ih =>
        intro w hw
        exact (runs_advance hw fuel t ms).trans (ih _ (hw.advance (fuel + 1) t))
  unfold World.pass
  split
  · exact .refl
  · exact (hall _ w h).tail (.elsewhere _ _ _)

/-- A machine in the foreground is carried to its next checkpoint. -/
theorem runs_resume {fuel : Nat} {c : Carried} (hcarried : m.resume s fuel w = c)
    (hcrash : ∀ message, c.progress ≠ .crashed message) (before after : List Machine) :
    Runs s Begun Given ⟨w, before ++ m :: after⟩ ⟨c.world, before ++ c.machine :: after⟩ := by
  induction fuel generalizing w m with
  | zero =>
      subst hcarried
      exact .refl
  | succ fuel ih =>
      have hstep : (∀ message, (m.step s w).step ≠ .crash message) →
          Runs s Begun Given ⟨w, before ++ m :: after⟩
            ⟨(m.step s w).world, before ++ (m.step s w).machine :: after⟩ :=
        fun hcrash => .single (.step before m after hcrash)
      rw [Machine.resume] at hcarried
      rcases hreply : m.step s w with ⟨st, w₁, m₁⟩
      rw [hreply] at hcarried hstep
      cases st with
      | next => exact (hstep (by simp)).trans (ih hcarried)
      | crash message =>
          subst hcarried
          exact absurd rfl (hcrash message)
      | _ =>
          subst hcarried
          exact hstep (by simp)

/-- The system that a machine in the foreground leaves behind. Where the host broke down, what is
left of the machine is dropped. -/
def leftBy (before after : List Machine) : Carried → System
  | ⟨.crashed _, w, m⟩ => ⟨w.discard m, before ++ after⟩
  | ⟨_, w, m⟩ => ⟨w, before ++ m :: after⟩

/-- Running a machine in the foreground, with turns of the pool in between. -/
theorem runs_run (h : w.Idle) (fuel : Nat) (m : Machine) (before after : List Machine) :
    Runs s Begun Given ⟨w, before ++ m :: after⟩ (leftBy before after (m.run s fuel w)) := by
  induction fuel generalizing w m with
  | zero => exact .refl
  | succ fuel ih =>
      rw [Machine.run]
      set w₀ := if fuel % Machine.share = 0 then w.pass s Machine.share else w with hw₀
      have hpass : Runs s Begun Given ⟨w, before ++ m :: after⟩ ⟨w₀, before ++ m :: after⟩ := by
        rw [hw₀]
        split
        · exact runs_pass h _ _
        · exact .refl
      have hidle := (hpass.idle h).step (s := s) m
      have hstep : (∀ message, (m.step s w₀).step ≠ .crash message) →
          Runs s Begun Given ⟨w₀, before ++ m :: after⟩
            ⟨(m.step s w₀).world, before ++ (m.step s w₀).machine :: after⟩ :=
        fun hcrash => .single (.step before m after hcrash)
      have hbreak : ∀ message, (m.step s w₀).step = .crash message →
          Runs s Begun Given ⟨w₀, before ++ m :: after⟩
            ⟨(m.step s w₀).world.discard (m.step s w₀).machine, before ++ after⟩ :=
        fun message hcrash => .single (.crash before m after hcrash)
      refine hpass.trans ?_
      rcases hreply : m.step s w₀ with ⟨st, w₁, m₁⟩
      rw [hreply] at hidle hstep hbreak
      cases st with
      | next => exact (hstep (by simp)).trans (ih hidle m₁)
      | pause => exact (hstep (by simp)).trans (ih hidle m₁)
      | blocked =>
          have hturn : Runs s Begun Given ⟨w₁, before ++ m₁ :: after⟩
              ⟨w₁.pass s Machine.share, before ++ m₁ :: after⟩ := runs_pass hidle _ _
          exact (hstep (by simp)).trans (hturn.trans (ih (hturn.idle hidle) m₁))
      | done => exact hstep (by simp)
      | crash message => exact hbreak message rfl

end System

end Statute
