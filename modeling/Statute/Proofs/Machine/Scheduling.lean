import Statute.Proofs.Machine.Pool

/-!
# The tasks during a step

A step leaves the tasks as they are, with two exceptions: it takes the outcome of a task that is
done, or it schedules a call, which becomes a task of its own.
-/

namespace Statute

namespace Machine

/-- The next step of a machine entrusts a call to the pool. -/
def Entrusts (s : Setting) (h : Heap) (m : Machine) (callee : Value) (args : List Value) : Prop :=
  m.signal = .run ∧ ∃ i rest stack below site fs,
    m.frames = .eval (i :: rest) stack site :: fs ∧
      i.effect s h m.scopes.current stack = .schedule callee args below

end Machine

/-- What can become of the tasks in one step of a machine. -/
inductive World.TasksAfter (s : Setting) (w : World) (m : Machine) : Array Task → Prop
  | same : TasksAfter s w m w.tasks
  /-- The outcome of a task that is done was taken. -/
  | claimed {t : TaskRef} (hdone : (w.task t).done = true) :
      TasksAfter s w m
        (w.setTask t { w.task t with waited := true, outcome := none }).tasks
  /-- A call has become a task. -/
  | scheduled {callee : Value} {args : List Value} (label : String)
      (hcall : m.Entrusts s w.heap callee args) :
      TasksAfter s w m (w.tasks.push (.new label (.ofCall m.scopes.current callee args)))

theorem Reply.Quiet.tasksAfter {s : Setting} {w : World} {m : Machine} {r : Reply}
    (h : r.Quiet w) : w.TasksAfter s m r.world.tasks := by
  rw [h.tasks]
  exact .same

namespace Machine

variable {s : Setting} {w : World} {m : Machine}

theorem tasksAfter_claim {t : TaskRef} {w' : World} {o : Outcome} (hdone : (w.task t).done = true)
    (h : w.claim t = .ok (w', o)) : w.TasksAfter s m w'.tasks := by
  unfold World.claim Task.claim at h
  split at h
  · next hclaim =>
      split at hclaim
      · contradiction
      · obtain ⟨rfl, -⟩ := Prod.mk.inj (Except.ok.inj h)
        obtain ⟨-, rfl⟩ := Prod.mk.inj (Except.ok.inj hclaim)
        exact .claimed hdone
  · contradiction

theorem tasksAfter_evalItem (hsignal : m.signal = .run) (items : List Item)
    (stack : List Operand) (site : Location) :
    w.TasksAfter s (m.push (.eval items stack site))
      (m.evalItem s w items stack site).world.tasks := by
  cases items with
  | nil =>
      simp only [evalItem]
      split <;> exact .same
  | cons i rest =>
      simp only [evalItem]
      split
      · exact .same
      · exact .same
      · next callee args below heffect =>
          split
          · next w' t hschedule =>
              unfold World.schedule at hschedule
              split at hschedule
              · contradiction
              · obtain ⟨rfl, -⟩ := Prod.mk.inj (Except.ok.inj hschedule)
                exact .scheduled (m := m.push (.eval (i :: rest) stack site))
                  (taskLabel w.heap callee) ⟨hsignal, i, rest, stack, below, site, _, rfl, heffect⟩
          · exact .same
      · split
        · exact .same
        · split
          · exact .same
          · next hdone =>
              rw [Bool.not_eq_true', Bool.not_eq_false] at hdone
              split
              · next hclaim => exact tasksAfter_claim hdone hclaim
              · next hclaim => exact tasksAfter_claim hdone hclaim
              · exact .same
      · exact .same
      · exact .same

theorem tasksAfter_step (m : Machine) : w.TasksAfter s m (m.step s w).world.tasks := by
  obtain ⟨frames, signal, scopes, depth⟩ := m
  cases frames with
  | nil => exact .same
  | cons f fs =>
      let m : Machine := ⟨fs, .run, scopes, depth⟩
      cases signal with
      | run =>
          change w.TasksAfter s _ (m.resumeFrame s w f).world.tasks
          cases f with
          | eval items stack site => exact tasksAfter_evalItem (m := m) rfl items stack site
          | enter lock body =>
              simp only [resumeFrame]
              split <;> exact .same
          | _ => exact (resumeFrame_quiet (by simp) (by simp)).tasksAfter
      | value v => exact (receive_quiet (m := m) v f).tasksAfter
      | leave e => exact (unwind_quiet (m := m) e f).tasksAfter

theorem exists_tasksAfter (s : Setting) (w : World) (m : Machine) :
    ∃ ts, (m.step s w).world.tasks = ts ∧ w.TasksAfter s m ts :=
  ⟨_, rfl, tasksAfter_step m⟩

end Machine

end Statute
