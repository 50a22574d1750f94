import Statute.Machine.Run

/-!
# Closing the pool

Whoever closes the pool marks it as closed and takes its workers away. Each worker comes to the end
of what it is doing, which is to carry one task to its next checkpoint; then the tasks that are not
done are given up.

A call that schedules looks at the pool once: if it is closed the call is refused. A call that has
found the pool open goes on to choose a worker, even if the pool is closed in the meantime. So a
task that was stopped between two checkpoints, right before the operator that schedules, may have
looked already. Then its call goes through while its worker is waited for, and the pool takes on
another worker for it, which nobody takes away.
-/

namespace Statute

/-- A call that has found the pool open and has not chosen a worker yet. -/
structure LateCall where
  caller : TaskRef
  label : String
  machine : Machine
  /-- How the machine of the caller goes on when it has the task. -/
  resumed : TaskRef → Machine

namespace Machine

/-- The call that the next step of the machine of a task schedules. -/
def lateCall? (h : Heap) (caller : TaskRef) (m : Machine) : Option LateCall :=
  match m.signal, m.frames with
  | .run, .eval (.op .background :: rest) stack site :: fs =>
      match Item.scheduleEffect stack with
      | .schedule callee args below =>
          some ⟨caller, taskLabel h callee, .ofCall m.scopes.current callee args,
            fun t => { m with frames := .eval rest (.value (.task t) :: below) site :: fs }⟩
      | _ => none
  | _, _ => none

end Machine

namespace World

def lateCalls (w : World) : List LateCall :=
  w.pool.workers.filterMap fun k =>
    k.tasks.findSome? fun t => (w.task t).machine.bind (Machine.lateCall? w.heap t)

/-- Makes the tasks of calls. -/
def addTasks (w : World) : List LateCall → World × List TaskRef
  | [] => (w, [])
  | c :: calls =>
      let (w, t) := w.addTask c.label c.machine
      let (w, ts) := w.addTasks calls
      (w, t :: ts)

/-- A caller gets its task and goes on to its next checkpoint. -/
def answer (s : Setting) (w : World) (c : LateCall) (t : TaskRef) : World :=
  let w := w.setTask c.caller { w.task c.caller with machine := some (c.resumed t) }
  w.advance s Machine.share c.caller

def answerAll (s : Setting) (w : World) : List LateCall → List TaskRef → World
  | c :: calls, t :: ts => (w.answer s c t).answerAll s calls ts
  | _, _ => w

/-- Closes the pool while calls are under way; a second time nothing happens. -/
def close (s : Setting) (w : World) : World :=
  if w.pool.closed then w
  else
    let calls := w.lateCalls
    let (w, late) := w.addTasks calls
    let taken := w.pool.tasks
    -- The late calls choose among the workers that there are now, which are none at first.
    let w := { w with pool := late.foldl Pool.assign w.pool.close }
    let w := w.answerAll s calls late
    w.abandonAll (taken.filter fun t => !(w.task t).done)

end World

end Statute
