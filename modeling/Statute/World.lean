import Statute.Pool
import Statute.Task

/-!
# The world of a run

Everything that computations change: the heap, the tasks, the pool that looks after them, and the
lines printed so far.
-/

namespace Statute

/-- What the computations of a run share. -/
structure World where
  heap : Heap
  tasks : Array Task
  pool : Pool
  output : Array String
deriving Inhabited

namespace World

def globals : Env := [0]

def new (c : Config) : World :=
  ⟨(Heap.empty.newScope "global").1, #[], Pool.new c, #[]⟩

def task (w : World) (t : TaskRef) : Task :=
  w.tasks.getD t default

def setTask (w : World) (t : TaskRef) (task : Task) : World :=
  { w with tasks := w.tasks.setIfInBounds t task }

def print (w : World) (line : String) : World :=
  { w with output := w.output.push line }

def releaseAll (w : World) : List LockRef → World
  | [] => w
  | l :: ls => { w with heap := w.heap.release l }.releaseAll ls

/-- Gives up a machine in the middle of its work: what it held is set free. -/
def discard (w : World) (m : Machine) : World :=
  w.releaseAll m.locks

/-- Adds a task that nobody looks after. -/
def addTask (w : World) (label : String) (m : Machine) : World × TaskRef :=
  let t := w.tasks.size
  ({ w with tasks := w.tasks.push (.new label m) }, t)

/-- Schedules a machine as a task. -/
def schedule (w : World) (label : String) (m : Machine) : Except Failure (World × TaskRef) :=
  if w.pool.closed then
    .error (.new .scheduler "cannot schedule a background task after shutdown")
  else
    let (w, t) := w.addTask label m
    .ok ({ w with pool := w.pool.assign t }, t)

/-- Takes the outcome of a task. -/
def claim (w : World) (t : TaskRef) : Except Failure (World × Outcome) :=
  match (w.task t).claim t with
  | .ok (o, task) => .ok (w.setTask t task, o)
  | .error f => .error f

/-- Gives up a task. If it was not done it ends with a failure. -/
def abandon (w : World) (t : TaskRef) : World :=
  let task := w.task t
  let w := match task.machine with
    | some m => w.discard m
    | none => w
  if task.done then w.setTask t { task with machine := none }
  else w.setTask t (task.finish (.error (task.abandonment t)))

def abandonAll (w : World) : List TaskRef → World
  | [] => w
  | t :: ts => (w.abandon t).abandonAll ts

/-- Closes the pool. Tasks that are not done are given up; a second time nothing happens. -/
def shutdown (w : World) : World :=
  if w.pool.closed then w
  else
    let unfinished := w.pool.tasks.filter fun t => !(w.task t).done
    let w := w.abandonAll unfinished
    { w with pool := w.pool.close }

end World

end Statute
