import Statute.Config.Basic
import Statute.Value.Basic

/-!
# The pool of workers

Tasks are spread over workers. A new worker is taken on for each task until there are as many as
allowed; after that the workers take turns. A worker without tasks looks for new ones from time to
time, and when it has been idle for too long it retires. A retired worker accepts no tasks, and is
removed when the next task is assigned.

The pool has a clock of its own, which counts milliseconds.
-/

namespace Statute

/-- A worker and the tasks it looks after. -/
structure Worker where
  id : Nat
  tasks : List TaskRef
  /-- Whether the worker has not retired. -/
  active : Bool
  idleSince : Nat
deriving DecidableEq, Repr, Inhabited

namespace Worker

/-- A worker that has just been taken on. -/
def new (id now : Nat) : Worker := ⟨id, [], true, now⟩

def submit? (w : Worker) (t : TaskRef) : Option Worker :=
  if w.active then some { w with tasks := w.tasks ++ [t] } else none

/-- When an idle worker retires: it looks at the clock at the end of each poll, and has to have
been idle for the given time. -/
def retiresAt (ttl poll : Nat) (w : Worker) : Nat :=
  w.idleSince + poll * ((ttl + poll - 1) / poll)

def atTime (ttl poll now : Nat) (w : Worker) : Worker :=
  if w.tasks.isEmpty && decide (w.retiresAt ttl poll ≤ now) then { w with active := false } else w

end Worker

/-- The workers, whose turn it is, and the clock. -/
structure Pool where
  capacity : Nat
  ttl : Nat
  poll : Nat
  workers : List Worker
  /-- How many tasks were assigned in turn. -/
  turn : Nat
  nextId : Nat
  closed : Bool
  clock : Nat
deriving DecidableEq, Repr, Inhabited

namespace Pool

def new (c : Config) : Pool :=
  ⟨max 1 c.maxWorkers, c.workerIdleTtlMs, max 1 c.workerPollTimeoutMs, [], 0, 0, false, 0⟩

/-- How many workers there are, retired ones included. -/
def size (p : Pool) : Nat :=
  p.workers.length

/-- The pool with idle workers retired that have waited long enough. -/
def settle (p : Pool) : Pool :=
  { p with workers := p.workers.map (Worker.atTime p.ttl p.poll p.clock) }

def purge (p : Pool) : Pool :=
  { p with workers := p.workers.filter (·.active) }

/-- Chooses the worker for the next task: a new one while there is room, and otherwise the one
whose turn it is. The result is its place in the list of workers. -/
def pick (p : Pool) : Pool × Nat :=
  let p := p.purge
  if p.workers.length < p.capacity then
    ({ p with workers := p.workers ++ [Worker.new p.nextId p.clock], nextId := p.nextId + 1 },
      p.workers.length)
  else ({ p with turn := p.turn + 1 }, p.turn % p.workers.length)

/-- Hands a task to the worker at a place, unless that worker has retired. -/
def submit? (p : Pool) (place : Nat) (t : TaskRef) : Option Pool := do
  let w ← p.workers[place]?
  let w ← w.submit? t
  return { p with workers := p.workers.set place w }

/-- Assigns a task to a worker. A freshly picked worker has not retired. -/
def assign (p : Pool) (t : TaskRef) : Pool :=
  let (p, place) := p.settle.pick
  (p.submit? place t).getD p

def tasks (p : Pool) : List TaskRef :=
  p.workers.flatMap (·.tasks)

/-- Removes the tasks that are done; workers that had tasks count as busy until now. -/
def sweep (p : Pool) (isDone : TaskRef → Bool) : Pool :=
  { p with workers := p.workers.map fun w =>
      if w.tasks.isEmpty then w
      else { w with tasks := w.tasks.filter fun t => !isDone t, idleSince := p.clock } }

/-- The pool some milliseconds later. -/
def wait (p : Pool) (ms : Nat) : Pool :=
  let now := p.clock + ms
  settle { p with
    clock := now
    workers := p.workers.map fun w => if w.tasks.isEmpty then w else { w with idleSince := now } }

def close (p : Pool) : Pool :=
  { p with workers := [], closed := true }

end Pool

end Statute
