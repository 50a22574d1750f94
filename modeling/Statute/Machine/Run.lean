import Statute.Machine.Step

/-!
# Running machines

A machine can be resumed, which carries it to its next checkpoint, or run, which carries it to its
end. Running lets the tasks of the pool have a turn whenever the machine waits for another one, and
from time to time in between.

All of this is bounded by fuel, the number of steps that may be taken.
-/

namespace Statute

/-- How far a machine was carried. -/
inductive Progress where
  /-- The machine has reached a checkpoint, or waits, or has used up its fuel. -/
  | suspended
  | finished
  /-- The host broke down. -/
  | crashed (message : Option String)
deriving DecidableEq, Repr, Inhabited

/-- How far a machine was carried, and what that left behind. -/
structure Carried where
  progress : Progress
  world : World
  machine : Machine
deriving Inhabited

namespace Machine

/-- Carries a machine to its next checkpoint. -/
def resume (s : Setting) : Nat → World → Machine → Carried
  | 0, w, m => ⟨.suspended, w, m⟩
  | fuel + 1, w, m =>
      match m.step s w with
      | ⟨.next, w, m⟩ => resume s fuel w m
      | ⟨.pause, w, m⟩ => ⟨.suspended, w, m⟩
      | ⟨.blocked, w, m⟩ => ⟨.suspended, w, m⟩
      | ⟨.done, w, m⟩ => ⟨.finished, w, m⟩
      | ⟨.crash message, w, m⟩ => ⟨.crashed message, w, m⟩

end Machine

namespace World

/-- Carries a task to its next checkpoint. Its machine is taken out of it for as long as it is at
work. A task that is done stays as it is; one whose machine ends or breaks down is done from then
on. -/
def advance (s : Setting) (fuel : Nat) (w : World) (t : TaskRef) : World :=
  let task := w.task t
  match task.machine with
  | none => w
  | some m =>
      match m.resume s fuel (w.setTask t { task with machine := none }) with
      | ⟨.suspended, w, m⟩ => w.setTask t { task with machine := some m }
      | ⟨.finished, w, m⟩ => w.setTask t (task.finish m.outcome)
      | ⟨.crashed message, w, m⟩ =>
          (w.discard m).setTask t (task.finish (task.breakdown s.config.debug message))

/-- Carries several tasks to their next checkpoints, one after the other. -/
def advanceAll (s : Setting) (fuel : Nat) (w : World) : List TaskRef → World
  | [] => w
  | t :: ts => (w.advance s fuel t).advanceAll s fuel ts

/-- Every worker of the pool advances its tasks once. -/
def pass (s : Setting) (fuel : Nat) (w : World) : World :=
  match w.pool.tasks with
  | [] => w
  | ts =>
      let w := w.advanceAll s fuel ts
      { w with pool := w.pool.sweep fun t => (w.task t).done }

/-- Lets the pool work until all its tasks are done, for at most so many passes. -/
def passes (s : Setting) (fuel : Nat) : Nat → World → World
  | 0, w => w
  | n + 1, w => if w.pool.tasks.isEmpty then w else passes s fuel n (w.pass s fuel)

end World

namespace Machine

/-- How many steps a machine runs before the tasks of the pool get a turn. -/
def share : Nat := 1024

/-- Carries a machine to its end. -/
def run (s : Setting) : Nat → World → Machine → Carried
  | 0, w, m => ⟨.suspended, w, m⟩
  | fuel + 1, w, m =>
      let w := if fuel % share = 0 then w.pass s share else w
      match m.step s w with
      | ⟨.next, w, m⟩ => run s fuel w m
      | ⟨.pause, w, m⟩ => run s fuel w m
      | ⟨.blocked, w, m⟩ => run s fuel (w.pass s share) m
      | ⟨.done, w, m⟩ => ⟨.finished, w, m⟩
      | ⟨.crash message, w, m⟩ => ⟨.crashed message, w, m⟩

end Machine

end Statute
