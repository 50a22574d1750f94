import Statute.Machine.Frame
import Statute.Value.Text

/-!
# Tasks

A task is a machine that runs in the background. Its outcome is kept until it is waited for, which
can be done once. A task that is done has no machine any more.
-/

namespace Statute

/-- What a computation of a value comes to. -/
abbrev Outcome := Except Failure Value

/-- A computation in the background. -/
structure Task where
  label : String
  machine : Option Machine
  done : Bool
  waited : Bool
  outcome : Option Outcome
deriving Inhabited

namespace Task

def new (label : String) (m : Machine) : Task :=
  ⟨label, some m, false, false, none⟩

def display (ref : TaskRef) (t : Task) : String :=
  "task '" ++ t.label ++ "' (" ++ taskId ref ++ ")"

def doubleWait (ref : TaskRef) (t : Task) : Failure :=
  .new .doubleWait (t.display ref ++ " was already waited for")

/-- The outcome of a task that was given up. -/
def abandonment (ref : TaskRef) (t : Task) : Failure :=
  .new .scheduler (t.display ref ++ " was abandoned at shutdown")

/-- What the breakdown of the host during a task comes to: nothing, unless breakdowns are to be
shown. -/
def breakdown (debug : Bool) (t : Task) (message : Option String) : Outcome :=
  if debug then
    .error (.new .internal
      ("background task '" ++ t.label ++ "' panicked: " ++ message.getD "unknown panic"))
  else .ok .empty

def finish (t : Task) (o : Outcome) : Task :=
  { t with machine := none, done := true, outcome := some o }

/-- Takes the outcome of a task. Only the first claim gets it; before the end there is none, and
the claim gets the empty value. -/
def claim (ref : TaskRef) (t : Task) : Except Failure (Outcome × Task) :=
  if t.waited then .error (t.doubleWait ref)
  else .ok (t.outcome.getD (.ok .empty), { t with waited := true, outcome := none })

end Task

end Statute
