import Statute.Machine.Closing

/-!
# Sessions

A session is a program that has been loaded and can be worked with: its main body or other bodies
are run, expressions are evaluated and names are called, one after the other, on one world.

Whatever is asked for ends with a result or with a failure. A breakdown of the host counts as an
internal failure, unless breakdowns are to be shown as they are.
-/

namespace Statute

/-- How a request to a session ends. -/
inductive Ending (α : Type) where
  | result (a : α)
  | failure (f : Failure)
  /-- The host broke down. -/
  | crash (message : String)
  /-- The fuel did not last. -/
  | unfinished
deriving Inhabited

namespace Ending

variable {α : Type}

def ofExcept : Except Failure α → Ending α
  | .ok a => result a
  | .error f => failure f

/-- The text of a breakdown that left no message. -/
def unknownCrash : String := "unknown panic"

def ofCrash (debug : Bool) (message : Option String) : Ending α :=
  let message := message.getD unknownCrash
  if debug then crash message else failure (.new .internal message)

end Ending

/-- A loaded program. -/
structure Session where
  setting : Setting
  world : World

namespace Session

def fuel : Nat := 1000000000000000

/-- Loads a program. -/
def load (config : Config) (host : Host) (extensions : List Extension) (file : String)
    (source : Source) : Except Failure Session := do
  let w := World.new config
  let (heap, registry) ← Registry.build w.heap file extensions source
  return ⟨⟨registry, config, host⟩, { w with heap := heap }⟩

/-- Carries a machine to its end and reads off the result. -/
def carry {α : Type} (s : Session) (m : Machine) (read : Machine → Except Failure α) :
    Session × Ending α :=
  match m.run s.setting fuel s.world with
  | ⟨.finished, w, m⟩ => ({ s with world := w }, .ofExcept (read m))
  | ⟨.crashed message, w, m⟩ =>
      ({ s with world := w.discard m }, .ofCrash s.setting.config.debug message)
  | ⟨.suspended, w, _⟩ => ({ s with world := w }, .unfinished)

/-- Prepares a body that does not belong to the program: its exclusive blocks get locks. -/
def prepare (s : Session) (body : Body) : Session × Body :=
  let heap := s.world.heap
  let (body, locks) := Body.label heap.locks.size body
  ({ s with world := { s.world with heap := heap.reserveLocks locks } }, body)

def runBody (s : Session) (body : Body) : Session × Ending Flow :=
  s.carry (.ofBody World.globals body) Machine.flow

def runMain (s : Session) : Session × Ending Flow :=
  s.runBody s.setting.registry.main

def execute (s : Session) (body : Body) : Session × Ending Flow :=
  let (s, body) := s.prepare body
  s.runBody body

def evaluateCode (s : Session) (c : Code) : Session × Ending Value :=
  s.carry (.ofCode World.globals c) Machine.outcome

/-- Evaluates the text of an expression in the global scope. -/
def evaluate (s : Session) (text : String) : Session × Ending Value :=
  match (Expression.ofText text).compile with
  | .ok c => s.evaluateCode c
  | .error f => (s, .failure f)

def unknownName (d : String → String → Nat) (s : Session) (name : String) : Failure :=
  .nameNotDefined name (Text.closestBy d name s.setting.registry.names)

/-- Calls a name of the program. -/
def callBy (d : String → String → Nat) (s : Session) (name : String) (args : List Value) :
    Session × Ending Value :=
  match s.setting.registry.lookup? name with
  | none => (s, .failure (s.unknownName d name))
  | some callee => s.carry (.ofCall World.globals callee args) Machine.outcome

def call (s : Session) (name : String) (args : List Value) : Session × Ending Value :=
  s.callBy Text.distance name args

def define (s : Session) (name : String) (v : Value) : Session :=
  { s with world := { s.world with heap := s.world.heap.define 0 name v } }

def globals (s : Session) : Bindings Value :=
  (s.world.heap.scope 0).vars

def output (s : Session) : List String :=
  s.world.output.toList

def clearOutput (s : Session) : Session :=
  { s with world := { s.world with output := #[] } }

def workers (s : Session) : Nat :=
  s.world.pool.size

/-- How often the pool can pass over its tasks within a millisecond. -/
def passesPerMs : Nat := 1000

/-- Lets some milliseconds go by, during which the pool does its work. -/
def sleep (s : Session) (ms : Nat) : Session :=
  let w := s.world.passes s.setting Machine.share (passesPerMs * ms)
  { s with world := { w with pool := w.pool.wait ms } }

def shutdown (s : Session) : Session :=
  { s with world := s.world.close s.setting }

end Session

end Statute
