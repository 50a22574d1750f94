import Statute.Postfix.Basic
import Statute.Scope

/-!
# Machines

A machine is one computation that can be carried out step by step. What is still to be done is a
stack of frames, one for each statement, expression and call that has begun and has not ended. A
signal says how the frame on top goes on: it simply runs, it receives the value of what was above
it, or it is being left early.

Some frames own something for as long as they are there: a scope, a level of call depth or a lock.
Which of them do so can be read off the frame, so whoever takes a frame away can give it back.
-/

namespace Statute

/-- What lies on the stack of an expression that is being evaluated. -/
inductive Operand where
  | value (v : Value)
  /-- The name of the field that is about to be accessed. -/
  | attr (name : String)
  /-- The mark before the arguments of a call. -/
  | mark
deriving Inhabited

/-- What a statement does with the value of its expression. -/
inductive Action where
  | declare (name : String)
  | assign (target : Target)
  | print
  | raise
  | returnWith
  | discard
deriving Inhabited

/-- A call of a procedure, with the arguments that are known so far. -/
structure Call where
  procedure : Procedure
  /-- The object that a method was taken from. -/
  receiver : Option ObjectRef
  args : List Value
  /-- The expression that the call was written in. -/
  site : Option Location
deriving Inhabited

/-- Something that has begun and has not ended. -/
inductive Frame where
  /-- Statements that remain to be run. `own` tells whether they have a scope of their own, and
  `begun` whether a statement was begun since the last checkpoint. -/
  | body (rest : Body) (own begun : Bool)
  /-- A statement that waits for the value of its expression. -/
  | act (action : Action) (site : Location)
  /-- A branch that waits for its test. -/
  | branch (site : Location) (body : Body) (rest : List Branch) (otherwise : Option Body)
  /-- A counted loop that waits for its lower bound. -/
  | lower (var : Option String) (site : Location) (upper : Expression) (body : Body)
  /-- A counted loop that waits for its upper bound. -/
  | upper (var : Option String) (next : Int64) (site : Location) (body : Body)
  /-- A counted loop before its next turn; without one it is at its end. -/
  | count (var : Option String) (next : Option Int64) (last : Int64) (body : Body)
  /-- A conditional loop that waits for its test. -/
  | test (test : Expression) (body : Body)
  /-- A conditional loop before its next test. -/
  | again (test : Expression) (body : Body)
  /-- Handlers for the errors of what is above. -/
  | guard (handlers : List Handler)
  /-- An exclusive block that nobody has been let into yet. -/
  | enter (lock : LockRef) (body : Body)
  /-- A lock that is held for what is above. -/
  | hold (lock : LockRef)
  /-- Items of an expression that remain to be evaluated. -/
  | eval (items : List Item) (stack : List Operand) (site : Location)
  /-- A call of a value that is about to begin. -/
  | call (callee : Value) (args : List Value) (site : Option Location)
  /-- A call that waits for the default of its next parameter. -/
  | supply (call : Call) (rest : List Param)
  /-- A call whose body is above. -/
  | running (call : Call)
  /-- An object that is about to be constructed. -/
  | construct (cls : Class) (args : List Value) (site : Option Location)
  /-- An object that waits for its parent object, which was given `taken` of the arguments. -/
  | adopt (object : ObjectRef) (cls : Class) (args : List Value) (taken : Nat)
      (site : Option Location)
  /-- An object that waits for its constructor to end. -/
  | finish (object : ObjectRef)
deriving Inhabited

namespace Frame

/-- Whether a frame owns the innermost scope. -/
def ownsScope : Frame → Bool
  | body _ own _ => own
  | running _ => true
  | _ => false

/-- Whether a frame counts as a level of call depth. -/
def isCall : Frame → Bool
  | running _ => true
  | _ => false

def lock? : Frame → Option LockRef
  | hold l => some l
  | _ => none

/-- Whether a frame is a loop between two turns. -/
def isLoop : Frame → Bool
  | count _ _ _ _ => true
  | again _ _ => true
  | _ => false

/-- The call that a frame belongs to. -/
def call? : Frame → Option Call
  | supply c _ => some c
  | running c => some c
  | _ => none

end Frame

/-- How a part of a program is left early. -/
inductive Exit where
  | breakOut
  | continueOn
  | returnWith (v : Value)
  | failWith (f : Failure)
deriving Inhabited

/-- How the frame on top goes on. -/
inductive Signal where
  | run
  | value (v : Value)
  | leave (e : Exit)
deriving Inhabited

/-- A computation: what is still to be done, how it goes on, the scopes entered and the depth of
calls. -/
structure Machine where
  frames : List Frame
  signal : Signal
  scopes : ScopeStack
  depth : Nat
deriving Inhabited

/-- How a body ended. -/
inductive Flow where
  | stop
  | breakOut
  | continueOn
  | returnWith (v : Value)
deriving Inhabited

namespace Machine

def start (env : Env) (f : Frame) : Machine :=
  ⟨[f], .run, ⟨env, []⟩, 0⟩

def ofBody (env : Env) (body : Body) : Machine :=
  start env (.body body false false)

def ofCode (env : Env) (c : Code) : Machine :=
  start env (.eval c.items [] c.location)

/-- A machine that calls a value. Missing arguments take their defaults in the given scopes. -/
def ofCall (env : Env) (callee : Value) (args : List Value) : Machine :=
  start env (.call callee args none)

def locks (m : Machine) : List LockRef :=
  m.frames.filterMap Frame.lock?

/-- The value that a machine without frames ended with. -/
def outcome (m : Machine) : Except Failure Value :=
  match m.signal with
  | .value v => .ok v
  | .leave (.returnWith v) => .ok v
  | .leave (.failWith f) => .error f
  | _ => .ok .empty

/-- How the body of a machine without frames ended. -/
def flow (m : Machine) : Except Failure Flow :=
  match m.signal with
  | .leave .breakOut => .ok .breakOut
  | .leave .continueOn => .ok .continueOn
  | .leave (.returnWith v) => .ok (.returnWith v)
  | .leave (.failWith f) => .error f
  | _ => .ok .stop

end Machine

end Statute
