import Statute.Machine.Frame
import Statute.World

/-!
# Frames of the virtual machine

A frame of the virtual machine refers to its statement by its place in a body, and a phase tells
how far it has come. What a child comes to is handed to its parent in a slot that all frames share,
and what is left early is told by the control, which is empty as long as nothing is left.

While a handler deals with the frame on top, a vacant kind stands in for the kind of the frame. The
handler puts a kind back or pops the frame.
-/

namespace Statute

/-- Whether a machine keeps its thread until it is done, or yields it at every checkpoint. -/
inductive Mode where
  | sync
  | cooperative
deriving DecidableEq, Repr, Inhabited

/-- A statement, by its place in a body. -/
structure StmtRef where
  body : Body
  index : Nat
deriving Inhabited

def StmtRef.stmt? (r : StmtRef) : Option Statement :=
  r.body[r.index]?

/-! ## Phases -/

/-- The statements that evaluate one expression and then act on its value. -/
inductive ValueKind where
  | declare
  | assign
  | print
  | throw
  | returnWith
  | perform
deriving DecidableEq, Repr, Inhabited

inductive ValuePhase where
  | eval
  /-- The value is in the slot. -/
  | apply
deriving DecidableEq, Repr, Inhabited

inductive IfPhase where
  /-- The test of a branch is to be evaluated. -/
  | test (n : Nat)
  /-- The value of the test of a branch is in the slot. -/
  | check (n : Nat)
  | done
deriving DecidableEq, Repr, Inhabited

inductive RepeatPhase where
  | start
  | lower
  | upper (lower : Int64)
  | iterate (next upper : Int64)
  /-- No integer comes after the last turn. -/
  | finished
deriving DecidableEq, Repr, Inhabited

inductive WhilePhase where
  | test
  | check
deriving DecidableEq, Repr, Inhabited

inductive TryPhase where
  | start
  | body
  | handler
deriving DecidableEq, Repr, Inhabited

inductive ExclusivePhase where
  | acquire
  | body
deriving DecidableEq, Repr, Inhabited

inductive CallPhase where
  | bind
  /-- The default of a parameter is to be evaluated, or its value is in the slot. -/
  | default (next : Nat) (pending : Bool)
  | enter
  | running
deriving DecidableEq, Repr, Inhabited

inductive ConstructPhase where
  | start
  /-- The parent object is in the slot. -/
  | parent
  | own
  | finish
deriving DecidableEq, Repr, Inhabited

/-! ## Frames -/

/-- An expression that is being evaluated. -/
structure EvalFrame where
  code : Code
  pc : Nat
  stack : List Operand
  /-- A call was pushed above, whose result comes into the slot. -/
  awaiting : Bool
deriving Inhabited

/-- A call of a value. -/
structure CallFrame where
  callee : Value
  args : List Value
  site : Option Location
  phase : CallPhase
deriving Inhabited

/-- The construction of an object. -/
structure ConstructFrame where
  cls : Class
  args : List Value
  object : Option ObjectRef
  /-- How many leading arguments the parent was given. -/
  consumed : Nat
  site : Option Location
  phase : ConstructPhase
deriving Inhabited

inductive FrameKind where
  /-- Stands in while a handler has the kind. -/
  | vacant
  | body (body : Body) (index : Nat) (checkpoint : Bool)
  | value (kind : ValueKind) (ref : StmtRef) (phase : ValuePhase)
  | choose (ref : StmtRef) (phase : IfPhase)
  | repeatFor (ref : StmtRef) (phase : RepeatPhase)
  | repeatWhile (ref : StmtRef) (phase : WhilePhase)
  | attempt (ref : StmtRef) (phase : TryPhase)
  | exclusive (ref : StmtRef) (lock : LockRef) (phase : ExclusivePhase)
  | eval (frame : EvalFrame)
  | call (frame : CallFrame)
  | construct (frame : ConstructFrame)
deriving Inhabited

structure VmFrame where
  kind : FrameKind
  /-- The innermost scope goes with this frame. -/
  pushedScope : Bool
  /-- This lock is held as long as the frame is there. -/
  lock : Option LockRef
  /-- The frame counts as a level of call depth. -/
  boundary : Bool
deriving Inhabited

def VmFrame.new (kind : FrameKind) : VmFrame :=
  ⟨kind, false, none, false⟩

structure Vm where
  frames : List VmFrame
  control : Option Exit
  slot : Option Value
  scopes : ScopeStack
  mode : Mode
  /-- How many calls are under way. -/
  depth : Nat
deriving Inhabited

namespace Vm

/-- A machine with a single frame, in the given chain of scopes. -/
def start (env : Env) (mode : Mode) (kind : FrameKind) : Vm :=
  ⟨[.new kind], none, none, ⟨env, []⟩, mode, 0⟩

def forBody (body : Body) (mode : Mode) : Vm :=
  start World.globals mode (.body body 0 false)

def forExpression (code : Code) (env : Env) (mode : Mode) : Vm :=
  start env mode (.eval ⟨code, 0, [], false⟩)

def forCall (callee : Value) (args : List Value) (env : Env) (mode : Mode) : Vm :=
  start env mode (.call ⟨callee, args, none, .bind⟩)

/-- How a machine that ran a body has ended. -/
def flow (v : Vm) : Except Failure Flow :=
  match v.control with
  | none => .ok .stop
  | some (.returnWith x) => .ok (.returnWith x)
  | some .breakOut => .ok .breakOut
  | some .continueOn => .ok .continueOn
  | some (.failWith f) => .error f

/-- The value that a machine has come to. -/
def result (v : Vm) : Except Failure Value :=
  match v.control with
  | some (.failWith f) => .error f
  | some (.returnWith x) => .ok x
  | _ => .ok (v.slot.getD .empty)

end Vm

end Statute
