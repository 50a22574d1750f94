import Statute.Machine.Frame
import Statute.Setting
import Statute.Text.Quoted
import Statute.Value.Text

/-!
# Evaluating one item

What one item of a postfix form does to the operands. Evaluation only reads the heap; whatever goes
beyond the operands is handed on as an effect: calling, scheduling a call and waiting for a task.
-/

namespace Statute

/-- What becomes of the operands. -/
inductive Effect where
  /-- Evaluation goes on with these operands. -/
  | next (stack : List Operand)
  /-- A call has to be carried out first; its result comes on top. -/
  | call (callee : Value) (args : List Value) (stack : List Operand)
  /-- A call has to be scheduled; its task comes on top. -/
  | schedule (callee : Value) (args : List Value) (stack : List Operand)
  /-- A task has to end first; its outcome comes on top. -/
  | await (task : TaskRef) (stack : List Operand)
  | fail (f : Failure)
  /-- The host broke down. -/
  | crash (message : Option String)
deriving Inhabited

namespace Operand

/-- The top of the operands, as shown in messages. -/
def displayTop : List Operand → String
  | [] => "None"
  | .mark :: _ => "Some(ArgsMark)"
  | .attr name :: _ => "Some(Attr(" ++ Text.quote name ++ "))"
  | .value _ :: _ => "Some(Value)"

/-- Takes a value off the operands. -/
def pop : List Operand → Except Failure (Value × List Operand)
  | .value v :: stack => .ok (v, stack)
  | stack =>
      .error (.invalidExpression
        ("expected a value on the operand stack, found " ++ displayTop stack))

/-- Takes the arguments back to the mark off the operands; `later` are the arguments taken so far,
and all of them lose their boxes. -/
def popArgs (h : Heap) (later : List Value) :
    List Operand → Except Failure (List Value × List Operand)
  | .value v :: stack => popArgs h (h.unbox v :: later) stack
  | .mark :: stack => .ok (later, stack)
  | stack => .error (.invalidExpression ("malformed argument list near " ++ displayTop stack))

end Operand

namespace Effect

def ofExcept : Except Failure Effect → Effect
  | .ok e => e
  | .error f => .fail f

def push (stack : List Operand) (v : Value) : Effect :=
  .next (.value v :: stack)

/-- The answer of an extension on top of the operands. -/
def ofAnswer (stack : List Operand) : HostAnswer → Effect
  | .value v => push stack v
  | .failure f => .fail f
  | .crash message => .crash message

end Effect

namespace Heap

/-- The value of a field or method of a value. -/
def memberBy (d : String → String → Nat) (h : Heap) (v : Value) (name : String) :
    Except Failure Value :=
  match h.unbox v with
  | .object r =>
      match h.field? r name, h.method? r name with
      | some b, _ => .ok (.field b)
      | none, some p => .ok (.method r p)
      | none, none =>
          .error (.fieldNotDefined name ((h.object r).cls.name ++ " instance")
            (Text.closestBy d name (h.memberNames r)))
  | .record r =>
      let record := h.record r
      match record.fields.get? name with
      | some w => .ok w
      | none =>
          .error (.fieldNotDefined name (record.kind ++ " '" ++ record.name ++ "'")
            (Text.closestBy d name (Text.sorted record.fields.names)))
  | w => .error (.invalidType ("cannot read field '" ++ name ++ "' of " ++ w.typeName))

def member (h : Heap) (v : Value) (name : String) : Except Failure Value :=
  h.memberBy Text.distance v name

end Heap

namespace Item

/-- A call of a value: extensions answer at once, everything else is handed on. -/
def callEffect (s : Setting) (h : Heap) (callee : Value) (args : List Value) (deferred : Bool)
    (stack : List Operand) : Effect :=
  if !callee.isCallable then
    .fail (.invalidType (callee.typeName ++ " '" ++ h.text callee ++ "' is not callable"))
  else if deferred then .push stack (.deferred callee args)
  else match callee with
    | .extension e => .ofAnswer stack (e.checkedCall s.host h args)
    | _ => .call callee args stack

/-- Waiting for the task on top of the operands. -/
def awaitEffect (h : Heap) : List Operand → Effect
  | .value v :: stack =>
      match h.unbox v with
      | .task t => .await t stack
      | w => .fail (.invalidType ("cannot wait for " ++ w.typeName))
  | _ => .fail (.invalidExpression "'wait' without an operand")

/-- Scheduling the deferred call on top of the operands. -/
def scheduleEffect (stack : List Operand) : Effect :=
  .ofExcept do
    let (v, stack) ← Operand.pop stack
    match v with
    | .deferred callee given => return .schedule callee given stack
    | _ => throw (.invalidType "'in background' can only schedule a call")

/-- Accessing the field named on top of the operands. -/
def dotEffect (h : Heap) : List Operand → Effect
  | .attr name :: stack =>
      .ofExcept do
        let (v, stack) ← Operand.pop stack
        let w ← h.member v name
        return .push stack w
  | _ => .fail (.invalidExpression "'.' without a field name")

/-- What an operator does to the operands. -/
def operatorEffect (h : Heap) (o : Operator) (stack : List Operand) : Effect :=
  match o with
  | .dot => dotEffect h stack
  | .background => scheduleEffect stack
  | .wait => awaitEffect h stack
  | _ =>
      .ofExcept do
        let (right, stack) ← Operand.pop stack
        if o.isUnary then
          return .push stack (← h.unary o right)
        else
          let (left, stack) ← Operand.pop stack
          return .push stack (← h.binary o left right)

/-- What an item does to the operands, in a chain of scopes. A bare name of an extension without
arguments calls it. -/
def effect (s : Setting) (h : Heap) (env : Env) (stack : List Operand) : Item → Effect
  | .push v => .push stack v
  | .load name =>
      match s.resolve h env name with
      | .error f => .fail f
      | .ok (.extension e) =>
          if e.arity.autoInvoke then .ofAnswer stack (e.call s.host h [])
          else .push stack (.extension e)
      | .ok v => .push stack v
  | .attr name => .next (.attr name :: stack)
  | .args => .next (.mark :: stack)
  | .call name deferred =>
      .ofExcept do
        let (given, stack) ← Operand.popArgs h [] stack
        let callee ← s.resolve h env name
        return callEffect s h callee given deferred stack
  | .invoke deferred =>
      .ofExcept do
        let (given, stack) ← Operand.popArgs h [] stack
        let (callee, stack) ← Operand.pop stack
        return callEffect s h (h.unbox callee) given deferred stack
  | .op o => operatorEffect h o stack

/-- The value that the operands come to when all items have been evaluated. -/
def result (h : Heap) (stack : List Operand) : Except Failure Value := do
  let (v, rest) ← Operand.pop stack
  if rest.isEmpty then return h.unbox v
  else throw (.invalidExpression (toString rest.length ++ " operand(s) left over"))

end Item

end Statute
