import Statute.Registry
import Statute.Value.Text

/-!
# Throwing and catching

Built-in error classes can be thrown, and so can the objects of every class that descends from one.
A handler names a class and catches the errors of that class and of the classes below it.
-/

namespace Statute

namespace Heap

def messageOf? (h : Heap) (r : ObjectRef) : Option String :=
  (h.field? r "message").map fun b => h.text (h.box b)

def notThrowable (h : Heap) (v : Value) : Failure :=
  .new .notThrowable
    (h.text v ++ " cannot be thrown; only error classes and their instances can")

/-- The failure that a thrown value becomes, or the failure of a value that cannot be thrown. -/
def thrown (h : Heap) (v : Value) : Except Failure Failure :=
  match v with
  | .classDef c =>
      match c.own.builtin with
      | some k => .ok (.new k k.defaultMessage)
      | none => .error (h.notThrowable v)
  | .object r =>
      match (h.object r).cls.errorRoot with
      | some k =>
          .ok { Failure.new k ((h.messageOf? r).getD k.defaultMessage) with
            className := (h.object r).cls.name
            payload := some r }
      | none => .error (h.notThrowable v)
  | _ => .error (h.notThrowable v)

/-- Whether a handler for the given class deals with a failure. -/
def catches (h : Heap) (handler : String) (f : Failure) : Bool :=
  handler = f.className || handler = ErrorKind.general.className ||
    ErrorKind.ofClassName? handler = some f.kind ||
    match f.payload with
    | some r => (h.object r).cls.isA handler
    | none => false

/-- What a handler gets to see: the object that was thrown, or a fresh one with the message. Where
the registry has no class for the error, it is the bare message. -/
def exception (h : Heap) (registry : Registry) (f : Failure) : Heap × Value :=
  match f.payload with
  | some r => (h, .object r)
  | none =>
      match registry.errorClass? f with
      | some c =>
          let (h, r) := h.newError c f.message
          (h, .object r)
      | none => (h, .text f.message)

end Heap

end Statute
