import Statute.Arity
import Statute.Class
import Statute.Decimal.Binary

/-!
# Values

The values of the language. Integers are 64-bit and kept apart from numbers, which are doubles.
Objects, records, tasks and boxed fields are shared, so a value holds only their address; classes,
procedures and extensions never change and are held as they are.
-/

namespace Statute

/-- The address of a box that holds the value of a field. -/
abbrev BoxRef := Nat

abbrev RecordRef := Nat

abbrev TaskRef := Nat

/-- The functions of the standard library. -/
inductive Primitive where
  | abs | round | min | max | pi
  | length | size | text | list | item
deriving DecidableEq, Repr, Inhabited

/-- A function that is not written in the language: one of the standard library, or one that the
host provides under its name. -/
structure Extension where
  name : String
  arity : Arity
  primitive : Option Primitive
deriving DecidableEq, Repr, Inhabited

/-- A value of the language. -/
inductive Value where
  | empty
  | bool (b : Bool)
  | int (i : Int64)
  | number (x : Float)
  | text (s : String)
  | list (items : List Value)
  /-- The box of a field, as field access yields it. -/
  | field (box : BoxRef)
  | object (ref : ObjectRef)
  | classDef (c : Class)
  | procedure (p : Procedure)
  /-- A method together with the object it was taken from. -/
  | method (receiver : ObjectRef) (p : Procedure)
  | extension (e : Extension)
  | record (ref : RecordRef)
  | task (ref : TaskRef)
  /-- A call that is to be scheduled instead of being carried out. -/
  | deferred (callee : Value) (args : List Value)
deriving Inhabited

namespace Value

/-- The name of the type of a value in messages. -/
def typeName : Value → String
  | empty => "empty"
  | bool _ => "boolean"
  | int _ => "integer"
  | number _ => "number"
  | text _ => "string"
  | list _ => "list"
  | field _ => "field"
  | object _ => "instance"
  | classDef _ => "class"
  | procedure _ => "procedure"
  | method _ _ => "method"
  | extension _ => "extension"
  | record _ => "record"
  | task _ => "task"
  | deferred _ _ => "deferred call"

/-- The double that a numeric value stands for. -/
def toFloat? : Value → Option Float
  | int i => some (Binary.nearestTo i)
  | number x => some x
  | _ => none

def isCallable : Value → Bool
  | procedure _ | method _ _ | classDef _ | extension _ => true
  | _ => false

end Value

end Statute
