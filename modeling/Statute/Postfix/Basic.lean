import Statute.Operator
import Statute.Text.Quoted
import Statute.Value.Basic

/-!
# Postfix form

A compiled expression is a list of items that work on a stack of operands. Calls are explicit: a
mark is left on the stack before the first argument, and the call takes the arguments back to the
mark. A deferred call leaves a value that stands for the call itself.
-/

namespace Statute

/-- One item of the postfix form. -/
inductive Item where
  /-- A literal. -/
  | push (value : Value)
  /-- The value of a name. -/
  | load (name : String)
  /-- The field name for the field access that follows. -/
  | attr (name : String)
  /-- The mark before the arguments of a call. -/
  | args
  /-- A call of a name with the arguments back to the mark. -/
  | call (name : String) (deferred : Bool)
  /-- A call of the value below the mark. -/
  | invoke (deferred : Bool)
  | op (o : Operator)
deriving Inhabited

/-- A compiled expression: its items, and the place it was written at. -/
structure Code where
  items : List Item
  location : Location
deriving Inhabited

namespace Item

/-- One item in a listing. `literal` shows the values that are not strings. -/
def display (literal : Value → String) : Item → String
  | push (.text s) => Text.quote s
  | push v => literal v
  | load name => name
  | attr name => "." ++ name
  | args => "["
  | call name deferred => name ++ "()" ++ (if deferred then "&" else "")
  | invoke deferred => "]()" ++ (if deferred then "&" else "")
  | op o => o.symbol

def listing (literal : Value → String) (items : List Item) : String :=
  " ".intercalate (items.map (display literal))

end Item

end Statute
