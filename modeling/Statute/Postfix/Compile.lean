import Statute.Error.Failure
import Statute.Expression.Basic
import Statute.Expression.Shape
import Statute.Postfix.Basic

/-!
# From tokens to postfix form

Operators and open brackets wait on a stack until what they apply to has been written out. An
operator between two operands first releases the waiting operators that bind at least as tightly,
where a waiting power does not give way to a power. Field access binds tightest and is written out
at once.

Both the output and the stack are kept with the latest entry first.
-/

namespace Statute

/-- What waits for its right operand or its closing bracket. -/
inductive Pending where
  | op (o : Operator)
  /-- A bracket around a part of the expression. -/
  | group
  /-- A bracket after a name. -/
  | call (name : String)
  /-- A bracket after a field access. -/
  | invoke
deriving DecidableEq, Repr, Inhabited

namespace Pending

/-- Writes out an operator. Scheduling turns the call just written into its deferred form; a bare
name becomes a call without arguments. -/
def emit (out : List Item) (o : Operator) : Except Fault (List Item) :=
  if o = .background then
    match out with
    | .call name _ :: rest => .ok (.op o :: .call name true :: rest)
    | .invoke _ :: rest => .ok (.op o :: .invoke true :: rest)
    | .load name :: rest => .ok (.op o :: .call name true :: .args :: rest)
    | _ => .error .backgroundOperand
  else .ok (.op o :: out)

/-- Whether a waiting operator is released by the operator `o` that stands between operands. -/
def yieldsTo (top o : Operator) : Bool :=
  if top.isUnary then o.precedence ≤ top.precedence
  else o.precedence < top.precedence ||
    (top.precedence = o.precedence && !o.isRightAssoc)

/-- Releases the waiting operators that yield to `o`. -/
def release (o : Operator) : List Pending → List Item →
    Except Fault (List Pending × List Item)
  | .op top :: ps, out =>
      if yieldsTo top o then do
        let out ← emit out top
        release o ps out
      else .ok (.op top :: ps, out)
  | ps, out => .ok (ps, out)

/-- Releases the operators up to the bracket that a closing bracket belongs to, and closes it. -/
def closeBracket : List Pending → List Item → Except Fault (List Pending × List Item)
  | [], _ => .error .unbalancedClosing
  | .op top :: ps, out => do
      let out ← emit out top
      closeBracket ps out
  | .group :: ps, out => .ok (ps, out)
  | .call name :: ps, out => .ok (ps, .call name false :: out)
  | .invoke :: ps, out => .ok (ps, .invoke false :: out)

/-- Releases the operators of one argument up to the bracket of its call. -/
def endArgument : List Pending → List Item → Except Fault (List Pending × List Item)
  | .op top :: ps, out => do
      let out ← emit out top
      endArgument ps out
  | .call name :: ps, out => .ok (.call name :: ps, out)
  | .invoke :: ps, out => .ok (.invoke :: ps, out)
  | _, _ => .error .strayComma

/-- Releases everything that waits at the end of the expression. -/
def drain : List Pending → List Item → Except Fault (List Item)
  | [], out => .ok out
  | .op top :: ps, out => do
      let out ← emit out top
      drain ps out
  | _, _ => .error .unbalancedOpening

/-- Converts the tokens from the left, given what waits and what has been written. -/
def convertFrom : List Token → List Pending → List Item → Except Fault (List Item)
  | [], ps, out => drain ps out
  | .literal l :: ts, ps, out => convertFrom ts ps (.push l.toValue :: out)
  | .word name :: .opening :: ts, ps, out => convertFrom ts (.call name :: ps) (.args :: out)
  | .word name :: ts, ps, out => convertFrom ts ps (.load name :: out)
  | .dot :: .word field :: .opening :: ts, ps, out =>
      convertFrom ts (.invoke :: ps) (.args :: .op .dot :: .attr field :: out)
  | .dot :: .word field :: ts, ps, out => convertFrom ts ps (.op .dot :: .attr field :: out)
  | .dot :: _, _, _ => .error .fieldNameExpected
  | .opening :: .closing :: _, _, _ => .error .emptyBrackets
  | .opening :: ts, ps, out => convertFrom ts (.group :: ps) out
  | .closing :: ts, ps, out =>
      match closeBracket ps out with
      | .ok (ps, out) => convertFrom ts ps out
      | .error fault => .error fault
  | .comma :: ts, ps, out =>
      match endArgument ps out with
      | .ok (ps, out) => convertFrom ts ps out
      | .error fault => .error fault
  | .binary o :: ts, ps, out =>
      match release o ps out with
      | .ok (ps, out) => convertFrom ts (.op o :: ps) out
      | .error fault => .error fault
  | .unary o :: ts, ps, out => convertFrom ts (.op o :: ps) out

def convert (ts : List Token) : Except Fault (List Item) :=
  (convertFrom ts [] []).map List.reverse

end Pending

namespace Code

/-- The postfix items of a raw token list: classify, check the shape, convert. -/
def itemsOf (raws : List String) : Except Fault (List Item) := do
  let ts ← Token.classify raws
  Token.validate ts
  Pending.convert ts

def failure (location : Location) (fault : Fault) : Failure :=
  (Failure.malformed (fault.message ++ " in expression '" ++ location.text ++ "'")).locate location

end Code

namespace Expression

/-- The compiled form of an expression. -/
def compile (e : Expression) : Except Failure Code :=
  match Code.itemsOf e.tokens with
  | .ok items => .ok ⟨items, e.location⟩
  | .error fault => .error (Code.failure e.location fault)

end Expression

end Statute
