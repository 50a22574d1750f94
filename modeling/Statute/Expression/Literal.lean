import Statute.Decimal.Reading
import Statute.Decimal.Shortest
import Statute.Value.Basic

/-!
# Literals

The values that an expression can write out: the empty value, truth values, integers, numbers and
strings. A number literal begins with a digit; with a point in it it is a number, and otherwise an
integer, which has to fit 64 bits.
-/

namespace Statute

def minInt : Int := -9223372036854775808

def maxInt : Int := 9223372036854775807

/-- The 64-bit integer equal to a mathematical one, if there is one. -/
def int64? (n : Int) : Option Int64 :=
  if minInt ≤ n ∧ n ≤ maxInt then some (Int64.ofInt n) else none

/-- A value written out in an expression. -/
inductive Literal where
  | empty
  | bool (b : Bool)
  | int (i : Int64)
  | number (x : Float)
  | text (s : String)
deriving Inhabited

/-- Why a number literal is no number. -/
inductive NumberFault where
  | invalid
  | outOfRange
deriving DecidableEq, Repr

namespace Literal

/-- The value that a literal writes. -/
def toValue : Literal → Value
  | empty => .empty
  | bool b => .bool b
  | int i => .int i
  | number x => .number x
  | text s => .text s

/-- A literal in messages: a string between quotes, anything else as it prints. -/
def display : Literal → String
  | empty => "empty"
  | bool b => if b then "true" else "false"
  | int i => toString i.toInt
  | number x => numberText x
  | text s => "\"" ++ s ++ "\""

/-- The integer written by digits, read from the left: the first character that is no digit, or the
first digit that leaves the range, decides the fault. -/
def readInt : Int → List Char → Except NumberFault Int
  | n, [] => .ok n
  | n, c :: cs =>
      if !c.isDigit then .error .invalid
      else
        let next := 10 * n + (c.toNat - '0'.toNat : Nat)
        if maxInt < next then .error .outOfRange else readInt next cs

/-- The number or integer that a raw token writes. -/
def readNumber (raw : String) : Except NumberFault Literal :=
  if raw.toList.contains '.' then
    match readNumber? raw with
    | some x => .ok (.number x)
    | none => .error .invalid
  else (readInt 0 raw.toList).map fun n => .int (Int64.ofInt n)

end Literal

end Statute
