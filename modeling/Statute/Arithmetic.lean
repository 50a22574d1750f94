import Statute.Error.Failure
import Statute.Expression.Literal
import Statute.Operator
import Statute.Value.Text

/-!
# Operations on values

Arithmetic on integers is exact: a result that does not fit 64 bits is an error, and a division that
does not come out even gives a number. As soon as a number takes part the operation is one on
doubles, whose result has to be finite or undefined. A string on the left of a sum takes up the text
of whatever stands on the right.
-/

namespace Statute

def mismatch (o : Operator) (v w : Value) : Failure :=
  .invalidType ("cannot apply '" ++ o.symbol ++ "' to " ++ v.typeName ++ " and " ++ w.typeName)

def outOfRange (o : Operator) : Failure :=
  .new .overflow ("arithmetic overflow in '" ++ o.symbol ++ "'")

/-- An exact integer result, if it fits. -/
def exactly (o : Operator) (n : Int) : Except Failure Value :=
  match int64? n with
  | some i => .ok (.int i)
  | none => .error (outOfRange o)

/-- A double as a result, unless it is infinite. -/
def finite (o : Operator) (x : Float) : Except Failure Value :=
  if x.isInf then .error (outOfRange o) else .ok (.number x)

/-- Sum, difference and product of integers. -/
def intResult (o : Operator) (a b : Int) : Int :=
  match o with
  | .add => a + b
  | .sub => a - b
  | _ => a * b

/-- Sum, difference and product of doubles. -/
def floatResult (o : Operator) (x y : Float) : Float :=
  match o with
  | .add => x + y
  | .sub => x - y
  | _ => x * y

/-- Sum, difference or product of two numeric values. -/
def combine (o : Operator) (v w : Value) : Except Failure Value :=
  match v, w with
  | .int a, .int b => exactly o (intResult o a.toInt b.toInt)
  | _, _ =>
      match v.toFloat?, w.toFloat? with
      | some x, some y => finite o (floatResult o x y)
      | _, _ => .error (mismatch o v w)

def dividedByZero : Failure :=
  .new .divisionByZero "division by zero"

/-- The quotient of two numeric values; of integers, an integer whenever it comes out even. The
divisor is held against zero as a double, also where it is an integer. -/
def divide (v w : Value) : Except Failure Value :=
  match v.toFloat?, w.toFloat? with
  | some x, some y =>
      if y == 0.0 then .error dividedByZero
      else
        match v, w with
        | .int a, .int b =>
            if a.toInt.tmod b.toInt = 0 then exactly .div (a.toInt.tdiv b.toInt)
            else finite .div (x / y)
        | _, _ => finite .div (x / y)
  | _, _ => .error (mismatch .div v w)

/-- A power of integers with an exponent that is not negative. Exponents beyond 32 bits are out of
range for every base; a base other than zero, one and minus one leaves the range after 64 steps. -/
def intPower (base : Int) (e : Nat) : Except Failure Value :=
  if UInt32.size ≤ e then .error (outOfRange .pow)
  else if base.natAbs ≤ 1 then
    exactly .pow (if e = 0 then 1 else if base = -1 ∧ e % 2 = 0 then 1 else base)
  else if 64 ≤ e then .error (outOfRange .pow)
  else exactly .pow (base.pow e)

/-- The power of two numeric values. -/
def power (v w : Value) : Except Failure Value :=
  let asNumbers :=
    match v.toFloat?, w.toFloat? with
    | some x, some y => finite .pow (Float.pow x y)
    | _, _ => .error (mismatch .pow v w)
  match v, w with
  | .int a, .int b => if 0 ≤ b.toInt then intPower a.toInt b.toInt.toNat else asNumbers
  | _, _ => asNumbers

/-- What a comparison says about two things that are ordered. -/
def holds (o : Operator) (ord : Ordering) : Bool :=
  match o with
  | .gt => ord == .gt
  | .lt => ord == .lt
  | .ge => ord != .lt
  | _ => ord != .gt

/-- How two doubles are ordered; an undefined one is not ordered at all. -/
def compareFloats (x y : Float) : Option Ordering :=
  if x < y then some .lt else if x == y then some .eq else if y < x then some .gt else none

/-- A comparison of two numeric values or two strings. -/
def compare (o : Operator) (v w : Value) : Except Failure Value :=
  match v, w with
  | .int a, .int b => .ok (.bool (holds o (Ord.compare a.toInt b.toInt)))
  | .text s, .text t =>
      .ok (.bool (holds o (if s < t then .lt else if s = t then .eq else .gt)))
  | _, _ =>
      match v.toFloat?, w.toFloat? with
      | some x, some y =>
          match compareFloats x y with
          | some ord => .ok (.bool (holds o ord))
          | none => .ok (.bool false)
      | _, _ => .error (mismatch o v w)

namespace Heap

/-- A sum: strings take up text, lists are joined, everything else is added. -/
def add (h : Heap) (v w : Value) : Except Failure Value :=
  match v, w with
  | .text s, _ => .ok (.text (s ++ h.text w))
  | .list as, .list bs => .ok (.list (as ++ bs))
  | _, _ => combine .add v w

/-- An operator between two values. -/
def binary (h : Heap) (o : Operator) (left right : Value) : Except Failure Value :=
  let v := h.unbox left
  let w := h.unbox right
  match o with
  | .add => h.add v w
  | .sub | .mul => combine o v w
  | .div => divide v w
  | .pow => power v w
  | .eq => .ok (.bool (h.equal v w))
  | .ne => .ok (.bool (!h.equal v w))
  | .gt | .lt | .ge | .le => compare o v w
  | .and =>
      match v, w with
      | .bool a, .bool b => .ok (.bool (a && b))
      | _, _ => .error (mismatch o v w)
  | .or =>
      match v, w with
      | .bool a, .bool b => .ok (.bool (a || b))
      | _, _ => .error (mismatch o v w)
  | _ => .error (.new .internal ("'" ++ o.symbol ++ "' is not a binary operator"))

/-- An operator before a value. -/
def unary (h : Heap) (o : Operator) (operand : Value) : Except Failure Value :=
  let v := h.unbox operand
  match o, v with
  | .not, .bool b => .ok (.bool (!b))
  | .pos, .int i => .ok (.int i)
  | .pos, .number x => .ok (.number x)
  | .neg, .int i => exactly .neg (-i.toInt)
  | .neg, .number x => .ok (.number (-x))
  | _, _ => .error (.invalidType ("cannot apply '" ++ o.symbol ++ "' to " ++ v.typeName))

end Heap

end Statute
