/-!
# Decimals

A decimal is a natural number of units of a power of ten. The exponent is an integer, so every
finite decimal text has such a form and a text has many: only its positional writing is fixed here.
-/

namespace Statute

/-- The number `units * 10 ^ exponent`. -/
structure Decimal where
  units : Nat
  exponent : Int
deriving DecidableEq, Repr, Inhabited

namespace Decimal

/-- The digits of a natural number in base ten, without leading zeros; zero has one digit. -/
def digits (n : Nat) : List Char :=
  Nat.toDigits 10 n

/-- The digits of `n`, filled up with zeros on the left to at least `width` places. -/
def padded (width n : Nat) : List Char :=
  let ds := digits n
  List.replicate (width - ds.length) '0' ++ ds

/-- The positional writing: no exponent, and a point only when places follow it. -/
def positional (d : Decimal) : String :=
  if 0 ≤ d.exponent then
    String.ofList (digits (d.units * Nat.pow 10 d.exponent.toNat))
  else
    let places := (-d.exponent).toNat
    let scale := Nat.pow 10 places
    String.ofList (digits (d.units / scale) ++ '.' :: padded places (d.units % scale))

end Decimal

end Statute
