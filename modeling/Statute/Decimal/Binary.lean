/-!
# Doubles as exact numbers

A finite double of positive sign is `mantissa * 2 ^ exponent`. Both directions between doubles and
exact numbers go through this form: `Binary.ofFloat` reads the bits of a double, and `nearest`
rounds a positive fraction to the closest double, a tie going to the even mantissa.
-/

namespace Statute

/-- The number `mantissa * 2 ^ exponent`, with the mark of a mantissa at the lower end of its
binade: there the next double below is only half as far away as the next one above. -/
structure Binary where
  mantissa : Nat
  exponent : Int
  atEdge : Bool
deriving DecidableEq, Repr, Inhabited

namespace Binary

/-- The magnitude of a double, when it is finite. -/
def ofFloat? (x : Float) : Option Binary :=
  let bits : Nat := x.toBits.toNat
  let field : Nat := bits / Nat.pow 2 52 % Nat.pow 2 11
  let fraction : Nat := bits % Nat.pow 2 52
  if field = 2047 then none
  else if field = 0 then some ⟨fraction, -1074, false⟩
  else some ⟨fraction + Nat.pow 2 52, (field : Int) - 1075, fraction = 0 && 1 < field⟩

/-- Whether the sign of a double is negative, which also holds of negative zero. -/
def isNegative (x : Float) : Bool :=
  Nat.pow 2 63 ≤ x.toBits.toNat

/-- The quotient `num / den` rounded to the closest natural number, a tie to the even one. -/
def roundQuotient (num den : Nat) : Nat :=
  let q := num / den
  let r := num % den
  if 2 * r < den then q
  else if den < 2 * r then q + 1
  else if q % 2 = 0 then q else q + 1

/-- The fraction `num / den` in units of `2 ^ q`, rounded to the closest whole number. -/
def roundAt (num den : Nat) (q : Int) : Nat :=
  if 0 ≤ q then roundQuotient num (den * Nat.pow 2 q.toNat)
  else roundQuotient (num * Nat.pow 2 (-q).toNat) den

/-- The exponent at which `num / den` has a 53-bit mantissa, or the least one a double has. -/
def unitExponent (num den : Nat) : Int :=
  let guess := (num.log2 : Int) - den.log2 - 52
  let short :=
    if 0 ≤ guess then decide (num < den * Nat.pow 2 guess.toNat * Nat.pow 2 52)
    else decide (num * Nat.pow 2 (-guess).toNat < den * Nat.pow 2 52)
  max (if short then guess - 1 else guess) (-1074)

/-- The bits of the double closest to the positive fraction `num / den`. -/
def nearestBits (num den : Nat) : Nat :=
  if num = 0 then 0
  else
    let q := unitExponent num den
    let m := roundAt num den q
    let (m, q) := if m = Nat.pow 2 53 then (Nat.pow 2 52, q + 1) else (m, q)
    if 971 < q then 2047 * Nat.pow 2 52
    else if m < Nat.pow 2 52 then m
    else (q + 1075).toNat * Nat.pow 2 52 + (m - Nat.pow 2 52)

/-- The double closest to the fraction `num / den`; past the largest finite one, infinity. -/
def nearest (num den : Nat) : Float :=
  Float.ofBits (nearestBits num den).toUInt64

/-- The double closest to a 64-bit integer, a tie going to the even mantissa. -/
def nearestTo (i : Int64) : Float :=
  .ofModel (.ofInt64 i)

end Binary

end Statute
