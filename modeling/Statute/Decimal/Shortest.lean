import Statute.Decimal.Basic
import Statute.Decimal.Binary

/-!
# The shortest decimal of a double

Every real number closer to a double than to its neighbours reads back as that double, and so do
the two midpoints when the mantissa is even. `shortest` tries ever finer powers of ten and takes
the first grid that has a point in this interval: of the two grid points around the double the
nearer one, and the upper one if both are equally near.
-/

namespace Statute

namespace Binary

/-- The double and the two ends of its interval in quarters of `2 ^ exponent`: lower end, double,
upper end. -/
def quarters (b : Binary) : Nat × Nat × Nat :=
  (4 * b.mantissa - (if b.atEdge then 1 else 2), 4 * b.mantissa, 4 * b.mantissa + 2)

/-- The point of the grid `10 ^ p` that reads back as the double and is nearest to it, if the grid
has one. -/
def gridPoint? (b : Binary) (p : Int) : Option Nat :=
  let (lower, middle, upper) := b.quarters
  let scale := Nat.pow 2 (b.exponent - 2).toNat * Nat.pow 10 (-p).toNat
  let unit := Nat.pow 2 (2 - b.exponent).toNat * Nat.pow 10 p.toNat
  let inside (n : Nat) : Bool :=
    if b.mantissa % 2 = 0 then lower * scale ≤ n * unit && n * unit ≤ upper * scale
    else lower * scale < n * unit && n * unit < upper * scale
  let below := middle * scale / unit
  let rest := middle * scale % unit
  match inside below, inside (below + 1) with
  | true, true => some (if 2 * rest < unit then below else below + 1)
  | true, false => some below
  | false, true => some (below + 1)
  | false, false => none

/-- The first grid with a point that reads back, from `10 ^ p` on downwards. -/
def shortestFrom (b : Binary) : Nat → Int → Decimal
  | 0, p => ⟨(b.gridPoint? p).getD 0, p⟩
  | fuel + 1, p =>
      match b.gridPoint? p with
      | some n => ⟨n, p⟩
      | none => shortestFrom b fuel (p - 1)

/-- A power of ten that is above the double, by at most two places. -/
def topExponent (b : Binary) : Int :=
  let num := b.mantissa * Nat.pow 2 b.exponent.toNat
  let den := Nat.pow 2 (-b.exponent).toNat
  ((Decimal.digits num).length : Int) - (Decimal.digits den).length + 1

/-- The decimal with the fewest digits that reads back as the double. Seventeen digits always
suffice, so twenty grids below the top are enough. -/
def shortest (b : Binary) : Decimal :=
  if b.mantissa = 0 then ⟨0, 0⟩ else b.shortestFrom 20 b.topExponent

end Binary

/-- The text of a double: its shortest decimal in positional writing, with a sign for every
negative double including zero, and words for the values that are not finite. -/
def numberText (x : Float) : String :=
  match Binary.ofFloat? x with
  | some b => (if Binary.isNegative x then "-" else "") ++ b.shortest.positional
  | none =>
      if x.isNaN then "NaN" else if Binary.isNegative x then "-inf" else "inf"

end Statute
