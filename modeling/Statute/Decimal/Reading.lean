import Statute.Decimal.Basic
import Statute.Decimal.Binary

/-!
# Reading decimals

A decimal text has digits, optionally a point, and optionally an exponent; at least one digit
stands on either side of the point. `Decimal.read?` turns it into an exact decimal, and
`Decimal.toFloat` rounds that to the closest double.
-/

namespace Statute

namespace Decimal

/-- The number written by a list of decimal digits. -/
def ofDigits (cs : List Char) : Nat :=
  cs.foldl (fun n c => 10 * n + (c.toNat - '0'.toNat)) 0

/-- A sign, if there is one, and what follows it. -/
def splitSign : List Char → Bool × List Char
  | '-' :: cs => (true, cs)
  | '+' :: cs => (false, cs)
  | cs => (false, cs)

/-- The exponent part of a decimal text: empty, or a mark followed by digits with a sign. -/
def readExponent? : List Char → Option Int
  | [] => some 0
  | c :: cs =>
      if c = 'e' ∨ c = 'E' then
        let (negative, ds) := splitSign cs
        if ds.isEmpty || !ds.all Char.isDigit then none
        else some (if negative then -(ofDigits ds : Int) else ofDigits ds)
      else none

/-- An unsigned decimal text. -/
def read? (cs : List Char) : Option Decimal :=
  let whole := cs.takeWhile Char.isDigit
  let afterWhole := cs.dropWhile Char.isDigit
  let (places, rest) := match afterWhole with
    | '.' :: r => (r.takeWhile Char.isDigit, r.dropWhile Char.isDigit)
    | r => ([], r)
  if whole.isEmpty && places.isEmpty then none
  else (readExponent? rest).map fun e => ⟨ofDigits (whole ++ places), e - places.length⟩

/-- The double closest to a decimal. Decimals far outside the range of doubles are decided by
their size alone. -/
def toFloat (d : Decimal) : Float :=
  let size := (digits d.units).length + d.exponent
  if d.units = 0 ∨ size < -400 then Binary.nearest 0 1
  else if 400 < size then Binary.nearest (Nat.pow 2 1024) 1
  else Binary.nearest (d.units * Nat.pow 10 d.exponent.toNat) (Nat.pow 10 (-d.exponent).toNat)

end Decimal

/-- A double given by its text: a signed decimal, or one of the words for values that are not
finite, in any case of letters. -/
def readNumber? (s : String) : Option Float :=
  let (negative, cs) := Decimal.splitSign s.toList
  let word := String.ofList (cs.map Char.toLower)
  let magnitude :=
    if word = "inf" ∨ word = "infinity" then some (1.0 / 0.0)
    else if word = "nan" then some (0.0 / 0.0)
    else (Decimal.read? cs).map Decimal.toFloat
  magnitude.map fun x => if negative then -x else x

end Statute
