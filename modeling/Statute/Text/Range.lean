/-!
# Sets of characters as sorted ranges

A property of characters is stored as the list of its maximal code point ranges in ascending
order. `covers rs n` walks that list and stops at the first range that begins above `n`, so the
common characters, which come first, are found after a few comparisons.
-/

namespace Statute.Text

/-- Whether `n` lies in one of the ascending ranges, both ends included. -/
def covers : List (Nat × Nat) → Nat → Bool
  | [], _ => false
  | (lo, hi) :: rest, n => if n < lo then false else n ≤ hi || covers rest n

end Statute.Text
