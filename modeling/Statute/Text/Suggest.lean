import Statute.Text.Order

/-!
# Suggestions for misspelt names

A name comes close to a misspelt one if few single-character edits lead from one to the other, or
if one of them begins with the other. The three closest names are suggested, the closest first and
equally close ones in order.
-/

namespace Statute.Text

/-- The next row of the edit distance table: `row` holds the distances of the prefixes of the other
text to the characters read so far, `left` the distance just computed. -/
def distanceRow (c : Char) : Nat → Nat → List Char → List Nat → List Nat
  | left, diagonal, d :: ds, above :: row =>
      let here := min (min (left + 1) (above + 1)) (if c = d then diagonal else diagonal + 1)
      here :: distanceRow c here above ds row
  | _, _, _, _ => []

/-- One more character of the first text against the whole second text. -/
def distanceStep (ds : List Char) (row : List Nat) (c : Char) : List Nat :=
  match row with
  | [] => []
  | first :: rest => (first + 1) :: distanceRow c (first + 1) first ds rest

/-- The number of single-character insertions, deletions and replacements between two texts. -/
def distance (s t : String) : Nat :=
  let ds := t.toList
  (s.toList.foldl (distanceStep ds) (List.range (ds.length + 1))).getLastD 0

/-- How far a suggestion may be away from `input`: half its length, but at least two edits. -/
def reach (input : String) : Nat :=
  max 2 (input.length / 2)

/-- The candidates other than `input`, each with its distance from it. -/
def scores (d : String → String → Nat) (input : String) (candidates : List String) :
    List (Nat × String) :=
  (candidates.filter (· ≠ input)).map fun c => (d input c, c)

/-- Whether a candidate comes close to `input`, by its distance or by how it begins. -/
def isClose (input : String) (c : Nat × String) : Bool :=
  c.1 ≤ reach input || input.isPrefixOf c.2 || c.2.isPrefixOf input

/-- Closer candidates come first, equally close ones in order. -/
def closerEq (a b : Nat × String) : Bool :=
  a.1 < b.1 || (a.1 = b.1 && a.2 ≤ b.2)

/-- Up to three candidates that come close to `input` by the distance `d`, the closest first. A
candidate that is given several times stands next to itself once all of them are in order. -/
def closestBy (d : String → String → Nat) (input : String) (candidates : List String) :
    List String :=
  let close := (scores d input candidates).filter (isClose input)
  let ranked := (close.mergeSort closerEq).eraseRepsBy fun a b => a.2 = b.2
  (ranked.take 3).map (·.2)

def closest (input : String) (candidates : List String) : List String :=
  closestBy distance input candidates

/-- The words of the expression language. -/
def keywords : List String :=
  ["true", "false", "empty", "not", "and", "or", "wait", "in", "background", "this"]

/-- The closest visible names, or the closest words of the language if no name comes close. -/
def suggestBy (d : String → String → Nat) (input : String) (visible : List String) :
    List String :=
  match closestBy d input visible with
  | [] => closestBy d input keywords
  | found => found

def suggest (input : String) (visible : List String) : List String :=
  suggestBy distance input visible

end Statute.Text
