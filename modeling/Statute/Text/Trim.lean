import Statute.Text.Blank

/-!
# Cutting texts

Trimming takes the blanks off both ends; `pieces` cuts a text at every occurrence of a separating
character, so a text with `n` separators has `n + 1` pieces, some of them possibly empty.
-/

namespace Statute.Text

/-- The characters of a text without the blanks at both ends. -/
def trimChars (cs : List Char) : List Char :=
  ((cs.dropWhile isBlank).reverse.dropWhile isBlank).reverse

/-- A text without the blanks at both ends. -/
def trim (s : String) : String :=
  String.ofList (trimChars s.toList)

/-- The pieces of a character list between the occurrences of `sep`, in order. -/
def pieces (sep : Char) : List Char → List (List Char)
  | [] => [[]]
  | c :: cs =>
      if c = sep then [] :: pieces sep cs
      else match pieces sep cs with
        | [] => [[c]]
        | p :: ps => (c :: p) :: ps

@[simp] theorem pieces_nil (sep : Char) : pieces sep [] = [[]] := rfl

theorem pieces_ne_nil (sep : Char) (cs : List Char) : pieces sep cs ≠ [] := by
  cases cs with
  | nil => simp [pieces]
  | cons c cs =>
      by_cases h : c = sep
      · simp [pieces, h]
      · cases hp : pieces sep cs <;> simp [pieces, h, hp]

end Statute.Text
