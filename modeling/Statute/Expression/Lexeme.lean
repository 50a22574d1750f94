/-!
# Cutting expression text into tokens

An expression text is cut into raw tokens from left to right: numbers, identifiers, operators and
string literals; any other character is a token of its own, so every text can be cut. A string
literal comes out as three tokens, its two quotes and what stands between them. Blanks outside
string literals only separate tokens.
-/

namespace Statute.Lexeme

def isGap (c : Char) : Bool :=
  c = ' ' || c = '\t' || c = '\r' || c = '\n'

/-- The first character of an identifier in text form. -/
def isWordStart (c : Char) : Bool :=
  c.isAlpha || c = '_'

/-- A later character of an identifier in text form. -/
def isWordPart (c : Char) : Bool :=
  c.isAlphanum || c = '_'

/-- The operators written with two characters. -/
def isDouble (c d : Char) : Bool :=
  d = '=' && (c = '>' || c = '<' || c = '!')

/-- The fractional part at the front of a text, if digits follow the point. -/
def fraction : List Char → List Char × List Char
  | '.' :: c :: cs =>
      if c.isDigit then ('.' :: c :: cs.takeWhile Char.isDigit, cs.dropWhile Char.isDigit)
      else ([], '.' :: c :: cs)
  | cs => ([], cs)

/-- The tokens that begin with the character `c` in front of `cs`, and the text after them. -/
def next (c : Char) (cs : List Char) : List String × List Char :=
  if c.isDigit then
    let (places, rest) := fraction (cs.dropWhile Char.isDigit)
    ([String.ofList (c :: cs.takeWhile Char.isDigit ++ places)], rest)
  else if isWordStart c then
    ([String.ofList (c :: cs.takeWhile isWordPart)], cs.dropWhile isWordPart)
  else if c = '"' then
    match cs.dropWhile (· ≠ '"') with
    | [] => (["\""], cs)
    | _ :: rest => (["\"", String.ofList (cs.takeWhile (· ≠ '"')), "\""], rest)
  else
    match cs with
    | d :: rest => if isDouble c d then ([String.ofList [c, d]], rest) else ([c.toString], cs)
    | [] => ([c.toString], [])

theorem next_of_isDigit {c : Char} (hc : c.isDigit = true) (cs : List Char) :
    next c cs =
      ([String.ofList (c :: cs.takeWhile Char.isDigit ++ (fraction (cs.dropWhile Char.isDigit)).1)],
        (fraction (cs.dropWhile Char.isDigit)).2) := by
  rw [next.eq_def, if_pos hc]

theorem next_of_isWordStart {c : Char} (hdigit : c.isDigit = false) (hc : isWordStart c = true)
    (cs : List Char) :
    next c cs = ([String.ofList (c :: cs.takeWhile isWordPart)], cs.dropWhile isWordPart) := by
  rw [next.eq_def, if_neg (by simp [hdigit]), if_pos hc]

/-- A quote with a partner. -/
theorem next_quote {cs rest : List Char} (h : cs.dropWhile (· ≠ '"') = '"' :: rest) :
    next '"' cs = (["\"", String.ofList (cs.takeWhile (· ≠ '"')), "\""], rest) := by
  rw [next.eq_def, if_neg (by decide), if_neg (by decide), if_pos rfl, h]

theorem next_quote_unpaired {cs : List Char} (h : cs.dropWhile (· ≠ '"') = []) :
    next '"' cs = (["\""], cs) := by
  rw [next.eq_def, if_neg (by decide), if_neg (by decide), if_pos rfl, h]

/-- A character that begins no number, identifier or string literal. -/
def isSign (c : Char) : Bool :=
  !c.isDigit && !isWordStart c && c ≠ '"'

theorem next_of_isDouble {c d : Char} (hc : isSign c = true) (hcd : isDouble c d = true)
    (cs : List Char) : next c (d :: cs) = ([String.ofList [c, d]], cs) := by
  simp only [isSign, Bool.and_eq_true, Bool.not_eq_true', decide_eq_true_eq] at hc
  rw [next.eq_def, if_neg (by simp [hc.1.1]), if_neg (by simp [hc.1.2]), if_neg hc.2]
  simp only [if_pos hcd]

theorem next_of_not_isDouble {c : Char} (hc : isSign c = true) {cs : List Char}
    (hcs : ∀ d ∈ cs.head?, isDouble c d = false) : next c cs = ([c.toString], cs) := by
  simp only [isSign, Bool.and_eq_true, Bool.not_eq_true', decide_eq_true_eq] at hc
  rw [next.eq_def, if_neg (by simp [hc.1.1]), if_neg (by simp [hc.1.2]), if_neg hc.2]
  cases cs with
  | nil => rfl
  | cons d cs => simp [hcs d rfl]

theorem length_dropWhile_le {α : Type} (p : α → Bool) (l : List α) :
    (l.dropWhile p).length ≤ l.length :=
  (List.dropWhile_suffix p).length_le

theorem fraction_length_le (cs : List Char) : (fraction cs).2.length ≤ cs.length := by
  unfold fraction
  split
  · next c r =>
      split
      · exact Nat.le_succ_of_le (Nat.le_succ_of_le (length_dropWhile_le _ r))
      · exact Nat.le_refl _
  · exact Nat.le_refl _

/-- Every token takes at least the character it begins with. -/
theorem next_length_le (c : Char) (cs : List Char) : (next c cs).2.length ≤ cs.length := by
  unfold next
  split
  · exact Nat.le_trans (fraction_length_le _) (length_dropWhile_le _ cs)
  · split
    · exact length_dropWhile_le _ cs
    · split
      · split
        · exact Nat.le_refl _
        · next q rest h =>
            have hle := length_dropWhile_le (· ≠ '"') cs
            rw [h] at hle
            exact Nat.le_of_succ_le hle
      · split
        · split
          · exact Nat.le_succ _
          · exact Nat.le_refl _
        · exact Nat.le_refl _

/-- The tokens of a text given by its characters. -/
def splitChars : List Char → List String
  | [] => []
  | c :: cs =>
      if isGap c then splitChars cs
      else (next c cs).1 ++ splitChars (next c cs).2
termination_by cs => cs.length
decreasing_by
  · exact Nat.lt_succ_self _
  · exact Nat.lt_succ_of_le (next_length_le c cs)

/-- The raw tokens of an expression text. -/
def split (text : String) : List String :=
  splitChars text.toList

@[simp] theorem splitChars_nil : splitChars [] = [] := by
  rw [splitChars]

theorem splitChars_cons (c : Char) (cs : List Char) :
    splitChars (c :: cs) =
      if isGap c then splitChars cs else (next c cs).1 ++ splitChars (next c cs).2 := by
  rw [splitChars]

end Statute.Lexeme
