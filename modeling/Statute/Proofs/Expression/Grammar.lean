import Statute.Expression.Lexeme
import Mathlib.Data.List.TakeWhile

/-!
# The grammar of tokens

The tokens of an expression text are given by a grammar of parsing expressions. Choices are tried in
order, a repetition takes as much as it can and gives nothing back, and what fails takes nothing.
Blanks are skipped between tokens, and nowhere inside a token. A text of which this grammar takes
everything is cut into the tokens that the rules of the grammar hand out.

`Rule.Gives` is the meaning of parsing expressions; what one of them gives for a text is unique. The
grammar takes all of every text, and the tokens that it hands out are those of `Lexeme.split`.
-/

namespace Statute.Lexeme

/-- A parsing expression. -/
inductive Rule where
  /-- Takes nothing. -/
  | nothing
  /-- Takes a character of a class. -/
  | one (p : Char → Bool)
  | seq (first second : Rule)
  /-- The second alternative counts only where the first one fails. -/
  | choice (first second : Rule)
  | many (r : Rule)
  /-- Takes nothing, and fails where the rule would not fail. -/
  | absent (r : Rule)
  /-- Hands out as a token what the rule takes. -/
  | token (r : Rule)

namespace Rule

/-- What a rule gives for a text: the tokens that it hands out and the text that it leaves, or
nothing if it fails. -/
inductive Gives : Rule → List Char → Option (List String × List Char) → Prop
  | nothing (cs : List Char) : Gives nothing cs (some ([], cs))
  | one {p : Char → Bool} {c : Char} (hc : p c = true) (cs : List Char) :
      Gives (one p) (c :: cs) (some ([], cs))
  | refused {p : Char → Bool} {cs : List Char} (hcs : ∀ c ∈ cs.head?, p c = false) :
      Gives (one p) cs none
  | seq {a b : Rule} {cs rest rest' : List Char} {ts us : List String}
      (hfirst : Gives a cs (some (ts, rest))) (hsecond : Gives b rest (some (us, rest'))) :
      Gives (seq a b) cs (some (ts ++ us, rest'))
  | noFirst {a : Rule} {cs : List Char} (hfirst : Gives a cs none) (b : Rule) :
      Gives (seq a b) cs none
  | noSecond {a b : Rule} {cs rest : List Char} {ts : List String}
      (hfirst : Gives a cs (some (ts, rest))) (hsecond : Gives b rest none) :
      Gives (seq a b) cs none
  | first {a : Rule} {cs rest : List Char} {ts : List String}
      (hfirst : Gives a cs (some (ts, rest))) (b : Rule) :
      Gives (choice a b) cs (some (ts, rest))
  | second {a b : Rule} {cs : List Char} {res : Option (List String × List Char)}
      (hfirst : Gives a cs none) (hsecond : Gives b cs res) : Gives (choice a b) cs res
  | again {a : Rule} {cs rest rest' : List Char} {ts us : List String}
      (hfirst : Gives a cs (some (ts, rest))) (hrest : Gives (many a) rest (some (us, rest'))) :
      Gives (many a) cs (some (ts ++ us, rest'))
  | enough {a : Rule} {cs : List Char} (hfirst : Gives a cs none) :
      Gives (many a) cs (some ([], cs))
  | absent {a : Rule} {cs : List Char} (hnone : Gives a cs none) :
      Gives (absent a) cs (some ([], cs))
  | present {a : Rule} {cs rest : List Char} {ts : List String}
      (hsome : Gives a cs (some (ts, rest))) : Gives (absent a) cs none
  | token {a : Rule} {cs taken rest : List Char} {ts : List String}
      (h : Gives a cs (some (ts, rest))) (htaken : cs = taken ++ rest) :
      Gives (token a) cs (some ([String.ofList taken], rest))
  | noToken {a : Rule} {cs : List Char} (h : Gives a cs none) : Gives (token a) cs none

variable {r a b : Rule} {p : Char → Bool} {c : Char} {cs rest : List Char} {ts : List String}
  {res res' : Option (List String × List Char)}

/-- A rule gives one thing at most. -/
theorem Gives.unique (h : r.Gives cs res) (h' : r.Gives cs res') : res = res' := by
  induction h generalizing res' with
  | nothing cs => cases h'; rfl
  | one hc cs =>
      cases h' with
      | one => rfl
      | refused hcs => simp [hc] at hcs
  | refused hcs =>
      cases h' with
      | one hc => simp [hc] at hcs
      | refused => rfl
  | seq _ _ ihfirst ihsecond =>
      cases h' with
      | seq hfirst hsecond =>
          cases ihfirst hfirst
          cases ihsecond hsecond
          rfl
      | noFirst hfirst => cases ihfirst hfirst
      | noSecond hfirst hsecond =>
          cases ihfirst hfirst
          cases ihsecond hsecond
  | noFirst _ b ihfirst =>
      cases h' with
      | seq hfirst => cases ihfirst hfirst
      | noFirst => rfl
      | noSecond hfirst => cases ihfirst hfirst
  | noSecond _ _ ihfirst ihsecond =>
      cases h' with
      | seq hfirst hsecond =>
          cases ihfirst hfirst
          cases ihsecond hsecond
      | noFirst => rfl
      | noSecond => rfl
  | first _ b ihfirst =>
      cases h' with
      | first hfirst => exact ihfirst hfirst
      | second hfirst => cases ihfirst hfirst
  | second _ _ ihfirst ihsecond =>
      cases h' with
      | first hfirst => cases ihfirst hfirst
      | second _ hsecond => exact ihsecond hsecond
  | again _ _ ihfirst ihrest =>
      cases h' with
      | again hfirst hrest =>
          cases ihfirst hfirst
          cases ihrest hrest
          rfl
      | enough hfirst => cases ihfirst hfirst
  | enough _ ihfirst =>
      cases h' with
      | again hfirst => cases ihfirst hfirst
      | enough => rfl
  | absent _ ih =>
      cases h' with
      | absent => rfl
      | present hsome => cases ih hsome
  | present _ ih =>
      cases h' with
      | absent hnone => cases ih hnone
      | present => rfl
  | token _ htaken ih =>
      cases h' with
      | token h htaken' =>
          cases ih h
          rw [List.append_cancel_right (htaken.symm.trans htaken')]
      | noToken h => cases ih h
  | noToken _ ih =>
      cases h' with
      | token h => cases ih h
      | noToken => rfl

/-! ## Rules made of others -/

def any : Rule := one fun _ => true

def opt (r : Rule) : Rule := choice r nothing

def plus (r : Rule) : Rule := seq r (many r)

def literal : List Char → Rule
  | [] => nothing
  | c :: cs => seq (one (· = c)) (literal cs)

def firstOf : List Rule → Rule
  | [] => absent nothing
  | r :: rs => choice r (firstOf rs)

theorem gives_any (c : Char) (cs : List Char) : any.Gives (c :: cs) (some ([], cs)) :=
  .one rfl cs

theorem gives_one_nil (p : Char → Bool) : (one p).Gives [] none :=
  .refused (by simp)

theorem gives_one_of_not (hc : p c = false) (cs : List Char) : (one p).Gives (c :: cs) none :=
  .refused fun d hd => by
    obtain rfl := Option.some.inj hd
    exact hc

/-- A token of one character. -/
theorem gives_token_one (hc : p c = true) (cs : List Char) :
    (token (one p)).Gives (c :: cs) (some ([String.ofList [c]], cs)) :=
  .token (.one hc cs) rfl

theorem gives_many_one (p : Char → Bool) (cs : List Char) :
    (many (one p)).Gives cs (some ([], cs.dropWhile p)) := by
  induction cs with
  | nil => exact .enough (gives_one_nil p)
  | cons c cs ih =>
      cases hc : p c with
      | true =>
          rw [List.dropWhile_cons_of_pos hc]
          exact .again (.one hc cs) ih
      | false =>
          rw [List.dropWhile_cons_of_neg (by simp [hc])]
          exact .enough (gives_one_of_not hc cs)

theorem gives_plus_one (hc : p c = true) (cs : List Char) :
    (plus (one p)).Gives (c :: cs) (some ([], cs.dropWhile p)) :=
  .seq (.one hc cs) (gives_many_one p cs)

theorem gives_literal (taken cs : List Char) :
    (literal taken).Gives (taken ++ cs) (some ([], cs)) := by
  induction taken with
  | nil => exact .nothing cs
  | cons c taken ih => exact .seq (.one (by simp) _) ih

theorem gives_literal_refused {word : List Char} (h : ¬ word <+: cs) :
    (literal word).Gives cs none := by
  induction word generalizing cs with
  | nil => exact absurd List.nil_prefix h
  | cons c word ih =>
      cases cs with
      | nil => exact .noFirst (gives_one_nil _) _
      | cons d cs =>
          by_cases hd : d = c
          · subst hd
            refine .noSecond (.one (by simp) cs) (ih fun hword => h ?_)
            exact (List.prefix_append_right_inj [d]).mpr hword
          · exact .noFirst (gives_one_of_not (by simp [hd]) cs) _

/-- Of several words the first one counts that the text begins with. -/
theorem gives_firstOf_literal {words : List String} {word : String}
    (h : words.find? (·.toList.isPrefixOf cs) = some word) (hcs : cs = word.toList ++ rest) :
    (firstOf (words.map fun o => literal o.toList)).Gives cs (some ([], rest)) := by
  induction words with
  | nil => contradiction
  | cons o words ih =>
      rw [List.find?_cons] at h
      split at h
      · obtain rfl := Option.some.inj h
        rw [hcs]
        exact .first (gives_literal o.toList rest) _
      · next ho =>
          refine .second (gives_literal_refused fun hprefix => ?_) (ih h)
          simp [List.isPrefixOf_iff_prefix.mpr hprefix] at ho

theorem gives_firstOf_literal_of_not {words : List String}
    (h : ∀ o ∈ words, ¬ o.toList <+: cs) :
    (firstOf (words.map fun o => literal o.toList)).Gives cs none := by
  induction words with
  | nil => exact .present (.nothing cs)
  | cons o words ih =>
      obtain ⟨ho, hwords⟩ := List.forall_mem_cons.mp h
      exact .second (gives_literal_refused ho) (ih hwords)

end Rule

theorem head_of_dropWhile_eq_cons {p : Char → Bool} {c : Char} {cs rest : List Char}
    (h : cs.dropWhile p = c :: rest) : p c = false := by
  have hc := List.head_dropWhile_not p (l := cs) (by simp [h])
  simpa [h] using hc

theorem fraction_append (cs : List Char) : (fraction cs).1 ++ (fraction cs).2 = cs := by
  unfold fraction
  split
  · split
    · simp
    · rfl
  · rfl

/-- Blanks before a text make no difference. -/
theorem splitChars_dropWhile_isGap (cs : List Char) :
    splitChars (cs.dropWhile isGap) = splitChars cs := by
  induction cs with
  | nil => rfl
  | cons c cs ih =>
      cases hc : isGap c with
      | true => rw [List.dropWhile_cons_of_pos hc, ih, splitChars_cons, if_pos hc]
      | false => rw [List.dropWhile_cons_of_neg (by simp [hc])]

/-! ## The rules of tokens -/

def operators : List String :=
  [">=", "<=", "!=", "≠", "≥", "≤", "(", ")", ",", ".", "+", "-", "*", "/", "^", ">", "<", "="]

namespace Rule

def digits : Rule := plus (one Char.isDigit)

def number : Rule := token (seq digits (opt (seq (one (· = '.')) digits)))

def identifier : Rule := token (seq (one isWordStart) (many (one isWordPart)))

def mark : Rule := one (· = '"')

def contents : Rule := many (seq (absent mark) any)

/-- A string literal hands out its two quotes and what stands between them. -/
def text : Rule := seq (token mark) (seq (token contents) (token mark))

def operator : Rule := token (firstOf (operators.map fun o => literal o.toList))

def other : Rule := token any

def lexeme : Rule := choice number (choice identifier (choice text (choice operator other)))

def gaps : Rule := many (one isGap)

/-- One rule after the other, with blanks between them. -/
def spaced (a b : Rule) : Rule := seq a (seq gaps b)

/-- A rule any number of times, with blanks in between. -/
def spacedMany (r : Rule) : Rule := opt (seq r (many (seq gaps r)))

/-- A whole text: lexemes from its beginning to its end, with blanks around them. -/
def wholeText : Rule := spaced nothing (spaced (spacedMany lexeme) (absent any))

/-! ## What the rules give -/

theorem gives_digits {c : Char} (hc : c.isDigit = true) (cs : List Char) :
    digits.Gives (c :: cs) (some ([], cs.dropWhile Char.isDigit)) :=
  gives_plus_one hc cs

/-- The places after the point. -/
theorem gives_places (cs : List Char) :
    (opt (seq (one (· = '.')) digits)).Gives cs (some ([], (fraction cs).2)) := by
  unfold fraction
  split
  · next c cs =>
      cases hc : c.isDigit with
      | true => exact .first (.seq (.one (by simp) _) (gives_digits hc cs)) _
      | false =>
          refine .second (.noSecond (.one (by simp) _) (.noFirst ?_ _)) (.nothing _)
          exact gives_one_of_not hc cs
  · next h =>
      refine .second ?_ (.nothing _)
      cases cs with
      | nil => exact .noFirst (gives_one_nil _) _
      | cons d cs =>
          by_cases hd : d = '.'
          · subst hd
            refine .noSecond (.one (by simp) cs) (.noFirst ?_ _)
            cases cs with
            | nil => exact gives_one_nil _
            | cons c cs => exact absurd rfl (h c cs)
          · exact .noFirst (gives_one_of_not (by simp [hd]) cs) _

theorem gives_number {c : Char} (hc : c.isDigit = true) (cs : List Char) :
    number.Gives (c :: cs) (some (next c cs)) := by
  rw [next_of_isDigit hc]
  refine .token (.seq (gives_digits hc cs) (gives_places _)) ?_
  rw [List.append_assoc, fraction_append, List.cons_append, List.takeWhile_append_dropWhile]

theorem gives_number_of_not {c : Char} (hc : c.isDigit = false) (cs : List Char) :
    number.Gives (c :: cs) none :=
  .noToken (.noFirst (.noFirst (gives_one_of_not hc cs) _) _)

theorem gives_identifier {c : Char} (hdigit : c.isDigit = false) (hc : isWordStart c = true)
    (cs : List Char) : identifier.Gives (c :: cs) (some (next c cs)) := by
  rw [next_of_isWordStart hdigit hc]
  refine .token (.seq (.one hc cs) (gives_many_one _ cs)) ?_
  rw [List.cons_append, List.takeWhile_append_dropWhile]

theorem gives_identifier_of_not {c : Char} (hc : isWordStart c = false) (cs : List Char) :
    identifier.Gives (c :: cs) none :=
  .noToken (.noFirst (gives_one_of_not hc cs) _)

theorem gives_contents (cs : List Char) :
    contents.Gives cs (some ([], cs.dropWhile (· ≠ '"'))) := by
  induction cs with
  | nil => exact .enough (.noSecond (.absent (gives_one_nil _)) (gives_one_nil _))
  | cons c cs ih =>
      by_cases hc : c = '"'
      · subst hc
        exact .enough (.noFirst (.present (.one (by simp) cs)) _)
      · rw [List.dropWhile_cons_of_pos (by simp [hc])]
        refine .again (.seq (.absent (gives_one_of_not ?_ cs)) (gives_any c cs)) ih
        simp [hc]

theorem gives_text {cs rest : List Char} (h : cs.dropWhile (· ≠ '"') = '"' :: rest) :
    text.Gives ('"' :: cs) (some (next '"' cs)) := by
  have hmark : ∀ cs, (token mark).Gives ('"' :: cs) (some (["\""], cs)) :=
    gives_token_one (by simp)
  have hcontents := gives_contents cs
  rw [h] at hcontents
  rw [next_quote h]
  refine .seq (hmark cs) (.seq (.token hcontents ?_) (hmark rest))
  rw [← h, List.takeWhile_append_dropWhile]

theorem gives_text_unpaired {cs : List Char} (h : cs.dropWhile (· ≠ '"') = []) :
    text.Gives ('"' :: cs) none := by
  have hcontents := gives_contents cs
  rw [h] at hcontents
  refine .noSecond (gives_token_one (by simp) cs) ?_
  refine .noSecond (.token hcontents (List.append_nil cs).symm) ?_
  exact .noToken (gives_one_nil _)

theorem gives_text_of_not {c : Char} (hc : c ≠ '"') (cs : List Char) :
    text.Gives (c :: cs) none :=
  .noFirst (.noToken (gives_one_of_not (by simp [hc]) cs)) _

theorem gives_operator {cs rest : List Char} {o : String}
    (h : operators.find? (·.toList.isPrefixOf cs) = some o) (hcs : cs = o.toList ++ rest) :
    operator.Gives cs (some ([o], rest)) := by
  have htoken := Gives.token (gives_firstOf_literal h hcs) hcs
  rwa [String.ofList_toList] at htoken

theorem gives_operator_double {c d : Char} (h : isDouble c d = true) (cs : List Char) :
    operator.Gives (c :: d :: cs) (some ([String.ofList [c, d]], cs)) := by
  obtain ⟨rfl, (rfl | rfl) | rfl⟩ : d = '=' ∧ ((c = '>' ∨ c = '<') ∨ c = '!') := by
    simpa [isDouble] using h
  · exact gives_operator (o := ">=") rfl rfl
  · exact gives_operator (o := "<=") rfl rfl
  · exact gives_operator (o := "!=") rfl rfl

/-- An operator is written with the characters of a pair, or with a single one. -/
theorem exists_of_mem_operators {o : String} (h : o ∈ operators) :
    (∃ c, o.toList = [c, '='] ∧ isDouble c '=' = true) ∨ ∃ c, o.toList = [c] := by
  have hall : ∀ o ∈ operators, (o.toList.length = 1 ∨
      o.toList = ['>', '='] ∨ o.toList = ['<', '='] ∨ o.toList = ['!', '=']) := by decide
  rcases hall o h with hone | h | h | h
  · exact Or.inr (List.length_eq_one_iff.mp hone)
  · exact Or.inl ⟨_, h, rfl⟩
  · exact Or.inl ⟨_, h, rfl⟩
  · exact Or.inl ⟨_, h, rfl⟩

/-- Whether a single character is an operator or not, it is a token. -/
theorem gives_sign {c : Char} {cs : List Char} (h : ∀ d ∈ cs.head?, isDouble c d = false) :
    (choice operator other).Gives (c :: cs) (some ([c.toString], cs)) := by
  cases hfind : operators.find? (·.toList.isPrefixOf (c :: cs)) with
  | none =>
      refine .second (.noToken (gives_firstOf_literal_of_not fun o ho hprefix => ?_))
        (gives_token_one rfl cs)
      have hnone := List.find?_eq_none.mp hfind o ho
      exact hnone (List.isPrefixOf_iff_prefix.mpr hprefix)
  | some o =>
      have hprefix : o.toList.isPrefixOf (c :: cs) = true :=
        List.find?_some (p := fun o : String => o.toList.isPrefixOf (c :: cs)) hfind
      obtain ⟨rest, hrest⟩ := List.isPrefixOf_iff_prefix.mp hprefix
      rcases exists_of_mem_operators (List.mem_of_find?_eq_some hfind) with ⟨d, ho, hd⟩ | ⟨d, ho⟩
      · rw [ho] at hrest
        obtain ⟨rfl, rfl⟩ := List.cons.inj hrest
        simp [h '=' rfl] at hd
      · rw [ho] at hrest
        obtain ⟨rfl, rfl⟩ := List.cons.inj hrest
        have hword : o = d.toString := by rw [← String.toList_inj, ho]; simp [Char.toString]
        rw [← hword]
        exact .first (gives_operator hfind (by rw [ho]; rfl)) _

/-- The tokens that begin at a character are those of the first rule that does not fail. -/
theorem gives_lexeme (c : Char) (cs : List Char) : lexeme.Gives (c :: cs) (some (next c cs)) := by
  cases hdigit : c.isDigit with
  | true => exact .first (gives_number hdigit cs) _
  | false =>
      refine .second (gives_number_of_not hdigit cs) ?_
      cases hword : isWordStart c with
      | true => exact .first (gives_identifier hdigit hword cs) _
      | false =>
          refine .second (gives_identifier_of_not hword cs) ?_
          by_cases hquote : c = '"'
          · subst hquote
            cases hpartner : cs.dropWhile (· ≠ '"') with
            | nil =>
                rw [next_quote_unpaired hpartner]
                exact .second (gives_text_unpaired hpartner) (gives_sign (by simp [isDouble]))
            | cons d rest =>
                obtain rfl : d = '"' := by simpa using head_of_dropWhile_eq_cons hpartner
                exact .first (gives_text hpartner) _
          · refine .second (gives_text_of_not hquote cs) ?_
            have hsign : isSign c = true := by simp [isSign, hdigit, hword, hquote]
            by_cases hdouble : ∀ d ∈ cs.head?, isDouble c d = false
            · rw [next_of_not_isDouble hsign hdouble]
              exact gives_sign hdouble
            · cases cs with
              | nil => exact absurd (by simp) hdouble
              | cons d cs =>
                  have hd : isDouble c d = true := by simpa using hdouble
                  rw [next_of_isDouble hsign hd]
                  exact .first (gives_operator_double hd cs) _

theorem gives_lexeme_nil : lexeme.Gives [] none := by
  have hone := gives_one_nil
  have hoperator : (firstOf (operators.map fun o => literal o.toList)).Gives [] none :=
    gives_firstOf_literal_of_not (by decide)
  exact .second (.noToken (.noFirst (.noFirst (hone _) _) _)) <|
    .second (.noToken (.noFirst (hone _) _)) <|
    .second (.noFirst (.noToken (hone _)) _) <|
    .second (.noToken hoperator) (.noToken (hone _))

/-! ## Whole texts -/

theorem gives_gaps (cs : List Char) : gaps.Gives cs (some ([], cs.dropWhile isGap)) :=
  gives_many_one isGap cs

/-- After a token come the others, each with the blanks before it, and then blanks at most. -/
theorem gives_lexemes (cs : List Char) :
    ∃ rest, rest.dropWhile isGap = [] ∧
      (many (seq gaps lexeme)).Gives cs (some (splitChars cs, rest)) := by
  cases hcs : cs.dropWhile isGap with
  | nil =>
      refine ⟨cs, hcs, ?_⟩
      rw [← splitChars_dropWhile_isGap, hcs, splitChars_nil]
      have hgaps := gives_gaps cs
      rw [hcs] at hgaps
      exact .enough (.noSecond hgaps gives_lexeme_nil)
  | cons c tail =>
      have hlength : (next c tail).2.length < cs.length := by
        have hle := length_dropWhile_le isGap cs
        rw [hcs] at hle
        exact Nat.lt_of_le_of_lt (next_length_le c tail) hle
      obtain ⟨rest, hrest, hmany⟩ := gives_lexemes (next c tail).2
      refine ⟨rest, hrest, ?_⟩
      rw [← splitChars_dropWhile_isGap, hcs, splitChars_cons,
        if_neg (by simp [head_of_dropWhile_eq_cons hcs])]
      have hgaps := gives_gaps cs
      rw [hcs] at hgaps
      exact .again (.seq hgaps (gives_lexeme c tail)) hmany
termination_by cs.length

/-- The grammar takes all of every text, and hands out its tokens. -/
theorem gives_wholeText (cs : List Char) : wholeText.Gives cs (some (splitChars cs, [])) := by
  have hgaps := gives_gaps cs
  have hending : ∀ rest : List Char, rest.dropWhile isGap = [] →
      (seq gaps (absent any)).Gives rest (some ([], [])) := by
    intro rest hrest
    have hgaps := gives_gaps rest
    rw [hrest] at hgaps
    exact .seq hgaps (.absent (gives_one_nil _))
  have hmiddle : ∃ rest, rest.dropWhile isGap = [] ∧
      (spacedMany lexeme).Gives (cs.dropWhile isGap) (some (splitChars cs, rest)) := by
    cases hcs : cs.dropWhile isGap with
    | nil =>
        refine ⟨[], rfl, ?_⟩
        rw [← splitChars_dropWhile_isGap, hcs, splitChars_nil]
        exact .second (.noFirst gives_lexeme_nil _) (.nothing [])
    | cons c tail =>
        obtain ⟨rest, hrest, hmany⟩ := gives_lexemes (next c tail).2
        refine ⟨rest, hrest, ?_⟩
        rw [← splitChars_dropWhile_isGap, hcs, splitChars_cons,
          if_neg (by simp [head_of_dropWhile_eq_cons hcs])]
        exact .first (.seq (gives_lexeme c tail) hmany) _
  obtain ⟨rest, hrest, hlexemes⟩ := hmiddle
  have hall : wholeText.Gives cs (some ([] ++ ([] ++ (splitChars cs ++ [])), [])) :=
    .seq (.nothing cs) (.seq hgaps (.seq hlexemes (hending rest hrest)))
  rwa [List.nil_append, List.nil_append, List.append_nil] at hall

end Rule

end Statute.Lexeme
