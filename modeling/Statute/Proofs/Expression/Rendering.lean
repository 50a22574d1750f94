import Statute.Expression.Token
import Statute.Proofs.Expression.Splitting

/-!
# Splitting undoes rendering

Lexemes that are written one after the other with single blanks in between are found again when the
text is split: a blank ends every lexeme before it, and no lexeme ends earlier. What a string
literal contains does not matter, as long as it is no quote. Classifying the tokens then turns every
string literal into one token that holds its contents.
-/

namespace Statute.Lexeme

/-- One digit or more. -/
structure Digits where
  chars : List Char
  nonempty : chars ≠ []
  digits : ∀ c ∈ chars, c.isDigit = true

/-- A lexeme as it is written. -/
inductive Written where
  | number (whole : Digits) (places : Option Digits)
  /-- An identifier or a keyword. -/
  | word (first : Char) (rest : List Char) (hfirst : isWordStart first = true)
      (hrest : ∀ c ∈ rest, isWordPart c = true)
  | operator (o : String) (ho : o ∈ operators)
  | text (contents : String) (hcontents : '"' ∉ contents.toList)

namespace Written

/-- The characters that a lexeme is written with. -/
def chars : Written → List Char
  | number whole none => whole.chars
  | number whole (some places) => whole.chars ++ '.' :: places.chars
  | word first rest _ _ => first :: rest
  | operator o _ => o.toList
  | text contents _ => '"' :: (contents.toList ++ ['"'])

def tokens : Written → List String
  | text contents _ => ["\"", contents, "\""]
  | l => [String.ofList l.chars]

def contents? : Written → Option String
  | text contents _ => some contents
  | _ => none

/-- Lexemes with single blanks between them. -/
def render (ls : List Written) : String :=
  " ".intercalate (ls.map fun l => String.ofList l.chars)

end Written

/-! ## One lexeme -/

variable {p : Char → Bool} {ds rest : List Char}

/-- Nothing, or a blank and more after it. -/
def Ends (rest : List Char) : Prop :=
  ∀ c ∈ rest.head?, c = ' '

theorem span_append (hds : ∀ c ∈ ds, p c = true) (hrest : ∀ c ∈ rest.head?, p c = false) :
    (ds ++ rest).takeWhile p = ds ∧ (ds ++ rest).dropWhile p = rest := by
  rw [List.takeWhile_append_of_pos hds, List.dropWhile_append_of_pos hds]
  cases rest with
  | nil => simp
  | cons c rest =>
      have hc : ¬ p c = true := by simpa using hrest c rfl
      rw [List.takeWhile_cons_of_neg hc, List.dropWhile_cons_of_neg hc, List.append_nil]
      exact ⟨rfl, rfl⟩

theorem Ends.head (h : Ends rest) (hp : p ' ' = false) : ∀ c ∈ rest.head?, p c = false := by
  rintro c hc
  rwa [h c hc]

theorem fraction_of_ends (h : Ends rest) : fraction rest = ([], rest) := by
  unfold fraction
  split
  · have hpoint := h '.' rfl
    contradiction
  · rfl

theorem fraction_places (places : Digits) (h : Ends rest) :
    fraction ('.' :: places.chars ++ rest) = ('.' :: places.chars, rest) := by
  obtain ⟨chars, hne, hdigits⟩ := places
  obtain ⟨c, cs, rfl⟩ := List.exists_cons_of_ne_nil hne
  obtain ⟨hc, hcs⟩ := List.forall_mem_cons.mp hdigits
  obtain ⟨htake, hdrop⟩ := span_append hcs (h.head (by decide))
  simp [fraction, hc, htake, hdrop]

theorem next_number (whole : Digits) (places : Option Digits) (h : Ends rest) :
    ∃ c cs, (Written.number whole places).chars = c :: cs ∧ isGap c = false ∧
      next c (cs ++ rest) = ([String.ofList (c :: cs)], rest) := by
  obtain ⟨chars, hne, hdigits⟩ := whole
  obtain ⟨c, cs, rfl⟩ := List.exists_cons_of_ne_nil hne
  obtain ⟨hc, hcs⟩ := List.forall_mem_cons.mp hdigits
  cases places with
  | none =>
      obtain ⟨htake, hdrop⟩ := span_append hcs (h.head (p := Char.isDigit) (by decide))
      refine ⟨c, cs, rfl, (not_gap_of_isDigit hc).1, ?_⟩
      rw [next_of_isDigit hc, htake, hdrop, fraction_of_ends h, List.append_nil]
  | some places =>
      have hpoint : ∀ d ∈ ('.' :: places.chars ++ rest).head?, d.isDigit = false := by simp
      obtain ⟨htake, hdrop⟩ := span_append hcs hpoint
      refine ⟨c, cs ++ '.' :: places.chars, rfl, (not_gap_of_isDigit hc).1, ?_⟩
      rw [List.append_assoc, next_of_isDigit hc, htake, hdrop, fraction_places places h]
      rfl

theorem not_isDigit_of_isWordStart {c : Char} (hc : isWordStart c = true) :
    c.isDigit = false := by
  rw [Bool.eq_false_iff]
  intro hdigit
  have hnine : c.toNat ≤ 57 := (Char.isDigit_iff_toNat.mp hdigit).2
  rcases Bool.or_eq_true_iff.mp hc with hletter | hunderscore
  · rcases Bool.or_eq_true_iff.mp hletter with hupper | hlower
    · have hA : 65 ≤ c.toNat := UInt32.le_iff_toNat_le.mp (of_decide_eq_true hupper).1
      omega
    · have ha : 97 ≤ c.toNat :=
        UInt32.le_iff_toNat_le.mp (of_decide_eq_true (Bool.and_eq_true_iff.mp hlower).1)
      omega
  · obtain rfl := of_decide_eq_true hunderscore
    contradiction

theorem next_word {c : Char} {cs : List Char} (hc : isWordStart c = true)
    (hcs : ∀ d ∈ cs, isWordPart d = true) (h : Ends rest) :
    next c (cs ++ rest) = ([String.ofList (c :: cs)], rest) := by
  obtain ⟨htake, hdrop⟩ := span_append hcs (h.head (p := isWordPart) (by decide))
  rw [next_of_isWordStart (not_isDigit_of_isWordStart hc) hc, htake, hdrop]

theorem next_operator {o : String} (ho : o ∈ operators) (h : Ends rest) :
    ∃ c cs, o.toList = c :: cs ∧ isGap c = false ∧ next c (cs ++ rest) = ([o], rest) := by
  have hsigns : ∀ o ∈ operators, o.toList.head?.all (fun c => isSign c && !isGap c) = true := by
    decide
  have hstart : ∀ {c cs}, o.toList = c :: cs → isSign c = true ∧ isGap c = false := by
    intro c cs hchars
    simpa [hchars] using hsigns o ho
  rcases Rule.exists_of_mem_operators ho with ⟨c, hchars, hc⟩ | ⟨c, hchars⟩
  · obtain ⟨hsign, hgap⟩ := hstart hchars
    refine ⟨c, ['='], hchars, hgap, ?_⟩
    rw [List.singleton_append, next_of_isDouble hsign hc, ← hchars, String.ofList_toList]
  · obtain ⟨hsign, hgap⟩ := hstart hchars
    refine ⟨c, [], hchars, hgap, ?_⟩
    have hdouble : ∀ d ∈ rest.head?, isDouble c d = false := h.head (by simp [isDouble])
    have ho : o = c.toString := by rw [← String.toList_inj, hchars]; simp [Char.toString]
    rw [List.nil_append, next_of_not_isDouble hsign hdouble, ho]

theorem next_text {contents : List Char} (hcontents : '"' ∉ contents) :
    next '"' (contents ++ '"' :: rest) =
      (["\"", String.ofList contents, "\""], rest) := by
  have hall : ∀ c ∈ contents, decide (c ≠ '"') = true := by
    rintro c hc
    rw [decide_eq_true_eq]
    rintro rfl
    exact hcontents hc
  have hquote : ∀ c ∈ ('"' :: rest).head?, decide (c ≠ '"') = false := by simp
  obtain ⟨htake, hdrop⟩ := span_append hall hquote
  rw [next_quote hdrop, htake]

/-- A lexeme is found again in front of a blank, or at the end. -/
theorem splitChars_append (l : Written) (h : Ends rest) :
    splitChars (l.chars ++ rest) = l.tokens ++ splitChars rest := by
  have hsplit : ∀ {c : Char} {cs : List Char} {ts : List String}, l.chars = c :: cs →
      isGap c = false → next c (cs ++ rest) = (ts, rest) →
      splitChars (l.chars ++ rest) = ts ++ splitChars rest := by
    intro c cs ts hchars hgap hnext
    rw [hchars, List.cons_append, splitChars_cons, if_neg (by simp [hgap]), hnext]
  cases l with
  | number whole places =>
      obtain ⟨c, cs, hchars, hgap, hnext⟩ := next_number whole places h
      rw [hsplit hchars hgap hnext, ← hchars]
      rfl
  | word first cs hfirst hcs =>
      have hgap := (not_gap_of_isWordPart (isWordPart_of_isWordStart hfirst)).1
      exact hsplit rfl hgap (next_word hfirst hcs h)
  | operator o ho =>
      obtain ⟨c, cs, hchars, hgap, hnext⟩ := next_operator ho h
      rw [hsplit hchars hgap hnext]
      simp [Written.tokens, Written.chars]
  | text contents hcontents =>
      have hnext : next '"' (contents.toList ++ '"' :: rest) = _ := next_text hcontents
      rw [String.ofList_toList] at hnext
      refine hsplit rfl rfl ?_
      rw [List.append_assoc]
      exact hnext

/-! ## Lists of lexemes -/

/-- Lexemes with a blank before each of them. -/
theorem splitChars_flatMap (ls : List Written) :
    splitChars (ls.flatMap fun l => ' ' :: l.chars) = ls.flatMap Written.tokens := by
  induction ls with
  | nil => simp
  | cons l ls ih =>
      have hends : Ends (ls.flatMap fun l => ' ' :: l.chars) := by
        cases ls <;> simp [Ends]
      rw [List.flatMap_cons, List.cons_append, splitChars_cons, if_pos (by decide),
        splitChars_append l hends, ih, List.flatMap_cons]

theorem toList_render (l : Written) (ls : List Written) :
    (Written.render (l :: ls)).toList = l.chars ++ ls.flatMap fun l => ' ' :: l.chars := by
  induction ls generalizing l with
  | nil => simp [Written.render]
  | cons l' ls ih =>
      have hrest := ih l'
      simp only [Written.render, String.toList_intercalate, List.map_cons, List.map_map] at hrest ⊢
      rw [List.intercalate_cons_cons, hrest]
      simp

theorem split_render_eq (ls : List Written) :
    split (Written.render ls) = ls.flatMap Written.tokens := by
  cases ls with
  | nil => simp [Written.render, split]
  | cons l ls =>
      have hends : Ends (ls.flatMap fun l => ' ' :: l.chars) := by
        cases ls <;> simp [Ends]
      rw [split, toList_render, splitChars_append l hends, splitChars_flatMap, List.flatMap_cons]

end Statute.Lexeme

/-! ## Classification -/

namespace Statute.Token

def contents? : Token → Option String
  | literal (.text s) => some s
  | _ => none

def following (t : Token) (raws : List String) : Except Fault (List Token) :=
  (classifyAfter (some t) raws).map (t :: ·)

variable {previous : Option Token} {raw : String} {raws : List String}

theorem classifyAfter_cons_of_error {fault : Fault}
    (h : next (previous.all wantsOperand) raw raws = .error fault) :
    classifyAfter previous (raw :: raws) = .error fault := by
  cases previous <;>
  · rw [classifyAfter]
    split
    · next hfault =>
        cases h.symm.trans hfault
        rfl
    · next hok => cases h.symm.trans hok

/-- A string literal is one token, whatever it contains. -/
theorem classifyAfter_text (previous : Option Token) {contents : String}
    (hcontents : contents ≠ quoteMark) (raws : List String) :
    classifyAfter previous ("\"" :: contents :: "\"" :: raws) =
      following (.literal (.text contents)) raws := by
  refine classifyAfter_cons _ ?_
  have hdrop : (contents :: quoteMark :: raws).dropWhile (· ≠ quoteMark) = quoteMark :: raws := by
    simp [hcontents]
  have htake : (contents :: quoteMark :: raws).takeWhile (· ≠ quoteMark) = [contents] := by
    simp [hcontents]
  change textLiteral (contents :: quoteMark :: raws) = _
  rw [textLiteral, hdrop, htake]
  simp

theorem classifyAfter_single (previous : Option Token) (hquote : raw ≠ quoteMark) (hin : raw ≠ "in")
    (raws : List String) :
    classifyAfter previous (raw :: raws) =
      (single (previous.all wantsOperand) raw >>= fun t => following t raws) := by
  cases hsingle : single (previous.all wantsOperand) raw with
  | error fault =>
      refine classifyAfter_cons_of_error ?_
      rw [next, if_neg hquote, if_neg hin, hsingle]
      rfl
  | ok t =>
      refine classifyAfter_cons t ?_
      rw [next, if_neg hquote, if_neg hin, hsingle]
      rfl

theorem following_of_eq {t : Token} {raws' : List String} {x : Except Fault (List Token)}
    (h : classifyAfter (some t) raws' = do
      let ts ← classifyAfter (some t) raws
      let us ← x
      return ts ++ us) :
    following t raws' = do
      let ts ← following t raws
      let us ← x
      return ts ++ us := by
  rw [following, h, following]
  cases classifyAfter (some t) raws with
  | error fault => rfl
  | ok ts => cases x <;> rfl

theorem classifyAfter_background (previous : Option Token) (raws : List String) :
    classifyAfter previous ("in" :: "background" :: raws) = following (.unary .background) raws :=
  classifyAfter_cons _ rfl

theorem classifyAfter_in (previous : Option Token) (h : ∀ raw ∈ raws.head?, raw ≠ "background") :
    classifyAfter previous ("in" :: raws) = .error .inWithoutBackground := by
  refine classifyAfter_cons_of_error ?_
  change scheduling raws = _
  cases raws with
  | nil => rfl
  | cons raw raws => simp [scheduling, h raw rfl]

theorem readNumber_ne_text (raw s : String) : Literal.readNumber raw ≠ .ok (.text s) := by
  intro h
  unfold Literal.readNumber at h
  split at h
  · split at h
    · cases Except.ok.inj h
    · contradiction
  · cases hread : Literal.readInt 0 raw.toList with
    | error fault =>
        rw [hread] at h
        contradiction
    | ok n =>
        rw [hread] at h
        cases Except.ok.inj h

theorem ofPlain_ne_text (raw s : String) : ofPlain raw ≠ .ok (.literal (.text s)) := by
  intro h
  unfold ofPlain at h
  split at h
  · cases Except.ok.inj h
  · split at h
    · split at h
      · next l hl =>
          obtain rfl := literal.inj (Except.ok.inj h)
          exact readNumber_ne_text raw s hl
      · contradiction
    · split at h
      · cases Except.ok.inj h
      · contradiction

/-- A single raw token is never a string literal. -/
theorem single_ne_text (operandNext : Bool) (raw s : String) :
    single operandNext raw ≠ .ok (.literal (.text s)) := by
  intro h
  have hplain := ofPlain_ne_text raw s
  cases operandNext <;>
  · simp only [single, ite_eq_iff, Except.ok.injEq, literal.injEq, reduceCtorEq, and_false,
      false_or, hplain, Bool.false_eq_true, if_false, if_true] at h

theorem contents?_eq_some {t : Token} {s : String} (h : t.contents? = some s) :
    t = .literal (.text s) := by
  unfold contents? at h
  split at h
  · rw [Option.some.inj h]
  · contradiction

end Statute.Token

namespace Statute.Lexeme

open Token

namespace Written

theorem ne_quoteMark {contents : String} (hcontents : '"' ∉ contents.toList) :
    contents ≠ quoteMark := by
  rintro rfl
  exact hcontents (by decide)

/-- A lexeme is a string literal, or a single raw token that is no quote. -/
theorem tokens_cases (l : Written) :
    (∃ contents, ∃ hcontents : '"' ∉ contents.toList, l = text contents hcontents) ∨
      ∃ raw, l.tokens = [raw] ∧ raw ≠ quoteMark ∧ l.contents? = none := by
  have hstart : ∀ {c : Char} {cs : List Char}, c ≠ '"' → String.ofList (c :: cs) ≠ quoteMark := by
    intro c cs hc h
    have hchars := congrArg String.toList h
    rw [String.toList_ofList] at hchars
    exact hc (List.cons.inj hchars).1
  cases l with
  | number whole places =>
      obtain ⟨d, ds, hds⟩ := List.exists_cons_of_ne_nil whole.nonempty
      have hd := (not_gap_of_isDigit (whole.digits d (by simp [hds]))).2
      refine Or.inr ⟨_, rfl, ?_, rfl⟩
      cases places with
      | none =>
          rw [chars, hds]
          exact hstart hd
      | some places =>
          rw [chars, hds]
          exact hstart hd
  | word first rest hfirst hrest =>
      have hne := (not_gap_of_isWordPart (isWordPart_of_isWordStart hfirst)).2
      exact Or.inr ⟨_, rfl, hstart hne, rfl⟩
  | operator o ho =>
      refine Or.inr ⟨_, rfl, ?_, rfl⟩
      rw [chars, String.ofList_toList]
      rintro rfl
      revert ho
      decide
  | text contents hcontents => exact Or.inl ⟨contents, hcontents, rfl⟩

end Written

/-- The first token of a list of lexemes is found without a look at what comes after the list, as
long as that does not begin with the second word of an operator of two. -/
theorem classifyAfter_lexeme (previous : Option Token) (l : Written) (ls : List Written) :
    (∃ fault, ∀ raws : List String, (∀ raw ∈ raws.head?, raw ≠ "background") →
        classifyAfter previous (l.tokens ++ (ls.flatMap Written.tokens ++ raws)) = .error fault) ∨
      ∃ (t : Token) (rest : List Written), rest.length ≤ ls.length ∧
        (l :: ls).filterMap Written.contents? =
          t.contents?.toList ++ rest.filterMap Written.contents? ∧
        ∀ raws : List String, (∀ raw ∈ raws.head?, raw ≠ "background") →
          classifyAfter previous (l.tokens ++ (ls.flatMap Written.tokens ++ raws)) =
            following t (rest.flatMap Written.tokens ++ raws) := by
  rcases l.tokens_cases with ⟨contents, hcontents, rfl⟩ | ⟨raw, htokens, hquote, hnone⟩
  · refine Or.inr ⟨.literal (.text contents), ls, Nat.le_refl _, rfl, fun raws _ => ?_⟩
    exact classifyAfter_text previous (Written.ne_quoteMark hcontents) _
  rw [htokens, List.filterMap_cons_none hnone]
  by_cases hin : raw = "in"
  · subst hin
    have hrefused : ∀ raws : List String, (∀ raw ∈ raws.head?, raw ≠ "background") →
        classifyAfter previous (["in"] ++ raws) = .error .inWithoutBackground :=
      fun raws => classifyAfter_in previous
    cases ls with
    | nil => exact Or.inl ⟨_, hrefused⟩
    | cons l' ls =>
        rw [List.flatMap_cons]
        rcases l'.tokens_cases with ⟨contents, hcontents, rfl⟩ | ⟨second, htokens', -, hnone'⟩
        · exact Or.inl ⟨_, fun raws _ => hrefused _ (by simp [Written.tokens])⟩
        · rw [htokens', List.filterMap_cons_none hnone']
          by_cases hsecond : second = "background"
          · subst hsecond
            refine Or.inr ⟨.unary .background, ls, Nat.le_succ _, rfl, fun raws _ => ?_⟩
            exact classifyAfter_background previous _
          · exact Or.inl ⟨_, fun raws _ => hrefused _ (by simpa using hsecond)⟩
  · cases hsingle : single (previous.all wantsOperand) raw with
    | error fault =>
        refine Or.inl ⟨fault, fun raws _ => ?_⟩
        rw [List.singleton_append, classifyAfter_single previous hquote hin, hsingle]
        rfl
    | ok t =>
        have hcontents : t.contents? = none := by
          refine Option.eq_none_iff_forall_ne_some.mpr fun s hs => ?_
          exact single_ne_text _ raw s (contents?_eq_some hs ▸ hsingle)
        refine Or.inr ⟨t, ls, Nat.le_refl _, by rw [hcontents]; rfl, fun raws _ => ?_⟩
        rw [List.singleton_append, classifyAfter_single previous hquote hin, hsingle]
        rfl

/-- Where there is a string literal, classification comes apart: the tokens before it are classified
as if it were not there, it is one token, and the tokens after it are classified as those after a
literal. -/
theorem classifyAfter_append_text (previous : Option Token) (before : List Written)
    {contents : String} (hcontents : contents ≠ quoteMark) (raws : List String) :
    classifyAfter previous (before.flatMap Written.tokens ++ "\"" :: contents :: "\"" :: raws) =
      (do
        let ts ← classifyAfter previous (before.flatMap Written.tokens)
        let us ← following (.literal (.text contents)) raws
        return ts ++ us) := by
  match before with
  | [] =>
      rw [List.flatMap_nil, List.nil_append, classifyAfter_text previous hcontents, classifyAfter]
      cases following (.literal (.text contents)) raws <;> rfl
  | l :: before =>
      rw [List.flatMap_cons, List.append_assoc]
      rcases classifyAfter_lexeme previous l before with ⟨fault, hall⟩ | ⟨t, rest, hlength, -, hall⟩
      · have hbefore := hall [] (by simp)
        rw [List.append_nil] at hbefore
        rw [hall _ (by simp), hbefore]
        rfl
      · have hbefore := hall [] (by simp)
        rw [List.append_nil, List.append_nil] at hbefore
        rw [hall _ (by simp), hbefore]
        exact following_of_eq (classifyAfter_append_text (some t) rest hcontents raws)
termination_by before.length

/-- The string literals among the tokens of lexemes are those among the lexemes, in their order. -/
theorem contents_of_classifyAfter {previous : Option Token} {ls : List Written} {ts : List Token}
    (h : classifyAfter previous (ls.flatMap Written.tokens) = .ok ts) :
    ts.filterMap Token.contents? = ls.filterMap Written.contents? := by
  match ls with
  | [] =>
      rw [List.flatMap_nil, classifyAfter] at h
      obtain rfl := Except.ok.inj h
      rfl
  | l :: ls =>
      rw [List.flatMap_cons, ← List.append_nil (ls.flatMap Written.tokens)] at h
      rcases classifyAfter_lexeme previous l ls with ⟨fault, hall⟩ | ⟨t, rest, hlength, hls, hall⟩
      · cases h.symm.trans (hall [] (by simp))
      · rw [hall [] (by simp), List.append_nil] at h
        cases hrest : classifyAfter (some t) (rest.flatMap Written.tokens) with
        | error fault =>
            rw [following, hrest] at h
            contradiction
        | ok us =>
            rw [following, hrest] at h
            obtain rfl := Except.ok.inj h
            rw [hls, ← contents_of_classifyAfter hrest, List.filterMap_cons]
            cases t.contents? <;> rfl
termination_by ls.length

/-- **Splitting undoes rendering.** Splitting what a list of lexemes is written as gives back the
tokens of these lexemes in order. A string literal in it, whatever its contents are, is classified
as a single token that holds them, whether or not the lexemes around it can be classified; and of
all the tokens that they are classified as, those of the string literals and no others are literals
of text. -/
theorem split_render (ls : List Written) :
    split (Written.render ls) = ls.flatMap Written.tokens ∧
      (∀ before contents hcontents after, ls = before ++ .text contents hcontents :: after →
        classify (split (Written.render ls)) = do
          let ts ← classify (split (Written.render before))
          let us ← following (.literal (.text contents)) (split (Written.render after))
          return ts ++ us) ∧
      ∀ ts, classify (split (Written.render ls)) = .ok ts →
        ts.filterMap Token.contents? = ls.filterMap Written.contents? := by
  refine ⟨split_render_eq ls, ?_, ?_⟩
  · rintro before contents hcontents after rfl
    simp only [split_render_eq, List.flatMap_append, List.flatMap_cons, classify]
    exact classifyAfter_append_text none before (Written.ne_quoteMark hcontents) _
  · intro ts h
    rw [split_render_eq] at h
    exact contents_of_classifyAfter h

/-- The contents of a literal may look like an operator, a bracket and a number. -/
theorem split_render_brackets :
    let say := Written.word 's' ['a', 'y'] (by decide) (List.all_eq_true.mp rfl)
    let literal := Written.text "in ( 1" (by decide)
    let ls := [say, .operator ">=" (by decide), literal]
    split (Written.render ls) = ["say", ">=", "\"", "in ( 1", "\""] ∧
      (classify (split (Written.render ls)) = do
        let ts ← classify (split (Written.render ls.dropLast))
        let us ← following (.literal (.text "in ( 1")) (split (Written.render []))
        return ts ++ us) ∧
      classify (split (Written.render ls)) =
        .ok [.word "say", .binary .ge, .literal (.text "in ( 1")] ∧
      [.word "say", .binary .ge, .literal (.text "in ( 1")].filterMap Token.contents? =
        ls.filterMap Written.contents? := by
  intro say literal ls
  obtain ⟨hsplit, hapart, hcontents⟩ := split_render ls
  have hbefore : split (Written.render ls.dropLast) = ["say", ">="] := split_render_eq _
  have hafter : split (Written.render []) = [] := split_render_eq []
  have hclassifyBefore : classify ["say", ">="] = .ok [.word "say", .binary .ge] := by cbv
  have hwhole := hapart ls.dropLast "in ( 1" (by decide) [] rfl
  have hclassify : classify (split (Written.render ls)) =
      .ok [.word "say", .binary .ge, .literal (.text "in ( 1")] := by
    rw [hwhole, hbefore, hafter, hclassifyBefore, following, classifyAfter]
    rfl
  exact ⟨hsplit, hwhole, hclassify, hcontents _ hclassify⟩

end Statute.Lexeme
