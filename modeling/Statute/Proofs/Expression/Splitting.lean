import Statute.Proofs.Expression.Grammar

/-!
# Splitting loses nothing

The quotes of a text pair up from left to right, so the text falls into pieces at its quotes: the
first piece is outside of string literals, the second one inside, and so on. Only if the number of
quotes is odd, the last one has no partner, and the piece after it is outside like the one before.

`Cut` says how the tokens of a text follow these pieces. What is inside of a string literal is one
token between two quotes. What is outside comes apart into tokens that hold neither quotes nor
blanks, and that are together what is left without the blanks.
-/

namespace Statute.Lexeme

def withoutGaps (cs : List Char) : List Char :=
  cs.filter fun c => !isGap c

/-- What is left of the pieces of a text, put together with the quotes between them, when the blanks
outside of string literals are taken away. -/
def kept : List (List Char) → List Char
  | [] => []
  | [outside] => withoutGaps outside
  | [outside, after] => withoutGaps outside ++ '"' :: withoutGaps after
  | outside :: inside :: rest => withoutGaps outside ++ '"' :: inside ++ '"' :: kept rest

/-- Tokens that a piece of text outside of string literals comes apart into. -/
structure Plain (cs : List Char) (ts : List String) : Prop where
  nonempty : ∀ t ∈ ts, t ≠ ""
  chars : ∀ t ∈ ts, ∀ c ∈ t.toList, isGap c = false ∧ c ≠ '"'
  join : (String.join ts).toList = withoutGaps cs

/-- How tokens follow the pieces of a text. -/
inductive Cut : List (List Char) → List String → Prop
  | outside {cs : List Char} {ts : List String} (hplain : Plain cs ts) : Cut [cs] ts
  /-- A quote without a partner is a token by itself. -/
  | unpaired {cs after : List Char} {ts us : List String} (hplain : Plain cs ts)
      (hafter : Plain after us) : Cut [cs, after] (ts ++ "\"" :: us)
  | text {cs inside : List Char} {rest : List (List Char)} {ts us : List String}
      (hplain : Plain cs ts) (hinside : '"' ∉ inside) (hrest : Cut rest us) :
      Cut (cs :: inside :: rest) (ts ++ "\"" :: String.ofList inside :: "\"" :: us)

variable {c : Char} {cs ds : List Char} {ts us : List String} {pieces : List (List Char)}

theorem Plain.nil : Plain [] [] :=
  ⟨by simp, by simp, rfl⟩

theorem Plain.append (h : Plain cs ts) (h' : Plain ds us) : Plain (cs ++ ds) (ts ++ us) where
  nonempty t ht := (List.mem_append.mp ht).elim (h.nonempty t) (h'.nonempty t)
  chars t ht := (List.mem_append.mp ht).elim (h.chars t) (h'.chars t)
  join := by
    rw [String.join_append, String.toList_append, h.join, h'.join, withoutGaps, withoutGaps,
      withoutGaps, List.filter_append]

theorem Plain.gap (hc : isGap c = true) : Plain [c] [] :=
  ⟨by simp, by simp, by simp [withoutGaps, hc]⟩

/-- A token outside of string literals. -/
theorem Plain.token (hne : cs ≠ []) (hcs : ∀ c ∈ cs, isGap c = false ∧ c ≠ '"') :
    Plain cs [String.ofList cs] where
  nonempty := by
    rintro t ht hempty
    obtain rfl := List.mem_singleton.mp ht
    exact hne (by simpa using congrArg String.toList hempty)
  chars := by simpa using hcs
  join := by
    have hall : ∀ c ∈ cs, (!isGap c) = true := fun c hc => by simp [(hcs c hc).1]
    simp [withoutGaps, List.filter_eq_self.mpr hall]

/-- More text before the first piece. -/
theorem Cut.extend (hplain : Plain ds us) (h : Cut (cs :: pieces) ts) :
    Cut ((ds ++ cs) :: pieces) (us ++ ts) := by
  cases h with
  | outside h => exact .outside (hplain.append h)
  | unpaired h hafter =>
      rw [← List.append_assoc]
      exact .unpaired (hplain.append h) hafter
  | text h hinside hrest =>
      rw [← List.append_assoc]
      exact .text (hplain.append h) hinside hrest

theorem Cut.join (h : Cut pieces ts) : (String.join ts).toList = kept pieces := by
  induction h with
  | outside hplain => exact hplain.join
  | unpaired hplain hafter => simp [kept, String.toList_append, hplain.join, hafter.join]
  | @text cs inside rest ts us hplain hinside hrest ih =>
      have hne : rest ≠ [] := by
        rintro rfl
        cases hrest
      obtain ⟨piece, rest, rfl⟩ := List.exists_cons_of_ne_nil hne
      simp [kept, String.toList_append, hplain.join, ih]

/-! ## One token -/

theorem not_gap_of_isDigit (hc : c.isDigit = true) : isGap c = false ∧ c ≠ '"' := by
  refine ⟨?_, by rintro rfl; contradiction⟩
  simp only [isGap, Bool.or_eq_false_iff, decide_eq_false_iff_not]
  refine ⟨⟨⟨?_, ?_⟩, ?_⟩, ?_⟩ <;> rintro rfl <;> contradiction

theorem not_gap_of_isWordPart (hc : isWordPart c = true) : isGap c = false ∧ c ≠ '"' := by
  refine ⟨?_, by rintro rfl; contradiction⟩
  simp only [isGap, Bool.or_eq_false_iff, decide_eq_false_iff_not]
  refine ⟨⟨⟨?_, ?_⟩, ?_⟩, ?_⟩ <;> rintro rfl <;> contradiction

theorem isWordPart_of_isWordStart (hc : isWordStart c = true) : isWordPart c = true := by
  simp only [isWordStart, Bool.or_eq_true] at hc
  rcases hc with hc | hc
  · simp [isWordPart, Char.isAlphanum, hc]
  · simp [isWordPart, hc]

theorem fraction_chars : ∀ c ∈ (fraction cs).1, isGap c = false ∧ c ≠ '"' := by
  unfold fraction
  split
  · split
    · next c cs hc =>
        simp only [List.mem_cons, forall_eq_or_imp]
        refine ⟨by decide, not_gap_of_isDigit hc, fun d hd => ?_⟩
        exact not_gap_of_isDigit (List.mem_takeWhile_imp hd)
    · simp
  · simp

/-- What begins outside of string literals with no blank and no quote is one token, which holds
neither. -/
theorem next_of_ne_quote (hgap : isGap c = false) (hquote : c ≠ '"') (cs : List Char) :
    ∃ taken, c :: cs = taken ++ (next c cs).2 ∧ (next c cs).1 = [String.ofList taken] ∧
      taken ≠ [] ∧ ∀ d ∈ taken, isGap d = false ∧ d ≠ '"' := by
  cases hdigit : c.isDigit with
  | true =>
      rw [next_of_isDigit hdigit]
      refine ⟨_, ?_, rfl, by simp, fun d hd => ?_⟩
      · rw [List.append_assoc, fraction_append, List.cons_append,
          List.takeWhile_append_dropWhile]
      · rcases List.mem_append.mp hd with hd | hd
        · rcases List.mem_cons.mp hd with rfl | hd
          · exact ⟨hgap, hquote⟩
          · exact not_gap_of_isDigit (List.mem_takeWhile_imp hd)
        · exact fraction_chars d hd
  | false =>
      cases hword : isWordStart c with
      | true =>
          rw [next_of_isWordStart hdigit hword]
          refine ⟨_, ?_, rfl, by simp, fun d hd => ?_⟩
          · rw [List.cons_append, List.takeWhile_append_dropWhile]
          · rcases List.mem_cons.mp hd with rfl | hd
            · exact ⟨hgap, hquote⟩
            · exact not_gap_of_isWordPart (List.mem_takeWhile_imp hd)
      | false =>
          have hsign : isSign c = true := by simp [isSign, hdigit, hword, hquote]
          by_cases hdouble : ∀ d ∈ cs.head?, isDouble c d = false
          · rw [next_of_not_isDouble hsign hdouble]
            exact ⟨[c], rfl, rfl, by simp, by simp [hgap, hquote]⟩
          · cases cs with
            | nil => exact absurd (by simp) hdouble
            | cons d cs =>
                have hd : isDouble c d = true := by simpa using hdouble
                rw [next_of_isDouble hsign hd]
                refine ⟨[c, d], rfl, rfl, by simp, ?_⟩
                obtain ⟨rfl, -⟩ : d = '=' ∧ _ := by simpa [isDouble] using hd
                simp only [List.mem_cons, List.not_mem_nil, or_false, forall_eq_or_imp, forall_eq]
                exact ⟨⟨hgap, hquote⟩, by decide⟩

/-! ## Whole texts -/

theorem splitOn_append (hds : '"' ∉ ds) (cs : List Char) :
    ∃ piece pieces, cs.splitOn '"' = piece :: pieces ∧
      (ds ++ cs).splitOn '"' = (ds ++ piece) :: pieces := by
  obtain ⟨piece, pieces, hpieces⟩ := List.exists_cons_of_ne_nil (List.splitOnP_ne_nil (· == '"') cs)
  refine ⟨piece, pieces, hpieces, ?_⟩
  induction ds with
  | nil => exact hpieces
  | cons d ds ih =>
      obtain ⟨hd, hds⟩ := not_or.mp (fun h => hds (List.mem_cons.mpr h))
      have hrest := ih hds
      unfold List.splitOn at hrest ⊢
      rw [List.cons_append, List.splitOnP_cons_eq_if_modifyHead, hrest]
      simp [Ne.symm hd]

theorem splitOn_of_notMem (hcs : '"' ∉ cs) : cs.splitOn '"' = [cs] :=
  List.splitOnP_eq_singleton fun c hc => by
    rw [beq_eq_false_iff_ne]
    rintro rfl
    exact hcs hc

theorem splitOn_quote (cs : List Char) : ('"' :: cs).splitOn '"' = [] :: cs.splitOn '"' := by
  simp [List.splitOn, List.splitOnP_cons_eq_if_modifyHead]

/-- A quote either has a partner, or no other quote comes after it. -/
theorem quote_cases (cs : List Char) :
    ('"' ∉ cs ∧ cs.dropWhile (· ≠ '"') = []) ∨
      ∃ inside rest, '"' ∉ inside ∧ cs = inside ++ '"' :: rest ∧
        cs.takeWhile (· ≠ '"') = inside ∧ cs.dropWhile (· ≠ '"') = '"' :: rest := by
  cases hpartner : cs.dropWhile (· ≠ '"') with
  | nil =>
      refine Or.inl ⟨fun hmem => ?_, rfl⟩
      simpa using List.dropWhile_eq_nil_iff.mp hpartner _ hmem
  | cons d rest =>
      obtain rfl : d = '"' := by simpa using head_of_dropWhile_eq_cons hpartner
      refine Or.inr ⟨_, rest, fun hmem => ?_, ?_, rfl, rfl⟩
      · simpa using List.mem_takeWhile_imp hmem
      · rw [← hpartner, List.takeWhile_append_dropWhile]

/-- The tokens of a text follow the pieces that it falls into at its quotes. -/
theorem cut_splitChars (cs : List Char) : Cut (cs.splitOn '"') (splitChars cs) := by
  match cs with
  | [] =>
      rw [List.splitOn_nil, splitChars_nil]
      exact .outside .nil
  | c :: cs =>
      have hextend : ∀ {taken rest : List Char} {ts : List String}, rest.length ≤ cs.length →
          Plain taken ts → (∀ d ∈ taken, d ≠ '"') →
          Cut ((taken ++ rest).splitOn '"') (ts ++ splitChars rest) := by
        intro taken rest ts hlength hplain htaken
        obtain ⟨piece, pieces, hrest, hall⟩ :=
          splitOn_append (fun hmem => htaken _ hmem rfl) rest
        have hcut := cut_splitChars rest
        rw [hrest] at hcut
        rw [hall]
        exact hcut.extend hplain
      rw [splitChars_cons]
      by_cases hgap : isGap c = true
      · rw [if_pos hgap]
        have hquote : ∀ d ∈ [c], d ≠ '"' := by
          rintro d hd rfl
          obtain rfl := List.mem_singleton.mp hd
          contradiction
        exact hextend (Nat.le_refl _) (.gap hgap) hquote
      · rw [if_neg hgap]
        by_cases hquote : c = '"'
        · subst hquote
          rw [splitOn_quote]
          rcases quote_cases cs with ⟨hcs, hnone⟩ | ⟨inside, rest, hinside, rfl, htake, hdrop⟩
          · have hcut := cut_splitChars cs
            rw [splitOn_of_notMem hcs] at hcut ⊢
            rw [next_quote_unpaired hnone]
            cases hcut with
            | outside hafter => exact .unpaired .nil hafter
          · obtain ⟨piece, pieces, hpieces, hsplit⟩ := splitOn_append hinside ('"' :: rest)
            rw [splitOn_quote] at hpieces
            obtain ⟨rfl, rfl⟩ := List.cons.inj hpieces
            rw [hsplit, List.append_nil, next_quote hdrop, htake]
            have hlength : rest.length < (inside ++ '"' :: rest).length + 1 := by
              simp
              omega
            exact .text .nil hinside (cut_splitChars rest)
        · obtain ⟨taken, htaken, htokens, hne, hchars⟩ :=
            next_of_ne_quote (by simpa using hgap) hquote cs
          rw [htaken, htokens]
          exact hextend (next_length_le c cs) (.token hne hchars) fun d hd => (hchars d hd).2
termination_by cs.length

/-- Every text is taken as a whole by the grammar of tokens, which hands out the tokens that it is
split into and nothing else. Put together, the tokens are the text without the blanks outside of
string literals. They follow the pieces between the quotes: a string literal is three tokens, its
contents between two quotes; a quote without a partner is one; all others are not empty and hold
neither blanks nor quotes. -/
theorem split_lossless (text : String) :
    (∀ res, Rule.wholeText.Gives text.toList res ↔ res = some (split text, [])) ∧
      (String.join (split text)).toList = kept (text.toList.splitOn '"') ∧
      Cut (text.toList.splitOn '"') (split text) := by
  have hgives := Rule.gives_wholeText text.toList
  have hcut := cut_splitChars text.toList
  refine ⟨fun res => ⟨fun h => h.unique hgives, ?_⟩, hcut.join, hcut⟩
  rintro rfl
  exact hgives

example : split "fine >=2.5 \"a  b\" \"c d" =
    ["fine", ">=", "2.5", "\"", "a  b", "\"", "\"", "c", "d"] := by
  decide +kernel

end Statute.Lexeme
