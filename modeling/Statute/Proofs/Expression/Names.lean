import Statute.Proofs.Expression.Rendering

/-!
# Names as raw tokens and as text

A raw token is a name if it is made of letters, numerals and underscores in the sense of Unicode,
and no numeral comes first. The text form knows only the letters and digits below 128, and cuts any
other character off as a token of its own. So a name survives as one token if all its characters are
below 128, or if it is a single character. Any other name comes apart, although nothing of it gets
lost.
-/

namespace Statute

namespace Token

def isNameStart (c : Char) : Bool :=
  Text.isLetter c || c = '_'

/-- A character that a name may have after its first one. -/
def isNamePart (c : Char) : Bool :=
  Text.isLetter c || Text.isNumeral c || c = '_'

variable {raw name : String}

theorem isNamePart_of_isNameStart {c : Char} (hc : isNameStart c = true) : isNamePart c = true := by
  simp only [isNameStart, isNamePart, Bool.or_eq_true] at hc ⊢
  exact hc.imp_left .inl

theorem isWord_iff :
    isWord raw = true ↔ ∃ c cs, raw.toList = c :: cs ∧ isNameStart c = true ∧
      ∀ d ∈ cs, isNamePart d = true := by
  unfold isWord
  cases raw.toList with
  | nil => simp
  | cons c cs =>
      rw [Bool.and_eq_true, List.all_eq_true]
      constructor
      · rintro ⟨hc, hcs⟩
        exact ⟨c, cs, rfl, hc, hcs⟩
      · rintro ⟨_, _, ⟨⟩, hc, hcs⟩
        exact ⟨hc, hcs⟩

theorem ofPlain_eq_word (h : ofPlain raw = .ok (.word name)) : name = raw ∧ isWord raw = true := by
  unfold ofPlain at h
  split at h
  · simp at h
  · split at h
    · split at h <;> simp at h
    · split at h
      · next hword =>
          simp only [Except.ok.injEq, word.injEq] at h
          exact ⟨h.symm, hword⟩
      · contradiction

theorem single_eq_word {operandNext : Bool} (h : single operandNext raw = .ok (.word name)) :
    name = raw ∧ isWord raw = true := by
  by_cases hplain : ofPlain raw = .ok (.word name)
  · exact ofPlain_eq_word hplain
  -- All other branches give tokens that are no names.
  · cases operandNext <;>
    · simp only [single, ite_eq_iff, Except.ok.injEq, reduceCtorEq, and_false, false_or, hplain,
        Bool.false_eq_true, if_false, if_true] at h

theorem next_eq_word {operandNext : Bool} {rest after : List String}
    (h : next operandNext raw rest = .ok (.word name, after)) : name = raw ∧ isWord raw = true := by
  unfold next at h
  split at h
  · unfold textLiteral at h
    split at h
    · contradiction
    · cases Except.ok.inj h
  · split at h
    · unfold scheduling at h
      split at h
      · contradiction
      · split at h
        · cases Except.ok.inj h
        · contradiction
    · cases hsingle : single operandNext raw with
      | error fault =>
          rw [hsingle] at h
          contradiction
      | ok t =>
          rw [hsingle] at h
          obtain ⟨rfl, -⟩ := Prod.mk.inj (Except.ok.inj h)
          exact single_eq_word hsingle

/-- A raw token that is classified as a name, wherever it stands, is a name, and it is called what
it is written. -/
theorem classifyAfter_eq_word {previous : Option Token} {rest : List String} {ts : List Token}
    (h : classifyAfter previous (raw :: rest) = .ok (.word name :: ts)) :
    name = raw ∧ isWord raw = true := by
  cases hnext : next (previous.all wantsOperand) raw rest with
  | error fault =>
      rw [classifyAfter_cons_of_error hnext] at h
      contradiction
  | ok found =>
      obtain ⟨t, after⟩ := found
      rw [classifyAfter_cons t hnext] at h
      cases hrest : classifyAfter (some t) after with
      | error fault =>
          rw [hrest] at h
          contradiction
      | ok us =>
          rw [hrest] at h
          obtain rfl : t = .word name := List.head_eq_of_cons_eq (Except.ok.inj h)
          exact next_eq_word hnext

theorem classify_singleton {t : Token} (h : next true raw [] = .ok (t, [])) :
    classify [raw] = .ok [t] := by
  have hcons : classify [raw] = (classifyAfter (some t) []).map (t :: ·) := classifyAfter_cons t h
  rw [hcons, classifyAfter]
  rfl

end Token

namespace Lexeme

open Token (isNameStart isNamePart isNamePart_of_isNameStart isWord_iff)

variable {c : Char} {cs : List Char}

/-! ## Characters below 128 -/

theorem of_toNat_lt {P : Char → Prop} (h : ∀ n < 128, P (Char.ofNat n)) (hc : c.toNat < 128) :
    P c := by
  rw [← Char.ofNat_toNat c]
  exact h c.toNat hc

theorem isWordStart_of_isNameStart (hc : c.toNat < 128) :
    isNameStart c = true → isWordStart c = true :=
  of_toNat_lt (P := fun c => isNameStart c = true → isWordStart c = true) (by decide +kernel) hc

theorem isWordPart_of_isNamePart (hc : c.toNat < 128) :
    isNamePart c = true → isWordPart c = true :=
  of_toNat_lt (P := fun c => isNamePart c = true → isWordPart c = true) (by decide +kernel) hc

theorem toNat_lt_of_isWordPart (hc : isWordPart c = true) : c.toNat < 128 := by
  rcases Bool.or_eq_true_iff.mp hc with halphanum | hunderscore
  · rcases Bool.or_eq_true_iff.mp halphanum with hletter | hdigit
    · rcases Bool.or_eq_true_iff.mp hletter with hupper | hlower
      · have hZ : c.toNat ≤ 90 := UInt32.le_iff_toNat_le.mp (of_decide_eq_true hupper).2
        omega
      · have hz : c.toNat ≤ 122 :=
          UInt32.le_iff_toNat_le.mp (of_decide_eq_true (Bool.and_eq_true_iff.mp hlower).2)
        omega
    · have hnine : c.toNat ≤ 57 := (Char.isDigit_iff_toNat.mp hdigit).2
      omega
  · obtain rfl := of_decide_eq_true hunderscore
    decide

theorem isWordPart_iff (hc : isNamePart c = true) : isWordPart c = true ↔ c.toNat < 128 :=
  ⟨toNat_lt_of_isWordPart, fun hlt => isWordPart_of_isNamePart hlt hc⟩

/-- A name holds neither blanks nor quotes. -/
theorem not_gap_of_isNamePart (hc : isNamePart c = true) : isGap c = false ∧ c ≠ '"' := by
  by_cases hlt : c.toNat < 128
  · exact not_gap_of_isWordPart (isWordPart_of_isNamePart hlt hc)
  · refine ⟨?_, by rintro rfl; exact hlt (by decide)⟩
    simp only [isGap, Bool.or_eq_false_iff, decide_eq_false_iff_not]
    refine ⟨⟨⟨?_, ?_⟩, ?_⟩, ?_⟩ <;> rintro rfl <;> exact hlt (by decide)

/-! ## Cutting a name -/

/-- A text without blanks and quotes at its front is one token if nothing is left after the first
one. -/
theorem splitChars_eq_singleton (hgap : isGap c = false) (hquote : c ≠ '"') :
    splitChars (c :: cs) = [String.ofList (c :: cs)] ↔ (next c cs).2 = [] := by
  obtain ⟨taken, htaken, htokens, -, -⟩ := next_of_ne_quote hgap hquote cs
  rw [splitChars_cons, if_neg (by simp [hgap]), htokens, List.singleton_append, List.cons.injEq]
  constructor
  · rintro ⟨heq, -⟩
    rw [String.ofList_injective heq] at htaken
    simpa using htaken
  · intro hrest
    rw [hrest, List.append_nil] at htaken
    rw [hrest, htaken]
    exact ⟨rfl, splitChars_nil⟩

theorem dropWhile_eq_nil_iff_lt (hcs : ∀ d ∈ cs, isNamePart d = true) :
    cs.dropWhile isWordPart = [] ↔ ∀ d ∈ cs, d.toNat < 128 := by
  rw [List.dropWhile_eq_nil_iff]
  exact forall₂_congr fun d hd => isWordPart_iff (hcs d hd)

/-- A letter from 128 on is cut off by itself. -/
theorem next_of_isNameStart (hc : isNameStart c = true) (hlarge : ¬c.toNat < 128) :
    next c cs = ([c.toString], cs) := by
  have hword : ¬isWordPart c = true := fun h => hlarge (toNat_lt_of_isWordPart h)
  have hsign : isSign c = true := by
    have hdigit : c.isDigit = false := by
      rw [Bool.eq_false_iff]
      exact fun h => hword (by simp [isWordPart, Char.isAlphanum, h])
    have hstart : isWordStart c = false := by
      rw [Bool.eq_false_iff]
      exact fun h => hword (isWordPart_of_isWordStart h)
    simp [isSign, hdigit, hstart, (not_gap_of_isNamePart (isNamePart_of_isNameStart hc)).2]
  refine next_of_not_isDouble hsign fun d _ => ?_
  rw [Bool.eq_false_iff]
  intro hdouble
  simp only [isDouble, Bool.and_eq_true, Bool.or_eq_true, decide_eq_true_eq] at hdouble
  obtain ⟨-, (rfl | rfl) | rfl⟩ := hdouble <;> exact hlarge (by decide)

theorem next_snd_eq_nil_iff (hc : isNameStart c = true) (hcs : ∀ d ∈ cs, isNamePart d = true) :
    (next c cs).2 = [] ↔ cs = [] ∨ ∀ d ∈ c :: cs, d.toNat < 128 := by
  by_cases hlt : c.toNat < 128
  · have hstart := isWordStart_of_isNameStart hlt hc
    rw [next_of_isWordStart (not_isDigit_of_isWordStart hstart) hstart,
      dropWhile_eq_nil_iff_lt hcs, List.forall_mem_cons]
    constructor
    · exact fun hall => .inr ⟨hlt, hall⟩
    · rintro (rfl | ⟨-, hall⟩)
      · simp
      · exact hall
  · rw [next_of_isNameStart hc hlt, List.forall_mem_cons]
    exact ⟨.inl, fun h => h.resolve_right fun hall => hlt hall.1⟩

/-- A raw token that is classified as a name, wherever it stands, is cut into tokens that are
together the name. It is one token if it is a single character or all its characters are below 128,
and several otherwise. -/
theorem split_name {previous : Option Token} {raw name : String} {rest : List String}
    {ts : List Token} (h : Token.classifyAfter previous (raw :: rest) = .ok (.word name :: ts)) :
    name = raw ∧ String.join (split raw) = raw ∧
      (split raw = [raw] ↔ raw.length = 1 ∨ ∀ c ∈ raw.toList, c.toNat < 128) := by
  obtain ⟨rfl, hword⟩ := Token.classifyAfter_eq_word h
  obtain ⟨c, cs, hraw, hc, hcs⟩ := isWord_iff.mp hword
  have hparts : ∀ d ∈ c :: cs, isNamePart d = true :=
    List.forall_mem_cons.mpr ⟨isNamePart_of_isNameStart hc, hcs⟩
  obtain ⟨hgap, hquote⟩ := not_gap_of_isNamePart (isNamePart_of_isNameStart hc)
  obtain rfl : name = String.ofList (c :: cs) := by rw [← hraw, String.ofList_toList]
  refine ⟨rfl, ?_, ?_⟩
  · have hnone : '"' ∉ c :: cs := fun hmem => (not_gap_of_isNamePart (hparts _ hmem)).2 rfl
    have hkept : withoutGaps (c :: cs) = c :: cs :=
      List.filter_eq_self.mpr fun d hd => by simp [(not_gap_of_isNamePart (hparts d hd)).1]
    have hjoin := (cut_splitChars (c :: cs)).join
    rw [splitOn_of_notMem hnone, kept, hkept] at hjoin
    rw [split, String.toList_ofList, ← String.toList_inj, hjoin, String.toList_ofList]
  · rw [split, String.toList_ofList, splitChars_eq_singleton hgap hquote,
      next_snd_eq_nil_iff hc hcs]
    simp

/-- A name without other letters is one token, and so is one of these by itself. -/
theorem split_name_below_128 :
    Token.classify ["net_2"] = .ok [.word "net_2"] ∧ split "net_2" = ["net_2"] ∧
      Token.classify ["é"] = .ok [.word "é"] ∧ split "é" = ["é"] := by
  have hnet : Token.classify ["net_2"] = .ok [.word "net_2"] := Token.classify_singleton rfl
  have hletter : Token.classify ["é"] = .ok [.word "é"] := Token.classify_singleton rfl
  exact ⟨hnet, (split_name hnet).2.2.mpr (.inr (by simp)), hletter,
    (split_name hletter).2.2.mpr (.inl (by decide))⟩

/-- A name of the token list that the text form takes for four tokens. -/
theorem split_name_umlaut :
    Token.classify ["größe"] = .ok [.word "größe"] ∧ split "größe" = ["gr", "ö", "ß", "e"] :=
  ⟨Token.classify_singleton rfl, by decide +kernel⟩

end Lexeme

end Statute
