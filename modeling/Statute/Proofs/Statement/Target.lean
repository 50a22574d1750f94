import Mathlib.Data.List.DropRight
import Statute.Statement.Target

/-!
# Reading and writing targets

A part of a target that has been read is clean: it is not empty, no blank stands at its ends and no
point in it. Reading gives clean parts only, and the written form of a target with clean parts reads
as that target again, so reading, writing and reading once more changes nothing.
-/

namespace Statute

namespace Text

/-- Trimming, with the end of the text trimmed by `List.rdropWhile`. -/
theorem trimChars_eq_rdropWhile (cs : List Char) :
    trimChars cs = (cs.dropWhile isBlank).rdropWhile isBlank := rfl

theorem trimChars_trimChars (cs : List Char) : trimChars (trimChars cs) = trimChars cs := by
  simp only [trimChars_eq_rdropWhile]
  -- the first character that is left is that of the text with only its start trimmed
  have hhead : ((cs.dropWhile isBlank).rdropWhile isBlank).dropWhile isBlank =
      (cs.dropWhile isBlank).rdropWhile isBlank := by
    obtain ⟨rest, hrest⟩ := List.rdropWhile_prefix isBlank (cs.dropWhile isBlank)
    cases h : (cs.dropWhile isBlank).rdropWhile isBlank with
    | nil => rfl
    | cons c kept =>
        rw [h, List.cons_append] at hrest
        have hc : isBlank c = false := by
          simpa [← hrest] using
            List.head_dropWhile_not isBlank (show cs.dropWhile isBlank ≠ [] by simp [← hrest])
        simp [hc]
  rw [hhead, List.rdropWhile_idempotent]

theorem mem_of_mem_trimChars {c : Char} {cs : List Char} (h : c ∈ trimChars cs) : c ∈ cs := by
  have hprefix := (List.rdropWhile_prefix isBlank (cs.dropWhile isBlank)).subset h
  exact (List.dropWhile_suffix isBlank).subset hprefix

theorem not_mem_of_mem_pieces {sep : Char} {cs p : List Char} (h : p ∈ pieces sep cs) :
    sep ∉ p := by
  induction cs generalizing p with
  | nil =>
      obtain rfl : p = [] := by simpa using h
      simp
  | cons c cs ih =>
      by_cases hc : c = sep
      · rw [pieces, if_pos hc, List.mem_cons] at h
        rcases h with rfl | h
        · simp
        · exact ih h
      · rw [pieces, if_neg hc] at h
        cases hp : pieces sep cs with
        | nil => exact absurd hp (pieces_ne_nil sep cs)
        | cons q qs =>
            simp only [hp, List.mem_cons] at h ih
            rcases h with rfl | h
            · simpa [Ne.symm hc] using ih (Or.inl rfl)
            · exact ih (Or.inr h)

/-- A text without separators is its only piece. -/
theorem pieces_of_not_mem {sep : Char} {cs : List Char} (h : sep ∉ cs) : pieces sep cs = [cs] := by
  induction cs with
  | nil => rfl
  | cons c cs ih =>
      simp only [List.mem_cons, not_or] at h
      rw [pieces, if_neg (Ne.symm h.1), ih h.2]

/-- The first separator ends the first piece. -/
theorem pieces_append_cons {sep : Char} {cs : List Char} (h : sep ∉ cs) (ds : List Char) :
    pieces sep (cs ++ sep :: ds) = cs :: pieces sep ds := by
  induction cs with
  | nil => simp [pieces]
  | cons c cs ih =>
      simp only [List.mem_cons, not_or] at h
      rw [List.cons_append, pieces, if_neg (Ne.symm h.1), ih h.2]

end Text

namespace Target

/-- A name or a field as a target that was read has it. -/
structure CleanPart (part : String) : Prop where
  nonempty : part ≠ ""
  trimmed : Text.trimChars part.toList = part.toList
  pointless : '.' ∉ part.toList

/-- Both parts of a target are as if they had been read. -/
structure Clean (t : Target) : Prop where
  name : CleanPart t.name
  field : ∀ f ∈ t.field, CleanPart f

/-- What reading makes of a piece is clean, unless nothing is left of it. -/
theorem cleanPart_of_mem_pieces {cs p : List Char} (h : p ∈ Text.pieces '.' cs)
    (hne : String.ofList (Text.trimChars p) ≠ "") :
    CleanPart (String.ofList (Text.trimChars p)) where
  nonempty := hne
  trimmed := by rw [String.toList_ofList, Text.trimChars_trimChars]
  pointless := by
    rw [String.toList_ofList]
    exact fun hmem => Text.not_mem_of_mem_pieces h (Text.mem_of_mem_trimChars hmem)

theorem clean_of_read? {raw : String} {t : Target} (h : read? raw = some t) : t.Clean := by
  unfold read? at h
  have hpart : ∀ part ∈ (Text.pieces '.' raw.toList).map
      fun p => String.ofList (Text.trimChars p), part ≠ "" → CleanPart part := by
    intro part hmem hne
    obtain ⟨p, hp, rfl⟩ := List.mem_map.mp hmem
    exact cleanPart_of_mem_pieces hp hne
  revert h hpart
  generalize (Text.pieces '.' raw.toList).map
    (fun p => String.ofList (Text.trimChars p)) = parts
  intro h hpart
  match parts with
  | [name] =>
      by_cases hname : name = ""
      · simp [hname] at h
      · obtain rfl : ⟨name, none⟩ = t := by simpa [hname] using h
        exact ⟨hpart name (by simp) hname, by simp⟩
  | [name, field] =>
      by_cases hempty : name = "" ∨ field = ""
      · simp [hempty] at h
      · obtain rfl : ⟨name, some field⟩ = t := by simpa [hempty] using h
        rw [not_or] at hempty
        refine ⟨hpart name (by simp) hempty.1, ?_⟩
        rintro f ⟨⟩
        exact hpart field (by simp) hempty.2
  | [] | _ :: _ :: _ :: _ => simp at h

/-- A clean target is read back from its written form. -/
theorem read?_display {t : Target} (h : t.Clean) : read? t.display = some t := by
  obtain ⟨name, field⟩ := t
  have hname : CleanPart name := h.name
  cases field with
  | none =>
      simp [read?, display, Text.pieces_of_not_mem hname.pointless, hname.trimmed, hname.nonempty]
  | some field =>
      have hfield : CleanPart field := h.field field rfl
      have hpieces : Text.pieces '.' (name ++ "." ++ field).toList =
          [name.toList, field.toList] := by
        simp [Text.pieces_append_cons hname.pointless, Text.pieces_of_not_mem hfield.pointless]
      rw [read?, display, hpieces]
      simp [hname.trimmed, hname.nonempty, hfield.trimmed, hfield.nonempty]

end Target

end Statute
