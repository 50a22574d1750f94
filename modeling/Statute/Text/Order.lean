/-!
# Texts in order

Texts are ordered by their code points. `sorted` is the ascending arrangement of a list of texts;
`distinct` keeps the first occurrence of each.
-/

namespace Statute.Text

/-- The texts of a list in ascending order. -/
def sorted (ss : List String) : List String :=
  ss.mergeSort fun a b => decide (a ≤ b)

/-- The texts of a list without repetitions, each at the place where it occurs first. -/
def distinct (ss : List String) : List String :=
  ss.eraseDups

theorem sorted_perm (ss : List String) : (sorted ss).Perm ss :=
  List.mergeSort_perm ss _

@[simp] theorem mem_sorted {s : String} {ss : List String} : s ∈ sorted ss ↔ s ∈ ss :=
  (sorted_perm ss).mem_iff

end Statute.Text
