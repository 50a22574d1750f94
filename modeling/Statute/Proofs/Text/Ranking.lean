import Mathlib
import Statute.Text.Suggest

/-!
# Suggestions as a function of a set of names

The candidates for a suggestion come as a list, in any order and with repetitions. They are put in
order by distance and name, and only neighbours are compared for repetitions. Since a name has one
distance, this takes all repetitions out, so what is suggested are the first three of the set of
near names.
-/

namespace List

variable {α : Type*} {r : α → α → Bool}

theorem eraseRepsBy_loop_eq (a : α) (l acc : List α) :
    eraseRepsBy.loop r a l acc = acc.reverse ++ l.destutter' (fun a b => r a b = false) a := by
  induction l generalizing a acc with
  | nil => simp [eraseRepsBy.loop]
  | cons b l ih =>
      rw [eraseRepsBy.loop, destutter'_cons]
      cases r a b with
      | true => exact ih a acc
      | false => simp [ih b (a :: acc)]

theorem eraseRepsBy_eq_destutter (r : α → α → Bool) (l : List α) :
    l.eraseRepsBy r = l.destutter fun a b => r a b = false := by
  cases l with
  | nil => rfl
  | cons a l => exact eraseRepsBy_loop_eq a l []

end List

namespace Statute.Text

variable {d : String → String → ℕ} {input name : String} {candidates : List String}

/-! ### The specification -/

/-- Whether a name may be suggested for `input`: it is another one, and it is at most two or half
the length of `input` away, or one of the two begins with the other. -/
def Near (d : String → String → ℕ) (input name : String) : Prop :=
  name ≠ input ∧ (d input name ≤ max 2 (input.length / 2) ∨ input.toList <+: name.toList ∨
    name.toList <+: input.toList)

instance : DecidablePred (Near d input) := fun _ => inferInstanceAs (Decidable (_ ∧ _))

/-- The near ones of some names, with their distances, in order of distance and name. -/
def ranking (d : String → String → ℕ) (input : String) (names : Finset String) :
    List (ℕ ×ₗ String) :=
  ((names.filter (Near d input)).image fun name => toLex (d input name, name)).sort

def nearest (d : String → String → ℕ) (input : String) (names : Finset String) : List String :=
  ((ranking d input names).take 3).map fun p => (ofLex p).2

/-- The nearest of the known names, or the nearest words of the language if no known one is near. -/
def offered (d : String → String → ℕ) (input : String) (known : Finset String) : List String :=
  match nearest d input known with
  | [] => nearest d input keywords.toFinset
  | found => found

/-! ### Candidates in order -/

theorem closerEq_iff {a b : ℕ × String} : closerEq a b = true ↔ toLex a ≤ toLex b := by
  simp [closerEq, Prod.Lex.le_iff]

theorem pairwise_mergeSort_closerEq (l : List (ℕ × String)) :
    ((l.mergeSort closerEq).map toLex).Pairwise (· ≤ ·) := by
  refine List.pairwise_map.mpr ?_
  refine (List.pairwise_mergeSort (fun a b c => ?_) (fun a b => ?_) l).imp closerEq_iff.mp
  · simp only [closerEq_iff]
    exact le_trans
  · simp only [Bool.or_eq_true, closerEq_iff]
    exact le_total _ _

theorem isClose_iff {c : ℕ × String} : isClose input c = true ↔
    c.1 ≤ max 2 (input.length / 2) ∨ input.toList <+: c.2.toList ∨ c.2.toList <+: input.toList := by
  simp only [isClose, String.isPrefixOf, Bool.or_eq_true, decide_eq_true_eq,
    String.startsWith_string_iff, or_assoc]
  rfl

/-- The close candidates are the near names, each with its own distance. -/
theorem mem_close {c : ℕ × String} : c ∈ (scores d input candidates).filter (isClose input) ↔
    c.1 = d input c.2 ∧ c.2 ∈ candidates ∧ Near d input c.2 := by
  obtain ⟨n, name⟩ := c
  simp only [scores, isClose_iff, Near, List.mem_filter, List.mem_map, Prod.mk.injEq,
    decide_eq_true_eq]
  constructor
  · rintro ⟨⟨_, ⟨hmem, hne⟩, rfl, rfl⟩, hclose⟩
    exact ⟨rfl, hmem, hne, hclose⟩
  · rintro ⟨rfl, hmem, hne, hclose⟩
    exact ⟨⟨name, ⟨hmem, hne⟩, rfl, rfl⟩, hclose⟩

/-- Where a name has one score, taking out neighbours of one name takes out all repetitions. -/
theorem map_eraseRepsBy_eq_dedup {l : List (ℕ × String)}
    (hscore : ∀ a ∈ l, a.1 = d input a.2) (hsorted : (l.map toLex).Pairwise (· ≤ ·)) :
    (l.eraseRepsBy fun a b => a.2 = b.2).map toLex = (l.map toLex).dedup := by
  rw [List.eraseRepsBy_eq_destutter, ← hsorted.destutter_eq_dedup]
  refine List.map_destutter fun a ha b hb => ?_
  have hsame : a.2 = b.2 ↔ a = b := by
    refine ⟨fun heq => Prod.ext ?_ heq, fun heq => heq ▸ rfl⟩
    rw [hscore a ha, hscore b hb, heq]
  simpa using not_congr hsame

/-- The candidates in order, after repetitions of neighbours have been taken out. -/
theorem map_ranked_eq_ranking (d : String → String → ℕ) (input : String)
    (candidates : List String) :
    ((((scores d input candidates).filter (isClose input)).mergeSort closerEq).eraseRepsBy
        fun a b => a.2 = b.2).map toLex = ranking d input candidates.toFinset := by
  have hmem : ∀ c, c ∈ ((scores d input candidates).filter (isClose input)).mergeSort closerEq ↔
      c.1 = d input c.2 ∧ c.2 ∈ candidates ∧ Near d input c.2 := fun c =>
    (List.mergeSort_perm _ _).mem_iff.trans mem_close
  generalize hl : ((scores d input candidates).filter (isClose input)).mergeSort closerEq = l at *
  have hsorted : (l.map toLex).Pairwise (· ≤ ·) := hl ▸ pairwise_mergeSort_closerEq _
  rw [map_eraseRepsBy_eq_dedup (fun a ha => ((hmem a).mp ha).1) hsorted,
    ← (List.toFinset_sort _ (List.nodup_dedup _)).mpr (hsorted.sublist (List.dedup_sublist _)),
    ranking]
  congr 1
  ext p
  simp only [List.mem_toFinset, List.mem_dedup, List.mem_map, hmem, Finset.mem_image,
    Finset.mem_filter]
  constructor
  · rintro ⟨c, ⟨hscore, hc⟩, rfl⟩
    exact ⟨c.2, hc, by rw [← hscore]⟩
  · rintro ⟨name, hname, rfl⟩
    exact ⟨(d input name, name), ⟨rfl, hname⟩, rfl⟩

/-- Whatever the order of the candidates and however often they are repeated, the first three of the
set of near names are suggested. -/
theorem closestBy_eq_nearest (d : String → String → ℕ) (input : String) (candidates : List String) :
    closestBy d input candidates = nearest d input candidates.toFinset := by
  rw [nearest, ← map_ranked_eq_ranking, ← List.map_take, List.map_map]
  rfl

example : closest "totak" ["totals", "total", "tota", "total"] = ["tota", "total", "totals"] := by
  cbv

theorem closestBy_congr {candidates' : List String}
    (hsame : ∀ c, c ∈ candidates' ↔ c ∈ candidates) :
    closestBy d input candidates' = closestBy d input candidates := by
  rw [closestBy_eq_nearest, closestBy_eq_nearest, List.toFinset.ext hsame]

/-- No name comes twice: of two names in the ranking one would have to have two distances. -/
theorem nodup_nearest (d : String → String → ℕ) (input : String) (names : Finset String) :
    (nearest d input names).Nodup := by
  have hscore : ∀ p ∈ ranking d input names, (ofLex p).1 = d input (ofLex p).2 := by
    intro p hp
    obtain ⟨name, -, rfl⟩ := Finset.mem_image.mp ((Finset.mem_sort _).mp hp)
    rfl
  refine List.Nodup.map_on (fun p hp q hq heq => ofLex.injective (Prod.ext ?_ heq))
    ((Finset.sort_nodup _ _).sublist (List.take_sublist _ _))
  rw [hscore p (List.mem_of_mem_take hp), hscore q (List.mem_of_mem_take hq), heq]

theorem suggestBy_eq_offered (d : String → String → ℕ) (input : String) (visible : List String) :
    suggestBy d input visible = offered d input visible.toFinset := by
  rw [suggestBy, closestBy_eq_nearest, closestBy_eq_nearest]
  rfl

theorem nodup_offered (d : String → String → ℕ) (input : String) (known : Finset String) :
    (offered d input known).Nodup := by
  unfold offered
  split
  · exact nodup_nearest _ _ _
  · exact nodup_nearest _ _ _

/-! ### Candidates that are the names of a set -/

variable {known : Finset String}

theorem toFinset_of_known (hknown : ∀ n, n ∈ known ↔ n ∈ candidates) :
    candidates.toFinset = known :=
  Finset.ext fun n => List.mem_toFinset.trans (hknown n).symm

theorem closestBy_of_known (hknown : ∀ n, n ∈ known ↔ n ∈ candidates) :
    closestBy d input candidates = nearest d input known := by
  rw [closestBy_eq_nearest, toFinset_of_known hknown]

theorem suggestBy_of_known (hknown : ∀ n, n ∈ known ↔ n ∈ candidates) :
    suggestBy d input candidates = offered d input known := by
  rw [suggestBy_eq_offered, toFinset_of_known hknown]

end Statute.Text
