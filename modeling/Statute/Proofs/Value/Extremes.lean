import Mathlib
import Statute.Extension
import Statute.Proofs.Decimal.Rounding

/-!
# The least and the greatest of integers

The least and the greatest of values are found by comparing doubles, while two integers compare as
integers. Since the doubles of integers are in the order of what is left of the integers, the two
orders agree, except that integers with one double count as equal in the first of them: of these
the one that comes first is chosen, be it the least or not. This takes an integer greater than
`2 ^ 53` in size.
-/

namespace Statute

open Binary (nearestTo roundedInt)

/-- The first of some integers that have the least key. -/
def Leads (key : Int64 → Int) (is : List Int64) (r : Int64) : Prop :=
  ∃ before after, is = before ++ r :: after ∧ (∀ v ∈ before, key r < key v) ∧
    ∀ v ∈ after, key r ≤ key v

namespace Leads

variable {key : Int64 → Int} {is : List Int64} {b r v : Int64}

theorem single (key : Int64 → Int) (b : Int64) : Leads key [b] b :=
  ⟨[], [], rfl, by simp, by simp⟩

theorem mem (h : Leads key is r) : r ∈ is := by
  obtain ⟨before, after, rfl, -, -⟩ := h
  simp

theorem le (h : Leads key is r) (hv : v ∈ is) : key r ≤ key v := by
  obtain ⟨before, after, rfl, hbefore, hafter⟩ := h
  rcases List.mem_append.mp hv with hv | hv
  · exact (hbefore v hv).le
  · rcases List.mem_cons.mp hv with rfl | hv
    · exact le_rfl
    · exact hafter v hv

/-- One more integer at the front, which the one after it beats. -/
theorem cons (h : Leads key (v :: is) r) (hlt : key v < key b) : Leads key (b :: v :: is) r := by
  have hr : key r < key b := (h.le List.mem_cons_self).trans_lt hlt
  obtain ⟨before, after, heq, hbefore, hafter⟩ := h
  exact ⟨b :: before, after, by rw [heq, List.cons_append], by simpa using ⟨hr, hbefore⟩, hafter⟩

/-- One more integer in the second place, which does not beat the one at the front. -/
theorem insert (h : Leads key (b :: is) r) (hle : key b ≤ key v) : Leads key (b :: v :: is) r := by
  obtain ⟨before, after, heq, hbefore, hafter⟩ := h
  cases before with
  | nil =>
      obtain ⟨rfl, rfl⟩ := List.cons.inj heq
      exact ⟨[], v :: is, rfl, by simp, by simpa using ⟨hle, hafter⟩⟩
  | cons c before =>
      obtain ⟨rfl, rfl⟩ := List.cons.inj heq
      have hv : key r < key v := (hbefore b List.mem_cons_self).trans_le hle
      exact ⟨b :: v :: before, after, rfl, by simp_all, hafter⟩

end Leads

namespace Primitive

variable (name : String) (better : Float → Float → Bool) (key : Int64 → Int)

/-- The search for an extreme finds the first integer with the least key, if of two integers the
one with the lesser key has the better double. -/
theorem extremeFrom_leads
    (hbetter : ∀ i j, better (nearestTo i) (nearestTo j) = true ↔ key i < key j)
    (b : Int64) (is : List Int64) :
    ∃ r, extremeFrom name better (.int b) (nearestTo b) (is.map .int) = .ok (.int r) ∧
      Leads key (b :: is) r := by
  induction is generalizing b with
  | nil => exact ⟨b, rfl, .single key b⟩
  | cons v is ih =>
      rw [List.map_cons, extremeFrom]
      simp only [numeric, Value.toFloat?, bind, Except.bind]
      split
      · next hv =>
          obtain ⟨r, hr, hleads⟩ := ih v
          exact ⟨r, hr, hleads.cons ((hbetter v b).mp hv)⟩
      · next hv =>
          obtain ⟨r, hr, hleads⟩ := ih b
          exact ⟨r, hr, hleads.insert (not_lt.mp fun hlt => hv ((hbetter v b).mpr hlt))⟩

theorem choices_ints {is : List Int64} {args : List Value}
    (hargs : args = is.map .int ∨ args = [.list (is.map .int)]) : choices args = is.map .int := by
  rcases hargs with rfl | rfl
  · cases is <;> rfl
  · rfl

theorem extreme_leads
    (hbetter : ∀ i j, better (nearestTo i) (nearestTo j) = true ↔ key i < key j)
    {is : List Int64} {args : List Value} (hne : is ≠ [])
    (hargs : args = is.map .int ∨ args = [.list (is.map .int)]) :
    ∃ r, extreme name better args = .ok (.int r) ∧ Leads key is r := by
  obtain ⟨b, is, rfl⟩ := List.exists_cons_of_ne_nil hne
  obtain ⟨r, hr, hleads⟩ := extremeFrom_leads name better key hbetter b is
  refine ⟨r, ?_, hleads⟩
  rw [extreme, choices_ints hargs]
  exact hr

end Primitive

/-- An integer that is the first of some integers with its double, and that stands in the order `o`
to all of them but those with its double. -/
structure Extreme (h : Heap) (o : Operator) (is : List Int64) (r : Int64) : Prop where
  mem : r ∈ is
  first : ∃ before after, is = before ++ r :: after ∧
    ∀ v ∈ before, (nearestTo v == nearestTo r) = false
  stands : ∀ v ∈ is, h.binary o (.int r) (.int v) = .ok (.bool true) ∨
    (nearestTo v == nearestTo r) = true ∧ 2 ^ 53 < max v.toInt.natAbs r.toInt.natAbs

theorem binary_le (h : Heap) {i j : Int64} (hle : i.toInt ≤ j.toInt) :
    h.binary .le (.int i) (.int j) = .ok (.bool true) := by
  have hholds : holds .le (Ord.compare i.toInt j.toInt) = true := by
    simpa [holds, compare_gt_iff_gt] using hle
  exact congrArg (fun b => Except.ok (Value.bool b)) hholds

theorem binary_ge (h : Heap) {i j : Int64} (hge : j.toInt ≤ i.toInt) :
    h.binary .ge (.int i) (.int j) = .ok (.bool true) := by
  have hholds : holds .ge (Ord.compare i.toInt j.toInt) = true := by
    simpa [holds, compare_lt_iff_lt] using hge
  exact congrArg (fun b => Except.ok (Value.bool b)) hholds

/-- Different integers have one double only if one of them is greater than `2 ^ 53` in size. -/
theorem lt_max_of_roundedInt_eq {a b : Int} (h : roundedInt a = roundedInt b) (hne : a ≠ b) :
    2 ^ 53 < max a.natAbs b.natAbs := by
  by_contra hle
  obtain ⟨ha, hb⟩ := max_le_iff.mp (not_lt.mp hle)
  rw [Binary.roundedInt_of_natAbs_le ha, Binary.roundedInt_of_natAbs_le hb] at h
  exact hne h

theorem Leads.extreme {key : Int64 → Int} {o : Operator} {h : Heap}
    (hkey : ∀ i j, (nearestTo i == nearestTo j) = true ↔ key i = key j)
    (horder : ∀ i j, key i ≤ key j → h.binary o (.int i) (.int j) = .ok (.bool true) ∨
      key i = key j ∧ i.toInt ≠ j.toInt)
    {is : List Int64} {r : Int64} (hleads : Leads key is r) : Extreme h o is r where
  mem := hleads.mem
  first := by
    obtain ⟨before, after, heq, hbefore, -⟩ := hleads
    refine ⟨before, after, heq, fun v hv => ?_⟩
    rw [Bool.eq_false_iff, ne_eq, hkey]
    exact (hbefore v hv).ne'
  stands v hv := by
    refine (horder r v (hleads.le hv)).imp_right fun ⟨hsame, hne⟩ => ?_
    have hdouble : (nearestTo v == nearestTo r) = true := (hkey v r).mpr hsame.symm
    exact ⟨hdouble, lt_max_of_roundedInt_eq (Binary.nearestTo_beq.mp hdouble) hne.symm⟩

/-- The least and the greatest of integers, given one by one or as a list, are among them and stand
in order to all of them, except for different integers with one double: they may be out of order
where one of them is greater than `2 ^ 53` in size, and then it is the first that is chosen. -/
theorem extremes_in_order (h : Heap) {is : List Int64} {args : List Value} (hne : is ≠ [])
    (hargs : args = is.map .int ∨ args = [.list (is.map .int)]) :
    (∃ r, Primitive.min.call h args = .ok (.int r) ∧ Extreme h .le is r) ∧
      ∃ r, Primitive.max.call h args = .ok (.int r) ∧ Extreme h .ge is r := by
  constructor
  · obtain ⟨r, hr, hleads⟩ := Primitive.extreme_leads "min" (fun y x => y < x)
      (fun i => roundedInt i.toInt) (fun i j => by simp [Binary.nearestTo_lt]) hne hargs
    refine ⟨r, hr, hleads.extreme (fun i j => Binary.nearestTo_beq) fun i j hle => ?_⟩
    rcases le_or_gt i.toInt j.toInt with hij | hji
    · exact .inl (binary_le h hij)
    · exact .inr ⟨hle.antisymm (Binary.roundedInt_mono hji.le), hji.ne'⟩
  · obtain ⟨r, hr, hleads⟩ := Primitive.extreme_leads "max" (fun y x => x < y)
      (fun i => -roundedInt i.toInt) (fun i j => by simp [Binary.nearestTo_lt]) hne hargs
    refine ⟨r, hr, hleads.extreme (fun i j => by simp [Binary.nearestTo_beq]) fun i j hle => ?_⟩
    rcases le_or_gt j.toInt i.toInt with hji | hij
    · exact .inl (binary_ge h hji)
    · exact .inr ⟨hle.antisymm (neg_le_neg (Binary.roundedInt_mono hij.le)), hij.ne⟩

/-- The least and the greatest of the items of a list. -/
theorem extremes_in_order_list :
    (∃ r, Primitive.min.call .empty [.list [.int 3, .int (-7), .int 2]] = .ok (.int r) ∧
        Extreme .empty .le [3, -7, 2] r) ∧
      ∃ r, Primitive.max.call .empty [.list [.int 3, .int (-7), .int 2]] = .ok (.int r) ∧
        Extreme .empty .ge [3, -7, 2] r :=
  extremes_in_order .empty (by decide) (.inr rfl)

/-- The integer after `2 ^ 53` becomes the same double as `2 ^ 53`, so it can be chosen as the least
of the two. -/
theorem min_out_of_order :
    Primitive.min.call .empty [.int 9007199254740993, .int 9007199254740992] =
        .ok (.int 9007199254740993) ∧
      Heap.empty.binary .le (.int 9007199254740993) (.int 9007199254740992) =
        .ok (.bool false) :=
  ⟨rfl, rfl⟩

end Statute
