import Mathlib
import Statute.Machine.Evaluation
import Statute.Proofs.Decimal.Rounding

/-!
# Exact integers

Arithmetic on integers comes to the mathematical result if that fits 64 bits, and overflows if it
does not. A quotient is an integer only where it comes out even; that the divisor is held against
zero as a double makes no difference, since only zero becomes the double zero.

Powers are an exception. An exponent that does not fit 32 bits overflows whatever the base is, also
where the base is zero, one or minus one and all powers are in range.
-/

namespace Statute

/-- Whether a mathematical integer fits 64 bits. -/
def InRange (n : Int) : Prop :=
  minInt ≤ n ∧ n ≤ maxInt

instance (n : Int) : Decidable (InRange n) :=
  inferInstanceAs (Decidable (_ ∧ _))

theorem inRange_iff {n : Int} : InRange n ↔ -2 ^ 63 ≤ n ∧ n < 2 ^ 63 := by
  simp only [InRange, minInt, maxInt]
  omega

theorem int64?_of_inRange {n : Int} (h : InRange n) :
    ∃ i : Int64, i.toInt = n ∧ int64? n = some i := by
  have hbounds := inRange_iff.mp h
  exact ⟨.ofInt n, Int64.toInt_ofInt_of_le hbounds.1 hbounds.2, if_pos h⟩

theorem int64?_of_not_inRange {n : Int} (h : ¬InRange n) : int64? n = none :=
  if_neg h

/-- A computation that is out of range. -/
def Overflows (r : Except Failure Value) : Prop :=
  ∃ f, r = .error f ∧ f.kind = .overflow

theorem overflows_new (message : String) : Overflows (.error (.new .overflow message)) :=
  ⟨_, rfl, rfl⟩

/-- A computation that comes to an integer exactly, or overflows if that does not fit. -/
structure Exact (n : Int) (r : Except Failure Value) : Prop where
  value : InRange n → ∃ i : Int64, i.toInt = n ∧ r = .ok (.int i)
  overflow : ¬InRange n → Overflows r

theorem exact_of_int64? {n : Int} {r : Except Failure Value}
    (hsome : ∀ i, int64? n = some i → r = .ok (.int i)) (hnone : int64? n = none → Overflows r) :
    Exact n r where
  value h := by
    obtain ⟨i, hi, hfits⟩ := int64?_of_inRange h
    exact ⟨i, hi, hsome i hfits⟩
  overflow h := hnone (int64?_of_not_inRange h)

theorem exact_exactly (o : Operator) (n : Int) : Exact n (exactly o n) := by
  refine exact_of_int64? (fun i hi => ?_) fun hnone => ?_
  · rw [exactly, hi]
  · rw [exactly, hnone]
    exact overflows_new _

theorem exact_absOf (i : Int64) : Exact |i.toInt| (Primitive.absOf (.int i)) := by
  rw [← Int.natCast_natAbs]
  refine exact_of_int64? (fun a ha => ?_) fun hnone => ?_
  · rw [Primitive.absOf, ha]
  · rw [Primitive.absOf, hnone]
    exact overflows_new _

/-! ## Quotients -/

/-- A computation that comes to an integer where a quotient is one and fits. Where it is no integer
the computation may come to anything else. -/
structure ExactQuotient (x y : Int) (r : Except Failure Value) : Prop where
  byZero : (∃ f, r = .error f ∧ f.kind = .divisionByZero) ↔ y = 0
  value : y ≠ 0 → ((∃ i : Int64, i.toInt * y = x ∧ r = .ok (.int i)) ↔ y ∣ x ∧ InRange (x / y))
  overflow : y ≠ 0 → y ∣ x → ¬InRange (x / y) → Overflows r
  uneven : ¬y ∣ x → ∀ i, r ≠ .ok (.int i)

theorem divide_int (a b : Int64) :
    divide (.int a) (.int b) =
      if b.toInt = 0 then .error dividedByZero
      else if b.toInt ∣ a.toInt then exactly .div (a.toInt / b.toInt)
      else finite .div (Binary.nearestTo a / Binary.nearestTo b) := by
  simp only [divide, Value.toFloat?, Binary.nearestTo_beq_zero, ← Int.dvd_iff_tmod_eq_zero]
  split
  · rfl
  · split
    · next heven => rw [Int.tdiv_eq_ediv_of_dvd heven]
    · rfl

theorem finite_ne_int (o : Operator) (x : Float) (i : Int64) : finite o x ≠ .ok (.int i) := by
  unfold finite
  split <;> simp

theorem finite_ne_dividedByZero {o : Operator} {x : Float} {f : Failure}
    (h : finite o x = .error f) : f.kind ≠ .divisionByZero := by
  unfold finite at h
  split at h
  · obtain rfl := Except.error.inj h
    exact nofun
  · contradiction

theorem Exact.ne_dividedByZero {n : Int} {r : Except Failure Value} (h : Exact n r) {f : Failure}
    (hf : r = .error f) : f.kind ≠ .divisionByZero := by
  subst hf
  by_cases hn : InRange n
  · obtain ⟨i, -, hi⟩ := h.value hn
    contradiction
  · obtain ⟨g, hg, hkind⟩ := h.overflow hn
    obtain rfl := Except.error.inj hg
    rw [hkind]
    decide

theorem Exact.inRange {n : Int} {r : Except Failure Value} (h : Exact n r) {i : Int64}
    (hi : r = .ok (.int i)) : InRange n := by
  subst hi
  by_contra hn
  obtain ⟨f, hf, -⟩ := h.overflow hn
  contradiction

theorem exactQuotient_divide (a b : Int64) :
    ExactQuotient a.toInt b.toInt (divide (.int a) (.int b)) := by
  rw [divide_int]
  by_cases hzero : b.toInt = 0
  · rw [if_pos hzero]
    exact ⟨iff_of_true ⟨_, rfl, rfl⟩ hzero, absurd hzero, absurd hzero, nofun⟩
  rw [if_neg hzero]
  by_cases heven : b.toInt ∣ a.toInt
  · rw [if_pos heven]
    have hexact := exact_exactly .div (a.toInt / b.toInt)
    refine ⟨iff_of_false ?_ hzero, fun _ => ⟨?_, ?_⟩, fun _ _ => hexact.overflow, absurd heven⟩
    · rintro ⟨f, hf, hkind⟩
      exact hexact.ne_dividedByZero hf hkind
    · rintro ⟨i, -, hi⟩
      exact ⟨heven, hexact.inRange hi⟩
    · rintro ⟨-, hfits⟩
      obtain ⟨i, hi, hok⟩ := hexact.value hfits
      exact ⟨i, by rw [hi, Int.ediv_mul_cancel heven], hok⟩
  · rw [if_neg heven]
    refine ⟨iff_of_false ?_ hzero, fun _ => iff_of_false ?_ ?_, fun _ h => absurd h heven,
      fun _ => finite_ne_int _ _⟩
    · rintro ⟨f, hf, hkind⟩
      exact finite_ne_dividedByZero hf hkind
    · rintro ⟨i, -, hi⟩
      exact finite_ne_int _ _ _ hi
    · exact fun h => heven h.1

/-! ## Operations in an expression -/

/-- The call of a function of the standard library, once its argument is on the operands. -/
theorem effect_call_primitive {s : Setting} {h : Heap} {env : Env} {name : String} {p : Primitive}
    (hname : s.resolve h env name = .ok (.extension p.toExtension))
    (harity : p.arity.check p.name 1 = .ok ()) (v : Value) (stack : List Operand) :
    Item.effect s h env (.value v :: .mark :: stack) (.call name false) =
      .ofExcept ((p.call h [h.unbox v]).map (Effect.push stack)) := by
  have hargs : Operand.popArgs h [] (.value v :: .mark :: stack) = .ok ([h.unbox v], stack) := rfl
  have hcall : p.toExtension.checkedCall s.host h [h.unbox v] =
      p.toExtension.call s.host h [h.unbox v] := by
    rw [Extension.checkedCall]
    simp only [Primitive.toExtension, List.length_singleton, harity]
  simp only [Item.effect, hargs, hname, bind, Except.bind, pure, Except.pure, Item.callEffect,
    hcall]
  simp only [Extension.call, Primitive.toExtension, Value.isCallable]
  cases p.call h [h.unbox v] <;> rfl

/-- Integers are added, subtracted, multiplied, negated and made absolute exactly or not at all, and
divided exactly where the quotient is an integer, boxed or not. -/
theorem integer_arithmetic_exact (h : Heap) {v w : Value} {x y : Int64}
    (hv : h.unbox v = .int x) (hw : h.unbox w = .int y) :
    Exact (x.toInt + y.toInt) (h.binary .add v w) ∧
      Exact (x.toInt - y.toInt) (h.binary .sub v w) ∧
      Exact (x.toInt * y.toInt) (h.binary .mul v w) ∧
      Exact (-x.toInt) (h.unary .neg v) ∧
      (∃ r, Exact |x.toInt| r ∧ Primitive.abs.call h [.int x] = r ∧
        ∀ (s : Setting) (env : Env) (name : String) (stack : List Operand),
          s.resolve h env name = .ok (.extension Primitive.abs.toExtension) →
          Item.effect s h env (.value v :: .mark :: stack) (.call name false) =
            .ofExcept (r.map (Effect.push stack))) ∧
      ExactQuotient x.toInt y.toInt (h.binary .div v w) := by
  have hadd : h.binary .add v w = exactly .add (x.toInt + y.toInt) := by
    simp only [Heap.binary, hv, hw, Heap.add, combine, intResult]
  have hsub : h.binary .sub v w = exactly .sub (x.toInt - y.toInt) := by
    simp only [Heap.binary, hv, hw, combine, intResult]
  have hmul : h.binary .mul v w = exactly .mul (x.toInt * y.toInt) := by
    simp only [Heap.binary, hv, hw, combine, intResult]
  have hneg : h.unary .neg v = exactly .neg (-x.toInt) := by
    simp only [Heap.unary, hv]
  have hdiv : h.binary .div v w = divide (.int x) (.int y) := by
    simp only [Heap.binary, hv, hw]
  rw [hadd, hsub, hmul, hneg, hdiv]
  refine ⟨exact_exactly _ _, exact_exactly _ _, exact_exactly _ _, exact_exactly _ _,
    ⟨_, exact_absOf x, rfl, ?_⟩, exactQuotient_divide x y⟩
  intro s env name stack hname
  rw [effect_call_primitive hname rfl, hv]
  rfl

def leastInBox : Heap :=
  { Heap.empty with boxes := #[.int (-9223372036854775808)] }

/-- The least integer, in a box, and minus one: the sum and the negation, the product, the absolute
value and the quotient do not fit, the difference does. -/
theorem integer_arithmetic_exact_least :
    leastInBox.unbox (.field 0) = .int (-9223372036854775808) ∧
      Overflows (leastInBox.binary .add (.field 0) (.int (-1))) ∧
      leastInBox.binary .sub (.field 0) (.int (-1)) = .ok (.int (-9223372036854775807)) ∧
      Overflows (leastInBox.binary .mul (.field 0) (.int (-1))) ∧
      Overflows (leastInBox.unary .neg (.field 0)) ∧
      (∃ f, f.kind = .overflow ∧
        Item.effect ⟨⟨[("abs", .extension Primitive.abs.toExtension)], [], ""⟩, .standard, .none⟩
          leastInBox [] [.value (.field 0), .mark] (.call "abs" false) = .fail f) ∧
      Overflows (leastInBox.binary .div (.field 0) (.int (-1))) := by
  have hbox : leastInBox.unbox (.field 0) = .int (-9223372036854775808) := rfl
  obtain ⟨hadd, hsub, hmul, hneg, ⟨r, habs, -, hcall⟩, hdiv⟩ :=
    integer_arithmetic_exact leastInBox (v := .field 0) (w := .int (-1)) hbox rfl
  obtain ⟨d, hd, hsub⟩ := hsub.value (by decide)
  obtain rfl : d = -9223372036854775807 := Int64.toInt_inj.mp hd
  obtain ⟨f, rfl, hkind⟩ := habs.overflow (by decide)
  refine ⟨hbox, hadd.overflow (by decide), hsub, hmul.overflow (by decide),
    hneg.overflow (by decide), ⟨f, hkind, ?_⟩, hdiv.overflow (by decide) (by decide) (by decide)⟩
  exact hcall ⟨⟨[("abs", .extension Primitive.abs.toExtension)], [], ""⟩, .standard, .none⟩ []
    "abs" [] rfl

/-! ## Powers -/

theorem not_inRange_pow {b : Int} {e : Nat} (hb : 1 < b.natAbs) (he : 64 ≤ e) :
    ¬InRange (b ^ e) := by
  intro h
  have hbounds := inRange_iff.mp h
  have hle : 2 ^ 64 ≤ (b ^ e).natAbs := by
    rw [Int.natAbs_pow]
    calc 2 ^ 64 ≤ 2 ^ e := Nat.pow_le_pow_right Nat.two_pos he
      _ ≤ b.natAbs ^ e := Nat.pow_le_pow_left hb e
  omega

/-- The powers of zero, one and minus one. -/
theorem pow_of_natAbs_le_one {b : Int} (hb : b.natAbs ≤ 1) (e : Nat) :
    b ^ e = if e = 0 then 1 else if b = -1 ∧ e % 2 = 0 then 1 else b := by
  have hcases : b = 0 ∨ b = 1 ∨ b = -1 := by omega
  split
  · next hzero => rw [hzero, pow_zero]
  · next hzero =>
      obtain rfl | rfl | rfl := hcases
      · simp [hzero]
      · simp
      · rcases Nat.mod_two_eq_zero_or_one e with heven | hodd
        · rw [(Nat.even_iff.mpr heven).neg_one_pow, if_pos ⟨rfl, heven⟩]
        · rw [(Nat.odd_iff.mpr hodd).neg_one_pow, if_neg (by omega)]

theorem inRange_pow_of_natAbs_le_one {b : Int} (hb : b.natAbs ≤ 1) (e : Nat) :
    InRange (b ^ e) := by
  have hle : (b ^ e).natAbs ≤ 1 := by
    rw [Int.natAbs_pow]
    exact pow_le_one₀ (Nat.zero_le _) hb
  rw [inRange_iff]
  omega

theorem exactly_of_not_inRange (o : Operator) {n : Int} (h : ¬InRange n) :
    exactly o n = .error (outOfRange o) := by
  rw [exactly, int64?_of_not_inRange h]

/-- A power is exact, unless its exponent is refused although the power is in range. -/
theorem intPower_eq (b : Int) (e : Nat) :
    intPower b e =
      if 2 ^ 32 ≤ e ∧ b.natAbs ≤ 1 then .error (outOfRange .pow) else exactly .pow (b ^ e) := by
  have hsize : UInt32.size = 2 ^ 32 := rfl
  simp only [intPower, hsize]
  by_cases hb : b.natAbs ≤ 1
  · simp only [hb, and_true, if_true, ← pow_of_natAbs_le_one hb e]
  · simp only [hb, and_false, if_false]
    by_cases he : 64 ≤ e
    · rw [exactly_of_not_inRange .pow (not_inRange_pow (by omega) he), if_pos he, ite_self]
    · rw [if_neg (by omega), if_neg he]
      rfl

/-- A power of integers whose exponent is not negative is exact or overflows, if the exponent fits
32 bits or the base is none of zero, one and minus one; otherwise it is in range and overflows all
the same. -/
theorem integer_power_exact (h : Heap) {v w : Value} {b e : Int64}
    (hv : h.unbox v = .int b) (hw : h.unbox w = .int e) (he : 0 ≤ e.toInt) :
    (e.toInt < 2 ^ 32 ∨ 1 < |b.toInt| →
        Exact (b.toInt ^ e.toInt.toNat) (h.binary .pow v w)) ∧
      (2 ^ 32 ≤ e.toInt → |b.toInt| ≤ 1 →
        InRange (b.toInt ^ e.toInt.toNat) ∧ Overflows (h.binary .pow v w)) := by
  have hpow : h.binary .pow v w = intPower b.toInt e.toInt.toNat := by
    simp only [Heap.binary, hv, hw, power, he, if_true]
  rw [hpow, intPower_eq, ← Int.natCast_natAbs]
  constructor
  · intro hfits
    rw [if_neg (by omega)]
    exact exact_exactly _ _
  · intro hlarge hbase
    rw [if_pos (by omega)]
    exact ⟨inRange_pow_of_natAbs_le_one (by omega) _, overflows_new _⟩

/-- The sixty-third power of minus two is the least integer and that of two does not fit; of the
powers with an exponent beyond 32 bits, that of the least integer does not fit and that of zero
does. -/
theorem integer_power_exact_bounds :
    leastInBox.binary .pow (.int (-2)) (.int 63) = .ok (.int (-9223372036854775808)) ∧
      Overflows (leastInBox.binary .pow (.int 2) (.int 63)) ∧
      Overflows (leastInBox.binary .pow (.field 0) (.int 4294967296)) ∧
      (InRange ((0 : Int64).toInt ^ (4294967296 : Int64).toInt.toNat) ∧
        Overflows (leastInBox.binary .pow (.int 0) (.int 4294967296))) := by
  have hfits := (integer_power_exact leastInBox (v := .int (-2)) (w := .int 63) rfl rfl
    (by decide)).1 (.inl (by decide))
  have hunfit := (integer_power_exact leastInBox (v := .int 2) (w := .int 63) rfl rfl
    (by decide)).1 (.inl (by decide))
  have hleast := (integer_power_exact leastInBox (v := .field 0) (w := .int 4294967296)
    (b := -9223372036854775808) rfl rfl (by decide)).1 (.inr (by decide))
  have hzero := (integer_power_exact leastInBox (v := .int 0) (w := .int 4294967296) rfl rfl
    (by decide)).2 (by decide) (by decide)
  obtain ⟨i, hi, hok⟩ := hfits.value (by decide)
  obtain rfl : i = -9223372036854775808 := Int64.toInt_inj.mp hi
  exact ⟨hok, hunfit.overflow (by decide),
    hleast.overflow (not_inRange_pow (by decide) (by decide)), hzero⟩

/-- One to the power of `2 ^ 32` is one, but it overflows. -/
theorem power_of_one_overflows :
    (1 : Int64).toInt ^ (4294967296 : Int64).toInt.toNat = 1 ∧ InRange 1 ∧
      Heap.empty.binary .pow (.int 1) (.int 4294967296) = .error (outOfRange .pow) :=
  ⟨one_pow _, by decide, rfl⟩

end Statute
