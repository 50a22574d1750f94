import Mathlib
import Statute.Decimal.Binary

/-!
# The doubles of integers

An integer that becomes a double keeps fifty-three binary places, the last of them rounded, a tie to
the even one: `roundedInt` is what is left of it. The doubles of integers are in the order of what
is left of the integers (`nearestTo_lt`, `nearestTo_beq`). So the order of two integers is never
turned around, and only zero becomes zero; but different integers can become one double, as soon as
one of them is greater than `2 ^ 53` in size (`roundedInt_of_natAbs_le`).
-/

namespace Statute.Binary

open Float.Model (Format UnpackedFloat totalExponent)
open Float.Model.UnpackedFloat

/-! ## Rounding a quotient -/

theorem roundQuotient_one (n : Nat) : roundQuotient n 1 = n := by
  simp [roundQuotient, Nat.mod_one]

theorem roundQuotient_mono {m n : Nat} (h : m ≤ n) (den : Nat) :
    roundQuotient m den ≤ roundQuotient n den := by
  have hm := Nat.div_add_mod m den
  have hn := Nat.div_add_mod n den
  simp only [roundQuotient]
  -- Rounding adds at most one, so only the rests of equal whole parts have to be compared.
  rcases Nat.lt_or_eq_of_le (Nat.div_le_div_right (c := den) h) with hlt | heq
  · split <;> split <;> grind
  · rw [heq] at hm ⊢
    grind

/-- What a mantissa with a rounding bit and a sticky bit stands for: the whole part of a quotient,
and how twice the rest compares with the divisor. -/
structure Represents (em : ExtendedMantissa) (num den : Nat) : Prop where
  mantissa : em.mantissa = num / den
  roundBit : em.roundBit = decide (den ≤ 2 * (num % den))
  stickyBit : em.stickyBit = decide (2 * (num % den) ≠ 0 ∧ 2 * (num % den) ≠ den)

theorem represents_exact (n : Nat) : Represents (.ofMantissaAndAccuracy n .exact) n 1 := by
  constructor <;> simp [ExtendedMantissa.ofMantissaAndAccuracy, Nat.mod_one]

theorem Represents.shiftRightOne {em : ExtendedMantissa} {num den : Nat} (hden : 0 < den)
    (h : Represents em num den) : Represents em.shiftRightOne num (den * 2) := by
  have hmod : num % (den * 2) = num % den + den * (num / den % 2) := Nat.mod_mul
  have hlt : num % den < den := Nat.mod_lt num hden
  constructor
  · rw [ExtendedMantissa.shiftRightOne, h.mantissa, Nat.div_div_eq_div_mul]
  · simp only [ExtendedMantissa.shiftRightOne, h.mantissa, hmod]
    rcases Nat.mod_two_eq_zero_or_one (num / den) with hb | hb <;> simp [hb] <;> omega
  · simp only [ExtendedMantissa.shiftRightOne, h.roundBit, h.stickyBit, hmod]
    rcases Nat.mod_two_eq_zero_or_one (num / den) with hb | hb <;> simp [hb] <;> grind

theorem represents_shiftRight (n t : Nat) :
    Represents (ExtendedMantissa.ofMantissaAndAccuracy n .exact >>> t) n (2 ^ t) := by
  induction t with
  | zero => exact represents_exact n
  | succ t ih => exact ih.shiftRightOne (Nat.two_pow_pos t)

theorem roundedMantissa_mk (m : Nat) (roundBit stickyBit : Bool) :
    (ExtendedMantissa.mk m roundBit stickyBit).roundedMantissa =
      if roundBit then if stickyBit then m + 1 else m + m % 2 else m := by
  cases roundBit <;> cases stickyBit <;> rfl

/-- The two bits are enough to round to the closest number, a tie to the even one. -/
theorem Represents.roundedMantissa {em : ExtendedMantissa} {num den : Nat}
    (h : Represents em num den) : em.roundedMantissa = roundQuotient num den := by
  obtain ⟨mantissa, roundBit, stickyBit⟩ := em
  obtain ⟨rfl, rfl, rfl⟩ := h
  simp only [roundedMantissa_mk, roundQuotient, decide_eq_true_eq]
  grind

/-! ## Fifty-three binary places -/

/-- What is left of a natural number when it becomes a double. -/
def rounded (n : Nat) : Nat :=
  roundQuotient n (2 ^ (n.log2 - 52)) * 2 ^ (n.log2 - 52)

theorem rounded_of_log2_le {n : Nat} (h : n.log2 ≤ 52) : rounded n = n := by
  rw [rounded, Nat.sub_eq_zero_of_le h, Nat.pow_zero, roundQuotient_one, Nat.mul_one]

theorem rounded_of_le {n : Nat} (h : n ≤ 2 ^ 53) : rounded n = n := by
  rcases Nat.lt_or_eq_of_le h with hlt | rfl
  · by_cases hzero : n = 0
    · subst hzero
      rfl
    · exact rounded_of_log2_le (Nat.le_of_lt_succ ((Nat.log2_lt hzero).mpr hlt))
  · decide +kernel

/-- A mantissa that loses all places but the first fifty-three has fifty-three, or it has carried
over into the next power of two. -/
theorem roundQuotient_bounds {n t : Nat} (hn : n ≠ 0) (h : n.log2 = 52 + t) :
    2 ^ 52 ≤ roundQuotient n (2 ^ t) ∧ roundQuotient n (2 ^ t) ≤ 2 ^ 53 := by
  have hlower : 2 ^ 52 * 2 ^ t ≤ n := by
    rw [← pow_add, ← h]
    exact Nat.log2_self_le hn
  have hupper : n < 2 ^ 53 * 2 ^ t := by
    rw [← pow_add, ← Nat.log2_lt hn]
    omega
  have hq : 2 ^ 52 ≤ n / 2 ^ t := (Nat.le_div_iff_mul_le (Nat.two_pow_pos t)).mpr hlower
  have hq' : n / 2 ^ t < 2 ^ 53 := (Nat.div_lt_iff_lt_mul (Nat.two_pow_pos t)).mpr hupper
  simp only [roundQuotient]
  grind

theorem rounded_bounds {n : Nat} (hn : n ≠ 0) :
    2 ^ n.log2 ≤ rounded n ∧ rounded n ≤ 2 ^ (n.log2 + 1) := by
  rcases Nat.le_total n.log2 52 with h | h
  · rw [rounded_of_log2_le h]
    exact ⟨Nat.log2_self_le hn, Nat.lt_log2_self.le⟩
  · obtain ⟨t, ht⟩ := Nat.exists_eq_add_of_le h
    obtain ⟨hlower, hupper⟩ := roundQuotient_bounds hn ht
    rw [rounded, ht, Nat.add_sub_cancel_left]
    constructor
    · calc 2 ^ (52 + t) = 2 ^ 52 * 2 ^ t := pow_add 2 52 t
        _ ≤ _ := Nat.mul_le_mul_right _ hlower
    · calc _ ≤ 2 ^ 53 * 2 ^ t := Nat.mul_le_mul_right _ hupper
        _ = 2 ^ (52 + t + 1) := by rw [← pow_add, Nat.add_right_comm]

theorem rounded_eq_zero {n : Nat} : rounded n = 0 ↔ n = 0 := by
  constructor
  · intro h
    by_contra hn
    have hlower := (rounded_bounds hn).1
    rw [h] at hlower
    exact absurd hlower (Nat.not_le.mpr (Nat.two_pow_pos _))
  · rintro rfl
    rfl

theorem rounded_mono {m n : Nat} (h : m ≤ n) : rounded m ≤ rounded n := by
  by_cases hm : m = 0
  · subst hm
    exact Nat.zero_le _
  have hn : n ≠ 0 := by omega
  have hlog : m.log2 ≤ n.log2 := (Nat.le_log2 hn).mpr ((Nat.log2_self_le hm).trans h)
  rcases Nat.lt_or_eq_of_le hlog with hlt | heq
  · calc rounded m ≤ 2 ^ (m.log2 + 1) := (rounded_bounds hm).2
      _ ≤ 2 ^ n.log2 := Nat.pow_le_pow_right Nat.two_pos hlt
      _ ≤ rounded n := (rounded_bounds hn).1
  · rw [rounded, rounded, heq]
    exact Nat.mul_le_mul_right _ (roundQuotient_mono h _)

/-- What is left of an integer when it becomes a double. -/
def roundedInt (n : Int) : Int :=
  if 0 ≤ n then rounded n.natAbs else -rounded n.natAbs

theorem roundedInt_natCast (n : Nat) : roundedInt n = rounded n := by
  simp [roundedInt]

theorem roundedInt_neg_natCast (n : Nat) : roundedInt (-n) = -rounded n := by
  by_cases hn : n = 0
  · subst hn
    rfl
  · rw [roundedInt, if_neg (by omega), Int.natAbs_neg, Int.natAbs_natCast]

theorem roundedInt_mono {a b : Int} (h : a ≤ b) : roundedInt a ≤ roundedInt b := by
  simp only [roundedInt]
  split <;> split
  · have := rounded_mono (m := a.natAbs) (n := b.natAbs) (by omega)
    omega
  · omega
  · omega
  · have := rounded_mono (m := b.natAbs) (n := a.natAbs) (by omega)
    omega

theorem roundedInt_of_natAbs_le {n : Int} (h : n.natAbs ≤ 2 ^ 53) : roundedInt n = n := by
  simp only [roundedInt, rounded_of_le h]
  split <;> omega

theorem roundedInt_eq_zero {n : Int} : roundedInt n = 0 ↔ n = 0 := by
  have := rounded_eq_zero (n := n.natAbs)
  simp only [roundedInt]
  split <;> omega

/-! ## The double of a natural number -/

/-- A mantissa of fifty-three bits with an exponent that doubles of integers have. -/
structure Normal (m : Nat) (e : Int) : Prop where
  lower : 2 ^ 52 ≤ m
  upper : m < 2 ^ 53
  low : -52 ≤ e
  high : e ≤ 971

theorem Normal.pos {m : Nat} {e : Int} (h : Normal m e) : 0 < m :=
  Nat.lt_of_lt_of_le (Nat.two_pow_pos 52) h.lower

/-- A mantissa is shifted by as many places as it has beyond fifty-three. -/
theorem shiftToTargetExponent_eq {m t : Nat} {e : Int} (he : -1074 ≤ e) (hm : m.log2 = 52 + t) :
    shiftToTargetExponent .binary64 m e .exact =
      (ExtendedMantissa.ofMantissaAndAccuracy m .exact >>> t, e + t) := by
  have ht : (Format.binary64.targetExponent (totalExponent m e) - e).toNat = t := by
    simp only [Format.targetExponent, totalExponent, Format.minExponent, Format.mantissaBits, hm]
    omega
  simp only [shiftToTargetExponent, shiftToExponent, ht]

/-- Rounding shifts twice: to the fifty-three places that are kept, and once more if rounding the
last of them has carried over. -/
theorem roundWithAccuracy_of_shifts {s : Sign} {m q k : Nat} {e e₁ e₂ : Int}
    {em₁ em₂ : ExtendedMantissa} (hfirst : shiftToTargetExponent .binary64 m e .exact = (em₁, e₁))
    (hq : em₁.roundedMantissa = q)
    (hsecond : shiftToTargetExponent .binary64 q e₁ .exact = (em₂, e₂))
    (hk : em₂.mantissa = k) (hpos : 0 < k) :
    roundWithAccuracy .binary64 s m e .exact = .finite s k e₂ hpos := by
  subst hk
  simp [roundWithAccuracy, hfirst, hq, hsecond, hpos.ne']

/-- A mantissa of fifty-three bits or more is rounded to one of fifty-three bits. -/
theorem roundWithAccuracy_eq (s : Sign) {m t : Nat} {e : Int} (he : -1074 ≤ e)
    (hm : m.log2 = 52 + t) :
    ∃ (m' t' : Nat) (h : 0 < m'),
      roundWithAccuracy .binary64 s m e .exact = .finite s m' (e + t') h ∧
        2 ^ 52 ≤ m' ∧ m' < 2 ^ 53 ∧ t' ≤ t + 1 ∧
          m' * 2 ^ t' = roundQuotient m (2 ^ t) * 2 ^ t := by
  have hne : m ≠ 0 := by
    rintro rfl
    rw [Nat.log2_zero] at hm
    omega
  obtain ⟨hlower, hupper⟩ := roundQuotient_bounds hne hm
  have hfirst := shiftToTargetExponent_eq he hm
  have hq := (represents_shiftRight m t).roundedMantissa
  rcases Nat.lt_or_eq_of_le hupper with hlt | hcarry
  · have hpos : 0 < roundQuotient m (2 ^ t) := Nat.lt_of_lt_of_le (Nat.two_pow_pos 52) hlower
    have hlog : (roundQuotient m (2 ^ t)).log2 = 52 + 0 :=
      (Nat.log2_eq_iff hpos.ne').mpr ⟨hlower, hlt⟩
    have hsecond := shiftToTargetExponent_eq (e := e + t) (by omega) hlog
    have hround := roundWithAccuracy_of_shifts (s := s) (k := roundQuotient m (2 ^ t)) hfirst hq
      hsecond rfl hpos
    exact ⟨_, t, hpos, by simpa using hround, hlower, hlt, Nat.le_succ t, rfl⟩
  · have hlog : (2 ^ 53).log2 = 52 + 1 := Nat.log2_two_pow
    have hsecond := shiftToTargetExponent_eq (e := e + t) (by omega) hlog
    have hround := roundWithAccuracy_of_shifts (s := s) (k := 2 ^ 52) hfirst (hq.trans hcarry)
      hsecond rfl (Nat.two_pow_pos 52)
    refine ⟨2 ^ 52, t + 1, Nat.two_pow_pos 52, ?_, Nat.le_refl _, by decide, Nat.le_refl _, ?_⟩
    · simpa [add_assoc] using hround
    · rw [hcarry]
      ring

theorem log2_mul_two_pow {n : Nat} (hn : n ≠ 0) (k : Nat) : (n * 2 ^ k).log2 = n.log2 + k := by
  have hlower := Nat.mul_le_mul_right (2 ^ k) (Nat.log2_self_le hn)
  have hupper := Nat.mul_lt_mul_of_pos_right (Nat.lt_log2_self (n := n)) (Nat.two_pow_pos k)
  rw [← pow_add] at hlower hupper
  refine (Nat.log2_eq_iff (Nat.mul_ne_zero hn (Nat.two_pow_pos k).ne')).mpr ⟨hlower, ?_⟩
  rwa [Nat.add_right_comm]

/-- Places that are filled up with zeros do not matter to what is rounded. -/
theorem roundQuotient_filled (n : Nat) :
    roundQuotient (n * 2 ^ (52 - n.log2)) (2 ^ (n.log2 - 52)) * 2 ^ (n.log2 - 52) =
      rounded n * 2 ^ (52 - n.log2) := by
  rcases Nat.le_total n.log2 52 with h | h
  · rw [rounded_of_log2_le h, Nat.sub_eq_zero_of_le h, Nat.pow_zero, roundQuotient_one, Nat.mul_one]
  · rw [Nat.sub_eq_zero_of_le h, Nat.pow_zero, Nat.mul_one, Nat.mul_one, rounded]

/-- The double of a natural number is what is left of the number. -/
theorem round_eq (s : Sign) {n : Nat} (hn : n ≠ 0) (hlog : n.log2 ≤ 63) :
    ∃ (m : Nat) (e : Int) (h : 0 < m), UnpackedFloat.round .binary64 s n 0 = .finite s m e h ∧
      Normal m e ∧ m * 2 ^ (e + 52).toNat = rounded n * 2 ^ 52 := by
  have hfill : (0 - Format.binary64.targetExponent (totalExponent n 0)).toNat = 52 - n.log2 := by
    simp only [Format.targetExponent, totalExponent, Format.minExponent, Format.mantissaBits]
    omega
  have hfilled : (n * 2 ^ (52 - n.log2)).log2 = 52 + (n.log2 - 52) := by
    rw [log2_mul_two_pow hn]
    omega
  obtain ⟨m, t, hpos, hround, hlower, hupper, ht, hvalue⟩ :=
    roundWithAccuracy_eq s (e := 0 - (52 - n.log2 : Nat)) (by omega) hfilled
  refine ⟨m, 0 - (52 - n.log2 : Nat) + t, hpos, ?_, ⟨hlower, hupper, by omega, by omega⟩, ?_⟩
  · simpa only [UnpackedFloat.round, decreaseExponent, hfill, Nat.shiftLeft_eq] using hround
  · have hexponent :
        (0 - ((52 - n.log2 : Nat) : Int) + t + 52).toNat = t + (52 - (52 - n.log2)) := by
      omega
    rw [hexponent, pow_add, ← Nat.mul_assoc, hvalue, roundQuotient_filled, Nat.mul_assoc, ← pow_add]
    congr 2
    omega

/-! ## Packing -/

/-- A mantissa of fifty-three bits is its leading bit, which is not stored, and the others. -/
theorem toNat_leading_append {m : Nat} (hlower : 2 ^ 52 ≤ m) (hupper : m < 2 ^ 53) :
    (1#1 ++ BitVec.ofNat 52 m).toNat = m := by
  rw [BitVec.toNat_append, ← Nat.shiftLeft_add_eq_or_of_lt (BitVec.ofNat 52 m).isLt,
    Nat.shiftLeft_eq, BitVec.toNat_ofNat, BitVec.toNat_ofNat]
  omega

/-- What is packed into the bits of a double is found there again. -/
theorem unpack_pack_of_normal (s : Sign) {m : Nat} {e : Int} (h : Normal m e) :
    UnpackedFloat.unpack .binary64 (UnpackedFloat.pack .binary64 (.finite s m e h.pos)) =
      .finite s m e h.pos := by
  have hlow := h.low
  have hhigh := h.high
  have hlog : m.log2 = 52 := (Nat.log2_eq_iff h.pos.ne').mpr ⟨h.lower, h.upper⟩
  obtain ⟨b, hb⟩ := Int.eq_ofNat_of_zero_le (a := e + 1075) (by omega)
  have hbias : (e + Format.binary64.exponentBias + (52 : Nat)).toNat = b := by
    simp only [Format.exponentBias]
    omega
  have hmax : b < 2047 := by omega
  have hexponent : (BitVec.ofNat 11 b).toNat = b := by
    rw [BitVec.toNat_ofNat]
    omega
  -- The exponent is neither that of infinity nor that of zero.
  have hfinite : BitVec.ofNat 11 b ≠ -1#11 := fun heq =>
    hmax.ne (hexponent.symm.trans (congrArg BitVec.toNat heq))
  have hnormal : BitVec.ofNat 11 b ≠ 0#11 := fun heq => by
    have hzero : b = 0 := hexponent.symm.trans (congrArg BitVec.toNat heq)
    omega
  have hpack : UnpackedFloat.pack .binary64 (.finite s m e h.pos) =
      packComponents .binary64 s (.ofNat 11 b) (.ofNat 52 m) := by
    simp only [UnpackedFloat.pack, hlog, hbias]
    rw [if_neg (by omega), if_pos (by rfl)]
  rw [hpack]
  simp only [UnpackedFloat.unpack, unpackExponent_packComponents, unpackMantissa_packComponents,
    unpackSign_packComponents, Sign.ofBitVec_toBitVec, if_neg hfinite, if_neg hnormal, hexponent,
    toNat_leading_append h.lower h.upper]
  congr 1
  simp only [Format.exponentBias]
  omega

/-! ## The order of the doubles of integers -/

/-- An unpacked double that is an integer. Its mantissa is compared in units of `2 ^ -52`, so that
all exponents of integers' doubles become natural numbers. -/
inductive Stands : UnpackedFloat → Int → Prop where
  | zero (s : Sign) : Stands (.zero s) 0
  | positive {m n : Nat} {e : Int} (h : Normal m e)
      (hvalue : m * 2 ^ (e + 52).toNat = n * 2 ^ 52) : Stands (.finite .positive m e h.pos) n
  | negative {m n : Nat} {e : Int} (h : Normal m e)
      (hvalue : m * 2 ^ (e + 52).toNat = n * 2 ^ 52) : Stands (.finite .negative m e h.pos) (-n)

theorem Normal.value_pos {m n : Nat} {e : Int} (h : Normal m e)
    (hvalue : m * 2 ^ (e + 52).toNat = n * 2 ^ 52) : 0 < n := by
  have := Nat.mul_pos h.pos (Nat.two_pow_pos (e + 52).toNat)
  omega

/-- Of two doubles with mantissas of fifty-three bits the exponents decide first. -/
theorem Normal.value_lt {m m' : Nat} {e e' : Int} (h : Normal m e) (h' : Normal m' e')
    (hlt : e < e') : m * 2 ^ (e + 52).toNat < m' * 2 ^ (e' + 52).toNat := by
  have hexponent : (e + 52).toNat + 1 ≤ (e' + 52).toNat := by
    have := h.low
    omega
  calc m * 2 ^ (e + 52).toNat
      < 2 ^ 53 * 2 ^ (e + 52).toNat := Nat.mul_lt_mul_of_pos_right h.upper (Nat.two_pow_pos _)
    _ = 2 ^ 52 * 2 ^ ((e + 52).toNat + 1) := by ring
    _ ≤ m' * 2 ^ (e' + 52).toNat :=
      Nat.mul_le_mul h'.lower (Nat.pow_le_pow_right Nat.two_pos hexponent)

theorem Normal.compare_eq {m m' n n' : Nat} {e e' : Int} (h : Normal m e) (h' : Normal m' e')
    (hvalue : m * 2 ^ (e + 52).toNat = n * 2 ^ 52)
    (hvalue' : m' * 2 ^ (e' + 52).toNat = n' * 2 ^ 52) :
    (Ord.compare e e').then (Ord.compare m m') = Ord.compare n n' := by
  rcases Int.lt_trichotomy e e' with hlt | rfl | hgt
  · have hn : n < n' := by
      have := h.value_lt h' hlt
      omega
    rw [compare_lt_iff_lt.mpr hlt, compare_lt_iff_lt.mpr hn]
    rfl
  · rw [compare_eq_iff_eq.mpr rfl, Ordering.then]
    calc Ord.compare m m' = cmp m m' := (cmp_eq_compare m m').symm
      _ = cmp (m * 2 ^ (e + 52).toNat) (m' * 2 ^ (e + 52).toNat) :=
        (cmp_mul_pos_right (Nat.two_pow_pos _) m m').symm
      _ = cmp (n * 2 ^ 52) (n' * 2 ^ 52) := by rw [hvalue, hvalue']
      _ = cmp n n' := cmp_mul_pos_right (Nat.two_pow_pos 52) n n'
      _ = Ord.compare n n' := cmp_eq_compare n n'
  · have hn : n' < n := by
      have := h'.value_lt h hgt
      omega
    rw [compare_gt_iff_gt.mpr hgt, compare_gt_iff_gt.mpr hn]
    rfl

theorem compare_natCast (m n : Nat) : Ord.compare (m : Int) (n : Int) = Ord.compare m n := by
  rw [← cmp_eq_compare, ← cmp_eq_compare]
  exact Nat.strictMono_cast.cmp_map_eq m n

theorem compare_neg_natCast (m n : Nat) :
    Ord.compare (-(m : Int)) (-(n : Int)) = Ord.compare n m := by
  rw [← cmp_eq_compare, ← cmp_eq_compare]
  have hcast : StrictMono fun n : Nat => (n : Int) := Nat.strictMono_cast
  exact hcast.neg.cmp_map_eq m n

/-- Doubles that are integers compare as these integers. -/
theorem Stands.compare {x y : UnpackedFloat} {a b : Int} (hx : Stands x a) (hy : Stands y b) :
    x.compare y = some (Ord.compare a b) := by
  cases hx with
  | zero s =>
      cases hy with
      | zero s' => rfl
      | positive h' hvalue' =>
          have := h'.value_pos hvalue'
          rw [compare_lt_iff_lt.mpr (by omega)]
          rfl
      | negative h' hvalue' =>
          have := h'.value_pos hvalue'
          rw [compare_gt_iff_gt.mpr (by omega)]
          rfl
  | positive h hvalue =>
      have := h.value_pos hvalue
      cases hy with
      | zero s' =>
          rw [compare_gt_iff_gt.mpr (by omega)]
          rfl
      | positive h' hvalue' =>
          rw [compare_natCast, ← h.compare_eq h' hvalue hvalue']
          rfl
      | negative h' hvalue' =>
          rw [compare_gt_iff_gt.mpr (by omega)]
          rfl
  | negative h hvalue =>
      have := h.value_pos hvalue
      cases hy with
      | zero s' =>
          rw [compare_lt_iff_lt.mpr (by omega)]
          rfl
      | positive h' hvalue' =>
          rw [compare_lt_iff_lt.mpr (by omega)]
          rfl
      | negative h' hvalue' =>
          rw [compare_neg_natCast, ← Nat.compare_swap, ← h.compare_eq h' hvalue hvalue']
          rfl

/-- The double of an integer is what is left of the integer. -/
theorem stands_nearestTo (i : Int64) :
    Stands (nearestTo i).toModel.unpack (roundedInt i.toInt) := by
  change Stands (UnpackedFloat.unpack .binary64 (UnpackedFloat.pack .binary64
    (UnpackedFloat.normalize .binary64 i.toInt 0 .positive))) _
  have hlog {n : Nat} (hn : n ≠ 0) (hi : n = i.toInt.natAbs) : n.log2 ≤ 63 := by
    refine Nat.le_of_lt_succ ((Nat.log2_lt hn).mpr ?_)
    have := i.le_toInt
    have := i.toInt_lt
    omega
  by_cases hzero : i.toInt = 0
  · rw [hzero, UnpackedFloat.normalize, compare_eq_iff_eq.mpr rfl]
    simp only [UnpackedFloat.pack, unpack_packedZero]
    exact .zero .positive
  obtain ⟨n, hi | hi⟩ := i.toInt.eq_nat_or_neg
  · have hn : n ≠ 0 := by omega
    obtain ⟨m, e, hm, hround, hnormal, hvalue⟩ := round_eq .positive hn (hlog hn (by omega))
    rw [hi, roundedInt_natCast, UnpackedFloat.normalize, compare_gt_iff_gt.mpr (by omega)]
    simp only [Int.toNat_natCast, hround, unpack_pack_of_normal _ hnormal]
    exact .positive hnormal hvalue
  · have hn : n ≠ 0 := by omega
    obtain ⟨m, e, hm, hround, hnormal, hvalue⟩ := round_eq .negative hn (hlog hn (by omega))
    rw [hi, roundedInt_neg_natCast, UnpackedFloat.normalize, compare_lt_iff_lt.mpr (by omega)]
    simp only [Int.neg_neg, Int.toNat_natCast, hround, unpack_pack_of_normal _ hnormal]
    exact .negative hnormal hvalue

/-- The doubles of two integers are in the order of what is left of the integers. -/
theorem nearestTo_lt {i j : Int64} :
    nearestTo i < nearestTo j ↔ roundedInt i.toInt < roundedInt j.toInt := by
  have hlt : nearestTo i < nearestTo j ↔
      ((nearestTo i).toModel.unpack.compare (nearestTo j).toModel.unpack == some .lt) = true :=
    decide_eq_true_iff
  rw [hlt, (stands_nearestTo i).compare (stands_nearestTo j), ← compare_lt_iff_lt]
  simp

theorem nearestTo_beq {i j : Int64} :
    (nearestTo i == nearestTo j) = true ↔ roundedInt i.toInt = roundedInt j.toInt := by
  change ((nearestTo i).toModel.unpack.compare (nearestTo j).toModel.unpack == some .eq) = true ↔ _
  rw [(stands_nearestTo i).compare (stands_nearestTo j), ← compare_eq_iff_eq]
  simp

/-- Only zero becomes the double zero. -/
theorem nearestTo_beq_zero {i : Int64} : (nearestTo i == 0.0) = true ↔ i.toInt = 0 := by
  have hzero : (0.0 : Float) = nearestTo 0 := by rfl
  have hrounded : roundedInt (0 : Int64).toInt = 0 := by rfl
  rw [hzero, nearestTo_beq, hrounded, roundedInt_eq_zero]

end Statute.Binary
