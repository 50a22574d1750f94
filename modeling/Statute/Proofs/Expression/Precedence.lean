import Statute.Proofs.Expression.Tree

/-!
# Precedence and yielding

A waiting operator yields to the operator that comes next or makes it wait as well. The three
conditions of precedence-correct trees say just that: the operators along the right edge of a left
operand yield to the operator after it, and an operator does not yield to the one at the root of the
operand to its right.
-/

namespace Statute

namespace Operator

/-- Powers bind most tightly among the operators between two operands. -/
theorem Binary.eq_pow_of_seven_le (o : Operator.Binary) (h : 7 ≤ o.1.precedence) :
    o.1 = .pow := by
  have hall : ∀ q : Operator, q.isUnary = false → q ≠ .dot → 7 ≤ q.precedence → q = .pow := by
    intro q
    cases q <;> decide
  exact hall o.1 o.2.1 o.2.2 h

theorem Unary.ne_pow (o : Operator.Unary) : o.1 ≠ .pow := by
  intro h
  have hunary := o.2
  rw [h] at hunary
  contradiction

theorem Binary.ne_background (o : Operator.Binary) : o.1 ≠ .background := by
  intro h
  have hunary := o.2.1
  rw [h] at hunary
  contradiction

theorem isRightAssoc_iff (o : Operator) : o.isRightAssoc = true ↔ o = .pow := by
  cases o <;> simp [isRightAssoc]

end Operator

namespace Pending

theorem yieldsTo_unary_iff (top : Operator.Unary) (o : Operator) :
    yieldsTo top o = true ↔ o.precedence ≤ top.1.precedence := by
  simp [yieldsTo, top.2]

/-- An operator between two operands yields unless the next one binds more tightly or both are
powers. -/
theorem yieldsTo_binary_iff (top o : Operator.Binary) :
    yieldsTo top o = true ↔
      o.1.precedence ≤ top.1.precedence ∧ ¬ (o.1 = .pow ∧ top.1 = .pow) := by
  have hpow : o.1 = .pow → top.1.precedence = o.1.precedence → top.1 = .pow := by
    intro ho heq
    apply Operator.Binary.eq_pow_of_seven_le
    rw [heq, ho]
    decide
  have hassoc := Operator.isRightAssoc_iff o
  simp only [yieldsTo, top.2.1, Bool.false_eq_true, if_false, Bool.or_eq_true, Bool.and_eq_true,
    decide_eq_true_eq, Bool.not_eq_true', ← Bool.not_eq_true, hassoc]
  constructor
  · rintro (hlt | ⟨heq, hne⟩)
    · refine ⟨Int.le_of_lt hlt, ?_⟩
      rintro ⟨ho, ht⟩
      rw [ho, ht] at hlt
      exact Int.lt_irrefl _ hlt
    · exact ⟨Int.le_of_eq heq.symm, fun h => hne h.1⟩
  · rintro ⟨hle, hne⟩
    rcases Int.lt_or_eq_of_le hle with hlt | heq
    · exact Or.inl hlt
    · exact Or.inr ⟨heq.symm, fun ho => hne ⟨ho, hpow ho heq.symm⟩⟩

/-- What does not yield to an operator does not yield to one that binds at least as tightly
either. -/
theorem yieldsTo_eq_false_of_le {top : Operator} (o q : Operator.Binary)
    (htop : top.isUnary = true ∨ top ≠ .dot) (hle : o.1.precedence ≤ q.1.precedence)
    (h : yieldsTo top o = false) : yieldsTo top q = false := by
  rw [← Bool.not_eq_true] at h ⊢
  by_cases hunary : top.isUnary = true
  · rw [yieldsTo_unary_iff ⟨top, hunary⟩] at h ⊢
    exact fun hq => h (Int.le_trans hle hq)
  · have hbinary : top.isUnary = false ∧ top ≠ .dot :=
      ⟨by simpa using hunary, htop.resolve_left hunary⟩
    rw [yieldsTo_binary_iff ⟨top, hbinary⟩] at h ⊢
    rintro ⟨hq, hne⟩
    refine h ⟨Int.le_trans hle hq, ?_⟩
    rintro ⟨ho, ht⟩
    have hseven : 7 ≤ q.1.precedence := by
      rw [ho] at hle
      exact hle
    exact hne ⟨q.eq_pow_of_seven_le hseven, ht⟩

end Pending

namespace Tree

theorem mem_rightEdge {t : Tree} {q : Operator} (h : q ∈ t.rightEdge) :
    q.isUnary = true ∨ q.isUnary = false ∧ q ≠ .dot := by
  match t, h with
  | .operand _, h => simp [rightEdge] at h
  | .unary o t, h =>
      rcases List.mem_cons.mp h with rfl | htail
      · exact Or.inl o.2
      · exact mem_rightEdge htail
  | .binary o _ r, h =>
      rcases List.mem_cons.mp h with rfl | htail
      · exact Or.inr o.2
      · exact mem_rightEdge htail

theorem mem_rightEdge_of_mem_binaryRoot? {t : Tree} {q : Operator} (h : q ∈ t.binaryRoot?) :
    q ∈ t.rightEdge := by
  cases t with
  | binary o l r =>
      have heq : o.1 = q := by simpa [binaryRoot?] using h
      simp [rightEdge, heq]
  | _ => simp [binaryRoot?] at h

theorem mem_binaryRoot? {t : Tree} {q : Operator} (h : q ∈ t.binaryRoot?) :
    q.isUnary = false ∧ q ≠ .dot := by
  cases t with
  | binary o l r =>
      have heq : o.1 = q := by simpa [binaryRoot?] using h
      exact heq ▸ o.2
  | _ => simp [binaryRoot?] at h

/-- A left operand fits when all operators along its right edge yield. -/
theorem edgeFits_iff (o : Operator.Binary) (l : Tree) :
    EdgeFits o l ↔ ∀ q ∈ l.rightEdge, Pending.yieldsTo q o = true := by
  refine forall_congr' fun q => forall_congr' fun hq => ?_
  rcases mem_rightEdge hq with hunary | hbinary
  · have hne := Operator.Unary.ne_pow ⟨q, hunary⟩
    rw [Pending.yieldsTo_unary_iff ⟨q, hunary⟩]
    exact and_iff_left fun _ h => absurd h hne
  · rw [Pending.yieldsTo_binary_iff ⟨q, hbinary⟩]
    refine and_congr_right fun _ => ?_
    constructor
    · rintro h ⟨ho, rfl⟩
      have hlt := h ho rfl
      rw [ho] at hlt
      exact Int.lt_irrefl _ hlt
    · exact fun h ho hq => absurd ⟨ho, hq⟩ h

/-- A right operand fits when the operator before it does not yield to the one at its root. -/
theorem rootFits_iff (o : Operator.Binary) (r : Tree) :
    RootFits o r ↔ ∀ q ∈ r.binaryRoot?, Pending.yieldsTo o q = false := by
  refine forall_congr' fun q => forall_congr' fun hq => ?_
  rw [← Bool.not_eq_true, Pending.yieldsTo_binary_iff o ⟨q, mem_binaryRoot? hq⟩]
  constructor
  · rintro (hlt | ⟨ho, hq⟩)
    · exact fun h => absurd h.1 (Int.not_le.mpr hlt)
    · exact fun h => h.2 ⟨hq, ho⟩
  · intro h
    by_cases hle : q.precedence ≤ o.1.precedence
    · exact Or.inr (And.symm (Classical.not_not.mp fun hne => h ⟨hle, hne⟩))
    · exact Or.inl (Int.not_le.mp hle)

/-- The operand of a prefix operator fits when that operator does not yield to the one at its
root. -/
theorem operandFits_iff (o : Operator.Unary) (t : Tree) :
    OperandFits o t ↔ ∀ q ∈ t.binaryRoot?, Pending.yieldsTo o q = false := by
  refine forall_congr' fun q => forall_congr' fun _ => ?_
  rw [← Bool.not_eq_true, Pending.yieldsTo_unary_iff]
  exact Int.not_le.symm

end Tree

end Statute
