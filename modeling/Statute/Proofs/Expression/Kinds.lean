import Statute.Proofs.Expression.Compilation

/-!
# Kinds of operands

What lies on the operands while compiled items are evaluated can be foretold from the items alone: a
value, a value that stands for a deferred call, the name of a field, or the mark before arguments.
`Item.kindsAfter` goes through items with the kinds of the operands instead of the operands
themselves, and refuses an item that would not find what it takes.

The items of a precedence-correct tree are never refused. They take nothing that was there before,
and leave one value on top of it.
-/

namespace Statute

/-- What can be foretold of an operand. -/
inductive Kind where
  | value
  /-- A value that stands for a deferred call. -/
  | deferred
  | attr
  | mark
deriving DecidableEq, Repr, Inhabited

namespace Kind

def ofCall : Bool → Kind
  | true => deferred
  | false => value

/-- Takes values back to the mark. -/
def dropArgs : List Kind → Option (List Kind)
  | value :: ks => dropArgs ks
  | mark :: ks => some ks
  | _ => none

theorem dropArgs_replicate (n : Nat) (ks : List Kind) :
    dropArgs (List.replicate n value ++ mark :: ks) = some ks := by
  induction n with
  | zero => rfl
  | succ n ih =>
      rw [List.replicate_succ, List.cons_append, dropArgs]
      exact ih

end Kind

namespace Operator

/-- The kinds after an operator. -/
def kinds? : Operator → List Kind → Option (List Kind)
  | .dot, .attr :: .value :: ks => some (.value :: ks)
  | .dot, _ => none
  | .background, .deferred :: ks => some (.value :: ks)
  | .background, _ => none
  | o, .value :: ks =>
      if o.isUnary then some (.value :: ks)
      else match ks with
        | .value :: ks => some (.value :: ks)
        | _ => none
  | _, _ => none

/-- What an operator takes that is not refused, and what it leaves. -/
theorem kinds?_eq_some {o : Operator} {ks ks' : List Kind} (h : o.kinds? ks = some ks') :
    (o = .dot ∧ ∃ below, ks = .attr :: .value :: below ∧ ks' = .value :: below) ∨
      (o = .background ∧ ∃ below, ks = .deferred :: below ∧ ks' = .value :: below) ∨
      (o ≠ .dot ∧ o ≠ .background ∧ ∃ below, ks = .value :: below ∧
        (o.isUnary = true ∧ ks' = .value :: below ∨
          o.isUnary = false ∧ ∃ rest, below = .value :: rest ∧ ks' = .value :: rest)) := by
  unfold kinds? at h
  split at h
  · next below => exact Or.inl ⟨rfl, below, rfl, (Option.some.inj h).symm⟩
  · contradiction
  · next below => exact Or.inr (Or.inl ⟨rfl, below, rfl, (Option.some.inj h).symm⟩)
  · contradiction
  · next below hdot hbackground =>
      refine Or.inr (Or.inr ⟨hdot, hbackground, below, rfl, ?_⟩)
      split at h
      · next hunary => exact Or.inl ⟨hunary, (Option.some.inj h).symm⟩
      · next hunary =>
          refine Or.inr ⟨eq_false_of_ne_true hunary, ?_⟩
          split at h
          · next rest => exact ⟨rest, rfl, (Option.some.inj h).symm⟩
          · contradiction
  · contradiction

theorem kinds?_unary (o : Operator.Unary) (ks : List Kind) :
    o.1.kinds? (.ofCall (o.1 = .background) :: ks) = some (.value :: ks) := by
  obtain ⟨o, ho⟩ := o
  cases o <;> first
    | contradiction
    | rfl

theorem kinds?_binary (o : Operator.Binary) (ks : List Kind) :
    o.1.kinds? (.value :: .value :: ks) = some (.value :: ks) := by
  obtain ⟨o, ho, hdot⟩ := o
  cases o <;> first
    | contradiction
    | rfl

end Operator

namespace Item

/-- The kinds after an item. -/
def kinds? : Item → List Kind → Option (List Kind)
  | .push _, ks => some (.value :: ks)
  | .load _, ks => some (.value :: ks)
  | .attr _, ks => some (.attr :: ks)
  | .args, ks => some (.mark :: ks)
  | .call _ deferred, ks => (Kind.dropArgs ks).map (.ofCall deferred :: ·)
  | .invoke deferred, ks =>
      match Kind.dropArgs ks with
      | some (.value :: ks) => some (.ofCall deferred :: ks)
      | _ => none
  | .op o, ks => o.kinds? ks

theorem kinds?_invoke {deferred : Bool} {ks ks' : List Kind}
    (h : (Item.invoke deferred).kinds? ks = some ks') :
    ∃ below, Kind.dropArgs ks = some (.value :: below) ∧ ks' = .ofCall deferred :: below := by
  simp only [kinds?] at h
  split at h
  · next below hdrop => exact ⟨below, hdrop, (Option.some.inj h).symm⟩
  · contradiction

def kindsAfter : List Item → List Kind → Option (List Kind)
  | [], ks => some ks
  | i :: is, ks => (i.kinds? ks).bind (kindsAfter is)

theorem kindsAfter_cons {i : Item} {is : List Item} {ks ks' : List Kind}
    (h : i.kinds? ks = some ks') : kindsAfter (i :: is) ks = kindsAfter is ks' := by
  rw [kindsAfter, h]
  rfl

theorem kindsAfter_call (n : String) (deferred : Bool) (is : List Item) (k : Nat)
    (ks : List Kind) :
    kindsAfter (.call n deferred :: is) (List.replicate k .value ++ .mark :: ks) =
      kindsAfter is (.ofCall deferred :: ks) := by
  refine kindsAfter_cons ?_
  rw [kinds?, Kind.dropArgs_replicate]
  rfl

theorem kindsAfter_invoke (deferred : Bool) (is : List Item) (k : Nat) (ks : List Kind) :
    kindsAfter (.invoke deferred :: is) (List.replicate k .value ++ .mark :: .value :: ks) =
      kindsAfter is (.ofCall deferred :: ks) := by
  refine kindsAfter_cons ?_
  rw [kinds?, Kind.dropArgs_replicate]

end Item

/-! ## Items of trees -/

open Item

mutual

/-- The items of an operand leave one value, or one deferred call where the operand is deferred. -/
theorem Primary.kindsAfter_items (p : Primary) (hp : p.PrecedenceCorrect) (d : Bool)
    (hd : d = true → p.isSchedulable = true) (is : List Item) (ks : List Kind) :
    kindsAfter (p.items d ++ is) ks = kindsAfter is (.ofCall d :: ks) := by
  cases p with
  | literal l =>
      cases d
      · rfl
      · exact absurd (hd rfl) (by simp [Primary.isSchedulable])
  | name n =>
      cases d
      · rfl
      · rfl
  | call n args =>
      simp only [Primary.PrecedenceCorrect] at hp
      simp only [Primary.items, List.cons_append, List.append_assoc, List.nil_append]
      rw [kindsAfter_cons rfl, Tree.kindsAfter_listItems args hp]
      exact kindsAfter_call n d is args.length ks
  | field p f =>
      simp only [Primary.PrecedenceCorrect] at hp
      cases d
      · simp only [Primary.items, List.cons_append, List.append_assoc, List.nil_append]
        rw [Primary.kindsAfter_items p hp false (fun h => by cases h)]
        rfl
      · exact absurd (hd rfl) (by simp [Primary.isSchedulable])
  | invoke p f args =>
      simp only [Primary.PrecedenceCorrect] at hp
      simp only [Primary.items, List.cons_append, List.append_assoc, List.nil_append]
      rw [Primary.kindsAfter_items p hp.1 false (fun h => by cases h), kindsAfter_cons rfl,
        kindsAfter_cons rfl, kindsAfter_cons rfl, Tree.kindsAfter_listItems args hp.2]
      exact kindsAfter_invoke d is args.length ks
  | group t =>
      simp only [Primary.PrecedenceCorrect] at hp
      simp only [Primary.items]
      refine Tree.kindsAfter_items t hp d (fun h => ?_) is ks
      have hschedulable := hd h
      simpa only [Primary.isSchedulable] using hschedulable

/-- The items of a tree leave one value, or one deferred call where the tree is deferred. -/
theorem Tree.kindsAfter_items (t : Tree) (ht : t.PrecedenceCorrect) (d : Bool)
    (hd : d = true → t.isSchedulable = true) (is : List Item) (ks : List Kind) :
    kindsAfter (t.items d ++ is) ks = kindsAfter is (.ofCall d :: ks) := by
  cases t with
  | operand p =>
      simp only [Tree.PrecedenceCorrect] at ht
      simp only [Tree.items]
      refine Primary.kindsAfter_items p ht d (fun h => ?_) is ks
      have hschedulable := hd h
      simpa only [Tree.isSchedulable] using hschedulable
  | unary o t =>
      simp only [Tree.PrecedenceCorrect] at ht
      cases d
      · simp only [Tree.items, List.append_assoc, List.cons_append, List.nil_append]
        rw [Tree.kindsAfter_items t ht.1 _ (fun h => ht.2.2 (of_decide_eq_true h))]
        exact kindsAfter_cons (Operator.kinds?_unary o ks)
      · exact absurd (hd rfl) (by simp [Tree.isSchedulable])
  | binary o l r =>
      simp only [Tree.PrecedenceCorrect] at ht
      cases d
      · simp only [Tree.items, List.append_assoc, List.cons_append, List.nil_append]
        rw [Tree.kindsAfter_items l ht.1 false (fun h => by cases h),
          Tree.kindsAfter_items r ht.2.1 false (fun h => by cases h)]
        exact kindsAfter_cons (Operator.kinds?_binary o ks)
      · exact absurd (hd rfl) (by simp [Tree.isSchedulable])

/-- The items of arguments leave one value each. -/
theorem Tree.kindsAfter_listItems (ts : List Tree) (hts : Tree.AllPrecedenceCorrect ts)
    (is : List Item) (ks : List Kind) :
    kindsAfter (Tree.listItems ts ++ is) ks =
      kindsAfter is (List.replicate ts.length .value ++ ks) := by
  cases ts with
  | nil => rfl
  | cons t ts =>
      simp only [Tree.AllPrecedenceCorrect] at hts
      simp only [Tree.listItems, List.append_assoc]
      rw [Tree.kindsAfter_items t hts.1 false (fun h => by cases h),
        Tree.kindsAfter_listItems ts hts.2, List.length_cons, List.replicate_succ']
      simp [Kind.ofCall]

end

/-- Compiled items take nothing but what they have left themselves, and leave one value. -/
theorem Code.kindsAfter_itemsOf {raws : List String} {items : List Item}
    (h : Code.itemsOf raws = .ok items) (ks : List Kind) :
    kindsAfter items ks = some (.value :: ks) := by
  obtain ⟨t, ht, rfl⟩ := Tree.items_of_itemsOf h
  have hkinds := Tree.kindsAfter_items t ht false (fun h => by cases h) [] ks
  rw [List.append_nil] at hkinds
  exact hkinds

end Statute
