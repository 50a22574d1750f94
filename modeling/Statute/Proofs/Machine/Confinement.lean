import Statute.Proofs.Machine.Nesting
import Statute.Proofs.Machine.Operands
import Statute.Proofs.Value.Operations
import Mathlib.Data.List.Forall2

/-!
# Boxes and deferred calls stay on the operands

Field access leaves the box of the field on the operands, and a call that is to be scheduled leaves
itself there. Neither gets anywhere else: whatever an item takes off the operands to hand it on
loses its box, and a deferred call is taken by the scheduling operator right after it.

The kinds of the operands tell where a box or a deferred call can be. In a machine all of whose
frames are tidy, the values that are bound, returned, handed on and stored are bare.
-/

namespace Statute

open Value (areBare areBare_iff)

/-! ## Literals -/

/-- What an item brings along carries nothing. -/
def Item.IsPlain : Item → Prop
  | .push v => v.IsScalar
  | _ => True

/-- Whether there is no box and no deferred call in an item. -/
def Item.isBare : Item → Bool
  | .push v => v.isBare
  | _ => true

theorem Item.IsPlain.isBare {i : Item} (h : i.IsPlain) : i.isBare = true := by
  cases i with
  | push v => exact Value.IsScalar.isBare h
  | _ => rfl

mutual

theorem Primary.isPlain_items (p : Primary) (d : Bool) : ∀ i ∈ p.items d, i.IsPlain := by
  cases p with
  | literal l =>
      intro i hi
      rw [Primary.items, List.mem_singleton] at hi
      rw [hi]
      cases l <;> trivial
  | name n => cases d <;> simp [Primary.items, Item.IsPlain]
  | call n args =>
      have hargs := Tree.isPlain_listItems args
      simpa [Primary.items, Item.IsPlain, or_imp, forall_and] using hargs
  | field p f =>
      have hp := Primary.isPlain_items p false
      simpa [Primary.items, Item.IsPlain, or_imp, forall_and] using hp
  | invoke p f args =>
      have hp := Primary.isPlain_items p false
      have hargs := Tree.isPlain_listItems args
      simpa [Primary.items, Item.IsPlain, or_imp, forall_and] using ⟨hp, hargs⟩
  | group t =>
      rw [Primary.items]
      exact Tree.isPlain_items t d

theorem Tree.isPlain_items (t : Tree) (d : Bool) : ∀ i ∈ t.items d, i.IsPlain := by
  cases t with
  | operand p =>
      rw [Tree.items]
      exact Primary.isPlain_items p d
  | unary o t =>
      have ht := Tree.isPlain_items t (o.1 = .background)
      simpa [Tree.items, Item.IsPlain, or_imp, forall_and] using ht
  | binary o l r =>
      have hl := Tree.isPlain_items l false
      have hr := Tree.isPlain_items r false
      simpa [Tree.items, Item.IsPlain, or_imp, forall_and] using ⟨hl, hr⟩

theorem Tree.isPlain_listItems (ts : List Tree) : ∀ i ∈ Tree.listItems ts, i.IsPlain := by
  cases ts with
  | nil => simp [Tree.listItems]
  | cons t ts =>
      have ht := Tree.isPlain_items t false
      have hts := Tree.isPlain_listItems ts
      simpa [Tree.listItems, or_imp, forall_and] using ⟨ht, hts⟩

end

theorem Primary.isBare_items (p : Primary) (d : Bool) : ∀ i ∈ p.items d, i.isBare = true :=
  fun i hi => (p.isPlain_items d i hi).isBare

theorem Tree.isBare_items (t : Tree) (d : Bool) : ∀ i ∈ t.items d, i.isBare = true :=
  fun i hi => (t.isPlain_items d i hi).isBare

/-- A compiled expression has literals in it, which carry nothing. -/
theorem Code.isPlain_itemsOf {raws : List String} {items : List Item}
    (h : Code.itemsOf raws = .ok items) : ∀ i ∈ items, i.IsPlain := by
  obtain ⟨t, -, rfl⟩ := Tree.items_of_itemsOf h
  exact t.isPlain_items false

theorem Expression.isPlain_compile {e : Expression} {c : Code} (h : e.compile = .ok c) :
    ∀ i ∈ c.items, i.IsPlain :=
  Code.isPlain_itemsOf (itemsOf_of_compile h)

/-! ## Operands -/

namespace Operand

/-- An operand of a kind, where a value may be a box, and a deferred call is one of bare values. -/
inductive Fits : Operand → Kind → Prop
  | bare {v : Value} (hv : v.isBare = true) : Fits (.value v) .value
  | field (b : BoxRef) : Fits (.value (.field b)) .value
  | deferred {callee : Value} {args : List Value} (hcallee : callee.isBare = true)
      (hargs : areBare args = true) : Fits (.value (.deferred callee args)) .deferred
  | attr (name : String) : Fits (.attr name) .attr
  | mark : Fits .mark .mark

variable {heap : Heap} {v : Value} {stack : List Operand} {k : Kind} {ks ks' : List Kind}

theorem Fits.unbox (h : Fits (.value v) .value) (hbare : heap.Bare) :
    (heap.unbox v).isBare = true := by
  cases h with
  | bare hv => rwa [heap.unbox_of_isBare hv]
  | field b =>
      rw [hbare.unbox_field]
      exact hbare.boxes b

theorem exists_of_value (h : List.Forall₂ Fits stack (.value :: ks)) :
    ∃ v rest, stack = .value v :: rest ∧ Fits (.value v) .value ∧ List.Forall₂ Fits rest ks := by
  obtain ⟨o, rest, ho, hrest, rfl⟩ := List.forall₂_cons_right_iff.mp h
  cases ho with
  | bare hv => exact ⟨_, rest, rfl, .bare hv, hrest⟩
  | field b => exact ⟨_, rest, rfl, .field b, hrest⟩

/-- Arguments lose their boxes. -/
theorem exists_popArgs (hbare : heap.Bare) (h : List.Forall₂ Fits stack ks)
    (hdrop : Kind.dropArgs ks = some ks') (later : List Value) (hlater : areBare later = true) :
    ∃ args rest, popArgs heap later stack = .ok (args, rest) ∧ areBare args = true ∧
      List.Forall₂ Fits rest ks' := by
  induction h generalizing later with
  | nil => contradiction
  | cons ho hrest ih =>
      cases ho with
      | bare hv =>
          refine ih hdrop _ ?_
          simp [(Fits.bare hv).unbox hbare, hlater]
      | field b =>
          refine ih hdrop _ ?_
          simp [(Fits.field b).unbox hbare, hlater]
      | deferred => contradiction
      | attr => contradiction
      | mark =>
          obtain rfl := Option.some.inj hdrop
          exact ⟨later, _, rfl, hlater, hrest⟩

end Operand

namespace Effect

/-- An effect leaves operands of the given kinds, and hands on bare values only. -/
def Confines (ks : List Kind) : Effect → Prop
  | .next stack => List.Forall₂ Operand.Fits stack ks
  | .call callee args stack =>
      callee.isBare = true ∧ areBare args = true ∧
        ∃ below, ks = .value :: below ∧ List.Forall₂ Operand.Fits stack below
  | .schedule callee args stack =>
      callee.isBare = true ∧ areBare args = true ∧
        ∃ below, ks = .value :: below ∧ List.Forall₂ Operand.Fits stack below
  | .await _ stack => ∃ below, ks = .value :: below ∧ List.Forall₂ Operand.Fits stack below
  | .fail _ => True
  | .crash _ => True

theorem confines_bind {α : Type} {x : Except Failure α} {f : α → Except Failure Effect}
    {ks : List Kind} (hf : ∀ a, x = .ok a → (ofExcept (f a)).Confines ks) :
    (ofExcept (x >>= f)).Confines ks := by
  cases x with
  | error e => trivial
  | ok a => exact hf a rfl

theorem confines_ofAnswer {stack : List Operand} {answer : HostAnswer} {ks : List Kind}
    (hstack : List.Forall₂ Operand.Fits stack ks)
    (hanswer : ∀ v, answer = .value v → v.isBare = true) :
    (ofAnswer stack answer).Confines (.value :: ks) := by
  cases answer with
  | value v => exact .cons (.bare (hanswer v rfl)) hstack
  | failure f => trivial
  | crash message => trivial

end Effect

namespace Item

variable {s : Setting} {h : Heap} {env : Env} {stack : List Operand} {ks ks' : List Kind}

theorem confines_callEffect (hhost : Host.Bare s.host) {callee : Value} {args : List Value}
    (hcallee : callee.isBare = true) (hargs : areBare args = true)
    (hstack : List.Forall₂ Operand.Fits stack ks) (deferred : Bool) :
    (callEffect s h callee args deferred stack).Confines (.ofCall deferred :: ks) := by
  unfold callEffect
  split
  · trivial
  · split
    · next hdeferred =>
        rw [hdeferred]
        exact .cons (.deferred hcallee hargs) hstack
    · next hdeferred =>
        rw [eq_false_of_ne_true hdeferred]
        split
        · exact Effect.confines_ofAnswer hstack fun v hv =>
            Extension.isBare_of_checkedCall hhost hargs hv
        · exact ⟨hcallee, hargs, ks, rfl, hstack⟩

theorem confines_operatorEffect {o : Operator} (hbare : h.Bare)
    (hstack : List.Forall₂ Operand.Fits stack ks) (hkinds : o.kinds? ks = some ks') :
    (operatorEffect h o stack).Confines ks' := by
  rcases Operator.kinds?_eq_some hkinds with ⟨rfl, below, rfl, rfl⟩ | ⟨rfl, below, rfl, rfl⟩ |
    ⟨hdot, hbackground, below, rfl, hcase⟩
  · obtain ⟨o, rest, ho, hrest, rfl⟩ := List.forall₂_cons_right_iff.mp hstack
    cases ho
    obtain ⟨v, rest, rfl, -, hbelow⟩ := Operand.exists_of_value hrest
    refine Effect.confines_bind (x := h.member v _) fun w hw => ?_
    rcases hbare.member hw with hw | ⟨b, rfl⟩
    · exact .cons (.bare hw) hbelow
    · exact .cons (.field b) hbelow
  · obtain ⟨o, rest, ho, hrest, rfl⟩ := List.forall₂_cons_right_iff.mp hstack
    cases ho with
    | deferred hcallee hargs => exact ⟨hcallee, hargs, below, rfl, hrest⟩
  · obtain ⟨right, rest, rfl, hright, hrest⟩ := Operand.exists_of_value hstack
    by_cases hwait : o = .wait
    · subst hwait
      rcases hcase with ⟨-, rfl⟩ | ⟨hbinary, -⟩
      · simp only [operatorEffect, awaitEffect]
        split
        · exact ⟨below, rfl, hrest⟩
        · trivial
      · contradiction
    · simp only [operatorEffect, Operand.pop]
      rcases hcase with ⟨hunary, rfl⟩ | ⟨hbinary, below, rfl, rfl⟩
      · simp only [hunary, if_true]
        exact Effect.confines_bind (x := h.unary o right) fun w hw =>
          .cons (.bare ((gives_unary h o right).result w hw).isBare) hrest
      · obtain ⟨left, rest, rfl, hleft, hbelow⟩ := Operand.exists_of_value hrest
        simp only [hbinary]
        refine Effect.confines_bind (x := h.binary o left right) fun w hw => ?_
        exact .cons (.bare (Value.pervasive_isBare.binary hbinary hdot (hleft.unbox hbare)
          (hright.unbox hbare) hw)) hbelow

/-- An item leaves the kinds that it foretells, and hands on bare values only. -/
theorem confines_effect {i : Item} (env : Env) (hhost : Host.Bare s.host) (hbare : h.Bare)
    (hi : i.isBare = true) (hstack : List.Forall₂ Operand.Fits stack ks)
    (hkinds : i.kinds? ks = some ks') : (i.effect s h env stack).Confines ks' := by
  cases i with
  | push v =>
      obtain rfl := Option.some.inj hkinds
      exact .cons (.bare hi) hstack
  | load name =>
      obtain rfl := Option.some.inj hkinds
      simp only [effect]
      split
      · trivial
      · next e he =>
          split
          · exact Effect.confines_ofAnswer hstack fun v hv =>
              Extension.isBare_of_call hhost rfl hv
          · exact .cons (.bare rfl) hstack
      · next v _ hv =>
          exact .cons (.bare (hbare.resolve hv)) hstack
  | attr name =>
      obtain rfl := Option.some.inj hkinds
      exact .cons (.attr name) hstack
  | args =>
      obtain rfl := Option.some.inj hkinds
      exact .cons .mark hstack
  | call name deferred =>
      obtain ⟨below, hdrop, rfl⟩ := Option.map_eq_some_iff.mp hkinds
      obtain ⟨args, rest, hpop, hargs, hrest⟩ :=
        Operand.exists_popArgs hbare hstack hdrop [] rfl
      simp only [effect, hpop]
      refine Effect.confines_bind (x := s.resolve h env name) fun callee hcallee => ?_
      exact confines_callEffect hhost (hbare.resolve hcallee) hargs hrest deferred
  | invoke deferred =>
      obtain ⟨below, hdrop, rfl⟩ := kinds?_invoke hkinds
      obtain ⟨args, rest, hpop, hargs, hrest⟩ :=
        Operand.exists_popArgs hbare hstack hdrop [] rfl
      obtain ⟨callee, rest, rfl, hcallee, hbelow⟩ := Operand.exists_of_value hrest
      simp only [effect, hpop]
      exact confines_callEffect hhost (hcallee.unbox hbare) hargs hbelow deferred
  | op o => exact confines_operatorEffect hbare hstack hkinds

end Item

end Statute
