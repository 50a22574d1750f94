import Statute.Proofs.Concurrency.Escape
import Statute.Proofs.Concurrency.Provenance
import Statute.Proofs.Expression.Operation
import Statute.Proofs.Machine.History

/-!
# The turns of an expression

An expression that is evaluated has its turn again and again: it goes on by an item, or it has
received the value of a call. Between two turns all sorts of things can happen, but not to the
expression: from one turn to the next a single item has been evaluated, and the operands are those
that the item has left, perhaps with a value on top that was waited for. `Item.Evaluated` is all
that a turn needs to know of the earlier ones.

An item looks no further down than to the operands that it takes. So an operand stays as it is until
the item that takes it has its turn, whatever is called in between. Only then is a box opened that
an access of a field has left there. Everything else leaves its value, and that is the value that
will be taken.
-/

namespace Statute

open Value (areBare)

/-! ## One item -/

namespace Effect

/-- The effect with more operands below. -/
def above (stack : List Operand) : Effect → Effect
  | .next top => .next (top ++ stack)
  | .call callee args top => .call callee args (top ++ stack)
  | .schedule callee args top => .schedule callee args (top ++ stack)
  | .await t top => .await t (top ++ stack)
  | .fail f => .fail f
  | .crash message => .crash message

/-- The operands below the value that an effect waits for. -/
def under? : Effect → Option (List Operand)
  | .call _ _ stack => some stack
  | .schedule _ _ stack => some stack
  | .await _ stack => some stack
  | _ => none

theorem above_ofExcept_bind {α : Type} {x : Except Failure α} {f g : α → Except Failure Effect}
    {stack : List Operand} (h : ∀ a, ofExcept (f a) = (ofExcept (g a)).above stack) :
    ofExcept (x >>= f) = (ofExcept (x >>= g)).above stack := by
  cases x with
  | error e => rfl
  | ok a => exact h a

theorem above_ofAnswer (top stack : List Operand) (answer : HostAnswer) :
    ofAnswer (top ++ stack) answer = (ofAnswer top answer).above stack := by
  cases answer <;> rfl

end Effect

namespace Item

variable {s : Setting} {h : Heap} {env : Env} {i : Item} {top stack : List Operand}

theorem above_callEffect (callee : Value) (args : List Value) (deferred : Bool)
    (top stack : List Operand) :
    callEffect s h callee args deferred (top ++ stack) =
      (callEffect s h callee args deferred top).above stack := by
  unfold callEffect
  split
  · rfl
  · split
    · rfl
    · split
      · exact Effect.above_ofAnswer top stack _
      · rfl

theorem popArgs_append {later args : List Value} {rest : List Operand}
    (hpop : Operand.popArgs h later top = .ok (args, rest)) (stack : List Operand) :
    Operand.popArgs h later (top ++ stack) = .ok (args, rest ++ stack) := by
  induction top generalizing later with
  | nil => contradiction
  | cons o top ih =>
      cases o with
      | value v => exact ih hpop
      | mark =>
          obtain ⟨rfl, rfl⟩ := Prod.mk.inj (Except.ok.inj hpop)
          rfl
      | attr name => contradiction

theorem above_operatorEffect {o : Operator} (hfinds : (Item.op o).Finds h top)
    (stack : List Operand) :
    operatorEffect h o (top ++ stack) = (operatorEffect h o top).above stack := by
  by_cases hdot : o = .dot
  · subst hdot
    obtain ⟨name, v, rest, rfl⟩ := hfinds
    exact Effect.above_ofExcept_bind (x := h.member v name) fun w => rfl
  by_cases hbackground : o = .background
  · subst hbackground
    obtain ⟨callee, args, rest, rfl⟩ := hfinds
    rfl
  obtain ⟨right, rest, rfl, hleft⟩ : ∃ v rest, top = .value v :: rest ∧
      (o.isUnary = false → ∃ v' rest', rest = .value v' :: rest') := by
    cases o <;> first
      | contradiction
      | exact hfinds
  by_cases hwait : o = .wait
  · subst hwait
    simp only [operatorEffect, awaitEffect, List.cons_append]
    split <;> rfl
  simp only [operatorEffect, List.cons_append, Operand.pop]
  cases hunary : o.isUnary with
  | true => exact Effect.above_ofExcept_bind (x := h.unary o right) fun w => rfl
  | false =>
      obtain ⟨left, rest, rfl⟩ := hleft hunary
      exact Effect.above_ofExcept_bind (x := h.binary o left right) fun w => rfl

/-- An item that finds what it takes does not look at what is below. -/
theorem effect_append (hfinds : i.Finds h top) (stack : List Operand) :
    i.effect s h env (top ++ stack) = (i.effect s h env top).above stack := by
  cases i with
  | push v => rfl
  | load name =>
      simp only [effect]
      split
      · rfl
      · split
        · exact Effect.above_ofAnswer top stack _
        · rfl
      · rfl
  | attr name => rfl
  | args => rfl
  | call name deferred =>
      obtain ⟨args, rest, hpop⟩ := hfinds
      simp only [effect, hpop, popArgs_append hpop stack]
      exact Effect.above_ofExcept_bind (x := s.resolve h env name)
        fun callee => above_callEffect callee args deferred rest stack
  | invoke deferred =>
      obtain ⟨args, callee, rest, hpop⟩ := hfinds
      simp only [effect, hpop, popArgs_append hpop stack]
      exact above_callEffect (h.unbox callee) args deferred rest stack
  | op o => exact above_operatorEffect hfinds stack

end Item

/-! ## Boxes -/

/-- A value that an effect puts on top of the operands is no box. -/
def Effect.IsBoxless : Effect → Prop
  | .next (.value v :: _) => ∀ b, v ≠ .field b
  | _ => True

theorem Effect.isBoxless_push {v : Value} (hv : v.isBare = true) (stack : List Operand) :
    (push stack v).IsBoxless := by
  rintro b rfl
  contradiction

theorem Effect.isBoxless_bind {α : Type} {x : Except Failure α} {f : α → Except Failure Effect}
    (hf : ∀ a, x = .ok a → (ofExcept (f a)).IsBoxless) : (ofExcept (x >>= f)).IsBoxless := by
  cases x with
  | error e => trivial
  | ok a => exact hf a rfl

theorem Effect.isBoxless_ofAnswer {answer : HostAnswer} (stack : List Operand)
    (hanswer : ∀ v, answer = .value v → v.isBare = true) :
    (ofAnswer stack answer).IsBoxless := by
  cases answer with
  | value v => exact isBoxless_push (hanswer v rfl) stack
  | failure f => trivial
  | crash message => trivial

namespace Item

variable {s : Setting} {h : Heap} {i : Item} {stack : List Operand} {ks ks' : List Kind}

theorem isBoxless_callEffect (hhost : Host.Bare s.host) (callee : Value) {args : List Value}
    (hargs : areBare args = true) (deferred : Bool) (stack : List Operand) :
    (callEffect s h callee args deferred stack).IsBoxless := by
  unfold callEffect
  split
  · trivial
  · split
    · exact fun b hb => nomatch hb
    · split
      · exact Effect.isBoxless_ofAnswer stack fun v hv =>
          Extension.isBare_of_checkedCall hhost hargs hv
      · trivial

theorem isBoxless_operatorEffect {o : Operator} (hbare : h.Bare) (hdot : o ≠ .dot)
    (hstack : List.Forall₂ Operand.Fits stack ks) (hkinds : o.kinds? ks = some ks') :
    (operatorEffect h o stack).IsBoxless := by
  rcases Operator.kinds?_eq_some hkinds with ⟨rfl, -⟩ | ⟨rfl, below, rfl, rfl⟩ |
    ⟨-, hbackground, below, rfl, hcase⟩
  · contradiction
  · obtain ⟨o, rest, ho, hrest, rfl⟩ := List.forall₂_cons_right_iff.mp hstack
    cases ho
    trivial
  · obtain ⟨right, rest, rfl, hright, hrest⟩ := Operand.exists_of_value hstack
    by_cases hwait : o = .wait
    · subst hwait
      simp only [operatorEffect, awaitEffect]
      split <;> trivial
    · simp only [operatorEffect, Operand.pop]
      rcases hcase with ⟨hunary, rfl⟩ | ⟨hbinary, below, rfl, rfl⟩
      · simp only [hunary, if_true]
        exact Effect.isBoxless_bind (x := h.unary o right) fun w hw =>
          Effect.isBoxless_push ((gives_unary h o right).result w hw).isBare rest
      · obtain ⟨left, rest, rfl, hleft, hbelow⟩ := Operand.exists_of_value hrest
        simp only [hbinary]
        refine Effect.isBoxless_bind (x := h.binary o left right) fun w hw => ?_
        exact Effect.isBoxless_push (Value.pervasive_isBare.binary hbinary hdot (hleft.unbox hbare)
          (hright.unbox hbare) hw) rest

/-- Only an access of a field puts a box on top of the operands. -/
theorem isBoxless_effect (env : Env) (hhost : Host.Bare s.host) (hbare : h.Bare)
    (hi : i.isBare = true) (hdot : i ≠ .op .dot) (hstack : List.Forall₂ Operand.Fits stack ks)
    (hkinds : i.kinds? ks = some ks') : (i.effect s h env stack).IsBoxless := by
  cases i with
  | push v => exact Effect.isBoxless_push hi stack
  | load name =>
      simp only [effect]
      split
      · trivial
      · split
        · exact Effect.isBoxless_ofAnswer stack fun v hv => Extension.isBare_of_call hhost rfl hv
        · exact Effect.isBoxless_push rfl stack
      · next v _ hv =>
          exact Effect.isBoxless_push (hbare.resolve hv) stack
  | attr name => trivial
  | args => trivial
  | call name deferred =>
      obtain ⟨below, hdrop, -⟩ := Option.map_eq_some_iff.mp hkinds
      obtain ⟨args, rest, hpop, hargs, -⟩ := Operand.exists_popArgs hbare hstack hdrop [] rfl
      simp only [effect, hpop]
      exact Effect.isBoxless_bind (x := s.resolve h env name) fun callee _ =>
        isBoxless_callEffect hhost callee hargs deferred rest
  | invoke deferred =>
      obtain ⟨below, hdrop, -⟩ := kinds?_invoke hkinds
      obtain ⟨args, rest, hpop, hargs, hrest⟩ := Operand.exists_popArgs hbare hstack hdrop [] rfl
      obtain ⟨callee, rest, rfl, -, -⟩ := Operand.exists_of_value hrest
      simp only [effect, hpop]
      exact isBoxless_callEffect hhost (h.unbox callee) hargs deferred rest
  | op o => exact isBoxless_operatorEffect hbare (fun ho => hdot (by rw [ho])) hstack hkinds

end Item

/-! ## Items one after the other -/

/-- There are no boxes and no deferred calls on the heap and among the outcomes of tasks. -/
structure World.Bare (w : World) : Prop where
  heap : w.heap.Bare
  outcomes : ∀ t v, (w.task t).outcome = some (.ok v) → v.isBare = true

namespace Item

variable {s : Setting} {i : Item} {is js rest : List Item} {top stack mid after : List Operand}
  {ks ks' : List Kind} {At : World → Prop} {Turn Turn' : List Item → List Operand → World → Prop}

/-- What the operands can be after an item that was evaluated in one of certain worlds: those that
it leaves at once, or those that it leaves below a value that is waited for. -/
inductive Comes (s : Setting) (At : World → Prop) (i : Item) (stack : List Operand) :
    List Operand → Prop
  | next {w : World} {env : Env} {after : List Operand} (hw : At w)
      (heffect : i.effect s w.heap env stack = .next after) : Comes s At i stack after
  | answered {w : World} {env : Env} {under : List Operand} {v : Value} (hw : At w)
      (heffect : (i.effect s w.heap env stack).under? = some under) (hv : v.isBare = true) :
      Comes s At i stack (.value v :: under)

/-- What the operands can be after several items that others follow. An item was evaluated in a
world in which the items from it on had their turn. -/
inductive Evaluated (s : Setting) (Turn : List Item → List Operand → World → Prop)
    (rest : List Item) : List Item → List Operand → List Operand → Prop
  | nil (stack : List Operand) : Evaluated s Turn rest [] stack stack
  | cons {i : Item} {is : List Item} {stack mid after : List Operand}
      (hi : i.Comes s (Turn (i :: (is ++ rest)) stack) stack mid)
      (his : Evaluated s Turn rest is mid after) : Evaluated s Turn rest (i :: is) stack after

theorem Comes.imp {At' : World → Prop} (h : i.Comes s At stack after)
    (himp : ∀ w, At w → At' w) : i.Comes s At' stack after := by
  cases h with
  | next hw heffect => exact .next (himp _ hw) heffect
  | answered hw heffect hv => exact .answered (himp _ hw) heffect hv

theorem Evaluated.imp (h : Evaluated s Turn rest is stack after)
    (himp : ∀ items stack w, Turn items stack w → Turn' items stack w) :
    Evaluated s Turn' rest is stack after := by
  induction h with
  | nil stack => exact .nil stack
  | cons hi _ ih => exact .cons (hi.imp (himp _ _)) ih

theorem Evaluated.append (h : Evaluated s Turn (js ++ rest) is stack mid)
    (h' : Evaluated s Turn rest js mid after) : Evaluated s Turn rest (is ++ js) stack after := by
  induction h with
  | nil stack => exact h'
  | cons hi _ ih =>
      rw [← List.append_assoc] at hi
      exact .cons hi (ih h')

theorem Evaluated.of_append (h : Evaluated s Turn rest (is ++ js) stack after) :
    ∃ mid, Evaluated s Turn (js ++ rest) is stack mid ∧ Evaluated s Turn rest js mid after := by
  induction is generalizing stack with
  | nil => exact ⟨stack, .nil stack, h⟩
  | cons i is ih =>
      cases h with
      | cons hi his =>
          obtain ⟨mid, hmid, hafter⟩ := ih his
          exact ⟨mid, .cons (List.append_assoc is js rest ▸ hi) hmid, hafter⟩

theorem Evaluated.of_singleton (h : Evaluated s Turn rest [i] stack after) :
    i.Comes s (Turn (i :: rest) stack) stack after := by
  cases h with
  | cons hi his =>
      cases his
      exact hi

/-- Operands that fit their kinds are of these kinds. -/
theorem hasKinds_of_fits (h : List.Forall₂ Operand.Fits stack ks) : Operand.HasKinds stack ks := by
  induction h with
  | nil => exact .nil
  | cons ho _ ih =>
      cases ho with
      | bare hv => exact .cons (.value _) ih
      | field b => exact .cons (.value _) ih
      | deferred => exact .cons (.deferred _ _) ih
      | attr name => exact .cons (.attr name) ih
      | mark => exact .cons .mark ih

/-- What an item comes to replaces the operands that it takes, and only an access of a field leaves
a box. -/
theorem Comes.confined (hcomes : i.Comes s At (top ++ stack) after)
    (hat : ∀ w, At w → w.Bare) (hhost : Host.Bare s.host) (hi : i.isBare = true)
    (htop : List.Forall₂ Operand.Fits top ks) (hkinds : i.kinds? ks = some ks') :
    ∃ top', after = top' ++ stack ∧ List.Forall₂ Operand.Fits top' ks' ∧
      (i ≠ .op .dot → ∀ b rest, top' ≠ .value (.field b) :: rest) := by
  have happend : ∀ h env,
      i.effect s h env (top ++ stack) = (i.effect s h env top).above stack := fun h env =>
    effect_append (finds_of_kinds? (hasKinds_of_fits htop) hkinds h) stack
  cases hcomes with
  | @next w env _ hw heffect =>
      replace hw := hat w hw
      have hconfines := confines_effect env hhost hw.heap hi htop hkinds
      have hboxless := fun hdot => isBoxless_effect env hhost hw.heap hi hdot htop hkinds
      rw [happend] at heffect
      cases htaken : i.effect s w.heap env top with
      | next top' =>
          rw [htaken] at heffect hconfines hboxless
          obtain rfl := Effect.next.inj heffect
          refine ⟨top', rfl, hconfines, ?_⟩
          rintro hdot b rest rfl
          exact hboxless hdot b rfl
      | _ =>
          rw [htaken] at heffect
          contradiction
  | @answered w env under v hw heffect hv =>
      replace hw := hat w hw
      have hconfines := confines_effect env hhost hw.heap hi htop hkinds
      rw [happend] at heffect
      have hunder : ∃ under', under = under' ++ stack ∧
          ∃ below, ks' = .value :: below ∧ List.Forall₂ Operand.Fits under' below := by
        cases htaken : i.effect s w.heap env top with
        | call callee args under' =>
            rw [htaken] at heffect hconfines
            exact ⟨under', (Option.some.inj heffect).symm, hconfines.2.2⟩
        | schedule callee args under' =>
            rw [htaken] at heffect hconfines
            exact ⟨under', (Option.some.inj heffect).symm, hconfines.2.2⟩
        | await t under' =>
            rw [htaken] at heffect hconfines
            exact ⟨under', (Option.some.inj heffect).symm, hconfines⟩
        | _ =>
            rw [htaken] at heffect
            contradiction
      obtain ⟨under', rfl, below, rfl, hbelow⟩ := hunder
      refine ⟨.value v :: under', rfl, .cons (.bare hv) hbelow, ?_⟩
      rintro - b rest hbox
      cases hbox
      contradiction

/-- Items that are not refused replace the operands that they take. -/
theorem Evaluated.confined (top : List Operand) (h : Evaluated s Turn rest is (top ++ stack) after)
    (hturn : ∀ items stack w, Turn items stack w → w.Bare) (hhost : Host.Bare s.host)
    (his : ∀ i ∈ is, i.isBare = true) (htop : List.Forall₂ Operand.Fits top ks)
    (hkinds : kindsAfter is ks = some ks') :
    ∃ top', after = top' ++ stack ∧ List.Forall₂ Operand.Fits top' ks' := by
  induction is generalizing top ks with
  | nil =>
      cases h
      obtain rfl := Option.some.inj hkinds
      exact ⟨top, rfl, htop⟩
  | cons i is ih =>
      cases h with
      | cons hcomes hrest =>
          obtain ⟨hi, his⟩ := List.forall_mem_cons.mp his
          obtain ⟨ks₁, hkinds₁, hkinds⟩ := Option.bind_eq_some_iff.mp hkinds
          obtain ⟨top₁, rfl, htop₁, -⟩ := hcomes.confined (hturn _ _) hhost hi htop hkinds₁
          exact ih top₁ hrest his htop₁ hkinds

theorem kindsAfter_append (is js : List Item) (ks : List Kind) :
    kindsAfter (is ++ js) ks = (kindsAfter is ks).bind (kindsAfter js) := by
  induction is generalizing ks with
  | nil => rfl
  | cons i is ih =>
      simp only [List.cons_append, kindsAfter, Option.bind_assoc]
      congr 1
      funext ks'
      exact ih ks'

/-- Items that come to a single value leave a bare one, unless the last of them accesses a field. -/
theorem Evaluated.isBare (h : Evaluated s Turn rest (is ++ [i]) stack after)
    (hturn : ∀ items stack w, Turn items stack w → w.Bare) (hhost : Host.Bare s.host)
    (his : ∀ j ∈ is ++ [i], j.isBare = true)
    (hkinds : kindsAfter (is ++ [i]) [] = some [.value]) (hdot : i ≠ .op .dot) :
    ∃ v, after = .value v :: stack ∧ v.isBare = true := by
  obtain ⟨mid, hfront, hlast⟩ := h.of_append
  rw [kindsAfter_append] at hkinds
  obtain ⟨ks, hkinds₁, hkinds⟩ := Option.bind_eq_some_iff.mp hkinds
  obtain ⟨ks₂, hkinds₂, hks₂⟩ := Option.bind_eq_some_iff.mp hkinds
  obtain rfl := Option.some.inj hks₂
  obtain ⟨top, rfl, htop⟩ := Evaluated.confined [] hfront hturn hhost
    (fun j hj => his j (List.mem_append_left _ hj)) .nil hkinds₁
  obtain ⟨top', rfl, htop', hboxless⟩ := hlast.of_singleton.confined (hturn _ _) hhost
    (his i (List.mem_append_right _ List.mem_cons_self)) htop hkinds₂
  obtain ⟨v, rest, rfl, hv, hrest⟩ := Operand.exists_of_value htop'
  cases hrest
  refine ⟨v, rfl, ?_⟩
  cases hv with
  | bare hv => exact hv
  | field b => exact absurd rfl (hboxless hdot b [])

end Item

/-! ## Trees -/

mutual

theorem Primary.exists_last (p : Primary) (h : p.field? = none) :
    ∃ is i, p.items false = is ++ [i] ∧ i ≠ .op .dot := by
  cases p with
  | literal l => exact ⟨[], .push l.toValue, by rw [Primary.items]; rfl, nofun⟩
  | name n => exact ⟨[], .load n, by rw [Primary.items]; rfl, nofun⟩
  | call n args =>
      exact ⟨.args :: Tree.listItems args, .call n false, by rw [Primary.items], nofun⟩
  | field p f => simp [Primary.field?] at h
  | invoke p f args =>
      exact ⟨p.items false ++ .attr f :: .op .dot :: .args :: Tree.listItems args, .invoke false,
        by simp [Primary.items], nofun⟩
  | group t =>
      rw [Primary.field?] at h
      rw [Primary.items]
      exact Tree.exists_last t h

/-- The last item of a tree that does not access a field. -/
theorem Tree.exists_last (t : Tree) (h : t.field? = none) :
    ∃ is i, t.items false = is ++ [i] ∧ i ≠ .op .dot := by
  cases t with
  | operand p =>
      rw [Tree.field?] at h
      rw [Tree.items]
      exact Primary.exists_last p h
  | unary o t =>
      refine ⟨_, _, by rw [Tree.items], ?_⟩
      obtain ⟨o, ho⟩ := o
      rintro heq
      obtain rfl : o = .dot := Item.op.inj heq
      contradiction
  | binary o l r =>
      exact ⟨_, _, by rw [Tree.items], fun heq => o.2.2 (Item.op.inj heq)⟩

end

mutual

theorem Primary.exists_owner {f : String} (p : Primary) (hp : p.PrecedenceCorrect)
    (h : p.field? = some f) :
    ∃ q : Primary, q.PrecedenceCorrect ∧ p.items false = q.items false ++ [.attr f, .op .dot] := by
  cases p with
  | field q g =>
      rw [Primary.field?] at h
      rw [Primary.PrecedenceCorrect] at hp
      obtain rfl := Option.some.inj h
      exact ⟨q, hp, by rw [Primary.items]⟩
  | group t =>
      rw [Primary.field?] at h
      rw [Primary.PrecedenceCorrect] at hp
      rw [Primary.items]
      exact Tree.exists_owner t hp h
  | _ => simp [Primary.field?] at h

/-- The items of a tree that accesses a field are those of what owns the field, and the access. -/
theorem Tree.exists_owner {f : String} (t : Tree) (ht : t.PrecedenceCorrect)
    (h : t.field? = some f) :
    ∃ q : Primary, q.PrecedenceCorrect ∧ t.items false = q.items false ++ [.attr f, .op .dot] := by
  cases t with
  | operand p =>
      rw [Tree.field?] at h
      rw [Tree.PrecedenceCorrect] at ht
      rw [Tree.items]
      exact Primary.exists_owner p ht h
  | _ => simp [Tree.field?] at h

end

/-- What a value has under a name: the box of a field of an object, or else a bare value. -/
inductive Heap.Reads (h : Heap) (owner : Value) (f : String) : Value → Prop
  | field {r : ObjectRef} {b : BoxRef} (howner : h.unbox owner = .object r)
      (hbox : h.field? r f = some b) : Reads h owner f (.field b)
  | other {v : Value} (hv : v.isBare = true)
      (hnone : ∀ r, h.unbox owner = .object r → h.field? r f = none) : Reads h owner f v

theorem Heap.Bare.reads {h : Heap} {owner v : Value} {f : String} (hbare : h.Bare)
    (hmember : h.member owner f = .ok v) : h.Reads owner f v := by
  simp only [Heap.member, Heap.memberBy] at hmember
  split at hmember
  · next r howner =>
      split at hmember
      · next b _ hfield =>
          obtain rfl := Except.ok.inj hmember
          exact .field howner hfield
      · next p hfield _ =>
          obtain rfl := Except.ok.inj hmember
          refine .other rfl fun r' howner' => ?_
          obtain rfl := Value.object.inj (howner.symm.trans howner')
          exact hfield
      · contradiction
  · next r howner =>
      split at hmember
      · next w hfield =>
          obtain rfl := Except.ok.inj hmember
          refine .other (hbare.records _ _ (Bindings.mem_of_get? hfield)) fun r' howner' => ?_
          rw [howner] at howner'
          contradiction
      · contradiction
  · contradiction

/-- What an operand leaves above a stack when certain items are left: a bare value, if it accesses
nothing. An access leaves what its owner had under the name when the access had its turn. -/
inductive Tree.Leaves (Turn : List Item → List Operand → World → Prop) (t : Tree)
    (rest : List Item) (stack : List Operand) : Value → Prop
  | bare {v : Value} (hfield : t.field? = none) (hv : v.isBare = true) : Leaves Turn t rest stack v
  | access {f : String} {owner v : Value} {w : World} (hfield : t.field? = some f)
      (hturn : Turn (.op .dot :: rest) (.attr f :: .value owner :: stack) w)
      (hreads : w.heap.Reads owner f v) : Leaves Turn t rest stack v

section Evaluated

variable {s : Setting} {rest : List Item} {stack after : List Operand}
  {Turn : List Item → List Operand → World → Prop}

/-- A field is accessed once its owner is there. -/
theorem Item.Evaluated.member {f : String} {owner : Value}
    (h : Item.Evaluated s Turn rest [.attr f, .op .dot] (.value owner :: stack) after) :
    ∃ (w : World) (v : Value), Turn (.op .dot :: rest) (.attr f :: .value owner :: stack) w ∧
      w.heap.member owner f = .ok v ∧ after = .value v :: stack := by
  cases h with
  | cons hattr hrest =>
      have hdot := hrest.of_singleton
      cases hattr with
      | next _ heffect =>
          obtain rfl := Effect.next.inj heffect
          cases hdot with
          | @next w env _ hw heffect =>
              change Effect.ofExcept (w.heap.member owner f >>= fun v => pure (.push stack v)) = _
                at heffect
              cases hmember : w.heap.member owner f with
              | error e =>
                  rw [hmember] at heffect
                  contradiction
              | ok v =>
                  rw [hmember] at heffect
                  exact ⟨w, v, hw, hmember, (Effect.next.inj heffect).symm⟩
          | @answered w env under v hw heffect hv =>
              change (Effect.ofExcept
                (w.heap.member owner f >>= fun v => pure (.push stack v))).under? = _ at heffect
              cases hmember : w.heap.member owner f with
              | error e =>
                  rw [hmember] at heffect
                  contradiction
              | ok v =>
                  rw [hmember] at heffect
                  contradiction
      | answered _ heffect _ => contradiction

/-- A tree leaves a single operand on top of what there was. -/
theorem Tree.exists_of_evaluated {t : Tree}
    (h : Item.Evaluated s Turn rest (t.items false) stack after) (ht : t.PrecedenceCorrect)
    (hturn : ∀ items stack w, Turn items stack w → w.Bare) (hhost : Host.Bare s.host) :
    ∃ v, after = .value v :: stack ∧ t.Leaves Turn rest stack v := by
  have hbare := t.isBare_items false
  have hkinds := Tree.kindsAfter_items t ht false nofun [] []
  rw [List.append_nil] at hkinds
  cases hfield : t.field? with
  | none =>
      obtain ⟨is, i, hitems, hdot⟩ := t.exists_last hfield
      rw [hitems] at h hbare hkinds
      obtain ⟨v, hafter, hv⟩ := h.isBare hturn hhost hbare hkinds hdot
      exact ⟨v, hafter, .bare hfield hv⟩
  | some f =>
      obtain ⟨q, hq, hitems⟩ := t.exists_owner ht hfield
      rw [hitems] at h
      obtain ⟨mid, howner, haccess⟩ := h.of_append
      have hkinds := Primary.kindsAfter_items q hq false nofun [] []
      rw [List.append_nil] at hkinds
      obtain ⟨top, rfl, htop⟩ := Item.Evaluated.confined [] howner hturn hhost
        (q.isBare_items false) .nil hkinds
      obtain ⟨owner, below, rfl, -, hbelow⟩ := Operand.exists_of_value htop
      cases hbelow
      obtain ⟨w, v, hw, hmember, hafter⟩ := Item.Evaluated.member haccess
      exact ⟨v, hafter, .access hfield hw ((hturn _ _ w hw).heap.reads hmember)⟩

theorem Tree.Leaves.fits {t : Tree} {v : Value} (h : t.Leaves Turn rest stack v) :
    Operand.Fits (.value v) .value := by
  cases h with
  | bare _ hv => exact .bare hv
  | access _ _ hreads =>
      cases hreads with
      | field => exact .field _
      | other hv => exact .bare hv

/-- Arguments leave one operand each, from left to right. -/
theorem Tree.exists_of_evaluated_list {ts : List Tree}
    (h : Item.Evaluated s Turn rest (Tree.listItems ts) stack after)
    (hts : Tree.AllPrecedenceCorrect ts)
    (hturn : ∀ items stack w, Turn items stack w → w.Bare) (hhost : Host.Bare s.host) :
    ∃ vs : List Value, after = (vs.map Operand.value).reverse ++ stack ∧ vs.length = ts.length ∧
      ∀ v ∈ vs, Operand.Fits (.value v) .value := by
  induction ts generalizing stack with
  | nil =>
      cases h
      exact ⟨[], rfl, rfl, List.forall_mem_nil _⟩
  | cons t ts ih =>
      rw [Tree.AllPrecedenceCorrect] at hts
      rw [Tree.listItems] at h
      obtain ⟨mid, hfirst, hrest⟩ := h.of_append
      obtain ⟨v, rfl, hv⟩ := Tree.exists_of_evaluated hfirst hts.1 hturn hhost
      obtain ⟨vs, rfl, hlength, hvs⟩ := ih hrest hts.2
      exact ⟨v :: vs, by simp, congrArg (· + 1) hlength, List.forall_mem_cons.mpr ⟨hv.fits, hvs⟩⟩

end Evaluated

/-! ## Turns -/

theorem World.Bare.isBare_of_claim {w w' : World} {t : TaskRef} {v : Value} (hw : w.Bare)
    (h : w.claim t = .ok (w', .ok v)) : v.isBare = true := by
  have hv := (Machine.eq_of_claim h).2
  cases houtcome : (w.task t).outcome with
  | none =>
      rw [houtcome] at hv
      cases hv
      rfl
  | some o =>
      rw [houtcome] at hv
      obtain rfl : .ok v = o := hv
      exact hw.outcomes t v houtcome

namespace Machine

variable {s : Setting} {w : World} {m m' : Machine} {items rest : List Item}
  {stack st : List Operand} {site : Location} {below : List Frame} {n : Nat} {ts ts' : List Moment}

/-- A machine has a history in bare worlds, and more than `n` frames at each of its moments. Between
the moments anything may happen to the world. -/
structure Proceeds (s : Setting) (n : Nat) (m : Machine) (ts : List Moment) (m' : Machine) : Prop
    where
  passes : m.Passes s ts m'
  bare : ∀ t ∈ ts, t.world.Bare
  above : ∀ t ∈ ts, n < t.machine.frames.length

/-- An expression above `below` has its turn. -/
structure AtTurn (rest : List Item) (stack : List Operand) (site : Location) (below : List Frame)
    (m : Machine) : Prop where
  frames : m.frames = .eval rest stack site :: below
  signal : m.signal = .run

/-- At one of these moments the expression had its turn with the given items and operands, in the
given world. -/
def TurnIn (ts : List Moment) (site : Location) (below : List Frame) (items : List Item)
    (stack : List Operand) (w : World) : Prop :=
  ∃ t ∈ ts, t.machine.AtTurn items stack site below ∧ t.world = w

theorem TurnIn.append (ts' : List Moment) (h : TurnIn ts site below items stack w) :
    TurnIn (ts ++ ts') site below items stack w := by
  obtain ⟨t, ht, h⟩ := h
  exact ⟨t, List.mem_append_left _ ht, h⟩

/-- How far an expression has got since it had its turn with the given items and operands. -/
inductive Stage (s : Setting) (items : List Item) (stack : List Operand) (site : Location)
    (below : List Frame) (ts : List Moment) (m : Machine) : Prop
  | turn (done : List Item) {rest : List Item} {st : List Operand} (hitems : items = done ++ rest)
      (hdone : Item.Evaluated s (TurnIn ts site below) rest done stack st)
      (hturn : m.AtTurn rest st site below)
  /-- An item waits for a value, or has got one, or is left. -/
  | waiting (top : List Frame) {done rest : List Item} {i : Item} {st under : List Operand}
      {w : World} {env : Env} (hitems : items = done ++ i :: rest)
      (hdone : Item.Evaluated s (TurnIn ts site below) (i :: rest) done stack st)
      (hw : TurnIn ts site below (i :: rest) st w)
      (heffect : (i.effect s w.heap env st).under? = some under)
      (hframes : m.frames = top ++ .eval rest under site :: below)
      (htop : top = [] → m.signal ≠ .run)
  | gone (hframes : m.frames.length ≤ below.length)

/-- A frame above an expression does not end without a value. -/
theorem Steps.signal_of_eval (hstep : m.Steps s m') (hm : m.Confined) {f : Frame}
    (hframes : m.frames = f :: m'.frames) (heval : m'.frames = .eval rest st site :: below) :
    m'.signal ≠ .run := by
  intro hrun
  obtain ⟨goal, base, env, horder⟩ := hm.inOrder
  have hresult := (hstep.result_of_top horder hframes).1 hrun
  obtain ⟨envs, depth, -, hbelow⟩ := horder.stands hframes
  rw [heval] at hbelow
  have hawaits := hbelow.of_cons.1
  rw [hresult] at hawaits
  cases hawaits

/-- One item of an expression is evaluated. -/
theorem stage_evalItem {done : List Item} (hitems : items = done ++ rest)
    (hdone : Item.Evaluated s (TurnIn ts site m.frames) rest done stack st) (hw : w.Bare)
    (hturn : TurnIn ts site m.frames rest st w) (hsignal : m.signal = .run)
    (hcrash : ∀ message, (m.evalItem s w rest st site).step ≠ .crash message) :
    Stage s items stack site m.frames ts (m.evalItem s w rest st site).machine := by
  cases rest with
  | nil =>
      refine .gone ?_
      simp only [evalItem]
      split <;> exact Nat.le_refl _
  | cons i rest =>
      have hnext : ∀ {st' : List Operand},
          i.Comes s (TurnIn ts site m.frames (i :: rest) st) st st' →
            ∀ w', Stage s items stack site m.frames ts
              ((m.push (.eval rest st' site)).next w').machine := by
        intro st' hcomes w'
        refine .turn (done ++ [i]) ?_ (hdone.append (.cons hcomes (.nil _))) ⟨rfl, rfl⟩
        rw [hitems, List.append_assoc]
        rfl
      have hgone : ∀ f, Stage s items stack site m.frames ts (m.fail w f).machine := fun f =>
        .gone (Nat.le_refl _)
      simp only [evalItem] at hcrash ⊢
      cases heffect : i.effect s w.heap m.scopes.current st with
      | next st' => exact hnext (.next hturn heffect) w
      | call callee args under =>
          exact .waiting [.call callee args (some site)] hitems hdone hturn
            (congrArg Effect.under? heffect) rfl (by simp)
      | schedule callee args under =>
          simp only
          split
          · next w' t _ =>
              exact hnext (.answered hturn (congrArg Effect.under? heffect) (v := .task t) rfl) w'
          · exact hgone _
      | await t under =>
          simp only
          split
          · exact hgone _
          · split
            · exact .turn done hitems hdone ⟨rfl, hsignal⟩
            · split
              · next w' v hclaim =>
                  exact hnext (.answered hturn (congrArg Effect.under? heffect)
                    (hw.isBare_of_claim hclaim)) w'
              · exact hgone _
              · exact hgone _
      | fail f => exact hgone _
      | crash message =>
          rw [heffect] at hcrash
          exact absurd rfl (hcrash message)

theorem Stage.append (h : Stage s items stack site below ts m) (ts' : List Moment) :
    Stage s items stack site below (ts ++ ts') m := by
  cases h with
  | turn done hitems hdone hturn =>
      exact .turn done hitems (hdone.imp fun _ _ _ => TurnIn.append ts') hturn
  | waiting top hitems hdone hw heffect hframes htop =>
      exact .waiting top hitems (hdone.imp fun _ _ _ => TurnIn.append ts') (hw.append ts') heffect
        hframes htop
  | gone hframes => exact .gone hframes

/-- A step in a bare world carries an expression to its next stage. -/
theorem Stage.step (h : Stage s items stack site below ts m) (hm : m.Confined) (hw : w.Bare)
    (hlength : below.length < m.frames.length)
    (hcrash : ∀ message, (m.step s w).step ≠ .crash message) :
    Stage s items stack site below (ts ++ [⟨w, m⟩]) (m.step s w).machine := by
  -- The stage that was reached is one of the longer history as well.
  replace h := h.append [⟨w, m⟩]
  cases h with
  | gone hframes => omega
  | turn done hitems hdone hturn =>
      have hnow : TurnIn (ts ++ [⟨w, m⟩]) site below _ _ w :=
        ⟨_, List.mem_append_right _ List.mem_cons_self, hturn, rfl⟩
      generalize ts ++ [(⟨w, m⟩ : Moment)] = ts' at hdone hnow
      obtain ⟨frames, signal, scopes, depth⟩ := m
      obtain ⟨hframes, hsignal⟩ := hturn
      change frames = _ at hframes
      change signal = _ at hsignal
      subst hframes hsignal
      exact stage_evalItem (m := ⟨below, .run, scopes, depth⟩) hitems hdone hw hnow rfl hcrash
  | @waiting top done rest i st under w₀ env hitems hdone hw₀ heffect hframes htop =>
      generalize ts ++ [(⟨w, m⟩ : Moment)] = ts' at hdone hw₀
      cases top with
      | nil =>
          obtain ⟨frames, signal, scopes, depth⟩ := m
          change frames = _ at hframes
          subst hframes
          cases signal with
          | run => exact absurd rfl (htop rfl)
          | value v =>
              have hv : v.isBare = true := hm.tidy.1
              refine .turn (done ++ [i]) ?_
                (hdone.append (.cons (.answered hw₀ heffect hv) (.nil _))) ⟨rfl, rfl⟩
              rw [hitems, List.append_assoc]
              rfl
          | leave e => exact .gone (by cases e <;> exact Nat.le_refl _)
      | cons f top =>
          rw [List.cons_append] at hframes
          obtain ⟨goal, base, env', horder⟩ := hm.inOrder
          have hsteps : m.Steps s (m.step s w).machine := ⟨w, rfl, hcrash⟩
          obtain ⟨gs, _, _, _, _, hframes', -⟩ := hsteps.split horder hframes
          rw [← List.append_assoc] at hframes'
          refine .waiting (gs ++ top) hitems hdone hw₀ heffect hframes' fun hnil => ?_
          obtain ⟨rfl, rfl⟩ := List.append_eq_nil_iff.mp hnil
          exact hsteps.signal_of_eval hm (by rw [hframes, hframes']; rfl) hframes'

theorem Confined.step (hm : m.Confined) (hhost : Host.Bare s.host) (hw : w.Bare)
    (hcrash : ∀ message, (m.step s w).step ≠ .crash message) : (m.step s w).machine.Confined := by
  obtain ⟨goal, base, env, horder⟩ := hm.inOrder
  exact ⟨(hm.tidy.step horder hhost hw.heap hw.outcomes).machine hcrash, goal, base, env,
    Steps.inOrder (s := s) ⟨w, rfl, hcrash⟩ horder⟩

/-- Wherever a machine gets to while an expression is evaluated, the expression has got to some
stage. -/
theorem Proceeds.stage_append (h : Proceeds s below.length m ts' m') (hm : m.Confined)
    (hhost : Host.Bare s.host) (hstage : Stage s items stack site below ts m) :
    m'.Confined ∧ Stage s items stack site below (ts ++ ts') m' := by
  obtain ⟨hpasses, hbare, habove⟩ := h
  induction hpasses generalizing ts with
  | stay m =>
      rw [List.append_nil]
      exact ⟨hm, hstage⟩
  | @go w m _ us hcrash _ ih =>
      obtain ⟨hw, hbare⟩ := List.forall_mem_cons.mp hbare
      obtain ⟨hlength, habove⟩ := List.forall_mem_cons.mp habove
      have hrest := ih (hm.step hhost hw hcrash) (hstage.step hm hw hlength hcrash) hbare habove
      rwa [List.append_assoc] at hrest

theorem Proceeds.stage (h : Proceeds s below.length m ts m') (hm : m.Confined)
    (hhost : Host.Bare s.host) (hturn : m.AtTurn items stack site below) :
    m'.Confined ∧ Stage s items stack site below ts m' := by
  have hstage : Stage s items stack site below [] m := .turn [] rfl (.nil stack) hturn
  exact h.stage_append hm hhost hstage

theorem Proceeds.bare_of_turnIn (h : Proceeds s n m ts m') (items : List Item)
    (stack : List Operand) (w : World) (hturn : TurnIn ts site below items stack w) : w.Bare := by
  obtain ⟨t, ht, -, rfl⟩ := hturn
  exact h.bare t ht

/-- From one turn of an expression to another, the items between them have been evaluated. -/
theorem Proceeds.evaluated (h : Proceeds s below.length m ts m') (hm : m.Confined)
    (hhost : Host.Bare s.host) (hturn : m.AtTurn items stack site below)
    (hturn' : m'.AtTurn rest st site below) :
    ∃ done, items = done ++ rest ∧ Item.Evaluated s (TurnIn ts site below) rest done stack st := by
  obtain ⟨-, hstage⟩ := h.stage hm hhost hturn
  cases hstage with
  | turn done hitems hdone hat =>
      have hframes := hat.frames.symm.trans hturn'.frames
      simp only [List.cons.injEq, Frame.eval.injEq, and_true] at hframes
      obtain ⟨rfl, rfl⟩ := hframes
      exact ⟨done, hitems, hdone⟩
  | waiting top _ _ _ _ hframes htop =>
      have hlength := congrArg List.length (hframes.symm.trans hturn'.frames)
      rw [List.length_append, List.length_cons, List.length_cons] at hlength
      exact absurd hturn'.signal (htop (List.eq_nil_of_length_eq_zero (by omega)))
  | gone hframes =>
      rw [hturn'.frames, List.length_cons] at hframes
      omega

end Machine

/-! ## Operands of an operation -/

/-- What an operation does with the values of its operands, above the operands that were there
before it. -/
def Operation.apply (s : Setting) (h : Heap) (env : Env) (stack : List Operand) :
    Operation → List Value → Effect
  | .binary o _ _, vs =>
      .ofExcept do return .push stack (← h.binary o (vs.getD 0 .empty) (vs.getD 1 .empty))
  | .call n deferred _, vs =>
      .ofExcept do return Item.callEffect s h (← s.resolve h env n) vs deferred stack
  | .invoke deferred _, vs =>
      .ofExcept do
        let (callee, stack) ← Operand.pop stack
        return Item.callEffect s h (h.unbox callee) vs deferred stack

/-- What comes before the operands of a call is a mark. -/
theorem Item.Evaluated.of_args {s : Setting} {Turn : List Item → List Operand → World → Prop}
    {rest : List Item} {stack mid : List Operand}
    (h : Item.Evaluated s Turn rest [.args] stack mid) : mid = .mark :: stack := by
  cases h.of_singleton with
  | next _ heffect => exact (Effect.next.inj heffect).symm
  | answered _ heffect _ => contradiction

/-- An operation takes its operands without the boxes around them. -/
theorem Operation.effect_taker {s : Setting} {h : Heap} {op : Operation} {stack mid : List Operand}
    {Turn : List Item → List Operand → World → Prop} {rest : List Item} {vs : List Value}
    (hopening : Item.Evaluated s Turn rest op.opening stack mid)
    (hlength : vs.length = op.operands.length)
    (hvs : ∀ v ∈ vs, h.unbox (h.unbox v) = h.unbox v) (env : Env) :
    op.taker.effect s h env ((vs.map Operand.value).reverse ++ mid) =
      op.apply s h env stack (vs.map h.unbox) := by
  have hargs : Operand.popArgs h [] ((vs.map Operand.value).reverse ++ .mark :: stack) =
      .ok (vs.map h.unbox, stack) := by
    rw [← List.map_reverse, Operand.popArgs_map_value]
    simp
  cases op with
  | binary o l r =>
      cases hopening
      obtain ⟨x, y, rfl⟩ : ∃ x y, vs = [x, y] := List.length_eq_two.mp hlength
      have hbinary : h.binary o x y = h.binary o (h.unbox x) (h.unbox y) := by
        simp only [Heap.binary, hvs x List.mem_cons_self,
          hvs y (List.mem_cons_of_mem _ List.mem_cons_self)]
      have heffect : (Item.op o).effect s h env (.value y :: .value x :: stack) =
          .ofExcept do return .push stack (← h.binary o x y) := by
        obtain ⟨o, hunary, hdot⟩ := o
        cases o <;> first
          | contradiction
          | rfl
      exact heffect.trans (by rw [hbinary]; rfl)
  | call n deferred args =>
      obtain rfl := hopening.of_args
      simp only [taker, Item.effect, hargs]
      rfl
  | invoke deferred args =>
      obtain rfl := hopening.of_args
      simp only [taker, Item.effect, hargs]
      rfl

/-- What does not access a field leaves a value that is the same on every heap. -/
theorem Tree.Leaves.unbox_of_field? {Turn : List Item → List Operand → World → Prop} {t : Tree}
    {rest : List Item} {stack : List Operand} {v : Value} (hv : t.Leaves Turn rest stack v)
    (hfield : t.field? = none) (h : Heap) : h.unbox v = v := by
  cases hv with
  | bare _ hv => exact h.unbox_of_isBare hv
  | access hsome =>
      rw [hfield] at hsome
      contradiction

namespace Machine

variable {s : Setting} {m : Machine} {items : List Item} {site : Location} {below : List Frame}

/-- An operand of an operation is evaluated, and later the operation takes it. In between all that
comes to its right is evaluated, with whatever that calls, and anything may happen to the world.
What the operand has left is there all the time, and at last it is taken for what it is without a
box. So its value is the one that it had at first, unless it accesses a field of an object: then it
left the box that this object had for the field when the access had its turn, and what is taken is
what the box holds by then. -/
theorem operands_stay {raws : List String} (hitems : Code.itemsOf raws = .ok items)
    (hhost : Host.Bare s.host) (hm : m.Confined) (hturn : m.AtTurn items [] site below) :
    (∃ t : Tree, t.PrecedenceCorrect ∧ t.items false = items) ∧
      ∀ t : Tree, t.PrecedenceCorrect → t.items false = items → ∀ op ∈ t.operations false,
        op.items <:+: items ∧
          ∀ before after earlier e later, before ++ op.items ++ after = items →
            op.operands = earlier ++ e :: later →
            ∀ ts₁ m₁ st₁, Proceeds s below.length m ts₁ m₁ →
              m₁.AtTurn (Tree.listItems later ++ op.taker :: after) st₁ site below →
              ∃ v st, st₁ = .value v :: st ∧
                e.Leaves (TurnIn ts₁ site below) (Tree.listItems later ++ op.taker :: after) st v ∧
                (e.field? = none → ∀ h : Heap, h.unbox v = v) ∧
                ∀ ts₂ m₂ st₂, Proceeds s below.length m₁ ts₂ m₂ →
                  m₂.AtTurn (op.taker :: after) st₂ site below →
                  ∃ stack vs us, vs.length = earlier.length ∧ us.length = later.length ∧
                    ∀ (h : Heap) env, h.Bare → op.taker.effect s h env st₂ =
                      op.apply s h env stack ((vs ++ v :: us).map h.unbox) := by
  constructor
  · obtain ⟨t, ht, rfl⟩ := Tree.items_of_itemsOf hitems
    exact ⟨t, ht, rfl⟩
  rintro t ht rfl op hop
  refine ⟨t.infix_items hop, ?_⟩
  intro before after earlier e later hsplit hoperands ts₁ m₁ st₁ hproceeds₁ hturn₁
  obtain ⟨hearlier, he, hlater⟩ : (∀ u ∈ earlier, u.PrecedenceCorrect) ∧ e.PrecedenceCorrect ∧
      ∀ u ∈ later, u.PrecedenceCorrect := by
    have hcorrect := Tree.allPrecedenceCorrect_iff.mp (t.allPrecedenceCorrect ht hop)
    rw [hoperands] at hcorrect
    obtain ⟨hearlier, hrest⟩ := List.forall_mem_append.mp hcorrect
    exact ⟨hearlier, List.forall_mem_cons.mp hrest⟩
  -- All that comes before the turn `m₁` has been evaluated, the operand last.
  obtain ⟨done, hdone, hevaluated⟩ := hproceeds₁.evaluated hm hhost hturn hturn₁
  obtain rfl : done = before ++ (op.opening ++ (Tree.listItems earlier ++ e.items false)) := by
    refine List.append_cancel_right (hdone.symm.trans ?_)
    rw [← hsplit, Operation.items, hoperands, Tree.listItems_append, Tree.listItems]
    simp only [List.append_assoc, List.singleton_append]
  obtain ⟨stack, -, hevaluated⟩ := hevaluated.of_append
  obtain ⟨mid, hopening, hevaluated⟩ := hevaluated.of_append
  obtain ⟨st, hfirst, hlast⟩ := hevaluated.of_append
  obtain ⟨vs, rfl, hvslength, hvs⟩ := Tree.exists_of_evaluated_list hfirst
    (Tree.allPrecedenceCorrect_iff.mpr hearlier) hproceeds₁.bare_of_turnIn hhost
  obtain ⟨v, rfl, hv⟩ := Tree.exists_of_evaluated hlast he hproceeds₁.bare_of_turnIn hhost
  refine ⟨v, _, rfl, hv, hv.unbox_of_field?, ?_⟩
  intro ts₂ m₂ st₂ hproceeds₂ hturn₂
  -- Between the turns `m₁` and `m₂` the operands to the right have been evaluated.
  obtain ⟨done₂, hdone₂, hevaluated₂⟩ :=
    hproceeds₂.evaluated (hproceeds₁.stage hm hhost hturn).1 hhost hturn₁ hturn₂
  obtain rfl := List.append_cancel_right hdone₂
  obtain ⟨us, rfl, huslength, hus⟩ := Tree.exists_of_evaluated_list hevaluated₂
    (Tree.allPrecedenceCorrect_iff.mpr hlater) hproceeds₂.bare_of_turnIn hhost
  refine ⟨stack, vs, us, hvslength, huslength, fun h env hbare => ?_⟩
  have hfits : ∀ u ∈ vs ++ v :: us, Operand.Fits (.value u) .value :=
    List.forall_mem_append.mpr ⟨hvs, List.forall_mem_cons.mpr ⟨hv.fits, hus⟩⟩
  have hlength : (vs ++ v :: us).length = op.operands.length := by
    rw [hoperands, List.length_append, List.length_append, List.length_cons, List.length_cons,
      hvslength, huslength]
  have hstack : ((vs ++ v :: us).map Operand.value).reverse ++ mid =
      (us.map Operand.value).reverse ++ .value v :: ((vs.map Operand.value).reverse ++ mid) := by
    simp
  rw [← hstack]
  exact Operation.effect_taker hopening hlength
    (fun u hu => h.unbox_of_isBare ((hfits u hu).unbox hbare)) env

/-- The first of two names is taken for the value that was bound to it when it was looked up. -/
theorem operands_stay_conjunction :
    let s : Setting := ⟨default, default, Host.none⟩
    let w : World := { World.new default with
      heap := ((World.new default).heap.define 0 "a" (.bool true)).define 0 "b" (.bool false) }
    let m := ofCode World.globals ⟨[.load "a", .load "b", .op .and], default⟩
    let m₁ := (m.step s w).machine
    let m₂ := (m₁.step s w).machine
    let op : Operation := .binary ⟨.and, by decide⟩ (.operand (.name "a")) (.operand (.name "b"))
    ∃ st₂ stack u, m₂.AtTurn [.op .and] st₂ default [] ∧
      ∀ (h : Heap) env, h.Bare →
        op.taker.effect s h env st₂ = op.apply s h env stack [.bool true, h.unbox u] := by
  intro s w m m₁ m₂ op
  let t : Tree := .binary ⟨.and, by decide⟩ (.operand (.name "a")) (.operand (.name "b"))
  have ht : t.PrecedenceCorrect := by
    simp [t, Tree.PrecedenceCorrect, Primary.PrecedenceCorrect, Tree.EdgeFits, Tree.RootFits,
      Tree.rightEdge, Tree.binaryRoot?]
  have hclassify : Token.classify ["a", "and", "b"] = .ok t.tokens := by cbv
  have hitems : Code.itemsOf ["a", "and", "b"] = .ok [.load "a", .load "b", .op .and] := by
    rw [Code.itemsOf, hclassify]
    rfl
  have hw : w.Bare :=
    ⟨((Heap.bare_empty.newScope "global").define rfl 0 "a").define rfl 0 "b", by
      rintro t v ⟨⟩⟩
  have hstep₁ : Proceeds s 0 m [⟨w, m⟩] m₁ :=
    ⟨.go (by rintro _ ⟨⟩) (.stay m₁), List.forall_mem_singleton.mpr hw,
      List.forall_mem_singleton.mpr (by decide)⟩
  have hstep₂ : Proceeds s 0 m₁ [⟨w, m₁⟩] m₂ :=
    ⟨.go (by rintro _ ⟨⟩) (.stay m₂), List.forall_mem_singleton.mpr hw,
      List.forall_mem_singleton.mpr (by decide)⟩
  have hturn₁ : m₁.AtTurn [.load "b", .op .and] [.value (.bool true)] default [] := ⟨rfl, rfl⟩
  have hturn₂ : m₂.AtTurn [.op .and] [.value (.bool false), .value (.bool true)] default [] :=
    ⟨rfl, rfl⟩
  obtain ⟨-, hstay⟩ := operands_stay hitems (s := s) Host.bare_none
    (Begun.code World.globals hitems).confined (m := m) ⟨rfl, rfl⟩
  obtain ⟨-, hstay⟩ := hstay t ht rfl op (.head _)
  obtain ⟨v, st, hst, -, hvalue, htaken⟩ := hstay [] [] [] _ [_] rfl rfl _ m₁ _ hstep₁ hturn₁
  cases hst
  obtain ⟨stack, vs, us, hvs, hus, htaken⟩ := htaken _ m₂ _ hstep₂ hturn₂
  obtain rfl := List.eq_nil_of_length_eq_zero hvs
  obtain ⟨u, rfl⟩ := List.length_eq_one_iff.mp hus
  refine ⟨_, stack, u, hturn₂, fun h env hbare => ?_⟩
  rw [htaken h env hbare]
  simp [hvalue rfl h]

/-- A cell with a field, and a procedure that changes the field and returns what it has put there.
The main body adds the two. -/
def cells : Source where
  procedures := [⟨"raise_to", [⟨"c", none⟩, ⟨"v", none⟩],
    [.assign ⟨"c", some "x"⟩ ⟨["v"], default⟩, .returnWith (some ⟨["v"], default⟩)]⟩]
  classes := [⟨"Cell", none, [], some ⟨"constructor", [⟨"v", none⟩],
    [.assign ⟨"this", some "x"⟩ ⟨["v"], default⟩]⟩⟩]
  records := []
  main := [.declare "a" ⟨["Cell", "(", "1", ")"], default⟩,
    .print ⟨["a", ".", "x", "+", "raise_to", "(", "a", ",", "10", ")"], default⟩]

/-- Whether the box that the left operand has left holds 1 after 23 steps and 10 after 40. -/
def cellsChange : Bool :=
  match Session.load default Host.none [] "" cells with
  | .ok session =>
      let m := ofBody World.globals session.setting.registry.main
      match m.run session.setting 23 session.world, m.run session.setting 40 session.world with
      | ⟨.suspended, w₁, ⟨[.eval [.args, .load "a", .push (.int i), .call "raise_to" false,
            .op .add] [.value (.field b)] site, .act .print at₁, .body [] false true],
            .run, _, _⟩⟩,
        ⟨.suspended, w₂, ⟨[.eval [.op .add] [.value (.int j), .value (.field c)] site',
            .act .print at₂, .body [] false true], .run, _, _⟩⟩ =>
          match w₁.heap.unbox (.field b), w₂.heap.unbox (.field c) with
          | .int k, .int l => decide ((i = 10 ∧ j = 10 ∧ k = 1 ∧ l = 10) ∧
              b = c ∧ site = site' ∧ at₁ = at₂)
          | _, _ => false
      | _, _ => false
  | _ => false

/-- The field is 1 when the left operand has been evaluated, after 23 steps. The right operand sets
it to 10, so that after 40 steps the sum is one of 10 and 10. -/
theorem field_operand_changes :
    ∃ session w₁ w₂ m₁ m₂ v site below,
      Session.load default Host.none [] "" cells = .ok session ∧
        (ofBody World.globals session.setting.registry.main).run session.setting 23 session.world =
          ⟨.suspended, w₁, m₁⟩ ∧
        (ofBody World.globals session.setting.registry.main).run session.setting 40 session.world =
          ⟨.suspended, w₂, m₂⟩ ∧
        m₁.AtTurn [.args, .load "a", .push (.int 10), .call "raise_to" false, .op .add]
          [.value v] site below ∧
        m₂.AtTurn [.op .add] [.value (.int 10), .value v] site below ∧
        w₁.heap.unbox v = .int 1 ∧ w₂.heap.unbox v = .int 10 := by
  have hrun : cellsChange = true := by decide +kernel
  unfold cellsChange at hrun
  split at hrun
  · next session hload =>
      simp only at hrun
      split at hrun
      · next hrun₁ hrun₂ =>
          split at hrun
          · next hunbox₁ hunbox₂ =>
              obtain ⟨⟨rfl, rfl, rfl, rfl⟩, rfl, rfl, rfl⟩ := of_decide_eq_true hrun
              exact ⟨session, _, _, _, _, _, _, _, hload, hrun₁, hrun₂, ⟨rfl, rfl⟩, ⟨rfl, rfl⟩,
                hunbox₁, hunbox₂⟩
          · contradiction
      · contradiction
  · contradiction

end Machine

end Statute
