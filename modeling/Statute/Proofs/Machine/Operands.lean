import Statute.Machine.Step
import Statute.Proofs.Expression.Kinds

/-!
# Operands of compiled expressions

The operands of an expression that is being evaluated are of the kinds that its items foretell, at
every point of the evaluation and whatever the calls in it come to. So every item finds the operands
it takes, and one value is left in the end.

A failure can still reach an expression from outside: an extension answers with a failure of its
own, or the task that is waited for has ended with one. No other failure is about the operands.
-/

namespace Statute

/-! ## Kinds of operands at hand -/

namespace Operand

theorem eq_of_pop {stack below : List Operand} {v : Value} (h : pop stack = .ok (v, below)) :
    stack = .value v :: below := by
  unfold pop at h
  split at h
  · obtain ⟨rfl, rfl⟩ := Prod.mk.inj (Except.ok.inj h)
    rfl
  · contradiction

/-- An operand is of a kind. A deferred call is a value as well. -/
inductive HasKind : Operand → Kind → Prop
  | value (v : Value) : HasKind (.value v) .value
  | deferred (callee : Value) (args : List Value) :
      HasKind (.value (.deferred callee args)) .deferred
  | attr (name : String) : HasKind (.attr name) .attr
  | mark : HasKind .mark .mark

/-- Operands are of the given kinds, one by one. -/
inductive HasKinds : List Operand → List Kind → Prop
  | nil : HasKinds [] []
  | cons {o : Operand} {k : Kind} {stack : List Operand} {ks : List Kind} (ho : HasKind o k)
      (hstack : HasKinds stack ks) : HasKinds (o :: stack) (k :: ks)

namespace HasKinds

variable {stack : List Operand} {k : Kind} {ks : List Kind}

theorem push (h : HasKinds stack ks) (v : Value) : HasKinds (.value v :: stack) (.value :: ks) :=
  .cons (.value v) h

theorem of_value (h : HasKinds stack (.value :: ks)) :
    ∃ v rest, stack = .value v :: rest ∧ HasKinds rest ks := by
  cases h with
  | cons ho hrest =>
      cases ho with
      | value v => exact ⟨v, _, rfl, hrest⟩

theorem of_deferred (h : HasKinds stack (.deferred :: ks)) :
    ∃ callee args rest, stack = .value (.deferred callee args) :: rest ∧ HasKinds rest ks := by
  cases h with
  | cons ho hrest =>
      cases ho with
      | deferred callee args => exact ⟨callee, args, _, rfl, hrest⟩

theorem of_attr (h : HasKinds stack (.attr :: ks)) :
    ∃ name rest, stack = .attr name :: rest ∧ HasKinds rest ks := by
  cases h with
  | cons ho hrest =>
      cases ho with
      | attr name => exact ⟨name, _, rfl, hrest⟩

theorem eq_singleton (h : HasKinds stack [.value]) : ∃ v, stack = [.value v] := by
  obtain ⟨v, rest, rfl, hrest⟩ := h.of_value
  cases hrest
  exact ⟨v, rfl⟩

/-- The arguments of a call reach back to a mark. -/
theorem popArgs (hks : HasKinds stack ks) {ks' : List Kind} (h : Kind.dropArgs ks = some ks')
    (heap : Heap) (later : List Value) :
    ∃ args rest, Operand.popArgs heap later stack = .ok (args, rest) ∧ HasKinds rest ks' := by
  induction hks generalizing later with
  | nil => contradiction
  | cons ho hrest ih =>
      cases ho with
      | value v =>
          obtain ⟨args, rest, hpop, hkinds⟩ := ih h (heap.unbox v :: later)
          exact ⟨args, rest, hpop, hkinds⟩
      | deferred callee args => contradiction
      | attr name => contradiction
      | mark =>
          obtain rfl := Option.some.inj h
          exact ⟨later, _, rfl, hrest⟩

end HasKinds

theorem popArgs_map_value (h : Heap) (vs later : List Value) (stack : List Operand) :
    popArgs h later (vs.map Operand.value ++ .mark :: stack) =
      .ok ((vs.map h.unbox).reverse ++ later, stack) := by
  induction vs generalizing later with
  | nil => rfl
  | cons v vs ih => simp [popArgs, ih]

end Operand

namespace Item

/-- An item finds what it takes on top of the operands. -/
def Finds (h : Heap) (stack : List Operand) : Item → Prop
  | .call _ _ => ∃ args rest, Operand.popArgs h [] stack = .ok (args, rest)
  | .invoke _ => ∃ args callee rest, Operand.popArgs h [] stack = .ok (args, .value callee :: rest)
  | .op .dot => ∃ name v rest, stack = .attr name :: .value v :: rest
  | .op .background => ∃ callee args rest, stack = .value (.deferred callee args) :: rest
  | .op o =>
      ∃ v rest, stack = .value v :: rest ∧
        (o.isUnary = false → ∃ v' rest', rest = .value v' :: rest')
  | _ => True

end Item

/-! ## Failures about operands -/

namespace Failure

/-- A failure that says that an item did not find what it takes. -/
def IsOperandFault (f : Failure) : Prop :=
  f.kind = .invalidExpression ∨
    f.kind = .invalidType ∧ f.message = "'in background' can only schedule a call"

theorem not_isOperandFault_of_kind {f : Failure} (hexpr : f.kind ≠ .invalidExpression)
    (htype : f.kind ≠ .invalidType) : ¬ f.IsOperandFault := by
  rintro (h | ⟨h, -⟩)
  · exact hexpr h
  · exact htype h

/-- A message about types that does not begin with a quote is about something else. -/
theorem not_isOperandFault_invalidType {message : String}
    (h : message.toList.head? ≠ some '\'') : ¬ (invalidType message).IsOperandFault := by
  rintro (hkind | ⟨-, hmessage⟩)
  · contradiction
  · apply h
    change message = _ at hmessage
    rw [hmessage]
    rfl

theorem isOperandFault_locate {f : Failure} {l : Location} :
    (f.locate l).IsOperandFault ↔ f.IsOperandFault := Iff.rfl

end Failure

def Plain {α : Type} (x : Except Failure α) : Prop :=
  ∀ f, x = .error f → ¬ f.IsOperandFault

namespace Plain

variable {α : Type}

theorem ok (a : α) : Plain (.ok a : Except Failure α) := fun _ h => by cases h

theorem error {f : Failure} (h : ¬ f.IsOperandFault) : Plain (.error f : Except Failure α) := by
  intro g hg
  obtain rfl := Except.error.inj hg
  exact h

theorem new {k : ErrorKind} {message : String} (hk : k ≠ .invalidExpression ∧ k ≠ .invalidType) :
    Plain (.error (.new k message) : Except Failure α) :=
  error (Failure.not_isOperandFault_of_kind hk.1 hk.2)

end Plain

theorem plain_exactly (o : Operator) (n : Int) : Plain (exactly o n) := by
  unfold exactly
  split
  · exact .ok _
  · exact .new (by decide)

theorem plain_finite (o : Operator) (x : Float) : Plain (finite o x) := by
  unfold finite
  split
  · exact .new (by decide)
  · exact .ok _

theorem plain_mismatch {α : Type} (o : Operator) (v w : Value) :
    Plain (.error (mismatch o v w) : Except Failure α) :=
  .error (Failure.not_isOperandFault_invalidType (by simp))

theorem plain_combine (o : Operator) (v w : Value) : Plain (combine o v w) := by
  unfold combine
  split
  · exact plain_exactly o _
  · split
    · exact plain_finite o _
    · exact plain_mismatch o v w

theorem plain_dividedByZero : Plain (.error dividedByZero : Except Failure Value) :=
  .new (by decide)

theorem plain_divide (v w : Value) : Plain (divide v w) := by
  unfold divide
  split
  · split
    · exact plain_dividedByZero
    · split
      · split
        · exact plain_exactly _ _
        · exact plain_finite _ _
      · exact plain_finite _ _
  · exact plain_mismatch _ v w

theorem plain_intPower (base : Int) (e : Nat) : Plain (intPower base e) := by
  unfold intPower
  split
  · exact .new (by decide)
  · split
    · exact plain_exactly _ _
    · split
      · exact .new (by decide)
      · exact plain_exactly _ _

theorem plain_power (v w : Value) : Plain (power v w) := by
  simp only [power]
  split
  · split
    · exact plain_intPower _ _
    · split
      · exact plain_finite _ _
      · exact plain_mismatch _ _ _
  · split
    · exact plain_finite _ _
    · exact plain_mismatch _ v w

theorem plain_compare (o : Operator) (v w : Value) : Plain (compare o v w) := by
  unfold compare
  split
  · exact .ok _
  · exact .ok _
  · split
    · split
      · exact .ok _
      · exact .ok _
    · exact plain_mismatch o v w

theorem plain_binary (h : Heap) (o : Operator) (v w : Value) : Plain (h.binary o v w) := by
  have hadd : ∀ v w, Plain (h.add v w) := by
    intro v w
    unfold Heap.add
    split
    · exact .ok _
    · exact .ok _
    · exact plain_combine _ v w
  simp only [Heap.binary]
  split
  · exact hadd _ _
  · exact plain_combine _ _ _
  · exact plain_combine _ _ _
  · exact plain_divide _ _
  · exact plain_power _ _
  · exact .ok _
  · exact .ok _
  · exact plain_compare _ _ _
  · exact plain_compare _ _ _
  · exact plain_compare _ _ _
  · exact plain_compare _ _ _
  · split
    · exact .ok _
    · exact plain_mismatch _ _ _
  · split
    · exact .ok _
    · exact plain_mismatch _ _ _
  · exact .new (by decide)

theorem plain_unary (h : Heap) (o : Operator) (v : Value) : Plain (h.unary o v) := by
  simp only [Heap.unary]
  split
  · exact .ok _
  · exact .ok _
  · exact .ok _
  · exact plain_exactly _ _
  · exact .ok _
  · exact .error (Failure.not_isOperandFault_invalidType (by simp))

theorem plain_member (h : Heap) (v : Value) (name : String) : Plain (h.member v name) := by
  simp only [Heap.member, Heap.memberBy]
  split
  · split
    · exact .ok _
    · exact .ok _
    · exact .new (by decide)
  · split
    · exact .ok _
    · exact .new (by decide)
  · exact .error (Failure.not_isOperandFault_invalidType (by simp))

theorem plain_resolve (s : Setting) (h : Heap) (env : Env) (name : String) :
    Plain (s.resolve h env name) := by
  unfold Setting.resolve
  split
  · exact .ok _
  · exact .new (by decide)

/-! ## One item -/

namespace Effect

/-- What an effect leaves behind: operands of the given kinds, or a failure that is allowed.
Whatever a call, a scheduled call or a task comes to lies on top of them. -/
def Leaves (allowed : Failure → Prop) (ks : List Kind) : Effect → Prop
  | .next stack => Operand.HasKinds stack ks
  | .call _ _ stack => ∀ v, Operand.HasKinds (.value v :: stack) ks
  | .schedule _ _ stack => ∀ v, Operand.HasKinds (.value v :: stack) ks
  | .await _ stack => ∀ v, Operand.HasKinds (.value v :: stack) ks
  | .fail f => allowed f
  | .crash _ => True

variable {allowed : Failure → Prop} {stack : List Operand} {ks : List Kind}

theorem Leaves.push (h : Operand.HasKinds stack ks) (v : Value) :
    (Effect.push stack v).Leaves allowed (.value :: ks) :=
  h.push v

theorem leaves_ofExcept_bind {α : Type} {x : Except Failure α} {f : α → Except Failure Effect}
    (hx : ∀ e, x = .error e → allowed e)
    (hf : ∀ a, x = .ok a → (ofExcept (f a)).Leaves allowed ks) :
    (ofExcept (x >>= f)).Leaves allowed ks := by
  cases x with
  | error e => exact hx e rfl
  | ok a => exact hf a rfl

end Effect

namespace Item

/-- The failures that an item may end with: those that are not about operands, and those of an
extension. -/
def Allowed (s : Setting) (h : Heap) (f : Failure) : Prop :=
  f.IsOperandFault → ∃ e args, Extension.call s.host h e args = .failure f

variable {s : Setting} {h : Heap} {stack : List Operand} {ks ks' : List Kind}

theorem allowed_of_plain {α : Type} {x : Except Failure α} (hx : Plain x) (f : Failure)
    (hf : x = .error f) : Allowed s h f :=
  fun hfault => absurd hfault (hx f hf)

theorem leaves_ofAnswer (hks : Operand.HasKinds stack ks) (e : Extension) (args : List Value) :
    (Effect.ofAnswer stack (e.call s.host h args)).Leaves (Allowed s h) (.value :: ks) := by
  cases hanswer : e.call s.host h args with
  | value v => exact .push hks v
  | failure f => exact fun _ => ⟨e, args, hanswer⟩
  | crash message => trivial

theorem leaves_ofAnswer_checked (hks : Operand.HasKinds stack ks) (e : Extension)
    (args : List Value) :
    (Effect.ofAnswer stack (e.checkedCall s.host h args)).Leaves (Allowed s h) (.value :: ks) := by
  unfold Extension.checkedCall Arity.check
  split
  · exact leaves_ofAnswer hks e args
  · next f hf =>
      split at hf
      · contradiction
      · obtain rfl := Except.error.inj hf
        exact fun hfault => absurd hfault
          (Failure.not_isOperandFault_of_kind (by simp [Failure.argumentCount, Failure.new])
            (by simp [Failure.argumentCount, Failure.new]))

theorem leaves_callEffect (hks : Operand.HasKinds stack ks) (callee : Value) (args : List Value)
    (deferred : Bool) :
    (callEffect s h callee args deferred stack).Leaves (Allowed s h) (.ofCall deferred :: ks) := by
  unfold callEffect
  split
  · have hcallable : ¬ (Failure.invalidType
        (callee.typeName ++ " '" ++ h.text callee ++ "' is not callable")).IsOperandFault :=
      Failure.not_isOperandFault_invalidType (by cases callee <;> simp [Value.typeName])
    exact fun hfault => absurd hfault hcallable
  · split
    · next hdeferred =>
        rw [hdeferred]
        exact .cons (.deferred callee args) hks
    · next hdeferred =>
        rw [eq_false_of_ne_true hdeferred]
        split
        · exact leaves_ofAnswer_checked hks _ args
        · exact fun v => hks.push v

theorem leaves_dotEffect (hks : Operand.HasKinds stack (.attr :: .value :: ks)) :
    (dotEffect h stack).Leaves (Allowed s h) (.value :: ks) := by
  obtain ⟨name, below, rfl, hbelow⟩ := hks.of_attr
  obtain ⟨v, rest, rfl, hrest⟩ := hbelow.of_value
  exact Effect.leaves_ofExcept_bind (x := h.member v name)
    (allowed_of_plain (plain_member h v name)) fun w _ => .push hrest w

theorem leaves_awaitEffect (hks : Operand.HasKinds stack (.value :: ks)) :
    (awaitEffect h stack).Leaves (Allowed s h) (.value :: ks) := by
  obtain ⟨v, rest, rfl, hrest⟩ := hks.of_value
  unfold awaitEffect
  simp only
  split
  · exact fun v => hrest.push v
  · exact fun hfault => absurd hfault (Failure.not_isOperandFault_invalidType (by simp))

theorem leaves_scheduleEffect (hks : Operand.HasKinds stack (.deferred :: ks)) :
    (scheduleEffect stack).Leaves (Allowed s h) (.value :: ks) := by
  obtain ⟨callee, args, rest, rfl, hrest⟩ := hks.of_deferred
  exact fun v => hrest.push v

theorem leaves_operatorEffect {o : Operator} (hks : Operand.HasKinds stack ks)
    (h' : o.kinds? ks = some ks') : (operatorEffect h o stack).Leaves (Allowed s h) ks' := by
  rcases Operator.kinds?_eq_some h' with ⟨rfl, below, rfl, rfl⟩ | ⟨rfl, below, rfl, rfl⟩ |
    ⟨hdot, hbackground, below, rfl, hcase⟩
  · exact leaves_dotEffect hks
  · exact leaves_scheduleEffect hks
  · by_cases hwait : o = .wait
    · subst hwait
      rcases hcase with ⟨-, rfl⟩ | ⟨hbinary, -⟩
      · exact leaves_awaitEffect hks
      · contradiction
    · obtain ⟨right, rest, rfl, hrest⟩ := hks.of_value
      simp only [operatorEffect, Operand.pop]
      rcases hcase with ⟨hunary, rfl⟩ | ⟨hbinary, below, rfl, rfl⟩
      · simp only [hunary, if_true]
        exact Effect.leaves_ofExcept_bind (x := h.unary o right)
          (allowed_of_plain (plain_unary h o right)) fun w _ => .push hrest w
      · obtain ⟨left, rest, rfl, hbelow⟩ := hrest.of_value
        simp only [hbinary]
        exact Effect.leaves_ofExcept_bind (x := h.binary o left right)
          (allowed_of_plain (plain_binary h o left right)) fun w _ => .push hbelow w

/-- An item leaves the kinds that it foretells. -/
theorem leaves_effect {i : Item} (hks : Operand.HasKinds stack ks) (h' : i.kinds? ks = some ks')
    (env : Env) : (i.effect s h env stack).Leaves (Allowed s h) ks' := by
  cases i with
  | push v =>
      obtain rfl := Option.some.inj h'
      exact .push hks v
  | load name =>
      obtain rfl := Option.some.inj h'
      simp only [effect]
      split
      · next f hf => exact allowed_of_plain (plain_resolve s h env name) f hf
      · next e _ =>
          split
          · exact leaves_ofAnswer hks e []
          · exact .push hks _
      · exact .push hks _
  | attr name =>
      obtain rfl := Option.some.inj h'
      exact .cons (.attr name) hks
  | args =>
      obtain rfl := Option.some.inj h'
      exact .cons .mark hks
  | call name deferred =>
      obtain ⟨below, hdrop, rfl⟩ := Option.map_eq_some_iff.mp h'
      obtain ⟨args, rest, hpop, hrest⟩ := hks.popArgs hdrop h []
      simp only [effect, hpop]
      exact Effect.leaves_ofExcept_bind (x := s.resolve h env name)
        (allowed_of_plain (plain_resolve s h env name))
        fun callee _ => leaves_callEffect hrest callee args deferred
  | invoke deferred =>
      obtain ⟨below, hdrop, rfl⟩ := kinds?_invoke h'
      obtain ⟨args, rest, hpop, hrest⟩ := hks.popArgs hdrop h []
      obtain ⟨callee, rest, rfl, hbelow⟩ := hrest.of_value
      simp only [effect, hpop]
      exact leaves_callEffect hbelow (h.unbox callee) args deferred
  | op o => exact leaves_operatorEffect hks h'

/-- An item that is not refused finds what it takes. -/
theorem finds_of_kinds? {i : Item} (hks : Operand.HasKinds stack ks) (h' : i.kinds? ks = some ks')
    (h : Heap) : i.Finds h stack := by
  cases i with
  | call name deferred =>
      obtain ⟨below, hdrop, -⟩ := Option.map_eq_some_iff.mp h'
      obtain ⟨args, rest, hpop, -⟩ := hks.popArgs hdrop h []
      exact ⟨args, rest, hpop⟩
  | invoke deferred =>
      obtain ⟨below, hdrop, -⟩ := kinds?_invoke h'
      obtain ⟨args, rest, hpop, hrest⟩ := hks.popArgs hdrop h []
      obtain ⟨callee, rest, rfl, -⟩ := hrest.of_value
      exact ⟨args, callee, rest, hpop⟩
  | op o =>
      rcases Operator.kinds?_eq_some h' with ⟨rfl, below, rfl, -⟩ | ⟨rfl, below, rfl, -⟩ |
        ⟨hdot, hbackground, below, rfl, hcase⟩
      · obtain ⟨name, rest, rfl, hrest⟩ := hks.of_attr
        obtain ⟨v, rest, rfl, -⟩ := hrest.of_value
        exact ⟨name, v, rest, rfl⟩
      · obtain ⟨callee, args, rest, rfl, -⟩ := hks.of_deferred
        exact ⟨callee, args, rest, rfl⟩
      · obtain ⟨v, rest, rfl, hrest⟩ := hks.of_value
        have hsecond : o.isUnary = false → ∃ v' rest', rest = .value v' :: rest' := by
          intro hbinary
          rcases hcase with ⟨hunary, -⟩ | ⟨-, below, rfl, -⟩
          · rw [hunary] at hbinary
            contradiction
          · obtain ⟨v', rest', rfl, -⟩ := hrest.of_value
            exact ⟨v', rest', rfl⟩
        cases o <;> first
          | contradiction
          | exact ⟨v, rest, rfl, hsecond⟩
  | _ => trivial

end Item

/-! ## An expression from its beginning -/

/-- The operands are of kinds from which the remaining items come to a single value. -/
def Foretold (items : List Item) (stack : List Operand) : Prop :=
  ∃ ks, Operand.HasKinds stack ks ∧ Item.kindsAfter items ks = some [.value]

theorem foretold_itemsOf {raws : List String} {items : List Item}
    (h : Code.itemsOf raws = .ok items) : Foretold items [] :=
  ⟨[], .nil, Code.kindsAfter_itemsOf h []⟩

theorem Foretold.eq_singleton {stack : List Operand} (h : Foretold [] stack) :
    ∃ v, stack = [.value v] := by
  obtain ⟨ks, hks, hafter⟩ := h
  obtain rfl := Option.some.inj hafter
  exact hks.eq_singleton

theorem Foretold.cons {i : Item} {items : List Item} {stack : List Operand}
    (h : Foretold (i :: items) stack) :
    ∃ ks ks', Operand.HasKinds stack ks ∧ i.kinds? ks = some ks' ∧
      Item.kindsAfter items ks' = some [.value] := by
  obtain ⟨ks, hks, hafter⟩ := h
  obtain ⟨ks', hkinds, hafter⟩ := Option.bind_eq_some_iff.mp hafter
  exact ⟨ks, ks', hks, hkinds, hafter⟩

namespace Machine

/-- The failures that an expression may end with: a failure about operands is the answer of an
extension or the outcome of a task. -/
def Excused (s : Setting) (w : World) (site : Location) (f : Failure) : Prop :=
  f.IsOperandFault →
    (∃ e args g, Extension.call s.host w.heap e args = .failure g ∧ f = g.locate site) ∨
      ∃ t g, (w.task t).outcome = some (.error g) ∧ f = g.locate site

/-- What a step of an expression above `below` comes to. -/
inductive Evaluated (s : Setting) (w : World) (site : Location) (below : List Frame) :
    Machine → Prop
  | goesOn {m : Machine} {rest : List Item} {stack : List Operand}
      (hframes : m.frames = .eval rest stack site :: below) (hsignal : m.signal = .run)
      (hforetold : Foretold rest stack) : Evaluated s w site below m
  | calls {m : Machine} {f : Frame} {rest : List Item} {stack : List Operand}
      (hframes : m.frames = f :: .eval rest stack site :: below)
      (hsignal : m.signal = .run)
      (hforetold : ∀ v, Foretold rest (.value v :: stack)) : Evaluated s w site below m
  | fails {m : Machine} {f : Failure} (hframes : m.frames = below)
      (hsignal : m.signal = .leave (.failWith f)) (hexcused : Excused s w site f) :
      Evaluated s w site below m
  | ends {m : Machine} (hframes : m.frames = below)
      (hsignal : ∀ e, m.signal ≠ .leave e) : Evaluated s w site below m

variable {s : Setting} {w : World} {site : Location} {below : List Frame} {m : Machine}

theorem evaluated_fail {f : Failure} (hf : Item.Allowed s w.heap f) :
    Evaluated s w site m.frames (m.fail w (f.locate site)).machine := by
  refine .fails rfl rfl fun hfault => ?_
  obtain ⟨e, args, hcall⟩ := hf (Failure.isOperandFault_locate.mp hfault)
  exact Or.inl ⟨e, args, f, hcall, rfl⟩

theorem evaluated_fail_of_plain {f : Failure} (hf : ¬ f.IsOperandFault) :
    Evaluated s w site m.frames (m.fail w (f.locate site)).machine :=
  evaluated_fail fun hfault => absurd hfault hf

theorem outcome_of_claim {t : TaskRef} {w' : World} {f : Failure}
    (h : w.claim t = .ok (w', .error f)) : (w.task t).outcome = some (.error f) := by
  unfold World.claim Task.claim at h
  split at h
  · next o task hclaim =>
      split at hclaim
      · contradiction
      · cases houtcome : (w.task t).outcome with
        | none => simp_all
        | some x => simp_all
  · contradiction

theorem not_isOperandFault_of_claim {t : TaskRef} {f : Failure} (h : w.claim t = .error f) :
    ¬ f.IsOperandFault := by
  unfold World.claim Task.claim at h
  split at h
  · contradiction
  · next g hclaim =>
      split at hclaim
      · obtain rfl := Except.error.inj h
        obtain rfl := Except.error.inj hclaim
        exact Failure.not_isOperandFault_of_kind (by simp [Task.doubleWait, Failure.new])
          (by simp [Task.doubleWait, Failure.new])
      · contradiction

/-- One step of an expression whose operands are foretold. -/
theorem evaluated_evalItem {items : List Item} {stack : List Operand}
    (hforetold : Foretold items stack) (hsignal : m.signal = .run) :
    Evaluated s w site m.frames (m.evalItem s w items stack site).machine := by
  cases items with
  | nil =>
      obtain ⟨v, rfl⟩ := hforetold.eq_singleton
      exact .ends rfl fun e h => by cases h
  | cons i rest =>
      obtain ⟨ks, ks', hks, hkinds, hafter⟩ := hforetold.cons
      have hleaves := Item.leaves_effect (s := s) (h := w.heap) hks hkinds m.scopes.current
      simp only [evalItem]
      cases heffect : i.effect s w.heap m.scopes.current stack with
      | next stack =>
          rw [heffect] at hleaves
          exact .goesOn rfl rfl ⟨ks', hleaves, hafter⟩
      | call callee args stack =>
          rw [heffect] at hleaves
          exact .calls rfl rfl fun v => ⟨ks', hleaves v, hafter⟩
      | schedule callee args stack =>
          rw [heffect] at hleaves
          simp only
          split
          · exact .goesOn rfl rfl ⟨ks', hleaves _, hafter⟩
          · next f hf =>
              refine evaluated_fail_of_plain ?_
              unfold World.schedule at hf
              split at hf
              · obtain rfl := Except.error.inj hf
                exact Failure.not_isOperandFault_of_kind (by decide) (by decide)
              · contradiction
      | await t stack =>
          rw [heffect] at hleaves
          simp only
          split
          · exact evaluated_fail_of_plain (Failure.not_isOperandFault_of_kind
              (by simp [Task.doubleWait, Failure.new]) (by simp [Task.doubleWait, Failure.new]))
          · split
            · exact .goesOn rfl hsignal hforetold
            · split
              · exact .goesOn rfl rfl ⟨ks', hleaves _, hafter⟩
              · next f hclaim =>
                  exact .fails rfl rfl fun _ => Or.inr ⟨t, f, outcome_of_claim hclaim, rfl⟩
              · next f hclaim =>
                  exact evaluated_fail_of_plain (not_isOperandFault_of_claim hclaim)
      | fail f =>
          rw [heffect] at hleaves
          exact evaluated_fail hleaves
      | crash message => exact .ends rfl fun e h => by simp_all

/-- The states in which an expression above `below` has its turn, from its beginning with the given
items on. Between any two of them the world may have changed, and a call that was begun may have
come to any value. -/
inductive EvalRun (s : Setting) (items : List Item) (site : Location) (below : List Frame) :
    Machine → Prop
  | start {m : Machine} (hframes : m.frames = .eval items [] site :: below)
      (hsignal : m.signal = .run) : EvalRun s items site below m
  | step {m : Machine} {rest : List Item} {stack : List Operand} (w : World)
      (hrun : EvalRun s items site below m)
      (hframes : (m.step s w).machine.frames = .eval rest stack site :: below) :
      EvalRun s items site below (m.step s w).machine
  | answer {m m' : Machine} {f : Frame} {rest : List Item} {stack : List Operand} (w : World)
      (v : Value) (hrun : EvalRun s items site below m)
      (hcalls : (m.step s w).machine.frames = f :: .eval rest stack site :: below)
      (hframes : m'.frames = .eval rest stack site :: below) (hsignal : m'.signal = .value v) :
      EvalRun s items site below m'

/-- The operands are foretold whenever the expression has its turn; a value that it receives counts
as an operand. -/
inductive Orderly (site : Location) (below : List Frame) (m : Machine) : Prop
  | running {rest : List Item} {stack : List Operand}
      (hframes : m.frames = .eval rest stack site :: below) (hsignal : m.signal = .run)
      (hforetold : Foretold rest stack)
  | receiving {rest : List Item} {stack : List Operand} {v : Value}
      (hframes : m.frames = .eval rest stack site :: below) (hsignal : m.signal = .value v)
      (hforetold : Foretold rest (.value v :: stack))

theorem Orderly.step (h : Orderly site below m) (w : World) :
    Evaluated s w site below (m.step s w).machine := by
  cases h with
  | running hframes hsignal hforetold =>
      simp only [Machine.step, hframes, hsignal]
      exact evaluated_evalItem (m := ⟨below, .run, m.scopes, m.depth⟩) hforetold rfl
  | receiving hframes hsignal hforetold =>
      simp only [Machine.step, hframes, hsignal]
      exact .goesOn rfl rfl hforetold

theorem EvalRun.orderly {items : List Item} (hitems : Foretold items [])
    (hrun : EvalRun s items site below m) : Orderly site below m := by
  have hcancel : ∀ (fs gs : List Frame), fs ++ below = gs ++ below → fs = gs :=
    fun fs gs h => List.append_cancel_right h
  induction hrun with
  | start hframes hsignal => exact .running hframes hsignal hitems
  | step w hrun hframes ih =>
      cases ih.step (s := s) w with
      | goesOn hframes' hsignal hforetold => exact .running hframes' hsignal hforetold
      | calls hframes' =>
          have heq := hcancel [_] [_, _] (hframes.symm.trans hframes')
          exact absurd (congrArg List.length heq) (by simp)
      | fails hframes' =>
          have heq := hcancel [_] [] (hframes.symm.trans hframes')
          exact absurd (congrArg List.length heq) (by simp)
      | ends hframes' =>
          have heq := hcancel [_] [] (hframes.symm.trans hframes')
          exact absurd (congrArg List.length heq) (by simp)
  | answer w v hrun hcalls hframes hsignal ih =>
      cases ih.step (s := s) w with
      | goesOn hframes' =>
          have heq := hcancel [_, _] [_] (hcalls.symm.trans hframes')
          exact absurd (congrArg List.length heq) (by simp)
      | calls hframes' _ hforetold =>
          have heq := hcancel [_, _] [_, _] (hcalls.symm.trans hframes')
          simp only [List.cons.injEq, Frame.eval.injEq] at heq
          obtain ⟨-, ⟨rfl, rfl, -⟩, -⟩ := heq
          exact .receiving hframes hsignal (hforetold v)
      | fails hframes' =>
          have heq := hcancel [_, _] [] (hcalls.symm.trans hframes')
          exact absurd (congrArg List.length heq) (by simp)
      | ends hframes' =>
          have heq := hcancel [_, _] [] (hcalls.symm.trans hframes')
          exact absurd (congrArg List.length heq) (by simp)

/-- Whenever a compiled expression has its turn, the next item finds what it takes, and a single
value is left where there is no item. No step fails because of the operands: where it seems to, an
extension has answered with such a failure, or a task has ended with it. -/
theorem EvalRun.finds {raws : List String} {items : List Item}
    (hitems : Code.itemsOf raws = .ok items) (hrun : EvalRun s items site below m) :
    ∃ rest stack, m.frames = .eval rest stack site :: below ∧
      (m.signal = .run → ∀ heap : Heap, match rest with
        | [] => ∃ v, stack = [.value v]
        | i :: _ => i.Finds heap stack) ∧
      ∀ (w : World) (f : Failure), (m.step s w).machine.signal = .leave (.failWith f) →
        Excused s w site f := by
  have horderly := hrun.orderly (foretold_itemsOf hitems)
  have hfails : ∀ (w : World) (f : Failure),
      (m.step s w).machine.signal = .leave (.failWith f) → Excused s w site f := by
    intro w f hf
    cases horderly.step (s := s) w with
    | goesOn _ hsignal => simp [hsignal] at hf
    | calls _ hsignal => simp [hsignal] at hf
    | fails _ hsignal hexcused =>
        rw [hsignal] at hf
        cases hf
        exact hexcused
    | ends _ hsignal => exact absurd hf (hsignal _)
  cases horderly with
  | receiving hframes hsignal =>
      exact ⟨_, _, hframes, fun h => by simp [hsignal] at h, hfails⟩
  | running hframes hsignal hforetold =>
      refine ⟨_, _, hframes, fun _ heap => ?_, hfails⟩
      split
      · exact hforetold.eq_singleton
      · obtain ⟨ks, ks', hks, hkinds, -⟩ := hforetold.cons
        exact Item.finds_of_kinds? hks hkinds heap

/-- A bare name that is scheduled is a call without arguments, which finds its mark. -/
theorem EvalRun.finds_scheduled_name : (Item.call "f" true).Finds Heap.empty [.mark] := by
  let s : Setting := ⟨default, default, Host.none⟩
  let m : Machine := .ofCode World.globals ⟨[.args, .call "f" true, .op .background], default⟩
  have hclassify : Token.classify ["in", "background", "f"] =
      .ok [.unary .background, .word "f"] := by
    cbv
  have hitems : Code.itemsOf ["in", "background", "f"] =
      .ok [.args, .call "f" true, .op .background] := by
    rw [Code.itemsOf, hclassify]
    rfl
  have hrun : EvalRun s [.args, .call "f" true, .op .background] default []
      (m.step s default).machine :=
    .step default (.start rfl rfl) rfl
  obtain ⟨rest, stack, hframes, hfinds, -⟩ := EvalRun.finds hitems hrun
  cases hframes
  exact hfinds rfl Heap.empty

end Machine

end Statute
