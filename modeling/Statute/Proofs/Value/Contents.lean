import Statute.Setting
import Statute.Throwing

/-!
# What is in values and on heaps

Some properties of a value are properties of what is in it: a scalar has nothing in it, and a list
has in it what its items have in them. If all that is stored on a heap has such a property, then
whatever is found there has it, and it stays so as long as only values with the property are stored.
-/

namespace Statute

/-- A value that carries nothing at all. -/
def Value.IsScalar : Value → Prop
  | .empty | .bool _ | .int _ | .number _ | .text _ => True
  | _ => False

/-- A property of what is in values. -/
structure Value.Pervasive (P : Value → Prop) : Prop where
  scalar : ∀ {v : Value}, v.IsScalar → P v
  list : ∀ {vs : List Value}, P (.list vs) ↔ ∀ v ∈ vs, P v

/-- There is nothing in a value but what is in some others. -/
def Value.MadeOf (vs : List Value) (v : Value) : Prop :=
  ∀ P, Pervasive P → (∀ u ∈ vs, P u) → P v

namespace Value

variable {v : Value} {vs : List Value}

theorem IsScalar.madeOf (h : v.IsScalar) : v.MadeOf vs :=
  fun _ hP _ => hP.scalar h

theorem MadeOf.of_mem (h : v ∈ vs) : v.MadeOf vs :=
  fun _ _ hvs => hvs v h

theorem MadeOf.of_mem_list {u : Value} (h : v ∈ vs) (hu : u = .list vs) : v.MadeOf [u] :=
  fun _ hP hlist => hP.list.mp (hu ▸ hlist u List.mem_cons_self) v h

end Value

theorem Bindings.mem_set {α : Type} {bs : Bindings α} {name : String} {a : α} {p : String × α}
    (hp : p ∈ bs.set name a) : p ∈ bs ∨ p = (name, a) := by
  induction bs with
  | nil => exact Or.inr (List.mem_singleton.mp hp)
  | cons b rest ih =>
      obtain ⟨n, c⟩ := b
      simp only [Bindings.set] at hp
      split at hp
      · rcases List.mem_cons.mp hp with rfl | hp
        · exact Or.inr rfl
        · exact Or.inl (List.mem_cons_of_mem _ hp)
      · rcases List.mem_cons.mp hp with rfl | hp
        · exact Or.inl List.mem_cons_self
        · exact (ih hp).imp_left (List.mem_cons_of_mem _)

theorem Bindings.mem_of_get? {α : Type} {bs : Bindings α} {name : String} {a : α}
    (h : bs.get? name = some a) : (name, a) ∈ bs := by
  induction bs with
  | nil => contradiction
  | cons b rest ih =>
      obtain ⟨n, c⟩ := b
      rw [Bindings.get?_cons] at h
      split at h
      · next heq =>
          rw [heq, Option.some.inj h]
          exact List.mem_cons_self
      · exact List.mem_cons_of_mem _ (ih h)

namespace Heap

/-- What holds of heaps when one name after the other is bound. -/
theorem defineAll_induction {H : Heap → Prop} {P : Value → Prop}
    (hdefine : ∀ {h v}, H h → P v → ∀ r name, H (h.define r name v)) {h : Heap} (hh : H h)
    {vars : List (String × Value)} (hvars : ∀ p ∈ vars, P p.2) (r : ScopeRef) :
    H (h.defineAll r vars) := by
  induction vars generalizing h with
  | nil => exact hh
  | cons p vars ih =>
      obtain ⟨name, v⟩ := p
      obtain ⟨hp, hrest⟩ := List.forall_mem_cons.mp hvars
      exact ih (hdefine hh hp r name) hrest

/-- A heap stays as it is for a handler, or a fresh error is put on it. -/
theorem exception_induction {H : Heap → Prop} {h : Heap} (hh : H h) {registry : Registry}
    {f : Failure} (hnew : ∀ c, registry.errorClass? f = some c → H (h.newError c f.message).1) :
    H (h.exception registry f).1 := by
  unfold exception
  split
  · exact hh
  · split
    · next hclass => exact hnew _ hclass
    · exact hh

/-- All that is stored on a heap has a property: what the scopes bind, what is in the boxes of
fields, and what the records have. -/
structure All (P : Value → Prop) (h : Heap) : Prop where
  vars : ∀ r, ∀ p ∈ (h.scope r).vars, P p.2
  boxes : ∀ b, P (h.box b)
  records : ∀ r, ∀ p ∈ (h.record r).fields, P p.2

namespace All

variable {P : Value → Prop} {h : Heap} {v : Value}

theorem empty (hP : Value.Pervasive P) : Heap.empty.All P :=
  ⟨fun _ _ hp => (nomatch hp), fun _ => hP.scalar trivial, fun _ _ hp => (nomatch hp)⟩

/-- What is not stored does not matter. -/
theorem of_eq {h' : Heap} (hall : h.All P) (hscopes : h'.scopes = h.scopes)
    (hboxes : h'.boxes = h.boxes) (hrecords : h'.records = h.records) : h'.All P := by
  refine ⟨fun r => ?_, fun b => ?_, fun r => ?_⟩
  · rw [scope, hscopes]
    exact hall.vars r
  · rw [box, hboxes]
    exact hall.boxes b
  · rw [record, hrecords]
    exact hall.records r

theorem newScope (hall : h.All P) (name : String) : (h.newScope name).1.All P := by
  refine ⟨fun r p hp => ?_, hall.boxes, hall.records⟩
  simp only [Heap.newScope, scope, Array.getD_eq_getD_getElem?, Array.getElem?_push] at hp
  split at hp
  · contradiction
  · exact hall.vars r p (by rwa [scope, Array.getD_eq_getD_getElem?])

theorem define (hall : h.All P) (hv : P v) (r : ScopeRef) (name : String) :
    (h.define r name v).All P := by
  refine ⟨fun r' p hp => ?_, hall.boxes, hall.records⟩
  have hold := hall.vars r' p
  simp only [Heap.define, scope, Array.getD_eq_getD_getElem?, Array.getElem?_modify] at hp hold
  split at hp
  · cases hscope : h.scopes[r']? with
    | none =>
        rw [hscope] at hp
        contradiction
    | some s =>
        rw [hscope] at hp hold
        rcases Bindings.mem_set hp with hp | rfl
        · exact hold hp
        · exact hv
  · exact hold hp

theorem newBox (hall : h.All P) (hv : P v) : (h.newBox v).1.All P := by
  refine ⟨hall.vars, fun b => ?_, hall.records⟩
  simp only [Heap.newBox, box, Array.getD_eq_getD_getElem?, Array.getElem?_push]
  split
  · exact hv
  · rw [← Array.getD_eq_getD_getElem?]
    exact hall.boxes b

theorem setBox (hall : h.All P) (hv : P v) (r : BoxRef) : (h.setBox r v).All P := by
  refine ⟨hall.vars, fun b => ?_, hall.records⟩
  have hold := hall.boxes b
  simp only [Heap.setBox, box, Array.getD_eq_getD_getElem?, Array.getElem?_setIfInBounds] at hold ⊢
  split
  · next heq =>
      split
      · exact hv
      · next hlt =>
          rw [← heq, Array.getElem?_eq_none (Nat.le_of_not_lt hlt)] at hold
          exact hold
  · exact hold

theorem setField (hall : h.All P) (hv : P v) (r : ObjectRef) (name : String) :
    (h.setField r name v).All P := by
  unfold Heap.setField
  split
  · exact hall.setBox hv _
  · exact (hall.newBox hv).of_eq rfl rfl rfl

theorem store (hall : h.All P) (hv : P v) (p : Place) : (h.store v p).All P := by
  cases p with
  | binding r name => exact hall.define hv r name
  | field r name => exact hall.setField hv r name

theorem newObject (hall : h.All P) (c : Class) : (h.newObject c).1.All P :=
  hall.of_eq rfl rfl rfl

theorem newError (hall : h.All P) (hP : Value.Pervasive P) (c : Class) (message : String) :
    (h.newError c message).1.All P :=
  (hall.newObject c).setField (v := .text message) (hP.scalar trivial) _ "message"

theorem newRecord (hall : h.All P) {r : Record} (hr : ∀ p ∈ r.fields, P p.2) :
    (h.newRecord r).1.All P := by
  refine ⟨hall.vars, hall.boxes, fun r' p hp => ?_⟩
  simp only [Heap.newRecord, record, Array.getD_eq_getD_getElem?, Array.getElem?_push] at hp
  split at hp
  · exact hr p hp
  · exact hall.records r' p (by rwa [record, Array.getD_eq_getD_getElem?])

theorem lookup? (hall : h.All P) {env : Env} {name : String} (hv : h.lookup? env name = some v) :
    P v := by
  obtain ⟨r, -, hr⟩ := List.exists_of_findSome?_eq_some hv
  exact hall.vars r _ (Bindings.mem_of_get? hr)

theorem unbox (hall : h.All P) (hv : P v) : P (h.unbox v) := by
  have hwith : ∀ fuel (v : Value), P v → P (h.unboxWith fuel v) := by
    intro fuel
    induction fuel with
    | zero => exact fun v hv => hv
    | succ fuel ih =>
        intro v hv
        cases v with
        | field b => exact ih _ (hall.boxes b)
        | _ => exact hv
  exact hwith _ v hv

end All

/-! ## Objects -/

theorem object_modify (h : Heap) (r r' : ObjectRef) (f : Object → Object) :
    ({ h with objects := h.objects.modify r f } : Heap).object r' =
      if r' = r ∧ r < h.objects.size then f (h.object r) else h.object r' := by
  simp only [object, Array.getD_eq_getD_getElem?, Array.getElem?_modify]
  by_cases hr : r = r'
  · subst hr
    by_cases hlt : r < h.objects.size
    · simp [hlt]
    · simp [hlt]
  · simp [hr, Ne.symm hr]

theorem object_newObject (h : Heap) (c : Class) (r : ObjectRef) :
    (h.newObject c).1.object r =
      if r = h.objects.size then ⟨c, [], none⟩ else h.object r := by
  simp only [newObject, object, Array.getD_eq_getD_getElem?, Array.getElem?_push]
  split <;> rfl

/-- An object keeps its class when other things about it change. -/
theorem cls_modify (h : Heap) (r r' : ObjectRef) {f : Object → Object}
    (hf : ∀ o, (f o).cls = o.cls) :
    (({ h with objects := h.objects.modify r f } : Heap).object r').cls = (h.object r').cls := by
  rw [object_modify]
  split
  · next heq => rw [hf, heq.1]
  · rfl

theorem size_objects_setField (h : Heap) (r : ObjectRef) (name : String) (v : Value) :
    (h.setField r name v).objects.size = h.objects.size := by
  unfold setField
  split
  · rfl
  · simp [newBox]

theorem size_objects_newError (h : Heap) (c : Class) (message : String) :
    (h.newError c message).1.objects.size = h.objects.size + 1 := by
  rw [newError, size_objects_setField]
  simp [newObject]

theorem objects_defineAll (h : Heap) (r : ScopeRef) (vars : List (String × Value)) :
    (h.defineAll r vars).objects = h.objects :=
  defineAll_induction (H := fun h' => h'.objects = h.objects) (P := fun _ => True)
    (fun hh _ _ _ => hh) rfl (fun _ _ => trivial) r

theorem cls_setField (h : Heap) (r r' : ObjectRef) (name : String) (v : Value) :
    ((h.setField r name v).object r').cls = (h.object r').cls := by
  unfold setField
  split
  · rfl
  · exact cls_modify (h.newBox v).1 r r' fun _ => rfl

end Heap

end Statute
