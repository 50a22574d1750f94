import Statute.Proofs.Machine.Growth
import Statute.Proofs.Value.Regions

/-!
# How a heap evolves

Whatever changes about a heap, some things stay. No address is given up, an object keeps its class,
a parent that it has been given and the boxes of its fields, and the records are the same ones. An
object of a class that does not inherit is never given a parent. An object outside of the region
that is worked on does not change at all. If every field has a box that is there, this goes on to be
so.

An object that has adopted its parent object shares the boxes of its fields from then on. So what is
stored into such a field through either of the two is found there through the other.
-/

namespace Statute

/-- Whether the objects of a class get parent objects: those of built-in classes do not. -/
def Class.Inherits (c : Class) : Prop :=
  c.own.builtin = none ∧ c.parent? ≠ none

namespace Heap

def Boxed (h : Heap) : Prop :=
  ∀ r name b, h.field? r name = some b → b < h.boxes.size

def fieldValue? (h : Heap) (r : ObjectRef) (name : String) : Option Value :=
  (h.field? r name).map h.box

/-- The first object has every field of the second one, in the same box. -/
def Shares (h : Heap) (r r' : ObjectRef) : Prop :=
  ∀ name b, h.field? r' name = some b → h.field? r name = some b

/-- What stays when work is done on a region of a heap. -/
structure Evolves (R : Region) (h h' : Heap) : Prop where
  grows : h.Grows h'
  records : h'.records = h.records
  boxes : h.boxes.size ≤ h'.boxes.size
  fields : ∀ r name b, h.field? r name = some b → h'.field? r name = some b
  parent : ∀ r parent, (h.object r).parent = some parent → (h'.object r).parent = some parent
  orphans : ∀ r < h.objects.size, ¬ (h.object r).cls.Inherits → (h.object r).parent = none →
    (h'.object r).parent = none
  untouched : ∀ r < h.objects.size, ¬ R r → h'.object r = h.object r
  boxed : h.Boxed → h'.Boxed

theorem object_eq_default {h : Heap} {r : ObjectRef} (hr : h.objects.size ≤ r) :
    h.object r = default := by
  rw [object, Array.getD_eq_getD_getElem?, Array.getElem?_eq_none hr]
  rfl

theorem field?_eq_none {h : Heap} {r : ObjectRef} (hr : h.objects.size ≤ r) (name : String) :
    h.field? r name = none := by
  rw [field?, object_eq_default hr]
  rfl

theorem lt_of_field? {h : Heap} {r : ObjectRef} {name : String} {b : BoxRef}
    (hfield : h.field? r name = some b) : r < h.objects.size := by
  refine Nat.lt_of_not_le fun hle => ?_
  rw [field?_eq_none hle] at hfield
  contradiction

/-- Fields that are taken over do not hide those that are there. -/
theorem get?_inheritFields (own inherited : Bindings BoxRef) (name : String) :
    (inheritFields own inherited).get? name = (own.get? name).or (inherited.get? name) := by
  induction inherited generalizing own with
  | nil => simp [inheritFields]
  | cons field rest ih =>
      obtain ⟨n, b⟩ := field
      rw [inheritFields, ih, Bindings.get?_cons]
      by_cases hname : name = n
      · subst hname
        cases hown : own.get? name with
        | none => simp [Bindings.contains, hown, Bindings.get?_set]
        | some b' => simp [Bindings.contains, hown]
      · cases hown : own.contains n <;> simp [Bindings.get?_set, hname]

theorem object_adopt {h : Heap} {child : ObjectRef} (hchild : child < h.objects.size)
    (parent r : ObjectRef) :
    (h.adopt child parent).object r =
      if r = child then
        { h.object child with
          fields := inheritFields (h.object child).fields (h.object parent).fields
          parent := (h.object child).parent <|> some parent }
      else h.object r := by
  rw [adopt, object_modify]
  simp only [hchild, and_true]

/-! ## What stays -/

namespace Evolves

variable {R R' : Region} {h h' h'' : Heap} {v : Value}

theorem refl (R : Region) (h : Heap) : h.Evolves R h :=
  ⟨.refl h, rfl, Nat.le_refl _, fun _ _ _ hb => hb, fun _ _ hp => hp, fun _ _ _ hp => hp,
    fun _ _ _ => rfl, fun hboxed => hboxed⟩

/-- Work on objects that were not there before leaves those that were there alone. -/
theorem trans_of (hfirst : h.Evolves R h') (hthen : h'.Evolves R' h'')
    (hR : ∀ r < h.objects.size, R' r → R r) : h.Evolves R h'' where
  grows := hfirst.grows.trans hthen.grows
  records := hthen.records.trans hfirst.records
  boxes := hfirst.boxes.trans hthen.boxes
  fields r name b hb := hthen.fields r name b (hfirst.fields r name b hb)
  parent r p hp := hthen.parent r p (hfirst.parent r p hp)
  orphans r hr hcls hp := by
    refine hthen.orphans r (hr.trans_le hfirst.grows.size) ?_ (hfirst.orphans r hr hcls hp)
    rwa [hfirst.grows.cls r hr]
  untouched r hr hout := by
    rw [hthen.untouched r (hr.trans_le hfirst.grows.size) fun hin => hout (hR r hr hin),
      hfirst.untouched r hr hout]
  boxed hboxed := hthen.boxed (hfirst.boxed hboxed)

theorem trans (hfirst : h.Evolves R h') (hthen : h'.Evolves R h'') : h.Evolves R h'' :=
  hfirst.trans_of hthen fun _ _ hr => hr

theorem mono (hevolves : h.Evolves R h') (hR : ∀ r, R r → R' r) :
    h.Evolves R' h' :=
  { hevolves with untouched := fun r hr hout => hevolves.untouched r hr fun hin => hout (hR r hin) }

/-- Objects and records are left alone, and no box is given up. -/
theorem of_objects (hobjects : h'.objects = h.objects) (hrecords : h'.records = h.records)
    (hboxes : h.boxes.size ≤ h'.boxes.size) : h.Evolves R h' := by
  have hobject : ∀ r, h'.object r = h.object r := fun r => by rw [object, hobjects, object]
  have hfield : ∀ r name, h'.field? r name = h.field? r name := fun r name => by
    rw [field?, hobject, field?]
  refine ⟨.of_objects hobjects, hrecords, hboxes, ?_, ?_, ?_, fun r _ _ => hobject r, ?_⟩
  · exact fun r name b hb => (hfield r name).trans hb
  · exact fun r p hp => (congrArg Object.parent (hobject r)).trans hp
  · exact fun r _ _ hp => (congrArg Object.parent (hobject r)).trans hp
  · intro hboxed r name b hb
    exact (hboxed r name b ((hfield r name).symm.trans hb)).trans_le hboxes

/-- Nothing but scopes and locks changes. -/
theorem of_eq (hobjects : h'.objects = h.objects) (hrecords : h'.records = h.records)
    (hboxes : h'.boxes = h.boxes) : h.Evolves R h' :=
  of_objects hobjects hrecords (Nat.le_of_eq (congrArg Array.size hboxes.symm))

theorem newObject (R : Region) (h : Heap) (c : Class) : h.Evolves R (h.newObject c).1 := by
  have hold : ∀ r < h.objects.size, (h.newObject c).1.object r = h.object r := fun r hr => by
    rw [object_newObject, if_neg (Nat.ne_of_lt hr)]
  refine ⟨.newObject h c, rfl, Nat.le_refl _, ?_, ?_, fun r hr _ hp => ?_,
    fun r hr _ => hold r hr, ?_⟩
  · intro r name b hb
    rw [field?, hold r (lt_of_field? hb)]
    exact hb
  · intro r p hp
    by_cases hr : r < h.objects.size
    · rwa [hold r hr]
    · rw [object_eq_default (Nat.le_of_not_lt hr)] at hp
      contradiction
  · rwa [hold r hr]
  · intro hboxed r name b hb
    rw [field?, object_newObject] at hb
    split at hb
    · contradiction
    · exact hboxed r name b hb

/-- One object of the region changes. -/
theorem modify {r : ObjectRef} (hr : R r) {f : Object → Object}
    (hcls : ∀ o, (f o).cls = o.cls)
    (hfields : ∀ name b, (h.object r).fields.get? name = some b →
      (f (h.object r)).fields.get? name = some b)
    (hparent : ∀ o p, o.parent = some p → (f o).parent = some p)
    (horphan : ¬ (h.object r).cls.Inherits → (h.object r).parent = none →
      (f (h.object r)).parent = none)
    (hboxed : h.Boxed → ∀ name b, (f (h.object r)).fields.get? name = some b → b < h.boxes.size) :
    h.Evolves R { h with objects := h.objects.modify r f } := by
  refine ⟨.modify h r hcls, rfl, Nat.le_refl _, ?_, ?_, ?_, ?_, ?_⟩
  · intro r' name b hb
    rw [field?, object_modify]
    split
    · next heq =>
        rw [heq.1] at hb
        exact hfields name b hb
    · exact hb
  · intro r' p hp
    rw [object_modify]
    split
    · next heq =>
        rw [heq.1] at hp
        exact hparent _ p hp
    · exact hp
  · intro r' _ hcls' hp
    rw [object_modify]
    split
    · next heq =>
        rw [heq.1] at hcls' hp
        exact horphan hcls' hp
    · exact hp
  · intro r' _ hout
    rw [object_modify, if_neg]
    rintro ⟨rfl, -⟩
    exact hout hr
  · intro hall r' name b hb
    rw [field?, object_modify] at hb
    split at hb
    · exact hboxed hall name b hb
    · exact hall r' name b hb

theorem setField {r : ObjectRef} (hr : R r) (h : Heap) (name : String) (v : Value) :
    h.Evolves R (h.setField r name v) := by
  unfold Heap.setField
  split
  · exact of_objects rfl rfl (by simp [Heap.setBox])
  · next hnone =>
      have hbox : h.Evolves R (h.newBox v).1 := of_objects rfl rfl (by simp [Heap.newBox])
      refine hbox.trans (modify (h := (h.newBox v).1) hr (fun _ => rfl) ?_ (fun _ _ hp => hp)
        (fun _ hp => hp) ?_)
      · intro other b hb
        rw [Bindings.get?_set]
        split
        · next heq =>
            subst heq
            have hsome : h.field? r other = some b := hb
            rw [hnone] at hsome
            contradiction
        · exact hb
      · intro hboxed other b hb
        rw [Bindings.get?_set] at hb
        split at hb
        · rw [← Option.some.inj hb]
          simp [Heap.newBox]
        · exact hboxed r other b hb

theorem adopt {child : ObjectRef} (hchild : R child) (hinherits : (h.object child).cls.Inherits)
    (parent : ObjectRef) : h.Evolves R (h.adopt child parent) := by
  refine modify hchild (fun _ => rfl) (fun name b hb => ?_) (fun o p hp => ?_)
    (fun hcls => absurd hinherits hcls) fun hboxed name b hb => ?_
  · rw [get?_inheritFields, hb]
    rfl
  · rw [hp]
    rfl
  · rw [get?_inheritFields, Option.or_eq_some_iff] at hb
    rcases hb with hb | ⟨-, hb⟩
    · exact hboxed child name b hb
    · exact hboxed parent name b hb

theorem store {p : Place} (hplace : ∀ r name, p = .field r name → R r) (h : Heap)
    (v : Value) : h.Evolves R (h.store v p) := by
  cases p with
  | binding r name => exact of_eq rfl rfl rfl
  | field r name => exact setField (hplace r name rfl) h name v

theorem newError (R : Region) (h : Heap) (c : Class) (message : String) :
    h.Evolves R (h.newError c message).1 := by
  -- The field is one of the fresh object.
  have hfield : (h.newObject c).1.Evolves (fun r => r = h.objects.size) (h.newError c message).1 :=
    setField (R := fun r => r = h.objects.size) rfl _ "message" (.text message)
  exact (newObject R h c).trans_of hfield fun r hr heq => absurd heq (Nat.ne_of_lt hr)

end Evolves

/-! ## Shared fields -/

variable {R : Region} {h h' : Heap} {child parent : ObjectRef}

/-- An object without fields shares all those of a parent that it adopts. -/
theorem shares_adopt (hchild : child < h.objects.size) (hfields : (h.object child).fields = [])
    (hne : parent ≠ child) : (h.adopt child parent).Shares child parent := by
  intro name b hb
  rw [field?, object_adopt hchild, if_neg hne] at hb
  rw [field?, object_adopt hchild, if_pos rfl]
  dsimp only
  rw [get?_inheritFields, hfields]
  exact hb

/-- A field that two objects share holds the same for both, and what is stored into it through one
of them is found there through the other. -/
theorem fieldValue?_setField {r r' : ObjectRef} {name : String} {b : BoxRef} (hboxed : h.Boxed)
    (hr : h.field? r name = some b) (hr' : h.field? r' name = some b) (v : Value) :
    (h.setField r name v).fieldValue? r' name = some v := by
  have hb : b < h.boxes.size := hboxed r name b hr
  unfold setField
  rw [hr]
  change (h.field? r' name).map (h.setBox b v).box = some v
  rw [hr']
  simp [setBox, box, hb]

end Heap

end Statute
