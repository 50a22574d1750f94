import Statute.Proofs.Value.Contents

/-!
# Bare values

A value is bare if there is neither the box of a field nor a deferred call in it, at whatever depth
of lists. A heap is bare if all that is stored on it is: what the scopes bind, what is in the boxes
of fields, and what the records have. Then one look into a box is enough to find a bare value.
-/

namespace Statute

namespace Value

mutual

/-- Whether there is no box and no deferred call in a value. -/
def isBare : Value → Bool
  | .list items => areBare items
  | .field _ => false
  | .deferred _ _ => false
  | _ => true

def areBare : List Value → Bool
  | [] => true
  | v :: vs => v.isBare && areBare vs

end

@[simp] theorem isBare_list {vs : List Value} : (list vs).isBare = areBare vs := rfl

@[simp] theorem areBare_cons {v : Value} {vs : List Value} :
    areBare (v :: vs) = (v.isBare && areBare vs) := rfl

theorem areBare_iff {vs : List Value} : areBare vs = true ↔ ∀ v ∈ vs, v.isBare = true := by
  induction vs with
  | nil => exact iff_of_true rfl nofun
  | cons v vs ih => rw [areBare_cons, Bool.and_eq_true, ih, List.forall_mem_cons]

@[simp] theorem areBare_append {vs ws : List Value} :
    areBare (vs ++ ws) = (areBare vs && areBare ws) := by
  induction vs with
  | nil => rfl
  | cons v vs ih => rw [List.cons_append, areBare_cons, areBare_cons, ih, Bool.and_assoc]

theorem areBare_take {vs : List Value} (h : areBare vs = true) (n : Nat) :
    areBare (vs.take n) = true :=
  areBare_iff.mpr fun v hv => areBare_iff.mp h v (List.mem_of_mem_take hv)

end Value

theorem Value.IsScalar.isBare {v : Value} (h : v.IsScalar) : v.isBare = true := by
  cases v <;> first | rfl | contradiction

theorem Value.pervasive_isBare : Pervasive fun v => v.isBare = true where
  scalar := IsScalar.isBare
  list {vs} := by rw [isBare_list, areBare_iff]

namespace Heap

/-- All that is stored on a heap is bare. -/
structure Bare (h : Heap) : Prop where
  vars : ∀ r, ∀ p ∈ (h.scope r).vars, p.2.isBare = true
  boxes : ∀ b, (h.box b).isBare = true
  records : ∀ r, ∀ p ∈ (h.record r).fields, p.2.isBare = true

variable {h : Heap} {v : Value}

theorem bare_iff_all : h.Bare ↔ h.All fun v => v.isBare = true :=
  ⟨fun hbare => ⟨hbare.vars, hbare.boxes, hbare.records⟩,
    fun hall => ⟨hall.vars, hall.boxes, hall.records⟩⟩

theorem bare_empty : Heap.empty.Bare :=
  bare_iff_all.mpr (.empty Value.pervasive_isBare)

/-- What is not stored does not matter. -/
theorem Bare.of_eq {h' : Heap} (hbare : h.Bare) (hscopes : h'.scopes = h.scopes)
    (hboxes : h'.boxes = h.boxes) (hrecords : h'.records = h.records) : h'.Bare :=
  bare_iff_all.mpr ((bare_iff_all.mp hbare).of_eq hscopes hboxes hrecords)

theorem Bare.newScope (hbare : h.Bare) (name : String) : (h.newScope name).1.Bare :=
  bare_iff_all.mpr ((bare_iff_all.mp hbare).newScope name)

theorem Bare.define (hbare : h.Bare) (hv : v.isBare = true) (r : ScopeRef) (name : String) :
    (h.define r name v).Bare :=
  bare_iff_all.mpr ((bare_iff_all.mp hbare).define hv r name)

theorem Bare.defineAll (hbare : h.Bare) {vars : List (String × Value)}
    (hvars : ∀ p ∈ vars, p.2.isBare = true) (r : ScopeRef) : (h.defineAll r vars).Bare :=
  defineAll_induction (P := fun v => v.isBare = true) Bare.define hbare hvars r

theorem Bare.setField (hbare : h.Bare) (hv : v.isBare = true) (r : ObjectRef) (name : String) :
    (h.setField r name v).Bare :=
  bare_iff_all.mpr ((bare_iff_all.mp hbare).setField hv r name)

theorem Bare.store (hbare : h.Bare) (hv : v.isBare = true) (p : Place) : (h.store v p).Bare :=
  bare_iff_all.mpr ((bare_iff_all.mp hbare).store hv p)

theorem Bare.newError (hbare : h.Bare) (c : Class) (message : String) :
    (h.newError c message).1.Bare :=
  bare_iff_all.mpr ((bare_iff_all.mp hbare).newError Value.pervasive_isBare c message)

theorem Bare.exception (hbare : h.Bare) (registry : Registry) (f : Failure) :
    (h.exception registry f).1.Bare :=
  exception_induction hbare fun c _ => hbare.newError c f.message

theorem isBare_exception (h : Heap) (registry : Registry) (f : Failure) :
    (h.exception registry f).2.isBare = true := by
  unfold exception
  split
  · rfl
  · split <;> rfl

theorem Bare.newRecord (hbare : h.Bare) {r : Record} (hr : ∀ p ∈ r.fields, p.2.isBare = true) :
    (h.newRecord r).1.Bare :=
  bare_iff_all.mpr ((bare_iff_all.mp hbare).newRecord hr)

theorem unbox_of_isBare (h : Heap) (hv : v.isBare = true) : h.unbox v = v := by
  cases v with
  | field b => contradiction
  | _ => rfl

/-- One look into a box is enough. -/
theorem Bare.unbox_field (hbare : h.Bare) (b : BoxRef) : h.unbox (.field b) = h.box b := by
  have hbox := hbare.boxes b
  rw [Heap.unbox, unboxWith]
  cases hcontent : h.box b with
  | field b' =>
      rw [hcontent] at hbox
      contradiction
  | _ => cases h.boxes.size <;> rfl

end Heap

end Statute
