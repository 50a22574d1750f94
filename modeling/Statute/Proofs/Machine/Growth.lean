import Statute.Proofs.Machine.Cargo

/-!
# What is allocated stays

A step adds objects to the heap and changes their fields. It takes none away, and an object goes on
to be of the class that it was made for. So what depends on the class of an object only can be found
out at any later point of a run.
-/

namespace Statute

/-! ## Heaps -/

/-- Objects that there are stay, and keep their classes. -/
structure Heap.Grows (h h' : Heap) : Prop where
  size : h.objects.size ≤ h'.objects.size
  cls : ∀ r < h.objects.size, (h'.object r).cls = (h.object r).cls

namespace Heap.Grows

variable {h h' h'' : Heap}

theorem refl (h : Heap) : h.Grows h :=
  ⟨Nat.le_refl _, fun _ _ => rfl⟩

theorem trans (hgrows : h.Grows h') (hgrows' : h'.Grows h'') : h.Grows h'' := by
  refine ⟨hgrows.size.trans hgrows'.size, fun r hr => ?_⟩
  rw [hgrows'.cls r (hr.trans_le hgrows.size), hgrows.cls r hr]

/-- Everything but the objects may change. -/
theorem of_objects (hobjects : h'.objects = h.objects) : h.Grows h' := by
  refine ⟨Nat.le_of_eq (congrArg Array.size hobjects.symm), fun r _ => ?_⟩
  rw [object, hobjects, object]

theorem newObject (h : Heap) (c : Class) : h.Grows (h.newObject c).1 := by
  refine ⟨?_, fun r hr => ?_⟩
  · simp [Heap.newObject]
  · simp only [Heap.newObject, object, Array.getD_eq_getD_getElem?, Array.getElem?_push_lt hr,
      Array.getElem?_eq_getElem hr]

theorem modify (h : Heap) (r : ObjectRef) {f : Object → Object} (hf : ∀ o, (f o).cls = o.cls) :
    h.Grows { h with objects := h.objects.modify r f } := by
  refine ⟨by simp, fun r' hr' => ?_⟩
  simp only [object, Array.getD_eq_getD_getElem?, Array.getElem?_modify,
    Array.getElem?_eq_getElem hr']
  split
  · exact hf _
  · rfl

theorem setField (h : Heap) (r : ObjectRef) (name : String) (v : Value) :
    h.Grows (h.setField r name v) := by
  unfold Heap.setField
  split
  · exact of_objects rfl
  · have hbox : h.Grows (h.newBox v).1 := of_objects rfl
    exact hbox.trans (modify (h.newBox v).1 r (f := fun o => { o with fields := _ }) fun _ => rfl)

theorem adopt (h : Heap) (child parent : ObjectRef) : h.Grows (h.adopt child parent) :=
  modify h child fun _ => rfl

theorem store (h : Heap) (v : Value) (p : Place) : h.Grows (h.store v p) := by
  cases p with
  | binding r name => exact of_objects rfl
  | field r name => exact setField h r name v

theorem newError (h : Heap) (c : Class) (message : String) : h.Grows (h.newError c message).1 :=
  (newObject h c).trans (setField _ _ _ _)

/-- What is asked of a heap that has grown, and nothing of what machines carry. -/
def cargo (s : Setting) (h₀ : Heap) : Cargo s where
  value _ := True
  item _ := True
  remaining _ _ := True
  adopts _ _ := True
  heap h := h₀.Grows h
  pervasive := ⟨fun _ => trivial, by simp⟩
  field _ := trivial
  task _ := trivial
  extension _ := trivial
  deferred := by simp
  item_of_isPlain _ := trivial
  value_of_push _ := trivial
  registry _ _ _ := trivial
  host _ _ _ _ _ _ := trivial
  receiver _ := trivial
  ctor _ _ _ := trivial
  parent _ _ := trivial
  remaining_drop _ _ := trivial
  remaining_tail _ := trivial
  stored _ := ⟨fun _ _ _ => trivial, fun _ => trivial, fun _ _ _ => trivial⟩
  method _ _ _ := trivial
  locks _ hh := hh.trans (.of_objects rfl)
  newScope _ hh := hh.trans (.of_objects rfl)
  define hh _ _ _ := hh.trans (.of_objects rfl)
  store p hh _ _ := hh.trans (.store _ _ p)
  newObject hh _ := hh.trans (.newObject _ _)
  newError _ hh _ := hh.trans (.newError _ _ _)
  adopt _ hh _ := hh.trans (.adopt _ _ _)
  object_of_adopts _ := trivial

end Heap.Grows

namespace Machine

/-- A step takes no object away, and lets all of them keep their classes. -/
theorem grows_step (s : Setting) (w : World) (m : Machine) :
    w.heap.Grows (m.step s w).world.heap := by
  have hvalue : ∀ v, (Heap.Grows.cargo s w.heap).value v := fun _ => trivial
  have hoperand : ∀ o : Operand, o.Carries (Heap.Grows.cargo s w.heap).value := by
    intro o
    cases o <;> trivial
  have hframe : ∀ f : Frame, f.Carries (Heap.Grows.cargo s w.heap) := by
    intro f
    cases f with
    | eval items stack site => exact ⟨fun _ _ => trivial, fun o _ => hoperand o⟩
    | call callee args site => exact ⟨trivial, fun v _ => hvalue v⟩
    | supply c rest => exact ⟨trivial, fun v _ => hvalue v, trivial⟩
    | construct cls args site => exact ⟨trivial, fun v _ => hvalue v⟩
    | adopt object cls args taken site => exact ⟨trivial, fun v _ => hvalue v⟩
    | _ => trivial
  have hsignal : m.signal.Carries (Heap.Grows.cargo s w.heap) := by
    cases m.signal with
    | leave e => cases e <;> trivial
    | _ => trivial
  have hcarries : m.Carries (Heap.Grows.cargo s w.heap) w := ⟨.refl _, fun f _ => hframe f⟩
  exact (hcarries.step hsignal (fun _ _ _ => trivial) (fun _ _ _ _ => trivial)
    (fun _ _ _ _ _ _ _ _ => trivial) fun _ _ => trivial).machine.heap

end Machine

end Statute
