import Statute.Proofs.Value.Operations

/-!
# Regions of the heap

A region is a choice of addresses of objects. A value is inside of it if all addresses of objects in
it are, at whatever depth of lists and deferred calls, and so is a heap if all that is stored on it
is. That is a property of what is in values, and the registry knows no objects. So operators, names
and the standard library make up no addresses: what they come to is inside of every region that they
were given values of.

With the addresses that have been allocated as the region, this says that nothing points to where
there is nothing. With all addresses but one, it says that nobody knows this one.
-/

namespace Statute

abbrev Region := ObjectRef → Prop

namespace Value

mutual

/-- The addresses in a value are inside a region. -/
def Inside (R : Region) : Value → Prop
  | .list items => AllInside R items
  | .object r => R r
  | .method r _ => R r
  | .deferred callee args => callee.Inside R ∧ AllInside R args
  | _ => True

def AllInside (R : Region) : List Value → Prop
  | [] => True
  | v :: vs => v.Inside R ∧ AllInside R vs

end

variable {R R' : Region} {v : Value} {vs : List Value}

theorem allInside_iff : AllInside R vs ↔ ∀ v ∈ vs, v.Inside R := by
  induction vs with
  | nil => simp [AllInside]
  | cons v vs ih => simp [AllInside, ih]

@[simp] theorem inside_list : (list vs).Inside R ↔ ∀ v ∈ vs, v.Inside R := by
  rw [Inside, allInside_iff]

@[simp] theorem inside_deferred {callee : Value} {args : List Value} :
    (deferred callee args).Inside R ↔ callee.Inside R ∧ ∀ v ∈ args, v.Inside R := by
  rw [Inside, allInside_iff]

theorem pervasive_inside (R : Region) : Pervasive (Inside R) where
  scalar {v} hv := by cases v <;> trivial
  list := inside_list

mutual

theorem Inside.mono (hwithin : ∀ r, R r → R' r) {v : Value} (h : v.Inside R) : v.Inside R' := by
  cases v with
  | list items =>
      rw [inside_list, ← allInside_iff] at h ⊢
      exact AllInside.mono hwithin h
  | object r => exact hwithin r h
  | method r p => exact hwithin r h
  | deferred callee args =>
      rw [inside_deferred, ← allInside_iff] at h ⊢
      exact ⟨Inside.mono hwithin h.1, AllInside.mono hwithin h.2⟩
  | _ => trivial

theorem AllInside.mono (hwithin : ∀ r, R r → R' r) {vs : List Value} (h : AllInside R vs) :
    AllInside R' vs := by
  cases vs with
  | nil => trivial
  | cons v vs =>
      rw [AllInside] at h ⊢
      exact ⟨Inside.mono hwithin h.1, AllInside.mono hwithin h.2⟩

end

end Value

def Failure.Inside (R : Region) (f : Failure) : Prop :=
  ∀ r, f.payload = some r → R r

theorem Failure.Plain.inside {R : Region} {f : Failure} (h : f.Plain) : f.Inside R := by
  intro r hr
  rw [h.payload] at hr
  contradiction

/-! ## Heaps -/

namespace Heap

/-- All that is stored on a heap is inside a region. -/
structure Inside (R : Region) (h : Heap) : Prop where
  vars : ∀ r, ∀ p ∈ (h.scope r).vars, p.2.Inside R
  boxes : ∀ b, (h.box b).Inside R
  records : ∀ r, ∀ p ∈ (h.record r).fields, p.2.Inside R

variable {R R' : Region} {h : Heap} {v : Value}

theorem inside_iff_all : h.Inside R ↔ h.All (Value.Inside R) :=
  ⟨fun hinside => ⟨hinside.vars, hinside.boxes, hinside.records⟩,
    fun hall => ⟨hall.vars, hall.boxes, hall.records⟩⟩

theorem inside_empty : Heap.empty.Inside R :=
  inside_iff_all.mpr (.empty (Value.pervasive_inside R))

theorem Inside.mono (hwithin : ∀ r, R r → R' r) (hinside : h.Inside R) : h.Inside R' :=
  ⟨fun r p hp => (hinside.vars r p hp).mono hwithin, fun b => (hinside.boxes b).mono hwithin,
    fun r p hp => (hinside.records r p hp).mono hwithin⟩

/-- What is not stored does not matter. -/
theorem Inside.of_eq {h' : Heap} (hinside : h.Inside R) (hscopes : h'.scopes = h.scopes)
    (hboxes : h'.boxes = h.boxes) (hrecords : h'.records = h.records) : h'.Inside R :=
  inside_iff_all.mpr ((inside_iff_all.mp hinside).of_eq hscopes hboxes hrecords)

theorem Inside.newScope (hinside : h.Inside R) (name : String) : (h.newScope name).1.Inside R :=
  inside_iff_all.mpr ((inside_iff_all.mp hinside).newScope name)

theorem Inside.define (hinside : h.Inside R) (hv : v.Inside R) (r : ScopeRef) (name : String) :
    (h.define r name v).Inside R :=
  inside_iff_all.mpr ((inside_iff_all.mp hinside).define hv r name)

theorem Inside.store (hinside : h.Inside R) (hv : v.Inside R) (p : Place) :
    (h.store v p).Inside R :=
  inside_iff_all.mpr ((inside_iff_all.mp hinside).store hv p)

theorem Inside.newError (hinside : h.Inside R) (c : Class) (message : String) :
    (h.newError c message).1.Inside R :=
  inside_iff_all.mpr ((inside_iff_all.mp hinside).newError (Value.pervasive_inside R) c message)

theorem Inside.newRecord (hinside : h.Inside R) {r : Record} (hr : ∀ p ∈ r.fields, p.2.Inside R) :
    (h.newRecord r).1.Inside R :=
  inside_iff_all.mpr ((inside_iff_all.mp hinside).newRecord hr)

/-- A value that is thrown is raised as a failure that carries this value, or nothing. -/
theorem inside_of_thrown {f : Failure} (hv : v.Inside R) (hthrown : h.thrown v = .ok f) :
    f.Inside R := by
  unfold thrown at hthrown
  split at hthrown
  · split at hthrown
    · obtain rfl := Except.ok.inj hthrown
      exact (Failure.plain_new _ _).inside
    · contradiction
  · split at hthrown
    · obtain rfl := Except.ok.inj hthrown
      intro r hr
      rwa [← Option.some.inj hr]
    · contradiction
  · contradiction

end Heap

/-! ## Hosts and registries -/

/-- The host answers inside a region if it is given values inside it. -/
structure Host.Inside (R : Region) (host : Host) : Prop where
  value : ∀ name args text v, (∀ a ∈ args, a.Inside R) → host name args text = .value v → v.Inside R
  failure : ∀ name args text f, host name args text = .failure f → f.Inside R

theorem Host.inside_none (R : Region) : Host.none.Inside R := by
  refine ⟨fun _ _ _ _ _ hv => (nomatch hv), fun name args text f hf => ?_⟩
  obtain rfl := HostAnswer.failure.inj hf
  exact (Failure.plain_new _ _).inside

/-- The registry knows no objects. -/
theorem Registry.inside_of_lookup? {R : Region} {r : Registry} {name : String} {v : Value}
    (hv : r.lookup? name = some v) : v.Inside R := by
  obtain ⟨entry, -, rfl⟩ := Option.map_eq_some_iff.mp hv
  cases entry <;> trivial

end Statute
