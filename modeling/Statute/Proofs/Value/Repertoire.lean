import Statute.Proofs.Value.Operations

/-!
# The repertoire of a program

The procedures and classes of a program are written once, and a running program makes no new ones.
Values carry them around: a procedure, a method, a class, or a list or deferred call with such
values in it. A value is among a repertoire if all the code that it carries is, and so are heaps,
objects and their classes.

To be among a repertoire is a property of what is in values. So operators and the standard library
come to values among the repertoire that they were given values of.
-/

namespace Statute

/-- The procedures that there are, and how many levels a class has at most. There is room for the
built-in classes, which have up to two levels. It can also be said which classes there are; the
built-in ones and the parents of others are always among them. -/
structure Repertoire where
  procedures : List Procedure
  generations : Nat
  two_le_generations : 2 ≤ generations := by omega
  classes : Class → Prop := fun _ => True
  classes_builtin : ∀ k, classes (.builtin k) := by exact fun _ => trivial
  classes_default : classes default := by exact trivial
  classes_parent? : ∀ {c parent}, classes c → c.parent? = some parent → classes parent := by
    exact fun _ _ => trivial

def Class.code (c : Class) : List Procedure :=
  c.levels.flatMap fun l => l.methods.map (·.2) ++ l.ctor.toList

/-- A class and its code are among a repertoire. -/
structure Class.Among (R : Repertoire) (c : Class) : Prop where
  levels : c.levels.length ≤ R.generations
  code : ∀ p ∈ c.code, p ∈ R.procedures
  known : R.classes c

namespace Value

mutual

/-- The code that a value carries is among a repertoire. -/
def Among (R : Repertoire) : Value → Prop
  | .list items => AllAmong R items
  | .classDef c => c.Among R
  | .procedure p => p ∈ R.procedures
  | .method _ p => p ∈ R.procedures
  | .deferred callee args => callee.Among R ∧ AllAmong R args
  | _ => True

def AllAmong (R : Repertoire) : List Value → Prop
  | [] => True
  | v :: vs => v.Among R ∧ AllAmong R vs

end

variable {R : Repertoire} {v : Value} {vs : List Value}

@[simp] theorem allAmong_nil : AllAmong R [] := by
  rw [AllAmong]
  trivial

theorem allAmong_iff : AllAmong R vs ↔ ∀ v ∈ vs, v.Among R := by
  induction vs with
  | nil => simp
  | cons v vs ih => simp [AllAmong, ih]

@[simp] theorem among_list : (list vs).Among R ↔ ∀ v ∈ vs, v.Among R := by
  rw [Among, allAmong_iff]

@[simp] theorem among_deferred {callee : Value} {args : List Value} :
    (deferred callee args).Among R ↔ callee.Among R ∧ ∀ v ∈ args, v.Among R := by
  rw [Among, allAmong_iff]

theorem pervasive_among (R : Repertoire) : Pervasive (Among R) where
  scalar {v} hv := by cases v <;> trivial
  list := among_list

end Value

namespace Class

variable {R : Repertoire} {c : Class}

theorem among_default : (default : Class).Among R := by
  refine ⟨Nat.le_trans (by decide) R.two_le_generations, ?_, R.classes_default⟩
  intro p hp
  contradiction

theorem Among.ctor (h : c.Among R) {p : Procedure} (hp : c.own.ctor = some p) :
    p ∈ R.procedures := by
  refine h.code p (List.mem_flatMap.mpr ⟨c.own, List.mem_cons_self, ?_⟩)
  simp [hp]

theorem Among.method? (h : c.Among R) {name : String} {p : Procedure}
    (hp : c.method? name = some p) : p ∈ R.procedures := by
  obtain ⟨l, hl, hlookup⟩ := List.exists_of_findSome?_eq_some hp
  refine h.code p (List.mem_flatMap.mpr ⟨l, hl, List.mem_append_left _ ?_⟩)
  exact List.mem_map.mpr ⟨_, Bindings.mem_of_get? hlookup, rfl⟩

theorem levels_of_parent? {parent : Class} (h : c.parent? = some parent) :
    c.levels = c.own :: parent.levels := by
  obtain ⟨own, ancestors⟩ := c
  cases ancestors with
  | nil => contradiction
  | cons l ls =>
      obtain rfl := Option.some.inj h
      rfl

theorem Among.parent? (h : c.Among R) {parent : Class} (hparent : c.parent? = some parent) :
    parent.Among R := by
  have hlevels := levels_of_parent? hparent
  refine ⟨?_, fun p hp => h.code p ?_, R.classes_parent? h.known hparent⟩
  · have hle := h.levels
    rw [hlevels, List.length_cons] at hle
    omega
  · unfold Class.code at hp ⊢
    rw [hlevels, List.flatMap_cons]
    exact List.mem_append_right _ hp

end Class

/-! ## Heaps -/

namespace Heap

/-- All the code that a heap carries is among a repertoire. -/
structure Among (R : Repertoire) (h : Heap) : Prop where
  vars : ∀ r, ∀ p ∈ (h.scope r).vars, p.2.Among R
  boxes : ∀ b, (h.box b).Among R
  records : ∀ r, ∀ p ∈ (h.record r).fields, p.2.Among R
  objects : ∀ r, (h.object r).cls.Among R

variable {R : Repertoire} {h : Heap} {v : Value}

theorem Among.all (hamong : h.Among R) : h.All (Value.Among R) :=
  ⟨hamong.vars, hamong.boxes, hamong.records⟩

theorem among_of_all (hall : h.All (Value.Among R)) (hobjects : ∀ r, (h.object r).cls.Among R) :
    h.Among R :=
  ⟨hall.vars, hall.boxes, hall.records, hobjects⟩

theorem among_empty : Heap.empty.Among R :=
  among_of_all (.empty (Value.pervasive_among R)) fun _ => Class.among_default

theorem Among.locks (hamong : h.Among R) (locks : Array Bool) :
    Among R { h with locks := locks } :=
  ⟨hamong.vars, hamong.boxes, hamong.records, hamong.objects⟩

theorem Among.newScope (hamong : h.Among R) (name : String) : (h.newScope name).1.Among R :=
  among_of_all (hamong.all.newScope name) hamong.objects

theorem Among.define (hamong : h.Among R) (hv : v.Among R) (r : ScopeRef) (name : String) :
    (h.define r name v).Among R :=
  among_of_all (hamong.all.define hv r name) hamong.objects

theorem Among.newObject (hamong : h.Among R) {c : Class} (hc : c.Among R) :
    (h.newObject c).1.Among R := by
  refine among_of_all (hamong.all.newObject c) fun r => ?_
  rw [object_newObject]
  split
  · exact hc
  · exact hamong.objects r

theorem Among.setField (hamong : h.Among R) (hv : v.Among R) (r : ObjectRef) (name : String) :
    (h.setField r name v).Among R := by
  refine among_of_all (hamong.all.setField hv r name) fun r' => ?_
  rw [cls_setField]
  exact hamong.objects r'

theorem Among.adopt (hamong : h.Among R) (child parent : ObjectRef) :
    (h.adopt child parent).Among R := by
  refine among_of_all (hamong.all.of_eq rfl rfl rfl) fun r => ?_
  rw [Heap.adopt, cls_modify h child r (by exact fun _ => rfl)]
  exact hamong.objects r

theorem Among.store (hamong : h.Among R) (hv : v.Among R) (p : Place) : (h.store v p).Among R := by
  cases p with
  | binding r name => exact hamong.define hv r name
  | field r name => exact hamong.setField hv r name

theorem Among.newError (hamong : h.Among R) {c : Class} (hc : c.Among R) (message : String) :
    (h.newError c message).1.Among R :=
  (hamong.newObject hc).setField (v := .text message) trivial _ "message"

theorem Among.newRecord (hamong : h.Among R) {r : Record} (hr : ∀ p ∈ r.fields, p.2.Among R) :
    (h.newRecord r).1.Among R :=
  among_of_all (hamong.all.newRecord hr) hamong.objects

end Heap

/-! ## Names -/

namespace Entry

/-- The code of an entry. -/
def code : Entry → List Procedure
  | .procedure p => [p]
  | .classDef c => c.code
  | _ => []

def generations : Entry → Nat
  | .classDef c => c.levels.length
  | _ => 0

end Entry

namespace Registry

def Among (R : Repertoire) (r : Registry) : Prop :=
  ∀ name v, r.lookup? name = some v → v.Among R

/-- The most levels that an entry has, and two if none has more. -/
def generations (r : Registry) : Nat :=
  r.entries.foldr (fun e n => max e.2.generations n) 2

theorem two_le_generations (r : Registry) : 2 ≤ r.generations := by
  unfold generations
  induction r.entries with
  | nil => exact Nat.le_refl 2
  | cons e es ih => exact Nat.le_trans ih (Nat.le_max_right _ _)

theorem generations_le {r : Registry} {name : String} {e : Entry} (he : (name, e) ∈ r.entries) :
    e.generations ≤ r.generations := by
  unfold generations
  generalize r.entries = es at he
  induction es with
  | nil => contradiction
  | cons e' es ih =>
      rcases List.mem_cons.mp he with rfl | he
      · exact Nat.le_max_left _ _
      · exact Nat.le_trans (ih he) (Nat.le_max_right _ _)

/-- The code of a whole program. -/
def repertoire (r : Registry) : Repertoire where
  procedures := r.entries.flatMap fun e => e.2.code
  generations := r.generations
  two_le_generations := r.two_le_generations

theorem among_repertoire (r : Registry) : r.Among r.repertoire := by
  intro name v hv
  obtain ⟨e, hget, rfl⟩ := Option.map_eq_some_iff.mp hv
  have he := Bindings.mem_of_get? hget
  have hcode : ∀ p ∈ e.code, p ∈ r.repertoire.procedures := fun p hp =>
    List.mem_flatMap.mpr ⟨_, he, hp⟩
  cases e with
  | procedure p => exact hcode p List.mem_cons_self
  | classDef c => exact ⟨generations_le he, hcode, trivial⟩
  | record ref => trivial
  | extension e => trivial

end Registry

theorem Setting.among_resolve {R : Repertoire} {s : Setting} {h : Heap} {env : Env}
    {name : String} {v : Value} (hregistry : s.registry.Among R) (hamong : h.Among R)
    (hv : s.resolve h env name = .ok v) : v.Among R :=
  hamong.all.resolve? hregistry ((gives_resolve s h env name).result v hv)

def Host.Among (R : Repertoire) (host : Host) : Prop :=
  ∀ name args text v, (∀ a ∈ args, a.Among R) → host name args text = .value v → v.Among R

theorem Host.among_none (R : Repertoire) : Host.none.Among R :=
  fun _ _ _ _ _ hv => nomatch hv

end Statute
