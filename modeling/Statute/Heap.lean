import Statute.Bindings
import Statute.Text.Order
import Statute.Value.Basic

/-!
# The heap

Everything that is shared lives on one heap: scopes, the boxes of fields, objects, records and the
locks of exclusive blocks. Each of them has an address, and what is allocated stays where it is.

A chain of scopes is the list of their addresses, innermost first. Scopes never change their
parents, so a chain is all that is needed to find a name.
-/

namespace Statute

abbrev ScopeRef := Nat

/-- A chain of scopes, innermost first. -/
abbrev Env := List ScopeRef

/-- The names bound in one scope. -/
structure Scope where
  name : String
  vars : Bindings Value
deriving Inhabited

/-- An object: its class, the boxes of its fields, and the object that was constructed for its
parent class. -/
structure Object where
  cls : Class
  fields : Bindings BoxRef
  parent : Option ObjectRef
deriving Inhabited

/-- A record: named data that cannot be changed. -/
structure Record where
  name : String
  kind : String
  fields : Bindings Value
deriving Inhabited

/-- All that is shared. -/
structure Heap where
  scopes : Array Scope
  boxes : Array Value
  objects : Array Object
  records : Array Record
  locks : Array Bool
deriving Inhabited

namespace Heap

def empty : Heap := ⟨#[], #[], #[], #[], #[]⟩

def newScope (h : Heap) (name : String) : Heap × ScopeRef :=
  let r := h.scopes.size
  ({ h with scopes := h.scopes.push ⟨name, []⟩ }, r)

def newBox (h : Heap) (v : Value) : Heap × BoxRef :=
  let r := h.boxes.size
  ({ h with boxes := h.boxes.push v }, r)

def newObject (h : Heap) (c : Class) : Heap × ObjectRef :=
  let r := h.objects.size
  ({ h with objects := h.objects.push ⟨c, [], none⟩ }, r)

def newRecord (h : Heap) (r : Record) : Heap × RecordRef :=
  let ref := h.records.size
  ({ h with records := h.records.push r }, ref)

def scope (h : Heap) (r : ScopeRef) : Scope :=
  h.scopes.getD r default

def object (h : Heap) (r : ObjectRef) : Object :=
  h.objects.getD r default

def record (h : Heap) (r : RecordRef) : Record :=
  h.records.getD r default

def box (h : Heap) (r : BoxRef) : Value :=
  h.boxes.getD r .empty

def setBox (h : Heap) (r : BoxRef) (v : Value) : Heap :=
  { h with boxes := h.boxes.setIfInBounds r v }

/-! ## Fields of objects -/

def field? (h : Heap) (r : ObjectRef) (name : String) : Option BoxRef :=
  (h.object r).fields.get? name

def method? (h : Heap) (r : ObjectRef) (name : String) : Option Procedure :=
  (h.object r).cls.method? name

/-- Stores into a field: into its box if it has one, and into a fresh box otherwise. -/
def setField (h : Heap) (r : ObjectRef) (name : String) (v : Value) : Heap :=
  match h.field? r name with
  | some b => h.setBox b v
  | none =>
      let (h, b) := h.newBox v
      { h with objects := h.objects.modify r fun o => { o with fields := o.fields.set name b } }

/-- The fields of `inherited` that `own` does not have, put behind those of `own`. -/
def inheritFields (own : Bindings BoxRef) : Bindings BoxRef → Bindings BoxRef
  | [] => own
  | (n, b) :: rest => inheritFields (if own.contains n then own else own.set n b) rest

/-- Attaches the object constructed for the parent class. Its fields are taken over box by box;
fields that are there already stay, and so does a parent attached earlier. -/
def adopt (h : Heap) (child parent : ObjectRef) : Heap :=
  let inherited := (h.object parent).fields
  { h with objects := h.objects.modify child fun o =>
      { o with fields := inheritFields o.fields inherited
               parent := o.parent <|> some parent } }

def memberNames (h : Heap) (r : ObjectRef) : List String :=
  let o := h.object r
  Text.sorted (Text.distinct (o.fields.names ++ o.cls.methodNames))

def newError (h : Heap) (c : Class) (message : String) : Heap × ObjectRef :=
  let (h, r) := h.newObject c
  (h.setField r "message" (.text message), r)

/-! ## Locks -/

def isHeld (h : Heap) (l : LockRef) : Bool :=
  h.locks.getD l false

/-- The heap with room for locks up to the number `n`, the new ones free. -/
def reserveLocks (h : Heap) (n : Nat) : Heap :=
  { h with locks := h.locks ++ Array.replicate (n - h.locks.size) false }

/-- Takes a lock. One that there was no room for yet gets its place. -/
def hold (h : Heap) (l : LockRef) : Heap :=
  { h with locks := (h.reserveLocks (l + 1)).locks.setIfInBounds l true }

def acquire? (h : Heap) (l : LockRef) : Option Heap :=
  if h.isHeld l then none else some (h.hold l)

def release (h : Heap) (l : LockRef) : Heap :=
  { h with locks := h.locks.setIfInBounds l false }

@[simp] theorem isHeld_reserveLocks (h : Heap) (n : Nat) (l : LockRef) :
    (h.reserveLocks n).isHeld l = h.isHeld l := by
  simp only [reserveLocks, isHeld, Array.getD_eq_getD_getElem?]
  by_cases hl : l < h.locks.size
  · rw [Array.getElem?_append_left hl]
  · rw [Array.getElem?_append_right (Nat.le_of_not_lt hl)]
    simp [Array.getElem?_replicate, hl]
    split <;> rfl

@[simp] theorem isHeld_hold (h : Heap) (l l' : LockRef) :
    (h.hold l).isHeld l' = (decide (l' = l) || h.isHeld l') := by
  rw [← isHeld_reserveLocks h (l + 1) l']
  have hl : l < (h.reserveLocks (l + 1)).locks.size := by
    simp only [reserveLocks, Array.size_append, Array.size_replicate]
    exact Nat.lt_of_lt_of_le (Nat.lt_succ_self l) (Nat.sub_le_iff_le_add'.mp (Nat.le_refl _))
  simp only [hold, isHeld, Array.getD_eq_getD_getElem?, Array.getElem?_setIfInBounds]
  by_cases e : l = l'
  · simp [e, e ▸ hl]
  · simp [e, Ne.symm e]

@[simp] theorem isHeld_release (h : Heap) (l l' : LockRef) :
    (h.release l).isHeld l' = (!decide (l' = l) && h.isHeld l') := by
  simp only [release, isHeld, Array.getD_eq_getD_getElem?, Array.getElem?_setIfInBounds]
  by_cases e : l = l'
  · subst e
    by_cases hl : l < h.locks.size <;> simp [hl]
  · simp [e, Ne.symm e]

end Heap

end Statute
