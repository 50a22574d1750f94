import Statute.Proofs.Expression.Compilation
import Statute.Proofs.Value.Repertoire
import Statute.Registry

/-!
# What loading puts on the heap

The records of a program are all that is put on the heap when it is loaded, and they hold plain
data. So something goes on to hold of the heap if new records with such data in them, and the room
for the locks of exclusive blocks, do not change it.
-/

namespace Statute

/-- `H` goes on to hold of a heap when data of which `V` holds is put there as a record, and when
there is room for more locks. -/
structure Heap.Stores (H : Heap → Prop) (V : Value → Prop) : Prop where
  scalar : ∀ v : Value, v.IsScalar → V v
  list : ∀ vs, (∀ v ∈ vs, V v) → V (.list vs)
  record : ∀ r, V (.record r)
  newRecord : ∀ (h : Heap) (r : Record), H h → (∀ p ∈ r.fields, V p.2) → H (h.newRecord r).1
  locks : ∀ (h : Heap) (n : Nat), H h → H (h.reserveLocks n)

namespace Heap.Stores

variable {H : Heap → Prop} {V : Value → Prop}

mutual

theorem ofData (hstores : Stores H V) {h : Heap} (hheap : H h) (j : Json) :
    H (h.ofData j).1 ∧ V (h.ofData j).2 := by
  cases j with
  | int n =>
      refine ⟨hheap, hstores.scalar _ ?_⟩
      simp only [Heap.ofData, ofWhole]
      split <;> trivial
  | arr items =>
      rw [Heap.ofData]
      obtain ⟨hheap', hitems⟩ := ofItems hstores hheap items
      exact ⟨hheap', hstores.list _ hitems⟩
  | obj members =>
      rw [Heap.ofData]
      obtain ⟨hheap', hfields⟩ := ofMembers hstores hheap members
      exact ⟨hstores.newRecord _ _ hheap' hfields, hstores.record _⟩
  | _ => exact ⟨hheap, hstores.scalar _ trivial⟩

theorem ofItems (hstores : Stores H V) {h : Heap} (hheap : H h) (js : List Json) :
    H (h.ofItems js).1 ∧ ∀ v ∈ (h.ofItems js).2, V v := by
  cases js with
  | nil => exact ⟨hheap, List.forall_mem_nil _⟩
  | cons j js =>
      obtain ⟨hheap₁, hv⟩ := ofData hstores hheap j
      obtain ⟨hheap₂, hvs⟩ := ofItems hstores hheap₁ js
      exact ⟨hheap₂, List.forall_mem_cons.mpr ⟨hv, hvs⟩⟩

theorem ofMembers (hstores : Stores H V) {h : Heap} (hheap : H h)
    (members : List (String × Json)) :
    H (h.ofMembers members).1 ∧ ∀ p ∈ (h.ofMembers members).2, V p.2 := by
  cases members with
  | nil => exact ⟨hheap, List.forall_mem_nil _⟩
  | cons member rest =>
      obtain ⟨key, j⟩ := member
      obtain ⟨hheap₁, hv⟩ := ofData hstores hheap j
      obtain ⟨hheap₂, hfields⟩ := ofMembers hstores hheap₁ rest
      refine ⟨hheap₂, ?_⟩
      simp only [Heap.ofMembers]
      split
      · exact hfields
      · exact List.forall_mem_cons.mpr ⟨hv, hfields⟩

end

theorem addRecords (hstores : Stores H V) {d d' : Registry.Draft} {h h' : Heap}
    {decls : List RecordDecl} (hheap : H h) (hadd : d.addRecords h decls = .ok (d', h')) :
    H h' := by
  induction decls generalizing d h with
  | nil =>
      obtain ⟨-, rfl⟩ := Prod.mk.inj (Except.ok.inj hadd)
      exact hheap
  | cons decl decls ih =>
      obtain ⟨hheap₁, hfields⟩ := hstores.ofMembers hheap decl.fields
      obtain ⟨d₁, -, hrest⟩ := exists_of_bind_eq_ok hadd
      exact ih (hstores.newRecord _ _ hheap₁ hfields) hrest

theorem build (hstores : Stores H V) {h h' : Heap} {file : String} {extensions : List Extension}
    {source : Source} {r : Registry} (hheap : H h)
    (hbuild : Registry.build h file extensions source = .ok (h', r)) : H h' := by
  obtain ⟨d₁, -, hbuild⟩ := exists_of_bind_eq_ok hbuild
  obtain ⟨⟨d₂, h₂⟩, hrecords, hbuild⟩ := exists_of_bind_eq_ok hbuild
  obtain ⟨d₃, -, hbuild⟩ := exists_of_bind_eq_ok hbuild
  obtain ⟨-, -, hbuild⟩ := exists_of_bind_eq_ok hbuild
  obtain ⟨d₄, -, hbuild⟩ := exists_of_bind_eq_ok hbuild
  obtain ⟨rfl, -⟩ := Prod.mk.inj (Except.ok.inj hbuild)
  exact hstores.locks _ _ (hstores.addRecords hheap hrecords)

end Heap.Stores

end Statute
