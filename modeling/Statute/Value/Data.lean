import Statute.Decimal.Binary
import Statute.Expression.Literal
import Statute.Heap
import Statute.Json.Basic

/-!
# Plain data as values

A document becomes a value: arrays become lists, and objects become records without a name, each of
them a record of its own. An integer that does not fit 64 bits becomes a number.
-/

namespace Statute

namespace Heap

/-- The kind of the records that objects of a document become. -/
def objectKind : String := "object"

/-- A whole number as a value. -/
def ofWhole (n : Int) : Value :=
  match int64? n with
  | some i => .int i
  | none =>
      let x := Binary.nearest n.natAbs 1
      .number (if n < 0 then -x else x)

mutual

/-- The value that a document stands for; its objects are put on the heap. -/
def ofData (h : Heap) : Json → Heap × Value
  | .null => (h, .empty)
  | .bool b => (h, .bool b)
  | .int n => (h, ofWhole n)
  | .number x => (h, .number x)
  | .str s => (h, .text s)
  | .arr items =>
      let (h, vs) := h.ofItems items
      (h, .list vs)
  | .obj members =>
      let (h, fields) := h.ofMembers members
      let (h, r) := h.newRecord ⟨"", objectKind, fields⟩
      (h, .record r)

/-- The values of the items of an array. -/
def ofItems (h : Heap) : List Json → Heap × List Value
  | [] => (h, [])
  | j :: rest =>
      let (h, v) := h.ofData j
      let (h, vs) := h.ofItems rest
      (h, v :: vs)

/-- The fields that the members of an object become; of repeated keys the last one stays. -/
def ofMembers (h : Heap) : List (String × Json) → Heap × Bindings Value
  | [] => (h, [])
  | (k, j) :: rest =>
      let (h, v) := h.ofData j
      let (h, fields) := h.ofMembers rest
      (h, if fields.contains k then fields else (k, v) :: fields)

end

end Heap

end Statute
