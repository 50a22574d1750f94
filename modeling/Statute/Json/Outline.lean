import Statute.Json.Basic

/-!
# Outlines of documents

An outline is what the grammar alone says about a document text: which containers and scalars there
are. A key or a scalar that stands for nothing has no value in it, and containers may be nested as
deep as they like. `settle?` turns an outline into a document, for which every key and scalar has to
have a value and the nesting has to stay within a limit.

The two are kept apart because parts of a document that nobody reads are only held to the grammar.
`only` drops such parts.
-/

namespace Statute.Json

/-- The outline of a document. -/
inductive Outline where
  | scalar (value : Option Json)
  | arr (items : List Outline)
  | obj (members : List (Option String × Outline))
deriving Inhabited

/-- Containers of a document may be nested this deep. -/
def nestingLimit : Nat := 127

namespace Outline

mutual

/-- The document of an outline in which at most `room` containers are nested. -/
def settleIn? (room : Nat) : Outline → Option Json
  | .scalar value => value
  | .arr items => if room = 0 then none else (settleItems? (room - 1) items).map Json.arr
  | .obj members => if room = 0 then none else (settleMembers? (room - 1) members).map Json.obj

/-- The items of an array. -/
def settleItems? (room : Nat) : List Outline → Option (List Json)
  | [] => some []
  | o :: rest => do
      let j ← settleIn? room o
      let js ← settleItems? room rest
      return j :: js

/-- The members of an object. -/
def settleMembers? (room : Nat) : List (Option String × Outline) → Option (List (String × Json))
  | [] => some []
  | (key, o) :: rest => do
      let k ← key
      let j ← settleIn? room o
      let ms ← settleMembers? room rest
      return (k, j) :: ms

end

def settle? (o : Outline) : Option Json :=
  settleIn? nestingLimit o

@[simp] theorem settleItems?_nil (room : Nat) : settleItems? room [] = some [] := by
  simp [settleItems?]

@[simp] theorem settleMembers?_nil (room : Nat) : settleMembers? room [] = some [] := by
  simp [settleMembers?]

def each (f : Outline → Outline) : Outline → Outline
  | .arr items => .arr (items.map f)
  | o => o

/-- Changes the parts of an array in order, one function for each of them. -/
def inOrder : List (Outline → Outline) → List Outline → List Outline
  | f :: fs, o :: rest => f o :: inOrder fs rest
  | _, rest => rest

/-- The outline of a declaration without the members that mean nothing. Its parts are listed by their
keys, with what is to be done to each of them; they can also be given as an array. A key without a
value is kept, since a key is read before it can be said to mean nothing. -/
def only (parts : List (String × (Outline → Outline))) : Outline → Outline
  | .obj members =>
      .obj (members.filterMap fun (key, o) =>
        match key with
        | none => some (none, o)
        | some k => (parts.lookup k).map fun f => (some k, f o))
  | .arr items => .arr (inOrder (parts.map (·.2)) items)
  | o => o

end Outline

end Statute.Json
