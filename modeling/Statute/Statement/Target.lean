import Statute.Text.Trim

/-!
# Assignment targets

A target is a name, or a name and one field of it. In writing the two are separated by a point,
and blanks around them do not count.
-/

namespace Statute

/-- What an assignment stores into. -/
structure Target where
  name : String
  field : Option String
deriving DecidableEq, Repr, Inhabited

namespace Target

/-- The target that a text writes: one or two parts, none of them empty. -/
def read? (raw : String) : Option Target :=
  match (Text.pieces '.' raw.toList).map fun p => String.ofList (Text.trimChars p) with
  | [name] => if name.isEmpty then none else some ⟨name, none⟩
  | [name, field] => if name.isEmpty || field.isEmpty then none else some ⟨name, some field⟩
  | _ => none

/-- The written form of a target. -/
def display (t : Target) : String :=
  match t.field with
  | some field => t.name ++ "." ++ field
  | none => t.name

def refusal (raw : String) : String :=
  "assignment target '" ++ raw ++ "' must be a name or name.field"

end Target

end Statute
