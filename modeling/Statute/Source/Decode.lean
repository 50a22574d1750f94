import Statute.Source.Basic

/-!
# Reading program sources

A source is read from a document. Keys that mean nothing are skipped and optional ones may be left
out, but a key that means something may stand only once. Every declaration, branch, handler and
statement can also be given as an array of its parts in order; a statement then begins with its tag.

An expression has three spellings: its text, its tokens, or an object with either of them and a
line. A parameter is a name, or an object with a name and a default.

The bodies inside a statement are read with one unit of fuel less; the depth of the document is
always enough.
-/

namespace Statute

/-- Why a document is no expression. -/
inductive ExpressionFault where
  /-- The document has none of the three spellings. -/
  | noSpelling
  /-- There is an object, but neither text nor tokens in it. -/
  | noContent (line : Nat)
deriving DecidableEq, Repr

namespace ExpressionFault

/-- The wording of a fault; the line is named unless it is unknown. -/
def message : ExpressionFault → String
  | noSpelling => "data did not match any variant of untagged enum ExpressionRepr"
  | noContent line =>
      "expression needs either 'text' or 'tokens'" ++
        (if line = 0 then "" else " (line " ++ toString line ++ ", column 0)")

end ExpressionFault

namespace Decode

/-- The parts of a declaration by key: `some none` is a key that is left out, and a key given twice
is refused. -/
def member? (members : List (String × Json)) (key : String) : Option (Option Json) :=
  if Json.occurrences key members ≤ 1 then some (Json.lookup key members) else none

/-- The parts of a declaration, in the order of `keys`: from the members of an object, or from the
items of an array that is not too long. -/
def parts? (keys : List String) : Json → Option (List (Option Json))
  | .obj members => keys.mapM (member? members)
  | .arr items =>
      if items.length ≤ keys.length then
        some (items.map some ++ List.replicate (keys.length - items.length) none)
      else none
  | _ => none

def required {α : Type} (read : Json → Option α) : Option Json → Option α
  | some j => read j
  | none => none

def withDefault {α : Type} (a : α) (read : Json → Option α) : Option Json → Option α
  | some j => read j
  | none => some a

/-- A part that may be left out or null. -/
def optional {α : Type} (read : Json → Option α) : Option Json → Option (Option α)
  | none => some none
  | some .null => some none
  | some j => (read j).map some

/-- An array of things that are all read alike. -/
def listOf {α : Type} (read : Json → Option α) : Json → Option (List α)
  | .arr items => items.mapM read
  | _ => none

end Decode

open Decode

namespace Expression

/-- The expression given by an object with text or tokens and a line. -/
def ofLocated (members : List (String × Json)) : Except ExpressionFault Expression :=
  let parts := do
    let text ← (← member? members "text") |> optional Json.str?
    let tokens ← (← member? members "tokens") |> optional (listOf Json.str?)
    let line ← (← member? members "line") |> withDefault 0 Json.nat?
    return (text, tokens, line)
  match parts with
  | none => .error .noSpelling
  | some (some text, some tokens, line) => .ok ⟨tokens, ⟨"", line, text⟩⟩
  | some (none, some tokens, line) => .ok ((ofTokens tokens).atLine line)
  | some (some text, none, line) => .ok ((ofText text).atLine line)
  | some (none, none, line) => .error (.noContent line)

/-- The expression that a document spells. -/
def decode (j : Json) : Except ExpressionFault Expression :=
  match j with
  | .str text => .ok (ofText text)
  | .arr items =>
      match items.mapM Json.str? with
      | some tokens => .ok (ofTokens tokens)
      | none => .error .noSpelling
  | .obj members => ofLocated members
  | _ => .error .noSpelling

/-- The expression that a document spells, if it spells one. -/
def ofJson? (j : Json) : Option Expression :=
  (decode j).toOption

end Expression

namespace Target

/-- The assignment target that a document spells. -/
def ofJson? (j : Json) : Option Target :=
  j.str?.bind read?

end Target

namespace Branch

/-- The branch that a document spells, given how its body is read. -/
def ofJson? (body : Json → Option Body) (j : Json) : Option Branch := do
  match ← parts? ["test", "body"] j with
  | [test, block] => return .mk (← required Expression.ofJson? test) (← required body block)
  | _ => none

end Branch

namespace Handler

/-- The handler that a document spells, given how its body is read. -/
def ofJson? (body : Json → Option Body) (j : Json) : Option Handler := do
  match ← parts? ["class", "binding", "body"] j with
  | [cls, name, block] =>
      return .mk (← required Json.str? cls) (← optional Json.str? name) (← required body block)
  | _ => none

end Handler

namespace Statement

/-- The tags of the statements, in the order of their numbers. -/
def tags : List String :=
  ["Declare", "Assign", "If", "Repeat", "While", "Try", "Throw", "Exclusive", "Print", "Return",
    "Break", "Continue", "Expr"]

/-- The keys of a statement besides its tag, in order. -/
def keysOf (tag : String) : List String :=
  if tag = "Declare" then ["name", "value"]
  else if tag = "Assign" then ["target", "value"]
  else if tag = "If" then ["branches", "otherwise"]
  else if tag = "Repeat" then ["var", "from", "to", "body"]
  else if tag = "While" then ["test", "body"]
  else if tag = "Try" then ["body", "handlers"]
  else if tag = "Exclusive" then ["body"]
  else if tag = "Expr" then ["expr"]
  else if tag = "Break" ∨ tag = "Continue" then []
  else ["value"]

/-- The tag that a document names: by its text, and inside another statement also by its number. -/
def tag? (inner : Bool) : Json → Option String
  | .str s => if tags.contains s then some s else none
  | .int n => if inner ∧ 0 ≤ n then tags[n.toNat]? else none
  | _ => none

/-- The tag of a statement and a document with the rest of it. -/
def untag? (inner : Bool) : Json → Option (String × Json)
  | .obj members => do
      let tag ← (← member? members "t") |> required (tag? inner)
      return (tag, .obj (members.filter fun m => m.1 ≠ "t"))
  | .arr (first :: rest) => do
      let tag ← tag? inner first
      return (tag, .arr rest)
  | _ => none

/-- The statement with the given tag and parts, given how bodies inside it are read. -/
def ofParts? (body : Json → Option Body) (tag : String) (parts : List (Option Json)) :
    Option Statement :=
  match parts with
  | [] => if tag = "Break" then some .breakOut else some .continueOn
  | [a] =>
      if tag = "Exclusive" then (required body a).map (.exclusive 0)
      else if tag = "Return" then (optional Expression.ofJson? a).map .returnWith
      else (required Expression.ofJson? a).map
        (if tag = "Throw" then .raise else if tag = "Print" then .print else .perform)
  | [a, b] =>
      if tag = "Declare" then
        return .declare (← required Json.str? a) (← required Expression.ofJson? b)
      else if tag = "Assign" then
        return .assign (← required Target.ofJson? a) (← required Expression.ofJson? b)
      else if tag = "If" then
        return .choose (← required (listOf (Branch.ofJson? body)) a) (← optional body b)
      else if tag = "While" then
        return .repeatWhile (← required Expression.ofJson? a) (← required body b)
      else return .attempt (← required body a) (← required (listOf (Handler.ofJson? body)) b)
  | [a, b, c, d] =>
      return .repeatFor (← optional Json.str? a) (← required Expression.ofJson? b)
        (← required Expression.ofJson? c) (← required body d)
  | _ => none

/-- The statement that a document spells. `inner` says that it stands inside another statement. -/
def decode? (inner : Bool) : Nat → Json → Option Statement
  | 0, _ => none
  | fuel + 1, j => do
      let (tag, rest) ← untag? inner j
      let parts ← parts? (keysOf tag) rest
      ofParts? (listOf (decode? true fuel)) tag parts

end Statement

namespace Body

def ofJson? (j : Json) : Option Body :=
  listOf (Statement.decode? false j.depth) j

end Body

namespace ParamDecl

/-- The parameter that a document spells: a name, or an object with a name and a default. -/
def ofJson? : Json → Option ParamDecl
  | .str name => some ⟨name, none⟩
  | .obj members => do
      let name ← (← member? members "name") |> required Json.str?
      let default ← (← member? members "default") |> required Expression.ofJson?
      return ⟨name, some default⟩
  | _ => none

end ParamDecl

namespace ProcedureDecl

/-- The procedure that a document spells. -/
def ofJson? (j : Json) : Option ProcedureDecl := do
  match ← parts? ["name", "params", "body"] j with
  | [name, params, body] =>
      return ⟨← required Json.str? name, ← withDefault [] (listOf ParamDecl.ofJson?) params,
        ← withDefault [] Body.ofJson? body⟩
  | _ => none

end ProcedureDecl

namespace ClassDecl

/-- The class that a document spells. -/
def ofJson? (j : Json) : Option ClassDecl := do
  match ← parts? ["name", "parent", "methods", "constructor"] j with
  | [name, parent, methods, ctor] =>
      return ⟨← required Json.str? name, ← optional Json.str? parent,
        ← withDefault [] (listOf ProcedureDecl.ofJson?) methods,
        ← optional ProcedureDecl.ofJson? ctor⟩
  | _ => none

end ClassDecl

namespace RecordDecl

def defaultKind : String := "record"

/-- The record that a document spells. Its fields are read as a map. -/
def ofJson? (j : Json) : Option RecordDecl := do
  match ← parts? ["name", "kind", "fields"] j with
  | [name, kind, fields] =>
      return ⟨← required Json.str? name, ← withDefault defaultKind Json.str? kind,
        ← withDefault [] (fun f => f.asMap.obj?) fields⟩
  | _ => none

end RecordDecl

namespace Source

/-- The program source that a document spells. -/
def ofJson? (j : Json) : Option Source := do
  match ← parts? ["procedures", "classes", "records", "main"] j with
  | [procedures, classes, records, main] =>
      return ⟨← withDefault [] (listOf ProcedureDecl.ofJson?) procedures,
        ← withDefault [] (listOf ClassDecl.ofJson?) classes,
        ← withDefault [] (listOf RecordDecl.ofJson?) records,
        ← withDefault [] Body.ofJson? main⟩
  | _ => none

end Source

end Statute
