import Statute.Extension
import Statute.Postfix.Compile
import Statute.Source.Basic
import Statute.Text.Suggest
import Statute.Value.Data

/-!
# The registry of a program

The registry is the table of the names that a whole program knows: the built-in error classes, the
extensions, and the records, procedures and classes that the program declares. It is built once. A
name can be given out only once, and a class is entered after its parent, in whatever order the two
were declared.

Building also gives every expression its file and every exclusive block a lock of its own.
-/

namespace Statute

/-- What a name of the registry stands for. -/
inductive Entry where
  | procedure (p : Procedure)
  | classDef (c : Class)
  | record (r : RecordRef)
  | extension (e : Extension)
deriving Inhabited

namespace Entry

/-- An entry as a value. -/
def value : Entry → Value
  | procedure p => .procedure p
  | classDef c => .classDef c
  | record r => .record r
  | extension e => .extension e

def class? : Entry → Option Class
  | classDef c => some c
  | _ => none

/-- The expressions written in an entry: those of a procedure, and those of the methods and the
constructor that a class declares itself. -/
def expressions : Entry → List Expression
  | procedure p => p.expressions
  | classDef c =>
      c.own.methods.flatMap (fun m => m.2.expressions) ++
        (c.own.ctor.map Procedure.expressions).getD []
  | _ => []

end Entry

/-- The names of a program, its main body and its file. -/
structure Registry where
  entries : Bindings Entry
  main : Body
  file : String
deriving Inhabited

namespace Registry

def lookup? (r : Registry) (name : String) : Option Value :=
  (r.entries.get? name).map Entry.value

def class? (r : Registry) (name : String) : Option Class :=
  (r.entries.get? name).bind Entry.class?

/-- The class that an error is an object of when nothing was thrown for it: the one that the error
names, or else the one that stands for its kind. -/
def errorClass? (r : Registry) (f : Failure) : Option Class :=
  r.class? f.className <|> r.class? f.kind.className

theorem class?_eq_some_iff {r : Registry} {name : String} {c : Class} :
    r.class? name = some c ↔ r.lookup? name = some (.classDef c) := by
  unfold class? lookup?
  cases r.entries.get? name with
  | none => simp
  | some e => cases e <;> simp [Entry.class?, Entry.value]

theorem exists_of_errorClass? {r : Registry} {f : Failure} {c : Class}
    (h : r.errorClass? f = some c) : ∃ name, r.lookup? name = some (.classDef c) := by
  unfold errorClass? at h
  rw [Option.orElse_eq_orElse, Option.orElse_eq_or, Option.or_eq_some_iff] at h
  rcases h with hname | ⟨-, hkind⟩
  · exact ⟨_, class?_eq_some_iff.mp hname⟩
  · exact ⟨_, class?_eq_some_iff.mp hkind⟩

def names (r : Registry) : List String :=
  Text.sorted r.entries.names

def expressions (r : Registry) : List Expression :=
  Body.expressions r.main ++ r.entries.flatMap fun e => e.2.expressions

/-- The failure of an expression that does not compile. -/
def complaint? (e : Expression) : Option Failure :=
  match e.compile with
  | .ok _ => none
  | .error f => some f

def check (r : Registry) : List Failure :=
  r.expressions.filterMap complaint?

/-! ## Building -/

/-- A registry under construction: the names given out so far, and the number of locks. -/
structure Draft where
  entries : Bindings Entry
  locks : Nat
deriving Inhabited

def duplicate (name : String) : Failure :=
  .new .duplicateName ("name '" ++ name ++ "' is already defined")

namespace Draft

def insert (d : Draft) (name : String) (e : Entry) : Except Failure Draft :=
  if d.entries.contains name then .error (duplicate name)
  else .ok { d with entries := d.entries ++ [(name, e)] }

def class? (d : Draft) (name : String) : Option Class :=
  (d.entries.get? name).bind Entry.class?

def classNames (d : Draft) : List String :=
  Bindings.names (d.entries.filter fun e => e.2.class?.isSome)

def place (d : Draft) (file : String) (body : Body) : Draft × Body :=
  let (body, locks) := Body.label d.locks (Body.mapExpressions (Expression.inFile file) body)
  ({ d with locks := locks }, body)

/-- A declared procedure in a file, under its full name. -/
def procedure (d : Draft) (file name : String) (decl : ProcedureDecl) : Draft × Procedure :=
  let params := decl.params.map fun p => Param.mk p.name (p.default.map (Expression.inFile file))
  let (d, body) := d.place file decl.body
  (d, ⟨name, params, body⟩)

/-- The methods of a class by their short names; the last declaration of a name counts. -/
def methods (d : Draft) (file cls : String) :
    List ProcedureDecl → Bindings Procedure → Draft × Bindings Procedure
  | [], done => (d, done)
  | decl :: rest, done =>
      let (d, p) := d.procedure file (cls ++ "." ++ decl.name) decl
      d.methods file cls rest (done.set decl.name p)

/-- What a class declares by itself. -/
def level (d : Draft) (file : String) (decl : ClassDecl) : Draft × Level :=
  let (d, methods) := d.methods file decl.name decl.methods []
  match decl.ctor with
  | none => (d, ⟨decl.name, methods, none, none⟩)
  | some ctor =>
      let (d, p) := d.procedure file (decl.name ++ ".constructor") ctor
      (d, ⟨decl.name, methods, some p, none⟩)

/-- Gives out the names of extensions. -/
def addExtensions (d : Draft) : List Extension → Except Failure Draft
  | [] => .ok d
  | e :: rest => do
      let d ← d.insert e.name (.extension e)
      d.addExtensions rest

/-- Gives out the names of procedures. -/
def addProcedures (d : Draft) (file : String) : List ProcedureDecl → Except Failure Draft
  | [] => .ok d
  | decl :: rest => do
      let (d, p) := d.procedure file decl.name decl
      let d ← d.insert decl.name (.procedure p)
      d.addProcedures file rest

/-- Gives out the names of records and puts them on the heap. -/
def addRecords (d : Draft) (h : Heap) : List RecordDecl → Except Failure (Draft × Heap)
  | [] => .ok (d, h)
  | decl :: rest => do
      let (h, fields) := h.ofMembers decl.fields
      let (h, r) := h.newRecord ⟨decl.name, decl.kind, fields⟩
      let d ← d.insert decl.name (.record r)
      d.addRecords h rest

/-- Refuses class names that are taken, by another entry or by another class. -/
def checkClassNames (d : Draft) : List String → List ClassDecl → Except Failure Unit
  | _, [] => .ok ()
  | seen, decl :: rest =>
      if d.entries.contains decl.name || seen.contains decl.name then
        .error (duplicate decl.name)
      else d.checkClassNames (decl.name :: seen) rest

/-- The failure of a class whose parent is no class. -/
def unknownParentBy (distance : String → String → Nat) (d : Draft) (waiting : List ClassDecl)
    (name parent : String) : Failure :=
  let known := waiting.map (·.name) ++ d.classNames
  let f := Failure.nameNotDefined parent (Text.closestBy distance parent known)
  { f with message := "parent class of '" ++ name ++ "': " ++ f.message }

def unknownParent (d : Draft) (waiting : List ClassDecl) (name parent : String) : Failure :=
  d.unknownParentBy Text.distance waiting name parent

def cycle (name : String) : Failure :=
  .new .syntaxError ("inheritance cycle through class '" ++ name ++ "'")

/-- Enters a class, and before it those of its ancestors that are still waiting. `below` are the
classes that wait for this one as their ancestor. One unit of fuel is spent for each class, so the
number of waiting classes is enough. -/
def addClass (file : String) :
    Nat → Draft → List ClassDecl → List String → String →
      Except Failure (Draft × List ClassDecl × Class)
  | 0, d, waiting, _, name => .error (d.unknownParent waiting name name)
  | fuel + 1, d, waiting, below, name =>
      match d.class? name, waiting.find? (fun c => c.name = name) with
      | some c, _ => .ok (d, waiting, c)
      | none, none => .error (.new .nameNotDefined ("class '" ++ name ++ "' is not defined"))
      | none, some decl =>
          let waiting := waiting.filter fun c => c.name ≠ name
          let below := name :: below
          let finish (d : Draft) (waiting : List ClassDecl) (ancestors : List Level) :=
            let (d, own) := d.level file decl
            let c : Class := ⟨own, ancestors⟩
            ({ d with entries := d.entries ++ [(name, .classDef c)] }, waiting, c)
          match decl.parent with
          | none => .ok (finish d waiting [])
          | some parent =>
              if below.contains parent then .error (cycle parent)
              else if (waiting.any fun c => c.name = parent) || (d.class? parent).isSome then
                match addClass file fuel d waiting below parent with
                | .ok (d, waiting, p) => .ok (finish d waiting p.levels)
                | .error f => .error f
              else .error (d.unknownParent waiting name parent)

/-- Enters the classes of the given names. -/
def addClasses (d : Draft) (file : String) (waiting : List ClassDecl) :
    List String → Except Failure Draft
  | [] => .ok d
  | name :: rest => do
      let (d, waiting, _) ← addClass file (waiting.length + 1) d waiting [] name
      d.addClasses file waiting rest

end Draft

def builtinEntries : Bindings Entry :=
  ErrorKind.all.map fun k => (k.className, .classDef (Class.builtin k))

/-- Builds the registry of a program. Names are given out in a fixed order (extensions, records,
procedures, classes in the order of their names), so the first name that clashes is reported. -/
def build (h : Heap) (file : String) (extensions : List Extension) (source : Source) :
    Except Failure (Heap × Registry) := do
  let d : Draft := ⟨builtinEntries, h.locks.size⟩
  let d ← d.addExtensions (Primitive.all.map Primitive.toExtension ++ extensions)
  let (d, h) ← d.addRecords h source.records
  let d ← d.addProcedures file source.procedures
  d.checkClassNames [] source.classes
  let names := Text.sorted (source.classes.map (·.name))
  let d ← d.addClasses file source.classes names
  let (d, main) := d.place file source.main
  return (h.reserveLocks d.locks, ⟨d.entries, main, file⟩)

end Registry

end Statute
