import Statute.Source.Basic

/-!
# Writing program sources

A source is written as a document in one fixed spelling: objects throughout, expressions with text,
tokens and line, and optional parts only where they are present.
-/

namespace Statute

/-- A member that is written only if it is present. -/
def Json.optionalMember (key : String) : Option Json → List (String × Json)
  | some j => [(key, j)]
  | none => []

namespace Expression

def toJson (e : Expression) : Json :=
  .obj [("text", .str e.location.text), ("tokens", .arr (e.tokens.map .str)),
    ("line", .int e.location.line)]

end Expression

namespace Statement

def tagged (tag : String) (members : List (String × Json)) : Json :=
  .obj (("t", .str tag) :: members)

end Statement

mutual

/-- The document of a statement. -/
def Statement.toJson : Statement → Json
  | .declare name value => Statement.tagged "Declare" [("name", .str name), ("value", value.toJson)]
  | .assign target value =>
      Statement.tagged "Assign" [("target", .str target.display), ("value", value.toJson)]
  | .choose branches none => Statement.tagged "If" [("branches", .arr (Branch.listToJson branches))]
  | .choose branches (some body) =>
      Statement.tagged "If"
        [("branches", .arr (Branch.listToJson branches)), ("otherwise", .arr (Body.toJsons body))]
  | .repeatFor var lower upper body =>
      Statement.tagged "Repeat" (Json.optionalMember "var" (var.map .str) ++
        [("from", lower.toJson), ("to", upper.toJson), ("body", .arr (Body.toJsons body))])
  | .repeatWhile test body =>
      Statement.tagged "While" [("test", test.toJson), ("body", .arr (Body.toJsons body))]
  | .attempt body handlers =>
      Statement.tagged "Try"
        [("body", .arr (Body.toJsons body)), ("handlers", .arr (Handler.listToJson handlers))]
  | .raise value => Statement.tagged "Throw" [("value", value.toJson)]
  | .exclusive _ body => Statement.tagged "Exclusive" [("body", .arr (Body.toJsons body))]
  | .print value => Statement.tagged "Print" [("value", value.toJson)]
  | .returnWith none => Statement.tagged "Return" []
  | .returnWith (some value) => Statement.tagged "Return" [("value", value.toJson)]
  | .breakOut => Statement.tagged "Break" []
  | .continueOn => Statement.tagged "Continue" []
  | .perform value => Statement.tagged "Expr" [("expr", value.toJson)]

def Body.toJsons : List Statement → List Json
  | [] => []
  | s :: rest => s.toJson :: Body.toJsons rest

/-- The documents of a list of branches. -/
def Branch.listToJson : List Branch → List Json
  | [] => []
  | .mk test body :: rest =>
      .obj [("test", test.toJson), ("body", .arr (Body.toJsons body))] :: Branch.listToJson rest

/-- The documents of a list of handlers. -/
def Handler.listToJson : List Handler → List Json
  | [] => []
  | .mk cls name body :: rest =>
      .obj (("class", .str cls) :: (Json.optionalMember "binding" (name.map .str) ++
        [("body", .arr (Body.toJsons body))])) :: Handler.listToJson rest

end

namespace Body

def toJson (b : Body) : Json :=
  .arr (toJsons b)

end Body

namespace ParamDecl

/-- The document of a parameter. -/
def toJson (p : ParamDecl) : Json :=
  match p.default with
  | none => .str p.name
  | some default => .obj [("name", .str p.name), ("default", default.toJson)]

end ParamDecl

namespace ProcedureDecl

def toJson (p : ProcedureDecl) : Json :=
  .obj [("name", .str p.name), ("params", .arr (p.params.map ParamDecl.toJson)),
    ("body", Body.toJson p.body)]

end ProcedureDecl

namespace ClassDecl

/-- The document of a class. -/
def toJson (c : ClassDecl) : Json :=
  .obj (("name", .str c.name) :: (Json.optionalMember "parent" (c.parent.map .str) ++
    ("methods", .arr (c.methods.map ProcedureDecl.toJson)) ::
    Json.optionalMember "constructor" (c.ctor.map ProcedureDecl.toJson)))

end ClassDecl

namespace RecordDecl

def toJson (r : RecordDecl) : Json :=
  .obj [("name", .str r.name), ("kind", .str r.kind), ("fields", .obj r.fields)]

end RecordDecl

namespace Source

/-- The document of a program source. -/
def toJson (s : Source) : Json :=
  .obj [("procedures", .arr (s.procedures.map ProcedureDecl.toJson)),
    ("classes", .arr (s.classes.map ClassDecl.toJson)),
    ("records", .arr (s.records.map RecordDecl.toJson)),
    ("main", Body.toJson s.main)]

end Source

end Statute
