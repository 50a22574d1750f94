import Statute.Json.Basic
import Statute.Statement.Basic

/-!
# Program sources

A program source is what a program declares: procedures, classes, records and the statements of its
main body. Nothing has been looked up or checked yet.
-/

namespace Statute

/-- A declared parameter. -/
structure ParamDecl where
  name : String
  default : Option Expression
deriving DecidableEq, Repr, Inhabited

/-- A declared procedure, method or constructor. -/
structure ProcedureDecl where
  name : String
  params : List ParamDecl
  body : Body
deriving Inhabited

/-- A declared class. -/
structure ClassDecl where
  name : String
  parent : Option String
  methods : List ProcedureDecl
  ctor : Option ProcedureDecl
deriving Inhabited

/-- A declared record; its fields are plain data. -/
structure RecordDecl where
  name : String
  kind : String
  fields : List (String × Json)
deriving Inhabited

/-- All declarations of a program. -/
structure Source where
  procedures : List ProcedureDecl
  classes : List ClassDecl
  records : List RecordDecl
  main : Body
deriving Inhabited

def Source.empty : Source := ⟨[], [], [], []⟩

end Statute
