import Statute.Json.Reader
import Statute.Source.Decode

/-!
# Texts of program sources

A program is written as the text of a document. The members of a declaration that mean nothing are
dropped before the document is settled: they have to be well-formed, and that is all. Inside
statements, parameters and the fields of records every part is read, whether it means something or
not.
-/

namespace Statute

open Json

def ProcedureDecl.parts : List (String × (Outline → Outline)) :=
  [("name", id), ("params", id), ("body", id)]

def ClassDecl.parts : List (String × (Outline → Outline)) :=
  [("name", id), ("parent", id), ("methods", .each (.only ProcedureDecl.parts)),
    ("constructor", .only ProcedureDecl.parts)]

def RecordDecl.parts : List (String × (Outline → Outline)) :=
  [("name", id), ("kind", id), ("fields", id)]

/-- The parts of a program that mean something. -/
def Source.parts : List (String × (Outline → Outline)) :=
  [("procedures", .each (.only ProcedureDecl.parts)), ("classes", .each (.only ClassDecl.parts)),
    ("records", .each (.only RecordDecl.parts)), ("main", id)]

/-- The program source that a text writes. -/
def Source.read? (text : String) : Option Source := do
  let o ← outline? text
  let j ← (o.only parts).settle?
  Source.ofJson? j

end Statute
