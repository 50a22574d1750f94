import Statute.Decimal.Shortest
import Statute.Json.Basic

/-!
# Writing documents

A document is written without any blanks. A number that is not an integer keeps a point, so that
it is read back as a number.
-/

namespace Statute.Json

/-- One character as it appears between quotes. -/
def escapeChar (c : Char) : String :=
  if c = '"' then "\\\""
  else if c = '\\' then "\\\\"
  else if c = '\n' then "\\n"
  else if c = '\r' then "\\r"
  else if c = '\t' then "\\t"
  else if c.toNat < 32 then "\\u" ++ String.ofList (
    let ds := Nat.toDigits 16 c.toNat
    List.replicate (4 - ds.length) '0' ++ ds)
  else c.toString

def writeText (s : String) : String :=
  "\"" ++ String.join (s.toList.map escapeChar) ++ "\""

/-- A number that is not an integer; values that are not finite have no literal. -/
def writeNumber (x : Float) : String :=
  let t := numberText x
  if x.isNaN || x.isInf then "null" else if t.contains '.' then t else t ++ ".0"

mutual

/-- The text of a document. -/
def write : Json → String
  | .null => "null"
  | .bool b => if b then "true" else "false"
  | .int n => toString n
  | .number x => writeNumber x
  | .str s => writeText s
  | .arr items => "[" ++ ",".intercalate (writeItems items) ++ "]"
  | .obj members => "\x7b" ++ ",".intercalate (writeMembers members) ++ "\x7d"

/-- The texts of the items of an array. -/
def writeItems : List Json → List String
  | [] => []
  | j :: rest => write j :: writeItems rest

def writeMembers : List (String × Json) → List String
  | [] => []
  | (k, j) :: rest => (writeText k ++ ":" ++ write j) :: writeMembers rest

end

end Statute.Json
