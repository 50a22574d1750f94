import Statute.Bindings
import Statute.Text.Letter
import Statute.Text.Numeral
import Statute.Text.Trim

/-!
# Environments

An environment gives texts to names. Besides the variables of the surroundings there may be a file
with further ones: lines of the form `NAME=value`, perhaps after the word `export`, and comments.
Values may be quoted, and outside single quotes a dollar sign puts in the value of another variable.
Variables of the surroundings are not changed by the file, and reading stops at the first line that
is not well-formed.
-/

namespace Statute

abbrev Environment := Bindings String

namespace Environment

/-! ## Lines -/

/-- How quotes stand while a file is cut into lines. -/
inductive Quoting where
  | plain
  | gap
  | escaped
  | double
  | doubleEscaped
  | single
  | singleEscaped
  | comment
deriving DecidableEq, Repr, Inhabited

/-- How quotes stand after one more character. -/
def Quoting.after (c : Char) : Quoting → Quoting
  | gap =>
      if c = '#' then comment else if c = '\\' then escaped else if c = '"' then double
      else if c = '\'' then single else plain
  | plain =>
      if Text.isBlank c && c ≠ '\n' && c ≠ '\r' then gap else if c = '\\' then escaped
      else if c = '"' then double else if c = '\'' then single else plain
  | escaped => plain
  | double => if c = '\\' then doubleEscaped else if c = '"' then plain else double
  | doubleEscaped => double
  | single => if c = '\\' then singleEscaped else if c = '\'' then plain else single
  | singleEscaped => single
  | comment => comment

/-- A line up to a comment, and how quotes stand at its end. The characters are gathered in reverse
order. -/
def scanLine : Quoting → List Char → List Char → List Char × Quoting
  | q, acc, [] => (acc, q)
  | q, acc, c :: cs =>
      let q := q.after c
      if q = .comment then (acc, .comment) else scanLine q (c :: acc) cs

/-- Whether a line is complete when quotes stand like this at its end. -/
def Quoting.isComplete : Quoting → Bool
  | plain | gap | comment => true
  | _ => false

/-- The lines of a file, each with its line end. -/
def rawLines (cs : List Char) : List (List Char) :=
  match (Text.pieces '\n' cs).reverse with
  | [] => []
  | last :: before =>
      before.reverse.map (· ++ ['\n']) ++ (if last.isEmpty then [] else [last])

/-- Joins lines while quotes stay open. A line that is still open at the end of the file is given
as `none`. -/
def logicalLines : Quoting → List Char → List (List Char) → List (Option (List Char))
  | _, acc, [] => if acc.isEmpty then [] else [none]
  | q, acc, line :: rest =>
      if acc.isEmpty && (line.dropWhile Text.isBlank).head? = some '#' then
        logicalLines .plain [] rest
      else
        let (acc, q) := scanLine q acc line
        if q.isComplete then some acc.reverse :: logicalLines .plain [] rest
        else logicalLines q acc rest

/-! ## Values -/

/-- How a value is being read. -/
structure Reading where
  output : List Char := []
  singleQuoted : Bool := false
  doubleQuoted : Bool := false
  escaped : Bool := false
  ended : Bool := false
  /-- The name of a variable to put in, and whether it stands in braces. -/
  naming : Option (Bool × List Char) := none
deriving Inhabited

/-- The value put in for a name: from the surroundings, else from the file so far. -/
def substitute (surroundings file : Environment) (name : List Char) : List Char :=
  let key := String.ofList name.reverse
  ((surroundings.get? key <|> file.get? key).getD "").toList

/-- Adds the value of the variable being named to the output. -/
def Reading.putIn (look : List Char → List Char) (r : Reading) (name : List Char) : Reading :=
  { r with output := (look name).reverse ++ r.output, naming := none }

/-- Reads one more character of a value. -/
def Reading.next (look : List Char → List Char) (r : Reading) (c : Char) : Option Reading :=
  let emit (c : Char) : Option Reading := some { r with output := c :: r.output }
  if r.ended then if c = ' ' || c = '\t' then some r else none
  else if r.escaped then
    let r := { r with escaped := false }
    if c = '\\' || c = '\'' || c = '"' || c = '$' || c = ' ' then
      some { r with output := c :: r.output }
    else if c = 'n' then some { r with output := '\n' :: r.output }
    else none
  else if r.singleQuoted then
    if c = '\'' then some { r with singleQuoted := false } else emit c
  else match r.naming with
    | some (braces, name) =>
        if Text.isLetter c || Text.isNumeral c then
          some { r with naming := some (braces, c :: name) }
        else if braces then
          if c = '}' then some (r.putIn look name)
          else some { r with naming := some (braces, c :: name) }
        else if c = '{' && name.isEmpty then some { r with naming := some (true, []) }
        else
          let r := r.putIn look name
          if c = '$' then some { r with naming := some (false, []) }
          else some { r with output := c :: r.output }
    | none =>
        if c = '$' then some { r with naming := some (false, []) }
        else if r.doubleQuoted then
          if c = '"' then some { r with doubleQuoted := false }
          else if c = '\\' then some { r with escaped := true }
          else emit c
        else if c = '\'' then some { r with singleQuoted := true }
        else if c = '"' then some { r with doubleQuoted := true }
        else if c = '\\' then some { r with escaped := true }
        else if c = ' ' || c = '\t' then some { r with ended := true }
        else emit c

/-- Reads a value to its end; after a blank a comment may follow. -/
def readValue (look : List Char → List Char) : Reading → List Char → Option (List Char)
  | r, [] =>
      if r.singleQuoted || r.doubleQuoted then none
      else match r.naming with
        | some (true, _) => none
        | some (false, name) => some (r.putIn look name).output.reverse
        | none => some r.output.reverse
  | r, c :: cs =>
      if r.ended && c = '#' then readValue look r []
      else match r.next look c with
        | some r => readValue look r cs
        | none => none

/-! ## Files -/

/-- A name at the beginning of a text, and what follows it. -/
def name? (cs : List Char) : Option (String × List Char) :=
  match cs with
  | c :: _ =>
      let isPart (c : Char) : Bool := c.isAlphanum || c = '_' || c = '.'
      if c.isAlpha || c = '_' then some (String.ofList (cs.takeWhile isPart), cs.dropWhile isPart)
      else none
  | [] => none

/-- The rest of a line after an equals sign. -/
def afterEquals? (cs : List Char) : Option (List Char) :=
  match cs.dropWhile Text.isBlank with
  | '=' :: rest => some (rest.dropWhile Text.isBlank)
  | _ => none

/-- The name that a line defines, and the text of its value. -/
def definition? (cs : List Char) : Option (String × List Char) := do
  let (name, rest) ← name? cs
  match afterEquals? rest with
  | some value => return (name, value)
  | none =>
      if name = "export" then
        let (name, rest) ← name? (rest.dropWhile Text.isBlank)
        return (name, ← afterEquals? rest)
      else none

/-- The variables that lines define, added to those defined so far; the first definition of a name
counts. -/
def ofLines (surroundings : Environment) : Environment → List (Option (List Char)) → Environment
  | defined, [] => defined
  | defined, none :: _ => defined
  | defined, some line :: rest =>
      let cs := line.dropWhile Text.isBlank
      if cs.isEmpty || cs.head? = some '#' then ofLines surroundings defined rest
      else
        let known : Environment := defined ++ surroundings
        match definition? (Text.trimChars cs) with
        | none => defined
        | some (name, value) =>
            let text := if value.isEmpty || value.head? = some '#' then some []
              else readValue (substitute surroundings known) {} value
            match text with
            | none => defined
            | some text =>
                let entry := (name, String.ofList text)
                ofLines surroundings
                  (if defined.contains name then defined else defined ++ [entry]) rest

/-- The environment extended by the variables of a file. -/
def extend (surroundings : Environment) (text : String) : Environment :=
  let cs := text.toList
  let cs := if cs.head? = some (Char.ofNat 0xFEFF) then cs.tail else cs
  let defined := ofLines surroundings [] (logicalLines .plain [] (rawLines cs))
  surroundings ++ defined.filter fun d => !surroundings.contains d.1

end Environment

end Statute
