import Statute.Decimal.Reading
import Statute.Expression.Literal
import Statute.Json.Basic

/-!
# Keys of settings

Case does not matter in the key of a setting, wherever it comes from. A key is moreover an address:
a name, and after it fields that follow a point and indices between brackets. An address that goes
on after the name speaks of something inside the setting, which makes a table of the setting as a
whole. A key that does not have this form is a name from its first to its last character.
-/

namespace Statute.Config

/-- A character in small letters. Beside the capitals of ASCII only the Kelvin sign has a small
letter in ASCII, and no key of a setting holds any other. -/
def small (c : Char) : Char :=
  if c.toNat = 0x212A then 'k' else c.toLower

def lowered (s : String) : String :=
  String.ofList (s.toList.map small)

def isNameChar (c : Char) : Bool :=
  c.isAlphanum || c = ' ' || c = '_' || c = '-'

def isIndexGap (c : Char) : Bool :=
  c = ' ' || c = '\t'

/-- What follows an index that begins at the front of a text; the index has to fit 64 bits. -/
def afterIndex? (cs : List Char) : Option (List Char) :=
  let cs := cs.dropWhile isIndexGap
  let (negative, cs) := match cs with
    | '-' :: rest => (true, rest)
    | rest => (false, rest)
  let ds := cs.takeWhile Char.isDigit
  let n : Int := Decimal.ofDigits ds
  if ds.isEmpty || (int64? (if negative then -n else n)).isNone then none
  else match (cs.dropWhile Char.isDigit).dropWhile isIndexGap with
    | ']' :: rest => some rest
    | _ => none

/-- What follows the field or index at the front of a text. -/
def afterStep? : List Char → Option (List Char)
  | '.' :: cs => if (cs.takeWhile isNameChar).isEmpty then none else some (cs.dropWhile isNameChar)
  | '[' :: cs => afterIndex? cs
  | _ => none

/-- Whether a text consists of fields and indices. Each of them takes a character, so the length of
the text is fuel enough. -/
def isTrail : Nat → List Char → Bool
  | _, [] => true
  | 0, _ => false
  | fuel + 1, cs =>
      match afterStep? cs with
      | some rest => isTrail fuel rest
      | none => false

/-- The setting that a key speaks of, and what it is set to. -/
def entry (key : String) (value : Json) : String × Json :=
  let name := key.toList.takeWhile isNameChar
  let trail := key.toList.dropWhile isNameChar
  if name.isEmpty || trail.isEmpty || !isTrail trail.length trail then (lowered key, value)
  else (lowered (String.ofList name), .obj [(String.ofList trail, value)])

end Statute.Config
