import Statute.Decimal.Reading
import Statute.Json.Basic

/-!
# Lexemes of a document

A document text is first cut into lexemes: brackets, braces, commas, colons, texts and other scalars.
Blanks between lexemes are dropped. The lexer is where number literals get their kind: an integer
literal within 64 bits stays an integer, any other number becomes a double.

A scalar can be well-formed and still stand for nothing: a text with half a character in it, or a
number beyond the doubles. Such a scalar is a lexeme without a value, so that whoever skips it need
not mind.
-/

namespace Statute.Json

/-- A lexeme of a document text. -/
inductive Lexeme where
  | openArray
  | closeArray
  | openObject
  | closeObject
  | comma
  | colon
  | text (value : Option String)
  /-- A number, a truth value or null. -/
  | scalar (value : Option Json)
deriving Inhabited

/-- The blanks that may stand between lexemes. -/
def isGap (c : Char) : Bool :=
  c = ' ' || c = '\n' || c = '\t' || c = '\r'

/-- The value of a hexadecimal digit. -/
def hexDigit? (c : Char) : Option Nat :=
  if c.isDigit then some (c.toNat - '0'.toNat)
  else if 'a' ≤ c ∧ c ≤ 'f' then some (c.toNat - 'a'.toNat + 10)
  else if 'A' ≤ c ∧ c ≤ 'F' then some (c.toNat - 'A'.toNat + 10)
  else none

/-- The number written by four hexadecimal digits. -/
def hexUnit? (a b c d : Char) : Option Nat := do
  let a ← hexDigit? a
  let b ← hexDigit? b
  let c ← hexDigit? c
  let d ← hexDigit? d
  return ((a * 16 + b) * 16 + c) * 16 + d

/-- The character of an escape that is a single letter. -/
def shortEscape? (c : Char) : Option Char :=
  if c = '"' ∨ c = '\\' ∨ c = '/' then some c
  else if c = 'b' then some (Char.ofNat 8)
  else if c = 'f' then some (Char.ofNat 12)
  else if c = 'n' then some '\n'
  else if c = 'r' then some '\r'
  else if c = 't' then some '\t'
  else none

/-- The character that two escaped surrogates stand for. -/
def joined? (hi lo : Nat) : Option Char :=
  if 0xD800 ≤ hi ∧ hi < 0xDC00 ∧ 0xDC00 ≤ lo ∧ lo < 0xE000 then
    some (Char.ofNat (0x10000 + (hi - 0xD800) * 1024 + (lo - 0xDC00)))
  else none

/-- The character that an escaped unit stands for, unless it is half of one. -/
def unit? (n : Nat) : Option Char :=
  if 0xD800 ≤ n ∧ n < 0xE000 then none else some (Char.ofNat n)

/-- One more character of a text that is read from the left; half a character spoils it. -/
def more (acc : Option (List Char)) (c : Option Char) : Option (List Char) :=
  match acc, c with
  | some cs, some c => some (c :: cs)
  | _, _ => none

/-- The text up to the closing quote, and what follows the quote. Two escaped surrogates stand for
one character, and a surrogate on its own is half a character. A raw control character or an unknown
escape is refused. -/
def textBody : Option (List Char) → List Char → Option (Option String × List Char)
  | _, [] => none
  | acc, '"' :: rest => some (acc.map fun cs => String.ofList cs.reverse, rest)
  | acc, '\\' :: 'u' :: a :: b :: c :: d :: '\\' :: 'u' :: a' :: b' :: c' :: d' :: rest =>
      match hexUnit? a b c d, hexUnit? a' b' c' d' with
      | some hi, some lo =>
          match joined? hi lo with
          | some e => textBody (more acc e) rest
          | none => textBody (more acc (unit? hi)) ('\\' :: 'u' :: a' :: b' :: c' :: d' :: rest)
      | _, _ => none
  | acc, '\\' :: 'u' :: a :: b :: c :: d :: rest =>
      match hexUnit? a b c d with
      | none => none
      | some n => textBody (more acc (unit? n)) rest
  | acc, '\\' :: c :: rest =>
      match shortEscape? c with
      | none => none
      | some e => textBody (more acc e) rest
  | acc, c :: rest => if c.toNat < 32 then none else textBody (more acc c) rest

def isNumberChar (c : Char) : Bool :=
  c.isDigit || c = '-' || c = '+' || c = '.' || c = 'e' || c = 'E'

/-- The digits of a literal that fit into 64 bits together with the ones before them, and how many
digits were left over. -/
def significand : Nat → List Char → Nat × Nat
  | n, [] => (n, 0)
  | n, c :: cs =>
      let next := 10 * n + (c.toNat - '0'.toNat)
      if next < UInt64.size then significand next cs else (n, cs.length + 1)

/-- The double `units * 10 ^ exponent`, computed as one multiplication or division by a power of
ten that is itself a double; `none` when the result is not finite. Exponents below the range of
doubles are approached in steps of the largest power. -/
def scaled? : Nat → Float → Int → Option Float
  | 0, x, _ => some x
  | fuel + 1, x, e =>
      if e.natAbs ≤ 308 then
        let power := Binary.nearest (Nat.pow 10 e.natAbs) 1
        if 0 ≤ e then
          let y := x * power
          if y.isInf then none else some y
        else some (x / power)
      else if x == 0.0 then some x
      else if 0 ≤ e then none
      else scaled? fuel (x / Binary.nearest (Nat.pow 10 308) 1) (e + 308)

/-- A number literal with a point or an exponent, or an integer literal beyond 64 bits. The
exponent is cut off where no double is left. -/
def floatLiteral? (negative : Bool) (whole places : List Char) (e : Int) : Option Json :=
  let (head, dropped) := significand 0 whole
  let (units, unread) := significand head places
  let exponent := (dropped : Int) - ((places.length : Int) - unread) + e
  let bounded := max (-100000) (min 100000 exponent)
  (scaled? 400 units.toUInt64.toFloat bounded).map fun x => .number (if negative then -x else x)

/-- A number literal: an optional minus, digits without a superfluous zero in front, optionally a
point with digits and an exponent. A literal beyond the doubles has no value. -/
def numberLiteral? (cs : List Char) : Option (Option Json) :=
  let (negative, cs) := match cs with
    | '-' :: r => (true, r)
    | r => (false, r)
  let whole := cs.takeWhile Char.isDigit
  let afterWhole := cs.dropWhile Char.isDigit
  if whole.isEmpty || (whole.head? = some '0' && 1 < whole.length) then none
  else
    match afterWhole with
    | [] =>
        let n := Decimal.ofDigits whole
        if negative ∧ 0 < n ∧ n ≤ Nat.pow 2 63 then some (some (.int (-n)))
        else if !negative ∧ n < UInt64.size then some (some (.int n))
        else some (floatLiteral? negative whole [] 0)
    | '.' :: r =>
        let places := r.takeWhile Char.isDigit
        if places.isEmpty then none
        else (Decimal.readExponent? (r.dropWhile Char.isDigit)).map
          (floatLiteral? negative whole places)
    | r => (Decimal.readExponent? r).map (floatLiteral? negative whole [])

/-- The lexeme at the front of a text that does not begin with a gap, and the text after it. -/
def lexeme? : List Char → Option (Lexeme × List Char)
  | '[' :: rest => some (.openArray, rest)
  | ']' :: rest => some (.closeArray, rest)
  | '\x7b' :: rest => some (.openObject, rest)
  | '\x7d' :: rest => some (.closeObject, rest)
  | ',' :: rest => some (.comma, rest)
  | ':' :: rest => some (.colon, rest)
  | '"' :: rest => (textBody (some []) rest).map fun (s, r) => (.text s, r)
  | 't' :: 'r' :: 'u' :: 'e' :: rest => some (.scalar (some (.bool true)), rest)
  | 'f' :: 'a' :: 'l' :: 's' :: 'e' :: rest => some (.scalar (some (.bool false)), rest)
  | 'n' :: 'u' :: 'l' :: 'l' :: rest => some (.scalar (some .null), rest)
  | cs =>
      (numberLiteral? (cs.takeWhile isNumberChar)).map fun j =>
        (.scalar j, cs.dropWhile isNumberChar)

/-- All lexemes of a text; every lexeme takes a character, so the length of the text is fuel
enough. -/
def lexemes? : Nat → List Char → Option (List Lexeme)
  | fuel, cs =>
      match fuel, cs.dropWhile isGap with
      | _, [] => some []
      | 0, _ => none
      | fuel + 1, c :: rest => do
          let (l, rest) ← lexeme? (c :: rest)
          let ls ← lexemes? fuel rest
          return l :: ls

end Statute.Json
