import Statute.Decimal.Reading
import Statute.Expression.Literal
import Statute.Json.Lexer
import Statute.Text.Trim

/-!
# Settings files

A settings file in TOML: lines that give values to keys, comments, and headers that open nested
tables. A key may be dotted, which stands for a table inside a table, and no key is given twice. The
tables are read into a document.

Recursion over brackets is bounded by the length of the text.
-/

namespace Statute

namespace Table

/-! ## Words -/

def isGap (c : Char) : Bool :=
  c = ' ' || c = '\t'

/-- The rest of a text after the blanks. -/
def skipGap (cs : List Char) : List Char :=
  cs.dropWhile isGap

/-- The rest of a text after a comment, if one begins here; the end of the line stays. -/
def skipComment : List Char → List Char
  | '#' :: cs => cs.dropWhile (· ≠ '\n')
  | cs => cs

/-- What follows the end of a line; before it there may be blanks and a comment. -/
def endLine? (cs : List Char) : Option (List Char) :=
  match skipComment (skipGap cs) with
  | [] => some []
  | '\n' :: rest => some rest
  | '\r' :: '\n' :: rest => some rest
  | _ => none

/-- The rest of a text after blanks, line ends and comments. -/
def skipLines : Nat → List Char → List Char
  | 0, cs => cs
  | fuel + 1, cs =>
      match skipGap cs with
      | '\n' :: rest => skipLines fuel rest
      | '\r' :: '\n' :: rest => skipLines fuel rest
      | '#' :: rest => skipLines fuel (rest.dropWhile (· ≠ '\n'))
      | rest => rest

/-- The character of a code point, unless it is none. -/
def char? (n : Nat) : Option Char :=
  if n.isValidChar then some (Char.ofNat n) else none

/-- An escape sequence after its backslash, and what follows it. -/
def escape? : List Char → Option (Char × List Char)
  | 'u' :: a :: b :: c :: d :: rest => do
      return (← char? (← Json.hexUnit? a b c d), rest)
  | 'U' :: a :: b :: c :: d :: e :: f :: g :: h :: rest => do
      let hi ← Json.hexUnit? a b c d
      let lo ← Json.hexUnit? e f g h
      return (← char? (hi * 65536 + lo), rest)
  | '/' :: _ => none
  | c :: rest => (Json.shortEscape? c).map fun e => (e, rest)
  | [] => none

/-- Whether a character may stand in a text as it is. -/
def isPlain (c : Char) : Bool :=
  c = '\t' || (32 ≤ c.toNat && c.toNat ≠ 127)

/-- The text up to a closing double quote. -/
def quoted : Nat → List Char → List Char → Option (String × List Char)
  | 0, _, _ => none
  | _ + 1, acc, '"' :: rest => some (String.ofList acc.reverse, rest)
  | fuel + 1, acc, '\\' :: rest =>
      match escape? rest with
      | some (c, rest) => quoted fuel (c :: acc) rest
      | none => none
  | fuel + 1, acc, c :: rest => if isPlain c then quoted fuel (c :: acc) rest else none
  | _ + 1, _, [] => none

/-- The text up to a closing single quote, in which nothing is escaped. -/
def literal : List Char → List Char → Option (String × List Char)
  | _, [] => none
  | acc, '\'' :: rest => some (String.ofList acc.reverse, rest)
  | acc, c :: rest => if isPlain c then literal (c :: acc) rest else none

/-- The text up to three double quotes. A backslash at the end of a line joins it to the next
word. -/
def longQuoted : Nat → List Char → List Char → Option (String × List Char)
  | 0, _, _ => none
  | fuel + 1, acc, '"' :: '"' :: '"' :: '"' :: rest =>
      longQuoted fuel ('"' :: acc) ('"' :: '"' :: '"' :: rest)
  | _ + 1, acc, '"' :: '"' :: '"' :: rest => some (String.ofList acc.reverse, rest)
  | fuel + 1, acc, '\\' :: rest =>
      match skipGap rest with
      | '\n' :: after =>
          longQuoted fuel acc (after.dropWhile fun c => isGap c || c = '\n' || c = '\r')
      | '\r' :: '\n' :: after =>
          longQuoted fuel acc (after.dropWhile fun c => isGap c || c = '\n' || c = '\r')
      | _ =>
          match escape? rest with
          | some (c, rest) => longQuoted fuel (c :: acc) rest
          | none => none
  | fuel + 1, acc, c :: rest =>
      if isPlain c || c = '\n' || c = '\r' then longQuoted fuel (c :: acc) rest else none
  | _ + 1, _, [] => none

/-- The text up to three single quotes. -/
def longLiteral : List Char → List Char → Option (String × List Char)
  | _, [] => none
  | acc, '\'' :: '\'' :: '\'' :: rest => some (String.ofList acc.reverse, rest)
  | acc, c :: rest =>
      if isPlain c || c = '\n' || c = '\r' then longLiteral (c :: acc) rest else none

/-- The rest of a text after one line end. -/
def dropLineEnd : List Char → List Char
  | '\n' :: rest => rest
  | '\r' :: '\n' :: rest => rest
  | cs => cs

/-! ## Numbers -/

/-- Digits of a kind in groups divided by underscores, without the underscores. -/
def grouped? (isDigit : Char → Bool) (cs : List Char) : Option (List Char) :=
  let groups := Text.pieces '_' cs
  if groups.all fun g => !g.isEmpty && g.all isDigit then some groups.flatten else none

def valueIn (base : Nat) (cs : List Char) : Nat :=
  cs.foldl (fun n c => base * n + (Json.hexDigit? c).getD 0) 0

/-- An integer in decimal notation, without leading zeros. -/
def decimal? (cs : List Char) : Option Int :=
  let (negative, ds) := Decimal.splitSign cs
  match grouped? Char.isDigit ds with
  | none => none
  | some ds =>
      if ds.head? = some '0' ∧ 1 < ds.length then none
      else
        let n : Int := Decimal.ofDigits ds
        some (if negative then -n else n)

/-- An integer in one of the four notations. -/
def integer? (cs : List Char) : Option Int :=
  let inBase (base : Nat) (isDigit : Char → Bool) (ds : List Char) : Option Int :=
    (grouped? isDigit ds).map fun ds => (valueIn base ds : Int)
  match cs with
  | '0' :: 'x' :: ds => inBase 16 (fun c => (Json.hexDigit? c).isSome) ds
  | '0' :: 'o' :: ds => inBase 8 (fun c => '0' ≤ c && c ≤ '7') ds
  | '0' :: 'b' :: ds => inBase 2 (fun c => c = '0' || c = '1') ds
  | _ => decimal? cs

/-- A number with a fraction or an exponent. -/
def float? (cs : List Char) : Option Float :=
  let (_, body) := Decimal.splitSign cs
  let text := String.ofList (cs.filter (· ≠ '_'))
  if body = "inf".toList ∨ body = "nan".toList then readNumber? text
  else
    let whole := body.takeWhile fun c => c.isDigit || c = '_'
    let rest := body.dropWhile fun c => c.isDigit || c = '_'
    let exponent? (es : List Char) : Bool :=
      match es with
      | [] => true
      | e :: ds => (e = 'e' || e = 'E') &&
          (grouped? Char.isDigit (Decimal.splitSign ds).2).isSome
    let wellFormed := (decimal? whole).isSome && match rest with
      | '.' :: fs =>
          (grouped? Char.isDigit (fs.takeWhile fun c => c.isDigit || c = '_')).isSome &&
            exponent? (fs.dropWhile fun c => c.isDigit || c = '_')
      | [] => false
      | es => exponent? es
    if wellFormed then readNumber? text else none

/-- Whether a word looks like a date or a time of day. -/
def isMoment (cs : List Char) : Bool :=
  let digitAt (i : Nat) : Bool := (cs[i]?.map Char.isDigit).getD false
  let date := cs[4]? = some '-' && cs[7]? = some '-' && 10 ≤ cs.length
  let time := cs[2]? = some ':' && 8 ≤ cs.length
  (date || time) && digitAt 0 && digitAt 1 &&
    cs.all fun c => c.isDigit || "-:.TtZz+".toList.contains c

/-- The value of a word that is not quoted. Dates and times are kept as texts. -/
def scalar? (cs : List Char) : Option Json :=
  if cs = "true".toList then some (.bool true)
  else if cs = "false".toList then some (.bool false)
  else match integer? cs with
    | some n => if minInt ≤ n ∧ n ≤ maxInt then some (.int n) else none
    | none =>
        match float? cs with
        | some x => some (.number x)
        | none => if isMoment cs then some (.str (String.ofList cs)) else none

/-! ## Keys and values -/

/-- Whether a character may stand in a key without quotes. -/
def isBare (c : Char) : Bool :=
  c.isAlphanum || c = '_' || c = '-'

/-- One part of a key. -/
def keyPart? (cs : List Char) : Option (String × List Char) :=
  match cs with
  | '"' :: rest => quoted (cs.length + 1) [] rest
  | '\'' :: rest => literal [] rest
  | _ =>
      let word := cs.takeWhile isBare
      if word.isEmpty then none else some (String.ofList word, cs.dropWhile isBare)

/-- A key, as the list of its parts. -/
def key? : Nat → List Char → Option (List String × List Char)
  | 0, _ => none
  | fuel + 1, cs =>
      match keyPart? (skipGap cs) with
      | none => none
      | some (part, rest) =>
          match skipGap rest with
          | '.' :: rest => (key? fuel rest).map fun (parts, rest) => (part :: parts, rest)
          | rest => some ([part], rest)

/-- The members with the member of a key replaced, or added. -/
def replace (key : String) (v : Json) : List (String × Json) → List (String × Json)
  | [] => [(key, v)]
  | m :: rest => if m.1 = key then (key, v) :: rest else m :: replace key v rest

/-- Changes the table at a path with `f`, creating tables on the way. The path leads through the
last table of an array of tables. -/
def modifyAt (f : List (String × Json) → Option (List (String × Json))) :
    List String → List (String × Json) → Option (List (String × Json))
  | [], members => f members
  | key :: path, members =>
      match Json.lookup key members with
      | none => (modifyAt f path []).map fun t => replace key (.obj t) members
      | some (.obj inner) => (modifyAt f path inner).map fun t => replace key (.obj t) members
      | some (.arr items) =>
          match items.reverse with
          | .obj inner :: before =>
              (modifyAt f path inner).map fun t =>
                replace key (.arr (before.reverse ++ [.obj t])) members
          | _ => none
      | some _ => none

/-- Gives a value to a key that has none. -/
def insert (parts : List String) (v : Json) (members : List (String × Json)) :
    Option (List (String × Json)) :=
  modifyAt (fun t =>
    let key := parts.getLastD ""
    if (Json.lookup key t).isSome then none else some (t ++ [(key, v)])) parts.dropLast members

/-- Whether a character belongs to a word that is not quoted. -/
def isScalarChar (c : Char) : Bool :=
  !(isGap c || c = ',' || c = ']' || c = '}' || c = '#' || c = '\n' || c = '\r')

mutual

/-- A value, and what follows it. -/
def value? : Nat → List Char → Option (Json × List Char)
  | 0, _ => none
  | fuel + 1, cs =>
      let text (r : Option (String × List Char)) := r.map fun (s, rest) => (Json.str s, rest)
      match cs with
      | '"' :: '"' :: '"' :: rest => text (longQuoted (2 * cs.length) [] (dropLineEnd rest))
      | '"' :: rest => text (quoted cs.length [] rest)
      | '\'' :: '\'' :: '\'' :: rest => text (longLiteral [] (dropLineEnd rest))
      | '\'' :: rest => text (literal [] rest)
      | '[' :: rest => items? fuel [] rest
      | '{' :: rest => members? fuel [] rest
      | _ => (scalar? (cs.takeWhile isScalarChar)).map fun v => (v, cs.dropWhile isScalarChar)

/-- The items of an array up to its closing bracket. -/
def items? : Nat → List Json → List Char → Option (Json × List Char)
  | 0, _, _ => none
  | fuel + 1, acc, cs =>
      match skipLines cs.length cs with
      | ']' :: rest => some (.arr acc.reverse, rest)
      | cs =>
          match value? fuel cs with
          | none => none
          | some (v, rest) =>
              match skipLines rest.length rest with
              | ',' :: rest => items? fuel (v :: acc) rest
              | ']' :: rest => some (.arr (v :: acc).reverse, rest)
              | _ => none

/-- The members of a table in one line, up to its closing bracket. -/
def members? : Nat → List (String × Json) → List Char → Option (Json × List Char)
  | 0, _, _ => none
  | fuel + 1, acc, cs =>
      match skipGap cs with
      | '}' :: rest => if acc.isEmpty then some (.obj [], rest) else none
      | cs =>
          match key? cs.length cs with
          | some (parts, '=' :: rest) =>
              match value? fuel (skipGap rest) with
              | none => none
              | some (v, rest) =>
                  match insert parts v acc, skipGap rest with
                  | some acc, ',' :: rest => members? fuel acc rest
                  | some acc, '}' :: rest => some (.obj acc, rest)
                  | _, _ => none
          | _ => none

end

/-! ## Files -/

/-- A file that has been read in part: its tables, the table that keys go to, and the tables that
were opened by a header. -/
structure Draft where
  root : List (String × Json)
  current : List String
  headers : List (List String)
deriving Inhabited

/-- Opens the table of a header. -/
def Draft.openTable (d : Draft) (parts : List String) : Option Draft :=
  if d.headers.contains parts then none
  else (modifyAt some parts d.root).map fun root =>
    ⟨root, parts, parts :: d.headers⟩

/-- Opens a further table of an array of tables. -/
def Draft.openItem (d : Draft) (parts : List String) : Option Draft :=
  let key := parts.getLastD ""
  let root := modifyAt (fun t =>
    match Json.lookup key t with
    | none => some (t ++ [(key, .arr [.obj []])])
    | some (.arr items) => some (replace key (.arr (items ++ [.obj []])) t)
    | some _ => none) parts.dropLast d.root
  root.map fun root =>
    ⟨root, parts, d.headers.filter fun h => !parts.isPrefixOf h⟩

/-- One line with a header or a key, and what follows it. -/
def line? (d : Draft) (cs : List Char) : Option (Draft × List Char) :=
  match cs with
  | '[' :: '[' :: rest =>
      match key? cs.length rest with
      | some (parts, ']' :: ']' :: rest) => do return (← d.openItem parts, ← endLine? rest)
      | _ => none
  | '[' :: rest =>
      match key? cs.length rest with
      | some (parts, ']' :: rest) => do return (← d.openTable parts, ← endLine? rest)
      | _ => none
  | _ =>
      match key? cs.length cs with
      | some (parts, '=' :: rest) => do
          let (v, rest) ← value? (cs.length + 1) (skipGap rest)
          let root ← modifyAt (insert parts v) d.current d.root
          return ({ d with root := root }, ← endLine? rest)
      | _ => none

/-- Reads line after line. -/
def lines? : Nat → Draft → List Char → Option Draft
  | 0, _, _ => none
  | fuel + 1, d, cs =>
      match skipLines cs.length cs with
      | [] => some d
      | cs =>
          match line? d cs with
          | some (d, rest) => lines? fuel d rest
          | none => none

/-- The document that a settings file spells. -/
def read? (text : String) : Option Json :=
  let cs := text.toList
  let cs := if cs.head? = some (Char.ofNat 0xFEFF) then cs.tail else cs
  (lines? (cs.length + 1) ⟨[], [], []⟩ cs).map fun d => .obj d.root

end Table

end Statute
