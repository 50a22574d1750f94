import Statute.Text.Extender
import Statute.Text.Hidden

/-!
# Quoted text

`quote s` shows a text between double quotes so that every character of it can be seen: a quote, a
backslash and the usual controls have short escapes, a character without a shape of its own is
written by its code point in braces, and everything else stands for itself.
-/

namespace Statute.Text

/-- The code point of a character, in lower-case hexadecimal digits between braces. -/
def codePoint (c : Char) : String :=
  "\\u\x7b" ++ String.ofList (Nat.toDigits 16 c.toNat) ++ "\x7d"

/-- One character as it appears inside quotes. -/
def quoteChar (c : Char) : String :=
  if c = '\"' then "\\\""
  else if c = '\\' then "\\\\"
  else if c = '\n' then "\\n"
  else if c = '\r' then "\\r"
  else if c = '\t' then "\\t"
  else if c.toNat = 0 then "\\0"
  else if isExtender c || isHidden c then codePoint c
  else c.toString

/-- A text between double quotes, with every character made visible. -/
def quote (s : String) : String :=
  "\"" ++ String.join (s.toList.map quoteChar) ++ "\""

end Statute.Text
