/-!
# Locations

A location names the expression that something was written in: its file, its line and its text.
Expressions entered by hand have no file, and are shown as input.
-/

namespace Statute

/-- Where an expression was written. -/
structure Location where
  file : String
  line : Nat
  text : String
deriving DecidableEq, Repr, Inhabited

namespace Location

def display (l : Location) : String :=
  (if l.file.isEmpty then "<input>" else l.file) ++ ":" ++ toString l.line ++ ": " ++ l.text

end Location

end Statute
