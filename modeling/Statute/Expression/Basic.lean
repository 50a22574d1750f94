import Statute.Expression.Lexeme
import Statute.Location
import Statute.Text.Trim

/-!
# Expressions

An expression of a program is a list of raw tokens with the place it was written at. It is not
analysed further until it is evaluated or checked. Expression text is cut into tokens; its place
shows the text without the blanks around it.
-/

namespace Statute

/-- Raw tokens and the place they were written at. -/
structure Expression where
  tokens : List String
  location : Location
deriving DecidableEq, Repr, Inhabited

namespace Expression

/-- The expression written by a text, at line zero of no file. -/
def ofText (text : String) : Expression :=
  ⟨Lexeme.split text, ⟨"", 0, Text.trim text⟩⟩

/-- The expression given by a token list, shown as its tokens separated by blanks. -/
def ofTokens (tokens : List String) : Expression :=
  ⟨tokens, ⟨"", 0, " ".intercalate tokens⟩⟩

def atLine (e : Expression) (line : Nat) : Expression :=
  { e with location := { e.location with line := line } }

def inFile (file : String) (e : Expression) : Expression :=
  { e with location := { e.location with file := file } }

@[simp] theorem inFile_tokens (file : String) (e : Expression) :
    (e.inFile file).tokens = e.tokens := rfl

@[simp] theorem inFile_location_file (file : String) (e : Expression) :
    (e.inFile file).location.file = file := rfl

end Expression

end Statute
