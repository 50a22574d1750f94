import Statute.Json.Lexer
import Statute.Json.Outline

/-!
# Reading documents

The lexemes of a document are consumed one by one by a machine whose state is the stack of the
containers that are still open and what may come next. Reading is thus a fold over the lexemes. It
gives the outline of the document, which is settled afterwards.
-/

namespace Statute.Json

/-- A container that is still open: its finished parts, latest first, and for an object the key
whose value is being read. -/
inductive Open where
  | arr (done : List Outline)
  | obj (done : List (Option String × Outline)) (key : Option String)

/-- What may come next. -/
inductive Expected where
  | value
  | valueOrClose
  | key
  | keyOrClose
  | colon
  | separator
  | nothing
deriving DecidableEq

/-- A document read so far: the open containers, innermost first, what may come next, and the
whole document once it is complete. -/
structure ReadState where
  stack : List Open
  expected : Expected
  document : Option Outline

namespace ReadState

def start : ReadState := ⟨[], .value, none⟩

/-- A value is complete: it joins the innermost open container, or it is the document. -/
def complete (o : Outline) : List Open → ReadState
  | [] => ⟨[], .nothing, some o⟩
  | .arr done :: rest => ⟨.arr (o :: done) :: rest, .separator, none⟩
  | .obj done key :: rest => ⟨.obj ((key, o) :: done) key :: rest, .separator, none⟩

def descend (s : ReadState) (o : Open) (next : Expected) : ReadState :=
  ⟨o :: s.stack, next, none⟩

/-- The innermost container is closed. -/
def closeTop : List Open → Option ReadState
  | [] => none
  | .arr done :: rest => some (complete (.arr done.reverse) rest)
  | .obj done _ :: rest => some (complete (.obj done.reverse) rest)

/-- Whether the innermost open container is an array. -/
def inArray (s : ReadState) : Bool :=
  match s.stack with
  | .arr _ :: _ => true
  | _ => false

/-- Whether the innermost open container is an object. -/
def inObject (s : ReadState) : Bool :=
  match s.stack with
  | .obj _ _ :: _ => true
  | _ => false

/-- The key of the innermost open object is replaced by the one just read. -/
def withKey (key : Option String) : List Open → List Open
  | .obj done _ :: rest => .obj done key :: rest
  | stack => stack

/-- One lexeme is consumed. -/
def consume (s : ReadState) (l : Lexeme) : Option ReadState :=
  match s.expected, l with
  | .value, .scalar j | .valueOrClose, .scalar j => some (complete (.scalar j) s.stack)
  | .value, .text t | .valueOrClose, .text t => some (complete (.scalar (t.map .str)) s.stack)
  | .value, .openArray | .valueOrClose, .openArray => some (s.descend (.arr []) .valueOrClose)
  | .value, .openObject | .valueOrClose, .openObject => some (s.descend (.obj [] none) .keyOrClose)
  | .valueOrClose, .closeArray => closeTop s.stack
  | .key, .text k | .keyOrClose, .text k => some ⟨withKey k s.stack, .colon, none⟩
  | .keyOrClose, .closeObject => closeTop s.stack
  | .colon, .colon => some { s with expected := .value }
  | .separator, .comma => some { s with expected := if s.inArray then .value else .key }
  | .separator, .closeArray => if s.inArray then closeTop s.stack else none
  | .separator, .closeObject => if s.inObject then closeTop s.stack else none
  | _, _ => none

end ReadState

/-- The outline of the document that a text writes, if it writes one and nothing else. -/
def outline? (text : String) : Option Outline := do
  let cs := text.toList
  let ls ← lexemes? cs.length cs
  let s ← ls.foldlM ReadState.consume ReadState.start
  s.document

/-- The document that a text writes, if it writes one and nothing else. -/
def read? (text : String) : Option Json :=
  (outline? text).bind Outline.settle?

end Statute.Json
