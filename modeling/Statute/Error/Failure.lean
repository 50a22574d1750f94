import Statute.Error.Kind
import Statute.Location

/-!
# Failures

A failure is an error on its way out of a program: its kind, the class it counts as, a message,
the object that was thrown if there was one, the place where it arose, and the calls it has left so
far, innermost first. The place is fixed by whoever knows it first; later places do not replace it.
-/

namespace Statute

abbrev ObjectRef := Nat

/-- A call that a failure has left. -/
structure TraceEntry where
  procedure : String
  location : Option Location
deriving DecidableEq, Repr, Inhabited

/-- An error on its way out. -/
structure Failure where
  kind : ErrorKind
  className : String
  message : String
  payload : Option ObjectRef
  location : Option Location
  trace : List TraceEntry
deriving DecidableEq, Repr, Inhabited

namespace Failure

/-- A fresh failure of a kind: it counts as the class of the kind and has no place yet. -/
def new (kind : ErrorKind) (message : String) : Failure :=
  ⟨kind, kind.className, message, none, none, []⟩

/-- The failure with a place, unless it has one already. -/
def locate (f : Failure) (l : Location) : Failure :=
  { f with location := f.location <|> some l }

def atCall (f : Failure) : Option Location → Failure
  | some l => f.locate l
  | none => f

/-- The failure after leaving one more call. -/
def leaving (f : Failure) (e : TraceEntry) : Failure :=
  { f with trace := f.trace ++ [e] }

def display (f : Failure) : String :=
  f.className ++ ": " ++ f.message

/-- One line of the call chain in a report. -/
def traceLine (e : TraceEntry) : String :=
  match e.location with
  | some l => "\n  in " ++ e.procedure ++ " called from " ++ l.display
  | none => "\n  in " ++ e.procedure

/-- The full report: class and message, then the place, then the calls. -/
def report (f : Failure) : String :=
  let place := match f.location with
    | some l => "\n  at " ++ l.display
    | none => ""
  f.display ++ place ++ String.join (f.trace.map traceLine)

/-- Names that come close to a misspelt one, as the tail of a message. -/
def didYouMean : List String → String
  | [] => ""
  | names => "; did you mean: " ++ ", ".intercalate names ++ "?"

/-- An error in the form of an expression. -/
def malformed (message : String) : Failure :=
  new .syntaxError message

/-- An operation on a value of the wrong type. -/
def invalidType (message : String) : Failure :=
  new .invalidType message

/-- A postfix form that does not leave exactly one value. -/
def invalidExpression (message : String) : Failure :=
  new .invalidExpression message

def nameNotDefined (name : String) (close : List String) : Failure :=
  new .nameNotDefined ("name '" ++ name ++ "' is not defined" ++ didYouMean close)

def fieldNotDefined (field owner : String) (close : List String) : Failure :=
  new .fieldNotDefined
    ("field '" ++ field ++ "' is not defined on " ++ owner ++ didYouMean close)

/-- A call with the wrong number of arguments. -/
def argumentCount (callee expected : String) (supplied : Nat) : Failure :=
  new .argumentCount
    ("'" ++ callee ++ "' expects " ++ expected ++ " argument(s), " ++ toString supplied ++
      " supplied")

@[simp] theorem locate_locate (f : Failure) (l l' : Location) :
    (f.locate l).locate l' = f.locate l := by
  cases h : f.location <;> simp [locate, h]

@[simp] theorem leaving_kind (f : Failure) (e : TraceEntry) : (f.leaving e).kind = f.kind := rfl

@[simp] theorem leaving_location (f : Failure) (e : TraceEntry) :
    (f.leaving e).location = f.location := rfl

end Failure

end Statute
