import Statute.Error.Failure

/-!
# Numbers of arguments

The numbers of arguments that an extension accepts: at least `min`, and at most `max` if there is an
upper bound. An extension without arguments can be called by its bare name.
-/

namespace Statute

/-- The accepted numbers of arguments. -/
structure Arity where
  min : Nat
  max : Option Nat
  /-- Whether the bare name calls the extension. -/
  autoInvoke : Bool
deriving DecidableEq, Repr, Inhabited

namespace Arity

/-- No arguments, and called by its bare name. -/
def none : Arity := ⟨0, some 0, true⟩

def exact (n : Nat) : Arity := ⟨n, some n, false⟩

def range (lo hi : Nat) : Arity := ⟨lo, some hi, false⟩

def atLeast (n : Nat) : Arity := ⟨n, Option.none, false⟩

/-- Whether a number of arguments is accepted. -/
def accepts (a : Arity) (supplied : Nat) : Bool :=
  a.min ≤ supplied && match a.max with
    | some hi => supplied ≤ hi
    | Option.none => true

/-- The accepted numbers, as shown in messages. -/
def display (a : Arity) : String :=
  match a.max with
  | some hi =>
      if hi = a.min then toString hi else toString a.min ++ " to " ++ toString hi
  | Option.none => "at least " ++ toString a.min

def check (a : Arity) (callee : String) (supplied : Nat) : Except Failure Unit :=
  if a.accepts supplied then .ok () else .error (.argumentCount callee a.display supplied)

end Arity

end Statute
