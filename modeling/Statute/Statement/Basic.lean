import Statute.Expression.Basic
import Statute.Statement.Target

/-!
# Statements

Statements nest: branches, loops, guarded and exclusive blocks contain bodies, and a body is a list
of statements. An exclusive block names the lock that keeps others out of it; the number is given
out when a body is loaded, and is not part of what a program says.

`Statement.expressions` lists the expressions of a statement in reading order, `mapExpressions`
changes each of them, and `label` gives the exclusive blocks of a body distinct locks.
-/

namespace Statute

abbrev LockRef := Nat

mutual

/-- One statement of a program. -/
inductive Statement where
  /-- Introduces a name in the innermost scope. -/
  | declare (name : String) (value : Expression)
  /-- Stores into a name or a field that is there already. -/
  | assign (target : Target) (value : Expression)
  /-- Runs the body of the first branch whose test holds. -/
  | choose (branches : List Branch) (otherwise : Option (List Statement))
  /-- Runs a body once for each integer from `lower` to `upper`. -/
  | repeatFor (var : Option String) (lower upper : Expression) (body : List Statement)
  /-- Runs a body as long as a test holds. -/
  | repeatWhile (test : Expression) (body : List Statement)
  /-- Runs a body and hands its errors to the first handler that fits. -/
  | attempt (body : List Statement) (handlers : List Handler)
  /-- Raises an error. -/
  | raise (value : Expression)
  /-- Runs a body while nobody else is inside it. -/
  | exclusive (lock : LockRef) (body : List Statement)
  /-- Prints a line. -/
  | print (value : Expression)
  /-- Leaves the procedure, with a value or empty-handed. -/
  | returnWith (value : Option Expression)
  /-- Leaves the innermost loop. -/
  | breakOut
  /-- Goes on with the next turn of the innermost loop. -/
  | continueOn
  /-- Evaluates an expression for its effects. -/
  | perform (value : Expression)

/-- A test and the body that runs when it holds. -/
inductive Branch where
  | mk (test : Expression) (body : List Statement)

/-- A class of errors, the name that the error is bound to, and the body that deals with it. -/
inductive Handler where
  | mk (className : String) (binding : Option String) (body : List Statement)

end

instance : Inhabited Statement := ⟨.breakOut⟩

abbrev Body := List Statement

namespace Branch

def test : Branch → Expression
  | mk t _ => t

def body : Branch → Body
  | mk _ b => b

end Branch

namespace Handler

def className : Handler → String
  | mk c _ _ => c

def binding : Handler → Option String
  | mk _ n _ => n

def body : Handler → Body
  | mk _ _ b => b

end Handler

mutual

/-- The expressions of a statement and of the bodies inside it, in reading order. -/
def Statement.expressions : Statement → List Expression
  | .declare _ value => [value]
  | .assign _ value => [value]
  | .choose branches none => Branch.listExpressions branches
  | .choose branches (some body) => Branch.listExpressions branches ++ Body.expressions body
  | .repeatFor _ lower upper body => lower :: upper :: Body.expressions body
  | .repeatWhile test body => test :: Body.expressions body
  | .attempt body handlers => Body.expressions body ++ Handler.listExpressions handlers
  | .raise value => [value]
  | .exclusive _ body => Body.expressions body
  | .print value => [value]
  | .returnWith none => []
  | .returnWith (some value) => [value]
  | .breakOut => []
  | .continueOn => []
  | .perform value => [value]

def Body.expressions : List Statement → List Expression
  | [] => []
  | s :: rest => s.expressions ++ Body.expressions rest

def Branch.listExpressions : List Branch → List Expression
  | [] => []
  | .mk test body :: rest => test :: Body.expressions body ++ Branch.listExpressions rest

def Handler.listExpressions : List Handler → List Expression
  | [] => []
  | .mk _ _ body :: rest => Body.expressions body ++ Handler.listExpressions rest

end

mutual

/-- The statement with each expression changed by `f`. -/
def Statement.mapExpressions (f : Expression → Expression) : Statement → Statement
  | .declare name value => .declare name (f value)
  | .assign target value => .assign target (f value)
  | .choose branches none => .choose (Branch.mapList f branches) none
  | .choose branches (some body) =>
      .choose (Branch.mapList f branches) (some (Body.mapExpressions f body))
  | .repeatFor var lower upper body =>
      .repeatFor var (f lower) (f upper) (Body.mapExpressions f body)
  | .repeatWhile test body => .repeatWhile (f test) (Body.mapExpressions f body)
  | .attempt body handlers => .attempt (Body.mapExpressions f body) (Handler.mapList f handlers)
  | .raise value => .raise (f value)
  | .exclusive lock body => .exclusive lock (Body.mapExpressions f body)
  | .print value => .print (f value)
  | .returnWith none => .returnWith none
  | .returnWith (some value) => .returnWith (some (f value))
  | .breakOut => .breakOut
  | .continueOn => .continueOn
  | .perform value => .perform (f value)

def Body.mapExpressions (f : Expression → Expression) : List Statement → List Statement
  | [] => []
  | s :: rest => s.mapExpressions f :: Body.mapExpressions f rest

def Branch.mapList (f : Expression → Expression) : List Branch → List Branch
  | [] => []
  | .mk test body :: rest => .mk (f test) (Body.mapExpressions f body) :: Branch.mapList f rest

/-- The handlers with each expression changed by `f`. -/
def Handler.mapList (f : Expression → Expression) : List Handler → List Handler
  | [] => []
  | .mk cls name body :: rest =>
      .mk cls name (Body.mapExpressions f body) :: Handler.mapList f rest

end

mutual

/-- The statement with its exclusive blocks numbered from `n` on, and the next free number. -/
def Statement.label (n : Nat) : Statement → Statement × Nat
  | .choose branches none =>
      let (branches, n) := Branch.labelList n branches
      (.choose branches none, n)
  | .choose branches (some body) =>
      let (branches, n) := Branch.labelList n branches
      let (body, n) := Body.label n body
      (.choose branches (some body), n)
  | .repeatFor var lower upper body =>
      let (body, n) := Body.label n body
      (.repeatFor var lower upper body, n)
  | .repeatWhile test body =>
      let (body, n) := Body.label n body
      (.repeatWhile test body, n)
  | .attempt body handlers =>
      let (body, n) := Body.label n body
      let (handlers, n) := Handler.labelList n handlers
      (.attempt body handlers, n)
  | .exclusive _ body =>
      let (body, next) := Body.label (n + 1) body
      (.exclusive n body, next)
  | s => (s, n)

/-- The body with its exclusive blocks numbered from `n` on, and the next free number. -/
def Body.label (n : Nat) : List Statement → List Statement × Nat
  | [] => ([], n)
  | s :: rest =>
      let (s, n) := s.label n
      let (rest, n) := Body.label n rest
      (s :: rest, n)

/-- The branches with their exclusive blocks numbered from `n` on, and the next free number. -/
def Branch.labelList (n : Nat) : List Branch → List Branch × Nat
  | [] => ([], n)
  | .mk test body :: rest =>
      let (body, n) := Body.label n body
      let (rest, n) := Branch.labelList n rest
      (.mk test body :: rest, n)

/-- The handlers with their exclusive blocks numbered from `n` on, and the next free number. -/
def Handler.labelList (n : Nat) : List Handler → List Handler × Nat
  | [] => ([], n)
  | .mk cls name body :: rest =>
      let (body, n) := Body.label n body
      let (rest, n) := Handler.labelList n rest
      (.mk cls name body :: rest, n)

end

@[simp] theorem Body.expressions_nil : Body.expressions [] = [] := by
  simp [Body.expressions]

theorem Body.expressions_cons (s : Statement) (rest : Body) :
    Body.expressions (s :: rest) = s.expressions ++ Body.expressions rest := by
  simp [Body.expressions]

end Statute
