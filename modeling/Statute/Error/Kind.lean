/-!
# Kinds of errors

Every error of a program belongs to one of sixteen kinds. A kind has a stable code for reports, a
class that programs can throw and catch, and a message that is used when a program throws the class
itself. The class of the kind `general` is the root of all of them.
-/

namespace Statute

/-- What went wrong. -/
inductive ErrorKind where
  | general
  | syntaxError
  | nameNotDefined
  | fieldNotDefined
  | invalidType
  | invalidExpression
  | divisionByZero
  | overflow
  | argumentCount
  | recursionLimit
  | duplicateName
  | indexOutOfRange
  | doubleWait
  | notThrowable
  | scheduler
  | internal
deriving DecidableEq, Repr, Inhabited

namespace ErrorKind

/-- All kinds, the root first. -/
def all : List ErrorKind :=
  [general, syntaxError, nameNotDefined, fieldNotDefined, invalidType, invalidExpression,
    divisionByZero, overflow, argumentCount, recursionLimit, duplicateName, indexOutOfRange,
    doubleWait, notThrowable, scheduler, internal]

/-- The code of a kind in reports. -/
def code : ErrorKind → String
  | general => "ERROR"
  | syntaxError => "SYNTAX_ERROR"
  | nameNotDefined => "NAME_NOT_DEFINED"
  | fieldNotDefined => "FIELD_NOT_DEFINED"
  | invalidType => "INVALID_TYPE"
  | invalidExpression => "INVALID_EXPRESSION"
  | divisionByZero => "DIVISION_BY_ZERO"
  | overflow => "ARITHMETIC_OVERFLOW"
  | argumentCount => "ARGUMENT_COUNT"
  | recursionLimit => "RECURSION_LIMIT"
  | duplicateName => "DUPLICATE_NAME"
  | indexOutOfRange => "INDEX_OUT_OF_RANGE"
  | doubleWait => "DOUBLE_WAIT"
  | notThrowable => "NOT_THROWABLE"
  | scheduler => "SCHEDULER_ERROR"
  | internal => "INTERNAL_ERROR"

/-- The name of the class that stands for a kind inside programs. -/
def className : ErrorKind → String
  | general => "Error"
  | syntaxError => "SyntaxError"
  | nameNotDefined => "NameError"
  | fieldNotDefined => "FieldError"
  | invalidType => "TypeError"
  | invalidExpression => "ExpressionError"
  | divisionByZero => "ZeroDivisionError"
  | overflow => "OverflowError"
  | argumentCount => "ArgumentError"
  | recursionLimit => "RecursionError"
  | duplicateName => "DuplicateNameError"
  | indexOutOfRange => "IndexError"
  | doubleWait => "WaitError"
  | notThrowable => "ThrowError"
  | scheduler => "SchedulerError"
  | internal => "InternalError"

/-- The message of an error whose class was thrown without one. -/
def defaultMessage : ErrorKind → String
  | general => "error"
  | syntaxError => "syntax error"
  | nameNotDefined => "name is not defined"
  | fieldNotDefined => "field is not defined"
  | invalidType => "invalid type"
  | invalidExpression => "invalid expression"
  | divisionByZero => "division by zero"
  | overflow => "arithmetic overflow"
  | argumentCount => "wrong number of arguments"
  | recursionLimit => "maximum recursion depth exceeded"
  | duplicateName => "name is already defined"
  | indexOutOfRange => "index out of range"
  | doubleWait => "task result was already consumed"
  | notThrowable => "value cannot be thrown"
  | scheduler => "scheduler error"
  | internal => "internal error"

def ofClassName? (name : String) : Option ErrorKind :=
  all.find? fun k => k.className = name

theorem mem_all (k : ErrorKind) : k ∈ all := by
  cases k <;> decide

theorem ofClassName?_className (k : ErrorKind) : ofClassName? k.className = some k := by
  cases k <;> decide

end ErrorKind

end Statute
