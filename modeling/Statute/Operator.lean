/-!
# Operators

The operators of the expression language with their written form and their binding strength.
Prefix operators stand before one operand; the others, apart from field access, stand between two.
Powers associate to the right, everything else to the left.
-/

namespace Statute

/-- An operator of the expression language. -/
inductive Operator where
  | add | sub | mul | div | pow
  | pos | neg
  | gt | lt | ge | le | eq | ne
  | not | and | or
  | dot | wait | background
deriving DecidableEq, Repr, Inhabited

namespace Operator

/-- How tightly an operator binds; more is tighter. -/
def precedence : Operator → Int
  | dot | pow | wait => 7
  | pos | neg => 6
  | mul | div => 5
  | add | sub => 4
  | gt | lt | ge | le | eq | ne => 3
  | not => 2
  | and => 1
  | or => 0
  | background => -1

/-- Whether an operator stands before a single operand. -/
def isUnary : Operator → Bool
  | pos | neg | not | wait | background => true
  | _ => false

def isRightAssoc : Operator → Bool
  | pow => true
  | _ => false

/-- How an operator is written. -/
def symbol : Operator → String
  | add | pos => "+"
  | sub | neg => "-"
  | mul => "*"
  | div => "/"
  | pow => "^"
  | gt => ">"
  | lt => "<"
  | ge => ">="
  | le => "<="
  | eq => "="
  | ne => "!="
  | not => "not"
  | and => "and"
  | or => "or"
  | dot => "."
  | wait => "wait"
  | background => "in background"

end Operator

end Statute
