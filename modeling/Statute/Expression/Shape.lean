import Statute.Expression.Token

/-!
# Well-shaped token lists

Before an expression is turned into postfix form its tokens are checked from outside in: there is at
least one, every bracket has a partner, the last token can end an operand, and each token may stand
after the one before it. The first of these that fails names the fault.
-/

namespace Statute.Token

/-- The brackets left open and the closing brackets without a partner, from the left. -/
def balance : Nat → Nat → List Token → Nat × Nat
  | depth, unmatched, [] => (depth, unmatched)
  | depth, unmatched, .opening :: ts => balance (depth + 1) unmatched ts
  | 0, unmatched, .closing :: ts => balance 0 (unmatched + 1) ts
  | depth + 1, unmatched, .closing :: ts => balance depth unmatched ts
  | depth, unmatched, _ :: ts => balance depth unmatched ts

def canEnd : Token → Bool
  | binary _ | unary _ | opening | comma | dot => false
  | _ => true

def isName : Token → Bool
  | word _ => true
  | _ => false

/-- Whether a token is the point of a field access. -/
def isDot : Token → Bool
  | dot => true
  | _ => false

/-- The fault of a token after the one before it, if there is one. -/
def faultAfter (previous : Option Token) (t : Token) : Option Fault :=
  let afterOperand := previous.any endsOperand
  let afterDot := previous.any isDot
  match t with
  | .binary _ | .comma | .dot =>
      if afterOperand then none
      else match previous with
        | none => some (.startsWith t)
        | some p => some (.cannotFollow t p)
  | .unary _ =>
      if afterOperand then some (.missingOperator t)
      else if afterDot then some (.noFieldName t)
      else none
  | .literal _ =>
      if afterDot then some (.noFieldName t)
      else if afterOperand then some (.missingOperator t)
      else none
  | .opening =>
      if afterDot then some (.noFieldName t)
      else if afterOperand && !previous.any isName then some (.missingOperator t)
      else none
  | .word _ => if afterOperand then some (.missingOperator t) else none
  | .closing =>
      if afterOperand then none
      else match previous with
        | some .opening => none
        | p => some (.closingAfter p)

def firstFault (previous : Option Token) : List Token → Option Fault
  | [] => none
  | t :: ts => faultAfter previous t <|> firstFault (some t) ts

/-- Checks the shape of a token list. -/
def validate (ts : List Token) : Except Fault Unit :=
  match ts.getLast? with
  | none => .error .emptyExpression
  | some final =>
      let (depth, unmatched) := balance 0 0 ts
      if 0 < unmatched then .error (.missingOpening unmatched)
      else if 0 < depth then .error (.missingClosing depth)
      else if !final.canEnd then .error (.endsWith final)
      else match firstFault none ts with
        | some fault => .error fault
        | none => .ok ()

end Statute.Token
