import Statute.Expression.Literal
import Statute.Operator
import Statute.Text.Letter
import Statute.Text.Numeral

/-!
# Tokens of an expression

The raw tokens of an expression are classified one by one. The quotes of a string literal and all
that stands between them become one literal; a sign is a prefix where an operand has to follow and
an operator between two operands elsewhere; the two words `in background` make one operator.
-/

namespace Statute

/-- A classified token. -/
inductive Token where
  | literal (l : Literal)
  | word (name : String)
  | opening
  | closing
  | comma
  | dot
  | binary (op : Operator)
  | unary (op : Operator)
deriving Inhabited

/-- Why an expression cannot be compiled. -/
inductive Fault where
  | unbalancedQuote
  | inWithoutBackground
  | backgroundWithoutIn
  | number (raw : String) (fault : NumberFault)
  | unrecognized (raw : String)
  | emptyExpression
  | missingOpening (count : Nat)
  | missingClosing (count : Nat)
  | endsWith (token : Token)
  | startsWith (token : Token)
  | cannotFollow (token previous : Token)
  | missingOperator (token : Token)
  | noFieldName (found : Token)
  | closingAfter (previous : Option Token)
  | fieldNameExpected
  | emptyBrackets
  | strayComma
  | backgroundOperand
  | unbalancedClosing
  | unbalancedOpening
deriving Inhabited

namespace Token

def endsOperand : Token → Bool
  | literal _ | word _ | closing => true
  | _ => false

/-- Whether an operand has to follow a token, so that a sign after it is a prefix. -/
def wantsOperand : Token → Bool
  | opening | comma | binary _ | unary _ => true
  | _ => false

/-- A token in messages. -/
def display : Token → String
  | literal l => l.display
  | word name => name
  | opening => "("
  | closing => ")"
  | comma => ","
  | dot => "."
  | binary op => op.symbol
  | unary op => op.symbol

def quoteMark : String := "\""

/-- The operators that always stand between two operands. -/
def infixOf? (raw : String) : Option Operator :=
  if raw = "*" then some .mul
  else if raw = "/" then some .div
  else if raw = "^" then some .pow
  else if raw = ">" then some .gt
  else if raw = "<" then some .lt
  else if raw = ">=" ∨ raw = "≥" then some .ge
  else if raw = "<=" ∨ raw = "≤" then some .le
  else if raw = "=" then some .eq
  else if raw = "!=" ∨ raw = "≠" then some .ne
  else if raw = "and" then some .and
  else if raw = "or" then some .or
  else none

/-- Whether a raw token is a name: a letter or underscore, then letters, numerals and
underscores. -/
def isWord (raw : String) : Bool :=
  match raw.toList with
  | [] => false
  | c :: cs =>
      (Text.isLetter c || c = '_') &&
        cs.all fun d => Text.isLetter d || Text.isNumeral d || d = '_'

/-- Whether a raw token begins with a digit. -/
def startsWithDigit (raw : String) : Bool :=
  match raw.toList with
  | c :: _ => c.isDigit
  | [] => false

/-- The token of a raw token that needs no look at its neighbours. -/
def ofPlain (raw : String) : Except Fault Token :=
  match infixOf? raw with
  | some op => .ok (.binary op)
  | none =>
      if startsWithDigit raw then
        match Literal.readNumber raw with
        | .ok l => .ok (.literal l)
        | .error fault => .error (.number raw fault)
      else if isWord raw then .ok (.word raw)
      else .error (.unrecognized raw)

/-- The token of a single raw token. `operandNext` says that an operand has to come. -/
def single (operandNext : Bool) (raw : String) : Except Fault Token :=
  if raw = "(" then .ok .opening
  else if raw = ")" then .ok .closing
  else if raw = "," then .ok .comma
  else if raw = "." then .ok .dot
  else if raw = "+" then .ok (if operandNext then .unary .pos else .binary .add)
  else if raw = "-" then .ok (if operandNext then .unary .neg else .binary .sub)
  else if raw = "not" then .ok (.unary .not)
  else if raw = "wait" then .ok (.unary .wait)
  else if raw = "background" then .error .backgroundWithoutIn
  else if raw = "true" then .ok (.literal (.bool true))
  else if raw = "false" then .ok (.literal (.bool false))
  else if raw = "empty" then .ok (.literal .empty)
  else ofPlain raw

/-- The string literal after an opening quote, and the raw tokens after its closing quote. -/
def textLiteral (rest : List String) : Except Fault (Token × List String) :=
  match rest.dropWhile (· ≠ quoteMark) with
  | [] => .error .unbalancedQuote
  | _ :: after => .ok (.literal (.text (String.join (rest.takeWhile (· ≠ quoteMark)))), after)

/-- The scheduling operator, whose first word has been read. -/
def scheduling : List String → Except Fault (Token × List String)
  | [] => .error .inWithoutBackground
  | second :: after =>
      if second = "background" then .ok (.unary .background, after)
      else .error .inWithoutBackground

/-- The token that begins with `raw` in front of `rest`, and the raw tokens after it. -/
def next (operandNext : Bool) (raw : String) (rest : List String) :
    Except Fault (Token × List String) :=
  if raw = quoteMark then textLiteral rest
  else if raw = "in" then scheduling rest
  else (single operandNext raw).map fun t => (t, rest)

/-- A string literal consumes at least its closing quote. -/
theorem textLiteral_length_lt {rest : List String} {t : Token} {after : List String}
    (h : textLiteral rest = .ok (t, after)) : after.length < rest.length := by
  unfold textLiteral at h
  split at h
  · contradiction
  · next q r hq =>
      have hle := (List.dropWhile_suffix (l := rest) (· ≠ quoteMark)).length_le
      rw [hq] at hle
      simp only [Except.ok.injEq, Prod.mk.injEq] at h
      exact h.2 ▸ hle

/-- The scheduling operator consumes its second word. -/
theorem scheduling_length_lt {rest : List String} {t : Token} {after : List String}
    (h : scheduling rest = .ok (t, after)) : after.length < rest.length := by
  cases rest with
  | nil => contradiction
  | cons second tail =>
      simp only [scheduling] at h
      split at h
      · simp only [Except.ok.injEq, Prod.mk.injEq] at h
        exact h.2 ▸ Nat.lt_succ_self _
      · contradiction

/-- Classifying a token consumes no more than it was given besides the raw token itself. -/
theorem next_length_le {operandNext : Bool} {raw : String} {rest : List String} {t : Token}
    {after : List String} (h : next operandNext raw rest = .ok (t, after)) :
    after.length ≤ rest.length := by
  unfold next at h
  split at h
  · exact Nat.le_of_lt (textLiteral_length_lt h)
  · split at h
    · exact Nat.le_of_lt (scheduling_length_lt h)
    · cases hs : single operandNext raw with
      | error fault => simp [hs, Except.map] at h
      | ok u =>
          simp only [hs, Except.map, Except.ok.injEq, Prod.mk.injEq] at h
          exact h.2 ▸ Nat.le_refl _

/-- The tokens of a raw token list that follows the token `previous`. -/
def classifyAfter (previous : Option Token) : List String → Except Fault (List Token)
  | [] => .ok []
  | raw :: rest =>
      let operandNext := match previous with
        | none => true
        | some p => p.wantsOperand
      match _consumed : next operandNext raw rest with
      | .error fault => .error fault
      | .ok (t, after) => (classifyAfter (some t) after).map (t :: ·)
termination_by raws => raws.length
decreasing_by exact Nat.lt_succ_of_le (next_length_le _consumed)

theorem classifyAfter_cons (t : Token) {previous : Option Token} {raw : String}
    {rest after : List String}
    (h : next (previous.all wantsOperand) raw rest = .ok (t, after)) :
    classifyAfter previous (raw :: rest) = (classifyAfter (some t) after).map (t :: ·) := by
  cases previous <;>
  · rw [classifyAfter]
    split
    · next hfault => cases h.symm.trans hfault
    · next hok =>
        cases h.symm.trans hok
        rfl

def classify (raws : List String) : Except Fault (List Token) :=
  classifyAfter none raws

end Token

namespace Fault

def counted (count : Nat) (noun : String) : String :=
  toString count ++ " " ++ noun ++ (if count = 1 then "" else "s")

/-- The wording of a fault. -/
def message : Fault → String
  | unbalancedQuote => "unbalanced string quote"
  | inWithoutBackground => "'in' must be followed by 'background'"
  | backgroundWithoutIn => "'background' must be preceded by 'in'"
  | number raw .invalid => "invalid number '" ++ raw ++ "'"
  | number raw .outOfRange => "number '" ++ raw ++ "' is out of range"
  | unrecognized raw => "unrecognized token '" ++ raw ++ "'"
  | emptyExpression => "empty expression"
  | missingOpening count => "missing " ++ counted count "opening bracket" ++ " '('"
  | missingClosing count => "missing " ++ counted count "closing bracket" ++ " ')'"
  | endsWith t => "expression ends with '" ++ t.display ++ "'"
  | startsWith t => "expression starts with '" ++ t.display ++ "'"
  | cannotFollow t p => "'" ++ t.display ++ "' cannot follow '" ++ p.display ++ "'"
  | missingOperator t => "missing operator before '" ++ t.display ++ "'"
  | noFieldName t => "expected a field name after '.', found '" ++ t.display ++ "'"
  | closingAfter p =>
      "')' cannot follow '" ++ (match p with | some t => t.display | none => "") ++ "'"
  | fieldNameExpected => "expected a field name after '.'"
  | emptyBrackets => "empty brackets '()'"
  | strayComma => "',' is only allowed between call arguments"
  | backgroundOperand => "'in background' must be applied to a call"
  | unbalancedClosing => "unbalanced ')'"
  | unbalancedOpening => "unbalanced '('"

end Fault

end Statute
