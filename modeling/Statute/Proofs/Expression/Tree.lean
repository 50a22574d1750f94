import Statute.Postfix.Compile

/-!
# Expression trees

An expression as it is meant: operators applied to trees, and operands that stand for themselves,
name something, call it, access a field of another operand or put a tree between brackets. A tree
can be written as tokens and as postfix items.

A tree is `PrecedenceCorrect` when its written form shows no other structure than its own. Only the
operators outside brackets matter for that: the operator at the root of a right operand, and those
along the right edge of a left operand.
-/

namespace Statute

abbrev Operator.Unary := { o : Operator // o.isUnary = true }

/-- An operator that stands between two operands. -/
abbrev Operator.Binary := { o : Operator // o.isUnary = false ∧ o ≠ .dot }

mutual

/-- A part of an expression that no operator can take apart. -/
inductive Primary where
  | literal (l : Literal)
  | name (n : String)
  /-- A call of a name. -/
  | call (n : String) (args : List Tree)
  /-- A field of another operand. -/
  | field (p : Primary) (f : String)
  /-- A call of a method of another operand. -/
  | invoke (p : Primary) (f : String) (args : List Tree)
  /-- A tree between brackets. -/
  | group (t : Tree)

/-- An expression. -/
inductive Tree where
  | operand (p : Primary)
  | unary (o : Operator.Unary) (t : Tree)
  | binary (o : Operator.Binary) (l r : Tree)

end

instance : Inhabited Tree := ⟨.operand (.literal .empty)⟩

/-! ## Written forms -/

mutual

/-- The tokens of an operand. -/
def Primary.tokens : Primary → List Token
  | .literal l => [.literal l]
  | .name n => [.word n]
  | .call n args => .word n :: .opening :: Tree.listTokens args ++ [.closing]
  | .field p f => p.tokens ++ [.dot, .word f]
  | .invoke p f args =>
      p.tokens ++ .dot :: .word f :: .opening :: Tree.listTokens args ++ [.closing]
  | .group t => .opening :: t.tokens ++ [.closing]

/-- The tokens of a tree. -/
def Tree.tokens : Tree → List Token
  | .operand p => p.tokens
  | .unary o t => .unary o :: t.tokens
  | .binary o l r => l.tokens ++ .binary o :: r.tokens

/-- The tokens of arguments, with commas between them. -/
def Tree.listTokens : List Tree → List Token
  | [] => []
  | [t] => t.tokens
  | t :: u :: ts => t.tokens ++ .comma :: Tree.listTokens (u :: ts)

end

mutual

/-- The items of an operand. A deferred operand leaves the call that it comes to undone; a bare name
then stands for a call without arguments. -/
def Primary.items : Bool → Primary → List Item
  | _, .literal l => [.push l.toValue]
  | false, .name n => [.load n]
  | true, .name n => [.args, .call n true]
  | deferred, .call n args => .args :: Tree.listItems args ++ [.call n deferred]
  | _, .field p f => p.items false ++ [.attr f, .op .dot]
  | deferred, .invoke p f args =>
      p.items false ++ .attr f :: .op .dot :: .args :: Tree.listItems args ++ [.invoke deferred]
  | deferred, .group t => t.items deferred

/-- The items of a tree: the operands from left to right, and each operator after what it applies
to. The operand of a scheduling operator is deferred. -/
def Tree.items : Bool → Tree → List Item
  | deferred, .operand p => p.items deferred
  | _, .unary o t => t.items (o.1 = .background) ++ [.op o]
  | _, .binary o l r => l.items false ++ r.items false ++ [.op o]

/-- The items of arguments, one after the other. -/
def Tree.listItems : List Tree → List Item
  | [] => []
  | t :: ts => t.items false ++ Tree.listItems ts

end

/-! ## Precedence -/

namespace Tree

def binaryRoot? : Tree → Option Operator
  | .binary o _ _ => some o
  | _ => none

/-- The operators along the right edge of a tree that stand outside brackets, from the root on. -/
def rightEdge : Tree → List Operator
  | .operand _ => []
  | .unary o t => o :: t.rightEdge
  | .binary o _ r => o :: r.rightEdge

end Tree

mutual

/-- Whether an operand, without the brackets around it, is a call, a method call or a name. -/
def Primary.isSchedulable : Primary → Bool
  | .name _ => true
  | .call _ _ => true
  | .invoke _ _ _ => true
  | .group t => t.isSchedulable
  | _ => false

/-- Whether a tree, without the brackets around it, is a call, a method call or a name. -/
def Tree.isSchedulable : Tree → Bool
  | .operand p => p.isSchedulable
  | _ => false

end

namespace Tree

/-- What an operator asks of the operator at the root of its right operand: to bind more tightly,
unless both are powers. -/
def RootFits (o : Operator) (r : Tree) : Prop :=
  ∀ q ∈ r.binaryRoot?, o.precedence < q.precedence ∨ o = .pow ∧ q = .pow

/-- What an operator asks of the operators along the right edge of its left operand: to bind at
least as tightly, and more tightly where both are powers. -/
def EdgeFits (o : Operator) (l : Tree) : Prop :=
  ∀ q ∈ l.rightEdge, o.precedence ≤ q.precedence ∧
    (o = .pow → q = .pow → o.precedence < q.precedence)

/-- What a prefix operator asks of the operator at the root of its operand: to bind more tightly. -/
def OperandFits (o : Operator) (t : Tree) : Prop :=
  ∀ q ∈ t.binaryRoot?, o.precedence < q.precedence

end Tree

mutual

/-- Every tree inside an operand shows its structure. -/
def Primary.PrecedenceCorrect : Primary → Prop
  | .literal _ => True
  | .name _ => True
  | .call _ args => Tree.AllPrecedenceCorrect args
  | .field p _ => p.PrecedenceCorrect
  | .invoke p _ args => p.PrecedenceCorrect ∧ Tree.AllPrecedenceCorrect args
  | .group t => t.PrecedenceCorrect

/-- A tree whose written form shows its structure, and that schedules nothing but calls. -/
def Tree.PrecedenceCorrect : Tree → Prop
  | .operand p => p.PrecedenceCorrect
  | .unary o t =>
      t.PrecedenceCorrect ∧ Tree.OperandFits o t ∧
        (o.1 = .background → t.isSchedulable = true)
  | .binary o l r =>
      l.PrecedenceCorrect ∧ r.PrecedenceCorrect ∧ Tree.EdgeFits o l ∧ Tree.RootFits o r

/-- All of several trees show their structure. -/
def Tree.AllPrecedenceCorrect : List Tree → Prop
  | [] => True
  | t :: ts => t.PrecedenceCorrect ∧ Tree.AllPrecedenceCorrect ts

end

end Statute
