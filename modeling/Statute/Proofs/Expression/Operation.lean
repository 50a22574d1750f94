import Statute.Proofs.Expression.Tree

/-!
# Operations of an expression

A binary operator and a call have in common that they take several operands. Their operands are
evaluated from left to right, in the case of a call after a mark, and then a single item takes all
of them. Wherever an operation is in a tree, its items are among the items of the tree, one after
the other.

An operand that accesses a field stands out, with or without brackets around it: what it leaves is
not the value of the field.
-/

namespace Statute

/-- What takes several operands: a binary operator, a call of a name, and a call of what is below
the operands. A call may be deferred. -/
inductive Operation where
  | binary (o : Operator.Binary) (l r : Tree)
  | call (n : String) (deferred : Bool) (args : List Tree)
  | invoke (deferred : Bool) (args : List Tree)

namespace Operation

/-- The operands, from left to right. -/
def operands : Operation → List Tree
  | binary _ l r => [l, r]
  | call _ _ args => args
  | invoke _ args => args

def opening : Operation → List Item
  | binary _ _ _ => []
  | _ => [.args]

/-- The item that takes the operands. -/
def taker : Operation → Item
  | binary o _ _ => .op o
  | call n deferred _ => .call n deferred
  | invoke deferred _ => .invoke deferred

def items (op : Operation) : List Item :=
  op.opening ++ Tree.listItems op.operands ++ [op.taker]

end Operation

/-! ## Operations inside a tree -/

mutual

/-- The operations inside an operand. -/
def Primary.operations : Bool → Primary → List Operation
  | _, .literal _ => []
  | _, .name _ => []
  | deferred, .call n args => .call n deferred args :: Tree.listOperations args
  | _, .field p _ => p.operations false
  | deferred, .invoke p _ args =>
      .invoke deferred args :: (p.operations false ++ Tree.listOperations args)
  | deferred, .group t => t.operations deferred

/-- The operations inside a tree. -/
def Tree.operations : Bool → Tree → List Operation
  | deferred, .operand p => p.operations deferred
  | _, .unary o t => t.operations (o.1 = .background)
  | _, .binary o l r => .binary o l r :: (l.operations false ++ r.operations false)

def Tree.listOperations : List Tree → List Operation
  | [] => []
  | t :: ts => t.operations false ++ Tree.listOperations ts

end

theorem Tree.listItems_append (ts us : List Tree) :
    Tree.listItems (ts ++ us) = Tree.listItems ts ++ Tree.listItems us := by
  induction ts with
  | nil => rfl
  | cons t ts ih => rw [List.cons_append, Tree.listItems, Tree.listItems, ih, List.append_assoc]

mutual

theorem Primary.infix_items {op : Operation} {d : Bool} (p : Primary)
    (h : op ∈ p.operations d) : op.items <:+: p.items d := by
  cases p with
  | literal l => simp [Primary.operations] at h
  | name n => simp [Primary.operations] at h
  | call n args =>
      rw [Primary.items]
      rcases List.mem_cons.mp (by rwa [Primary.operations] at h) with rfl | h
      · exact List.infix_rfl
      · refine (Tree.infix_listItems args h).trans ?_
        exact ⟨[.args], [.call n d], rfl⟩
  | field p f =>
      rw [Primary.operations] at h
      rw [Primary.items]
      exact (Primary.infix_items p h).trans ⟨[], _, rfl⟩
  | invoke p f args =>
      rw [Primary.items]
      rw [Primary.operations, List.mem_cons, List.mem_append] at h
      rcases h with rfl | h | h
      · exact ⟨p.items false ++ [.attr f, .op .dot], [], by simp [Operation.items,
          Operation.opening, Operation.operands, Operation.taker]⟩
      · refine (Primary.infix_items p h).trans ?_
        exact ⟨[], .attr f :: .op .dot :: .args :: Tree.listItems args ++ [.invoke d], by simp⟩
      · refine (Tree.infix_listItems args h).trans ?_
        exact ⟨p.items false ++ [.attr f, .op .dot, .args], [.invoke d], by simp⟩
  | group t =>
      rw [Primary.operations] at h
      rw [Primary.items]
      exact Tree.infix_items t h

/-- The items of an operation are next to each other among the items of the tree. -/
theorem Tree.infix_items {op : Operation} {d : Bool} (t : Tree) (h : op ∈ t.operations d) :
    op.items <:+: t.items d := by
  cases t with
  | operand p =>
      rw [Tree.operations] at h
      rw [Tree.items]
      exact Primary.infix_items p h
  | unary o t =>
      rw [Tree.operations] at h
      rw [Tree.items]
      exact (Tree.infix_items t h).trans ⟨[], _, rfl⟩
  | binary o l r =>
      rw [Tree.items]
      rw [Tree.operations, List.mem_cons, List.mem_append] at h
      rcases h with rfl | h | h
      · exact ⟨[], [], by simp [Operation.items, Operation.opening, Operation.operands,
          Operation.taker, Tree.listItems]⟩
      · exact (Tree.infix_items l h).trans ⟨[], r.items false ++ [.op o], by simp⟩
      · exact (Tree.infix_items r h).trans ⟨l.items false, [.op o], rfl⟩

theorem Tree.infix_listItems {op : Operation} (ts : List Tree) (h : op ∈ Tree.listOperations ts) :
    op.items <:+: Tree.listItems ts := by
  cases ts with
  | nil => simp [Tree.listOperations] at h
  | cons t ts =>
      rw [Tree.listItems]
      rw [Tree.listOperations, List.mem_append] at h
      rcases h with h | h
      · exact (Tree.infix_items t h).trans (List.infix_append' [] _ _)
      · exact (Tree.infix_listItems ts h).trans ⟨t.items false, [], by simp⟩

end

mutual

theorem Primary.allPrecedenceCorrect {op : Operation} {d : Bool} (p : Primary)
    (hp : p.PrecedenceCorrect) (h : op ∈ p.operations d) :
    Tree.AllPrecedenceCorrect op.operands := by
  cases p with
  | literal l => simp [Primary.operations] at h
  | name n => simp [Primary.operations] at h
  | call n args =>
      rw [Primary.PrecedenceCorrect] at hp
      rcases List.mem_cons.mp (by rwa [Primary.operations] at h) with rfl | h
      · exact hp
      · exact Tree.allPrecedenceCorrect_list args hp h
  | field p f =>
      rw [Primary.PrecedenceCorrect] at hp
      rw [Primary.operations] at h
      exact Primary.allPrecedenceCorrect p hp h
  | invoke p f args =>
      rw [Primary.PrecedenceCorrect] at hp
      rw [Primary.operations, List.mem_cons, List.mem_append] at h
      rcases h with rfl | h | h
      · exact hp.2
      · exact Primary.allPrecedenceCorrect p hp.1 h
      · exact Tree.allPrecedenceCorrect_list args hp.2 h
  | group t =>
      rw [Primary.PrecedenceCorrect] at hp
      rw [Primary.operations] at h
      exact Tree.allPrecedenceCorrect t hp h

/-- The operands of the operations in a precedence-correct tree are such trees themselves. -/
theorem Tree.allPrecedenceCorrect {op : Operation} {d : Bool} (t : Tree)
    (ht : t.PrecedenceCorrect) (h : op ∈ t.operations d) :
    Tree.AllPrecedenceCorrect op.operands := by
  cases t with
  | operand p =>
      rw [Tree.PrecedenceCorrect] at ht
      rw [Tree.operations] at h
      exact Primary.allPrecedenceCorrect p ht h
  | unary o t =>
      rw [Tree.PrecedenceCorrect] at ht
      rw [Tree.operations] at h
      exact Tree.allPrecedenceCorrect t ht.1 h
  | binary o l r =>
      rw [Tree.PrecedenceCorrect] at ht
      rw [Tree.operations, List.mem_cons, List.mem_append] at h
      rcases h with rfl | h | h
      · simp only [Operation.operands, Tree.AllPrecedenceCorrect, and_true]
        exact ⟨ht.1, ht.2.1⟩
      · exact Tree.allPrecedenceCorrect l ht.1 h
      · exact Tree.allPrecedenceCorrect r ht.2.1 h

theorem Tree.allPrecedenceCorrect_list {op : Operation} (ts : List Tree)
    (hts : Tree.AllPrecedenceCorrect ts) (h : op ∈ Tree.listOperations ts) :
    Tree.AllPrecedenceCorrect op.operands := by
  cases ts with
  | nil => simp [Tree.listOperations] at h
  | cons t ts =>
      rw [Tree.AllPrecedenceCorrect] at hts
      rw [Tree.listOperations, List.mem_append] at h
      rcases h with h | h
      · exact Tree.allPrecedenceCorrect t hts.1 h
      · exact Tree.allPrecedenceCorrect_list ts hts.2 h

end

theorem Tree.allPrecedenceCorrect_iff {ts : List Tree} :
    Tree.AllPrecedenceCorrect ts ↔ ∀ t ∈ ts, t.PrecedenceCorrect := by
  induction ts with
  | nil => simp [Tree.AllPrecedenceCorrect]
  | cons t ts ih => simp [Tree.AllPrecedenceCorrect, ih]

/-! ## Accesses of fields -/

mutual

/-- The field that an operand accesses. -/
def Primary.field? : Primary → Option String
  | .field _ f => some f
  | .group t => t.field?
  | _ => none

/-- The field that a tree accesses, without the brackets around it. -/
def Tree.field? : Tree → Option String
  | .operand p => p.field?
  | _ => none

end

end Statute
