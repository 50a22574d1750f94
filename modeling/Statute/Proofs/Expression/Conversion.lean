import Statute.Proofs.Expression.Reading

/-!
# Conversion to postfix form

The conversion of tokens to postfix items keeps of what waits only the operators and brackets, and
writes out the items of everything else at once. It therefore follows the reader of trees step by
step: `Opened.pending` says what is kept and `Reader.items` what has been written. Where the shape
of the tokens has been checked the two accept the same tokens, so the conversion succeeds exactly on
the tokens of precedence-correct trees, and writes the items of the tree.
-/

namespace Statute

def Callee.items : Callee → List Item
  | .name _ => [.args]
  | .method p f => p.items false ++ [.attr f, .op .dot, .args]

namespace Opened

/-- What the conversion keeps of something that waits. -/
def pending : Opened → Pending
  | .unary o => .op o
  | .binary o _ => .op o
  | .group => .group
  | .args (.name n) _ => .call n
  | .args (.method _ _) _ => .invoke

/-- What the conversion has written for all that waits, latest first. -/
def items : List Opened → List Item
  | [] => []
  | .unary _ :: zs => items zs
  | .binary _ l :: zs => (l.items false).reverse ++ items zs
  | .group :: zs => items zs
  | .args c done :: zs => (Tree.listItems done).reverse ++ c.items.reverse ++ items zs

end Opened

/-- What the conversion has written, latest first. -/
def Reader.items (r : Reader) : List Item :=
  match r.position with
  | .before => Opened.items r.opened
  | .after p => (p.items false).reverse ++ Opened.items r.opened
  | .field p => (p.items false).reverse ++ Opened.items r.opened

theorem Tree.listItems_concat (t : Tree) (done : List Tree) :
    Tree.listItems (done ++ [t]) = Tree.listItems done ++ t.items false := by
  induction done with
  | nil => simp [Tree.listItems]
  | cons u done ih => simp [Tree.listItems, ih]

/-! ## Writing out operators -/

mutual

theorem Primary.emit_background (out : List Item) :
    ∀ p : Primary, Pending.emit ((p.items false).reverse ++ out) .background =
      if p.isSchedulable then .ok (.op .background :: (p.items true).reverse ++ out)
      else .error .backgroundOperand
  | .literal l => by simp [Primary.items, Pending.emit, Primary.isSchedulable]
  | .name n => by simp [Primary.items, Pending.emit, Primary.isSchedulable]
  | .call n args => by simp [Primary.items, Pending.emit, Primary.isSchedulable]
  | .field p f => by simp [Primary.items, Pending.emit, Primary.isSchedulable]
  | .invoke p f args => by simp [Primary.items, Pending.emit, Primary.isSchedulable]
  | .group t => Tree.emit_background out t

/-- Scheduling turns the call just written into its deferred form, if there is one. -/
theorem Tree.emit_background (out : List Item) :
    ∀ t : Tree, Pending.emit ((t.items false).reverse ++ out) .background =
      if t.isSchedulable then .ok (.op .background :: (t.items true).reverse ++ out)
      else .error .backgroundOperand
  | .operand p => Primary.emit_background out p
  | .unary o t => by simp [Tree.items, Pending.emit, Tree.isSchedulable]
  | .binary o l r => by simp [Tree.items, Pending.emit, Tree.isSchedulable]

end

theorem Tree.emit_unary (o : Operator.Unary) (t : Tree) (out : List Item) :
    Pending.emit ((t.items false).reverse ++ out) o =
      if o.1 = .background ∧ t.isSchedulable = false then .error .backgroundOperand
      else .ok (((Tree.unary o t).items false).reverse ++ out) := by
  by_cases ho : o.1 = .background
  · rw [ho, Tree.emit_background]
    cases t.isSchedulable <;> simp [Tree.items, ho]
  · simp [Pending.emit, ho, Tree.items]

theorem Tree.emit_binary (o : Operator.Binary) (l r : Tree) (out : List Item) :
    Pending.emit ((r.items false).reverse ++ ((l.items false).reverse ++ out)) o =
      .ok (((Tree.binary o l r).items false).reverse ++ out) := by
  simp [Pending.emit, o.ne_background, Tree.items]

/-! ## Releasing operators

Each of the four loops of the conversion releases operators as `Opened.settle` does. -/

namespace Pending

open Opened (settle)

theorem release_map_pending (o : Operator) (zs : List Opened) (t : Tree) :
    (release o (zs.map Opened.pending) ((t.items false).reverse ++ Opened.items zs)).toOption =
      (settle (yieldsTo · o) zs t).map fun (zs, t) =>
        (zs.map Opened.pending, (t.items false).reverse ++ Opened.items zs) := by
  fun_induction settle (yieldsTo · o) zs t with
  | case1 u zs t hy hs =>
      simp only [List.map_cons, Opened.pending, release, hy, if_true, Opened.items,
        Tree.emit_unary, if_pos hs]
      rfl
  | case2 u zs t hy hs ih =>
      simp only [List.map_cons, Opened.pending, release, hy, if_true, Opened.items,
        Tree.emit_unary, if_neg hs]
      exact ih
  | case3 u zs t hy =>
      simp only [List.map_cons, Opened.pending, release, hy, Opened.items]
      rfl
  | case4 u l zs t hy ih =>
      simp only [List.map_cons, Opened.pending, release, hy, if_true, Opened.items,
        Tree.emit_binary]
      exact ih
  | case5 u l zs t hy =>
      simp only [List.map_cons, Opened.pending, release, hy, Opened.items]
      rfl
  | case6 zs t hu hb =>
      cases zs with
      | nil => rfl
      | cons z zs =>
          cases z with
          | unary u => exact absurd rfl (hu u zs)
          | binary u l => exact absurd rfl (hb u l zs)
          | group => rfl
          | args c done => cases c <;> rfl

/-- A loop that writes out every operator up to a bracket. -/
theorem toOption_of_emits {α : Type} {loop : List Pending → List Item → Except Fault α}
    (hloop : ∀ top ps out, loop (.op top :: ps) out = (emit out top).bind (loop ps))
    (zs : List Opened) (t : Tree) :
    (loop (zs.map Opened.pending) ((t.items false).reverse ++ Opened.items zs)).toOption =
      (settle (fun _ => true) zs t).bind fun (zs, t) =>
        (loop (zs.map Opened.pending) ((t.items false).reverse ++ Opened.items zs)).toOption := by
  fun_induction settle (fun _ => true) zs t with
  | case1 u zs t _ hs =>
      simp only [List.map_cons, Opened.pending, hloop, Opened.items, Tree.emit_unary, if_pos hs]
      rfl
  | case2 u zs t _ hs ih =>
      simp only [List.map_cons, Opened.pending, hloop, Opened.items, Tree.emit_unary, if_neg hs]
      exact ih
  | case3 u zs t hy => contradiction
  | case4 u l zs t _ ih =>
      simp only [List.map_cons, Opened.pending, hloop, Opened.items, Tree.emit_binary]
      exact ih
  | case5 u l zs t hy => contradiction
  | case6 zs t _ _ => rfl

theorem closeBracket_map_pending (zs : List Opened) (t : Tree) :
    (closeBracket (zs.map Opened.pending) ((t.items false).reverse ++ Opened.items zs)).toOption =
      ((settle (fun _ => true) zs t).bind Opened.close).map fun r =>
        (r.opened.map Opened.pending, r.items) := by
  rw [toOption_of_emits (fun _ _ _ => rfl)]
  cases hs : settle (fun _ => true) zs t with
  | none => rfl
  | some x =>
      obtain ⟨zs', t'⟩ := x
      rcases Opened.settle_all_cases hs with rfl | ⟨rest, rfl⟩ | ⟨c, done, rest, rfl⟩
      · rfl
      · rfl
      · cases c <;>
          simp [Opened.pending, closeBracket, Opened.close, Reader.items, Callee.apply,
            Primary.items, Opened.items, Callee.items, Tree.listItems_concat, Except.toOption]

theorem endArgument_map_pending (zs : List Opened) (t : Tree) :
    (endArgument (zs.map Opened.pending) ((t.items false).reverse ++ Opened.items zs)).toOption =
      ((settle (fun _ => true) zs t).bind Opened.endArgument).map fun r =>
        (r.opened.map Opened.pending, r.items) := by
  rw [toOption_of_emits (fun _ _ _ => rfl)]
  cases hs : settle (fun _ => true) zs t with
  | none => rfl
  | some x =>
      obtain ⟨zs', t'⟩ := x
      rcases Opened.settle_all_cases hs with rfl | ⟨rest, rfl⟩ | ⟨c, done, rest, rfl⟩
      · rfl
      · rfl
      · cases c <;>
          simp [Opened.pending, endArgument, Opened.endArgument, Reader.items, Opened.items,
            Tree.listItems_concat, Except.toOption]

theorem drain_map_pending (zs : List Opened) (t : Tree) :
    (drain (zs.map Opened.pending) ((t.items false).reverse ++ Opened.items zs)).toOption =
      ((settle (fun _ => true) zs t).bind Opened.only).map fun t => (t.items false).reverse := by
  rw [toOption_of_emits (fun _ _ _ => rfl)]
  cases hs : settle (fun _ => true) zs t with
  | none => rfl
  | some x =>
      obtain ⟨zs', t'⟩ := x
      rcases Opened.settle_all_cases hs with rfl | ⟨rest, rfl⟩ | ⟨c, done, rest, rfl⟩
      · simp [drain, Opened.only, Opened.items, Except.toOption]
      · rfl
      · cases c <;> rfl

end Pending

end Statute
