import Statute.Proofs.Expression.Reader

/-!
# Reading undoes writing

Read from the left, the tokens of a precedence-correct tree leave its right edge waiting: the
operators along the edge with their left operands, and the last operand, which has just been read.
Whatever comes next settles as much of the edge as yields to it. This gives back the tree from its
own tokens.

Conversely whatever a reader holds is correct on its own, and its tokens are those that were read.
-/

namespace Statute

namespace Tree

/-- What waits when a tree has just been read: the operators along its right edge, latest first. -/
def spine : Tree → List Opened
  | .operand _ => []
  | .unary o t => t.spine ++ [.unary o]
  | .binary o l r => r.spine ++ [.binary o l]

/-- The operand at the right end of a tree. -/
def lastOperand : Tree → Primary
  | .operand p => p
  | .unary _ t => t.lastOperand
  | .binary _ _ r => r.lastOperand

end Tree

namespace Opened

/-- The operator of what waits, unless it is a bracket. -/
def operator? : Opened → Option Operator
  | .unary o => some o
  | .binary o _ => some o
  | _ => none

/-- The latest of what waits makes the operator `o` wait too, instead of yielding to it. -/
def Admits (zs : List Opened) (o : Operator) : Prop :=
  ∀ top ∈ zs.head?.bind operator?, Pending.yieldsTo top o = false

theorem admits_unary_iff (u : Operator.Unary) (zs : List Opened) (o : Operator) :
    Admits (.unary u :: zs) o ↔ Pending.yieldsTo u o = false := by
  simp [Admits, operator?]

theorem admits_binary_iff (q : Operator.Binary) (l : Tree) (zs : List Opened) (o : Operator) :
    Admits (.binary q l :: zs) o ↔ Pending.yieldsTo q o = false := by
  simp [Admits, operator?]

theorem admits_group (zs : List Opened) (o : Operator) : Admits (.group :: zs) o := by
  simp [Admits, operator?]

theorem admits_args (c : Callee) (done : List Tree) (zs : List Opened) (o : Operator) :
    Admits (.args c done :: zs) o := by
  simp [Admits, operator?]

/-- Operators along the right edge of a tree that comes next are admitted with the one after it. -/
theorem Admits.of_edgeFits {zs : List Opened} {o : Operator.Binary} {l : Tree}
    (h : Admits zs o) (hl : l.EdgeFits o) {q : Operator} (hq : q ∈ l.binaryRoot?) :
    Admits zs q := by
  intro top htop
  have hkind : top.isUnary = true ∨ top ≠ .dot := by
    obtain ⟨z, -, hz⟩ := Option.bind_eq_some_iff.mp htop
    cases z with
    | unary u =>
        obtain rfl := Option.some.inj hz
        exact Or.inl u.2
    | binary u _ =>
        obtain rfl := Option.some.inj hz
        exact Or.inr u.2.2
    | group => cases hz
    | args c done => cases hz
  have hle := (hl q (Tree.mem_rightEdge_of_mem_binaryRoot? hq)).1
  exact Pending.yieldsTo_eq_false_of_le o ⟨q, Tree.mem_binaryRoot? hq⟩ hkind hle (h top htop)

/-! ## Settling -/

/-- What waits for a tree that has just been read turns into that tree, if its right edge yields. -/
theorem settle_spine (yields : Operator → Bool) (zs : List Opened) :
    ∀ t : Tree, t.PrecedenceCorrect → (∀ q ∈ t.rightEdge, yields q = true) →
      settle yields (t.spine ++ zs) (.operand t.lastOperand) = settle yields zs t
  | .operand p, _, _ => rfl
  | .unary o t, ht, hy => by
      have ih := settle_spine yields (.unary o :: zs) t ht.1
        fun q hq => hy q (List.mem_cons_of_mem _ hq)
      have hschedule : ¬ (o.1 = .background ∧ t.isSchedulable = false) := by
        rintro ⟨ho, hf⟩
        rw [ht.2.2 ho] at hf
        contradiction
      rw [Tree.spine, Tree.lastOperand, List.append_assoc, List.singleton_append, ih, settle,
        if_pos (hy o List.mem_cons_self), if_neg hschedule]
  | .binary o l r, ht, hy => by
      have ih := settle_spine yields (.binary o l :: zs) r ht.2.1
        fun q hq => hy q (List.mem_cons_of_mem _ hq)
      rw [Tree.spine, Tree.lastOperand, List.append_assoc, List.singleton_append, ih, settle,
        if_pos (hy o List.mem_cons_self)]

/-- Settling stops at a bracket, at an operator that does not yield, or at the end. -/
theorem settle_stops {yields : Operator → Bool} {zs zs' : List Opened} {t t' : Tree}
    (h : settle yields zs t = some (zs', t')) :
    ∀ top ∈ zs'.head?.bind operator?, yields top = false := by
  fun_induction settle yields zs t with
  | case1 => contradiction
  | case2 _ _ _ _ _ ih => exact ih h
  | case3 o zs t hy =>
      obtain ⟨rfl, rfl⟩ := Prod.mk.inj (Option.some.inj h)
      simpa [operator?] using hy
  | case4 _ _ _ _ _ ih => exact ih h
  | case5 o l zs t hy =>
      obtain ⟨rfl, rfl⟩ := Prod.mk.inj (Option.some.inj h)
      simpa [operator?] using hy
  | case6 zs t hu hb =>
      obtain ⟨rfl, rfl⟩ := Prod.mk.inj (Option.some.inj h)
      intro top htop
      cases zs with
      | nil => cases htop
      | cons z zs =>
          cases z with
          | unary o => exact absurd rfl (hu o zs)
          | binary o l => exact absurd rfl (hb o l zs)
          | group => cases htop
          | args c done => cases htop

/-- Settling everything stops at a bracket or at the end. -/
theorem settle_all_cases {zs zs' : List Opened} {t t' : Tree}
    (h : settle (fun _ => true) zs t = some (zs', t')) :
    zs' = [] ∨ (∃ rest, zs' = .group :: rest) ∨ ∃ c done rest, zs' = .args c done :: rest := by
  have hstops := settle_stops h
  cases zs' with
  | nil => exact Or.inl rfl
  | cons z zs' =>
      cases z with
      | unary o => exact absurd (hstops o rfl) (by simp)
      | binary o l => exact absurd (hstops o rfl) (by simp)
      | group => exact Or.inr (Or.inl ⟨zs', rfl⟩)
      | args c done => exact Or.inr (Or.inr ⟨c, done, zs', rfl⟩)

/-- Nothing settles if the latest of what waits does not yield. -/
theorem settle_eq_self {yields : Operator → Bool} {zs : List Opened}
    (h : ∀ top ∈ zs.head?.bind operator?, yields top = false) (t : Tree) :
    settle yields zs t = some (zs, t) := by
  cases zs with
  | nil => rfl
  | cons z zs =>
      cases z with
      | unary o => simp [settle, h o (by simp [operator?])]
      | binary o l => simp [settle, h o (by simp [operator?])]
      | group => rfl
      | args c done => rfl

theorem settle_all_spine {zs : List Opened} (hz : zs.head?.bind operator? = none) {t : Tree}
    (ht : t.PrecedenceCorrect) :
    settle (fun _ => true) (t.spine ++ zs) (.operand t.lastOperand) = some (zs, t) := by
  rw [settle_spine _ _ t ht fun _ _ => rfl]
  exact settle_eq_self (by simp [hz]) t

end Opened

/-! ## Reading what was written -/

theorem Reader.foldlM_append (r : Reader) (ts us : List Token) :
    (ts ++ us).foldlM Reader.step r = (ts.foldlM Reader.step r).bind (us.foldlM Reader.step ·) :=
  List.foldlM_append

theorem Reader.foldlM_cons (r : Reader) (t : Token) (ts : List Token) :
    (t :: ts).foldlM Reader.step r = (r.step t).bind (ts.foldlM Reader.step ·) :=
  List.foldlM_cons

theorem Reader.foldlM_singleton (r : Reader) (t : Token) :
    [t].foldlM Reader.step r = r.step t := by
  rw [Reader.foldlM_cons]
  cases r.step t <;> rfl

mutual

/-- Reading the tokens of an operand leaves the reader after that operand. -/
theorem Primary.foldlM_tokens (zs : List Opened) :
    ∀ p : Primary, p.PrecedenceCorrect →
      p.tokens.foldlM Reader.step ⟨zs, .before⟩ = some ⟨zs, .after p⟩
  | .literal l, _ => rfl
  | .name n, _ => rfl
  | .call n args, h => Tree.foldlM_listTokens (.name n) zs [] args h (fun _ => rfl)
  | .field p f, h => by
      rw [Primary.tokens, Reader.foldlM_append, Primary.foldlM_tokens zs p h]
      rfl
  | .invoke p f args, h => by
      have hargs := Tree.foldlM_listTokens (.method p f) zs [] args h.2 (fun _ => rfl)
      rw [Primary.tokens, List.append_assoc, Reader.foldlM_append,
        Primary.foldlM_tokens zs p h.1]
      exact hargs
  | .group t, h => by
      have ht := Tree.foldlM_tokens (.group :: zs) t h fun q _ => Opened.admits_group zs q
      have hopen : (Primary.group t).tokens.foldlM Reader.step ⟨zs, .before⟩ =
          (t.tokens ++ [Token.closing]).foldlM Reader.step ⟨.group :: zs, .before⟩ := rfl
      have hsettle : Opened.settle (fun _ => true) (t.spine ++ .group :: zs)
          (.operand t.lastOperand) = some (.group :: zs, t) := Opened.settle_all_spine rfl h
      rw [hopen, Reader.foldlM_append, ht, Option.bind_some, Reader.foldlM_singleton,
        Reader.step_closing, hsettle]
      rfl

/-- Reading the tokens of a tree leaves its right edge waiting and the reader after its last
operand. -/
theorem Tree.foldlM_tokens (zs : List Opened) :
    ∀ t : Tree, t.PrecedenceCorrect → (∀ q ∈ t.binaryRoot?, Opened.Admits zs q) →
      t.tokens.foldlM Reader.step ⟨zs, .before⟩ = some ⟨t.spine ++ zs, .after t.lastOperand⟩
  | .operand p, h, _ => Primary.foldlM_tokens zs p h
  | .unary o t, h, _ => by
      have hfits := (Tree.operandFits_iff o t).mp h.2.1
      have ht := Tree.foldlM_tokens (.unary o :: zs) t h.1 fun q hq =>
        (Opened.admits_unary_iff o zs q).mpr (hfits q hq)
      rw [Tree.tokens, Reader.foldlM_cons, Reader.step_unary, Option.bind_some, ht, Tree.spine,
        List.append_assoc]
      rfl
  | .binary o l r, h, hz => by
      obtain ⟨hl, hr, hedge, hroot⟩ := h
      have hadmits : Opened.Admits zs o := hz o rfl
      have hleft := Tree.foldlM_tokens zs l hl fun q hq => hadmits.of_edgeFits hedge hq
      have hright := Tree.foldlM_tokens (.binary o l :: zs) r hr fun q hq =>
        (Opened.admits_binary_iff o l zs q).mpr ((Tree.rootFits_iff o r).mp hroot q hq)
      have hsettle : Opened.settle (Pending.yieldsTo · o) (l.spine ++ zs)
          (.operand l.lastOperand) = some (zs, l) := by
        rw [Opened.settle_spine _ _ l hl ((Tree.edgeFits_iff o l).mp hedge)]
        exact Opened.settle_eq_self hadmits l
      rw [Tree.tokens, Reader.foldlM_append, hleft, Option.bind_some, Reader.foldlM_cons,
        Reader.step_binary, hsettle, Option.map_some, Option.bind_some, hright, Tree.spine,
        List.append_assoc]
      rfl

/-- Reading the tokens of arguments and the closing bracket ends the call. -/
theorem Tree.foldlM_listTokens (c : Callee) (zs : List Opened) (done : List Tree) :
    ∀ args : List Tree, Tree.AllPrecedenceCorrect args → (args = [] → done = []) →
      (Tree.listTokens args ++ [Token.closing]).foldlM Reader.step ⟨.args c done :: zs, .before⟩ =
        some ⟨zs, .after (c.apply (done ++ args))⟩
  | [], _, hdone => by
      rw [hdone rfl]
      rfl
  | [t], h, _ => by
      have ht := Tree.foldlM_tokens (.args c done :: zs) t h.1 fun q _ =>
        Opened.admits_args c done zs q
      have hsettle : Opened.settle (fun _ => true) (t.spine ++ .args c done :: zs)
          (.operand t.lastOperand) = some (.args c done :: zs, t) :=
        Opened.settle_all_spine rfl h.1
      rw [Tree.listTokens, Reader.foldlM_append, ht, Option.bind_some, Reader.foldlM_singleton,
        Reader.step_closing, hsettle]
      rfl
  | t :: u :: ts, h, _ => by
      have ht := Tree.foldlM_tokens (.args c done :: zs) t h.1 fun q _ =>
        Opened.admits_args c done zs q
      have hsettle : Opened.settle (fun _ => true) (t.spine ++ .args c done :: zs)
          (.operand t.lastOperand) = some (.args c done :: zs, t) :=
        Opened.settle_all_spine rfl h.1
      have hrest := Tree.foldlM_listTokens c zs (done ++ [t]) (u :: ts) h.2 (by simp)
      rw [List.append_assoc, List.singleton_append] at hrest
      rw [Tree.listTokens, List.append_assoc, Reader.foldlM_append, ht, Option.bind_some,
        List.cons_append, Reader.foldlM_cons, Reader.step_comma, hsettle, ← hrest]
      rfl

end

/-- Reading gives back every precedence-correct tree from its tokens. -/
theorem Tree.read?_tokens {t : Tree} (h : t.PrecedenceCorrect) : Tree.read? t.tokens = some t := by
  have ht := Tree.foldlM_tokens [] t h fun q _ => by simp [Opened.Admits]
  have hsettle : Opened.settle (fun _ => true) (t.spine ++ []) (.operand t.lastOperand) =
      some ([], t) := Opened.settle_all_spine rfl h
  rw [Tree.read?, Reader.start, ht, Option.bind_some, Reader.finish_after, hsettle]
  rfl

/-! ## Writing what was read -/

theorem Tree.listTokens_concat (t : Tree) :
    ∀ done : List Tree,
      Tree.listTokens (done ++ [t]) = done.flatMap (·.tokens ++ [.comma]) ++ t.tokens
  | [] => rfl
  | [u] => by simp [Tree.listTokens]
  | u :: v :: done => by
      have ih := Tree.listTokens_concat t (v :: done)
      simp only [List.cons_append, List.flatMap_cons, Tree.listTokens] at ih ⊢
      rw [ih]
      simp

namespace Callee

theorem apply_tokens (c : Callee) (args : List Tree) :
    (c.apply args).tokens = c.tokens ++ Tree.listTokens args ++ [.closing] := by
  cases c <;> simp [apply, tokens, Primary.tokens]

theorem apply_precedenceCorrect {c : Callee} (hc : c.PrecedenceCorrect) {args : List Tree}
    (hargs : Tree.AllPrecedenceCorrect args) : (c.apply args).PrecedenceCorrect := by
  cases c with
  | name n => exact hargs
  | method p f => exact ⟨hc, hargs⟩

end Callee

namespace Opened

/-- What was written for something that waits. -/
def tokens : Opened → List Token
  | .unary o => [.unary o]
  | .binary o l => l.tokens ++ [.binary o]
  | .group => [.opening]
  | .args c done => c.tokens ++ done.flatMap (·.tokens ++ [.comma])

/-- What was written for all that waits. -/
def stackTokens : List Opened → List Token
  | [] => []
  | z :: zs => stackTokens zs ++ z.tokens

/-- Settling keeps what was written. -/
theorem settle_tokens {yields : Operator → Bool} {zs zs' : List Opened} {t t' : Tree}
    (h : settle yields zs t = some (zs', t')) :
    stackTokens zs' ++ t'.tokens = stackTokens zs ++ t.tokens := by
  fun_induction settle yields zs t with
  | case1 => contradiction
  | case2 o zs t _ _ ih =>
      rw [ih h]
      simp [stackTokens, tokens, Tree.tokens]
  | case3 o zs t _ =>
      obtain ⟨rfl, rfl⟩ := Prod.mk.inj (Option.some.inj h)
      rfl
  | case4 o l zs t _ ih =>
      rw [ih h]
      simp [stackTokens, tokens, Tree.tokens]
  | case5 o l zs t _ =>
      obtain ⟨rfl, rfl⟩ := Prod.mk.inj (Option.some.inj h)
      rfl
  | case6 zs t _ _ =>
      obtain ⟨rfl, rfl⟩ := Prod.mk.inj (Option.some.inj h)
      rfl

end Opened

/-- What was written for where the reader stands. -/
def Position.tokens : Position → List Token
  | .before => []
  | .after p => p.tokens
  | .field p => p.tokens ++ [.dot]

namespace Reader

def tokens (r : Reader) : List Token :=
  Opened.stackTokens r.opened ++ r.position.tokens

/-- Each step of a reader takes up one token. -/
theorem Reads.tokens {r r' : Reader} {token : Token} (h : Reads r token r') :
    r'.tokens = r.tokens ++ [token] := by
  cases h with
  | literal zs l => simp [Reader.tokens, Position.tokens, Primary.tokens]
  | name zs n => simp [Reader.tokens, Position.tokens, Primary.tokens]
  | point zs p => simp [Reader.tokens, Position.tokens]
  | field zs p f => simp [Reader.tokens, Position.tokens, Primary.tokens]
  | group zs => simp [Reader.tokens, Position.tokens, Opened.stackTokens, Opened.tokens]
  | call zs n =>
      simp [Reader.tokens, Position.tokens, Primary.tokens, Opened.stackTokens, Opened.tokens,
        Callee.tokens]
  | invoke zs p f =>
      simp [Reader.tokens, Position.tokens, Primary.tokens, Opened.stackTokens, Opened.tokens,
        Callee.tokens]
  | unary zs o => simp [Reader.tokens, Position.tokens, Opened.stackTokens, Opened.tokens]
  | binary o hsettle =>
      have hwritten := Opened.settle_tokens hsettle
      simp only [Reader.tokens, Position.tokens, Opened.stackTokens, Opened.tokens,
        ← List.append_assoc, hwritten]
      simp [Tree.tokens]
  | comma hsettle =>
      have hwritten := Opened.settle_tokens hsettle
      simp only [Tree.tokens, Opened.stackTokens, Opened.tokens] at hwritten
      simp [Reader.tokens, Position.tokens, Opened.stackTokens, Opened.tokens, ← hwritten]
  | closeGroup hsettle =>
      have hwritten := Opened.settle_tokens hsettle
      simp only [Tree.tokens, Opened.stackTokens, Opened.tokens] at hwritten
      simp [Reader.tokens, Position.tokens, Primary.tokens, ← hwritten]
  | closeArgs hsettle =>
      have hwritten := Opened.settle_tokens hsettle
      simp only [Tree.tokens, Opened.stackTokens, Opened.tokens] at hwritten
      simp [Reader.tokens, Position.tokens, Callee.apply_tokens, Tree.listTokens_concat,
        ← hwritten]
  | closeEmpty zs c =>
      simp [Reader.tokens, Position.tokens, Callee.apply_tokens, Tree.listTokens,
        Opened.stackTokens, Opened.tokens]

end Reader

/-! ## What a reader holds is correct -/

theorem Tree.allPrecedenceCorrect_concat {t : Tree} (ht : t.PrecedenceCorrect) :
    ∀ {done : List Tree}, Tree.AllPrecedenceCorrect done → Tree.AllPrecedenceCorrect (done ++ [t])
  | [], _ => ⟨ht, trivial⟩
  | _ :: _, h => ⟨h.1, Tree.allPrecedenceCorrect_concat ht h.2⟩

namespace Opened

/-- All that waits is correct on its own, and no operator would have yielded to the one that waits
after it. -/
def PrecedenceCorrect : List Opened → Prop
  | [] => True
  | .unary _ :: zs => PrecedenceCorrect zs
  | .binary o l :: zs =>
      l.PrecedenceCorrect ∧ l.EdgeFits o ∧ Admits zs o ∧ PrecedenceCorrect zs
  | .group :: zs => PrecedenceCorrect zs
  | .args c done :: zs =>
      c.PrecedenceCorrect ∧ Tree.AllPrecedenceCorrect done ∧ PrecedenceCorrect zs

/-- A correct tree with correct operators waiting for it, none of which would yield to its root. -/
structure Joins (zs : List Opened) (t : Tree) : Prop where
  stack : PrecedenceCorrect zs
  tree : t.PrecedenceCorrect
  root : ∀ q ∈ t.binaryRoot?, Admits zs q

theorem Joins.operand {zs : List Opened} (hz : PrecedenceCorrect zs) {p : Primary}
    (hp : p.PrecedenceCorrect) : Joins zs (.operand p) :=
  ⟨hz, hp, fun _ hq => by simp [Tree.binaryRoot?] at hq⟩

theorem Joins.unary {zs : List Opened} {o : Operator.Unary} {t : Tree}
    (h : Joins (.unary o :: zs) t) (ho : o.1 = .background → t.isSchedulable = true) :
    Joins zs (.unary o t) := by
  have hfits : t.OperandFits o := (Tree.operandFits_iff o t).mpr fun q hq =>
    (admits_unary_iff o zs q).mp (h.root q hq)
  exact ⟨h.stack, ⟨h.tree, hfits, ho⟩, fun _ hq => by simp [Tree.binaryRoot?] at hq⟩

theorem Joins.binary {zs : List Opened} {o : Operator.Binary} {l t : Tree}
    (h : Joins (.binary o l :: zs) t) : Joins zs (.binary o l t) := by
  obtain ⟨⟨hl, hedge, hadmits, hz⟩, ht, hroot⟩ := h
  have hfits : t.RootFits o := (Tree.rootFits_iff o t).mpr fun q hq =>
    (admits_binary_iff o l zs q).mp (hroot q hq)
  refine ⟨hz, ⟨hl, ht, hedge, hfits⟩, fun q hq => ?_⟩
  obtain rfl : o.1 = q := by simpa [Tree.binaryRoot?] using hq
  exact hadmits

/-- Settling keeps all correct and adds only operators that yield to the right edge of the tree. -/
theorem settle_joins {yields : Operator → Bool} {zs zs' : List Opened} {t t' : Tree}
    (h : settle yields zs t = some (zs', t')) (hj : Joins zs t)
    (hedge : ∀ q ∈ t.rightEdge, yields q = true) :
    Joins zs' t' ∧ ∀ q ∈ t'.rightEdge, yields q = true := by
  fun_induction settle yields zs t with
  | case1 => contradiction
  | case2 o zs t hy hs ih =>
      refine ih h (hj.unary fun ho => ?_) fun q hq => ?_
      · simpa [ho] using hs
      · rcases List.mem_cons.mp hq with rfl | hq
        · exact hy
        · exact hedge q hq
  | case3 o zs t hy =>
      obtain ⟨rfl, rfl⟩ := Prod.mk.inj (Option.some.inj h)
      exact ⟨hj, hedge⟩
  | case4 o l zs t hy ih =>
      refine ih h hj.binary fun q hq => ?_
      rcases List.mem_cons.mp hq with rfl | hq
      · exact hy
      · exact hedge q hq
  | case5 o l zs t hy =>
      obtain ⟨rfl, rfl⟩ := Prod.mk.inj (Option.some.inj h)
      exact ⟨hj, hedge⟩
  | case6 zs t _ _ =>
      obtain ⟨rfl, rfl⟩ := Prod.mk.inj (Option.some.inj h)
      exact ⟨hj, hedge⟩

end Opened

/-- The operand that the reader stands at is correct. -/
def Position.PrecedenceCorrect : Position → Prop
  | .before => True
  | .after p => p.PrecedenceCorrect
  | .field p => p.PrecedenceCorrect

namespace Reader

def PrecedenceCorrect (r : Reader) : Prop :=
  Opened.PrecedenceCorrect r.opened ∧ r.position.PrecedenceCorrect

theorem settle_operand {yields : Operator → Bool} {zs zs' : List Opened} {p : Primary} {t : Tree}
    (h : Opened.settle yields zs (.operand p) = some (zs', t))
    (hr : PrecedenceCorrect ⟨zs, .after p⟩) :
    Opened.Joins zs' t ∧ ∀ q ∈ t.rightEdge, yields q = true :=
  Opened.settle_joins h (Opened.Joins.operand hr.1 hr.2) fun _ hq => by
    simp [Tree.rightEdge] at hq

/-- Each step of a reader keeps all correct. -/
theorem Reads.precedenceCorrect {r r' : Reader} {token : Token} (h : Reads r token r')
    (hr : r.PrecedenceCorrect) : r'.PrecedenceCorrect := by
  cases h with
  | literal zs l => exact ⟨hr.1, trivial⟩
  | name zs n => exact ⟨hr.1, trivial⟩
  | point zs p => exact hr
  | field zs p f => exact hr
  | group zs => exact ⟨hr.1, trivial⟩
  | call zs n => exact ⟨⟨trivial, trivial, hr.1⟩, trivial⟩
  | invoke zs p f => exact ⟨⟨hr.2, trivial, hr.1⟩, trivial⟩
  | unary zs o => exact ⟨hr.1, trivial⟩
  | binary o hsettle =>
      obtain ⟨hj, hedge⟩ := settle_operand hsettle hr
      have hadmits := Opened.settle_stops hsettle
      exact ⟨⟨hj.tree, (Tree.edgeFits_iff o _).mpr hedge, hadmits, hj.stack⟩, trivial⟩
  | comma hsettle =>
      obtain ⟨⟨⟨hc, hdone, hz⟩, ht, -⟩, -⟩ := settle_operand hsettle hr
      exact ⟨⟨hc, Tree.allPrecedenceCorrect_concat ht hdone, hz⟩, trivial⟩
  | closeGroup hsettle =>
      obtain ⟨hj, -⟩ := settle_operand hsettle hr
      exact ⟨hj.stack, hj.tree⟩
  | closeArgs hsettle =>
      obtain ⟨⟨⟨hc, hdone, hz⟩, ht, -⟩, -⟩ := settle_operand hsettle hr
      exact ⟨hz, Callee.apply_precedenceCorrect hc (Tree.allPrecedenceCorrect_concat ht hdone)⟩
  | closeEmpty zs c =>
      obtain ⟨⟨hc, -, hz⟩, -⟩ := hr
      exact ⟨hz, Callee.apply_precedenceCorrect hc trivial⟩

/-- A reader that began with nothing has read its tokens and holds nothing incorrect. -/
theorem foldlM_step {r r' : Reader} {ts : List Token} (h : ts.foldlM step r = some r')
    (hr : r.PrecedenceCorrect) : r'.tokens = r.tokens ++ ts ∧ r'.PrecedenceCorrect := by
  induction ts generalizing r with
  | nil =>
      obtain rfl := Option.some.inj h
      exact ⟨(List.append_nil _).symm, hr⟩
  | cons t ts ih =>
      rw [foldlM_cons] at h
      obtain ⟨r₁, hstep, hrest⟩ := Option.bind_eq_some_iff.mp h
      have hreads := reads_of_step hstep
      obtain ⟨htokens, hcorrect⟩ := ih hrest (hreads.precedenceCorrect hr)
      refine ⟨?_, hcorrect⟩
      rw [htokens, hreads.tokens, List.append_assoc, List.singleton_append]

/-- The tree of a reader is written as the tokens read. -/
theorem finish_eq_some {r : Reader} {t : Tree} (h : r.finish = some t)
    (hr : r.PrecedenceCorrect) : t.PrecedenceCorrect ∧ t.tokens = r.tokens := by
  obtain ⟨zs, position⟩ := r
  cases position with
  | after p =>
      rw [finish_after] at h
      obtain ⟨⟨zs', u⟩, hsettle, honly⟩ := Option.bind_eq_some_iff.mp h
      obtain ⟨rfl, rfl⟩ : zs' = [] ∧ u = t := by
        cases zs' with
        | nil => exact ⟨rfl, Option.some.inj honly⟩
        | cons z zs' => contradiction
      have hwritten := Opened.settle_tokens hsettle
      exact ⟨(settle_operand hsettle hr).1.tree, hwritten⟩
  | before => contradiction
  | field p => contradiction

end Reader

/-- Reading accepts exactly the tokens of precedence-correct trees, and gives back the tree. -/
theorem Tree.read?_eq_some_iff {ts : List Token} {t : Tree} :
    Tree.read? ts = some t ↔ t.PrecedenceCorrect ∧ t.tokens = ts := by
  constructor
  · intro h
    obtain ⟨r, hrun, hfinish⟩ := Option.bind_eq_some_iff.mp h
    obtain ⟨htokens, hcorrect⟩ := Reader.foldlM_step hrun ⟨trivial, trivial⟩
    obtain ⟨ht, hwritten⟩ := Reader.finish_eq_some hfinish hcorrect
    exact ⟨ht, by rw [hwritten, htokens]; rfl⟩
  · rintro ⟨ht, rfl⟩
    exact Tree.read?_tokens ht

end Statute
