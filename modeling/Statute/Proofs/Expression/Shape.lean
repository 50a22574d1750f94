import Statute.Proofs.Expression.Reading

/-!
# The shape of what can be read

Tokens that can be read as a tree are well shaped: brackets are balanced, the last token ends an
operand, and each token may stand after the one before it. The last token that a reader has read
tells what may come next, and the brackets that wait are those left open.
-/

namespace Statute

/-! ## Neighbours -/

theorem Primary.getLast?_tokens (p : Primary) :
    ∃ t, p.tokens.getLast? = some t ∧ t.endsOperand = true := by
  cases p with
  | literal l => exact ⟨.literal l, rfl, rfl⟩
  | name n => exact ⟨.word n, rfl, rfl⟩
  | call n args => exact ⟨.closing, List.getLast?_concat, rfl⟩
  | field p f => exact ⟨.word f, by simp [Primary.tokens], rfl⟩
  | invoke p f args => exact ⟨.closing, List.getLast?_concat, rfl⟩
  | group t => exact ⟨.closing, List.getLast?_concat, rfl⟩

theorem Opened.getLast?_tokens (z : Opened) :
    ∃ t, z.tokens.getLast? = some t ∧ t.wantsOperand = true := by
  cases z with
  | unary o => exact ⟨.unary o, rfl, rfl⟩
  | binary o l => exact ⟨.binary o, by simp [Opened.tokens], rfl⟩
  | group => exact ⟨.opening, rfl, rfl⟩
  | args c done =>
      rcases List.eq_nil_or_concat done with rfl | ⟨done, t, rfl⟩
      · cases c <;> exact ⟨.opening, by simp [Opened.tokens, Callee.tokens], rfl⟩
      · exact ⟨.comma, by simp [Opened.tokens], rfl⟩

namespace Reader

theorem getLast?_before {zs : List Opened} {t : Token}
    (h : (Reader.tokens ⟨zs, .before⟩).getLast? = some t) : t.wantsOperand = true := by
  cases zs with
  | nil => simp [Reader.tokens, Position.tokens, Opened.stackTokens] at h
  | cons z zs =>
      obtain ⟨u, hu, hwants⟩ := z.getLast?_tokens
      have hlast : u = t := by
        simpa [Reader.tokens, Position.tokens, Opened.stackTokens, hu] using h
      exact hlast ▸ hwants

theorem getLast?_after (zs : List Opened) (p : Primary) :
    (Reader.tokens ⟨zs, .after p⟩).getLast? = p.tokens.getLast? := by
  obtain ⟨t, ht, -⟩ := p.getLast?_tokens
  simp [Reader.tokens, Position.tokens, ht]

theorem getLast?_field (zs : List Opened) (p : Primary) :
    (Reader.tokens ⟨zs, .field p⟩).getLast? = some .dot := by
  simp [Reader.tokens, Position.tokens]

/-- Before an operand the last token asks for one. -/
theorem any_getLast?_before (zs : List Opened) :
    (Reader.tokens ⟨zs, .before⟩).getLast?.any Token.endsOperand = false ∧
      (Reader.tokens ⟨zs, .before⟩).getLast?.any Token.isDot = false := by
  cases h : (Reader.tokens ⟨zs, .before⟩).getLast? with
  | none => exact ⟨rfl, rfl⟩
  | some t =>
      have hwants := getLast?_before h
      cases t <;> simp_all [Token.wantsOperand, Token.endsOperand, Token.isDot]

/-- After an operand the last token ends it. -/
theorem any_getLast?_after (zs : List Opened) (p : Primary) :
    (Reader.tokens ⟨zs, .after p⟩).getLast?.any Token.endsOperand = true ∧
      (Reader.tokens ⟨zs, .after p⟩).getLast?.any Token.isDot = false := by
  obtain ⟨t, ht, hends⟩ := p.getLast?_tokens
  rw [getLast?_after, ht]
  refine ⟨hends, ?_⟩
  cases t <;> simp_all [Token.endsOperand, Token.isDot]

/-- A token that can be read may stand after the one before it. -/
theorem Reads.faultAfter {r r' : Reader} {token : Token} (h : Reads r token r') :
    Token.faultAfter r.tokens.getLast? token = none := by
  cases h with
  | literal zs l => simp [Token.faultAfter, any_getLast?_before]
  | name zs n => simp [Token.faultAfter, any_getLast?_before]
  | point zs p => simp [Token.faultAfter, any_getLast?_after]
  | field zs p f => simp [Token.faultAfter, getLast?_field, Token.endsOperand]
  | group zs => simp [Token.faultAfter, any_getLast?_before]
  | call zs n => simp [Token.faultAfter, getLast?_after, Primary.tokens, Token.isDot, Token.isName]
  | invoke zs p f =>
      simp [Token.faultAfter, getLast?_after, Primary.tokens, Token.isDot, Token.isName]
  | unary zs o => simp [Token.faultAfter, any_getLast?_before]
  | binary o hsettle => simp [Token.faultAfter, any_getLast?_after]
  | comma hsettle => simp [Token.faultAfter, any_getLast?_after]
  | closeGroup hsettle => simp [Token.faultAfter, any_getLast?_after]
  | closeArgs hsettle => simp [Token.faultAfter, any_getLast?_after]
  | closeEmpty zs c =>
      have hopening : (Reader.tokens ⟨.args c [] :: zs, .before⟩).getLast? = some .opening := by
        cases c <;> simp [Reader.tokens, Position.tokens, Opened.stackTokens, Opened.tokens,
          Callee.tokens]
      simp [Token.faultAfter, hopening, Token.endsOperand]

/-- No token that was read is at fault. -/
theorem firstFault_eq_none {r r' : Reader} {ts : List Token}
    (h : ts.foldlM Reader.step r = some r') :
    Token.firstFault r.tokens.getLast? ts = none := by
  induction ts generalizing r with
  | nil => rfl
  | cons t ts ih =>
      rw [foldlM_cons] at h
      obtain ⟨r₁, hstep, hrest⟩ := Option.bind_eq_some_iff.mp h
      have hreads := reads_of_step hstep
      have hlast : r₁.tokens.getLast? = some t := by
        rw [hreads.tokens, List.getLast?_concat]
      rw [Token.firstFault, hreads.faultAfter, ← hlast, ih hrest]
      rfl

end Reader

/-! ## Brackets -/

namespace Opened

/-- How many brackets wait to be closed. -/
def brackets : List Opened → Nat
  | [] => 0
  | .unary _ :: zs => brackets zs
  | .binary _ _ :: zs => brackets zs
  | .group :: zs => brackets zs + 1
  | .args _ _ :: zs => brackets zs + 1

theorem settle_brackets {yields : Operator → Bool} {zs zs' : List Opened} {t t' : Tree}
    (h : settle yields zs t = some (zs', t')) : brackets zs' = brackets zs := by
  fun_induction settle yields zs t with
  | case1 => contradiction
  | case2 _ _ _ _ _ ih => exact ih h
  | case4 _ _ _ _ _ ih => exact ih h
  | case3 => exact (Prod.mk.inj (Option.some.inj h)).1 ▸ rfl
  | case5 => exact (Prod.mk.inj (Option.some.inj h)).1 ▸ rfl
  | case6 => exact (Prod.mk.inj (Option.some.inj h)).1 ▸ rfl

end Opened

namespace Reader

/-- The brackets that wait are those that are open. -/
theorem Reads.balance {r r' : Reader} {token : Token} (h : Reads r token r') (unmatched : Nat)
    (ts : List Token) :
    Token.balance (Opened.brackets r.opened) unmatched (token :: ts) =
      Token.balance (Opened.brackets r'.opened) unmatched ts := by
  cases h with
  | binary o hsettle =>
      simp [Token.balance, Opened.brackets, Opened.settle_brackets hsettle]
  | comma hsettle =>
      have hbrackets := Opened.settle_brackets hsettle
      simp only [Opened.brackets] at hbrackets
      simp [Token.balance, Opened.brackets, hbrackets]
  | closeGroup hsettle =>
      have hbrackets := Opened.settle_brackets hsettle
      simp only [Opened.brackets] at hbrackets
      simp [Token.balance, ← hbrackets]
  | closeArgs hsettle =>
      have hbrackets := Opened.settle_brackets hsettle
      simp only [Opened.brackets] at hbrackets
      simp [Token.balance, ← hbrackets]
  | _ => simp [Token.balance, Opened.brackets]

theorem balance_eq {r r' : Reader} {ts : List Token} (h : ts.foldlM Reader.step r = some r')
    (unmatched : Nat) :
    Token.balance (Opened.brackets r.opened) unmatched ts =
      (Opened.brackets r'.opened, unmatched) := by
  induction ts generalizing r with
  | nil =>
      obtain rfl := Option.some.inj h
      simp [Token.balance]
  | cons t ts ih =>
      rw [foldlM_cons] at h
      obtain ⟨r₁, hstep, hrest⟩ := Option.bind_eq_some_iff.mp h
      rw [(reads_of_step hstep).balance, ih hrest]

end Reader

/-- Tokens that can be read as a tree are well shaped. -/
theorem Tree.validate_of_read? {ts : List Token} {t : Tree} (h : Tree.read? ts = some t) :
    Token.validate ts = .ok () := by
  obtain ⟨r, hrun, hfinish⟩ := Option.bind_eq_some_iff.mp h
  obtain ⟨zs, position⟩ := r
  cases position with
  | before => contradiction
  | field p => contradiction
  | after p =>
      rw [Reader.finish_after] at hfinish
      obtain ⟨⟨zs', u⟩, hsettle, honly⟩ := Option.bind_eq_some_iff.mp hfinish
      have hzs' : zs' = [] := by
        cases zs' with
        | nil => rfl
        | cons z zs' => contradiction
      have hclosed : Opened.brackets zs = 0 := by
        rw [← Opened.settle_brackets hsettle, hzs']
        rfl
      have hbalance : Token.balance 0 0 ts = (0, 0) := by
        have hall := Reader.balance_eq hrun 0
        rwa [hclosed] at hall
      have hfault : Token.firstFault none ts = none := Reader.firstFault_eq_none hrun
      have htokens := (Reader.foldlM_step hrun ⟨trivial, trivial⟩).1
      obtain ⟨last, hlast, hends⟩ := p.getLast?_tokens
      have hts : ts.getLast? = some last := by
        rw [← hlast, ← Reader.getLast?_after zs p, htokens]
        rfl
      have hcan : last.canEnd = true := by
        cases last <;> simp_all [Token.endsOperand, Token.canEnd]
      simp [Token.validate, hts, hbalance, hcan, hfault]

end Statute
