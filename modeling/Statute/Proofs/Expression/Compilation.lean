import Statute.Proofs.Expression.Conversion
import Statute.Proofs.Expression.Shape

/-!
# Compilation

The conversion and the reader of trees are run side by side over tokens whose shape has been
checked. Since the conversion looks ahead to tell a name from a call, the two meet only where an
operand that has been read is not about to be called.

The main statement is that tokens are compiled exactly if they are the tokens of a
precedence-correct tree, that there is only one such tree, and that they are compiled to its items.
-/

namespace Statute

/-- A computation in two parts that succeeds has succeeded in both. -/
theorem exists_of_bind_eq_ok {ε α β : Type} {x : Except ε α} {f : α → Except ε β} {b : β}
    (h : (x >>= f) = .ok b) : ∃ a, x = .ok a ∧ f a = .ok b := by
  cases x with
  | error e => contradiction
  | ok a => exact ⟨a, rfl, h⟩

namespace Token

/-- The operator of a token stands where the token says it does. -/
def IsProper : Token → Prop
  | .binary o => o.isUnary = false ∧ o ≠ .dot
  | .unary o => o.isUnary = true
  | _ => True

theorem firstFault_cons {previous : Option Token} {t : Token} {ts : List Token} :
    firstFault previous (t :: ts) = none ↔
      faultAfter previous t = none ∧ firstFault (some t) ts = none := by
  cases h : faultAfter previous t <;> simp [firstFault, h]

/-- A comma, a point and an operator between operands need an operand before them. -/
theorem faultAfter_ne_none {t : Token} (ht : t = .comma ∨ t = .dot ∨ ∃ o, t = .binary o)
    {previous : Option Token} (h : previous.any endsOperand = false) :
    faultAfter previous t ≠ none := by
  rcases ht with rfl | rfl | ⟨o, rfl⟩ <;> cases previous <;> simp_all [faultAfter]

/-- Only a name can be followed by a bracket that begins a call. -/
theorem head?_ne_opening {t : Token} {ts : List Token} (h : firstFault (some t) ts = none)
    (hends : t.endsOperand = true) (hname : t.isName = false) : ts.head? ≠ some .opening := by
  intro hhead
  obtain ⟨rest, rfl⟩ := List.head?_eq_some_iff.mp hhead
  have hfault := (firstFault_cons.mp h).1
  cases t <;> simp_all [faultAfter, endsOperand, isName, isDot]

end Token

namespace Reader

/-- The tokens that are still to come make an expression of good shape with those that were read. -/
structure Continues (r : Reader) (ts : List Token) : Prop where
  faultless : Token.firstFault r.tokens.getLast? ts = none
  proper : ∀ t ∈ ts, t.IsProper
  ends : (r.tokens ++ ts).getLast?.any Token.endsOperand = true

/-- The reader stands where the conversion does not look ahead: an operand is not about to be
called, and a bracket around a tree is not about to be closed. -/
def Meets (r : Reader) (ts : List Token) : Prop :=
  match r.position with
  | .before => ∀ zs, r.opened = .group :: zs → ts.head? ≠ some .closing
  | .after _ => ts.head? ≠ some .opening
  | .field _ => False

theorem Continues.step {r r' : Reader} {t : Token} {ts : List Token} (h : r.Continues (t :: ts))
    (hreads : Reads r t r') : r'.Continues ts := by
  have hlast : r'.tokens.getLast? = some t := by
    rw [hreads.tokens, List.getLast?_concat]
  refine ⟨?_, fun u hu => h.proper u (List.mem_cons_of_mem _ hu), ?_⟩
  · rw [hlast]
    exact (Token.firstFault_cons.mp h.faultless).2
  · rw [hreads.tokens, List.append_assoc]
    exact h.ends

theorem Continues.firstFault {r : Reader} {t : Token} {ts : List Token}
    (h : r.Continues (t :: ts)) : Token.firstFault (some t) ts = none :=
  (Token.firstFault_cons.mp h.faultless).2

/-- A token that begins an operand can only come before one. -/
theorem Continues.before {r : Reader} {t : Token} {ts : List Token} (h : r.Continues (t :: ts))
    (hmeets : r.Meets (t :: ts))
    (ht : ∀ previous : Option Token, previous.any Token.endsOperand = true → t ≠ .opening →
      Token.faultAfter previous t ≠ none) : ∃ zs, r = ⟨zs, .before⟩ := by
  obtain ⟨zs, position⟩ := r
  cases position with
  | before => exact ⟨zs, rfl⟩
  | field p => exact hmeets.elim
  | after p =>
      have hne : t ≠ .opening := fun heq => hmeets (by rw [heq]; rfl)
      have hfault := (Token.firstFault_cons.mp h.faultless).1
      exact absurd hfault (ht _ (any_getLast?_after zs p).1 hne)

/-- A token that goes on after an operand can only come after one. -/
theorem Continues.after {r : Reader} {t : Token} {ts : List Token} (h : r.Continues (t :: ts))
    (hmeets : r.Meets (t :: ts)) (ht : t = .comma ∨ t = .dot ∨ ∃ o, t = .binary o) :
    ∃ zs p, r = ⟨zs, .after p⟩ := by
  obtain ⟨zs, position⟩ := r
  cases position with
  | after p => exact ⟨zs, p, rfl⟩
  | field p => exact hmeets.elim
  | before =>
      have hfault := (Token.firstFault_cons.mp h.faultless).1
      exact absurd hfault (Token.faultAfter_ne_none ht (any_getLast?_before zs).1)

/-- A closing bracket comes after an operand or at once after the bracket of a call. -/
theorem Continues.closing {r : Reader} {ts : List Token} (h : r.Continues (.closing :: ts))
    (hmeets : r.Meets (.closing :: ts)) :
    (∃ zs p, r = ⟨zs, .after p⟩) ∨ ∃ c zs, r = ⟨.args c [] :: zs, .before⟩ := by
  obtain ⟨zs, position⟩ := r
  cases position with
  | after p => exact Or.inl ⟨zs, p, rfl⟩
  | field p => exact hmeets.elim
  | before =>
      have hfault := (Token.firstFault_cons.mp h.faultless).1
      have hopening : (Reader.tokens ⟨zs, .before⟩).getLast? = some .opening := by
        have hends := (any_getLast?_before zs).1
        simp only [Token.faultAfter, hends, Bool.false_eq_true, if_false] at hfault
        split at hfault
        · assumption
        · contradiction
      refine Or.inr ?_
      cases zs with
      | nil => simp [Reader.tokens, Position.tokens, Opened.stackTokens] at hopening
      | cons z zs =>
          cases z with
          | unary o =>
              simp [Reader.tokens, Position.tokens, Opened.stackTokens, Opened.tokens] at hopening
          | binary o l =>
              simp [Reader.tokens, Position.tokens, Opened.stackTokens, Opened.tokens] at hopening
          | group => exact absurd rfl (hmeets zs rfl)
          | args c done =>
              rcases List.eq_nil_or_concat done with rfl | ⟨done, t, rfl⟩
              · exact ⟨c, zs, rfl⟩
              · simp [Reader.tokens, Position.tokens, Opened.stackTokens, Opened.tokens]
                  at hopening

/-! ## Side by side -/

/-- What the conversion keeps and has written when the reader has come this far. -/
def written (r : Reader) : List Pending × List Item :=
  (r.opened.map Opened.pending, r.items)

theorem Continues.closeBracket {r : Reader} {ts : List Token} (h : r.Continues (.closing :: ts))
    (hmeets : r.Meets (.closing :: ts)) :
    (Pending.closeBracket (r.opened.map Opened.pending) r.items).toOption =
      (r.step .closing).map written := by
  rcases h.closing hmeets with ⟨zs, p, rfl⟩ | ⟨c, zs, rfl⟩
  · exact Pending.closeBracket_map_pending zs (.operand p)
  · cases c <;>
      simp [Pending.closeBracket, Opened.pending, Reader.step, Opened.closeEmpty, written, items,
        Opened.items, Callee.items, Callee.apply, Primary.items, Tree.listItems, Except.toOption]

theorem Continues.endArgument {r : Reader} {ts : List Token} (h : r.Continues (.comma :: ts))
    (hmeets : r.Meets (.comma :: ts)) :
    (Pending.endArgument (r.opened.map Opened.pending) r.items).toOption =
      (r.step .comma).map written := by
  obtain ⟨zs, p, rfl⟩ := h.after hmeets (Or.inl rfl)
  exact Pending.endArgument_map_pending zs (.operand p)

theorem Continues.release {r : Reader} {o : Operator} {ts : List Token}
    (h : r.Continues (.binary o :: ts)) (hmeets : r.Meets (.binary o :: ts)) :
    (Pending.release o (r.opened.map Opened.pending) r.items).toOption.map
        (fun x => (.op o :: x.1, x.2)) =
      (r.step (.binary o)).map written := by
  obtain ⟨zs, p, rfl⟩ := h.after hmeets (Or.inr (Or.inr ⟨o, rfl⟩))
  have ho : o.isUnary = false ∧ o ≠ .dot := h.proper _ List.mem_cons_self
  have hsettle := Pending.release_map_pending o zs (.operand p)
  change (Pending.release o (zs.map Opened.pending) (items ⟨zs, .after p⟩)).toOption = _ at hsettle
  rw [hsettle, step_binary zs p ⟨o, ho⟩, Option.map_map, Option.map_map]
  rfl

/-- After a closing bracket no call can begin. -/
theorem Reads.meets_of_closing {r r' : Reader} {ts : List Token} (h : Reads r .closing r')
    (hc : r.Continues (.closing :: ts)) : r'.Meets ts := by
  have hnext := Token.head?_ne_opening hc.firstFault rfl rfl
  cases h <;> exact hnext

theorem Reads.meets_of_comma {r r' : Reader} {ts : List Token} (h : Reads r .comma r') :
    r'.Meets ts := by
  cases h
  exact fun zs heq => by cases heq

theorem Reads.meets_of_binary {r r' : Reader} {o : Operator} {ts : List Token}
    (h : Reads r (.binary o) r') : r'.Meets ts := by
  cases h
  exact fun zs heq => by cases heq

/-- The reader takes the step that the conversion has taken. -/
theorem exists_reads_of_written {x : Option (List Pending × List Item)} {r : Reader} {t : Token}
    {ps : List Pending} {out : List Item} (h : x = (r.step t).map written)
    (hx : x = some (ps, out)) :
    ∃ r', Reads r t r' ∧ (∀ ts, (t :: ts).foldlM step r = ts.foldlM step r') ∧
      ps = r'.opened.map Opened.pending ∧ out = r'.items := by
  obtain ⟨r', hr', hwritten⟩ := Option.map_eq_some_iff.mp (h.symm.trans hx)
  obtain ⟨hps, hout⟩ := Prod.mk.inj hwritten
  refine ⟨r', reads_of_step hr', fun ts => ?_, hps.symm, hout.symm⟩
  rw [foldlM_cons, hr']
  rfl

/-- Where the conversion has failed, the reader is at an end. -/
theorem foldlM_of_unwritten {x : Option (List Pending × List Item)} {r : Reader} {t : Token}
    (h : x = (r.step t).map written) (hx : x = none) (ts : List Token) :
    (t :: ts).foldlM step r = none := by
  rw [foldlM_cons, Option.map_eq_none_iff.mp (h.symm.trans hx)]
  rfl

theorem Continues.after_of_nil {r : Reader} (hc : r.Continues []) (hm : r.Meets []) :
    ∃ zs p, r = ⟨zs, .after p⟩ := by
  obtain ⟨zs, position⟩ := r
  cases position with
  | before =>
      have hends := hc.ends
      rw [List.append_nil, (any_getLast?_before zs).1] at hends
      contradiction
  | field p => exact hm.elim
  | after p => exact ⟨zs, p, rfl⟩

theorem Continues.literal {r : Reader} {l : Literal} {ts : List Token}
    (hc : r.Continues (.literal l :: ts)) (hm : r.Meets (.literal l :: ts)) :
    ∃ zs, r = ⟨zs, .before⟩ ∧ Continues ⟨zs, .after (.literal l)⟩ ts ∧
      Meets ⟨zs, .after (.literal l)⟩ ts := by
  obtain ⟨zs, rfl⟩ := hc.before hm fun previous h _ => by
    cases hdot : previous.any Token.isDot <;> simp [Token.faultAfter, h, hdot]
  exact ⟨zs, rfl, hc.step (.literal zs l), Token.head?_ne_opening hc.firstFault rfl rfl⟩

theorem Continues.name {r : Reader} {n : String} {ts : List Token}
    (hc : r.Continues (.word n :: ts)) (hm : r.Meets (.word n :: ts))
    (hopening : ts.head? ≠ some .opening) :
    ∃ zs, r = ⟨zs, .before⟩ ∧ Continues ⟨zs, .after (.name n)⟩ ts ∧
      Meets ⟨zs, .after (.name n)⟩ ts := by
  obtain ⟨zs, rfl⟩ := hc.before hm fun previous h _ => by simp [Token.faultAfter, h]
  exact ⟨zs, rfl, hc.step (.name zs n), hopening⟩

/-- A name and the bracket after it begin a call. -/
theorem Continues.call {r : Reader} {n : String} {ts : List Token}
    (hc : r.Continues (.word n :: .opening :: ts)) (hm : r.Meets (.word n :: .opening :: ts)) :
    ∃ zs, r = ⟨zs, .before⟩ ∧ Continues ⟨.args (.name n) [] :: zs, .before⟩ ts ∧
      Meets ⟨.args (.name n) [] :: zs, .before⟩ ts := by
  obtain ⟨zs, rfl⟩ := hc.before hm fun previous h _ => by simp [Token.faultAfter, h]
  refine ⟨zs, rfl, (hc.step (.name zs n)).step (.call zs n), ?_⟩
  intro zs' h
  cases h

theorem Continues.field {r : Reader} {f : String} {ts : List Token}
    (hc : r.Continues (.dot :: .word f :: ts)) (hm : r.Meets (.dot :: .word f :: ts))
    (hopening : ts.head? ≠ some .opening) :
    ∃ zs p, r = ⟨zs, .after p⟩ ∧ Continues ⟨zs, .after (.field p f)⟩ ts ∧
      Meets ⟨zs, .after (.field p f)⟩ ts := by
  obtain ⟨zs, p, rfl⟩ := hc.after hm (Or.inr (Or.inl rfl))
  exact ⟨zs, p, rfl, (hc.step (.point zs p)).step (.field zs p f), hopening⟩

/-- A point, a name and the bracket after it begin a call of a method. -/
theorem Continues.invoke {r : Reader} {f : String} {ts : List Token}
    (hc : r.Continues (.dot :: .word f :: .opening :: ts))
    (hm : r.Meets (.dot :: .word f :: .opening :: ts)) :
    ∃ zs p, r = ⟨zs, .after p⟩ ∧ Continues ⟨.args (.method p f) [] :: zs, .before⟩ ts ∧
      Meets ⟨.args (.method p f) [] :: zs, .before⟩ ts := by
  obtain ⟨zs, p, rfl⟩ := hc.after hm (Or.inr (Or.inl rfl))
  refine ⟨zs, p, rfl, ((hc.step (.point zs p)).step (.field zs p f)).step (.invoke zs p f), ?_⟩
  intro zs' h
  cases h

/-- After a point that no name follows nothing can be read. -/
theorem Continues.foldlM_dot {r : Reader} {ts : List Token} (hc : r.Continues (.dot :: ts))
    (hm : r.Meets (.dot :: ts)) (hword : ∀ f rest, ts = .word f :: rest → False) :
    ((Token.dot :: ts).foldlM Reader.step r).bind finish = none := by
  obtain ⟨zs, p, rfl⟩ := hc.after hm (Or.inr (Or.inl rfl))
  cases ts with
  | nil => rfl
  | cons t ts =>
      cases t with
      | word f => exact (hword f ts rfl).elim
      | _ => rfl

theorem Continues.opening {r : Reader} {ts : List Token} (hc : r.Continues (.opening :: ts))
    (hm : r.Meets (.opening :: ts)) : ∃ zs, r = ⟨zs, .before⟩ :=
  hc.before hm fun _ _ hne => absurd rfl hne

theorem Continues.group {r : Reader} {ts : List Token} (hc : r.Continues (.opening :: ts))
    (hm : r.Meets (.opening :: ts)) (hclosing : ts.head? ≠ some .closing) :
    ∃ zs, r = ⟨zs, .before⟩ ∧ Continues ⟨.group :: zs, .before⟩ ts ∧
      Meets ⟨.group :: zs, .before⟩ ts := by
  obtain ⟨zs, rfl⟩ := hc.opening hm
  exact ⟨zs, rfl, hc.step (.group zs), fun _ _ => hclosing⟩

theorem Continues.unary {r : Reader} {o : Operator} {ts : List Token}
    (hc : r.Continues (.unary o :: ts)) (hm : r.Meets (.unary o :: ts)) (ho : o.isUnary = true) :
    ∃ zs, r = ⟨zs, .before⟩ ∧ Continues ⟨.unary ⟨o, ho⟩ :: zs, .before⟩ ts ∧
      Meets ⟨.unary ⟨o, ho⟩ :: zs, .before⟩ ts := by
  obtain ⟨zs, rfl⟩ := hc.before hm fun previous h _ => by simp [Token.faultAfter, h]
  refine ⟨zs, rfl, hc.step (.unary zs ⟨o, ho⟩), ?_⟩
  intro zs' h
  cases h

/-- Where the shape of the tokens has been checked, the conversion writes the items of the tree that
can be read, and fails if none can. -/
theorem convertFrom_toOption {ts : List Token} {ps : List Pending} {out : List Item} {r : Reader}
    (hps : ps = r.opened.map Opened.pending) (hout : out = r.items) (hc : r.Continues ts)
    (hm : r.Meets ts) :
    (Pending.convertFrom ts ps out).toOption =
      ((ts.foldlM step r).bind finish).map fun t => (t.items false).reverse := by
  have head_ne {t : Token} {us : List Token} (h : ∀ rest, us = t :: rest → False) :
      us.head? ≠ some t := by
    intro heq
    obtain ⟨rest, hrest⟩ := List.head?_eq_some_iff.mp heq
    exact h rest hrest
  fun_induction Pending.convertFrom ts ps out generalizing r with
  | case1 ps out =>
      obtain ⟨zs, p, rfl⟩ := hc.after_of_nil hm
      rw [hps, hout]
      exact Pending.drain_map_pending zs (.operand p)
  | case2 l ts ps out ih =>
      obtain ⟨zs, rfl, hc, hm⟩ := hc.literal hm
      exact ih hps (by rw [hout]; rfl) hc hm
  | case3 n ts ps out ih =>
      obtain ⟨zs, rfl, hc, hm⟩ := hc.call hm
      exact ih (by rw [hps]; rfl) (by rw [hout]; rfl) hc hm
  | case4 n ts ps out hopening ih =>
      obtain ⟨zs, rfl, hc, hm⟩ := hc.name hm (head_ne hopening)
      exact ih hps (by rw [hout]; rfl) hc hm
  | case5 f ts ps out ih =>
      obtain ⟨zs, p, rfl, hc, hm⟩ := hc.invoke hm
      refine ih (by rw [hps]; rfl) ?_ hc hm
      rw [hout]
      simp [Reader.items, Opened.items, Callee.items, Tree.listItems]
  | case6 f ts ps out hopening ih =>
      obtain ⟨zs, p, rfl, hc, hm⟩ := hc.field hm (head_ne hopening)
      refine ih hps ?_ hc hm
      rw [hout]
      simp [Reader.items, Primary.items]
  | case7 ts ps out hopening hword =>
      rw [hc.foldlM_dot hm hword]
      rfl
  | case8 ts ps out =>
      obtain ⟨zs, rfl⟩ := hc.opening hm
      rfl
  | case9 ts ps out hclosing ih =>
      obtain ⟨zs, rfl, hc, hm⟩ := hc.group hm (head_ne hclosing)
      exact ih (by rw [hps]; rfl) hout hc hm
  | case10 ts ps out ps' out' hclose ih =>
      rw [hps, hout] at hclose
      obtain ⟨r', hreads, hfold, hps', hout'⟩ :=
        exists_reads_of_written (hc.closeBracket hm) (by rw [hclose]; rfl)
      rw [hfold]
      exact ih hps' hout' (hc.step hreads) (hreads.meets_of_closing hc)
  | case11 ts ps out fault hclose =>
      rw [hps, hout] at hclose
      rw [foldlM_of_unwritten (hc.closeBracket hm) (by rw [hclose]; rfl)]
      rfl
  | case12 ts ps out ps' out' hcomma ih =>
      rw [hps, hout] at hcomma
      obtain ⟨r', hreads, hfold, hps', hout'⟩ :=
        exists_reads_of_written (hc.endArgument hm) (by rw [hcomma]; rfl)
      rw [hfold]
      exact ih hps' hout' (hc.step hreads) hreads.meets_of_comma
  | case13 ts ps out fault hcomma =>
      rw [hps, hout] at hcomma
      rw [foldlM_of_unwritten (hc.endArgument hm) (by rw [hcomma]; rfl)]
      rfl
  | case14 o ts ps out ps' out' hrelease ih =>
      rw [hps, hout] at hrelease
      obtain ⟨r', hreads, hfold, hps', hout'⟩ :=
        exists_reads_of_written (hc.release hm) (by rw [hrelease]; rfl)
      rw [hfold]
      exact ih hps' hout' (hc.step hreads) hreads.meets_of_binary
  | case15 o ts ps out fault hrelease =>
      rw [hps, hout] at hrelease
      rw [foldlM_of_unwritten (hc.release hm) (by rw [hrelease]; rfl)]
      rfl
  | case16 o ts ps out ih =>
      have ho : o.isUnary = true := hc.proper _ List.mem_cons_self
      obtain ⟨zs, rfl, hc, hm⟩ := hc.unary hm ho
      rw [foldlM_cons, step_unary zs ⟨o, ho⟩]
      exact ih (by rw [hps]; rfl) hout hc hm

end Reader

/-! ## Classified tokens -/

namespace Token

theorem infixOf?_eq_some {raw : String} {o : Operator} (h : infixOf? raw = some o) :
    o.isUnary = false ∧ o ≠ .dot := by
  unfold infixOf? at h
  repeat' split at h
  all_goals first
    | contradiction
    | (obtain rfl := Option.some.inj h; decide)

theorem ofPlain_isProper {raw : String} {t : Token} (h : ofPlain raw = .ok t) : t.IsProper := by
  unfold ofPlain at h
  split at h
  · next o ho =>
      obtain rfl := Except.ok.inj h
      exact infixOf?_eq_some ho
  · repeat' split at h
    all_goals first
      | contradiction
      | (obtain rfl := Except.ok.inj h; trivial)

theorem isProper_of_ite {c : Prop} [Decidable c] {x y : Except Fault Token} {t : Token}
    (hx : x = .ok t → t.IsProper) (hy : y = .ok t → t.IsProper) :
    (if c then x else y) = .ok t → t.IsProper := by
  split
  · exact hx
  · exact hy

theorem isProper_of_ok {t u : Token} (hu : u.IsProper) :
    (.ok u : Except Fault Token) = .ok t → t.IsProper := by
  intro h
  exact Except.ok.inj h ▸ hu

theorem single_isProper {operandNext : Bool} {raw : String} {t : Token} :
    single operandNext raw = .ok t → t.IsProper := by
  have hsign : ∀ o o' : Operator, o.isUnary = true → o'.isUnary = false ∧ o' ≠ .dot →
      (if operandNext then Token.unary o else .binary o').IsProper := by
    intro o o' ho ho'
    cases operandNext
    · exact ho'
    · exact ho
  unfold single
  refine isProper_of_ite (isProper_of_ok trivial) ?_
  refine isProper_of_ite (isProper_of_ok trivial) ?_
  refine isProper_of_ite (isProper_of_ok trivial) ?_
  refine isProper_of_ite (isProper_of_ok trivial) ?_
  refine isProper_of_ite (isProper_of_ok (hsign .pos .add rfl (by decide))) ?_
  refine isProper_of_ite (isProper_of_ok (hsign .neg .sub rfl (by decide))) ?_
  refine isProper_of_ite (isProper_of_ok rfl) ?_
  refine isProper_of_ite (isProper_of_ok rfl) ?_
  refine isProper_of_ite (fun h => by contradiction) ?_
  refine isProper_of_ite (isProper_of_ok trivial) ?_
  refine isProper_of_ite (isProper_of_ok trivial) ?_
  exact isProper_of_ite (isProper_of_ok trivial) ofPlain_isProper

theorem next_isProper {operandNext : Bool} {raw : String} {rest after : List String} {t : Token}
    (h : next operandNext raw rest = .ok (t, after)) : t.IsProper := by
  unfold next at h
  split at h
  · unfold textLiteral at h
    split at h
    · contradiction
    · obtain ⟨rfl, -⟩ := Prod.mk.inj (Except.ok.inj h)
      trivial
  · split at h
    · cases rest with
      | nil => contradiction
      | cons second rest =>
          simp only [scheduling] at h
          split at h
          · obtain ⟨rfl, -⟩ := Prod.mk.inj (Except.ok.inj h)
            exact rfl
          · contradiction
    · cases hs : single operandNext raw with
      | error fault =>
          rw [hs] at h
          contradiction
      | ok u =>
          rw [hs] at h
          obtain ⟨rfl, -⟩ := Prod.mk.inj (Except.ok.inj h)
          exact single_isProper hs

/-- Classified operators stand where their tokens say. -/
theorem classifyAfter_isProper {previous : Option Token} {raws : List String} {ts : List Token}
    (h : classifyAfter previous raws = .ok ts) : ∀ t ∈ ts, t.IsProper := by
  fun_induction classifyAfter previous raws generalizing ts with
  | case1 =>
      obtain rfl := Except.ok.inj h
      exact fun t ht => by cases ht
  | case2 => contradiction
  | case3 previous raw rest operandNext u after hnext =>
      rename_i ih
      cases hrest : classifyAfter (some u) after with
      | error fault =>
          rw [hrest] at h
          contradiction
      | ok us =>
          rw [hrest] at h
          obtain rfl := Except.ok.inj h
          intro t ht
          rcases List.mem_cons.mp ht with rfl | ht
          · exact next_isProper hnext
          · exact ih hrest t ht

theorem validate_eq_ok {ts : List Token} (h : validate ts = .ok ()) :
    firstFault none ts = none ∧ ts.getLast?.any endsOperand = true := by
  unfold validate at h
  split at h
  · contradiction
  · next last hlast =>
      simp only at h
      split at h
      · contradiction
      · split at h
        · contradiction
        · split at h
          · contradiction
          · next hcan =>
              split at h
              · contradiction
              · next hfault =>
                  refine ⟨hfault, ?_⟩
                  rw [hlast]
                  cases last <;> simp_all [canEnd, endsOperand]

end Token

/-- Well-shaped tokens are converted to the items of the tree that they are read as. -/
theorem Tree.convert_toOption {ts : List Token} (hproper : ∀ t ∈ ts, t.IsProper)
    (hshape : Token.validate ts = .ok ()) :
    (Pending.convert ts).toOption = (Tree.read? ts).map (Tree.items false) := by
  obtain ⟨hfault, hends⟩ := Token.validate_eq_ok hshape
  have hmeets : Reader.start.Meets ts := fun zs h => by cases h
  have hside : (Pending.convertFrom ts [] []).toOption =
      (Tree.read? ts).map fun t => (t.items false).reverse :=
    Reader.convertFrom_toOption (r := Reader.start) rfl rfl ⟨hfault, hproper, hends⟩ hmeets
  have hreverse : ∀ x : Except Fault (List Item),
      (x.map List.reverse).toOption = x.toOption.map List.reverse := by
    rintro (fault | items) <;> rfl
  rw [Pending.convert, hreverse, hside, Option.map_map]
  congr 1
  funext t
  exact List.reverse_reverse _

/-- Raw tokens that are compiled are compiled to the items of a precedence-correct tree. -/
theorem Tree.items_of_itemsOf {raws : List String} {items : List Item}
    (h : Code.itemsOf raws = .ok items) :
    ∃ t : Tree, t.PrecedenceCorrect ∧ items = t.items false := by
  obtain ⟨ts, hclassify, h⟩ := exists_of_bind_eq_ok h
  obtain ⟨_, hshape, hitems⟩ := exists_of_bind_eq_ok h
  have hconvert := Tree.convert_toOption (Token.classifyAfter_isProper hclassify) hshape
  rw [hitems] at hconvert
  obtain ⟨t, hread, heq⟩ := Option.map_eq_some_iff.mp hconvert.symm
  exact ⟨t, (Tree.read?_eq_some_iff.mp hread).1, heq.symm⟩

/-- Tokens are compiled exactly if they are the tokens of a precedence-correct tree. There is at
most one such tree, and the tokens are compiled to its items. -/
theorem Tree.validate_convert_iff_precedenceCorrect {raws : List String} {ts : List Token}
    (h : Token.classify raws = .ok ts) :
    ((Token.validate ts = .ok () ∧ ∃ items, Pending.convert ts = .ok items) ↔
        ∃ t : Tree, t.PrecedenceCorrect ∧ t.tokens = ts) ∧
      ∀ t : Tree, t.PrecedenceCorrect → t.tokens = ts →
        Pending.convert ts = .ok (t.items false) ∧
          ∀ u : Tree, u.PrecedenceCorrect → u.tokens = ts → u = t := by
  have hproper := Token.classifyAfter_isProper h
  have htree : ∀ t : Tree, t.PrecedenceCorrect → t.tokens = ts →
      Token.validate ts = .ok () ∧ Pending.convert ts = .ok (t.items false) := by
    intro t ht htokens
    have hread := Tree.read?_eq_some_iff.mpr ⟨ht, htokens⟩
    have hshape := Tree.validate_of_read? hread
    have hconvert := Tree.convert_toOption hproper hshape
    rw [hread] at hconvert
    refine ⟨hshape, ?_⟩
    cases hx : Pending.convert ts with
    | error fault =>
        rw [hx] at hconvert
        contradiction
    | ok items =>
        rw [hx] at hconvert
        rw [Option.some.inj hconvert]
  refine ⟨⟨?_, ?_⟩, ?_⟩
  · rintro ⟨hshape, items, hitems⟩
    have hconvert := Tree.convert_toOption hproper hshape
    rw [hitems] at hconvert
    obtain ⟨t, hread, -⟩ := Option.map_eq_some_iff.mp hconvert.symm
    exact ⟨t, Tree.read?_eq_some_iff.mp hread⟩
  · rintro ⟨t, ht, htokens⟩
    obtain ⟨hshape, hconvert⟩ := htree t ht htokens
    exact ⟨hshape, t.items false, hconvert⟩
  · intro t ht htokens
    refine ⟨(htree t ht htokens).2, fun u hu hutokens => ?_⟩
    have htread := Tree.read?_eq_some_iff.mpr ⟨ht, htokens⟩
    have huread := Tree.read?_eq_some_iff.mpr ⟨hu, hutokens⟩
    exact Option.some.inj (huread.symm.trans htread)

/-- A power binds before a sign, the sign before a product, and a call is scheduled as a factor. -/
theorem Tree.convert_negated_power :
    ∃ ts, Token.classify ["-", "a", "^", "b", "*", "in", "background", "f"] = .ok ts ∧
      Pending.convert ts = .ok
        [.load "a", .load "b", .op .pow, .op .neg, .args, .call "f" true, .op .background,
          .op .mul] := by
  let left : Tree := .unary ⟨.neg, rfl⟩
    (.binary ⟨.pow, by decide⟩ (.operand (.name "a")) (.operand (.name "b")))
  let tree : Tree :=
    .binary ⟨.mul, by decide⟩ left (.unary ⟨.background, rfl⟩ (.operand (.name "f")))
  have htree : tree.PrecedenceCorrect := by
    simp [tree, left, Tree.PrecedenceCorrect, Primary.PrecedenceCorrect, Tree.isSchedulable,
      Primary.isSchedulable, Tree.EdgeFits, Tree.RootFits, Tree.OperandFits, Tree.rightEdge,
      Tree.binaryRoot?, Operator.precedence]
  have hclassify : Token.classify ["-", "a", "^", "b", "*", "in", "background", "f"] =
      .ok tree.tokens := by
    cbv
  exact ⟨tree.tokens, hclassify,
    ((Tree.validate_convert_iff_precedenceCorrect hclassify).2 tree htree rfl).1⟩

end Statute
