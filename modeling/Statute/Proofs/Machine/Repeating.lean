import Statute.Proofs.Machine.Counting

/-!
# What a counted loop visits

A counted loop evaluates its lower bound and then its upper one, each of them once and by itself. A
bound that fails, or is no whole number, leaves the statement. From then on the loop takes its
turns, and what these are follows from the steps of the loop alone: their numbers run through the
range without a gap, and stop early only at a turn that leaves the loop.

If each turn, begun in a world with some property, ends in a world with the property of the next
one, then the loop gets to its end by itself.
-/

namespace Statute

/-- How far the evaluation of a bound has come. -/
inductive Asked where
  | going (m : Machine)
  | failed (f : Failure)
  | bounded (i : Int64)

namespace Base

variable (s : Setting) (b : Base)

/-- How a bound is evaluated for a frame that waits for it: the moments, and how far it has come. -/
inductive Asks (f : Frame) (e : Expression) : List Moment → Asked → Prop
  /-- The bound is no expression, which fails at once. -/
  | refuses {g : Failure} (hcode : e.compile = .error g) : Asks f e [] (.failed g)
  | evaluates {code : Code} {us : List Moment} {n : Machine} (hcode : e.compile = .ok code)
      (heval : (b.evaluating code).Passes s us n) :
      Asks f e (us.map (.above (f :: b.frames) b.scopes))
        (.going (n.above (f :: b.frames) b.scopes))
  | fails {code : Code} {us : List Moment} {g : Failure} (hcode : e.compile = .ok code)
      (heval : (b.evaluating code).Passes s us (b.alone.answering (.leave (.failWith g))))
      (w : World) :
      Asks f e (us.map (.above (f :: b.frames) b.scopes) ++
        [⟨w, (Base.mk (f :: b.frames) b.scopes b.depth).answering (.leave (.failWith g))⟩])
        (.failed g)
  /-- The value is no whole number. -/
  | misses {code : Code} {us : List Moment} {v : Value} {w : World} {g : Failure}
      (hcode : e.compile = .ok code)
      (heval : (b.evaluating code).Passes s us (b.alone.answering (.value v)))
      (hbound : Machine.bound w.heap e.location v = .error g) :
      Asks f e (us.map (.above (f :: b.frames) b.scopes) ++
        [⟨w, (Base.mk (f :: b.frames) b.scopes b.depth).answering (.value v)⟩]) (.failed g)
  | bounds {code : Code} {us : List Moment} {v : Value} {w : World} {i : Int64}
      (hcode : e.compile = .ok code)
      (heval : (b.evaluating code).Passes s us (b.alone.answering (.value v)))
      (hbound : Machine.bound w.heap e.location v = .ok i) :
      Asks f e (us.map (.above (f :: b.frames) b.scopes) ++
        [⟨w, (Base.mk (f :: b.frames) b.scopes b.depth).answering (.value v)⟩]) (.bounded i)

/-- How a counted loop goes: the moments from the first step of its lower bound on, and what the
machine has become. -/
inductive Repeats (var : Option String) (lower upper : Expression) (body : Body) :
    List Moment → Machine → Prop
  | lower {ts : List Moment} {m : Machine}
      (hlower : b.Asks s (.lower var lower.location upper body) lower ts (.going m)) :
      Repeats var lower upper body ts m
  | failsLower {us vs : List Moment} {f : Failure} {m : Machine}
      (hlower : b.Asks s (.lower var lower.location upper body) lower us (.failed f))
      (hrest : (b.answering (.leave (.failWith f))).Passes s vs m) :
      Repeats var lower upper body (us ++ vs) m
  | upper {us ts : List Moment} {lo : Int64} {m : Machine}
      (hlower : b.Asks s (.lower var lower.location upper body) lower us (.bounded lo))
      (hupper : b.Asks s (.upper var lo upper.location body) upper ts (.going m)) :
      Repeats var lower upper body (us ++ ts) m
  | failsUpper {us vs ws : List Moment} {lo : Int64} {f : Failure} {m : Machine}
      (hlower : b.Asks s (.lower var lower.location upper body) lower us (.bounded lo))
      (hupper : b.Asks s (.upper var lo upper.location body) upper vs (.failed f))
      (hrest : (b.answering (.leave (.failWith f))).Passes s ws m) :
      Repeats var lower upper body (us ++ (vs ++ ws)) m
  /-- Both bounds are known, and the loop takes its turns. -/
  | counts {us vs ws : List Moment} {lo hi : Int64} {m : Machine}
      (hlower : b.Asks s (.lower var lower.location upper body) lower us (.bounded lo))
      (hupper : b.Asks s (.upper var lo upper.location body) upper vs (.bounded hi))
      (hcounts : b.Does s (fun ts res => ∃ turns, b.Counts s var hi body (some lo) ts turns res)
        ws m) :
      Repeats var lower upper body (us ++ (vs ++ ws)) m

/-- What the turns are of a counted loop from `lower` to `upper`. -/
structure Visits (var : Option String) (lower upper : Int64) (body : Body) (turns : List Turn)
    (res : Headway) : Prop where
  /-- The numbers begin with the lower bound and follow one another. -/
  numbers : ∀ (k : Nat) t, turns[k]? = some t → t.number.toInt = lower.toInt + k
  within : ∀ t ∈ turns, t.number ≤ upper
  begun : ∀ t ∈ turns, b.Begins s var upper body t
  fresh : ∀ t ∈ turns, t.Fresh var
  completed : ∀ t ∈ turns.dropLast, t.Completes
  /-- When the loop has ended, each body has been left in one way or the other. -/
  finished : ∀ signal, res = .ended signal → ∀ t ∈ turns, t.Completes ∨ ∃ e, t.Leaves e
  /-- If all bodies complete, the loop ends normally after the turn of its upper bound. -/
  full : ∀ signal, res = .ended signal → (∀ t ∈ turns, t.Completes) →
    signal = .run ∧ turns.length = (upper.toInt - lower.toInt + 1).toNat ∧
      ∀ t ∈ turns.getLast?, t.number = upper
  /-- A turn that leaves the loop is the last one, and the loop comes to what this means. -/
  left : ∀ (k : Nat) t e, turns[k]? = some t → t.Leaves e →
    k + 1 = turns.length ∧ ∀ signal, res = .ended signal → signal = e.pastLoop
  /-- A loop that has not ended is inside a body, or takes its next step in whatever world. -/
  goesOn : ∀ m, res = .going m →
    (∃ t, turns.getLast? = some t ∧ t.machine.frames ≠ [] ∧
        m = t.machine.above (b.beyond var upper body t).frames b.scopes) ∨
      ∀ w, (m.step s w).step = .next ∨ (m.step s w).step = .pause

def Yields (e : Expression) (w : World) (v : Value) (w' : World) : Prop :=
  ∃ code sts, e.compile = .ok code ∧
    (b.evaluating code).Walks s w sts w' (b.alone.answering (.value v))

/-- The turn with a number, begun in the given world, completes by itself and leaves a world of
which `P` holds. -/
def Rounds (var : Option String) (body : Body) (P : World → Prop) (i : Int64) (w : World) : Prop :=
  ∃ sts w' n, (b.running w.heap.scopes.size body).Walks s (w.turned var i) sts w' n ∧
    Turn.Completes ⟨i, w, n⟩ ∧ P w'

end Base

variable {s : Setting} {b : Base} {var : Option String} {lower upper : Expression} {body : Body}
  {f : Frame} {e : Expression} {ts : List Moment} {m : Machine} {w w' w₀ : World} {lo hi : Int64}
  {turns : List Turn} {res : Headway}

namespace Base

/-- Whatever the history of a machine that evaluates a bound, it is one that this can have. With the
bound the frame that waits for it makes the machine go on as `next` says. -/
theorem asks_of_passes {next : Int64 → Machine} (hf : f.IsWaiting)
    (hreceive : ∀ w v, ((b.answering .run).receive s w v f).machine =
      match Machine.bound w.heap e.location v with
      | .ok i => next i
      | .error g => b.answering (.leave (.failWith g)))
    (h : ((b.answering .run).evaluate w₀ f e).machine.Passes s ts m) :
    b.Asks s f e ts (.going m) ∨
      (∃ us vs g, ts = us ++ vs ∧ b.Asks s f e us (.failed g) ∧
        (b.answering (.leave (.failWith g))).Passes s vs m) ∨
      ∃ us vs i, ts = us ++ vs ∧ b.Asks s f e us (.bounded i) ∧ (next i).Passes s vs m := by
  cases hcode : e.compile with
  | error g =>
      simp only [Machine.evaluate, hcode] at h
      exact Or.inr (Or.inl ⟨[], ts, g, rfl, .refuses hcode, h⟩)
  | ok code =>
      simp only [Machine.evaluate, hcode] at h
      change ((b.evaluating code).above (f :: b.frames) b.scopes).Passes s ts m at h
      have horder := Call.inOrder_evaluating b code
      rcases h.of_above horder with
        ⟨us, n, rfl, rfl, hus⟩ | ⟨us, n, w, later, rfl, hus, hend, hlater⟩
      · exact Or.inl (.evaluates hcode hus)
      obtain ⟨signal, ⟨v, rfl⟩ | ⟨g, rfl⟩, rfl⟩ := Call.answer_of_inOrder (hus.inOrder horder) hend
      · cases hlater with
        | go hcrash hrest =>
            change ((b.answering .run).receive s w v f).machine.Passes s later m at hrest
            rw [hreceive] at hrest
            cases hbound : Machine.bound w.heap e.location v with
            | ok i =>
                rw [hbound] at hrest
                refine Or.inr (Or.inr ⟨_, later, i, ?_, .bounds hcode hus hbound, hrest⟩)
                rw [List.append_assoc]
                rfl
            | error g =>
                rw [hbound] at hrest
                refine Or.inr (Or.inl ⟨_, later, g, ?_, .misses hcode hus hbound, hrest⟩)
                rw [List.append_assoc]
                rfl
      · cases hlater with
        | go hcrash hrest =>
            change ((b.answering .run).unwind s w (.failWith g) f).machine.Passes s later m at hrest
            rw [Machine.unwind_of_isWaiting hf] at hrest
            refine Or.inr (Or.inl ⟨_, later, g, ?_, .fails hcode hus w, hrest⟩)
            rw [List.append_assoc]
            rfl

/-- Whatever the history of a machine that has begun a counted loop, it is one that the loop can
have. -/
theorem repeats_of_passes
    (h : ((b.answering .run).begin w₀ (.repeatFor var lower upper body)).machine.Passes s ts m) :
    b.Repeats s var lower upper body ts m := by
  have hlower : ∀ w v, ((b.answering .run).receive s w v
      (.lower var lower.location upper body)).machine =
        match Machine.bound w.heap lower.location v with
        | .ok lo =>
            ((b.answering .run).evaluate w₀ (.upper var lo upper.location body) upper).machine
        | .error g => b.answering (.leave (.failWith g)) := by
    intro w v
    rw [Machine.receive]
    cases Machine.bound w.heap lower.location v with
    | error g => rfl
    | ok lo =>
        simp only [Machine.evaluate]
        cases upper.compile <;> rfl
  have hupper : ∀ lo w v, ((b.answering .run).receive s w v
      (.upper var lo upper.location body)).machine =
        match Machine.bound w.heap upper.location v with
        | .ok hi => b.counting var (some lo) hi body
        | .error g => b.answering (.leave (.failWith g)) := by
    intro lo w v
    rw [Machine.receive]
    cases Machine.bound w.heap upper.location v <;> rfl
  rcases asks_of_passes ⟨rfl, rfl⟩ hlower h with
    hgoing | ⟨us, vs, g, rfl, hfails, hrest⟩ | ⟨us, vs, lo, rfl, hlo, hrest⟩
  · exact .lower hgoing
  · exact .failsLower hfails hrest
  rcases asks_of_passes ⟨rfl, rfl⟩ (hupper lo) hrest with
    hgoing | ⟨us', ws, g, rfl, hfails, hrest⟩ | ⟨us', ws, hi, rfl, hhi, hrest⟩
  · exact .upper hlo hgoing
  · exact .failsUpper hlo hfails hrest
  · exact .counts hlo hhi (does_counts hrest)

theorem Counts.visits (h : b.Counts s var hi body (some lo) ts turns res) :
    b.Visits s var lo hi body turns res where
  numbers := h.numbers lo rfl
  within := h.within
  begun := h.begun
  fresh t _ := t.fresh var
  completed := h.completed
  finished := by
    rintro signal rfl
    exact h.finished
  full := by
    rintro signal rfl hall
    obtain ⟨hrun, hlength⟩ := h.full hall
    refine ⟨hrun, hlength, fun t ht => ?_⟩
    rw [List.getLast?_eq_getElem?] at ht
    have hnumber := h.numbers lo rfl _ t ht
    have hlast := (List.getElem?_eq_some_iff.mp ht).1
    rw [← Int64.toInt_inj]
    simp only [Machine.turnsLeft] at hlength
    omega
  left k t e ht hleaves := by
    refine ⟨h.last_of_leaves ht hleaves, ?_⟩
    rintro signal rfl
    exact h.left (List.mem_of_getElem? ht) hleaves
  goesOn := by
    rintro m rfl
    exact h.goesOn

/-! ## Loops that run by themselves -/

/-- The rule of counted loops: what each turn hands to the next holds when the loop is over. -/
theorem walks_counting {P : Int → World → Prop} {first : Int64}
    (hrounds : ∀ i w, first ≤ i → i ≤ hi → P i.toInt w →
      b.Rounds s var body (P (i.toInt + 1)) i w)
    (hfirst : first ≤ lo) (hw : P lo.toInt w) :
    ∃ sts w', (b.counting var (some lo) hi body).Walks s w sts w' (b.answering .run) ∧
      P (max lo.toInt (hi.toInt + 1)) w' := by
  induction hleft : Machine.turnsLeft hi (some lo) generalizing lo w with
  | zero =>
      have hover : hi < lo := by
        rw [Int64.lt_iff_toInt_lt]
        simp only [Machine.turnsLeft] at hleft
        omega
      refine ⟨[.next], w, .one (step_counting_over (by simpa using hover) w) (Or.inl rfl), ?_⟩
      rwa [max_eq_left (Int.add_one_le_of_lt (Int64.lt_iff_toInt_lt.mp hover))]
  | succ n ih =>
      have hle : lo ≤ hi := by
        rw [Int64.le_iff_toInt_le]
        simp only [Machine.turnsLeft] at hleft
        omega
      obtain ⟨sts, w₁, m, hbody, ⟨hend, hsignal⟩, hw₁⟩ := hrounds lo w hfirst hle hw
      have horder := b.inOrder_running w.heap.scopes.size body
      obtain ⟨signal, -, rfl⟩ := (horder.walks hbody).ending hend
      have hturn : (b.counting var (some lo) hi body).Walks s w (.pause :: sts) w₁
          ((b.looping var (Machine.successor? lo) hi body).answering signal) :=
        .go (step_counting hle w) (Or.inr rfl) (hbody.above horder)
      have hagain : ∃ sts, (b.counting var (some lo) hi body).Walks s w sts w₁
          (b.counting var (Machine.successor? lo) hi body) := by
        rcases hsignal with rfl | rfl
        · exact ⟨_, hturn⟩
        · exact ⟨_, hturn.append (.one (b.step_looping_continue w₁) (Or.inl rfl))⟩
      obtain ⟨sts₁, hagain⟩ := hagain
      rw [Machine.turnsLeft_successor? hle, Nat.succ_inj] at hleft
      rw [Int64.le_iff_toInt_le] at hle hfirst
      cases hnext : Machine.successor? lo with
      | none =>
          have hmax := Machine.toInt_of_successor?_eq_none hnext
          have hlast := Int64.toInt_lt hi
          have hlo : lo.toInt = hi.toInt := by
            unfold maxInt at hmax
            omega
          rw [hnext] at hagain
          refine ⟨_, w₁, hagain.append (.one (step_counting_over (by simp) w₁) (Or.inl rfl)), ?_⟩
          rwa [max_eq_right (by omega), ← hlo]
      | some j =>
          have hj := Machine.toInt_of_successor? hnext
          rw [hnext] at hagain hleft
          have hfirst' : first ≤ j := by
            rw [Int64.le_iff_toInt_le]
            omega
          obtain ⟨sts₂, w', hrest, hw'⟩ := ih hfirst' (by rwa [hj]) hleft
          have hend : max j.toInt (hi.toInt + 1) = max lo.toInt (hi.toInt + 1) := by omega
          exact ⟨_, w', hagain.append hrest, hend ▸ hw'⟩

theorem Yields.walks {v : Value} (h : b.Yields s e w v w') (f : Frame) (w₀ : World) :
    ∃ sts, ((b.answering .run).evaluate w₀ f e).machine.Walks s w sts w'
      ((Base.mk (f :: b.frames) b.scopes b.depth).answering (.value v)) := by
  obtain ⟨code, sts, hcode, hwalk⟩ := h
  simp only [Machine.evaluate, hcode]
  exact ⟨sts, hwalk.above (Call.inOrder_evaluating b code)⟩

/-- A counted loop whose bounds come to whole numbers by themselves, and whose turns complete by
themselves, ends normally. -/
theorem walks_repeatFor {w₁ w₂ : World} {v₁ v₂ : Value} {P : Int → World → Prop}
    (hlower : b.Yields s lower w₀ v₁ w₁) (hlo : Machine.bound w₁.heap lower.location v₁ = .ok lo)
    (hupper : b.Yields s upper w₁ v₂ w₂) (hhi : Machine.bound w₂.heap upper.location v₂ = .ok hi)
    (hrounds : ∀ i w, lo ≤ i → i ≤ hi → P i.toInt w → b.Rounds s var body (P (i.toInt + 1)) i w)
    (hw : P lo.toInt w₂) :
    ∃ sts w', ((b.answering .run).begin w₀ (.repeatFor var lower upper body)).machine.Walks s w₀ sts
        w' (b.answering .run) ∧ P (max lo.toInt (hi.toInt + 1)) w' := by
  obtain ⟨sts₁, hwalk₁⟩ := hlower.walks (.lower var lower.location upper body) w₀
  obtain ⟨sts₂, hwalk₂⟩ := hupper.walks (.upper var lo upper.location body) w₁
  obtain ⟨sts₃, w', hwalk₃, hw'⟩ := walks_counting hrounds (Int64.le_refl lo) hw
  have hstep₁ : ((Base.mk (.lower var lower.location upper body :: b.frames) b.scopes
      b.depth).answering (.value v₁)).step s w₁ =
        ⟨.next, w₁, ((b.answering .run).evaluate w₁ (.upper var lo upper.location body)
          upper).machine⟩ := by
    obtain ⟨code, -, hcode, -⟩ := hupper
    change (b.answering .run).receive s w₁ v₁ (.lower var lower.location upper body) = _
    simp only [Machine.receive, hlo, Machine.evaluate, hcode]
    rfl
  have hstep₂ : ((Base.mk (.upper var lo upper.location body :: b.frames) b.scopes
      b.depth).answering (.value v₂)).step s w₂ =
        ⟨.next, w₂, b.counting var (some lo) hi body⟩ := by
    change (b.answering .run).receive s w₂ v₂ (.upper var lo upper.location body) = _
    simp only [Machine.receive, hhi]
    rfl
  exact ⟨_, w', hwalk₁.append (.go hstep₁ (Or.inl rfl) (hwalk₂.append
    (.go hstep₂ (Or.inl rfl) hwalk₃))), hw'⟩

/-- A counted loop visits exactly its range. Whatever happens to the world between its steps, it
evaluates its bounds one after the other and then takes its turns, as `Base.Repeats` says; of these
`Base.Visits` says what their numbers and scopes are, how many of them there are, and what the loop
ends with. By itself the loop gets to its end if its bounds and its turns do. -/
theorem repeatFor_visits (s : Setting) (b : Base) (w₀ : World) (var : Option String)
    (lower upper : Expression) (body : Body) :
    (∀ ts m, ((b.answering .run).begin w₀ (.repeatFor var lower upper body)).machine.Passes s ts m →
      b.Repeats s var lower upper body ts m) ∧
      (∀ lo hi ts turns res, b.Counts s var hi body (some lo) ts turns res →
        b.Visits s var lo hi body turns res) ∧
      ∀ w₁ w₂ v₁ v₂ lo hi, b.Yields s lower w₀ v₁ w₁ →
        Machine.bound w₁.heap lower.location v₁ = .ok lo → b.Yields s upper w₁ v₂ w₂ →
        Machine.bound w₂.heap upper.location v₂ = .ok hi → ∀ P : Int → World → Prop,
          (∀ i w, lo ≤ i → i ≤ hi → P i.toInt w → b.Rounds s var body (P (i.toInt + 1)) i w) →
          P lo.toInt w₂ →
            ∃ sts w', ((b.answering .run).begin w₀ (.repeatFor var lower upper body)).machine.Walks
              s w₀ sts w' (b.answering .run) ∧ P (max lo.toInt (hi.toInt + 1)) w' :=
  ⟨fun _ _ => repeats_of_passes, fun _ _ _ _ _ => Counts.visits,
    fun _ _ _ _ _ _ hlower hlo hupper hhi _ => walks_repeatFor hlower hlo hupper hhi⟩

def numeral (raw : String) : Expression :=
  ⟨[raw], ⟨"main", 1, raw⟩⟩

theorem yields_numeral {raw : String} {i : Int64} (s : Setting) (b : Base) (w : World)
    (hraw : Token.next (none.all Token.wantsOperand) raw [] = .ok (.literal (.int i), [])) :
    b.Yields s (numeral raw) w (.int i) w := by
  have hclassify : Token.classify [raw] = .ok [.literal (.int i)] := by
    rw [Token.classify, Token.classifyAfter_cons (.literal (.int i)) hraw, Token.classifyAfter]
    rfl
  have hcode : (numeral raw).compile = .ok ⟨[.push (.int i)], (numeral raw).location⟩ := by
    rw [Expression.compile, numeral, Code.itemsOf, hclassify]
    rfl
  exact ⟨_, [.next, .next], hcode, .go rfl (Or.inl rfl) (.one rfl (Or.inl rfl))⟩

/-- A turn whose body has asked for the next one. -/
def skipping (i : Int64) (w : World) : Turn :=
  ⟨i, w, ⟨[], .leave .continueOn, ⟨World.globals, []⟩, 0⟩⟩

/-- There are two turns up to the greatest integer, though no integer comes after it. -/
theorem repeatFor_visits_greatest :
    let b : Base := ⟨[], ⟨World.globals, []⟩, 0⟩
    let s : Setting := ⟨default, default, Host.none⟩
    let w := World.new default
    let lower := numeral "9223372036854775806"
    let upper := numeral "9223372036854775807"
    let body : Body := [.continueOn]
    let turns := [skipping 9223372036854775806 w,
      skipping 9223372036854775807 (w.turned (some "i") 9223372036854775806)]
    (∃ ts, ((b.answering .run).begin w (.repeatFor (some "i") lower upper body)).machine.Passes s ts
        (b.answering .run) ∧ b.Repeats s (some "i") lower upper body ts (b.answering .run)) ∧
      (∃ ts, b.Counts s (some "i") 9223372036854775807 body (some 9223372036854775806) ts turns
        (.ended .run)) ∧
      b.Visits s (some "i") 9223372036854775806 9223372036854775807 body turns (.ended .run) := by
  intro b s w lower upper body turns
  obtain ⟨hrepeats, hvisits, hends⟩ := repeatFor_visits s b w (some "i") lower upper body
  have hwalk : ∀ r w, (b.running r body).Walks s w [.next, .next] w
      ⟨[], .leave .continueOn, ⟨World.globals, []⟩, 0⟩ :=
    fun r w => .go rfl (Or.inl rfl) (.one rfl (Or.inl rfl))
  have htakes : ∀ i w, i ≤ 9223372036854775807 → ∃ us,
      b.Takes s (some "i") 9223372036854775807 body (skipping i w) us := by
    intro i w hi
    obtain ⟨us, hus⟩ := (hwalk w.heap.scopes.size w).passes
    exact ⟨_, hi, step_counting hi w, us, hus, rfl⟩
  have hcounts : ∃ ts, b.Counts s (some "i") 9223372036854775807 body (some 9223372036854775806) ts
      turns (.ended .run) := by
    obtain ⟨us, hfirst⟩ := htakes 9223372036854775806 w (by decide)
    obtain ⟨vs, hsecond⟩ :=
      htakes 9223372036854775807 (w.turned (some "i") 9223372036854775806) (by decide)
    have hnext : Machine.successor? (skipping 9223372036854775806 w).number =
        some 9223372036854775807 := by decide
    have hnone : Machine.successor? 9223372036854775807 = none := by decide
    have hover : ∀ i ∈ Machine.successor? 9223372036854775807, 9223372036854775807 < i := by
      rw [hnone]
      exact nofun
    have hlast := Counts.continues hsecond rfl rfl w (.finishes hover w)
    change b.Counts s (some "i") 9223372036854775807 body (some 9223372036854775807) _ _ _ at hlast
    rw [← hnext] at hlast
    exact ⟨_, .continues hfirst rfl rfl w hlast⟩
  obtain ⟨ts, hts⟩ := hcounts
  obtain ⟨sts, w', hloop, -⟩ := hends w w (.int 9223372036854775806) (.int 9223372036854775807)
    9223372036854775806 9223372036854775807 (yields_numeral s b w rfl) rfl
    (yields_numeral s b w rfl) rfl (fun _ _ => True)
    (fun i w _ _ _ => ⟨_, _, _, hwalk _ _, ⟨rfl, Or.inr rfl⟩, trivial⟩) trivial
  obtain ⟨us, hpasses⟩ := hloop.passes
  exact ⟨⟨us, hpasses, hrepeats us _ hpasses⟩, ⟨ts, hts⟩, hvisits _ _ _ _ _ hts⟩

end Base

end Statute
