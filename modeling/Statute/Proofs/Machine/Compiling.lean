import Statute.Proofs.Machine.Repertoire

/-!
# Where compiled code comes from

A frame carries the part of a program that it has still to come to, and code that was compiled
before. Both are drawn from the same expressions: `Frame.DrawsOn`. What takes the place of the frame
draws on them as well, as long as they include the expressions of every procedure that can be
called.

So the expressions that a frame may have compiled are among them, and whatever code is evaluated was
compiled from one of them.
-/

namespace Statute

/-! ## Expressions of statements -/

theorem Statement.expressions_choose (branches : List Branch) (otherwise : Option Body) :
    (choose branches otherwise).expressions =
      Branch.listExpressions branches ++ (otherwise.map Body.expressions).getD [] := by
  cases otherwise <;> simp [Statement.expressions]

theorem Branch.listExpressions_cons (test : Expression) (body : Body) (rest : List Branch) :
    listExpressions (.mk test body :: rest) =
      test :: (Body.expressions body ++ listExpressions rest) := by
  rw [listExpressions, List.cons_append]

theorem Handler.expressions_subset {handler : Handler} {handlers : List Handler}
    (h : handler ∈ handlers) : Body.expressions handler.body ⊆ listExpressions handlers := by
  induction handlers with
  | nil => contradiction
  | cons first rest ih =>
      obtain ⟨cls, name, body⟩ := first
      rw [listExpressions]
      rcases List.mem_cons.mp h with rfl | h
      · exact List.subset_append_left _ _
      · exact List.subset_append_of_subset_right _ (ih h)

theorem Statement.mem_of_first? {stmt : Statement} {e : Expression} (h : stmt.first? = some e) :
    e ∈ stmt.expressions := by
  cases stmt with
  | choose branches otherwise =>
      cases branches with
      | nil => cases h
      | cons b rest =>
          obtain ⟨test, body⟩ := b
          obtain rfl := Option.some.inj h
          rw [expressions_choose, Branch.listExpressions_cons]
          exact List.mem_cons_self
  | returnWith value =>
      cases value with
      | none => cases h
      | some value =>
          obtain rfl := Option.some.inj h
          simp [Statement.expressions]
  | attempt body handlers => cases h
  | exclusive lock body => cases h
  | breakOut => cases h
  | continueOn => cases h
  | _ =>
      obtain rfl := Option.some.inj h
      simp [Statement.expressions]

/-! ## Frames -/

namespace Frame

/-- The expressions that a frame has still to come to, apart from those of calls. -/
def written : Frame → List Expression
  | .body rest _ _ => Body.expressions rest
  | .branch _ b rest otherwise =>
      Body.expressions b ++
        (Branch.listExpressions rest ++ (otherwise.map Body.expressions).getD [])
  | .lower _ _ e b => e :: Body.expressions b
  | .upper _ _ _ b => Body.expressions b
  | .count _ _ _ b => Body.expressions b
  | .test e b => e :: Body.expressions b
  | .again e b => e :: Body.expressions b
  | .guard handlers => Handler.listExpressions handlers
  | .enter _ b => Body.expressions b
  | _ => []

def EvaluatesOnly (E : List Expression) : Frame → Prop
  | .eval items _ site => ∃ e ∈ E, ∃ c, e.compile = .ok c ∧ items <:+ c.items ∧ site = c.location
  | _ => True

/-- A frame draws on some expressions: it comes to no others, and it evaluates no others. -/
structure DrawsOn (E : List Expression) (f : Frame) : Prop where
  written : f.written ⊆ E
  evaluates : f.EvaluatesOnly E

variable {E : List Expression} {f : Frame} {e : Expression}

theorem drawsOn_body {body : Body} (h : Body.expressions body ⊆ E) (own begun : Bool) :
    (Frame.body body own begun).DrawsOn E :=
  ⟨h, trivial⟩

/-- A frame that comes to nothing but a call or its end. -/
theorem drawsOn_of_nil (hwritten : f.written = []) (hf : f.EvaluatesOnly E) : f.DrawsOn E :=
  ⟨hwritten ▸ List.nil_subset E, hf⟩

theorem drawsOn_compiled {c : Code} (he : e ∈ E) (hcode : e.compile = .ok c) :
    (Frame.eval c.items [] c.location).DrawsOn E :=
  ⟨List.nil_subset E, e, he, c, hcode, List.suffix_rfl, rfl⟩

theorem DrawsOn.eval {items rest : List Item} {stack : List Operand} {site : Location}
    (h : (Frame.eval items stack site).DrawsOn E) (hrest : rest <:+ items)
    (stack' : List Operand) : (Frame.eval rest stack' site).DrawsOn E := by
  obtain ⟨e, he, c, hcode, hitems, rfl⟩ := h.evaluates
  exact ⟨List.nil_subset E, e, he, c, hcode, hrest.trans hitems, rfl⟩

/-! ## Parts of a step -/

end Frame

theorem Statement.first?_of_waiting? {stmt : Statement} {f : Frame} {e : Expression}
    (h : stmt.waiting? = some (f, e)) : stmt.first? = some e := by
  unfold first?
  split
  · cases h
  · rw [h]
    rfl

/-- What a statement leaves behind to wait is a part of it. -/
theorem Statement.written_of_waiting? {stmt : Statement} {f : Frame} {e : Expression}
    (h : stmt.waiting? = some (f, e)) :
    f.written ⊆ stmt.expressions ∧ ∀ E, f.EvaluatesOnly E := by
  cases stmt with
  | returnWith value =>
      cases value with
      | none => cases h
      | some value =>
          obtain ⟨rfl, -⟩ := Prod.mk.inj (Option.some.inj h)
          exact ⟨List.nil_subset _, fun _ => trivial⟩
  | repeatFor var lower upper body =>
      obtain ⟨rfl, -⟩ := Prod.mk.inj (Option.some.inj h)
      rw [Statement.expressions]
      exact ⟨List.subset_cons_self _ _, fun _ => trivial⟩
  | repeatWhile test body =>
      obtain ⟨rfl, -⟩ := Prod.mk.inj (Option.some.inj h)
      rw [Statement.expressions]
      exact ⟨List.Subset.refl _, fun _ => trivial⟩
  | choose branches otherwise => cases h
  | attempt body handlers => cases h
  | exclusive lock body => cases h
  | breakOut => cases h
  | continueOn => cases h
  | _ =>
      obtain ⟨rfl, -⟩ := Prod.mk.inj (Option.some.inj h)
      exact ⟨List.nil_subset _, fun _ => trivial⟩

namespace Frame

variable {E : List Expression} {R : Repertoire} {f : Frame} {e : Expression} {gs : List Frame}
  {sig sig' : Signal}

theorem drawsOn_of_evaluates (h : Evaluates f e gs sig) (he : e ∈ E) (hf : f.DrawsOn E) :
    ∀ g ∈ gs, g.DrawsOn E := by
  cases h with
  | begun hcode =>
      exact List.forall_mem_cons.mpr
        ⟨drawsOn_compiled he hcode, List.forall_mem_singleton.mpr hf⟩
  | refused failure => exact List.forall_mem_nil _

theorem drawsOn_of_chooses {branches : List Branch} {otherwise : Option Body}
    (h : Chooses otherwise branches gs sig)
    (hE : Branch.listExpressions branches ++ (otherwise.map Body.expressions).getD [] ⊆ E) :
    ∀ g ∈ gs, g.DrawsOn E := by
  cases h with
  | @tests test body rest gs sig htest =>
      rw [Branch.listExpressions_cons, List.cons_append, List.cons_subset, List.append_assoc] at hE
      exact drawsOn_of_evaluates htest hE.1 ⟨hE.2, trivial⟩
  | otherwise hbody =>
      subst hbody
      exact List.forall_mem_singleton.mpr
        (drawsOn_body ((List.append_subset.mp hE).2) true false)
  | nothing => exact List.forall_mem_nil _

theorem drawsOn_of_begins {stmt : Statement} (h : Begins stmt gs sig)
    (hE : stmt.expressions ⊆ E) : ∀ g ∈ gs, g.DrawsOn E := by
  cases h with
  | @evaluates stmt f e gs sig hwaiting he =>
      have hfirst := hE (Statement.mem_of_first? (Statement.first?_of_waiting? hwaiting))
      obtain ⟨hpart, hcode⟩ := Statement.written_of_waiting? hwaiting
      exact drawsOn_of_evaluates he hfirst ⟨List.Subset.trans hpart hE, hcode E⟩
  | chooses h =>
      rw [Statement.expressions_choose] at hE
      exact drawsOn_of_chooses h hE
  | attempts body handlers =>
      rw [Statement.expressions, List.append_subset] at hE
      exact List.forall_mem_cons.mpr ⟨drawsOn_body hE.1 true false,
        List.forall_mem_singleton.mpr ⟨hE.2, trivial⟩⟩
  | excludes lock body =>
      rw [Statement.expressions] at hE
      exact List.forall_mem_singleton.mpr ⟨hE, trivial⟩
  | leaves stmt e => exact List.forall_mem_nil _

/-- The default of a parameter is an expression of its procedure. -/
theorem mem_expressions_of_default {p : Procedure} {q : Param} (hq : q ∈ p.params)
    (hdefault : q.default = some e) : e ∈ p.expressions :=
  List.mem_append_left _ (List.mem_filterMap.mpr ⟨q, hq, hdefault⟩)

theorem drawsOn_of_supplies {limit depth : Nat} {c : Call} {params : List Param}
    (h : Supplies limit depth c params gs sig) (hparams : params <:+ c.procedure.params)
    (hE : c.procedure.expressions ⊆ E) : ∀ g ∈ gs, g.DrawsOn E := by
  cases h with
  | enters hdepth =>
      exact List.forall_mem_cons.mpr ⟨drawsOn_body ((List.append_subset.mp hE).2) false false,
        List.forall_mem_singleton.mpr (drawsOn_of_nil rfl trivial)⟩
  | @default p rest e code hdefault hcode =>
      have hp : p ∈ c.procedure.params := hparams.subset List.mem_cons_self
      exact List.forall_mem_cons.mpr
        ⟨drawsOn_compiled (hE (mem_expressions_of_default hp hdefault)) hcode,
          List.forall_mem_singleton.mpr (drawsOn_of_nil rfl trivial)⟩
  | refused params failure => exact List.forall_mem_nil _

theorem drawsOn_of_initialises {cls : Class} {site : Option Location}
    (h : Initialises cls site gs sig) : ∀ g ∈ gs, g.DrawsOn E := by
  cases h with
  | calls hctor object args =>
      exact List.forall_mem_cons.mpr ⟨drawsOn_of_nil rfl trivial,
        List.forall_mem_singleton.mpr (drawsOn_of_nil rfl trivial)⟩
  | ends sig => exact List.forall_mem_nil _

/-! ## A whole step -/

/-- What takes the place of a frame draws on the same expressions, if these include all that can be
called. -/
theorem Becomes.drawsOn {limit depth : Nat} {st : Step} (h : f.Becomes limit depth sig st gs sig')
    (hamong : f.Among R) (hR : ∀ p ∈ R.procedures, p.expressions ⊆ E) (hf : f.DrawsOn E) :
    ∀ g ∈ gs, g.DrawsOn E := by
  have hE := hf.written
  cases h with
  | ends f sig sig' => exact List.forall_mem_nil _
  | waits f => exact List.forall_mem_singleton.mpr hf
  | stops f hexit hsig => exact List.forall_mem_singleton.mpr hf
  | rests rest own => exact List.forall_mem_singleton.mpr (drawsOn_body hE own false)
  | @begins stmt rest own gs sig h =>
      rw [written, Body.expressions_cons, List.append_subset] at hE
      exact List.forall_mem_append.mpr ⟨drawsOn_of_begins h hE.1,
        List.forall_mem_singleton.mpr (drawsOn_body hE.2 own true)⟩
  | counts var now next last body =>
      exact List.forall_mem_cons.mpr ⟨drawsOn_body hE true false,
        List.forall_mem_singleton.mpr ⟨hE, trivial⟩⟩
  | retests h =>
      exact drawsOn_of_evaluates h (List.cons_subset.mp hE).1 ⟨hE, trivial⟩
  | locks lock body =>
      exact List.forall_mem_cons.mpr ⟨drawsOn_body hE true false,
        List.forall_mem_singleton.mpr (drawsOn_of_nil rfl trivial)⟩
  | goesOn i rest stack stack' site =>
      exact List.forall_mem_singleton.mpr (hf.eval (List.suffix_cons i rest) stack')
  | @calls i hcalls rest stack stack' site callee args =>
      exact List.forall_mem_cons.mpr ⟨drawsOn_of_nil rfl trivial,
        List.forall_mem_singleton.mpr (hf.eval (List.suffix_cons i rest) stack')⟩
  | binds hcallee n h args =>
      have hp := hamong.1.mem_of_procedure? hcallee
      exact drawsOn_of_supplies h (List.drop_suffix _ _) (hR _ hp)
  | constructs cls args site => exact List.forall_mem_singleton.mpr (drawsOn_of_nil rfl trivial)
  | initialises h args => exact drawsOn_of_initialises h
  | descends hparent object args args' taken site =>
      exact List.forall_mem_cons.mpr ⟨drawsOn_of_nil rfl trivial,
        List.forall_mem_singleton.mpr (drawsOn_of_nil rfl trivial)⟩
  | accepts site body rest otherwise v =>
      exact List.forall_mem_singleton.mpr (drawsOn_body (List.append_subset.mp hE).1 true false)
  | rejects h site body v => exact drawsOn_of_chooses h (List.append_subset.mp hE).2
  | bounds h site v =>
      obtain ⟨hupper, hbody⟩ := List.cons_subset.mp hE
      exact drawsOn_of_evaluates h hupper ⟨hbody, trivial⟩
  | bounded var next last site body v =>
      exact List.forall_mem_singleton.mpr ⟨hE, trivial⟩
  | turns test body v =>
      exact List.forall_mem_cons.mpr ⟨drawsOn_body (List.cons_subset.mp hE).2 true false,
        List.forall_mem_singleton.mpr ⟨hE, trivial⟩⟩
  | receives items stack site v =>
      exact List.forall_mem_singleton.mpr (hf.eval List.suffix_rfl _)
  | @supplies c c' hc hsite rest gs sig h v =>
      obtain ⟨hc', hrest⟩ := hamong
      rw [← hc] at hrest
      exact drawsOn_of_supplies h hrest (hc ▸ hR _ hc'.procedure)
  | adopts h object args taken v => exact drawsOn_of_initialises h
  | handles hmem e =>
      exact List.forall_mem_singleton.mpr
        (drawsOn_body (List.Subset.trans (Handler.expressions_subset hmem) hE) true false)

/-- What a frame may have compiled is among the expressions that it draws on. -/
theorem Compiles.mem (h : f.Compiles sig e) (hamong : f.Among R)
    (hR : ∀ p ∈ R.procedures, p.expressions ⊆ E) (hf : f.DrawsOn E) : e ∈ E := by
  have hE := hf.written
  cases h with
  | begins hfirst rest own =>
      rw [written, Body.expressions_cons, List.append_subset] at hE
      exact hE.1 (Statement.mem_of_first? hfirst)
  | retests body => exact hE List.mem_cons_self
  | rejects site body body' rest otherwise v =>
      rw [written, Branch.listExpressions_cons] at hE
      exact hE (List.mem_append_right _ List.mem_cons_self)
  | bounds var site body v => exact hE List.mem_cons_self
  | binds hcallee hparam hdefault args site =>
      have hp := hamong.1.mem_of_procedure? hcallee
      exact hR _ hp (mem_expressions_of_default hparam hdefault)
  | supplies hdefault c rest v =>
      exact hR _ hamong.1.procedure
        (mem_expressions_of_default (hamong.2.subset List.mem_cons_self) hdefault)

end Frame

end Statute
