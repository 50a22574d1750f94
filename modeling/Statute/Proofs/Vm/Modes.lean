import Statute.Vm.Step

/-!
# The two modes

A synchronous and a cooperative machine take the same steps, but for their checkpoints. At the
beginning of a turn of a loop, at a lock that is held and at a task that is not done, the
cooperative machine takes the same step and says that it yields. After a statement it takes a step
of its own, which does nothing but note down that the checkpoint has been reached.

So whatever handler takes a step, in another mode it replies what it does in cooperative mode, with
`VmReply.inMode` laid over it.
-/

namespace Statute

namespace Vm

def inMode (v : Vm) (mode : Mode) : Vm :=
  { v with mode := mode }

/-- The frame on top owes a checkpoint for a statement that has ended. -/
def owes (v : Vm) : Bool :=
  match v.control, v.frames with
  | none, ⟨.body _ _ checkpoint, _, _, _⟩ :: _ => checkpoint
  | _, _ => false

/-- The checkpoint that the frame on top owed has been reached. -/
def paid (v : Vm) : Vm :=
  match v.frames with
  | ⟨.body body index _, scope, lock, boundary⟩ :: fs =>
      { v with frames := ⟨.body body index false, scope, lock, boundary⟩ :: fs }
  | _ => v

end Vm

/-- How a machine goes on where a cooperative one yields. -/
def VmStep.inMode (mode : Mode) : VmStep → VmStep
  | .yield =>
      match mode with
      | .cooperative => .yield
      | .sync => .goOn
  | st => st

/-- What a cooperative machine replies, in another mode. -/
def VmReply.inMode (r : VmReply) (mode : Mode) : VmReply :=
  ⟨r.step.inMode mode, r.world, r.vm.inMode mode⟩

namespace Vm

variable {s : Setting} {w w' : World} {v v' u : Vm} {m : Mode}

/-! ## Handlers -/

section

variable (s : Setting) (w : World) (v : Vm)

theorem inMode_restore (kind : FrameKind) :
    (v.restore kind).inMode m = (v.inMode m).restore kind := by
  obtain ⟨frames, control, slot, scopes, _, depth⟩ := v
  cases frames <;> rfl

theorem inMode_holding (lock : LockRef) :
    (v.holding lock).inMode m = (v.inMode m).holding lock := by
  obtain ⟨frames, control, slot, scopes, _, depth⟩ := v
  cases frames <;> rfl

theorem goOn_inMode : (v.goOn w).inMode m = (v.inMode m).goOn w := rfl

theorem mode_restore (kind : FrameKind) : (v.restore kind).mode = v.mode := by
  obtain ⟨frames, control, slot, scopes, _, depth⟩ := v
  cases frames <;> rfl

variable {v}

/-- Where a machine yields, or tries again, depending on its mode. -/
theorem checkpoint_inMode (hmode : v.mode = .cooperative) (w' : World) (v' : Vm) :
    (VmReply.mk v.checkpoint w' v').inMode m =
      ⟨(v.inMode m).checkpoint, w', v'.inMode m⟩ := by
  unfold checkpoint
  rw [hmode]
  rfl

variable (v)

theorem finish_inMode : (v.finish w).inMode m = (v.inMode m).finish w := by
  obtain ⟨frames, control, slot, scopes, _, depth⟩ := v
  cases frames <;> rfl

theorem finishWith_inMode (x : Value) :
    (v.finishWith w x).inMode m = (v.inMode m).finishWith w x := by
  obtain ⟨frames, control, slot, scopes, _, depth⟩ := v
  cases frames <;> rfl

theorem leave_inMode (e : Exit) : (v.leave w e).inMode m = (v.inMode m).leave w e := by
  obtain ⟨frames, control, slot, scopes, _, depth⟩ := v
  cases frames <;> rfl

theorem throw_inMode (f : Failure) : (v.throw w f).inMode m = (v.inMode m).throw w f :=
  leave_inMode w v (.failWith f)

theorem withStmt_inMode {f g : Statement → VmReply} (ref : StmtRef)
    (h : ∀ stmt, (f stmt).inMode m = g stmt) :
    (v.withStmt w ref f).inMode m = (v.inMode m).withStmt w ref g := by
  unfold withStmt
  split
  · exact h _
  · rfl

theorem block_inMode (kind : FrameKind) (name : String) (body : Body) :
    (((v.restore kind).pushBlock w name body).2.goOn
        ((v.restore kind).pushBlock w name body).1).inMode m =
      (((v.inMode m).restore kind).pushBlock w name body).2.goOn
        (((v.inMode m).restore kind).pushBlock w name body).1 := by
  rw [← inMode_restore]
  rfl

theorem pushExpression_inMode (e : Expression) (kind : FrameKind) :
    (v.pushExpression w e kind).inMode m = (v.inMode m).pushExpression w e kind := by
  unfold pushExpression
  split
  · rw [← inMode_restore]
    rfl
  · exact throw_inMode w v _

theorem pushStmt_inMode (ref : StmtRef) :
    (v.pushStmt w ref).inMode m = (v.inMode m).pushStmt w ref := by
  refine withStmt_inMode w v ref fun stmt => ?_
  cases stmt <;> rfl

theorem executeBody_inMode (body : Body) (index : Nat) :
    (v.executeBody w body index false).inMode m =
      (v.inMode m).executeBody w body index false := by
  simp only [executeBody, Bool.false_eq_true, false_and, if_false]
  split
  · exact finish_inMode w v
  · rw [pushStmt_inMode, inMode_restore]

theorem applyValue_inMode (ref : StmtRef) (x : Value) :
    (v.applyValue s w ref x).inMode m = (v.inMode m).applyValue s w ref x := by
  refine withStmt_inMode w v ref fun stmt => ?_
  cases stmt with
  | declare name e =>
      dsimp only
      rw [show (v.inMode m).scopes = v.scopes from rfl]
      split
      · exact finish_inMode _ v
      · exact throw_inMode w v _
  | assign target e =>
      dsimp only
      rw [show (v.inMode m).scopes = v.scopes from rfl]
      split
      · exact finish_inMode _ v
      · exact throw_inMode w v _
  | raise e =>
      dsimp only
      split <;> exact throw_inMode w v _
  | returnWith e => exact leave_inMode w v _
  | _ => exact finish_inMode _ v

theorem executeValue_inMode (kind : FrameKind) :
    (v.executeValue s w kind).inMode m = (v.inMode m).executeValue s w kind := by
  cases kind with
  | value k ref phase =>
      cases phase with
      | eval =>
          refine withStmt_inMode w v ref fun stmt => ?_
          cases stmt.valueExpression? with
          | some e => exact pushExpression_inMode w v e _
          | none =>
              dsimp only
              rw [← inMode_restore]
              rfl
      | apply => exact applyValue_inMode s w _ ref _
  | _ => exact throw_inMode w v _

theorem executeIf_inMode (ref : StmtRef) (phase : IfPhase) :
    (v.executeIf w ref phase).inMode m = (v.inMode m).executeIf w ref phase := by
  refine withStmt_inMode w v ref fun stmt => ?_
  cases stmt with
  | choose branches otherwise =>
      cases phase with
      | test n =>
          dsimp only
          split
          · exact pushExpression_inMode w v _ _
          · split
            · exact block_inMode w v _ _ _
            · exact finish_inMode w v
      | check n =>
          dsimp only
          split
          · dsimp only [takeSlot]
            rw [show (v.inMode m).slot = v.slot from rfl]
            split
            · exact block_inMode w _ _ _ _
            · rw [goOn_inMode, inMode_restore]
              rfl
            · exact throw_inMode w _ _
          · rfl
      | done => exact finish_inMode w v
  | _ => exact throw_inMode w v _

theorem executeRepeat_inMode (hmode : v.mode = .cooperative) (ref : StmtRef)
    (phase : RepeatPhase) :
    (v.executeRepeat w ref phase).inMode m = (v.inMode m).executeRepeat w ref phase := by
  refine withStmt_inMode w v ref fun stmt => ?_
  cases stmt with
  | repeatFor var lower upper body =>
      cases phase with
      | start => exact pushExpression_inMode w v _ _
      | lower =>
          dsimp only [takeSlot]
          rw [show (v.inMode m).slot = v.slot from rfl]
          split
          · exact pushExpression_inMode w _ _ _
          · exact throw_inMode w _ _
      | upper lo =>
          dsimp only [takeSlot]
          rw [show (v.inMode m).slot = v.slot from rfl]
          split
          · rw [goOn_inMode, inMode_restore]
            rfl
          · exact throw_inMode w _ _
      | iterate next hi =>
          dsimp only
          split
          · exact finish_inMode w v
          · rw [← inMode_restore]
            exact checkpoint_inMode ((mode_restore v _).trans hmode) _ _
      | finished => exact finish_inMode w v
  | _ => exact throw_inMode w v _

theorem executeWhile_inMode (hmode : v.mode = .cooperative) (ref : StmtRef)
    (phase : WhilePhase) :
    (v.executeWhile w ref phase).inMode m = (v.inMode m).executeWhile w ref phase := by
  refine withStmt_inMode w v ref fun stmt => ?_
  cases stmt with
  | repeatWhile test body =>
      cases phase with
      | test => exact pushExpression_inMode w v _ _
      | check =>
          dsimp only [takeSlot]
          rw [show (v.inMode m).slot = v.slot from rfl]
          split
          · rw [show { v.inMode m with slot := none } = Vm.inMode { v with slot := none } m
              from rfl, ← inMode_restore]
            exact checkpoint_inMode ((mode_restore v.takeSlot.2 _).trans hmode) _ _
          · exact finish_inMode w _
          · exact throw_inMode w _ _
  | _ => exact throw_inMode w v _

theorem executeTry_inMode (ref : StmtRef) (phase : TryPhase) :
    (v.executeTry w ref phase).inMode m = (v.inMode m).executeTry w ref phase := by
  cases phase with
  | start =>
      refine withStmt_inMode w v ref fun stmt => ?_
      cases stmt with
      | attempt body handlers => exact block_inMode w v _ _ _
      | _ => exact throw_inMode w v _
  | body => exact finish_inMode w v
  | handler => exact finish_inMode w v

theorem executeExclusive_inMode (hmode : v.mode = .cooperative) (ref : StmtRef) (lock : LockRef)
    (phase : ExclusivePhase) :
    (v.executeExclusive w ref lock phase).inMode m =
      (v.inMode m).executeExclusive w ref lock phase := by
  cases phase with
  | acquire =>
      dsimp only [executeExclusive]
      split
      · rw [checkpoint_inMode hmode, inMode_restore]
      · refine withStmt_inMode w v ref fun stmt => ?_
        cases stmt with
        | exclusive _ body =>
            dsimp only
            rw [← inMode_restore, ← inMode_holding]
            rfl
        | _ => exact throw_inMode w v _
  | body => exact finish_inMode w v

theorem evalItems_inMode (hmode : v.mode = .cooperative) (code : Code) (pc : Nat)
    (stack : List Operand) (items : List Item) :
    (v.evalItems s w code pc stack items).inMode m =
      (v.inMode m).evalItems s w code pc stack items := by
  induction items generalizing w pc stack with
  | nil =>
      dsimp only [evalItems]
      split
      · exact finishWith_inMode w v _
      · exact throw_inMode w v _
  | cons item rest ih =>
      dsimp only [evalItems]
      rw [show (v.inMode m).scopes = v.scopes from rfl]
      split
      · exact ih w _ _
      · rw [← inMode_restore]
        rfl
      · split
        · exact ih _ _ _
        · exact throw_inMode w v _
      · split
        · exact throw_inMode w v _
        · split
          · rw [checkpoint_inMode hmode, inMode_restore]
          · split
            · exact ih _ _ _
            · exact throw_inMode _ v _
            · exact throw_inMode w v _
      · exact throw_inMode w v _
      · rfl

theorem evalStep_inMode (hmode : v.mode = .cooperative) (frame : EvalFrame) :
    (v.evalStep s w frame).inMode m = (v.inMode m).evalStep s w frame := by
  obtain ⟨code, pc, stack, awaiting⟩ := frame
  cases awaiting with
  | true => exact evalItems_inMode s w v.takeSlot.2 hmode code pc _ _
  | false => exact evalItems_inMode s w v hmode code pc _ _

theorem supplyNext_inMode (p : Procedure) (frame : CallFrame) (next : Nat) :
    (v.supplyNext w p frame next).inMode m = (v.inMode m).supplyNext w p frame next := by
  dsimp only [supplyNext]
  split
  · rw [goOn_inMode, inMode_restore]
  · split
    · rw [← inMode_restore]
      rfl
    · exact throw_inMode w v _

theorem enterCall_inMode (p : Procedure) (receiver : Option ObjectRef) (frame : CallFrame) :
    (v.enterCall s w p receiver frame).inMode m =
      (v.inMode m).enterCall s w p receiver frame := by
  dsimp only [enterCall]
  rw [show (v.inMode m).depth = v.depth from rfl]
  split
  · exact throw_inMode w v _
  · obtain ⟨frames, control, slot, scopes, _, depth⟩ := v
    cases frames <;> rfl

theorem callStep_inMode (frame : CallFrame) :
    (v.callStep s w frame).inMode m = (v.inMode m).callStep s w frame := by
  have hprocedure : ∀ p receiver, (v.callProcedure s w p receiver frame).inMode m =
      (v.inMode m).callProcedure s w p receiver frame := by
    intro p receiver
    unfold callProcedure
    split
    · dsimp only
      split
      · exact throw_inMode w v _
      · split <;> rw [goOn_inMode, inMode_restore]
    · exact supplyNext_inMode w _ p _ _
    · exact supplyNext_inMode w v p frame _
    · exact enterCall_inMode s w v p receiver frame
    · exact finishWith_inMode w v _
  unfold callStep
  split
  · exact hprocedure _ _
  · exact hprocedure _ _
  · split
    · exact finishWith_inMode w v _
    · exact throw_inMode w v _
    · rfl
  · rw [goOn_inMode, inMode_restore]
  · exact throw_inMode w v _

theorem constructStep_inMode (frame : ConstructFrame) :
    (v.constructStep w frame).inMode m = (v.inMode m).constructStep w frame := by
  unfold constructStep
  split
  · unfold constructStart
    dsimp only
    split
    · split
      · exact throw_inMode w v _
      · exact finishWith_inMode _ v _
    · split <;> rw [← inMode_restore] <;> rfl
  · dsimp only [takeSlot]
    rw [goOn_inMode, inMode_restore]
    rfl
  · split
    · exact throw_inMode w v _
    · split
      · rw [← inMode_restore]
        rfl
      · split
        · exact throw_inMode w v _
        · exact finishWith_inMode w v _
  · dsimp only [takeSlot]
    split
    · exact finishWith_inMode w _ _
    · exact throw_inMode w _ _

/-- A handler replies the same in every mode, unless its frame owes a checkpoint. -/
theorem execute_inMode (hmode : v.mode = .cooperative) (kind : FrameKind)
    (h : ∀ body index, kind ≠ .body body index true) :
    (v.execute s w kind).inMode m = (v.inMode m).execute s w kind := by
  cases kind with
  | vacant => exact throw_inMode w v _
  | body body index checkpoint =>
      cases checkpoint with
      | false => exact executeBody_inMode w v body index
      | true => exact absurd rfl (h body index)
  | value k ref phase => exact executeValue_inMode s w v _
  | choose ref phase => exact executeIf_inMode w v ref phase
  | repeatFor ref phase => exact executeRepeat_inMode w v hmode ref phase
  | repeatWhile ref phase => exact executeWhile_inMode w v hmode ref phase
  | attempt ref phase => exact executeTry_inMode w v ref phase
  | exclusive ref lock phase => exact executeExclusive_inMode w v hmode ref lock phase
  | eval frame => exact evalStep_inMode s w v hmode frame
  | call frame => exact callStep_inMode s w v frame
  | construct frame => exact constructStep_inMode w v frame

theorem unwind_inMode (e : Exit) :
    (v.unwind s w e).inMode m = (v.inMode m).unwind s w e := by
  unfold unwind
  rw [show (v.inMode m).frames = v.frames from rfl]
  split
  · rfl
  · split
    · exact finish_inMode w v
    · rfl
    · rfl
    · rfl
    · exact finishWith_inMode w v _
    · exact throw_inMode w v _
    · refine withStmt_inMode w v _ fun stmt => ?_
      dsimp only
      split
      · exact throw_inMode w v _
      · rw [← inMode_restore]
        split <;> rfl
    · exact leave_inMode w v _

end

/-! ## Steps -/

/-- A step is the same in every mode, unless a checkpoint is owed. -/
theorem step_inMode (hmode : v.mode = .cooperative) (h : v.owes = false) :
    (v.step s w).inMode m = (v.inMode m).step s w := by
  unfold step
  rw [show (v.inMode m).control = v.control from rfl,
    show (v.inMode m).frames = v.frames from rfl]
  split
  · exact unwind_inMode s w _ _
  · next hcontrol =>
      split
      · rfl
      · next f fs hframes =>
          rw [← inMode_restore]
          refine execute_inMode s w _ ((mode_restore v _).trans hmode) f.kind
            fun body index hkind => ?_
          obtain ⟨kind, scope, lock, boundary⟩ := f
          obtain rfl : kind = _ := hkind
          rw [owes, hcontrol, hframes] at h
          contradiction

theorem exists_of_owes (h : v.owes = true) : v.control = none ∧ ∃ body index scope lock boundary fs,
    v.frames = ⟨.body body index true, scope, lock, boundary⟩ :: fs := by
  unfold owes at h
  split at h
  · next hcontrol hframes =>
      subst h
      exact ⟨hcontrol, _, _, _, _, _, _, hframes⟩
  · contradiction

/-- A cooperative machine that owes a checkpoint takes a step that does nothing else. -/
theorem step_of_owes (hmode : v.mode = .cooperative) (h : v.owes = true) :
    v.step s w = ⟨.yield, w, v.paid⟩ := by
  obtain ⟨hcontrol, body, index, scope, lock, boundary, fs, hframes⟩ := exists_of_owes h
  obtain ⟨frames, control, slot, scopes, mode, depth⟩ := v
  subst hcontrol hframes hmode
  rfl

/-- To a synchronous machine a checkpoint that is owed makes no difference. -/
theorem step_paid (hmode : v.mode = .sync) (h : v.owes = true) :
    v.paid.step s w = v.step s w := by
  obtain ⟨hcontrol, body, index, scope, lock, boundary, fs, hframes⟩ := exists_of_owes h
  obtain ⟨frames, control, slot, scopes, mode, depth⟩ := v
  subst hcontrol hframes hmode
  rfl

theorem owes_paid (v : Vm) : v.paid.owes = false := by
  obtain ⟨frames, control, slot, scopes, mode, depth⟩ := v
  unfold paid
  split
  · cases control <;> rfl
  · next hbody =>
      unfold owes
      split
      · next hframes => exact absurd hframes (hbody _ _ _ _ _ _ _)
      · rfl

theorem mode_paid (v : Vm) : v.paid.mode = v.mode := by
  unfold paid
  split <;> rfl

theorem inMode_paid (v : Vm) : v.paid.inMode m = (v.inMode m).paid := by
  obtain ⟨frames, control, slot, scopes, _, depth⟩ := v
  unfold paid
  dsimp only [inMode]
  split <;> rfl

/-- A cooperative machine stays one. -/
theorem mode_step (hmode : v.mode = .cooperative) : (v.step s w).vm.mode = .cooperative := by
  cases howes : v.owes with
  | true =>
      rw [step_of_owes hmode howes]
      exact (mode_paid v).trans hmode
  | false =>
      have hstep := step_inMode (s := s) (w := w) (m := .cooperative) hmode howes
      rw [show v.inMode .cooperative = v by rw [← hmode]; rfl] at hstep
      rw [← hstep]
      rfl

/-! ## Runs -/

theorem run_succ (fuel : Nat) (w : World) (v : Vm) :
    v.run s (fuel + 1) w =
      match v.step s w with
      | ⟨.goOn, w, v⟩ => v.run s fuel w
      | r => r := rfl

theorem run_goOn {w₁ : World} {v₁ : Vm} (h : v.step s w = ⟨.goOn, w₁, v₁⟩) (fuel : Nat) :
    v.run s (fuel + 1) w = v₁.run s fuel w₁ := by
  rw [run_succ, h]

theorem run_stop (h : (v.step s w).step ≠ .goOn) (fuel : Nat) :
    v.run s (fuel + 1) w = v.step s w := by
  rw [run_succ]
  split
  · next hstep =>
      rw [hstep] at h
      exact absurd rfl h
  · rfl

/-- A run of the synchronous machine does not depend on whether a checkpoint is owed. -/
theorem run_paid (howes : v.owes = true) (fuel : Nat) :
    (v.paid.inMode .sync).run s (fuel + 1) w = (v.inMode .sync).run s (fuel + 1) w := by
  have hstep : (v.inMode .sync).paid.step s w = (v.inMode .sync).step s w := step_paid rfl howes
  rw [run_succ, run_succ, inMode_paid, hstep]

theorem Resumes.of_goOn {w₁ : World} {v₁ : Vm} {n : Nat} (h : v.step s w = ⟨.goOn, w₁, v₁⟩)
    (hrest : Resumes s w₁ v₁ n w' v') : Resumes s w v n w' v' := by
  cases hrest with
  | @done _ _ _ _ fuel hrun => exact .done ((run_goOn h fuel).trans hrun)
  | @again _ _ _ _ _ _ fuel n hrun hrest => exact .again ((run_goOn h fuel).trans hrun) hrest

theorem Resumes.of_yield {w₁ : World} {v₁ : Vm} {n : Nat} (h : v.step s w = ⟨.yield, w₁, v₁⟩)
    (hrest : Resumes s w₁ v₁ n w' v') : Resumes s w v (n + 1) w' v' :=
  .again ((run_stop (by rw [h]; exact nofun) 0).trans h) hrest

/-- Where the synchronous machine goes on, the cooperative one goes on as well, or it yields. -/
theorem Resumes.of_step {n : Nat} (hrest : Resumes s (v.step s w).world (v.step s w).vm n w' v')
    (hstep : ((v.step s w).inMode .sync).step = .goOn) : ∃ n, Resumes s w v n w' v' := by
  rcases hreply : v.step s w with ⟨st, w₁, v₁⟩
  rw [hreply] at hrest hstep
  cases st with
  | goOn => exact ⟨n, .of_goOn hreply hrest⟩
  | yield => exact ⟨n + 1, .of_yield hreply hrest⟩
  | done => contradiction
  | crash message => contradiction

/-- If the synchronous machine gets to its end, so does the cooperative one. -/
theorem exists_resumes_of_run {fuel : Nat} (hmode : v.mode = .cooperative)
    (h : (v.inMode .sync).run s fuel w = ⟨.done, w', u⟩) :
    ∃ n v', Resumes s w v n w' v' ∧ u = v'.inMode .sync := by
  induction fuel generalizing w v with
  | zero => nomatch h
  | succ fuel ih =>
      -- Once the checkpoint that was owed has been reached, the steps are the same.
      have hpaid : ∀ v : Vm, v.mode = .cooperative → v.owes = false →
          (v.inMode .sync).run s (fuel + 1) w = ⟨.done, w', u⟩ →
            ∃ n v', Resumes s w v n w' v' ∧ u = v'.inMode .sync := by
        intro v hmode howes h
        have hsame := step_inMode (s := s) (w := w) (m := .sync) hmode howes
        have hmode' := mode_step (s := s) (w := w) hmode
        by_cases hgoes : ((v.step s w).inMode .sync).step = .goOn
        · have hstep : (v.inMode .sync).step s w =
              ⟨.goOn, (v.step s w).world, (v.step s w).vm.inMode .sync⟩ := by
            rw [← hsame, ← hgoes]
            rfl
          rw [run_goOn hstep] at h
          obtain ⟨n, v', hrest, rfl⟩ := ih hmode' h
          obtain ⟨n, h⟩ := hrest.of_step hgoes
          exact ⟨n, v', h, rfl⟩
        · rw [run_stop (by rwa [← hsame]), ← hsame] at h
          rcases hreply : v.step s w with ⟨st, w₁, v₁⟩
          rw [hreply] at h hmode'
          cases st with
          | done =>
              cases h
              have hrun : v.run s 1 w = ⟨.done, w₁, v₁⟩ :=
                (run_stop (by rw [hreply]; exact nofun) 0).trans hreply
              exact ⟨0, v₁, .done hrun, rfl⟩
          | _ => cases h
      cases howes : v.owes with
      | false => exact hpaid v hmode howes h
      | true =>
          obtain ⟨n, v', hrest, rfl⟩ := hpaid v.paid ((mode_paid v).trans hmode) (owes_paid v)
            ((run_paid howes fuel).trans h)
          exact ⟨n + 1, v', .of_yield (step_of_owes hmode howes) hrest, rfl⟩

/-- What holds at the last step, and of a machine that goes on or yields whenever it holds of what
it leaves, holds of a machine that is resumed until it is done. -/
theorem Resumes.of_last {P : World → Vm → Prop} {n : Nat} (h : Resumes s w v n w' v')
    (hlast : ∀ w v, v.step s w = ⟨.done, w', v'⟩ → P w v)
    (hstep : ∀ w v, (v.step s w).step = .goOn ∨ (v.step s w).step = .yield →
      P (v.step s w).world (v.step s w).vm → P w v) : P w v := by
  -- One run, up to where it stops.
  have hrun : ∀ (st : VmStep) (w₁ : World) (v₁ : Vm), st = .done ∧ w₁ = w' ∧ v₁ = v' ∨
      st = .yield ∧ P w₁ v₁ → ∀ (fuel : Nat) (w : World) (v : Vm),
        v.run s fuel w = ⟨st, w₁, v₁⟩ → P w v := by
    intro st w₁ v₁ hstop fuel
    induction fuel with
    | zero =>
        intro w v h
        cases h
        simp at hstop
    | succ fuel ih =>
        intro w v h
        rcases hreply : v.step s w with ⟨st', w₂, v₂⟩
        by_cases hgoes : st' = .goOn
        · subst hgoes
          rw [run_goOn hreply] at h
          refine hstep w v (by simp [hreply]) ?_
          rw [hreply]
          exact ih w₂ v₂ h
        · rw [run_stop (by rwa [hreply]), hreply] at h
          cases h
          rcases hstop with ⟨rfl, rfl, rfl⟩ | ⟨rfl, hP⟩
          · exact hlast w v hreply
          · refine hstep w v (by simp [hreply]) ?_
            rwa [hreply]
  induction h with
  | done h => exact hrun _ _ _ (.inl ⟨rfl, rfl, rfl⟩) _ _ _ h
  | again h _ ih => exact hrun _ _ _ (.inr ⟨rfl, ih hlast hrun⟩) _ _ _ h

/-- A step of the cooperative machine is taken by the synchronous one as well, or it changes nothing
for it. -/
theorem exists_run_of_step {fuel : Nat} (hmode : v.mode = .cooperative)
    (hstep : (v.step s w).step = .goOn ∨ (v.step s w).step = .yield)
    (h : ((v.step s w).vm.inMode .sync).run s fuel (v.step s w).world = ⟨.done, w', u⟩) :
    ∃ fuel, (v.inMode .sync).run s fuel w = ⟨.done, w', u⟩ := by
  cases howes : v.owes with
  | true =>
      rw [step_of_owes hmode howes] at h
      cases fuel with
      | zero => nomatch h
      | succ fuel => exact ⟨fuel + 1, (run_paid howes fuel).symm.trans h⟩
  | false =>
      have hsame := step_inMode (s := s) (w := w) (m := .sync) hmode howes
      have hgoes : ((v.step s w).inMode .sync).step = .goOn := by
        dsimp only [VmReply.inMode]
        rcases hstep with hstep | hstep <;> rw [hstep] <;> rfl
      refine ⟨fuel + 1, (run_goOn ?_ fuel).trans h⟩
      rw [← hsame, ← hgoes]
      rfl

/-- If the cooperative machine gets to its end, so does the synchronous one. -/
theorem exists_run_of_resumes {n : Nat} (h : Resumes s w v n w' u) :
    v.mode = .cooperative →
      ∃ fuel, (v.inMode .sync).run s fuel w = ⟨.done, w', u.inMode .sync⟩ := by
  refine h.of_last (P := fun w v => v.mode = .cooperative →
    ∃ fuel, (v.inMode .sync).run s fuel w = ⟨.done, w', u.inMode .sync⟩) ?_ ?_
  · intro w v hstep hmode
    cases howes : v.owes with
    | true =>
        rw [step_of_owes hmode howes] at hstep
        cases hstep
    | false =>
        have hsame := step_inMode (s := s) (w := w) (m := .sync) hmode howes
        rw [hstep] at hsame
        refine ⟨1, ?_⟩
        rw [run_stop (by rw [← hsame]; exact nofun), ← hsame]
        rfl
  · intro w v hstep ih hmode
    obtain ⟨fuel, hrun⟩ := ih (mode_step hmode)
    exact exists_run_of_step hmode hstep hrun

/-- A synchronous machine gets to its end if and only if a cooperative one does that is resumed
until it is done, and both end with the same world, frames, control, slot, scopes and depth. Their
steps are the same, but for those after a statement, where the cooperative machine yields and does
nothing else, and for what a step says where the cooperative machine yields. -/
theorem modes_agree (s : Setting) :
    (∀ (w : World) (v : Vm) (w' : World) (u : Vm),
      (∃ fuel, (v.inMode .sync).run s fuel w = ⟨.done, w', u⟩) ↔
        ∃ n v', Resumes s w (v.inMode .cooperative) n w' v' ∧ u = v'.inMode .sync) ∧
    ∀ (w : World) (v : Vm), v.mode = .cooperative →
      (v.step s w).vm.mode = .cooperative ∧
      if v.owes then
        v.step s w = ⟨.yield, w, v.paid⟩ ∧
          (v.inMode .sync).step s w = (v.paid.inMode .sync).step s w
      else (v.inMode .sync).step s w = (v.step s w).inMode .sync := by
  refine ⟨fun w v w' u => ⟨?_, ?_⟩, fun w v hmode => ⟨mode_step hmode, ?_⟩⟩
  · rintro ⟨fuel, hrun⟩
    exact exists_resumes_of_run (v := v.inMode .cooperative) rfl hrun
  · rintro ⟨n, v', hresumes, rfl⟩
    exact exists_run_of_resumes (v := v.inMode .cooperative) hresumes rfl
  · split
    · next howes =>
        refine ⟨step_of_owes hmode howes, ?_⟩
        rw [inMode_paid]
        exact (step_paid (v := v.inMode .sync) rfl howes).symm
    · next howes => exact (step_inMode hmode (by simpa using howes)).symm

end Vm

end Statute
