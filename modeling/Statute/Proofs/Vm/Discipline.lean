import Statute.Proofs.Machine.Origins
import Statute.Proofs.Machine.Tidiness
import Statute.Vm.Step

/-!
# Discipline of the virtual machine

Every frame below another one waits for what the frame above it comes to, the end of a statement or
a value, and what a frame goes by is there: its statement, the branch whose test it checks, the
arguments of its call, its object. The slot is filled when the frame on top waits for a value, and
at no other time; while something is left early it is empty.

Every handler keeps to this. So no handler finds the slot empty, or filled by anybody but the child
of its frame, and none gets to the faults that are there for a machine that is out of order.
-/

namespace Statute

/-! ## Frames in order -/

/-- The kind of a statement that acts on the value of an expression. -/
def Statement.valueKind? : Statement → Option ValueKind
  | .declare _ _ => some .declare
  | .assign _ _ => some .assign
  | .print _ => some .print
  | .raise _ => some .throw
  | .returnWith _ => some .returnWith
  | .perform _ => some .perform
  | _ => none

namespace FrameKind

/-- What a frame comes to. -/
def result : FrameKind → Shape
  | .eval _ => .value
  | .call _ => .value
  | .construct _ => .value
  | _ => .statement

/-- What a frame waits for. -/
def awaits : FrameKind → Option Shape
  | .body _ _ _ => some .statement
  | .value _ ref .apply =>
      match ref.stmt? with
      | some (.returnWith none) => none
      | _ => some .value
  | .choose _ (.check _) => some .value
  | .choose _ .done => some .statement
  | .repeatFor _ .lower => some .value
  | .repeatFor _ (.upper _) => some .value
  | .repeatFor _ (.iterate _ _) => some .statement
  | .repeatFor _ .finished => some .statement
  | .repeatWhile _ .test => some .statement
  | .repeatWhile _ .check => some .value
  | .attempt _ .body => some .statement
  | .attempt _ .handler => some .statement
  | .exclusive _ _ .body => some .statement
  | .eval ⟨_, _, _, true⟩ => some .value
  | .call ⟨_, _, _, .default _ true⟩ => some .value
  | .call ⟨_, _, _, .running⟩ => some .statement
  | .construct ⟨_, _, _, _, _, .parent⟩ => some .value
  | .construct ⟨_, _, _, _, _, .finish⟩ => some .value
  | _ => none

/-- Whether a frame takes the value in the slot. -/
def takes : FrameKind → Bool
  | .value _ _ .apply => true
  | .choose _ (.check _) => true
  | .repeatFor _ .lower => true
  | .repeatFor _ (.upper _) => true
  | .repeatWhile _ .check => true
  | .eval ⟨_, _, _, true⟩ => true
  | .call ⟨_, _, _, .default _ true⟩ => true
  | .construct ⟨_, _, _, _, _, .parent⟩ => true
  | .construct ⟨_, _, _, _, _, .finish⟩ => true
  | _ => false

def isBody : FrameKind → Bool
  | .body _ _ _ => true
  | _ => false

def isRunning : FrameKind → Bool
  | .call ⟨_, _, _, .running⟩ => true
  | _ => false

def lock? : FrameKind → Option LockRef
  | .exclusive _ lock .body => some lock
  | _ => none

/-- A frame has the arguments that the phase of its call goes by. -/
def OfCall (callee : Value) (args : List Value) : CallPhase → Prop
  | .bind => True
  | .default next pending => ∃ p, callee.procedure? = some p ∧ p.required ≤ next ∧
      next = args.length ∧ next ≤ p.params.length ∧ (pending = true → next < p.params.length)
  | _ => ∃ p, callee.procedure? = some p ∧ args.length = p.params.length

/-- What a frame goes by is there. -/
def Sound : FrameKind → Prop
  | .vacant => False
  | .body _ _ _ => True
  | .value k ref _ => ∃ stmt, ref.stmt? = some stmt ∧ stmt.valueKind? = some k
  | .choose ref phase => ∃ branches otherwise, ref.stmt? = some (.choose branches otherwise) ∧
      ∀ n, phase = .check n → n < branches.length
  | .repeatFor ref _ => ∃ var lower upper body,
      ref.stmt? = some (.repeatFor var lower upper body)
  | .repeatWhile ref _ => ∃ test body, ref.stmt? = some (.repeatWhile test body)
  | .attempt ref _ => ∃ body handlers, ref.stmt? = some (.attempt body handlers)
  | .exclusive ref lock _ => ∃ body, ref.stmt? = some (.exclusive lock body)
  | .eval _ => True
  | .call frame => OfCall frame.callee frame.args frame.phase
  | .construct frame =>
      (frame.phase = .start → frame.consumed = 0) ∧
        (frame.phase ≠ .start → ∃ r, frame.object = some r)

/-- A frame that waits for something takes the value in the slot if it waits for a value. -/
theorem takes_of_awaits {k : FrameKind} {σ : Shape} (h : k.awaits = some σ) :
    k.takes = decide (σ = .value) := by
  cases k with
  | value kind ref phase =>
      cases phase with
      | eval => contradiction
      | apply =>
          simp only [awaits] at h
          split at h
          · contradiction
          · cases h
            rfl
  | eval frame =>
      obtain ⟨code, pc, stack, awaiting⟩ := frame
      cases awaiting <;> cases h
      rfl
  | call frame =>
      obtain ⟨callee, args, site, phase⟩ := frame
      cases phase with
      | default next pending =>
          cases pending <;> cases h
          rfl
      | _ => cases h <;> rfl
  | construct frame =>
      obtain ⟨cls, args, object, consumed, site, phase⟩ := frame
      cases phase <;> cases h <;> rfl
  | choose ref phase => cases phase <;> cases h <;> rfl
  | repeatFor ref phase => cases phase <;> cases h <;> rfl
  | repeatWhile ref phase => cases phase <;> cases h <;> rfl
  | attempt ref phase => cases phase <;> cases h <;> rfl
  | exclusive ref lock phase =>
      cases phase <;> cases h
      rfl
  | _ => cases h <;> rfl

theorem awaits_apply {kind : ValueKind} {ref : StmtRef} {stmt : Statement}
    (hstmt : ref.stmt? = some stmt) (h : stmt ≠ .returnWith none) :
    (FrameKind.value kind ref .apply).awaits = some .value := by
  simp only [awaits, hstmt]
  split
  · next heq => exact absurd (Option.some.inj heq) h
  · rfl

/-- Two kinds own the same and come to the same. -/
structure Like (k k' : FrameKind) : Prop where
  body : k'.isBody = k.isBody
  running : k'.isRunning = k.isRunning
  lock : k'.lock? = k.lock?
  result : k'.result = k.result

end FrameKind

/-- What a frame goes by is there, and the frame owns what its kind says. -/
structure VmFrame.Sound (f : VmFrame) : Prop where
  kind : f.kind.Sound
  scope : f.kind.isBody = false → f.pushedScope = f.kind.isRunning
  lock : f.lock = f.kind.lock?
  boundary : f.boundary = f.kind.isRunning

/-- Frames in order that wait for something of the given shape, each for what the one above it comes
to. At the end of the frames `goal` is awaited. -/
inductive Stacked (goal : Shape) : Shape → List VmFrame → Prop
  | root : Stacked goal goal []
  | frame {k : Shape} {f : VmFrame} {fs : List VmFrame} (hawaits : f.kind.awaits = some k)
      (hsound : f.Sound) (hbelow : Stacked goal f.kind.result fs) : Stacked goal k (f :: fs)

/-- Frames in order that go on by themselves. -/
inductive Ready (goal : Shape) : List VmFrame → Prop
  | nil (hgoal : goal = .statement) : Ready goal []
  | cons {f : VmFrame} {fs : List VmFrame} (htakes : f.kind.takes = false)
      (hsound : f.Sound) (hbelow : Stacked goal f.kind.result fs) : Ready goal (f :: fs)

/-- The frame of a statement that returns nothing. It puts the empty value into the slot itself. -/
def VmFrame.IsBareReturn (f : VmFrame) : Prop :=
  ∃ ref, f.kind = .value .returnWith ref .apply ∧ ref.stmt? = some (.returnWith none)

/-- A machine in order that comes to the given shape. -/
inductive Vm.Sound (goal : Shape) (v : Vm) : Prop
  /-- The frame on top goes on by itself. -/
  | runs (hcontrol : v.control = none) (hslot : v.slot = none) (hframes : Ready goal v.frames)
  /-- The frame on top takes the value in the slot. -/
  | receives {x : Value} (hcontrol : v.control = none) (hslot : v.slot = some x)
      (hframes : Stacked goal .value v.frames)
  /-- The frame on top has put the empty value into the slot itself. -/
  | returns {f : VmFrame} {fs : List VmFrame} (hcontrol : v.control = none)
      (hslot : v.slot = some .empty) (hframes : v.frames = f :: fs) (hbare : f.IsBareReturn)
      (hsound : f.Sound) (hbelow : Stacked goal .statement fs)
  /-- The frame on top is left early. Only a failure leaves a frame that waits for a value. -/
  | leaves {e : Exit} {k : Shape} (hcontrol : v.control = some e) (hslot : v.slot = none)
      (hframes : Stacked goal k v.frames) (hexit : k = .statement ∨ ∃ f, e = .failWith f)

/-- What a step leaves that takes a frame of kind `k` from the top of `fs`. A machine in order is
left, unless the host breaks down. `P` holds of a failure that is left, and `B` of the message of a
breakdown. A value comes from a frame that has been popped, or from a statement that returns
nothing. -/
structure VmReply.Within (goal : Shape) (k : FrameKind) (fs : List VmFrame)
    (P : Failure → Prop) (B : Option String → Prop) (r : VmReply) : Prop where
  sound : (∀ message, r.step ≠ .crash message) → r.vm.Sound goal
  failure : ∀ f, r.vm.control = some (.failWith f) → P f
  crash : ∀ message, r.step = .crash message → B message
  value : ∀ x, r.vm.slot = some x → r.vm.frames = fs ∧ k.result = .value ∨
    x = .empty ∧ ∃ f, r.vm.frames = f :: fs ∧ f.IsBareReturn

/-- The machine of a handler that has taken a kind out of the frame on top. -/
structure Vm.Faces (goal : Shape) (k : FrameKind) (fs : List VmFrame) (v : Vm) : Prop where
  frames : ∃ f : VmFrame, v.frames = f :: fs ∧ VmFrame.Sound { f with kind := k }
  control : v.control = none
  below : Stacked goal k.result fs

theorem Stacked.ready {goal : Shape} {fs : List VmFrame} (h : Stacked goal .statement fs) :
    Ready goal fs := by
  cases h with
  | root => exact .nil rfl
  | frame hawaits hsound hbelow => exact .cons (FrameKind.takes_of_awaits hawaits) hsound hbelow

theorem VmFrame.Sound.restore {f : VmFrame} {k k' : FrameKind}
    (h : VmFrame.Sound { f with kind := k }) (hlike : k.Like k') (hk' : k'.Sound) :
    VmFrame.Sound { f with kind := k' } :=
  ⟨hk', fun hbody => (h.scope (hlike.body.symm.trans hbody)).trans hlike.running.symm,
    h.lock.trans hlike.lock.symm, h.boundary.trans hlike.running.symm⟩

/-- A frame that owns nothing. -/
theorem VmFrame.sound_new {k : FrameKind} (h : k.Sound) (hrunning : k.isRunning = false)
    (hlock : k.lock? = none) : (VmFrame.new k).Sound :=
  ⟨h, fun _ => hrunning.symm, hlock.symm, hrunning.symm⟩

/-- No task has an outcome that it did not have before another one was scheduled. -/
theorem World.outcome_of_schedule {w w' : World} {label : String} {m : Machine} {t t' : TaskRef}
    {o : Outcome} (h : w.schedule label m = .ok (w', t)) (ho : (w'.task t').outcome = some o) :
    (w.task t').outcome = some o := by
  unfold World.schedule at h
  split at h
  · contradiction
  · obtain ⟨rfl, -⟩ := Prod.mk.inj (Except.ok.inj h)
    have htask : ({ w with tasks := w.tasks.push (.new label m) } : World).task t' =
        if t' = w.tasks.size then .new label m else w.task t' := by
      simp only [World.task, Array.getD_eq_getD_getElem?, Array.getElem?_push]
      split <;> rfl
    replace ho : (({ w with tasks := w.tasks.push (.new label m) } : World).task t').outcome =
        some o := ho
    rw [htask] at ho
    split at ho
    · contradiction
    · exact ho

/-- Nor does it after one has been claimed. -/
theorem World.outcome_of_claimed {w w' : World} {t t' : TaskRef} {r o : Outcome}
    (h : w.claim t = .ok (w', r)) (ho : (w'.task t').outcome = some o) :
    (w.task t').outcome = some o := by
  unfold World.claim Task.claim at h
  split at h
  · next task hclaim =>
      split at hclaim
      · contradiction
      · obtain ⟨rfl, -⟩ := Prod.mk.inj (Except.ok.inj h)
        obtain ⟨-, rfl⟩ := Prod.mk.inj (Except.ok.inj hclaim)
        simp only [World.task, World.setTask, Array.getD_eq_getD_getElem?,
          Array.getElem?_setIfInBounds] at ho ⊢
        split at ho
        · split at ho <;> contradiction
        · exact ho
  · contradiction

namespace Vm

variable {goal : Shape} {k k' : FrameKind} {fs : List VmFrame} {s : Setting} {w : World} {v : Vm}
  {P : Failure → Prop} {B : Option String → Prop} {st : VmStep}

/-! ## Replies -/

@[simp] theorem control_restore : (v.restore k).control = v.control := by
  unfold restore
  split <;> rfl

@[simp] theorem slot_restore : (v.restore k).slot = v.slot := by
  unfold restore
  split <;> rfl

theorem Faces.takeSlot (h : v.Faces goal k fs) : v.takeSlot.2.Faces goal k fs :=
  ⟨h.frames, h.control, h.below⟩

theorem Faces.stacked {σ : Shape} (h : v.Faces goal k fs) (hlike : k.Like k') (hk' : k'.Sound)
    (hawaits : k'.awaits = some σ) : Stacked goal σ (v.restore k').frames := by
  obtain ⟨f, hframes, hsound⟩ := h.frames
  simp only [restore, hframes]
  exact .frame hawaits (hsound.restore hlike hk') (hlike.result ▸ h.below)

theorem Faces.ready (h : v.Faces goal k fs) (hlike : k.Like k') (hk' : k'.Sound)
    (htakes : k'.takes = false) : Ready goal (v.restore k').frames := by
  obtain ⟨f, hframes, hsound⟩ := h.frames
  simp only [restore, hframes]
  exact .cons htakes (hsound.restore hlike hk') (hlike.result ▸ h.below)

theorem within_ready (hcontrol : v.control = none) (hslot : v.slot = none)
    (hframes : Ready goal v.frames) (hst : ∀ message, st ≠ .crash message) :
    VmReply.Within goal k fs P B ⟨st, w, v⟩ :=
  ⟨fun _ => .runs hcontrol hslot hframes, by simp [hcontrol], fun m h => absurd h (hst m),
    by simp [hslot]⟩

/-- A handler pops its frame. -/
theorem Faces.popFrame (h : v.Faces goal k fs) :
    (v.popFrame w).2.frames = fs ∧ (v.popFrame w).2.control = none ∧
      (v.popFrame w).2.slot = v.slot := by
  obtain ⟨f, hframes, -⟩ := h.frames
  unfold Vm.popFrame
  rw [hframes]
  exact ⟨rfl, h.control, rfl⟩

theorem Faces.within_finish (h : v.Faces goal k fs) (hslot : v.slot = none)
    (hk : k.result = .statement) : (v.finish w).Within goal k fs P B := by
  obtain ⟨hframes, hcontrol, hslot'⟩ := h.popFrame (w := w)
  refine within_ready hcontrol (hslot'.trans hslot) ?_ nofun
  change Ready goal (v.popFrame w).2.frames
  rw [hframes]
  exact (hk ▸ h.below).ready

theorem Faces.within_finishWith (h : v.Faces goal k fs) (hk : k.result = .value) (x : Value) :
    (v.finishWith w x).Within goal k fs P B := by
  obtain ⟨hframes, hcontrol, -⟩ := h.popFrame (w := w)
  refine ⟨fun _ => .receives (x := x) hcontrol rfl ?_, ?_, nofun, fun _ _ => .inl ⟨hframes, hk⟩⟩
  · change Stacked goal .value (v.popFrame w).2.frames
    rw [hframes]
    exact hk ▸ h.below
  · intro f hf
    exact absurd (hcontrol.symm.trans hf) nofun

theorem Faces.within_leave (h : v.Faces goal k fs) (hslot : v.slot = none) {e : Exit}
    (hexit : k.result = .statement ∨ ∃ f, e = .failWith f) (hP : ∀ f, e = .failWith f → P f) :
    (v.leave w e).Within goal k fs P B := by
  obtain ⟨hframes, -, hslot'⟩ := h.popFrame (w := w)
  have hslot : (v.popFrame w).2.slot = none := hslot'.trans hslot
  refine ⟨fun _ => .leaves (e := e) (k := k.result) rfl hslot ?_ hexit, ?_, nofun, ?_⟩
  · change Stacked goal k.result (v.popFrame w).2.frames
    rw [hframes]
    exact h.below
  · intro f hf
    exact hP f (Option.some.inj hf)
  · intro x hx
    exact absurd (hslot.symm.trans hx) nofun

theorem Faces.within_throw (h : v.Faces goal k fs) (hslot : v.slot = none) {f : Failure}
    (hP : P f) : (v.throw w f).Within goal k fs P B :=
  h.within_leave hslot (.inr ⟨f, rfl⟩) fun g hg => by rwa [← Exit.failWith.inj hg]

/-- A handler puts a kind back and pushes a frame that goes on by itself. -/
theorem Faces.within_push (h : v.Faces goal k fs) (hslot : v.slot = none) (hlike : k.Like k')
    (hk' : k'.Sound) {child : VmFrame} (hawaits : k'.awaits = some child.kind.result)
    (hchild : child.Sound) (hgoes : child.kind.takes = false) :
    (((v.restore k').pushFrame child).goOn w).Within goal k fs P B :=
  within_ready (by simp [pushFrame, h.control]) (by simp [pushFrame, hslot])
    (.cons hgoes hchild (h.stacked hlike hk' hawaits)) nofun

theorem Faces.within_block (h : v.Faces goal k fs) (hslot : v.slot = none) (hlike : k.Like k')
    (hk' : k'.Sound) (hawaits : k'.awaits = some .statement)
    (hst : ∀ message, st ≠ .crash message) (w' : World) (name : String) (body : Body) :
    VmReply.Within goal k fs P B ⟨st, w', ((v.restore k').pushBlock w name body).2⟩ := by
  refine within_ready (by simp [pushBlock, pushFrame, h.control])
    (by simp [pushBlock, pushFrame, hslot]) ?_ hst
  exact .cons rfl ⟨trivial, nofun, rfl, rfl⟩ (h.stacked hlike hk' hawaits)

variable (hplain : ∀ f : Failure, f.kind ≠ .internal → P f)
include hplain

theorem Faces.within_pushExpression (h : v.Faces goal k fs) (hslot : v.slot = none)
    (hlike : k.Like k') (hk' : k'.Sound) (hawaits : k'.awaits = some .value) (e : Expression) :
    (v.pushExpression w e k').Within goal k fs P B := by
  unfold pushExpression
  split
  · exact h.within_push hslot hlike hk' hawaits
      (VmFrame.sound_new trivial rfl rfl) rfl
  · next f hf =>
      refine h.within_throw hslot (hplain f ?_)
      rw [(Expression.failure_of_compile hf).1]
      decide

/-! ## Statements -/

omit hplain in
theorem withStmt_eq {ref : StmtRef} {stmt : Statement} (h : ref.stmt? = some stmt)
    (f : Statement → VmReply) : v.withStmt w ref f = f stmt := by
  rw [withStmt, h]

omit hplain in
theorem Faces.within_executeBody {body : Body} {index : Nat} {checkpoint : Bool}
    (h : v.Faces goal (.body body index checkpoint) fs) (hslot : v.slot = none) :
    (v.executeBody w body index checkpoint).Within goal (.body body index checkpoint) fs P B := by
  have hlike : ∀ index' checkpoint', (FrameKind.body body index checkpoint).Like
      (.body body index' checkpoint') := fun _ _ => ⟨rfl, rfl, rfl, rfl⟩
  unfold executeBody
  split
  · exact within_ready (by simp [h.control]) (by simp [hslot])
      (h.ready (hlike _ _) trivial rfl) nofun
  · split
    · exact h.within_finish hslot rfl
    · next hlength =>
        have hlt : index < body.length := Nat.lt_of_not_le hlength
        have hstmt : (StmtRef.mk body index).stmt? = some (body[index]) :=
          List.getElem?_eq_getElem hlt
        unfold pushStmt
        rw [withStmt_eq hstmt]
        have hpush : ∀ c : FrameKind, c.Sound → c.isRunning = false → c.lock? = none →
            c.result = .statement → c.takes = false →
            (((v.restore (.body body (index + 1) true)).push c).goOn w).Within goal
              (.body body index checkpoint) fs P B :=
          fun c hc hrunning hlock hresult hgoes =>
            h.within_push hslot (hlike _ _) trivial (congrArg some hresult.symm)
              (VmFrame.sound_new hc hrunning hlock) hgoes
        have hleave : ∀ e : Exit, (∀ f, e ≠ .failWith f) →
            VmReply.Within goal (.body body index checkpoint) fs P B
              ({ v.restore (.body body (index + 1) true) with control := some e }.goOn w) := by
          intro e he
          refine ⟨fun _ => .leaves (e := e) (k := .statement) rfl ?_
            (h.stacked (hlike _ _) trivial rfl) (.inl rfl), ?_, nofun, ?_⟩
          · exact slot_restore.trans hslot
          · intro f hf
            exact absurd (Option.some.inj hf) (he f)
          · intro x hx
            exact absurd ((slot_restore.trans hslot).symm.trans hx) nofun
        generalize body[index] = stmt at hstmt
        cases stmt with
        | choose branches otherwise =>
            exact hpush _ ⟨branches, otherwise, hstmt, nofun⟩ rfl rfl rfl rfl
        | repeatFor var lower upper body => exact hpush _ ⟨_, _, _, _, hstmt⟩ rfl rfl rfl rfl
        | repeatWhile test body => exact hpush _ ⟨_, _, hstmt⟩ rfl rfl rfl rfl
        | attempt body handlers => exact hpush _ ⟨_, _, hstmt⟩ rfl rfl rfl rfl
        | exclusive lock body => exact hpush _ ⟨_, hstmt⟩ rfl rfl rfl rfl
        | breakOut => exact hleave _ nofun
        | continueOn => exact hleave _ nofun
        | _ => exact hpush _ ⟨_, hstmt, rfl⟩ rfl rfl rfl rfl

theorem Faces.within_applyValue {kind : ValueKind} {ref : StmtRef} {x : Value}
    (h : v.Faces goal (.value kind ref .apply) fs) (hslot : v.slot = none)
    (hthrown : ∀ e f, ref.stmt? = some (.raise e) → w.heap.thrown x = .ok f →
      P (f.locate e.location)) :
    (v.applyValue s w ref x).Within goal (.value kind ref .apply) fs P B := by
  obtain ⟨f, -, hsound⟩ := h.frames
  obtain ⟨stmt, hstmt, -⟩ := hsound.kind
  unfold applyValue
  rw [withStmt_eq hstmt]
  cases stmt with
  | declare name e =>
      dsimp only
      split
      · exact h.within_finish hslot rfl
      · next f hf =>
          unfold Heap.declare at hf
          split at hf
          · obtain rfl := Except.error.inj hf
            exact h.within_throw hslot (hplain _ nofun)
          · contradiction
  | assign target e =>
      dsimp only
      split
      · exact h.within_finish hslot rfl
      · next f hf =>
          exact h.within_throw hslot (hplain _ ((gives_place s _ _ _).failure f hf).kind.1)
  | raise e =>
      dsimp only
      split
      · next f hf => exact h.within_throw hslot (hthrown e f hstmt hf)
      · next f hf =>
          rw [Heap.eq_notThrowable_of_thrown hf]
          exact h.within_throw hslot (hplain _ nofun)
  | returnWith e => exact h.within_leave hslot (.inl rfl) nofun
  | _ => exact h.within_finish hslot rfl

theorem Faces.within_executeValue {kind : ValueKind} {ref : StmtRef} {phase : ValuePhase}
    (h : v.Faces goal (.value kind ref phase) fs) (hslot : phase = .eval → v.slot = none)
    (hthrown : ∀ e f, phase = .apply → ref.stmt? = some (.raise e) →
      w.heap.thrown (v.slot.getD .empty) = .ok f → P (f.locate e.location)) :
    (v.executeValue s w (.value kind ref phase)).Within goal (.value kind ref phase) fs P B := by
  obtain ⟨f, hframes, hsound⟩ := h.frames
  obtain ⟨stmt, hstmt, hkind⟩ := hsound.kind
  have hlike : (FrameKind.value kind ref phase).Like (.value kind ref .apply) :=
    ⟨rfl, rfl, rfl, rfl⟩
  cases phase with
  | eval =>
      have hslot := hslot rfl
      unfold executeValue
      dsimp only
      rw [withStmt_eq hstmt]
      cases hvalue : stmt.valueExpression? with
      | some e =>
          have hawaits : (FrameKind.value kind ref .apply).awaits = some .value := by
            refine FrameKind.awaits_apply hstmt ?_
            rintro rfl
            contradiction
          exact h.within_pushExpression hplain hslot hlike ⟨stmt, hstmt, hkind⟩ hawaits e
      | none =>
          -- Only a statement that returns nothing has no expression.
          have hreturn : stmt = .returnWith none ∧ kind = .returnWith := by
            cases stmt with
            | returnWith e =>
                cases e <;> simp_all [Statement.valueExpression?, Statement.valueKind?]
            | _ => simp_all [Statement.valueExpression?, Statement.valueKind?]
          obtain ⟨rfl, rfl⟩ := hreturn
          have hframes' : (v.restore (.value .returnWith ref .apply)).frames =
              { f with kind := .value .returnWith ref .apply } :: fs := by
            rw [restore, hframes]
          refine ⟨fun _ => .returns (control_restore.trans h.control) rfl hframes' ⟨ref, rfl, hstmt⟩
            (hsound.restore hlike ⟨_, hstmt, rfl⟩) h.below, ?_, nofun, ?_⟩
          · intro g hg
            exact absurd ((control_restore.trans h.control).symm.trans hg) nofun
          · intro x hx
            exact .inr ⟨(Option.some.inj hx).symm, _, hframes', ref, rfl, hstmt⟩
  | apply => exact h.takeSlot.within_applyValue hplain rfl fun e g => hthrown e g rfl

/-! ## Choices and loops -/

theorem Faces.within_executeIf {ref : StmtRef} {phase : IfPhase}
    (h : v.Faces goal (.choose ref phase) fs)
    (hslot : (FrameKind.choose ref phase).takes = false → v.slot = none) :
    (v.executeIf w ref phase).Within goal (.choose ref phase) fs P B := by
  obtain ⟨f, -, hsound⟩ := h.frames
  obtain ⟨branches, otherwise, hstmt, hcheck⟩ := hsound.kind
  have hlike : ∀ phase', (FrameKind.choose ref phase).Like (.choose ref phase') :=
    fun _ => ⟨rfl, rfl, rfl, rfl⟩
  unfold executeIf
  rw [withStmt_eq hstmt]
  cases phase with
  | test n =>
      have hslot := hslot rfl
      dsimp only
      split
      · next test body hbranch =>
          refine h.within_pushExpression hplain hslot (hlike _) ⟨branches, otherwise, hstmt, ?_⟩
            rfl test
          rintro m ⟨⟩
          exact (List.getElem?_eq_some_iff.mp hbranch).1
      · split
        · exact h.within_block hslot (hlike .done) ⟨_, _, hstmt, nofun⟩ rfl (by exact nofun) _ _ _
        · exact h.within_finish hslot rfl
  | check n =>
      have hn : n < branches.length := hcheck n rfl
      dsimp only
      split
      · dsimp only [Vm.takeSlot]
        split
        · exact h.takeSlot.within_block rfl (hlike .done) ⟨_, _, hstmt, nofun⟩ rfl (by exact nofun)
            _ _ _
        · exact within_ready (by simp [h.control]) (by simp)
            (h.takeSlot.ready (hlike (.test (n + 1))) ⟨_, _, hstmt, nofun⟩ rfl) nofun
        · next g hg =>
            obtain ⟨g, hordinary, rfl⟩ := Machine.ordinary_of_condition hg
            exact h.takeSlot.within_throw rfl (hplain _ hordinary.kind.1)
      · next hnone => exact absurd hn (by simpa using hnone)
  | done => exact h.within_finish (hslot rfl) rfl

omit hplain in
theorem checkpoint_ne_crash (message : Option String) : v.checkpoint ≠ .crash message := by
  unfold checkpoint
  split <;> exact nofun

theorem Faces.within_executeRepeat {ref : StmtRef} {phase : RepeatPhase}
    (h : v.Faces goal (.repeatFor ref phase) fs)
    (hslot : (FrameKind.repeatFor ref phase).takes = false → v.slot = none) :
    (v.executeRepeat w ref phase).Within goal (.repeatFor ref phase) fs P B := by
  obtain ⟨f, -, hsound⟩ := h.frames
  obtain ⟨var, lower, upper, body, hstmt⟩ := hsound.kind
  have hthere : ∀ phase', (FrameKind.repeatFor ref phase').Sound := fun _ => ⟨_, _, _, _, hstmt⟩
  have hlike : ∀ phase', (FrameKind.repeatFor ref phase).Like (.repeatFor ref phase') :=
    fun _ => ⟨rfl, rfl, rfl, rfl⟩
  unfold executeRepeat
  rw [withStmt_eq hstmt]
  cases phase with
  | start => exact h.within_pushExpression hplain (hslot rfl) (hlike _) (hthere _) rfl lower
  | lower =>
      dsimp only [Vm.takeSlot]
      split
      · exact h.takeSlot.within_pushExpression hplain rfl (hlike _) (hthere _) rfl upper
      · next g hg =>
          obtain ⟨g, hordinary, rfl⟩ := Machine.ordinary_of_bound hg
          exact h.takeSlot.within_throw rfl (hplain _ hordinary.kind.1)
  | upper lo =>
      dsimp only [Vm.takeSlot]
      split
      · exact within_ready (by simp [h.control]) (by simp)
          (h.takeSlot.ready (hlike _) (hthere _) rfl) nofun
      · next g hg =>
          obtain ⟨g, hordinary, rfl⟩ := Machine.ordinary_of_bound hg
          exact h.takeSlot.within_throw rfl (hplain _ hordinary.kind.1)
  | iterate next hi =>
      have hslot := hslot rfl
      dsimp only
      split
      · exact h.within_finish hslot rfl
      · refine h.within_block hslot (hlike _) (hthere _) ?_ checkpoint_ne_crash _ _ _
        unfold following
        split <;> rfl
  | finished => exact h.within_finish (hslot rfl) rfl

theorem Faces.within_executeWhile {ref : StmtRef} {phase : WhilePhase}
    (h : v.Faces goal (.repeatWhile ref phase) fs)
    (hslot : (FrameKind.repeatWhile ref phase).takes = false → v.slot = none) :
    (v.executeWhile w ref phase).Within goal (.repeatWhile ref phase) fs P B := by
  obtain ⟨f, -, hsound⟩ := h.frames
  obtain ⟨test, body, hstmt⟩ := hsound.kind
  have hthere : ∀ phase', (FrameKind.repeatWhile ref phase').Sound := fun _ => ⟨_, _, hstmt⟩
  have hlike : ∀ phase', (FrameKind.repeatWhile ref phase).Like (.repeatWhile ref phase') :=
    fun _ => ⟨rfl, rfl, rfl, rfl⟩
  unfold executeWhile
  rw [withStmt_eq hstmt]
  cases phase with
  | test => exact h.within_pushExpression hplain (hslot rfl) (hlike _) (hthere _) rfl test
  | check =>
      dsimp only [Vm.takeSlot]
      split
      · exact h.takeSlot.within_block rfl (hlike _) (hthere _) rfl checkpoint_ne_crash _ _ _
      · exact h.takeSlot.within_finish rfl rfl
      · next g hg =>
          obtain ⟨g, hordinary, rfl⟩ := Machine.ordinary_of_condition hg
          exact h.takeSlot.within_throw rfl (hplain _ hordinary.kind.1)

/-! ## Handlers and exclusive blocks -/

omit hplain in
theorem Faces.within_executeTry {ref : StmtRef} {phase : TryPhase}
    (h : v.Faces goal (.attempt ref phase) fs) (hslot : v.slot = none) :
    (v.executeTry w ref phase).Within goal (.attempt ref phase) fs P B := by
  obtain ⟨f, -, hsound⟩ := h.frames
  obtain ⟨body, handlers, hstmt⟩ := hsound.kind
  cases phase with
  | start =>
      unfold executeTry
      dsimp only
      rw [withStmt_eq hstmt]
      have hlike : (FrameKind.attempt ref .start).Like (.attempt ref .body) := ⟨rfl, rfl, rfl, rfl⟩
      exact h.within_block hslot hlike ⟨_, _, hstmt⟩ rfl (by exact nofun) _ _ _
  | body => exact h.within_finish hslot rfl
  | handler => exact h.within_finish hslot rfl

omit hplain in
theorem Faces.within_executeExclusive {ref : StmtRef} {lock : LockRef} {phase : ExclusivePhase}
    (h : v.Faces goal (.exclusive ref lock phase) fs) (hslot : v.slot = none) :
    (v.executeExclusive w ref lock phase).Within goal (.exclusive ref lock phase) fs P B := by
  obtain ⟨f, hframes, hsound⟩ := h.frames
  obtain ⟨body, hstmt⟩ := hsound.kind
  cases phase with
  | acquire =>
      unfold executeExclusive
      dsimp only
      split
      · exact within_ready (by simp [h.control]) (by simp [hslot])
          (h.ready ⟨rfl, rfl, rfl, rfl⟩ ⟨_, hstmt⟩ rfl) checkpoint_ne_crash
      · rw [withStmt_eq hstmt]
        -- From here on the frame holds the lock.
        have hholds : VmFrame.Sound { f with
            kind := .exclusive ref lock .body, lock := some lock } :=
          ⟨⟨body, hstmt⟩, fun _ => hsound.scope rfl, rfl, hsound.boundary⟩
        refine within_ready ?_ ?_ ?_ nofun
        · simp [pushBlock, pushFrame, holding, restore, hframes, h.control]
        · simp [pushBlock, pushFrame, holding, restore, hframes, hslot]
        · simp only [pushBlock, pushFrame, holding, restore, hframes]
          exact .cons rfl ⟨trivial, nofun, rfl, rfl⟩ (.frame rfl hholds h.below)
  | body => exact h.within_finish hslot rfl

/-! ## Expressions -/

theorem Faces.within_evalItems {frame : EvalFrame} (h : v.Faces goal (.eval frame) fs)
    (hslot : v.slot = none) {code : Code}
    (hasks : ∀ (e : Extension) args (f : Failure), e.Answers s w.heap args (.failure f) →
      P (f.locate code.location))
    (hbreaks : ∀ (e : Extension) args message, e.Answers s w.heap args (.crash message) → B message)
    (hawaits : ∀ t f, (w.task t).outcome = some (.error f) → P (f.locate code.location))
    (pc : Nat) (stack : List Operand) (items : List Item) :
    (v.evalItems s w code pc stack items).Within goal (.eval frame) fs P B := by
  have hlike : ∀ frame', (FrameKind.eval frame).Like (.eval frame') := fun _ => ⟨rfl, rfl, rfl, rfl⟩
  have hthrow : ∀ (w : World) (f : Failure), f.Ordinary →
      (v.throw w (f.locate code.location)).Within goal (.eval frame) fs P B := fun w f hf =>
    h.within_throw hslot (hplain _ hf.kind.1)
  induction items generalizing w pc stack with
  | nil =>
      dsimp only [evalItems]
      split
      · exact h.within_finishWith rfl _
      · next f hf => exact hthrow w f ((Item.gives_result w.heap stack).failure f hf)
  | cons i rest ih =>
      have heffect := i.within_effect s w.heap v.scopes.current stack
      dsimp only [evalItems]
      cases he : i.effect s w.heap v.scopes.current stack with
      | next stack => exact ih hasks hbreaks hawaits _ _
      | call callee args stack =>
          exact h.within_push hslot (hlike _) trivial rfl
            (VmFrame.sound_new trivial rfl rfl) rfl
      | schedule callee args stack =>
          dsimp only
          split
          · next w' t hschedule =>
              have hheap := Machine.heap_of_schedule hschedule
              exact ih (hheap ▸ hasks) (hheap ▸ hbreaks)
                (fun t f ho => hawaits t f (World.outcome_of_schedule hschedule ho)) _ _
          · next f hf =>
              unfold World.schedule at hf
              split at hf
              · obtain rfl := Except.error.inj hf
                exact h.within_throw hslot (hplain _ (by rintro ⟨⟩))
              · contradiction
      | await t below =>
          dsimp only
          split
          · exact h.within_throw hslot (hplain _ (by rintro ⟨⟩))
          · split
            · exact within_ready (by simp [h.control]) (by simp [hslot])
                (h.ready (hlike _) trivial rfl) checkpoint_ne_crash
            · split
              · next w' x hclaim =>
                  have hheap := (Machine.eq_of_claim hclaim).1
                  exact ih (hheap ▸ hasks) (hheap ▸ hbreaks)
                    (fun t f ho => hawaits t f (World.outcome_of_claimed hclaim ho)) _ _
              · next f hclaim =>
                  exact h.within_throw hslot (hawaits t f (Machine.outcome_of_claim hclaim))
              · next hwaited _ _ f hclaim => simp [World.claim, Task.claim, hwaited] at hclaim
      | fail f =>
          rw [he] at heffect
          rcases heffect with hordinary | ⟨e, args, -, hf⟩
          · exact hthrow w f hordinary
          · exact h.within_throw hslot (hasks e args f hf)
      | crash message =>
          rw [he] at heffect
          obtain ⟨e, args, -, hm⟩ := heffect
          refine ⟨fun hcrash => absurd rfl (hcrash message), ?_, ?_, ?_⟩
          · intro f hf
            have hcontrol := h.control.symm.trans hf
            contradiction
          · intro message' hmessage
            obtain rfl := VmStep.crash.inj hmessage
            exact hbreaks e args message hm
          · intro x hx
            have hnone := hslot.symm.trans hx
            contradiction

theorem Faces.within_evalStep {frame : EvalFrame} (h : v.Faces goal (.eval frame) fs)
    (hslot : (FrameKind.eval frame).takes = false → v.slot = none)
    (hasks : ∀ (e : Extension) args (f : Failure), e.Answers s w.heap args (.failure f) →
      P (f.locate frame.code.location))
    (hbreaks : ∀ (e : Extension) args message, e.Answers s w.heap args (.crash message) → B message)
    (hawaits : ∀ t f, (w.task t).outcome = some (.error f) → P (f.locate frame.code.location)) :
    (v.evalStep s w frame).Within goal (.eval frame) fs P B := by
  obtain ⟨code, pc, stack, awaiting⟩ := frame
  cases awaiting with
  | true => exact h.takeSlot.within_evalItems hplain rfl hasks hbreaks hawaits _ _ _
  | false => exact h.within_evalItems hplain (hslot rfl) hasks hbreaks hawaits _ _ _

/-! ## Calls -/

theorem Faces.within_supplyNext {frame : CallFrame} {callee : Value} {args : List Value}
    {site : Option Location} {phase : CallPhase} {p : Procedure} {next : Nat}
    (h : v.Faces goal (.call frame) fs) (hslot : v.slot = none)
    (hrunning : (FrameKind.call frame).isRunning = false)
    (hp : callee.procedure? = some p) (hrequired : p.required ≤ next)
    (hnext : next = args.length) (hle : next ≤ p.params.length) :
    (v.supplyNext w p ⟨callee, args, site, phase⟩ next).Within goal (.call frame) fs P B := by
  unfold supplyNext
  split
  · next hnone =>
      have hlength : p.params.length ≤ next := by simpa using hnone
      exact within_ready (by simp [h.control]) (by simp [hslot])
        (h.ready ⟨rfl, hrunning.symm, rfl, rfl⟩ ⟨p, hp, hnext.symm.trans (by omega)⟩ rfl) nofun
  · next param hparam =>
      obtain ⟨hlt, rfl⟩ := List.getElem?_eq_some_iff.mp hparam
      -- Only parameters after the required ones are left, and they have defaults.
      have hdefault : (p.params[next]).default.isSome :=
        Procedure.isSome_default_of_mem_drop hrequired
          (List.mem_drop_iff_getElem.mpr ⟨0, by simpa using hlt, by simp⟩)
      obtain ⟨e, he⟩ := Option.isSome_iff_exists.mp hdefault
      simp only [defaultCode, he]
      split
      · have hlike : (FrameKind.call frame).Like (.call ⟨callee, args, site, .default next true⟩) :=
          ⟨rfl, hrunning.symm, rfl, rfl⟩
        exact h.within_push hslot hlike ⟨p, hp, hrequired, hnext, hle, fun _ => hlt⟩ rfl
          (VmFrame.sound_new trivial rfl rfl) rfl
      · next f hf =>
          refine h.within_throw hslot (hplain _ ?_)
          rw [Expression.atCall_of_compile hf, (Expression.failure_of_compile hf).1]
          decide

omit hplain in
theorem Faces.within_enterCall {callee : Value} {args : List Value} {site : Option Location}
    {p : Procedure} {r : Option ObjectRef}
    (h : v.Faces goal (.call ⟨callee, args, site, .enter⟩) fs) (hslot : v.slot = none)
    (hplain' : ∀ f : Failure, f.kind ≠ .internal → P (f.atCall site)) :
    (v.enterCall s w p r ⟨callee, args, site, .enter⟩).Within goal
      (.call ⟨callee, args, site, .enter⟩) fs P B := by
  obtain ⟨f, hframes, hsound⟩ := h.frames
  unfold enterCall
  dsimp only
  split
  · exact h.within_throw hslot (hplain' _ nofun)
  · rw [hframes]
    refine within_ready h.control hslot ?_ nofun
    exact .cons rfl (VmFrame.sound_new trivial rfl rfl)
      (.frame rfl ⟨hsound.kind, fun _ => rfl, hsound.lock, rfl⟩ h.below)

theorem Faces.within_callProcedure {frame : CallFrame} {p : Procedure} {r : Option ObjectRef}
    (h : v.Faces goal (.call frame) fs)
    (hslot : (FrameKind.call frame).takes = false → v.slot = none)
    (hp : frame.callee.procedure? = some p)
    (hplain' : ∀ f : Failure, f.kind ≠ .internal → P (f.atCall frame.site)) :
    (v.callProcedure s w p r frame).Within goal (.call frame) fs P B := by
  obtain ⟨callee, args, site, phase⟩ := frame
  obtain ⟨f, -, hsound⟩ := h.frames
  have hof : FrameKind.OfCall callee args phase := hsound.kind
  unfold callProcedure
  cases phase with
  | bind =>
      dsimp only
      split
      · exact h.within_throw (hslot rfl) (hplain' _ nofun)
      · next hcount =>
          have hcount := not_or.mp hcount
          split
          · next hlt =>
              exact within_ready (by simp [h.control]) (by simp [hslot rfl])
                (h.ready ⟨rfl, rfl, rfl, rfl⟩
                  ⟨p, hp, Nat.le_of_not_lt hcount.1, rfl, Nat.le_of_lt hlt, nofun⟩ rfl) nofun
          · next hge =>
              have hlength : args.length = p.params.length :=
                Nat.le_antisymm (Nat.le_of_not_lt hcount.2) (Nat.le_of_not_lt hge)
              exact within_ready (by simp [h.control]) (by simp [hslot rfl])
                (h.ready ⟨rfl, rfl, rfl, rfl⟩ ⟨p, hp, hlength⟩ rfl) nofun
  | default next pending =>
      obtain ⟨q, hq, hrequired, hnext, hle, hpending⟩ := hof
      obtain rfl : p = q := Option.some.inj (hp.symm.trans hq)
      cases pending with
      | true =>
          refine h.takeSlot.within_supplyNext hplain rfl rfl hp (by omega) ?_ (hpending rfl)
          rw [List.length_append, List.length_singleton, ← hnext]
      | false => exact h.within_supplyNext hplain (hslot rfl) rfl hp hrequired hnext hle
  | enter => exact h.within_enterCall (hslot rfl) hplain'
  | running => exact h.within_finishWith rfl _

omit hplain in
/-- Whatever is not a procedure has only begun. -/
theorem phase_of_sound {callee : Value} {args : List Value} {site : Option Location}
    {phase : CallPhase} (hsound : (FrameKind.call ⟨callee, args, site, phase⟩).Sound)
    (hnone : callee.procedure? = none) : phase = .bind := by
  have hof : FrameKind.OfCall callee args phase := hsound
  cases phase with
  | bind => rfl
  | default next pending =>
      obtain ⟨p, hp, -⟩ := hof
      simp [hnone] at hp
  | _ =>
      obtain ⟨p, hp, -⟩ := hof
      simp [hnone] at hp

theorem Faces.within_callStep {frame : CallFrame} (h : v.Faces goal (.call frame) fs)
    (hslot : (FrameKind.call frame).takes = false → v.slot = none)
    (hplain' : ∀ f : Failure, f.kind ≠ .internal → P (f.atCall frame.site))
    (hasks : ∀ e, frame.callee = .extension e →
      (∀ f, e.Answers s w.heap frame.args (.failure f) → P (f.atCall frame.site)) ∧
        ∀ message, e.Answers s w.heap frame.args (.crash message) → B message) :
    (v.callStep s w frame).Within goal (.call frame) fs P B := by
  obtain ⟨callee, args, site, phase⟩ := frame
  obtain ⟨f, -, hsound⟩ := h.frames
  unfold callStep
  dsimp only
  split
  · exact h.within_callProcedure hplain hslot rfl hplain'
  · exact h.within_callProcedure hplain hslot rfl hplain'
  · next e =>
      obtain rfl := phase_of_sound hsound.kind rfl
      split
      · exact h.within_finishWith rfl _
      · next f hf =>
          exact h.within_throw (hslot rfl) ((Extension.answers_of_checkedCall hf).elim
            (fun hordinary => hplain' f hordinary.kind.1) ((hasks e rfl).1 f))
      · next message hm =>
          refine ⟨fun hcrash => absurd rfl (hcrash message), ?_, ?_, ?_⟩
          · intro f hf
            exact absurd (h.control.symm.trans hf) nofun
          · intro message' hmessage
            obtain rfl := VmStep.crash.inj hmessage
            exact (hasks e rfl).2 message (Extension.answers_of_checkedCall_crash hm)
          · intro x hx
            exact absurd ((hslot rfl).symm.trans hx) nofun
  · next cls =>
      obtain rfl := phase_of_sound hsound.kind rfl
      exact within_ready (by simp [h.control]) (by simp [hslot rfl])
        (h.ready ⟨rfl, rfl, rfl, rfl⟩ (⟨fun _ => rfl, fun hne => absurd rfl hne⟩) rfl) nofun
  · next hprocedure hmethod hextension hclass =>
      have hnone : callee.procedure? = none := by
        cases callee with
        | procedure p => exact absurd rfl (hprocedure p)
        | method r p => exact absurd rfl (hmethod r p)
        | _ => rfl
      obtain rfl := phase_of_sound hsound.kind hnone
      exact h.within_throw (hslot rfl) (hplain' _ nofun)

/-! ## Construction -/

omit hplain in
theorem Faces.within_constructStep {frame : ConstructFrame}
    (h : v.Faces goal (.construct frame) fs)
    (hslot : (FrameKind.construct frame).takes = false → v.slot = none)
    (hplain' : ∀ f : Failure, f.kind ≠ .internal → P (f.atCall frame.site)) :
    (v.constructStep w frame).Within goal (.construct frame) fs P B := by
  obtain ⟨cls, args, object, consumed, site, phase⟩ := frame
  obtain ⟨f, -, hsound⟩ := h.frames
  have hobject : phase ≠ .start → ∃ r, object = some r := hsound.kind.2
  have hlike : ∀ frame', (FrameKind.construct ⟨cls, args, object, consumed, site, phase⟩).Like
      (.construct frame') := fun _ => ⟨rfl, rfl, rfl, rfl⟩
  unfold constructStep
  cases phase with
  | start =>
      unfold constructStart
      dsimp only
      split
      · split
        · exact h.within_throw (hslot rfl) (hplain' _ nofun)
        · exact h.within_finishWith rfl _
      · split
        · exact h.within_push (hslot rfl) (hlike ⟨cls, args, some _, _, site, .parent⟩)
            ⟨nofun, fun _ => ⟨_, rfl⟩⟩ rfl
            (VmFrame.sound_new ⟨fun _ => rfl, fun hne => absurd rfl hne⟩ rfl rfl) rfl
        · exact within_ready (by simp [h.control]) (by simp [hslot rfl])
            (h.ready (hlike ⟨cls, args, some _, consumed, site, .own⟩)
              ⟨nofun, fun _ => ⟨_, rfl⟩⟩ rfl) nofun
  | parent =>
      obtain ⟨r, rfl⟩ := hobject nofun
      dsimp only [Vm.takeSlot]
      exact within_ready (by simp [h.control]) (by simp)
        (h.takeSlot.ready (hlike ⟨cls, args, some r, consumed, site, .own⟩)
          ⟨nofun, fun _ => ⟨r, rfl⟩⟩ rfl) nofun
  | own =>
      obtain ⟨r, rfl⟩ := hobject nofun
      dsimp only
      split
      · exact h.within_push (hslot rfl) (hlike ⟨cls, args, some r, consumed, site, .finish⟩)
          ⟨nofun, fun _ => ⟨r, rfl⟩⟩ rfl (VmFrame.sound_new trivial rfl rfl) rfl
      · split
        · exact h.within_throw (hslot rfl) (hplain' _ nofun)
        · exact h.within_finishWith rfl _
  | finish =>
      obtain ⟨r, rfl⟩ := hobject nofun
      exact h.takeSlot.within_finishWith rfl _

/-! ## Leaving early -/

omit hplain in
/-- A frame that waits for a statement and is no call is a statement itself. -/
theorem result_of_awaits (hawaits : k.awaits = some .statement)
    (hcall : ∀ frame, k ≠ .call frame) : k.result = .statement := by
  cases k with
  | eval frame =>
      obtain ⟨code, pc, stack, awaiting⟩ := frame
      cases awaiting <;> simp [FrameKind.awaits] at hawaits
  | call frame => exact absurd rfl (hcall frame)
  | construct frame =>
      obtain ⟨cls, args, object, consumed, site, phase⟩ := frame
      cases phase <;> simp [FrameKind.awaits] at hawaits
  | _ => rfl

omit hplain in
theorem Faces.within_catching {ref : StmtRef} (h : v.Faces goal (.attempt ref .body) fs)
    (hslot : v.slot = none) {f : Failure} (hP : P f) :
    (v.catching s w ref f).Within goal (.attempt ref .body) fs P B := by
  obtain ⟨g, -, hsound⟩ := h.frames
  obtain ⟨body, handlers, hstmt⟩ := hsound.kind
  have hlike : (FrameKind.attempt ref .body).Like (.attempt ref .handler) := ⟨rfl, rfl, rfl, rfl⟩
  unfold catching
  rw [withStmt_eq hstmt]
  dsimp only
  split
  · exact h.within_throw hslot hP
  · split
    · exact h.within_block hslot hlike ⟨_, _, hstmt⟩ rfl (by exact nofun) _ _ _
    · exact h.within_block hslot hlike ⟨_, _, hstmt⟩ rfl (by exact nofun) _ _ _

omit hplain in
theorem landing_eq_loop {h : Heap} (hlanding : landing h k = .loop) :
    (∃ ref phase, k = .repeatFor ref phase) ∨ ∃ ref phase, k = .repeatWhile ref phase := by
  unfold landing at hlanding
  split at hlanding
  · exact .inl ⟨_, _, rfl⟩
  · exact .inr ⟨_, _, rfl⟩
  all_goals contradiction

omit hplain in
theorem landing_eq_call {h : Heap} {entry : TraceEntry} (hlanding : landing h k = .call entry) :
    ∃ frame, k = .call frame := by
  unfold landing at hlanding
  split at hlanding
  all_goals first
    | contradiction
    | exact ⟨_, rfl⟩

omit hplain in
theorem landing_eq_attempt {h : Heap} {ref : StmtRef} (hlanding : landing h k = .attempt ref) :
    k = .attempt ref .body := by
  unfold landing at hlanding
  split at hlanding
  all_goals first
    | contradiction
    | rw [Landing.attempt.inj hlanding]

omit hplain in
/-- The frame on top deals with something that is left early, for which it does not have to wait for
the end of a statement if it is a failure. -/
theorem Faces.within_unwind {f : VmFrame} {e : Exit} {σ : Shape} (h : v.Faces goal f.kind fs)
    (hframes : v.frames = f :: fs) (hslot : v.slot = none) (hawaits : f.kind.awaits = some σ)
    (hexit : σ = .statement ∨ ∃ g, e = .failWith g)
    (hP : ∀ g g' : Failure, e = .failWith g' → g.core = g'.core → P g)
    (houtside : ∀ keyword, P (Machine.outsideLoop keyword)) :
    (v.unwind s w e).Within goal f.kind fs P B := by
  obtain ⟨frames, control, slot, scopes, mode, depth⟩ := v
  obtain rfl : frames = f :: fs := hframes
  have hsound : f.Sound := by
    obtain ⟨g, hg, hsound⟩ := h.frames
    obtain ⟨rfl, -⟩ := List.cons.inj hg
    exact hsound
  have hstacked : Stacked goal σ (f :: fs) := .frame hawaits hsound h.below
  -- A loop that is left at a call is a failure there.
  have hfails : ∀ keyword, VmReply.Within goal f.kind fs P B
      (goOn w ⟨f :: fs, some (.failWith (Machine.outsideLoop keyword)), slot, scopes, mode,
        depth⟩) := by
    intro keyword
    refine ⟨fun _ => .leaves rfl hslot hstacked (.inr ⟨_, rfl⟩), ?_, nofun, ?_⟩
    · intro g hg
      obtain rfl := Exit.failWith.inj (Option.some.inj hg)
      exact houtside keyword
    · intro x hx
      exact absurd (hslot.symm.trans hx) nofun
  unfold unwind
  dsimp only
  split
  · next hlanding =>
      refine h.within_finish hslot ?_
      rcases landing_eq_loop hlanding with ⟨_, _, hk⟩ | ⟨_, _, hk⟩ <;> rw [hk] <;> rfl
  · obtain rfl := hexit.resolve_right (by simp)
    exact within_ready h.control hslot hstacked.ready nofun
  · exact hfails _
  · exact hfails _
  · next hlanding =>
      obtain ⟨frame, hk⟩ := landing_eq_call hlanding
      exact h.within_finishWith (by rw [hk]; rfl) _
  · exact h.within_throw hslot (hP _ _ rfl rfl)
  · next hlanding =>
      have hk := landing_eq_attempt hlanding
      rw [hk] at h ⊢
      exact h.within_catching hslot (hP _ _ rfl rfl)
  · next e _ _ _ _ hbreak hcontinue hreturn hfail _ =>
      refine h.within_leave hslot ?_ fun g hg => hP g g hg rfl
      refine hexit.imp_left fun hσ => ?_
      subst hσ
      refine result_of_awaits hawaits fun frame hk => ?_
      rw [hk] at hbreak hcontinue hreturn hfail
      cases e with
      | breakOut => exact hbreak _ rfl rfl
      | continueOn => exact hcontinue _ rfl rfl
      | returnWith x => exact hreturn _ _ rfl rfl
      | failWith g => exact hfail _ _ rfl rfl

end Vm

/-! ## Steps -/

namespace Vm

variable {s : Setting} {w : World} {v v' v₀ : Vm} {goal : Shape}

/-- The next step comes upon a failure: it is under way, the program throws it, an extension that is
asked answers with it, or a task that is waited for has ended with it. -/
inductive Meets (s : Setting) (w : World) (v : Vm) (f : Failure) : Prop
  | underWay (hcontrol : v.control = some (.failWith f))
  | thrown {g : VmFrame} {fs : List VmFrame} {ref : StmtRef} {e : Expression} {x : Value}
      (hframes : v.frames = g :: fs) (hkind : g.kind = .value .throw ref .apply)
      (hstmt : ref.stmt? = some (.raise e)) (hslot : v.slot = some x)
      (hthrown : w.heap.thrown x = .ok f)
  | answered {e : Extension} {args : List Value} (hanswer : e.Answers s w.heap args (.failure f))
      {g : VmFrame} {fs : List VmFrame} (hframes : v.frames = g :: fs)
      (hasks : (∃ frame, g.kind = .eval frame) ∨
        ∃ frame, g.kind = .call frame ∧ frame.callee = .extension e ∧ frame.args = args)
  | awaited {t : TaskRef} (houtcome : (w.task t).outcome = some (.error f)) {g : VmFrame}
      {fs : List VmFrame} {frame : EvalFrame} (hframes : v.frames = g :: fs)
      (hkind : g.kind = .eval frame)

/-- The host breaks down in the next step. -/
def Breaks (s : Setting) (w : World) (message : Option String) : Prop :=
  ∃ (e : Extension) (args : List Value), e.Answers s w.heap args (.crash message)

/-- An internal failure is one that the step comes upon. -/
def Explains (s : Setting) (w : World) (v : Vm) (f : Failure) : Prop :=
  f.kind = .internal → ∃ g, v.Meets s w g ∧ f.core = g.core

theorem Explains.of_core {f g : Failure} (h : v.Meets s w g) (hcore : f.core = g.core) :
    v.Explains s w f := fun _ => ⟨g, h, hcore⟩

theorem explains_of_kind {f : Failure} (h : f.kind ≠ .internal) : v.Explains s w f :=
  fun hinternal => absurd hinternal h

theorem explains_atCall {f : Failure} (h : f.kind ≠ .internal) (site : Option Location) :
    v.Explains s w (f.atCall site) :=
  explains_of_kind ((Failure.kind_of_core (Failure.core_atCall f site)).trans_ne h)

/-- What a handler does with the kind of the frame on top of `v` that it has taken out. -/
theorem Faces.within_execute {u : Vm} {f : VmFrame} {fs : List VmFrame}
    (h : u.Faces goal f.kind fs) (hframes : v.frames = f :: fs) (hu : u.slot = v.slot)
    (hslot : f.kind.takes = false → v.slot = none)
    (hvalue : f.kind.awaits = some .value → ∃ x, v.slot = some x) :
    (u.execute s w f.kind).Within goal f.kind fs (v.Explains s w) (Breaks s w) := by
  have hplain : ∀ g : Failure, g.kind ≠ .internal → v.Explains s w g := fun _ => explains_of_kind
  rw [← hu] at hslot
  cases hkind : f.kind with
  | vacant =>
      obtain ⟨g, -, hsound⟩ := h.frames
      exact (hkind ▸ hsound.kind : FrameKind.vacant.Sound).elim
  | body body index checkpoint =>
      rw [hkind] at h hslot
      exact h.within_executeBody (hslot rfl)
  | value kind ref phase =>
      rw [hkind] at h hslot hvalue
      refine h.within_executeValue hplain (fun hphase => hslot (hphase ▸ rfl))
        fun e g hphase hstmt hthrown => ?_
      subst hphase
      obtain ⟨x, hx⟩ := hvalue (by simp only [FrameKind.awaits, hstmt])
      obtain ⟨g', -, hsound⟩ := h.frames
      obtain ⟨stmt, hstmt', hvalueKind⟩ := hsound.kind
      obtain rfl := Option.some.inj (hstmt.symm.trans hstmt')
      obtain rfl := Option.some.inj hvalueKind
      rw [hu, hx] at hthrown
      exact .of_core (.thrown hframes hkind hstmt hx hthrown) (Failure.core_atCall g (some _))
  | choose ref phase =>
      rw [hkind] at h hslot
      exact h.within_executeIf hplain hslot
  | repeatFor ref phase =>
      rw [hkind] at h hslot
      exact h.within_executeRepeat hplain hslot
  | repeatWhile ref phase =>
      rw [hkind] at h hslot
      exact h.within_executeWhile hplain hslot
  | attempt ref phase =>
      rw [hkind] at h hslot
      exact h.within_executeTry (hslot (by cases phase <;> rfl))
  | exclusive ref lock phase =>
      rw [hkind] at h hslot
      exact h.within_executeExclusive (hslot (by cases phase <;> rfl))
  | eval frame =>
      rw [hkind] at h hslot
      refine h.within_evalStep hplain hslot ?_ (fun e args _ hm => ⟨e, args, hm⟩) ?_
      · intro e args g hg
        exact .of_core (.answered hg hframes (.inl ⟨frame, hkind⟩)) (Failure.core_atCall g (some _))
      · intro t g hg
        exact .of_core (.awaited hg hframes hkind) (Failure.core_atCall g (some _))
  | call frame =>
      rw [hkind] at h hslot
      refine h.within_callStep hplain hslot (fun g hg => explains_atCall hg _) fun e he => ?_
      refine ⟨fun g hg => ?_, fun message hm => ⟨e, _, hm⟩⟩
      exact .of_core (.answered hg hframes (.inr ⟨frame, hkind, he, rfl⟩)) (Failure.core_atCall g _)
  | construct frame =>
      rw [hkind] at h hslot
      exact h.within_constructStep hslot fun g hg => explains_atCall hg _

theorem step_of_frames_nil (h : v.frames = []) : v.step s w = ⟨.done, w, v⟩ := by
  obtain ⟨frames, control, slot, scopes, mode, depth⟩ := v
  obtain rfl : frames = [] := h
  cases control <;> rfl

/-- As long as nothing is left early, the slot is filled when the frame on top takes a value. -/
theorem Sound.top (h : v.Sound goal) (hcontrol : v.control = none) {f : VmFrame}
    {fs : List VmFrame} (hframes : v.frames = f :: fs) :
    f.Sound ∧ Stacked goal f.kind.result fs ∧ v.slot.isSome = f.kind.takes ∧
      (f.IsBareReturn → v.slot = some .empty) := by
  cases h with
  | runs _ hslot hready =>
      rw [hframes] at hready
      cases hready with
      | cons htakes hsound hbelow =>
          refine ⟨hsound, hbelow, by rw [hslot, htakes]; rfl, ?_⟩
          rintro ⟨ref, hkind, -⟩
          rw [hkind] at htakes
          contradiction
  | receives _ hslot hstacked =>
      rw [hframes] at hstacked
      cases hstacked with
      | frame hawaits hsound hbelow =>
          refine ⟨hsound, hbelow, by rw [hslot, FrameKind.takes_of_awaits hawaits]; rfl, ?_⟩
          rintro ⟨ref, hkind, hstmt⟩
          simp only [hkind, FrameKind.awaits, hstmt] at hawaits
          contradiction
  | returns _ hslot hframes' hbare hsound hbelow =>
      obtain ⟨rfl, rfl⟩ := List.cons.inj (hframes.symm.trans hframes')
      obtain ⟨ref, hkind, -⟩ := hbare
      refine ⟨hsound, ?_, ?_, fun _ => hslot⟩
      · rw [hkind]
        exact hbelow
      · rw [hslot, hkind]
        rfl
  | leaves hcontrol' => exact absurd (hcontrol.symm.trans hcontrol') nofun

/-- Something that is left early meets a frame that waits, and the slot is empty. -/
theorem Sound.left (h : v.Sound goal) {e : Exit} (hcontrol : v.control = some e) :
    v.slot = none ∧ ∃ k, Stacked goal k v.frames ∧ (k = .statement ∨ ∃ f, e = .failWith f) := by
  cases h with
  | leaves hcontrol' hslot hframes hexit =>
      obtain rfl := Option.some.inj (hcontrol.symm.trans hcontrol')
      exact ⟨hslot, _, hframes, hexit⟩
  | runs hnone => exact absurd (hnone.symm.trans hcontrol) nofun
  | receives hnone => exact absurd (hnone.symm.trans hcontrol) nofun
  | returns hnone => exact absurd (hnone.symm.trans hcontrol) nofun

/-- A machine in order whose frame on top is `f` leaves a machine in order. -/
theorem Sound.within_step (h : v.Sound goal) {f : VmFrame} {fs : List VmFrame}
    (hframes : v.frames = f :: fs) :
    (v.step s w).Within goal f.kind fs (v.Explains s w) (Breaks s w) := by
  obtain ⟨frames, control, slot, scopes, mode, depth⟩ := v
  obtain rfl : frames = f :: fs := hframes
  cases control with
  | none =>
      obtain ⟨hsound, hbelow, htakes, -⟩ := h.top rfl rfl
      refine Faces.within_execute (u := Vm.restore ⟨f :: fs, none, slot, scopes, mode, depth⟩ _)
        ⟨⟨_, rfl, hsound⟩, rfl, hbelow⟩ rfl rfl (fun hnot => ?_) fun hvalue => ?_
      · exact Option.isNone_iff_eq_none.mp (Option.isSome_eq_false_iff.mp (htakes.trans hnot))
      · exact Option.isSome_iff_exists.mp (htakes.trans (FrameKind.takes_of_awaits hvalue))
  | some e =>
      obtain ⟨hslot, k, hstacked, hexit⟩ := h.left rfl
      cases hstacked with
      | frame hawaits hsound hbelow =>
          refine Faces.within_unwind (v := ⟨f :: fs, none, slot, scopes, mode, depth⟩)
            ⟨⟨f, rfl, hsound⟩, rfl, hbelow⟩ rfl hslot hawaits hexit ?_
            fun _ => explains_of_kind nofun
          rintro g g' rfl hcore
          exact .of_core (.underWay rfl) hcore

end Vm

end Statute
