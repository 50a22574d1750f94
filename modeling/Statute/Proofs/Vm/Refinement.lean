import Statute.Machine.Run
import Statute.Proofs.Vm.Discipline
import Statute.Proofs.Vm.Modes

/-!
# Machines and the virtual machine

A frame of the virtual machine that refers to its statement stands for a frame that holds what is
left of the statement, and the control and the slot together are the signal. Some frames stand for
nothing: those that have nothing left to do once what is above them has ended, and those that have
begun something and have not come to do it. What a machine does in its next step does not change
when the virtual machine pops or pushes such a frame.

So a step of the virtual machine is no step of the machine, or one, or several: all items of an
expression are evaluated in one step of the virtual machine, up to the first call.
-/

namespace Statute

/-! ## The machine that a virtual machine stands for -/

/-- The call of a procedure. -/
def Value.call? (callee : Value) (args : List Value) (site : Option Location) : Option Call :=
  match callee with
  | .procedure p => some ⟨p, none, args, site⟩
  | .method r p => some ⟨p, some r, args, site⟩
  | _ => none

/-! A phase of a statement, or of a call, says which frame is due and what has been begun. -/

def ValuePhase.frames : ValuePhase → Option Statement → List Frame
  | .apply, stmt? => (stmt?.bind Statement.waiting?).toList.map (·.1)
  | .eval, _ => []

def ValuePhase.begins? (w : World) (m : Machine) : ValuePhase → Option Statement → Option Reply
  | .eval, stmt? => stmt?.map (m.begin w)
  | .apply, some (.returnWith none) => some (m.begin w (.returnWith none))
  | .apply, _ => none

def IfPhase.frames : IfPhase → Option Statement → List Frame
  | .check n, some (.choose branches otherwise) =>
      match branches.drop n with
      | .mk cond inner :: rest => [.branch cond.location inner rest otherwise]
      | [] => []
  | _, _ => []

def IfPhase.begins? (w : World) (m : Machine) : IfPhase → Option Statement → Option Reply
  | .test n, some (.choose branches otherwise) => some (m.choose w otherwise (branches.drop n))
  | _, _ => none

def RepeatPhase.frames : RepeatPhase → Option Statement → List Frame
  | .lower, some (.repeatFor var lo hi inner) => [.lower var lo.location hi inner]
  | .upper lo, some (.repeatFor var _ hi inner) => [.upper var lo hi.location inner]
  | .iterate next hi, some (.repeatFor var _ _ inner) => [.count var (some next) hi inner]
  | .finished, some (.repeatFor var _ _ inner) => [.count var none Int64.maxValue inner]
  | _, _ => []

def WhilePhase.frames : WhilePhase → Option Statement → List Frame
  | .test, some (.repeatWhile cond inner) => [.again cond inner]
  | .check, some (.repeatWhile cond inner) => [.test cond inner]
  | _, _ => []

def TryPhase.frames : TryPhase → Option Statement → List Frame
  | .body, some (.attempt _ handlers) => [.guard handlers]
  | _, _ => []

def ExclusivePhase.frames (lock : LockRef) : ExclusivePhase → Option Statement → List Frame
  | .acquire, some (.exclusive _ inner) => [.enter lock inner]
  | .acquire, _ => []
  | .body, _ => [.hold lock]

def CallPhase.frames (callee : Value) (args : List Value) (site : Option Location) :
    CallPhase → List Frame
  | .bind => [.call callee args site]
  | .default next true =>
      (callee.call? args site).toList.map fun c => .supply c (c.procedure.params.drop (next + 1))
  | .running => (callee.call? args site).toList.map .running
  | _ => []

def ConstructFrame.frames (frame : ConstructFrame) : ConstructPhase → List Frame
  | .start => [.construct frame.cls frame.args frame.site]
  | .parent =>
      frame.object.toList.map (.adopt · frame.cls frame.args frame.consumed frame.site)
  | .finish => frame.object.toList.map .finish
  | .own => []

namespace FrameKind

/-- The frame that a frame of the virtual machine stands for, if any. -/
def frames (own : Bool) : FrameKind → List Frame
  | .vacant => []
  | .body stmts index checkpoint => [.body (stmts.drop index) own checkpoint]
  | .value _ ref phase => phase.frames ref.stmt?
  | .choose ref phase => phase.frames ref.stmt?
  | .repeatFor ref phase => phase.frames ref.stmt?
  | .repeatWhile ref phase => phase.frames ref.stmt?
  | .attempt ref phase => phase.frames ref.stmt?
  | .exclusive ref lock phase => phase.frames lock ref.stmt?
  | .eval frame => [.eval (frame.code.items.drop frame.pc) frame.stack frame.code.location]
  | .call frame => frame.phase.frames frame.callee frame.args frame.site
  | .construct frame => frame.frames frame.phase

section Frames

variable {ref : StmtRef} {own : Bool}

theorem frames_apply {kind : ValueKind} {stmt : Statement} {F : Frame} {e : Expression}
    (hstmt : ref.stmt? = some stmt) (hwaiting : stmt.waiting? = some (F, e)) :
    (value kind ref .apply).frames own = [F] := by
  simp only [frames, ValuePhase.frames, hstmt, Option.bind_some, hwaiting, Option.toList_some,
    List.map_cons, List.map_nil]

theorem frames_check {branches rest : List Branch} {otherwise : Option Body} {n : Nat}
    {cond : Expression} {inner : Body} (hstmt : ref.stmt? = some (.choose branches otherwise))
    (hdrop : branches.drop n = .mk cond inner :: rest) :
    (choose ref (.check n)).frames own = [.branch cond.location inner rest otherwise] := by
  simp only [frames, IfPhase.frames, hstmt, hdrop]

section Repeat

variable {var : Option String} {lo hi : Expression} {inner : Body}
  (hstmt : ref.stmt? = some (.repeatFor var lo hi inner))
include hstmt

theorem frames_lower : (repeatFor ref .lower).frames own = [.lower var lo.location hi inner] :=
  congrArg (RepeatPhase.frames .lower) hstmt

theorem frames_upper (first : Int64) :
    (repeatFor ref (.upper first)).frames own = [.upper var first hi.location inner] :=
  congrArg (RepeatPhase.frames (.upper first)) hstmt

theorem frames_iterate (next last : Int64) :
    (repeatFor ref (.iterate next last)).frames own = [.count var (some next) last inner] :=
  congrArg (RepeatPhase.frames (.iterate next last)) hstmt

theorem frames_finished :
    (repeatFor ref .finished).frames own = [.count var none Int64.maxValue inner] :=
  congrArg (RepeatPhase.frames .finished) hstmt

end Repeat

theorem frames_again {cond : Expression} {inner : Body}
    (hstmt : ref.stmt? = some (.repeatWhile cond inner)) :
    (repeatWhile ref .test).frames own = [.again cond inner] :=
  congrArg (WhilePhase.frames .test) hstmt

theorem frames_test {cond : Expression} {inner : Body}
    (hstmt : ref.stmt? = some (.repeatWhile cond inner)) :
    (repeatWhile ref .check).frames own = [.test cond inner] :=
  congrArg (WhilePhase.frames .check) hstmt

theorem frames_guard {inner : Body} {handlers : List Handler}
    (hstmt : ref.stmt? = some (.attempt inner handlers)) :
    (attempt ref .body).frames own = [.guard handlers] :=
  congrArg (TryPhase.frames .body) hstmt

theorem frames_enter {lock l : LockRef} {inner : Body}
    (hstmt : ref.stmt? = some (.exclusive l inner)) :
    (exclusive ref lock .acquire).frames own = [.enter lock inner] :=
  congrArg (ExclusivePhase.frames lock .acquire) hstmt

variable {callee : Value} {args : List Value} {site : Option Location} {c : Call}
  (hc : callee.call? args site = some c)
include hc

theorem frames_supply (next : Nat) :
    (call ⟨callee, args, site, .default next true⟩).frames own =
      [.supply c (c.procedure.params.drop (next + 1))] := by
  simp only [frames, CallPhase.frames, hc, Option.toList_some, List.map_cons, List.map_nil]

theorem frames_running : (call ⟨callee, args, site, .running⟩).frames own = [.running c] := by
  simp only [frames, CallPhase.frames, hc, Option.toList_some, List.map_cons, List.map_nil]

end Frames

/-- What a frame has begun, on top of the frames of a machine. -/
def begins? (s : Setting) (w : World) (m : Machine) : FrameKind → Option Reply
  | .value _ ref phase => phase.begins? w m ref.stmt?
  | .choose ref phase => phase.begins? w m ref.stmt?
  | .repeatFor ref .start => ref.stmt?.map (m.begin w)
  | .attempt ref .start => ref.stmt?.map (m.begin w)
  | .call ⟨callee, args, site, .default next false⟩ =>
      (callee.call? args site).map fun c => m.supply s w c (c.procedure.params.drop next)
  | .call ⟨callee, args, site, .enter⟩ =>
      (callee.call? args site).map fun c => m.supply s w c []
  | .construct ⟨cls, args, some r, consumed, site, .own⟩ =>
      some (m.initialise w r cls args consumed site)
  | _ => none

/-- How many more steps go by, at most, for frames that stand for nothing. -/
def weight : FrameKind → Nat
  | .choose _ .done => 4
  | .attempt _ .handler => 4
  | _ => 0

/-- How many steps go by, at most, before the frame on top does something. -/
def delay : FrameKind → Nat
  | .body _ _ _ => 3
  | .value _ _ .eval => 2
  | .value _ _ .apply => 1
  | .choose _ (.check _) => 1
  | .call ⟨_, _, _, .bind⟩ => 2
  | .call ⟨_, _, _, .default _ _⟩ => 1
  | .construct ⟨_, _, _, _, _, .start⟩ => 1
  | .construct ⟨_, _, _, _, _, .parent⟩ => 1
  | _ => 0

end FrameKind

namespace VmFrame

def machineFrames (fs : List VmFrame) : List Frame :=
  fs.flatMap fun f => f.kind.frames f.pushedScope

def weights : List VmFrame → Nat
  | [] => 0
  | f :: fs => f.kind.weight + weights fs

end VmFrame

namespace Vm

open VmFrame (machineFrames weights)

def signal (v : Vm) : Signal :=
  match v.control, v.slot with
  | some e, _ => .leave e
  | none, some x => .value x
  | none, none => .run

def machine (v : Vm) : Machine :=
  ⟨machineFrames v.frames, v.signal, v.scopes, v.depth⟩

def below (v : Vm) : Machine :=
  ⟨machineFrames v.frames.tail, .run, v.scopes, v.depth⟩

/-- What the machine does next: what the frame on top has begun, or the next step. -/
def next (s : Setting) (w : World) (v : Vm) : Reply :=
  match v.control, v.frames with
  | none, f :: _ => (f.kind.begins? s w v.below).getD (v.machine.step s w)
  | _, _ => v.machine.step s w

/-- How many steps go by, at most, that the machine does not take. -/
def rank (v : Vm) : Nat :=
  match v.frames with
  | [] => 0
  | f :: fs => f.kind.weight + f.kind.delay + weights fs

/-- Nothing has been begun that is not done yet. -/
def Settled (v : Vm) : Prop :=
  ∀ s w, v.next s w = v.machine.step s w

end Vm

/-- A frame owns what the frame of the virtual machine owns that stands for it. -/
structure VmFrame.Owns (g : VmFrame) (F : Frame) : Prop where
  scope : F.ownsScope = g.pushedScope
  call : F.isCall = g.boundary
  lock : F.lock? = g.lock

/-- Nothing goes with a frame. -/
structure FrameKind.OwnsNothing (k : FrameKind) : Prop where
  body : k.isBody = false
  running : k.isRunning = false
  lock : k.lock? = none

/-- What both machines say of a step. -/
inductive VmStep.Matches : VmStep → Step → Prop
  | goOn : Matches .goOn .next
  | pause : Matches .yield .pause
  | blocked : Matches .yield .blocked
  | done : Matches .done .done
  | crash (message : Option String) : Matches (.crash message) (.crash message)

/-- The machine replies what the virtual machine does: at once, after some more steps of its own, or
later, where the virtual machine has only got nearer to it. -/
inductive VmReply.Tracks (s : Setting) (n : Nat) : VmReply → Reply → Prop
  | alike {st : VmStep} {st' : Step} {w : World} {v : Vm} {m : Machine} (hstep : st.Matches st')
      (hmachine : m = v.machine) (hsettled : v.Settled) : Tracks s n ⟨st, w, v⟩ ⟨st', w, m⟩
  | silent {w : World} {v : Vm} {r : Reply} (hnext : v.next s w = r) (hrank : v.rank < n) :
      Tracks s n ⟨.goOn, w, v⟩ r
  | later {q : VmReply} {w : World} {m : Machine} (h : Tracks s n q (m.step s w)) :
      Tracks s n q ⟨.next, w, m⟩

theorem Machine.act_declare {s : Setting} {w : World} {m : Machine} {site : Location}
    (x : Value) (name : String) :
    m.act s w site x (.declare name) =
      match w.heap.declare (m.scopes.current.headD 0) name x with
      | .ok heap => m.next { w with heap := heap }
      | .error f => m.fail w (f.locate site) := by
  simp only [act, Heap.declare]
  split <;> rfl

/-- The way out of a loop. -/
def Exit.IsJump : Exit → Prop
  | .breakOut => True
  | .continueOn => True
  | _ => False

theorem Machine.unwind_eq_leave {s : Setting} {w : World} {m : Machine} {e : Exit} {F : Frame}
    (hcall : F.call? = none) (hguard : ∀ handlers, F ≠ .guard handlers)
    (hloop : F.isLoop = true → ¬ e.IsJump) :
    m.unwind s w e F = (m.giveBack w F).2.leave (m.giveBack w F).1 e := by
  unfold Machine.unwind
  rw [hcall]
  dsimp only
  split
  · next handlers _ => exact absurd rfl (hguard handlers)
  · split
    · next h => exact absurd trivial (hloop h)
    · rfl
  · split
    · next h => exact absurd trivial (hloop h)
    · rfl
  · rfl

theorem VmFrame.Sound.owns {f : VmFrame} {F : Frame} (h : f.Sound) (hk : f.kind.OwnsNothing)
    (hscope : F.ownsScope = false) (hcall : F.isCall = false) (hlock : F.lock? = none) :
    f.Owns F :=
  ⟨hscope.trans ((h.scope hk.body).trans hk.running).symm,
    hcall.trans (h.boundary.trans hk.running).symm, hlock.trans (h.lock.trans hk.lock).symm⟩

/-- A bound that is not below the greatest integer is this integer. -/
theorem eq_maxValue_of_successor? {next hi : Int64} (hnext : Machine.successor? next = none)
    (hle : ¬ hi < next) : hi = Int64.maxValue := by
  have hmax : next.toInt = maxInt := Machine.toInt_of_successor?_eq_none hnext
  have hle : next.toInt ≤ hi.toInt := Int64.le_iff_toInt_le.mp (Int64.not_lt.mp hle)
  have hlt := Int64.toInt_lt hi
  refine Int64.toInt_inj.mp ?_
  rw [Int64.toInt_maxValue]
  unfold maxInt at hmax
  omega

namespace Vm

open VmFrame (machineFrames weights)
open VmReply (Tracks)

variable {goal σ : Shape} {k k' : FrameKind} {f : VmFrame} {fs : List VmFrame} {s : Setting}
  {w : World} {v : Vm} {n : Nat}

@[simp] theorem scopes_below (v : Vm) : v.below.scopes = v.scopes := rfl

@[simp] theorem depth_below (v : Vm) : v.below.depth = v.depth := rfl

/-! ## Nothing has been begun -/

theorem settled_of_control {e : Exit} (h : v.control = some e) : v.Settled := by
  intro s w
  simp only [next, h]

theorem settled_of_frames_nil (h : v.frames = []) : v.Settled := by
  intro s w
  unfold next
  rw [h]
  split
  · contradiction
  · rfl

theorem settled_of_top (h : v.frames = f :: fs) (hnone : ∀ s w m, f.kind.begins? s w m = none) :
    v.Settled := by
  intro s w
  unfold next
  rw [h]
  split
  · next hframes =>
      obtain ⟨rfl, -⟩ := List.cons.inj hframes
      rw [hnone, Option.getD_none]
  · rfl

theorem next_of_begins {r : Reply} (hcontrol : v.control = none) (hframes : v.frames = f :: fs)
    (hbegins : f.kind.begins? s w v.below = some r) : v.next s w = r := by
  have hnext : v.next s w = (f.kind.begins? s w v.below).getD (v.machine.step s w) := by
    rw [next, hcontrol, hframes]
  rw [hnext, hbegins, Option.getD_some]

/-- A frame that waits for something has done what it has begun. -/
theorem begins?_of_awaits (h : k.awaits = some σ) (s : Setting) (w : World) (m : Machine) :
    k.begins? s w m = none := by
  cases k with
  | value kind ref phase =>
      cases phase with
      | eval => contradiction
      | apply =>
          have hne : ref.stmt? ≠ some (.returnWith none) := by
            intro hstmt
            simp only [FrameKind.awaits, hstmt] at h
            contradiction
          simp only [FrameKind.begins?, ValuePhase.begins?]
  | choose ref phase => cases phase <;> first | rfl | contradiction
  | repeatFor ref phase => cases phase <;> first | rfl | contradiction
  | attempt ref phase => cases phase <;> first | rfl | contradiction
  | call frame =>
      obtain ⟨callee, args, site, phase⟩ := frame
      cases phase with
      | default next pending => cases pending <;> first | rfl | simp [FrameKind.awaits] at h
      | _ => first | rfl | simp [FrameKind.awaits] at h
  | construct frame =>
      obtain ⟨cls, args, object, consumed, site, phase⟩ := frame
      cases phase <;> cases object <;> first | rfl | simp [FrameKind.awaits] at h
  | _ => rfl

theorem settled_of_stacked (h : Stacked goal σ v.frames) : v.Settled := by
  cases hframes : v.frames with
  | nil => exact settled_of_frames_nil hframes
  | cons f fs =>
      rw [hframes] at h
      cases h with
      | frame hawaits => exact settled_of_top hframes fun s w m => begins?_of_awaits hawaits s w m

/-! ## Replies -/

theorem popFrame_eq {g : VmFrame} {F : Frame} (hframes : v.frames = g :: fs) (howns : g.Owns F) :
    v.popFrame w = ((v.below.giveBack w F).1,
      { v with
        frames := fs
        scopes := (v.below.giveBack w F).2.scopes
        depth := (v.below.giveBack w F).2.depth }) := by
  obtain ⟨frames, control, slot, scopes, mode, depth⟩ := v
  obtain rfl : frames = g :: fs := hframes
  simp only [popFrame, Machine.giveBack, below, howns.scope, howns.call]
  cases hlock : g.lock <;> simp only [howns.lock, hlock]

section Popping

variable {g : VmFrame} {F : Frame} (hframes : v.frames = g :: fs) (hbelow : Stacked goal σ fs)
  (hcontrol : v.control = none) (howns : g.Owns F)
include hframes hbelow hcontrol howns

theorem tracks_finish_of (hslot : v.slot = none) :
    Tracks s n (v.finish w) ((v.below.giveBack w F).2.next (v.below.giveBack w F).1) := by
  simp only [finish, popFrame_eq hframes howns]
  refine .alike .goOn ?_ (settled_of_stacked hbelow)
  simp only [machine, signal, hcontrol, hslot, Machine.send]
  rw [below, hframes]
  rfl

theorem tracks_finishWith_of (x : Value) :
    Tracks s n (v.finishWith w x)
      ((v.below.giveBack w F).2.yield (v.below.giveBack w F).1 x) := by
  simp only [finishWith, popFrame_eq hframes howns]
  refine .alike .goOn ?_ (settled_of_stacked hbelow)
  simp only [machine, signal, hcontrol, Machine.send]
  rw [below, hframes]
  rfl

omit hbelow hcontrol in
theorem tracks_leave_of (e : Exit) :
    Tracks s n (v.leave w e) ((v.below.giveBack w F).2.leave (v.below.giveBack w F).1 e) := by
  simp only [Vm.leave, popFrame_eq hframes howns]
  refine .alike .goOn ?_ (settled_of_control rfl)
  simp only [machine, signal, Machine.send]
  rw [below, hframes]
  rfl

end Popping

section Faces

variable (h : v.Faces goal k fs) (hslot : v.slot = none)
include h

theorem Faces.owns (hk : k.OwnsNothing) :
    ∃ g, v.frames = g :: fs ∧ g.Owns (.guard []) := by
  obtain ⟨g, hframes, hsound⟩ := h.frames
  obtain ⟨hscope, hcall, hlock⟩ := hsound.owns (F := .guard []) hk rfl rfl rfl
  exact ⟨g, hframes, hscope, hcall, hlock⟩

theorem Faces.tracks_finishWith (hk : k.OwnsNothing) (x : Value) :
    Tracks s n (v.finishWith w x) (v.below.yield w x) := by
  obtain ⟨g, hframes, howns⟩ := h.owns hk
  exact tracks_finishWith_of hframes h.below h.control howns x

theorem Faces.tracks_leave (hk : k.OwnsNothing) (e : Exit) :
    Tracks s n (v.leave w e) (v.below.leave w e) := by
  obtain ⟨g, hframes, howns⟩ := h.owns hk
  exact tracks_leave_of hframes howns e

theorem Faces.tracks_throw (hk : k.OwnsNothing) (f : Failure) :
    Tracks s n (v.throw w f) (v.below.fail w f) :=
  h.tracks_leave hk (.failWith f)

include hslot

theorem Faces.tracks_finish (hk : k.OwnsNothing) :
    Tracks s n (v.finish w) (v.below.next w) := by
  obtain ⟨g, hframes, howns⟩ := h.owns hk
  exact tracks_finish_of hframes h.below h.control howns hslot

omit hslot in
theorem Faces.restore_frames (k' : FrameKind) :
    ∃ g : VmFrame, v.frames = g :: fs ∧ (v.restore k').frames = { g with kind := k' } :: fs := by
  obtain ⟨g, hframes, -⟩ := h.frames
  exact ⟨g, hframes, by rw [restore, hframes]⟩

omit hslot in
@[simp] theorem Faces.below_restore (k' : FrameKind) : (v.restore k').below = v.below := by
  obtain ⟨g, hframes, -⟩ := h.frames
  simp [Vm.below, restore, hframes]

/-- The frames that a kind stands for come on top of what is below. -/
theorem Faces.machine_restore {F : List Frame}
    (hF : ∀ g, v.frames = g :: fs → k'.frames g.pushedScope = F) :
    (v.restore k').machine = { v.below with frames := F ++ v.below.frames } := by
  obtain ⟨g, hframes, -⟩ := h.frames
  simp [machine, Vm.below, restore, hframes, signal, h.control, hslot, machineFrames,
    hF g hframes]

theorem Faces.tracks_restore {st : VmStep} {st' : Step} (hst : st.Matches st') {F : List Frame}
    (hF : ∀ g, v.frames = g :: fs → k'.frames g.pushedScope = F)
    (hbegins : ∀ s w m, k'.begins? s w m = none) :
    Tracks s n ⟨st, w, v.restore k'⟩ ⟨st', w, { v.below with frames := F ++ v.below.frames }⟩ := by
  obtain ⟨g, -, hframes⟩ := h.restore_frames k'
  exact .alike hst (h.machine_restore hslot hF).symm (settled_of_top hframes hbegins)

theorem Faces.tracks_push {c : VmFrame} {F : List Frame}
    (hF : ∀ g, v.frames = g :: fs → k'.frames g.pushedScope = F)
    (hbegins : ∀ s w m, c.kind.begins? s w m = none) {F' : List Frame}
    (hF' : c.kind.frames c.pushedScope = F') :
    Tracks s n (((v.restore k').pushFrame c).goOn w)
      ⟨.next, w, { v.below with frames := F' ++ (F ++ v.below.frames) }⟩ := by
  have hmachine := h.machine_restore hslot hF
  refine .alike .goOn ?_ (settled_of_top rfl hbegins)
  rw [machine] at hmachine ⊢
  simp only [pushFrame, machineFrames, List.flatMap_cons, hF', signal] at hmachine ⊢
  rw [Machine.mk.injEq] at hmachine
  obtain ⟨hframes, hsignal, hscopes, hdepth⟩ := hmachine
  rw [hframes, hsignal, hscopes, hdepth]

omit hslot in
/-- The frame has got nearer to what it does. -/
theorem Faces.tracks_nearer {r : Reply} (hnext : k'.begins? s w v.below = some r)
    (hrank : k'.weight + k'.delay + weights fs < n) : Tracks s n ((v.restore k').goOn w) r := by
  obtain ⟨g, -, hframes⟩ := h.restore_frames k'
  refine .silent (next_of_begins (control_restore.trans h.control) hframes ?_) ?_
  · rwa [h.below_restore]
  · rwa [rank, hframes]

theorem Faces.tracks_pushExpression (hk : k.OwnsNothing) {F : Frame}
    (hF : ∀ g, v.frames = g :: fs → k'.frames g.pushedScope = [F]) (e : Expression) :
    Tracks s n (v.pushExpression w e k') (v.below.evaluate w F e) := by
  unfold pushExpression Machine.evaluate
  cases e.compile with
  | ok code =>
      exact h.tracks_push (c := .new (.eval ⟨code, 0, [], false⟩)) hslot hF (fun _ _ _ => rfl) rfl
  | error f => exact h.tracks_throw hk f

variable (k') in
/-- A body begins in a fresh scope, in which variables may be bound. -/
theorem Faces.tracks_block {st : VmStep} {st' : Step} (hst : st.Matches st') {F : List Frame}
    (hF : ∀ g, v.frames = g :: fs → k'.frames g.pushedScope = F) (name : String)
    (body : Body) (vars : List (String × Value)) :
    Tracks s n ⟨st, { w with heap :=
        (w.heap.newScope name).1.defineAll (w.heap.newScope name).2 vars },
        ((v.restore k').pushBlock w name body).2⟩
      ⟨st',
        (({ v.below with frames := F ++ v.below.frames } : Machine).openBlock w name vars body).1,
        (({ v.below with frames := F ++ v.below.frames } : Machine).openBlock w name vars
          body).2.send .run⟩ := by
  have hmachine := h.machine_restore hslot hF
  have hscopes : (v.restore k').scopes = v.scopes := congrArg Machine.scopes hmachine
  have hcontrol : (v.restore k').control = none := control_restore.trans h.control
  refine .alike hst ?_ (settled_of_top rfl fun _ _ _ => rfl)
  rw [machine] at hmachine ⊢
  rw [Machine.mk.injEq] at hmachine
  obtain ⟨hframes, -, -, hdepth⟩ := hmachine
  simp only [pushBlock, pushFrame, signal, hcontrol, slot_restore, hslot, hscopes,
    Machine.openBlock, Machine.openScope, Machine.send, machineFrames, List.flatMap_cons]
    at hframes hdepth ⊢
  rw [hframes, hdepth]
  rfl

end Faces

/-! ## Handlers -/

/-- What the machine does next where a kind has been taken out of the frame on top. -/
def due (s : Setting) (w : World) (v : Vm) (k : FrameKind) (own : Bool) : Reply :=
  (k.begins? s w v.below).getD
    (Machine.step s w
      { v.below with frames := k.frames own ++ v.below.frames, signal := v.signal })

theorem due_of_begins {r : Reply} {own : Bool} (h : k.begins? s w v.below = some r) :
    v.due s w k own = r := by
  rw [due, h, Option.getD_some]

section Due

variable {F : Frame} {own : Bool} (hcontrol : v.control = none)
  (hbegins : k.begins? s w v.below = none) (hF : k.frames own = [F])
include hcontrol hbegins hF

theorem due_of_run (hslot : v.slot = none) :
    v.due s w k own = v.below.resumeFrame s w F := by
  rw [due, hbegins, Option.getD_none, hF, signal, hcontrol, hslot]
  rfl

theorem due_of_value {x : Value} (hslot : v.slot = some x) :
    v.due s w k own = v.below.receive s w x F := by
  rw [due, hbegins, Option.getD_none, hF, signal, hcontrol, hslot]
  rfl

end Due

/-- What a frame that is pushed has begun is what the machine does next. -/
theorem Faces.tracks_begun (h : v.Faces goal k fs) {F : List Frame} (hslot : v.slot = none)
    (hF : ∀ g, v.frames = g :: fs → k'.frames g.pushedScope = F) {c : FrameKind} {r : Reply}
    (hnext : (c.begins? s w { v.below with frames := F ++ v.below.frames }).getD
      (Machine.step s w { v.below with frames := c.frames false ++ (F ++ v.below.frames) }) = r)
    (hrank : c.weight + c.delay + (k'.weight + weights fs) < n) :
    Tracks s n (((v.restore k').push c).goOn w) r := by
  have hmachine := h.machine_restore hslot hF
  obtain ⟨g, -, hframes⟩ := h.restore_frames k'
  rw [machine, Machine.mk.injEq] at hmachine
  obtain ⟨hfs, -, hscopes, hdepth⟩ := hmachine
  have hbelow : ((v.restore k').push c).below = { v.below with frames := F ++ v.below.frames } := by
    simp only [Vm.below, push, pushFrame, List.tail_cons] at hfs hscopes hdepth ⊢
    rw [hfs, hscopes, hdepth]
  have hmachine : ((v.restore k').push c).machine =
      { v.below with frames := c.frames false ++ (F ++ v.below.frames) } := by
    have hsignal : ((v.restore k').push c).signal = .run := by
      simp [signal, push, pushFrame, h.control, hslot]
    simp only [machine, hsignal]
    simp only [Vm.below, push, pushFrame, machineFrames, List.flatMap_cons, VmFrame.new]
      at hfs hscopes hdepth ⊢
    rw [hfs, hscopes, hdepth]
  refine .silent ?_ ?_
  · have hcontrol : ((v.restore k').push c).control = none := control_restore.trans h.control
    rw [← hnext, ← hbelow, ← hmachine, next, hcontrol]
    rfl
  · simpa [rank, push, pushFrame, VmFrame.new, hframes, weights] using hrank

/-- Something begins to be left early. -/
theorem Faces.tracks_exit (h : v.Faces goal k fs) {F : List Frame} (hslot : v.slot = none)
    (hF : ∀ g, v.frames = g :: fs → k'.frames g.pushedScope = F) (e : Exit) :
    Tracks s n ({ v.restore k' with control := some e }.goOn w)
      (Machine.leave w { v.below with frames := F ++ v.below.frames } e) := by
  have hmachine := h.machine_restore hslot hF
  rw [machine, Machine.mk.injEq] at hmachine
  obtain ⟨hfs, -, hscopes, hdepth⟩ := hmachine
  refine .alike .goOn ?_ (settled_of_control rfl)
  simp only [machine, signal, hfs, hscopes, hdepth]
  rfl

theorem Faces.tracks_executeBody {stmts : Body} {index : Nat} {checkpoint : Bool} {g : VmFrame}
    (h : v.Faces goal (.body stmts index checkpoint) fs) (hslot : v.slot = none)
    (hmode : v.mode = .cooperative) (hframes : v.frames = g :: fs) :
    Tracks s (3 + weights fs) (v.executeBody w stmts index checkpoint)
      (v.below.resumeFrame s w (.body (stmts.drop index) g.pushedScope checkpoint)) := by
  have hF : ∀ index' checkpoint' g', v.frames = g' :: fs →
      (FrameKind.body stmts index' checkpoint').frames g'.pushedScope =
        [.body (stmts.drop index') g.pushedScope checkpoint'] := by
    intro index' checkpoint' g' hg'
    obtain ⟨rfl, -⟩ := List.cons.inj (hframes.symm.trans hg')
    rfl
  unfold executeBody
  cases checkpoint with
  | true =>
      rw [if_pos ⟨rfl, hmode⟩]
      exact h.tracks_restore hslot .pause (hF _ _) fun _ _ _ => rfl
  | false =>
      rw [if_neg (by simp)]
      split
      · next hlength =>
          have hsound : g.Owns (.body [] g.pushedScope false) := by
            obtain ⟨g', hg', hsound⟩ := h.frames
            obtain ⟨rfl, -⟩ := List.cons.inj (hframes.symm.trans hg')
            exact ⟨rfl, hsound.boundary.symm, hsound.lock.symm⟩
          rw [List.drop_eq_nil_of_le hlength]
          exact tracks_finish_of hframes h.below h.control hsound hslot
      · next hlength =>
          have hlt : index < stmts.length := Nat.lt_of_not_le hlength
          have hstmt : (StmtRef.mk stmts index).stmt? = some (stmts[index]) :=
            List.getElem?_eq_getElem hlt
          rw [pushStmt, withStmt_eq hstmt, List.drop_eq_getElem_cons hlt]
          generalize stmts[index] = stmt at hstmt
          set F : Frame := .body (stmts.drop (index + 1)) g.pushedScope true with hFrame
          have hbegun : ∀ {c : FrameKind} {r : Reply},
              (c.begins? s w { v.below with frames := F :: v.below.frames }).getD
                (Machine.step s w { v.below with
                  frames := c.frames false ++ (F :: v.below.frames) }) = r →
              c.weight + c.delay ≤ 2 → Tracks s (3 + weights fs)
                (((v.restore (.body stmts (index + 1) true)).push c).goOn w) r := fun hnext hrank =>
            h.tracks_begun hslot (hF _ _) hnext (by change _ + (0 + _) < _; omega)
          cases stmt with
          | exclusive lock body =>
              have henter : (FrameKind.exclusive ⟨stmts, index⟩ lock .acquire).frames false =
                  [.enter lock body] := FrameKind.frames_enter hstmt
              exact h.tracks_push (c := .new _) hslot (hF _ _) (fun _ _ _ => rfl) henter
          | breakOut => exact h.tracks_exit hslot (hF _ _) .breakOut
          | continueOn => exact h.tracks_exit hslot (hF _ _) .continueOn
          | _ =>
              refine hbegun ?_ (by simp [FrameKind.weight, FrameKind.delay])
              simp only [FrameKind.begins?, FrameKind.frames, hstmt]
              rfl

theorem Faces.tracks_applyValue {kind : ValueKind} {ref : StmtRef} {stmt : Statement} {x : Value}
    {action : Action} {site : Location} {e : Expression}
    (h : v.Faces goal (.value kind ref .apply) fs) (hslot : v.slot = none)
    (hstmt : ref.stmt? = some stmt) (hkind : stmt.valueKind? = some kind)
    (hwaiting : stmt.waiting? = some (.act action site, e)) :
    Tracks s n (v.applyValue s w ref x) (v.below.act s w site x action) := by
  have howns : (FrameKind.value kind ref .apply).OwnsNothing := ⟨rfl, rfl, rfl⟩
  unfold applyValue
  rw [withStmt_eq hstmt]
  cases stmt with
  | declare name e =>
      cases hwaiting
      rw [Machine.act_declare, scopes_below]
      dsimp only
      cases w.heap.declare (v.scopes.current.headD 0) name x with
      | ok heap => exact h.tracks_finish hslot howns
      | error f => exact h.tracks_throw howns _
  | assign target e =>
      cases hwaiting
      simp only [Machine.act, scopes_below]
      cases s.place w.heap v.scopes.current target with
      | ok place => exact h.tracks_finish hslot howns
      | error f => exact h.tracks_throw howns _
  | raise e =>
      cases hwaiting
      simp only [Machine.act]
      cases w.heap.thrown x with
      | ok f => exact h.tracks_throw howns _
      | error f => exact h.tracks_throw howns _
  | returnWith e =>
      cases e with
      | none => contradiction
      | some e =>
          cases hwaiting
          exact h.tracks_leave howns _
  | print e =>
      cases hwaiting
      exact h.tracks_finish hslot howns
  | perform e =>
      cases hwaiting
      exact h.tracks_finish hslot howns
  | _ => contradiction

/-- A statement of one expression begins with it, unless it returns nothing. -/
theorem begin_of_valueKind {stmt : Statement} {kind : ValueKind}
    (hkind : stmt.valueKind? = some kind) :
    (∃ action e, stmt.waiting? = some (.act action e.location, e) ∧
      stmt.valueExpression? = some e ∧
      ∀ w (m : Machine), m.begin w stmt = m.evaluate w (.act action e.location) e) ∨
    stmt = .returnWith none := by
  cases stmt with
  | returnWith e =>
      cases e with
      | none => exact .inr rfl
      | some e => exact .inl ⟨_, e, rfl, rfl, fun _ _ => rfl⟩
  | declare name e => exact .inl ⟨_, e, rfl, rfl, fun _ _ => rfl⟩
  | assign target e => exact .inl ⟨_, e, rfl, rfl, fun _ _ => rfl⟩
  | print e => exact .inl ⟨_, e, rfl, rfl, fun _ _ => rfl⟩
  | raise e => exact .inl ⟨_, e, rfl, rfl, fun _ _ => rfl⟩
  | perform e => exact .inl ⟨_, e, rfl, rfl, fun _ _ => rfl⟩
  | _ => contradiction

theorem rank_lt (hframes : v.frames = fs) : v.rank < 4 + weights fs := by
  unfold rank
  rw [hframes]
  cases fs with
  | nil => exact Nat.lt_add_right _ (by decide)
  | cons f fs =>
      have hdelay : f.kind.delay ≤ 3 := by
        unfold FrameKind.delay
        split <;> decide
      simp only [weights]
      omega

/-- A frame that has nothing left to do is popped, and the machine does what it would have done. -/
theorem Faces.tracks_gone (h : v.Faces goal k fs) (hslot : v.slot = none) (hk : k.OwnsNothing) :
    Tracks s (4 + weights fs) (v.finish w) (v.below.step s w) := by
  obtain ⟨g, hframes, howns⟩ := h.owns hk
  simp only [finish, popFrame_eq hframes howns]
  refine .silent ?_ ?_
  · refine (settled_of_stacked h.below s w).trans ?_
    simp only [machine, signal, h.control, hslot, Vm.below, hframes]
    rfl
  · exact rank_lt rfl

/-! ## Statements -/

theorem checkpoint_of_mode (hmode : v.mode = .cooperative) : v.checkpoint = .yield := by
  rw [checkpoint, hmode]

theorem checkpoint_pushBlock (hmode : v.mode = .cooperative) (name : String) (body : Body) :
    ((v.restore k').pushBlock w name body).2.checkpoint = .yield :=
  checkpoint_of_mode ((mode_restore v k').trans hmode)

section Statements

variable {own : Bool} {ref : StmtRef}

theorem Faces.tracks_executeValue {kind : ValueKind} {phase : ValuePhase}
    (h : v.Faces goal (.value kind ref phase) fs)
    (hslot : match phase with
      | .eval => v.slot = none
      | .apply => ∃ x, v.slot = some x ∧ (ref.stmt? = some (.returnWith none) → x = .empty)) :
    Tracks s ((FrameKind.value kind ref phase).delay + weights fs)
      (v.executeValue s w (.value kind ref phase))
      (v.due s w (.value kind ref phase) own) := by
  obtain ⟨g, -, hsound⟩ := h.frames
  obtain ⟨stmt, hstmt, hkind⟩ := hsound.kind
  cases phase with
  | eval =>
      have hbegins : (FrameKind.value kind ref .eval).begins? s w v.below =
          some (v.below.begin w stmt) := by
        simp only [FrameKind.begins?, ValuePhase.begins?, hstmt, Option.map_some]
      rw [due_of_begins hbegins]
      unfold executeValue
      dsimp only
      rw [withStmt_eq hstmt]
      rcases begin_of_valueKind hkind with ⟨action, e, hwaiting, hvalue, hbegin⟩ | rfl
      · rw [hvalue, hbegin]
        exact h.tracks_pushExpression hslot ⟨rfl, rfl, rfl⟩
          (fun _ _ => FrameKind.frames_apply hstmt hwaiting) e
      · obtain ⟨g', -, hframes⟩ := h.restore_frames (.value kind ref .apply)
        refine .silent (next_of_begins (control_restore.trans h.control) hframes ?_) ?_
        · have hbelow : Vm.below { v.restore (.value kind ref .apply) with slot := some .empty } =
              v.below := h.below_restore _
          simp only [FrameKind.begins?, ValuePhase.begins?, hstmt, hbelow]
        · rw [rank, hframes]
          simp [FrameKind.weight, FrameKind.delay]
  | apply =>
      obtain ⟨x, hx, hbare⟩ := hslot
      unfold executeValue
      dsimp only [Vm.takeSlot]
      rw [hx, Option.getD_some]
      rcases begin_of_valueKind hkind with ⟨action, e, hwaiting, hvalue, hbegin⟩ | rfl
      · have hF : (FrameKind.value kind ref .apply).frames own = [.act action e.location] :=
          FrameKind.frames_apply hstmt hwaiting
        have hnone : (FrameKind.value kind ref .apply).begins? s w v.below = none := by
          have hne : ref.stmt? ≠ some (.returnWith none) := by
            rw [hstmt]
            rintro ⟨⟩
            contradiction
          simp only [FrameKind.begins?, ValuePhase.begins?]
        rw [due_of_value h.control hnone hF hx]
        exact h.takeSlot.tracks_applyValue rfl hstmt hkind hwaiting
      · have hbegins : (FrameKind.value kind ref .apply).begins? s w v.below =
            some (v.below.begin w (.returnWith none)) := by
          simp only [FrameKind.begins?, ValuePhase.begins?, hstmt]
        obtain rfl := hbare hstmt
        rw [due_of_begins hbegins, applyValue, withStmt_eq hstmt]
        exact h.takeSlot.tracks_leave ⟨rfl, rfl, rfl⟩ _

theorem Faces.tracks_executeIf {phase : IfPhase} (h : v.Faces goal (.choose ref phase) fs)
    (hslot : (FrameKind.choose ref phase).takes = false → v.slot = none)
    (hvalue : (FrameKind.choose ref phase).awaits = some .value → ∃ x, v.slot = some x) :
    Tracks s ((FrameKind.choose ref phase).weight + (FrameKind.choose ref phase).delay + weights fs)
      (v.executeIf w ref phase) (v.due s w (.choose ref phase) own) := by
  obtain ⟨g, -, hsound⟩ := h.frames
  obtain ⟨branches, otherwise, hstmt, hcheck⟩ := hsound.kind
  have howns : ∀ phase', (FrameKind.choose ref phase').OwnsNothing := fun _ => ⟨rfl, rfl, rfl⟩
  unfold executeIf
  rw [withStmt_eq hstmt]
  cases phase with
  | test i =>
      have hbegins : (FrameKind.choose ref (.test i)).begins? s w v.below =
          some (v.below.choose w otherwise (branches.drop i)) := by
        simp only [FrameKind.begins?, IfPhase.begins?, hstmt]
      have hslot := hslot rfl
      rw [due_of_begins hbegins]
      dsimp only
      cases hbranch : branches[i]? with
      | some branch =>
          obtain ⟨hlt, rfl⟩ := List.getElem?_eq_some_iff.mp hbranch
          have hdrop := List.drop_eq_getElem_cons hlt
          rcases hget : branches[i] with ⟨test, body⟩
          rw [hget] at hdrop
          rw [hdrop]
          exact h.tracks_pushExpression hslot (howns _)
            (fun _ _ => FrameKind.frames_check hstmt hdrop) test
      | none =>
          rw [List.drop_eq_nil_of_le (List.getElem?_eq_none_iff.mp hbranch)]
          cases otherwise with
          | some body =>
              exact h.tracks_block (.choose ref .done) hslot .goOn (fun _ _ => rfl) "else" body []
          | none => exact h.tracks_finish hslot (howns _)
  | check i =>
      have hlt : i < branches.length := hcheck i rfl
      obtain ⟨x, hx⟩ := hvalue rfl
      rcases hget : branches[i] with ⟨test, body⟩
      have hdrop := List.drop_eq_getElem_cons hlt
      rw [hget] at hdrop
      have hF : (FrameKind.choose ref (.check i)).frames own =
          [.branch test.location body (branches.drop (i + 1)) otherwise] :=
        FrameKind.frames_check hstmt hdrop
      rw [due_of_value h.control rfl hF hx]
      dsimp only [Vm.takeSlot, Machine.receive]
      rw [List.getElem?_eq_getElem hlt, hget]
      dsimp only
      rw [hx, Option.getD_some]
      cases Machine.condition w.heap test.location x with
      | ok b =>
          cases b with
          | true =>
              exact h.takeSlot.tracks_block (.choose ref .done) rfl .goOn (fun _ _ => rfl) "if" body
                []
          | false =>
              refine h.takeSlot.tracks_nearer ?_ ?_
              · simp only [FrameKind.begins?, IfPhase.begins?, hstmt]
                rfl
              · simp [FrameKind.weight, FrameKind.delay]
      | error f => exact h.takeSlot.tracks_throw (howns _) f
  | done =>
      have hdue : v.due s w (.choose ref .done) own = v.below.step s w := by
        rw [due, signal, h.control, hslot rfl]
        rfl
      rw [hdue]
      exact h.tracks_gone (hslot rfl) (howns _)

theorem Faces.tracks_executeRepeat {phase : RepeatPhase}
    (h : v.Faces goal (.repeatFor ref phase) fs) (hmode : v.mode = .cooperative)
    (hslot : (FrameKind.repeatFor ref phase).takes = false → v.slot = none)
    (hvalue : (FrameKind.repeatFor ref phase).awaits = some .value → ∃ x, v.slot = some x) :
    Tracks s n (v.executeRepeat w ref phase) (v.due s w (.repeatFor ref phase) own) := by
  obtain ⟨g, -, hsound⟩ := h.frames
  obtain ⟨var, lower, upper, body, hstmt⟩ := hsound.kind
  have howns : (FrameKind.repeatFor ref phase).OwnsNothing := ⟨rfl, rfl, rfl⟩
  unfold executeRepeat
  rw [withStmt_eq hstmt]
  cases phase with
  | start =>
      have hbegins : (FrameKind.repeatFor ref .start).begins? s w v.below =
          some (v.below.begin w (.repeatFor var lower upper body)) := by
        simp only [FrameKind.begins?, hstmt, Option.map_some]
      rw [due_of_begins hbegins]
      exact h.tracks_pushExpression (hslot rfl) howns (fun _ _ => FrameKind.frames_lower hstmt)
        lower
  | lower =>
      obtain ⟨x, hx⟩ := hvalue rfl
      rw [due_of_value h.control rfl (FrameKind.frames_lower hstmt) hx]
      dsimp only [Vm.takeSlot, Machine.receive]
      rw [hx, Option.getD_some]
      cases Machine.bound w.heap lower.location x with
      | ok lo =>
          exact h.takeSlot.tracks_pushExpression rfl howns
            (fun _ _ => FrameKind.frames_upper hstmt lo) upper
      | error f => exact h.takeSlot.tracks_throw howns f
  | upper lo =>
      obtain ⟨x, hx⟩ := hvalue rfl
      rw [due_of_value h.control rfl (FrameKind.frames_upper hstmt lo) hx]
      dsimp only [Vm.takeSlot, Machine.receive]
      rw [hx, Option.getD_some]
      cases Machine.bound w.heap upper.location x with
      | ok hi =>
          exact h.takeSlot.tracks_restore rfl .goOn
            (fun _ _ => FrameKind.frames_iterate hstmt lo hi) fun _ _ _ => rfl
      | error f => exact h.takeSlot.tracks_throw howns f
  | iterate next hi =>
      have hslot := hslot rfl
      rw [due_of_run h.control rfl (FrameKind.frames_iterate hstmt next hi) hslot]
      dsimp only [Machine.resumeFrame]
      split
      · exact h.tracks_finish hslot howns
      · next hle =>
          -- No integer comes after the greatest one, which is the upper bound then.
          have hF' : ∀ own, (FrameKind.repeatFor ref (following next hi)).frames own =
              [.count var (Machine.successor? next) hi body] := by
            intro own
            unfold following
            cases hnext : Machine.successor? next with
            | some i => exact FrameKind.frames_iterate hstmt i hi
            | none =>
                rw [eq_maxValue_of_successor? hnext hle]
                exact FrameKind.frames_finished hstmt
          rw [checkpoint_pushBlock hmode]
          have hblock := fun vars => h.tracks_block (s := s) (w := w) (n := n)
            (.repeatFor ref (following next hi)) hslot .pause (fun _ _ => hF' _) "repeat" body vars
          cases var with
          | some name => exact hblock [(name, .int next)]
          | none => exact hblock []
  | finished =>
      rw [due_of_run h.control rfl (FrameKind.frames_finished hstmt) (hslot rfl)]
      exact h.tracks_finish (hslot rfl) howns

theorem Faces.tracks_executeWhile {phase : WhilePhase}
    (h : v.Faces goal (.repeatWhile ref phase) fs) (hmode : v.mode = .cooperative)
    (hslot : (FrameKind.repeatWhile ref phase).takes = false → v.slot = none)
    (hvalue : (FrameKind.repeatWhile ref phase).awaits = some .value → ∃ x, v.slot = some x) :
    Tracks s n (v.executeWhile w ref phase) (v.due s w (.repeatWhile ref phase) own) := by
  obtain ⟨g, -, hsound⟩ := h.frames
  obtain ⟨test, body, hstmt⟩ := hsound.kind
  have howns : (FrameKind.repeatWhile ref phase).OwnsNothing := ⟨rfl, rfl, rfl⟩
  unfold executeWhile
  rw [withStmt_eq hstmt]
  cases phase with
  | test =>
      rw [due_of_run h.control rfl (FrameKind.frames_again hstmt) (hslot rfl)]
      exact h.tracks_pushExpression (hslot rfl) howns (fun _ _ => FrameKind.frames_test hstmt) test
  | check =>
      obtain ⟨x, hx⟩ := hvalue rfl
      rw [due_of_value h.control rfl (FrameKind.frames_test hstmt) hx]
      dsimp only [Vm.takeSlot, Machine.receive]
      rw [hx, Option.getD_some]
      cases Machine.condition w.heap test.location x with
      | ok b =>
          cases b with
          | true =>
              have hyield : ((v.takeSlot.2.restore (.repeatWhile ref .test)).pushBlock w "while"
                  body).2.checkpoint = .yield := checkpoint_pushBlock (v := v.takeSlot.2) hmode _ _
              dsimp only [Vm.takeSlot] at hyield ⊢
              rw [hyield]
              exact h.takeSlot.tracks_block (.repeatWhile ref .test) rfl .pause
                (fun _ _ => FrameKind.frames_again hstmt) "while" body []
          | false => exact h.takeSlot.tracks_finish rfl howns
      | error f => exact h.takeSlot.tracks_throw howns f

theorem Faces.tracks_executeTry {phase : TryPhase} (h : v.Faces goal (.attempt ref phase) fs)
    (hslot : v.slot = none) :
    Tracks s ((FrameKind.attempt ref phase).weight + weights fs) (v.executeTry w ref phase)
      (v.due s w (.attempt ref phase) own) := by
  obtain ⟨g, -, hsound⟩ := h.frames
  obtain ⟨body, handlers, hstmt⟩ := hsound.kind
  have howns : (FrameKind.attempt ref phase).OwnsNothing := ⟨rfl, rfl, rfl⟩
  cases phase with
  | start =>
      have hbegins : (FrameKind.attempt ref .start).begins? s w v.below =
          some (v.below.begin w (.attempt body handlers)) := by
        simp only [FrameKind.begins?, hstmt, Option.map_some]
      rw [due_of_begins hbegins]
      unfold executeTry
      dsimp only
      rw [withStmt_eq hstmt]
      exact h.tracks_block (.attempt ref .body) hslot .goOn
        (fun _ _ => FrameKind.frames_guard hstmt) "try" body []
  | body =>
      rw [due_of_run h.control rfl (FrameKind.frames_guard hstmt) hslot]
      exact h.tracks_finish hslot howns
  | handler =>
      have hdue : v.due s w (.attempt ref .handler) own = v.below.step s w := by
        rw [due, signal, h.control, hslot]
        rfl
      rw [hdue]
      exact h.tracks_gone hslot howns

theorem Faces.tracks_executeExclusive {lock : LockRef} {phase : ExclusivePhase}
    (h : v.Faces goal (.exclusive ref lock phase) fs) (hmode : v.mode = .cooperative)
    (hslot : v.slot = none) :
    Tracks s n (v.executeExclusive w ref lock phase)
      (v.due s w (.exclusive ref lock phase) own) := by
  obtain ⟨g, hframes, hsound⟩ := h.frames
  obtain ⟨body, hstmt⟩ := hsound.kind
  cases phase with
  | acquire =>
      rw [due_of_run h.control rfl (FrameKind.frames_enter hstmt) hslot]
      unfold executeExclusive
      dsimp only [Machine.resumeFrame]
      split
      · rw [checkpoint_of_mode hmode]
        exact h.tracks_restore hslot .blocked (fun _ _ => FrameKind.frames_enter hstmt)
          fun _ _ _ => rfl
      · rw [withStmt_eq hstmt]
        refine .alike .goOn ?_ (settled_of_top rfl fun _ _ _ => rfl)
        simp only [machine, signal, pushBlock, pushFrame, holding, restore, hframes, h.control,
          hslot, Machine.send, Machine.push, Vm.below]
        rfl
  | body =>
      rw [due_of_run h.control rfl rfl hslot]
      have howns : g.Owns (.hold lock) :=
        ⟨(hsound.scope rfl).symm, hsound.boundary.symm, hsound.lock.symm⟩
      exact tracks_finish_of hframes h.below h.control howns hslot

end Statements

/-! ## Expressions -/

/-- When the host breaks down, nothing is left of the frame. -/
theorem Faces.tracks_crash (h : v.Faces goal k fs) (hslot : v.slot = none)
    (hvacant : ∀ g, v.frames = g :: fs → g.kind = .vacant) (message : Option String) :
    Tracks s n ⟨.crash message, w, v⟩ ⟨.crash message, w, v.below⟩ := by
  obtain ⟨g, hframes, -⟩ := h.frames
  have hkind := hvacant g hframes
  refine .alike (.crash message) ?_ (settled_of_top hframes fun _ _ _ => by rw [hkind]; rfl)
  simp only [machine, signal, h.control, hslot, Vm.below, hframes, machineFrames,
    List.flatMap_cons, hkind]
  rfl

theorem Faces.tracks_evalItems {frame : EvalFrame} (h : v.Faces goal (.eval frame) fs)
    (hmode : v.mode = .cooperative) (hslot : v.slot = none)
    (hvacant : ∀ g, v.frames = g :: fs → g.kind = .vacant) {code : Code} (pc : Nat)
    (stack : List Operand) {items : List Item} (hitems : code.items.drop pc = items) :
    Tracks s n (v.evalItems s w code pc stack items)
      (v.below.evalItem s w items stack code.location) := by
  have howns : (FrameKind.eval frame).OwnsNothing := ⟨rfl, rfl, rfl⟩
  induction items generalizing w pc stack with
  | nil =>
      dsimp only [evalItems, Machine.evalItem]
      cases Item.result w.heap stack with
      | ok x => exact h.tracks_finishWith howns x
      | error f => exact h.tracks_throw howns _
  | cons item rest ih =>
      have hrest : code.items.drop (pc + 1) = rest := by
        rw [← List.drop_drop, hitems]
        rfl
      have hF : ∀ awaiting stack own,
          (FrameKind.eval ⟨code, pc + 1, stack, awaiting⟩).frames own =
            [.eval rest stack code.location] := fun _ _ _ => by simp only [FrameKind.frames, hrest]
      dsimp only [evalItems, Machine.evalItem]
      rw [scopes_below]
      cases item.effect s w.heap v.scopes.current stack with
      | next stack => exact .later (ih (pc + 1) stack hrest)
      | call callee args stack =>
          exact h.tracks_push (c := .new (.call ⟨callee, args, some code.location, .bind⟩)) hslot
            (fun _ _ => hF true stack _) (fun _ _ _ => rfl) rfl
      | schedule callee args stack =>
          dsimp only
          cases w.schedule (Machine.taskLabel w.heap callee)
              (.ofCall v.scopes.current callee args) with
          | ok scheduled => exact .later (ih (pc + 1) _ hrest)
          | error f => exact h.tracks_throw howns _
      | await t below =>
          dsimp only
          split
          · exact h.tracks_throw howns _
          · split
            · rw [checkpoint_of_mode hmode]
              refine h.tracks_restore (F := [.eval (item :: rest) stack code.location]) hslot
                .blocked (fun _ _ => ?_) fun _ _ _ => rfl
              simp only [FrameKind.frames, hitems]
            · rcases w.claim t with f | ⟨w', f | x⟩
              · exact h.tracks_throw howns _
              · exact h.tracks_throw howns _
              · exact .later (ih (pc + 1) _ hrest)
      | fail f => exact h.tracks_throw howns _
      | crash message => exact h.tracks_crash hslot hvacant message

theorem Faces.tracks_evalStep {frame : EvalFrame} {own : Bool} (h : v.Faces goal (.eval frame) fs)
    (hmode : v.mode = .cooperative) (hvacant : ∀ g, v.frames = g :: fs → g.kind = .vacant)
    (hslot : (FrameKind.eval frame).takes = false → v.slot = none)
    (hvalue : (FrameKind.eval frame).awaits = some .value → ∃ x, v.slot = some x) :
    Tracks s n (v.evalStep s w frame) (v.due s w (.eval frame) own) := by
  obtain ⟨code, pc, stack, awaiting⟩ := frame
  cases awaiting with
  | true =>
      obtain ⟨x, hx⟩ := hvalue rfl
      rw [due_of_value h.control rfl rfl hx]
      unfold evalStep
      dsimp only [if_true, Vm.takeSlot]
      rw [hx, Option.getD_some]
      exact .later (h.takeSlot.tracks_evalItems hmode rfl hvacant pc _ rfl)
  | false =>
      rw [due_of_run h.control rfl rfl (hslot rfl)]
      exact h.tracks_evalItems hmode (hslot rfl) hvacant pc stack rfl

/-! ## Calls -/

section Calls

variable {callee : Value} {args : List Value} {site : Option Location} {p : Procedure} {c : Call}
  {own : Bool}

theorem procedure_of_call? (h : callee.call? args site = some c) :
    callee.procedure? = some c.procedure ∧ c.args = args ∧ c.site = site := by
  unfold Value.call? at h
  split at h
  · obtain rfl := Option.some.inj h
    exact ⟨rfl, rfl, rfl⟩
  · obtain rfl := Option.some.inj h
    exact ⟨rfl, rfl, rfl⟩
  · contradiction

theorem exists_call? (h : callee.procedure? = some p) (args : List Value)
    (site : Option Location) : ∃ c, callee.call? args site = some c := by
  cases callee with
  | procedure p => exact ⟨_, rfl⟩
  | method r p => exact ⟨_, rfl⟩
  | _ => contradiction

/-- A call goes on with the default of the parameter of a number, or it is to enter its body. -/
theorem Faces.tracks_supplyNext {frame : CallFrame} {phase : CallPhase} {next : Nat}
    (h : v.Faces goal (.call frame) fs) (hslot : v.slot = none)
    (howns : (FrameKind.call frame).OwnsNothing) (hc : callee.call? args site = some c) :
    Tracks s (1 + weights fs) (v.supplyNext w c.procedure ⟨callee, args, site, phase⟩ next)
      (v.below.supply s w c (c.procedure.params.drop next)) := by
  obtain ⟨-, -, hsite⟩ := procedure_of_call? hc
  unfold supplyNext
  cases hparam : c.procedure.params[next]? with
  | none =>
      rw [List.drop_eq_nil_of_le (List.getElem?_eq_none_iff.mp hparam)]
      refine h.tracks_nearer ?_ ?_
      · simp only [FrameKind.begins?, hc, Option.map_some]
      · change 0 + 0 + _ < _
        omega
  | some param =>
      obtain ⟨hlt, rfl⟩ := List.getElem?_eq_some_iff.mp hparam
      rw [List.drop_eq_getElem_cons hlt]
      generalize c.procedure.params[next] = param
      simp only [Machine.supply, defaultCode, hsite]
      cases param.default with
      | none => exact h.tracks_throw howns _
      | some e =>
          dsimp only
          cases e.compile with
          | ok code =>
              exact h.tracks_push (c := .new (.eval ⟨code, 0, [], false⟩)) hslot
                (fun _ _ => FrameKind.frames_supply hc next) (fun _ _ _ => rfl) rfl
          | error f => exact h.tracks_throw howns _

theorem Faces.tracks_enterCall (h : v.Faces goal (.call ⟨callee, args, site, .enter⟩) fs)
    (hslot : v.slot = none) (hc : callee.call? args site = some c) :
    Tracks s n (v.enterCall s w c.procedure c.receiver ⟨callee, args, site, .enter⟩)
      (v.below.enter s w c) := by
  obtain ⟨-, hargs, hsite⟩ := procedure_of_call? hc
  obtain ⟨g, hframes, -⟩ := h.frames
  have hcall : (⟨c.procedure, c.receiver, args, site⟩ : Call) = c := by rw [← hargs, ← hsite]
  unfold enterCall Machine.enter
  dsimp only
  rw [depth_below, hsite, hcall]
  split
  · exact h.tracks_throw ⟨rfl, rfl, rfl⟩ _
  · rw [hframes]
    refine .alike .goOn ?_ (settled_of_top rfl fun _ _ _ => rfl)
    simp only [machine, signal, push, pushFrame, VmFrame.new, h.control, hslot, machineFrames,
      List.flatMap_cons, FrameKind.frames_running hc, Machine.openScope, Machine.send,
      Machine.push, Vm.below, hframes]
    rfl

theorem Faces.tracks_callProcedure {phase : CallPhase}
    (h : v.Faces goal (.call ⟨callee, args, site, phase⟩) fs)
    (hslot : (FrameKind.call ⟨callee, args, site, phase⟩).takes = false → v.slot = none)
    (hvalue : (FrameKind.call ⟨callee, args, site, phase⟩).awaits = some .value →
      ∃ x, v.slot = some x)
    (hc : callee.call? args site = some c)
    (hbind : ∀ s w (m : Machine), m.call s w callee args site = m.bind s w c)
    (hmore : ∀ x, callee.call? (args ++ [x]) site = some { c with args := args ++ [x] })
    {g : VmFrame} (hframes : v.frames = g :: fs) :
    Tracks s ((FrameKind.call ⟨callee, args, site, phase⟩).delay + weights fs)
      (v.callProcedure s w c.procedure c.receiver ⟨callee, args, site, phase⟩)
      (v.due s w (.call ⟨callee, args, site, phase⟩) own) := by
  obtain ⟨-, hargs, hsite⟩ := procedure_of_call? hc
  unfold callProcedure
  cases phase with
  | bind =>
      rw [due_of_run h.control rfl rfl (hslot rfl)]
      change Tracks s (2 + weights fs) _ (v.below.call s w callee args site)
      rw [hbind, Machine.bind]
      dsimp only
      rw [hargs, hsite]
      split
      · exact h.tracks_throw ⟨rfl, rfl, rfl⟩ _
      · next hcount =>
          have hle : args.length ≤ c.procedure.params.length :=
            Nat.le_of_not_lt (not_or.mp hcount).2
          split
          · refine h.tracks_nearer ?_ ?_
            · simp only [FrameKind.begins?, hc, Option.map_some]
            · change 0 + 1 + _ < _
              omega
          · next hge =>
              rw [List.drop_eq_nil_of_le (by omega)]
              refine h.tracks_nearer ?_ ?_
              · simp only [FrameKind.begins?, hc, Option.map_some]
              · change 0 + 0 + _ < _
                omega
  | default next pending =>
      cases pending with
      | true =>
          obtain ⟨x, hx⟩ := hvalue rfl
          rw [due_of_value h.control rfl (FrameKind.frames_supply hc next) hx]
          dsimp only [Vm.takeSlot, Machine.receive]
          rw [hx, Option.getD_some, hargs]
          exact h.takeSlot.tracks_supplyNext rfl ⟨rfl, rfl, rfl⟩ (hmore x)
      | false =>
          rw [due_of_begins (r := v.below.supply s w c (c.procedure.params.drop next))
            (by simp only [FrameKind.begins?, hc, Option.map_some])]
          exact h.tracks_supplyNext (hslot rfl) ⟨rfl, rfl, rfl⟩ hc
  | enter =>
      rw [due_of_begins (r := v.below.enter s w c)
        (by simp only [FrameKind.begins?, hc, Option.map_some, Machine.supply])]
      exact h.tracks_enterCall (hslot rfl) hc
  | running =>
      rw [due_of_run h.control rfl (FrameKind.frames_running hc) (hslot rfl)]
      obtain ⟨g', hg', hsound⟩ := h.frames
      obtain ⟨rfl, -⟩ := List.cons.inj (hframes.symm.trans hg')
      have howns : g.Owns (.running c) :=
        ⟨(hsound.scope rfl).symm, hsound.boundary.symm, hsound.lock.symm⟩
      exact tracks_finishWith_of hframes h.below h.control howns .empty

theorem Faces.tracks_callStep {frame : CallFrame} (h : v.Faces goal (.call frame) fs)
    (hvacant : ∀ g, v.frames = g :: fs → g.kind = .vacant)
    (hslot : (FrameKind.call frame).takes = false → v.slot = none)
    (hvalue : (FrameKind.call frame).awaits = some .value → ∃ x, v.slot = some x) :
    Tracks s ((FrameKind.call frame).delay + weights fs) (v.callStep s w frame)
      (v.due s w (.call frame) own) := by
  obtain ⟨callee, args, site, phase⟩ := frame
  obtain ⟨g, hframes, hsound⟩ := h.frames
  cases callee with
  | procedure p =>
      exact h.tracks_callProcedure hslot hvalue rfl (fun _ _ _ => rfl) (fun _ => rfl) hframes
  | method r p =>
      exact h.tracks_callProcedure hslot hvalue rfl (fun _ _ _ => rfl) (fun _ => rfl) hframes
  | extension e =>
      obtain rfl := phase_of_sound hsound.kind rfl
      rw [due_of_run h.control rfl rfl (hslot rfl)]
      dsimp only [callStep, Machine.resumeFrame, Machine.call]
      cases e.checkedCall s.host w.heap args with
      | value x => exact h.tracks_finishWith ⟨rfl, rfl, rfl⟩ x
      | failure f => exact h.tracks_throw ⟨rfl, rfl, rfl⟩ _
      | crash message => exact h.tracks_crash (hslot rfl) hvacant message
  | classDef cls =>
      obtain rfl := phase_of_sound hsound.kind rfl
      rw [due_of_run h.control rfl rfl (hslot rfl)]
      exact h.tracks_restore (F := [.construct cls args site]) (hslot rfl) .goOn
        (fun _ _ => rfl) fun _ _ _ => rfl
  | _ =>
      obtain rfl := phase_of_sound hsound.kind rfl
      rw [due_of_run h.control rfl rfl (hslot rfl)]
      exact h.tracks_throw ⟨rfl, rfl, rfl⟩ _

end Calls

/-! ## Construction -/

theorem Faces.tracks_constructStep {frame : ConstructFrame} {own : Bool}
    (h : v.Faces goal (.construct frame) fs)
    (hslot : (FrameKind.construct frame).takes = false → v.slot = none)
    (hvalue : (FrameKind.construct frame).awaits = some .value → ∃ x, v.slot = some x) :
    Tracks s ((FrameKind.construct frame).delay + weights fs) (v.constructStep w frame)
      (v.due s w (.construct frame) own) := by
  obtain ⟨cls, args, object, consumed, site, phase⟩ := frame
  obtain ⟨g, -, hsound⟩ := h.frames
  have hobject : phase ≠ .start → ∃ r, object = some r := hsound.kind.2
  have howns : ∀ frame, (FrameKind.construct frame).OwnsNothing := fun _ => ⟨rfl, rfl, rfl⟩
  unfold constructStep
  cases phase with
  | start =>
      rw [due_of_run (F := .construct cls args site) h.control (by cases object <;> rfl)
        (by cases object <;> rfl) (hslot rfl)]
      obtain rfl : consumed = 0 := hsound.kind.1 rfl
      dsimp only [constructStart, Machine.resumeFrame, Machine.construct]
      cases cls.own.builtin with
      | some kind =>
          dsimp only
          split
          · exact h.tracks_throw (howns _) _
          · exact h.tracks_finishWith (howns _) _
      | none =>
          dsimp only
          cases cls.parent? with
          | some parent =>
              exact h.tracks_push (c := .new (.construct ⟨parent, _, none, 0, site, .start⟩))
                (F := [.adopt _ cls args _ site]) (hslot rfl) (fun _ _ => rfl)
                (fun _ _ _ => rfl) rfl
          | none =>
              refine h.tracks_nearer rfl ?_
              change 0 + 0 + _ < 1 + _
              omega
  | parent =>
      obtain ⟨r, rfl⟩ := hobject nofun
      obtain ⟨x, hx⟩ := hvalue rfl
      rw [due_of_value h.control rfl rfl hx]
      dsimp only [Vm.takeSlot, Machine.receive]
      rw [hx, Option.getD_some]
      refine h.takeSlot.tracks_nearer ?_ ?_
      · cases x <;> rfl
      · change 0 + 0 + _ < 1 + _
        omega
  | own =>
      obtain ⟨r, rfl⟩ := hobject nofun
      rw [due_of_begins (r := v.below.initialise w r cls args consumed site) rfl]
      dsimp only [Machine.initialise]
      cases cls.own.ctor with
      | some p =>
          exact h.tracks_push (c := .new (.call ⟨.method r p, args, site, .bind⟩))
            (F := [.finish r]) (hslot rfl) (fun _ _ => rfl) (fun _ _ _ => rfl) rfl
      | none =>
          dsimp only
          split
          · exact h.tracks_throw (howns _) _
          · exact h.tracks_finishWith (howns _) _
  | finish =>
      obtain ⟨r, rfl⟩ := hobject nofun
      obtain ⟨x, hx⟩ := hvalue rfl
      rw [due_of_value h.control rfl rfl hx]
      exact h.takeSlot.tracks_finishWith (howns _) (.object r)

/-! ## Leaving early -/

theorem unwind_eq_leave {e : Exit} (hframes : v.frames = f :: fs)
    (hlanding : landing w.heap f.kind = .other ∨ landing w.heap f.kind = .loop ∧ ¬ e.IsJump) :
    v.unwind s w e = v.leave w e := by
  unfold unwind
  rw [hframes]
  dsimp only
  rcases hlanding with hlanding | ⟨hlanding, hjump⟩
  · rw [hlanding]
    cases e <;> rfl
  · rw [hlanding]
    cases e with
    | breakOut => exact absurd trivial hjump
    | continueOn => exact absurd trivial hjump
    | _ => rfl

/-- What is left early where the frame on top stands for `F`. -/
theorem tracks_unwind_of_leave {e : Exit} {F : Frame} (hframes : v.frames = f :: fs)
    (howns : f.Owns F) (hcall : F.call? = none) (hguard : ∀ handlers, F ≠ .guard handlers)
    (hlanding : landing w.heap f.kind = .other ∧ F.isLoop = false ∨
      landing w.heap f.kind = .loop ∧ ¬ e.IsJump) :
    Tracks s n (v.unwind s w e) (v.below.unwind s w e F) := by
  rw [unwind_eq_leave hframes (hlanding.imp_left (·.1)), Machine.unwind_eq_leave hcall hguard]
  · exact tracks_leave_of hframes howns e
  · rintro hloop hjump
    rcases hlanding with ⟨-, hnot⟩ | ⟨-, hnot⟩
    · rw [hloop] at hnot
      contradiction
    · exact hnot hjump

/-- A loop between two turns is left, or goes on with its next turn. -/
theorem Faces.tracks_unwind_loop {e : Exit} {F : Frame} (h : v.Faces goal f.kind fs)
    (hslot : v.slot = none) (hsound : f.Sound) (hframes : v.frames = f :: fs)
    (hlanding : landing w.heap f.kind = .loop) (hk : f.kind.OwnsNothing)
    (hF : f.kind.frames f.pushedScope = [F]) (hloop : F.isLoop = true)
    (hnone : ∀ s w m, f.kind.begins? s w m = none) :
    Tracks s n (v.unwind s w e) (v.below.unwind s w e F) := by
  obtain ⟨hscope, hisCall, -, -⟩ := Frame.owns_of_isLoop hloop
  have hcall : F.call? = none := by cases F <;> first | rfl | contradiction
  have hguard : ∀ handlers, F ≠ .guard handlers := by rintro handlers rfl; contradiction
  have hlock : F.lock? = none := by cases F <;> first | rfl | contradiction
  have howns := hsound.owns hk hscope hisCall hlock
  by_cases hjump : e.IsJump
  · obtain ⟨frames, control, slot, scopes, mode, depth⟩ := v
    obtain rfl : frames = f :: fs := hframes
    unfold unwind Machine.unwind
    dsimp only
    rw [hlanding, hcall]
    cases e with
    | breakOut =>
        cases F <;> first | contradiction | exact h.tracks_finish hslot hk
    | continueOn =>
        have hgoes : Tracks s n (goOn w ⟨f :: fs, control, slot, scopes, mode, depth⟩)
            ((Machine.push (Vm.below ⟨f :: fs, control, slot, scopes, mode, depth⟩) F).next w) := by
          refine .alike .goOn ?_ (settled_of_top rfl hnone)
          simp only [machine, signal, machineFrames, List.flatMap_cons, hF]
          rw [show control = none from h.control, show slot = none from hslot]
          rfl
        cases F <;> first | contradiction | exact hgoes
    | _ => exact hjump.elim
  · exact tracks_unwind_of_leave hframes howns hcall hguard (.inr ⟨hlanding, hjump⟩)

/-- What is left early meets a call, whose body or whose default is above. -/
theorem Faces.tracks_unwind_call {e : Exit} {F : Frame} {frame : CallFrame} {c : Call}
    (h : v.Faces goal f.kind fs) (hframes : v.frames = f :: fs)
    (howns : f.Owns F) (hkind : f.kind = .call frame)
    (hc : frame.callee.call? frame.args frame.site = some c) (hcall : F.call? = some c)
    (hF : f.kind.frames f.pushedScope = [F]) :
    Tracks s n (v.unwind s w e) (v.below.unwind s w e F) := by
  have hlanding : landing w.heap f.kind = .call ⟨c.procedure.name, c.site⟩ := by
    obtain ⟨callee, args, site, phase⟩ := frame
    rw [hkind]
    cases callee with
    | procedure p =>
        obtain rfl := Option.some.inj hc
        rfl
    | method r p =>
        obtain rfl := Option.some.inj hc
        rfl
    | _ => contradiction
  -- The way out of a loop is a failure here.
  have hfails : ∀ keyword, Tracks s n
      ({ v with control := some (.failWith (Machine.outsideLoop keyword)) }.goOn w)
      ((v.below.push F).fail w (Machine.outsideLoop keyword)) := by
    intro keyword
    refine .alike .goOn ?_ (settled_of_control rfl)
    simp only [machine, signal, Vm.below, hframes, machineFrames, List.flatMap_cons, hF]
    rfl
  have hunwind : v.unwind s w e = match e with
      | .breakOut =>
          { v with control := some (.failWith (Machine.outsideLoop "break")) }.goOn w
      | .continueOn =>
          { v with control := some (.failWith (Machine.outsideLoop "continue")) }.goOn w
      | .returnWith x => v.finishWith w x
      | .failWith g => v.throw w (g.leaving ⟨c.procedure.name, c.site⟩) := by
    unfold unwind
    rw [hframes]
    dsimp only
    rw [hlanding]
    cases e <;> rw [← hframes]
  rw [hunwind]
  unfold Machine.unwind
  rw [hcall]
  cases e with
  | breakOut => exact hfails "break"
  | continueOn => exact hfails "continue"
  | returnWith x => exact tracks_finishWith_of hframes h.below h.control howns x
  | failWith g => exact tracks_leave_of hframes howns _

/-- A failure meets handlers. -/
theorem Faces.tracks_catching {ref : StmtRef} {body : Body} {handlers : List Handler}
    (h : v.Faces goal (.attempt ref .body) fs) (hslot : v.slot = none)
    (hstmt : ref.stmt? = some (.attempt body handlers)) (g : Failure) :
    Tracks s n (v.catching s w ref g) (v.below.handle s w g handlers) := by
  unfold catching
  rw [withStmt_eq hstmt]
  dsimp only [Machine.handle]
  cases handlers.find? fun handler => w.heap.catches handler.className g with
  | none => exact h.tracks_throw ⟨rfl, rfl, rfl⟩ g
  | some handler =>
      have hblock := fun heap vars => h.tracks_block (s := s) (n := n)
        (w := { w with heap := heap }) (.attempt ref .handler) hslot .goOn (fun _ _ => rfl)
        "handler" handler.body vars
      dsimp only
      cases handler.binding with
      | some name =>
          exact hblock (w.heap.exception s.registry g).1
            [(name, (w.heap.exception s.registry g).2)]
      | none => exact hblock (w.heap.exception s.registry g).1 []

/-- What is left early passes a frame that has nothing left to do. -/
theorem tracks_unwind_gone {e : Exit} (hframes : v.frames = f :: fs) (hsound : f.Sound)
    (hk : f.kind.OwnsNothing) (hlanding : landing w.heap f.kind = .other) :
    Tracks s (4 + weights fs) (v.unwind s w e)
      (Machine.step s w { v.below with signal := .leave e }) := by
  have howns : f.Owns (.guard []) := hsound.owns hk rfl rfl rfl
  rw [unwind_eq_leave hframes (.inl hlanding)]
  simp only [Vm.leave, popFrame_eq hframes howns]
  refine .silent ?_ ?_
  · refine (settled_of_control rfl s w).trans ?_
    simp only [machine, signal, Vm.below, hframes]
    rfl
  · exact rank_lt rfl

/-- Something leaves the frame on top early. A frame that waits for a value is only left because of a
failure. -/
structure Leaving (goal : Shape) (f : VmFrame) (fs : List VmFrame) (e : Exit) (v : Vm) : Prop where
  faces : v.Faces goal f.kind fs
  slot : v.slot = none
  frames : v.frames = f :: fs
  sound : f.Sound
  awaits : ∃ σ, f.kind.awaits = some σ ∧ (σ = .statement ∨ ∃ g, e = .failWith g)

/-- The frame on top deals with what is left early as the machine does with the frames that it
stands for. -/
def TracksLeaving (s : Setting) (w : World) (f : VmFrame) (fs : List VmFrame) (e : Exit) (v : Vm) :
    Prop :=
  Tracks s (f.kind.weight + f.kind.delay + weights fs) (v.unwind s w e)
    (Machine.step s w { v.below with
      frames := f.kind.frames f.pushedScope ++ v.below.frames, signal := .leave e })

theorem tracksLeaving_of_frame {e : Exit} {F : Frame} (hF : f.kind.frames f.pushedScope = [F])
    (h : ∀ n, Tracks s n (v.unwind s w e) (v.below.unwind s w e F)) :
    v.TracksLeaving s w f fs e := by
  rw [TracksLeaving, hF]
  exact h _

section Leaving

variable {e : Exit} {own : Bool} {lock : Option LockRef} {boundary : Bool} {ref : StmtRef}

theorem Leaving.begins?_eq_none (h : v.Leaving goal f fs e) (s : Setting) (w : World)
    (m : Machine) : f.kind.begins? s w m = none :=
  let ⟨_, hawaits, _⟩ := h.awaits
  begins?_of_awaits hawaits s w m

theorem Leaving.not_isJump (h : v.Leaving goal f fs e) (hvalue : f.kind.awaits = some .value) :
    ¬ e.IsJump := by
  obtain ⟨σ, hawaits, hexit⟩ := h.awaits
  rw [hvalue] at hawaits
  obtain rfl := Option.some.inj hawaits
  obtain ⟨g, rfl⟩ := hexit.resolve_left (by simp)
  exact id

/-- A frame that waits for a value is simply left, unless it belongs to a call. -/
theorem Leaving.waits {F : Frame} (h : v.Leaving goal f fs e)
    (hF : f.kind.frames f.pushedScope = [F]) (hvalue : F.awaits = some .value)
    (hcall : F.call? = none) (hawaits : f.kind.awaits = some .value) (hk : f.kind.OwnsNothing)
    (hlanding : landing w.heap f.kind = .other ∨ landing w.heap f.kind = .loop) :
    v.TracksLeaving s w f fs e := by
  have hplain : F.ownsScope = false ∧ F.isCall = false ∧ F.lock? = none ∧ F.isLoop = false ∧
      ∀ handlers, F ≠ .guard handlers := by
    cases F with
    | guard handlers => simp [Frame.awaits] at hvalue
    | _ => first | exact ⟨rfl, rfl, rfl, rfl, fun _ => by simp⟩ | simp [Frame.awaits] at hvalue
  obtain ⟨hscope, hisCall, hlock, hloop, hguard⟩ := hplain
  refine tracksLeaving_of_frame hF fun n => ?_
  exact tracks_unwind_of_leave h.frames (h.sound.owns hk hscope hisCall hlock) hcall hguard
    (hlanding.imp (fun hother => ⟨hother, hloop⟩) fun hloop => ⟨hloop, h.not_isJump hawaits⟩)

theorem Leaving.loops {F : Frame} (h : v.Leaving goal f fs e)
    (hlanding : landing w.heap f.kind = .loop) (hk : f.kind.OwnsNothing)
    (hF : f.kind.frames f.pushedScope = [F]) (hloop : F.isLoop = true) :
    v.TracksLeaving s w f fs e :=
  tracksLeaving_of_frame hF fun _ =>
    h.faces.tracks_unwind_loop h.slot h.sound h.frames hlanding hk hF hloop h.begins?_eq_none

/-- A frame that has nothing left to do has been taken off by the machine already. -/
theorem Leaving.gone (h : v.Leaving goal f fs e) (hk : f.kind.OwnsNothing)
    (hF : f.kind.frames f.pushedScope = []) (hweight : f.kind.weight + f.kind.delay = 4)
    (hlanding : landing w.heap f.kind = .other) : v.TracksLeaving s w f fs e := by
  rw [TracksLeaving, hF, hweight]
  exact tracks_unwind_gone h.frames h.sound hk hlanding

theorem Leaving.body {stmts : Body} {index : Nat} {checkpoint : Bool}
    (h : v.Leaving goal ⟨.body stmts index checkpoint, own, lock, boundary⟩ fs e) :
    v.TracksLeaving s w ⟨.body stmts index checkpoint, own, lock, boundary⟩ fs e := by
  have howns : VmFrame.Owns ⟨.body stmts index checkpoint, own, lock, boundary⟩
      (.body (stmts.drop index) own checkpoint) :=
    ⟨rfl, h.sound.boundary.symm, h.sound.lock.symm⟩
  exact tracksLeaving_of_frame rfl fun _ =>
    tracks_unwind_of_leave h.frames howns rfl (by simp) (.inl ⟨rfl, rfl⟩)

theorem Leaving.value {kind : ValueKind} {phase : ValuePhase}
    (h : v.Leaving goal ⟨.value kind ref phase, own, lock, boundary⟩ fs e) :
    v.TracksLeaving s w ⟨.value kind ref phase, own, lock, boundary⟩ fs e := by
  obtain ⟨σ, hawaits, -⟩ := h.awaits
  obtain ⟨stmt, hstmt, hkind⟩ := h.sound.kind
  cases phase with
  | eval => contradiction
  | apply =>
      rcases begin_of_valueKind hkind with ⟨action, e, hwaiting, -, -⟩ | rfl
      · refine h.waits (F := .act action e.location) (FrameKind.frames_apply hstmt hwaiting) rfl
          rfl ?_ ⟨rfl, rfl, rfl⟩ (.inl rfl)
        simp only [FrameKind.awaits] at hawaits ⊢
        split at hawaits
        · contradiction
        · rfl
      · simp only [FrameKind.awaits, hstmt] at hawaits
        contradiction

theorem Leaving.choose {phase : IfPhase}
    (h : v.Leaving goal ⟨.choose ref phase, own, lock, boundary⟩ fs e) :
    v.TracksLeaving s w ⟨.choose ref phase, own, lock, boundary⟩ fs e := by
  obtain ⟨σ, hawaits, -⟩ := h.awaits
  obtain ⟨branches, otherwise, hstmt, hcheck⟩ := h.sound.kind
  cases phase with
  | test i => contradiction
  | check i =>
      have hlt : i < branches.length := hcheck i rfl
      have hdrop := List.drop_eq_getElem_cons hlt
      rcases hget : branches[i] with ⟨test, body⟩
      rw [hget] at hdrop
      exact h.waits (FrameKind.frames_check hstmt hdrop) rfl rfl rfl ⟨rfl, rfl, rfl⟩ (.inl rfl)
  | done => exact h.gone ⟨rfl, rfl, rfl⟩ rfl rfl rfl

theorem Leaving.repeatFor {phase : RepeatPhase}
    (h : v.Leaving goal ⟨.repeatFor ref phase, own, lock, boundary⟩ fs e) :
    v.TracksLeaving s w ⟨.repeatFor ref phase, own, lock, boundary⟩ fs e := by
  obtain ⟨σ, hawaits, -⟩ := h.awaits
  obtain ⟨var, lower, upper, body, hstmt⟩ := h.sound.kind
  cases phase with
  | start => contradiction
  | lower => exact h.waits (FrameKind.frames_lower hstmt) rfl rfl rfl ⟨rfl, rfl, rfl⟩ (.inr rfl)
  | upper lo =>
      exact h.waits (FrameKind.frames_upper hstmt lo) rfl rfl rfl ⟨rfl, rfl, rfl⟩ (.inr rfl)
  | iterate next hi =>
      exact h.loops rfl ⟨rfl, rfl, rfl⟩ (FrameKind.frames_iterate hstmt next hi) rfl
  | finished => exact h.loops rfl ⟨rfl, rfl, rfl⟩ (FrameKind.frames_finished hstmt) rfl

theorem Leaving.repeatWhile {phase : WhilePhase}
    (h : v.Leaving goal ⟨.repeatWhile ref phase, own, lock, boundary⟩ fs e) :
    v.TracksLeaving s w ⟨.repeatWhile ref phase, own, lock, boundary⟩ fs e := by
  obtain ⟨test, body, hstmt⟩ := h.sound.kind
  cases phase with
  | test => exact h.loops rfl ⟨rfl, rfl, rfl⟩ (FrameKind.frames_again hstmt) rfl
  | check => exact h.waits (FrameKind.frames_test hstmt) rfl rfl rfl ⟨rfl, rfl, rfl⟩ (.inr rfl)

theorem Leaving.attempt {phase : TryPhase}
    (h : v.Leaving goal ⟨.attempt ref phase, own, lock, boundary⟩ fs e) :
    v.TracksLeaving s w ⟨.attempt ref phase, own, lock, boundary⟩ fs e := by
  obtain ⟨σ, hawaits, -⟩ := h.awaits
  obtain ⟨body, handlers, hstmt⟩ := h.sound.kind
  cases phase with
  | start => contradiction
  | body =>
      have howns := h.sound.owns (F := .guard handlers) ⟨rfl, rfl, rfl⟩ rfl rfl rfl
      refine tracksLeaving_of_frame (FrameKind.frames_guard hstmt) fun n => ?_
      obtain ⟨hfaces, hslot, hframes, -, -⟩ := h
      obtain ⟨frames, control, slot, scopes, mode, depth⟩ := v
      obtain rfl : frames = _ := hframes
      cases e with
      | failWith g => exact hfaces.tracks_catching hslot hstmt g
      | _ => exact tracks_leave_of (v := ⟨_, control, slot, scopes, mode, depth⟩) rfl howns _
  | handler => exact h.gone ⟨rfl, rfl, rfl⟩ rfl rfl rfl

theorem Leaving.exclusive {l : LockRef} {phase : ExclusivePhase}
    (h : v.Leaving goal ⟨.exclusive ref l phase, own, lock, boundary⟩ fs e) :
    v.TracksLeaving s w ⟨.exclusive ref l phase, own, lock, boundary⟩ fs e := by
  obtain ⟨σ, hawaits, -⟩ := h.awaits
  cases phase with
  | acquire => contradiction
  | body =>
      have howns : VmFrame.Owns ⟨.exclusive ref l .body, own, lock, boundary⟩ (.hold l) :=
        ⟨(h.sound.scope rfl).symm, h.sound.boundary.symm, h.sound.lock.symm⟩
      exact tracksLeaving_of_frame rfl fun _ =>
        tracks_unwind_of_leave h.frames howns rfl (by simp) (.inl ⟨rfl, rfl⟩)

theorem Leaving.call {frame : CallFrame}
    (h : v.Leaving goal ⟨.call frame, own, lock, boundary⟩ fs e) :
    v.TracksLeaving s w ⟨.call frame, own, lock, boundary⟩ fs e := by
  obtain ⟨σ, hawaits, -⟩ := h.awaits
  obtain ⟨callee, args, site, phase⟩ := frame
  have hof : FrameKind.OfCall callee args phase := h.sound.kind
  cases phase with
  | bind => simp [FrameKind.awaits] at hawaits
  | enter => simp [FrameKind.awaits] at hawaits
  | default next pending =>
      cases pending with
      | false => simp [FrameKind.awaits] at hawaits
      | true =>
          obtain ⟨p, hp, -⟩ := hof
          obtain ⟨c, hc⟩ := exists_call? hp args site
          have hF : (FrameKind.call ⟨callee, args, site, .default next true⟩).frames own = _ :=
            FrameKind.frames_supply hc next
          exact tracksLeaving_of_frame hF fun _ => h.faces.tracks_unwind_call h.frames
            (h.sound.owns ⟨rfl, rfl, rfl⟩ rfl rfl rfl) rfl hc rfl hF
  | running =>
      obtain ⟨p, hp, -⟩ := hof
      obtain ⟨c, hc⟩ := exists_call? hp args site
      have hF : (FrameKind.call ⟨callee, args, site, .running⟩).frames own = _ :=
        FrameKind.frames_running hc
      exact tracksLeaving_of_frame hF fun _ => h.faces.tracks_unwind_call h.frames
        ⟨(h.sound.scope rfl).symm, h.sound.boundary.symm, h.sound.lock.symm⟩ rfl hc rfl hF

theorem Leaving.construct {frame : ConstructFrame}
    (h : v.Leaving goal ⟨.construct frame, own, lock, boundary⟩ fs e) :
    v.TracksLeaving s w ⟨.construct frame, own, lock, boundary⟩ fs e := by
  obtain ⟨σ, hawaits, -⟩ := h.awaits
  obtain ⟨cls, args, object, consumed, site, phase⟩ := frame
  have hobject : phase ≠ .start → ∃ r, object = some r := h.sound.kind.2
  cases phase with
  | start => simp [FrameKind.awaits] at hawaits
  | own => simp [FrameKind.awaits] at hawaits
  | parent =>
      obtain ⟨r, rfl⟩ := hobject (by simp)
      exact h.waits (F := .adopt r cls args consumed site) rfl rfl rfl rfl ⟨rfl, rfl, rfl⟩ (.inl rfl)
  | finish =>
      obtain ⟨r, rfl⟩ := hobject (by simp)
      exact h.waits (F := .finish r) rfl rfl rfl rfl ⟨rfl, rfl, rfl⟩ (.inl rfl)

/-- Whatever statement, expression or call the frame on top belongs to, it deals with what is left
early as the machine does. -/
theorem Leaving.tracks (h : v.Leaving goal f fs e) : v.TracksLeaving s w f fs e := by
  obtain ⟨kind, own, lock, boundary⟩ := f
  cases kind with
  | vacant => exact absurd h.awaits (by simp [FrameKind.awaits])
  | body stmts index checkpoint => exact h.body
  | value kind ref phase => exact h.value
  | choose ref phase => exact h.choose
  | repeatFor ref phase => exact h.repeatFor
  | repeatWhile ref phase => exact h.repeatWhile
  | attempt ref phase => exact h.attempt
  | exclusive ref l phase => exact h.exclusive
  | eval frame =>
      obtain ⟨σ, hawaits, -⟩ := h.awaits
      obtain ⟨code, pc, stack, awaiting⟩ := frame
      cases awaiting with
      | false => simp [FrameKind.awaits] at hawaits
      | true => exact h.waits rfl rfl rfl rfl ⟨rfl, rfl, rfl⟩ (.inl rfl)
  | call frame => exact h.call
  | construct frame => exact h.construct

end Leaving

/-! ## Steps -/

/-- The handler of the frame on top does what the machine does next. -/
theorem Faces.tracks_execute {own : Bool} {g : VmFrame} (h : v.Faces goal k fs)
    (hmode : v.mode = .cooperative) (hframes : v.frames = g :: fs) (hvacant : g.kind = .vacant)
    (hown : g.pushedScope = own) (hslot : k.takes = false → v.slot = none)
    (hvalue : k.awaits = some .value → ∃ x, v.slot = some x)
    (hbare : VmFrame.IsBareReturn { g with kind := k } → v.slot = some .empty) :
    Tracks s (k.weight + k.delay + weights fs) (v.execute s w k) (v.due s w k own) := by
  have hvacant : ∀ g', v.frames = g' :: fs → g'.kind = .vacant := by
    intro g' hg'
    obtain ⟨rfl, -⟩ := List.cons.inj (hframes.symm.trans hg')
    exact hvacant
  cases k with
  | vacant =>
      obtain ⟨g', -, hsound⟩ := h.frames
      exact hsound.kind.elim
  | body stmts index checkpoint =>
      subst hown
      have hF : FrameKind.frames g.pushedScope (.body stmts index checkpoint) =
          [.body (stmts.drop index) g.pushedScope checkpoint] := rfl
      rw [due_of_run h.control rfl hF (hslot rfl)]
      exact h.tracks_executeBody (hslot rfl) hmode hframes
  | value kind ref phase =>
      change Tracks s (0 + _ + _) _ _
      rw [Nat.zero_add]
      refine h.tracks_executeValue ?_
      cases phase with
      | eval => exact hslot rfl
      | apply =>
          obtain ⟨g', -, hsound⟩ := h.frames
          obtain ⟨stmt, hstmt, hkind⟩ := hsound.kind
          by_cases hnone : stmt = .returnWith none
          · subst hnone
            obtain rfl := Option.some.inj hkind
            exact ⟨.empty, hbare ⟨ref, rfl, hstmt⟩, fun _ => rfl⟩
          · obtain ⟨x, hx⟩ := hvalue (FrameKind.awaits_apply hstmt hnone)
            exact ⟨x, hx, fun h => absurd (Option.some.inj (hstmt.symm.trans h)) hnone⟩
  | choose ref phase => exact h.tracks_executeIf hslot hvalue
  | repeatFor ref phase => exact h.tracks_executeRepeat hmode hslot hvalue
  | repeatWhile ref phase => exact h.tracks_executeWhile hmode hslot hvalue
  | attempt ref phase => exact h.tracks_executeTry (hslot (by cases phase <;> rfl))
  | exclusive ref lock phase =>
      exact h.tracks_executeExclusive hmode (hslot (by cases phase <;> rfl))
  | eval frame => exact h.tracks_evalStep hmode hvacant hslot hvalue
  | call frame =>
      change Tracks s (0 + _ + _) _ _
      rw [Nat.zero_add]
      exact h.tracks_callStep hvacant hslot hvalue
  | construct frame =>
      change Tracks s (0 + _ + _) _ _
      rw [Nat.zero_add]
      exact h.tracks_constructStep hslot hvalue

/-- A machine in order does what the machine does next that it stands for. -/
theorem Sound.tracks_step (h : v.Sound goal) (hmode : v.mode = .cooperative) :
    Tracks s v.rank (v.step s w) (v.next s w) := by
  obtain ⟨frames, control, slot, scopes, mode, depth⟩ := v
  cases frames with
  | nil =>
      rw [step_of_frames_nil rfl, settled_of_frames_nil rfl]
      exact .alike .done rfl (settled_of_frames_nil rfl)
  | cons f fs =>
      cases control with
      | none =>
          obtain ⟨hsound, hbelow, htakes, hbare⟩ := h.top rfl rfl
          refine Faces.tracks_execute (v := Vm.restore ⟨f :: fs, none, slot, scopes, mode, depth⟩ _)
            ⟨⟨_, rfl, hsound⟩, rfl, hbelow⟩ hmode rfl rfl rfl (fun hnot => ?_) (fun hvalue => ?_)
            hbare
          · exact Option.isNone_iff_eq_none.mp (Option.isSome_eq_false_iff.mp (htakes.trans hnot))
          · exact Option.isSome_iff_exists.mp (htakes.trans (FrameKind.takes_of_awaits hvalue))
      | some e =>
          obtain ⟨hslot, k, hstacked, hexit⟩ := h.left rfl
          cases hstacked with
          | frame hawaits hsound hbelow =>
              exact Leaving.tracks (v := ⟨f :: fs, none, slot, scopes, mode, depth⟩)
                ⟨⟨⟨f, rfl, hsound⟩, rfl, hbelow⟩, hslot, rfl, hsound, k, hawaits, hexit⟩

end Vm

end Statute
