import Statute.Proofs.Machine.Succession
import Statute.Proofs.Registry.Enrolment

/-!
# Unwinding

A failure takes the frames off a machine one by one, from the top. It stops at the first frame with
a handler that deals with it, and on the way it notes down each call that it leaves. Nothing of this
looks at the frames further down, so they are still there when the handler begins, with the scopes
and the depth of calls that belong to them.

A machine can be set aside between any two steps and find another world when it goes on. What a
handler deals with depends on the world through the class of the thrown object alone, and an object
keeps its class; so the worlds of the single steps only have to agree on that.
-/

namespace Statute

/-- What a failure notes down when it leaves a call. -/
def Call.entry (c : Call) : TraceEntry :=
  ⟨c.procedure.name, c.site⟩

/-- The failure after it has left all calls among some frames, from the top on. -/
def Failure.leavingAll (f : Failure) (fs : List Frame) : Failure :=
  { f with trace := f.trace ++ fs.filterMap fun g => g.call?.map Call.entry }

def Heap.thrownClass? (h : Heap) (f : Failure) : Option Class :=
  f.payload.map fun r => (h.object r).cls

def Frame.handler? (h : Heap) (f : Failure) : Frame → Option Handler
  | .guard handlers => handlers.find? fun k => h.catches k.className f
  | _ => none

/-- What a handler binds when it begins. -/
def Handler.vars (handler : Handler) (v : Value) : List (String × Value) :=
  match handler.binding with
  | some name => [(name, v)]
  | none => []

/-- What a handler gets to see is the object that was thrown, and nothing is added for it; or it is
a fresh object that carries the message, of the class that the registry has for the failure. Such an
object has not been constructed: it has no other field and no parent. A registry without a class for
the failure leaves the message. -/
inductive Heap.Shows (h : Heap) (registry : Registry) (f : Failure) : Heap → Value → Prop
  | thrown {r : ObjectRef} (hpayload : f.payload = some r) : Shows h registry f h (.object r)
  | fresh {c : Class} (hpayload : f.payload = none) (hclass : registry.errorClass? f = some c) :
      Shows h registry f
        { h with
          objects := h.objects.push ⟨c, [("message", h.boxes.size)], none⟩
          boxes := h.boxes.push (.text f.message) }
        (.object h.objects.size)
  | bare (hpayload : f.payload = none) (hclass : registry.errorClass? f = none) :
      Shows h registry f h (.text f.message)

/-- A program that was built has a class for every failure. It is the built-in one of its kind, if
the failure goes by the name of its kind. -/
theorem Registry.errorClass?_of_build {h h' : Heap} {file : String} {extensions : List Extension}
    {source : Source} {r : Registry} (hbuild : build h file extensions source = .ok (h', r))
    (f : Failure) :
    ∃ c, r.errorClass? f = some c ∧ (f.className = f.kind.className → c = .builtin f.kind) := by
  have hkind : r.class? f.kind.className = some (.builtin f.kind) :=
    class?_eq_some_iff.mpr ((orderly_build hbuild).builtin f.kind).lookup?
  cases hname : r.class? f.className with
  | none =>
      refine ⟨.builtin f.kind, ?_, fun _ => rfl⟩
      rw [errorClass?, hname, hkind]
      rfl
  | some c =>
      refine ⟨c, by rw [errorClass?, hname]; rfl, fun hsame => ?_⟩
      rw [hsame, hkind] at hname
      exact (Option.some.inj hname).symm

variable {registry : Registry} {h h' : Heap} {f f' : Failure} {g : Frame} {fs : List Frame}

@[simp] theorem Failure.leavingAll_nil (f : Failure) : f.leavingAll [] = f := by
  simp [leavingAll]

theorem Failure.leavingAll_of_no_call (hcall : g.call? = none) : f.leavingAll [g] = f := by
  simp [leavingAll, hcall]

theorem Failure.leavingAll_append (f : Failure) (fs gs : List Frame) :
    (f.leavingAll fs).leavingAll gs = f.leavingAll (fs ++ gs) := by
  simp [leavingAll]

/-- Frames below others wait for something, each of them. -/
theorem Upholds.awaits {goal k : Shape} {base depth : Nat} {envs : List Env}
    (h : Upholds goal base k fs envs depth) : ∀ g ∈ fs, g.awaits ≠ none := by
  induction h with
  | root => exact List.forall_mem_nil _
  | frame hawaits _ _ ih =>
      refine List.forall_mem_cons.mpr ⟨?_, ih⟩
      rw [hawaits]
      exact Option.some_ne_none _

theorem Supplies.of_leave {limit depth : Nat} {c : Call} {params : List Param} {e : Exit}
    (h : Supplies limit depth c params fs (.leave e)) : fs = [] := by
  cases h
  rfl

namespace Heap

theorem catches_eq (h : Heap) (handler : String) (f : Failure) :
    h.catches handler f = (decide (handler = f.className) ||
      decide (handler = ErrorKind.general.className) ||
      decide (ErrorKind.ofClassName? handler = some f.kind) ||
      (h.thrownClass? f).any (·.isA handler)) := by
  unfold catches thrownClass?
  cases f.payload <;> rfl

/-- Of the heap only the class of the thrown object matters to a handler, and of the failure neither
the place nor the calls that it has left. -/
theorem catches_congr (handler : String) (hkind : f.kind = f'.kind)
    (hname : f.className = f'.className) (hclass : h.thrownClass? f = h'.thrownClass? f') :
    h.catches handler f = h'.catches handler f' := by
  rw [catches_eq, catches_eq, hkind, hname, hclass]

theorem handler?_congr (g : Frame) (hkind : f.kind = f'.kind)
    (hname : f.className = f'.className) (hclass : h.thrownClass? f = h'.thrownClass? f') :
    g.handler? h f = g.handler? h' f' := by
  cases g with
  | guard handlers =>
      have hcatches : ∀ k : Handler, h.catches k.className f = h'.catches k.className f' :=
        fun k => catches_congr k.className hkind hname hclass
      simp only [Frame.handler?, hcatches]
  | _ => rfl

theorem Shows.scopes {v : Value} (hshows : h.Shows registry f h' v) : h'.scopes = h.scopes := by
  cases hshows <;> rfl

/-- A fresh object has no field yet, so the message gets a box of its own. -/
theorem newError_eq (h : Heap) (c : Class) (message : String) :
    h.newError c message =
      ({ h with
        objects := h.objects.push ⟨c, [("message", h.boxes.size)], none⟩
        boxes := h.boxes.push (.text message) }, h.objects.size) := by
  simp only [newError, newObject, setField, field?, object, newBox,
    Array.getD_eq_getD_getElem?, Array.getElem?_push_size, Option.getD_some, Bindings.get?_nil]
  congr 2
  refine Array.ext (by simp) fun i hi hi' => ?_
  rw [Array.getElem_modify, Array.getElem_push]
  grind [Bindings.set]

theorem shows_exception (h : Heap) (registry : Registry) (f : Failure) :
    h.Shows registry f (h.exception registry f).1 (h.exception registry f).2 := by
  unfold exception
  split
  · next r hpayload => exact .thrown hpayload
  · next hpayload =>
      split
      · next c hclass =>
          rw [newError_eq]
          exact .fresh hpayload hclass
      · next hclass => exact .bare hpayload hclass

end Heap

namespace Machine

variable {s : Setting} {w : World} {ws : List World} {m m' m₀ : Machine} {env : Env}
  {goal : Shape} {base : Nat}

/-! ## Taking frames off -/

/-- A machine takes one step in each of the given worlds. Every step goes on at once, takes the
frame on top off and does nothing to the world but set free the lock that this frame held. -/
inductive Sheds (s : Setting) : List World → Machine → Machine → Prop
  | stay (m : Machine) : Sheds s [] m m
  | go {w : World} {ws : List World} {m m₁ m' : Machine} {g : Frame} {fs : List Frame}
      (hframes : m.frames = g :: fs) (htaken : m₁.frames = fs)
      (hstep : m.step s w = ⟨.next, w.releaseAll g.lock?.toList, m₁⟩) (hrest : Sheds s ws m₁ m') :
      Sheds s (w :: ws) m m'

/-- A failure takes off a frame that has no handler for it. -/
theorem step_of_unhandled (hframes : m.frames = g :: fs) (hsignal : m.signal = .leave (.failWith f))
    (hnone : g.handler? w.heap f = none) :
    ∃ m₁, m.step s w = ⟨.next, w.releaseAll g.lock?.toList, m₁⟩ ∧ m₁.frames = fs ∧
      m₁.signal = .leave (.failWith (f.leavingAll [g])) := by
  obtain ⟨frames, signal, scopes, depth⟩ := m
  change frames = g :: fs at hframes
  change signal = _ at hsignal
  subst hframes hsignal
  cases g with
  | guard handlers =>
      have hstep : step s w ⟨.guard handlers :: fs, .leave (.failWith f), scopes, depth⟩ =
          ⟨.next, w, ⟨fs, .leave (.failWith f), scopes, depth⟩⟩ := by
        change handle s w ⟨fs, .run, scopes, depth⟩ f handlers = _
        rw [handle]
        change handlers.find? _ = none at hnone
        rw [hnone]
        rfl
      refine ⟨_, hstep, rfl, ?_⟩
      rw [Failure.leavingAll_of_no_call rfl]
  | supply c rest => exact ⟨_, rfl, rfl, rfl⟩
  | running c => exact ⟨_, rfl, rfl, rfl⟩
  | _ =>
      refine ⟨_, rfl, rfl, ?_⟩
      rw [Failure.leavingAll_of_no_call rfl]
      rfl

/-- Frames without a handler for a failure are taken off one after the other. -/
theorem sheds_of_unhandled {above rest : List Frame} (hframes : m.frames = above ++ rest)
    (hsignal : m.signal = .leave (.failWith f)) (hlength : ws.length = above.length)
    (hnone : ∀ g ∈ above, ∀ w ∈ ws, g.handler? w.heap f = none) :
    ∃ m', Sheds s ws m m' ∧ m'.frames = rest ∧
      m'.signal = .leave (.failWith (f.leavingAll above)) := by
  induction above generalizing m f ws with
  | nil =>
      obtain rfl := List.eq_nil_of_length_eq_zero hlength
      refine ⟨m, .stay m, hframes, ?_⟩
      rw [hsignal, Failure.leavingAll_nil]
  | cons g above ih =>
      obtain ⟨w, ws, rfl⟩ := List.exists_cons_of_length_eq_add_one hlength
      obtain ⟨m₁, hstep, htaken, hsignal₁⟩ := step_of_unhandled (s := s) hframes hsignal
        (hnone g List.mem_cons_self w List.mem_cons_self)
      -- Leaving a call does not change what deals with the failure.
      have hnone₁ : ∀ g' ∈ above, ∀ v ∈ ws, g'.handler? v.heap (f.leavingAll [g]) = none := by
        intro g' hg' v hv
        have hsame : g'.handler? v.heap (f.leavingAll [g]) = g'.handler? v.heap f :=
          Heap.handler?_congr g' rfl rfl rfl
        rw [hsame]
        exact hnone g' (List.mem_cons_of_mem _ hg') v (List.mem_cons_of_mem _ hv)
      obtain ⟨m', hrest, hframes', hsignal'⟩ := ih htaken hsignal₁ (Nat.succ.inj hlength) hnone₁
      refine ⟨m', .go hframes htaken hstep hrest, hframes', ?_⟩
      rw [hsignal', Failure.leavingAll_append, List.singleton_append]

theorem Sheds.frames_length (h : Sheds s ws m m') :
    m.frames.length = m'.frames.length + ws.length := by
  induction h with
  | stay m => rfl
  | go hframes htaken _ _ ih =>
      rw [hframes, List.length_cons, ← htaken, ih, List.length_cons]
      omega

theorem Sheds.stepsAbove (h : Sheds s ws m m') : StepsAbove s m'.frames.length m m' := by
  induction h with
  | stay m => exact .refl
  | @go w ws m m₁ m' g fs hframes htaken hstep hrest ih =>
      refine .head ⟨?_, w, by rw [hstep], by rw [hstep]; nofun⟩ ih
      have hlength := hrest.frames_length
      rw [hframes, List.length_cons, ← htaken, hlength]
      omega

/-- When frames have been taken off, what is left is what belongs to the frames below. -/
theorem Sheds.whole (h : Sheds s ws m m') (horder : m.InOrder goal base env) :
    m'.whole = m.lowest m'.frames.length := by
  rw [← (h.stepsAbove.lowest horder).1, lowest_length]

/-! ## Handlers -/

/-- A handler has been entered: its body is on top of the frames below, in a scope that is new,
inside the innermost one there was, and binds the error. -/
structure Entered (registry : Registry) (handler : Handler) (f : Failure) (below : List Frame)
    (w : World) (m : Machine) (r : Reply) : Prop where
  step : r.step = .next
  frames : r.machine.frames = .body handler.body true false :: below
  signal : r.machine.signal = .run
  scopes : r.machine.scopes = m.scopes.push (w.heap.scopes.size :: m.scopes.current)
  depth : r.machine.depth = m.depth
  world : ∃ heap v, w.heap.Shows registry f heap v ∧
    r.world = { w with heap := { heap with
      scopes := w.heap.scopes.push ⟨"handler", handler.vars v⟩ } }

theorem newScope_vars (h : Heap) (handler : Handler) (v : Value) :
    (h.newScope "handler").1.defineAll h.scopes.size (handler.vars v) =
      { h with scopes := h.scopes.push ⟨"handler", handler.vars v⟩ } := by
  unfold Handler.vars
  split
  · simp only [Heap.newScope, Heap.defineAll, Heap.define]
    congr 1
    refine Array.ext (by simp) fun i hi hi' => ?_
    rw [Array.getElem_modify, Array.getElem_push]
    grind [Bindings.set]
  · rfl

/-- A failure that reaches handlers of which one deals with it enters the first of these. -/
theorem step_of_handled {handlers : List Handler} {handler : Handler}
    (hframes : m.frames = .guard handlers :: fs) (hsignal : m.signal = .leave (.failWith f))
    (hfind : (Frame.guard handlers).handler? w.heap f = some handler) :
    Entered s.registry handler f fs w m (m.step s w) := by
  obtain ⟨frames, signal, scopes, depth⟩ := m
  change frames = _ at hframes
  change signal = _ at hsignal
  subst hframes hsignal
  have hshows := w.heap.shows_exception s.registry f
  have hsize : (w.heap.exception s.registry f).1.scopes = w.heap.scopes := hshows.scopes
  have hstep : step s w ⟨.guard handlers :: fs, .leave (.failWith f), scopes, depth⟩ =
      block { w with heap := (w.heap.exception s.registry f).1 } ⟨fs, .run, scopes, depth⟩
        "handler" (handler.vars (w.heap.exception s.registry f).2) handler.body := by
    change handle s w ⟨fs, .run, scopes, depth⟩ f handlers = _
    rw [handle]
    change handlers.find? _ = _ at hfind
    rw [hfind]
    rfl
  rw [hstep]
  refine ⟨rfl, rfl, rfl, ?_, rfl, _, _, hshows, ?_⟩
  · change ScopeStack.push _ ((w.heap.exception s.registry f).1.scopes.size :: _) = _
    rw [hsize]
  · rw [← hsize, ← newScope_vars]
    rfl

/-! ## Wherever a machine gets to -/

/-- When a step ends with the machine leaving, the frame on top has gone, or it is left in turn, or
it is a body whose statement is left. -/
theorem becomes_of_leave {limit depth : Nat} {sig : Signal} {st : Step} {gs : List Frame} {e : Exit}
    (h : g.Becomes limit depth sig st gs (.leave e)) :
    gs = [] ∨ (gs = [g] ∧ ∃ e', sig = .leave e') ∨ ∃ rest own, gs = [.body rest own true] := by
  cases h with
  | ends => exact Or.inl rfl
  | stops => exact Or.inr (Or.inl ⟨rfl, _, rfl⟩)
  | @begins stmt rest own gs _ hbegins =>
      refine Or.inr (Or.inr ⟨rest, own, ?_⟩)
      cases hbegins with
      | evaluates _ hevaluates => cases hevaluates; rfl
      | chooses hchooses => cases hchooses with | tests hevaluates => cases hevaluates; rfl
      | leaves => rfl
  | retests hevaluates => cases hevaluates; exact Or.inl rfl
  | binds _ n hsupplies => exact Or.inl hsupplies.of_leave
  | initialises hinitialises => cases hinitialises; exact Or.inl rfl
  | rejects hchooses => cases hchooses with | tests hevaluates => cases hevaluates; exact Or.inl rfl
  | bounds hevaluates => cases hevaluates; exact Or.inl rfl
  | supplies _ _ hsupplies => exact Or.inl hsupplies.of_leave
  | adopts hinitialises => cases hinitialises; exact Or.inl rfl

/-- A machine that is leaving a frame has no frames that have not begun yet: each of them waits for
something. -/
def Underway (m : Machine) : Prop :=
  ∀ e, m.signal = .leave e → ∀ g ∈ m.frames, g.awaits ≠ none

theorem Steps.underway (hstep : m.Steps s m') (horder : m.InOrder goal base env)
    (hm : m.Underway) : m'.Underway := by
  obtain ⟨w, rfl, hcrash⟩ := hstep
  intro e hleave
  cases hframes : m.frames with
  | nil =>
      rw [step_of_frames_nil hframes] at hleave ⊢
      exact hm e hleave
  | cons g fs =>
      obtain ⟨envs, depth, -, hbelow⟩ := horder.stands hframes
      obtain ⟨gs, hgs, hbecomes⟩ := horder.becomes hframes hcrash
      rw [hgs]
      refine List.forall_mem_append.mpr ⟨?_, hbelow.awaits⟩
      rw [hleave] at hbecomes
      rcases becomes_of_leave hbecomes with rfl | ⟨rfl, e', hsignal⟩ | ⟨rest, own, rfl⟩
      · exact List.forall_mem_nil _
      · have hg : g ∈ m.frames := hframes ▸ List.mem_cons_self
        exact List.forall_mem_singleton.mpr (hm e' hsignal g hg)
      · exact List.forall_mem_singleton.mpr (Option.some_ne_none _)

theorem Fresh.underway (hfresh : m₀.Fresh env) (hreach : Relation.ReflTransGen (Steps s) m₀ m) :
    m.Underway := by
  induction hreach with
  | refl => cases hfresh <;> exact fun e h => nomatch h
  | tail hbefore hstep ih =>
      obtain ⟨goal, horder, -⟩ := hfresh.reached hbefore
      exact hstep.underway horder ih

/-- Whatever a machine is carried to without a breakdown of the host, it gets to by steps. -/
theorem reaches_of_resume {fuel : Nat} {w' : World}
    (h : m.resume s fuel w = ⟨.suspended, w', m'⟩) : Relation.ReflTransGen (Steps s) m m' := by
  induction fuel generalizing w m with
  | zero =>
      cases h
      exact .refl
  | succ fuel ih =>
      have hsteps : ∀ {st : Step} {w₁ : World} {m₁ : Machine}, m.step s w = ⟨st, w₁, m₁⟩ →
          (∀ message, st ≠ .crash message) → m.Steps s m₁ := by
        intro st w₁ m₁ hstep hst
        exact ⟨w, congrArg Reply.machine hstep, by rwa [hstep]⟩
      rw [resume] at h
      split at h
      · next hstep => exact .head (hsteps hstep nofun) (ih h)
      · next hstep =>
          cases h
          exact .single (hsteps hstep nofun)
      · next hstep =>
          cases h
          exact .single (hsteps hstep nofun)
      · cases h
      · cases h

end Machine

end Statute
