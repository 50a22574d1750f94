import Statute.Proofs.Concurrency.Interleaving
import Statute.Proofs.Machine.Origins

/-!
# Internal failures of a run

In whatever order machines work, none of them gets to a state that it cannot go on from: every frame
is a stage of a statement that is there, or belongs to a call or an expression; every value goes to
the frame right below the one that it comes from; and nothing else is handed on.

So no machine raises an internal failure of its own. An internal failure that is under way, or that
a task has ended with, arose earlier in the run: a program threw it, an extension of the host
answered with it, or the host broke down.
-/

namespace Statute

open Relation (ReflTransGen)

namespace Machine

variable {s : Setting} {w : World} {m m' m₀ : Machine} {env : Env} {goal : Shape} {base : Nat}
  {f : Frame} {fs : List Frame}

/-- What every step of a machine can rely on, where `m₀` is what the machine began as. -/
structure Faultless (s : Setting) (m m₀ : Machine) : Prop where
  /-- Every frame stands where what it carries out is written. -/
  placed : Placed (fun b => m₀.frames = [.body b false false]) m.frames
  /-- No frame that waits for a value goes on without one. -/
  runs : ∀ f fs, m.signal = .run → m.frames = f :: fs → f.goesOn = true
  /-- A value is for a frame that waits for one. -/
  receives : ∀ v f fs, m.signal = .value v → m.frames = f :: fs → f.awaits = some .value
  /-- A value comes from the frame right above, and what a call is left with is the value that is
  returned. -/
  yields : ∀ m' v f fs, m.frames = f :: fs → m.Steps s m' → m'.signal = .value v →
    m'.frames = fs ∧ f.result = .value ∧ ∀ e, m.signal = .leave e → e = .returnWith v
  /-- A frame that comes to a value does not end without one. -/
  ends : ∀ m' f, m.frames = f :: m'.frames → m.Steps s m' → m'.signal = .run →
    f.result = .statement
  /-- An internal failure is one that the machine comes upon. -/
  fails : ∀ w f, (m.step s w).machine.signal = .leave (.failWith f) → f.kind = .internal →
    ∃ g, m.Meets s w g ∧ f.core = g.core

/-- The shape of what a frame comes to can be read off the signal that it is taken off with. -/
theorem Steps.result_of_top (hstep : m.Steps s m') (horder : m.InOrder goal base env)
    (hframes : m.frames = f :: m'.frames) :
    (m'.signal = .run → f.result = .statement) ∧
      ∀ v, m'.signal = .value v → f.result = .value := by
  obtain ⟨w, rfl, hcrash⟩ := hstep
  obtain ⟨own, outer, depth, hm, -, -, -, htop⟩ := horder.top hframes
  set m₁ : Machine := ⟨[f], m.signal, ⟨outer.current, own⟩, m.depth⟩ with hm₁
  -- The frame on top takes the step by itself, and the others are below.
  have habove : m.step s w = (m₁.step s w).above (m.step s w).machine.frames outer := by
    conv_lhs => rw [hm]
    exact step_above htop (List.cons_ne_nil _ _)
  have hnil : (m₁.step s w).machine.frames = [] :=
    List.append_left_eq_self.mp (congrArg (fun r => r.machine.frames) habove).symm
  have hsignal : (m.step s w).machine.signal = (m₁.step s w).machine.signal :=
    congrArg (fun r => r.machine.signal) habove
  have hnext : (m₁.step s w).machine.InOrder f.result depth outer.current := by
    refine Steps.inOrder (s := s) ⟨w, rfl, fun message h => hcrash message ?_⟩ htop
    exact (congrArg (fun r => r.step) habove).trans h
  have hsend := hnext.2
  rw [hnil, ← hsignal] at hsend
  refine ⟨fun h => ?_, fun v h => ?_⟩
  · rw [h] at hsend
    exact hsend.of_nil.1.symm
  · rw [h] at hsend
    exact hsend.of_nil.1.symm

/-- The only value that is handed on when something is left early is the one that is returned. -/
theorem exit_of_value {e : Exit} {v : Value} (hframes : m.frames = f :: fs)
    (hsignal : m.signal = .leave e) (hvalue : (m.step s w).machine.signal = .value v) :
    e = .returnWith v := by
  simp only [step, hframes, hsignal] at hvalue
  unfold unwind at hvalue
  split at hvalue
  · contradiction
  · contradiction
  · rw [← Signal.value.inj hvalue]
  · contradiction
  · split at hvalue
    · simp only [handle] at hvalue
      split at hvalue <;> contradiction
    · split at hvalue <;> contradiction
    · split at hvalue <;> contradiction
    · contradiction

theorem Fresh.placed (h : m.Fresh env) :
    Placed (fun b => m.frames = [.body b false false]) m.frames := by
  cases h with
  | body b => exact .body .nil (.start rfl) List.suffix_rfl
  | code c => exact .other .nil rfl trivial
  | call callee args => exact .other .nil rfl trivial

theorem placed_of_reached (hfresh : m₀.Fresh env) (hreach : ReflTransGen (Steps s) m₀ m) :
    Placed (fun b => m₀.frames = [.body b false false]) m.frames := by
  induction hreach with
  | refl => exact hfresh.placed
  | tail _ hstep ih =>
      obtain ⟨w, rfl, -⟩ := hstep
      exact placed_step ih

/-- Wherever a machine gets to by steps, in whatever worlds, it has all that it goes by. -/
theorem Fresh.faultless (hfresh : m₀.Fresh env) (hreach : ReflTransGen (Steps s) m₀ m) :
    m.Faultless s m₀ := by
  obtain ⟨goal, horder, -⟩ := hfresh.reached hreach
  have hplaced := placed_of_reached hfresh hreach
  refine ⟨hplaced, ?_, ?_, ?_, ?_, ?_⟩
  · intro f fs hsignal hframes
    have h := horder.2
    rw [hsignal, hframes] at h
    exact h.1
  · intro v f fs hsignal hframes
    have h := horder.2
    rw [hsignal, hframes] at h
    exact (Upholds.of_cons h).1
  · intro m' v f fs hframes hstep hvalue
    have hbelow : m'.frames = fs := by
      obtain ⟨w, rfl, -⟩ := hstep
      exact (horder.within_step (s := s) (w := w) hplaced hframes).value v hvalue
    refine ⟨hbelow, (hstep.result_of_top horder (by rw [hframes, hbelow])).2 v hvalue, ?_⟩
    obtain ⟨w, rfl, -⟩ := hstep
    exact fun e hsignal => exit_of_value hframes hsignal hvalue
  · intro m' f hframes hstep hrun
    exact (hstep.result_of_top horder hframes).1 hrun
  · intro w f hf hinternal
    cases hframes : m.frames with
    | nil =>
        rw [step_of_frames_nil hframes] at hf
        exact ⟨f, .underWay hf, rfl⟩
    | cons g fs => exact ((horder.within_step hplaced hframes).failure f hf).meets hinternal

theorem signal_of_outcome {f : Failure} (h : m.outcome = .error f) :
    m.signal = .leave (.failWith f) := by
  unfold outcome at h
  split at h
  · contradiction
  · contradiction
  · next g hsignal => rw [hsignal, Except.error.inj h]
  · contradiction

/-- A machine that was begun for something and got to where it is by steps. -/
def Reached (s : Setting) (m : Machine) : Prop :=
  ∃ env m₀, m₀.Fresh env ∧ ReflTransGen (Steps s) m₀ m

theorem Reached.cause {g : Failure} (h : m.Reached s)
    (hsignal : (m.step s w).machine.signal = .leave (.failWith g)) : m.Cause s w g := by
  obtain ⟨env, m₀, hfresh, hreach⟩ := h
  obtain ⟨goal, horder, -⟩ := hfresh.reached hreach
  cases hframes : m.frames with
  | nil =>
      rw [step_of_frames_nil hframes] at hsignal
      exact .underWay hsignal rfl rfl
  | cons f fs =>
      exact (horder.within_step (placed_of_reached hfresh hreach) hframes).failure g hsignal

theorem Reached.breaks {message : Option String} (h : m.Reached s)
    (hcrash : (m.step s w).step = .crash message) : m.Breaks s w.heap message := by
  obtain ⟨env, m₀, hfresh, hreach⟩ := h
  obtain ⟨goal, horder, -⟩ := hfresh.reached hreach
  cases hframes : m.frames with
  | nil =>
      rw [step_of_frames_nil hframes] at hcrash
      contradiction
  | cons f fs =>
      exact (horder.within_step (placed_of_reached hfresh hreach) hframes).crash message hcrash

end Machine

namespace System

variable {s : Setting} {σ σ' σ₀ : System} {Known : Failure → Prop}

/-- A failure is under way in one of the machines, or a task has ended with it. -/
inductive Carries (σ : System) (f : Failure) : Prop
  | underWay {m : Machine} (hm : m ∈ σ.live) (hsignal : m.signal = .leave (.failWith f))
  | kept {t : TaskRef} (houtcome : (σ.world.task t).outcome = some (.error f))

/-- A failure arises outside of the machines: a program throws it, an extension of the host answers
with it, or the host breaks down during a task. -/
inductive Raises (s : Setting) (σ : System) (f : Failure) : Prop
  | raised {m : Machine} (hm : m ∈ σ.live) (hraises : m.Raises s σ.world.heap f)
  | broken {m : Machine} {message : Option String} {task : Task} (hm : m ∈ σ.live)
      (hbreaks : m.Breaks s σ.world.heap message)
      (hbreakdown : task.breakdown s.config.debug message = .error f)

def Vouched (s : Setting) (Known : Failure → Prop) (m : Machine) : Prop :=
  m.Reached s ∧ ∀ f, m.signal = .leave (.failWith f) → Known f

/-- Whatever failure comes upon a machine from outside is known. -/
def Warned (s : Setting) (Known : Failure → Prop) (h : Heap) (m : Machine) : Prop :=
  (∀ f, m.Raises s h f → Known f) ∧
    ∀ message (task : Task) f, m.Breaks s h message →
      task.breakdown s.config.debug message = .error f → Known f

/-- A machine that begins has no failure yet. -/
theorem vouched_of_fresh {m : Machine} {env : Env} (hfresh : m.Fresh env) : Vouched s Known m := by
  refine ⟨⟨env, m, hfresh, .refl⟩, fun f hf => ?_⟩
  cases hfresh <;> contradiction

/-- It is enough to know the failures of the host, the plain ones and what is thrown. -/
theorem warned_of_host {h : Heap} {m : Machine}
    (hhost : ∀ name args text f, s.host name args text = .failure f → Known f)
    (hplain : ∀ f : Failure, f.Plain → Known f)
    (hthrown : ∀ {site fs v f}, m.signal = .value v → m.frames = .act .raise site :: fs →
      h.thrown v = .ok f → Known f) : Warned s Known h m := by
  refine ⟨fun f hraises => ?_, fun message task f _ hf => hplain f (Task.plain_of_breakdown hf)⟩
  cases hraises with
  | thrown hsignal hframes hv => exact hthrown hsignal hframes hv
  | answered _ hanswer => exact hhost _ _ _ f hanswer.2

/-- What is known of failures does not depend on their places, and it holds of those that machines
make up by themselves. These are plain, and none of them is internal. -/
structure Covers (Known : Failure → Prop) : Prop where
  core : ∀ f g, f.core = g.core → Known g → Known f
  made : ∀ f : Failure, f.Plain → f.kind ≠ .internal → Known f

theorem Covers.cause {w : World} {m : Machine} {f : Failure} (h : Covers Known)
    (hcause : m.Cause s w f) (hmeets : ∀ g, m.Meets s w g → Known g) : Known f := by
  cases hcause with
  | underWay hsignal hcore _ => exact h.core _ _ hcore (hmeets _ (.underWay hsignal))
  | outside => exact h.made _ (Failure.plain_new _ _) nofun
  | @arisen top fs g hframes harises _ =>
      refine h.core _ _ (Failure.core_atCall g _) ?_
      cases harises with
      | ordinary hordinary => exact h.made g hordinary.plain hordinary.kind.1
      | met hmet => exact hmeets g hmet
      | refused _ hcompile =>
          refine h.made g (Expression.plain_of_compile hcompile) ?_
          rw [(Expression.failure_of_compile hcompile).1]
          decide

/-- Steps keep all failures known, as long as those that come from outside are known. -/
theorem keeps_known (hcovers : Covers Known) :
    Keeps s (Warned s Known) (fun _ => True) (Vouched s Known)
      fun o => ∀ f, o = .error f → Known f where
  heap _ _ _ := trivial
  machine := by
    intro w m _ htasks ⟨hreached, hknown⟩ hwarned hcrash
    refine ⟨?_, fun f hf => hcovers.cause (hreached.cause hf) fun g hmeets => ?_⟩
    · obtain ⟨env, m₀, hfresh, hreach⟩ := hreached
      exact ⟨env, m₀, hfresh, hreach.tail ⟨w, rfl, hcrash⟩⟩
    · cases hmeets with
      | underWay hsignal => exact hknown g hsignal
      | raised hraises => exact hwarned.1 g hraises
      | awaited _ _ _ houtcome => exact htasks.outcome _ _ houtcome g rfl
  entrusts := by
    intro w m callee args _ _ _
    exact ⟨⟨_, _, .call callee args, .refl⟩, nofun⟩
  outcome := by
    intro m hm _ f hf
    exact hm.2 f (Machine.signal_of_outcome hf)
  breakdown := by
    intro w m message hm hwarned hcrash task f hf
    exact hwarned.2 message task f (hm.1.breaks hcrash) hf
  abandonment := by
    intro t task f hf
    obtain rfl := Except.error.inj hf
    exact hcovers.made _ (Failure.plain_new _ _) nofun
  locks _ _ := trivial

/-- A failure has arisen before: at some point of the run something raised what it says. -/
def Arose (s : Setting) (σ₀ σ : System) (f : Failure) : Prop :=
  ∃ σ₁ g, Runs s (fun m => ∃ env, m.Fresh env) (fun _ => True) σ₀ σ₁ ∧
    Runs s (fun m => ∃ env, m.Fresh env) (fun _ => True) σ₁ σ ∧ σ₁.Raises s g ∧ f.core = g.core

theorem Runs.vouched (hlive : σ₀.live = []) (hclear : ∀ f, σ₀.Carries f → f.kind ≠ .internal)
    (hruns : Runs s (fun m => ∃ env, m.Fresh env) (fun _ => True) σ₀ σ) :
    σ.Holds (fun _ => True) (Vouched s fun f => f.kind = .internal → Arose s σ₀ σ f)
      fun o => ∀ f, o = .error f → f.kind = .internal → Arose s σ₀ σ f := by
  induction hruns with
  | refl =>
      have hnone : ∀ m, m ∉ σ₀.live := by simp [hlive]
      refine ⟨trivial, ⟨fun t m hm => ?_, fun t o ho f hf hinternal => ?_⟩, fun m hm => ?_⟩
      · exact absurd (mem_live_iff.mpr (Or.inr ⟨t, hm⟩)) (hnone m)
      · subst hf
        exact absurd hinternal (hclear f (.kept ho))
      · exact absurd (mem_live_iff.mpr (Or.inl hm)) (hnone m)
  | @tail σ σ' hbefore hmove ih =>
      -- What has arisen before the move has arisen before its end.
      have hlater : ∀ f, Arose s σ₀ σ f → Arose s σ₀ σ' f := by
        rintro f ⟨σ₁, g, hfirst, hthen, hraises, heq⟩
        exact ⟨σ₁, g, hfirst, hthen.tail hmove, hraises, heq⟩
      have hnow : ∀ f, σ.Raises s f → Arose s σ₀ σ' f := fun f hf =>
        ⟨σ, f, hbefore, .single hmove, hf, rfl⟩
      have hcovers : Covers fun f => f.kind = .internal → Arose s σ₀ σ' f := by
        refine ⟨fun f g heq hg hinternal => ?_, fun f _ hkind hinternal => absurd hinternal hkind⟩
        obtain ⟨σ₁, k, hfirst, hthen, hraises, heq'⟩ :=
          hg ((Failure.kind_of_core heq).symm.trans hinternal)
        exact ⟨σ₁, k, hfirst, hthen, hraises, heq.trans heq'⟩
      refine hmove.holds (keeps_known hcovers) ?_ (fun _ _ _ _ _ => trivial) ?_ ?_
      · exact fun m ⟨env, hfresh⟩ => vouched_of_fresh hfresh
      · intro m hm
        exact ⟨fun f hf _ => hnow f (.raised hm hf),
          fun message task f hbreaks hf _ => hnow f (.broken hm hbreaks hf)⟩
      · refine ih.imp (fun m ⟨hreached, hknown⟩ => ?_) fun o ho f hf hinternal => ?_
        · exact ⟨hreached, fun f hf hinternal => hlater f (hknown f hf hinternal)⟩
        · exact hlater f (ho f hf hinternal)

/-- Wherever a machine gets to by steps, it has all that it goes by; the machines of a run are such
machines, in whatever order they take their steps. And every internal failure in a run is one that a
program has thrown, that an extension of the host has answered with, or that a breakdown of the host
has left. -/
theorem Runs.internal_failures_arose (hlive : σ₀.live = [])
    (hclear : ∀ f, σ₀.Carries f → f.kind ≠ .internal)
    (hruns : Runs s (fun m => ∃ env, m.Fresh env) (fun _ => True) σ₀ σ) :
    (∀ env m₀ m, m₀.Fresh env → ReflTransGen (Machine.Steps s) m₀ m → m.Faultless s m₀) ∧
      (∀ m ∈ σ.live, m.Reached s) ∧
      ∀ f, σ.Carries f → f.kind = .internal → Arose s σ₀ σ f := by
  have hvouched := Runs.vouched hlive hclear hruns
  refine ⟨fun env m₀ m hfresh hreach => hfresh.faultless hreach,
    fun m hm => (hvouched.of_live hm).1, fun f hf hinternal => ?_⟩
  cases hf with
  | underWay hm hsignal => exact (hvouched.of_live hm).2 f hsignal hinternal
  | kept houtcome => exact hvouched.tasks.outcome _ _ houtcome f rfl hinternal

end System

end Statute
