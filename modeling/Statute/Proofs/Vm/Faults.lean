import Statute.Proofs.Concurrency.Provenance
import Statute.Proofs.Vm.Running

/-!
# Faults of the virtual machine

Wherever steps lead a virtual machine, in whatever worlds, no handler gets to a fault of the machine
itself. A step only fails internally if it comes upon an internal failure: one that is under way,
that the program throws, that an extension answers with or that a task has ended with. What tasks
end with goes back to the same, so in a run of a whole system an internal failure has been thrown by
a program or has come from the host.
-/

namespace Statute

open Relation (ReflTransGen)

namespace Vm

variable {s : Setting} {v v₀ : Vm} {mode : Mode} {goal : Shape}

/-- A machine takes a step in some world, and the host does not break down. -/
def Steps (s : Setting) (v v' : Vm) : Prop :=
  ∃ w, (v.step s w).vm = v' ∧ ∀ message, (v.step s w).step ≠ .crash message

/-- What every step of a machine can rely on. -/
structure Faultless (s : Setting) (v : Vm) : Prop where
  /-- Every frame has a kind, and what it goes by is there. -/
  sound : ∀ f ∈ v.frames, f.Sound
  /-- The slot is filled when the frame on top takes a value, and at no other time. -/
  slot : ∀ f fs, v.control = none → v.frames = f :: fs → v.slot.isSome = f.kind.takes
  /-- The slot is empty while something is left early. -/
  left : v.control.isSome → v.slot = none
  /-- A value comes from the frame right above, which has been popped, or from a statement that
  returns nothing. -/
  value : ∀ w f fs x, v.frames = f :: fs → (v.step s w).vm.slot = some x →
    (v.step s w).vm.frames = fs ∧ f.kind.result = .value ∨
      x = .empty ∧ ∃ g, (v.step s w).vm.frames = g :: fs ∧ g.IsBareReturn
  /-- An internal failure is one that the step comes upon. -/
  fails : ∀ w f, (v.step s w).vm.control = some (.failWith f) → v.Explains s w f
  /-- The machine breaks down if an extension does that is asked. -/
  breaks : ∀ w message, (v.step s w).step = .crash message → Breaks s w message

theorem sound_of_stacked {σ : Shape} {fs : List VmFrame} (h : Stacked goal σ fs) :
    ∀ f ∈ fs, f.Sound := by
  induction h with
  | root => simp
  | frame _ hsound _ ih => exact List.forall_mem_cons.mpr ⟨hsound, ih⟩

theorem Sound.frames (h : v.Sound goal) : ∀ f ∈ v.frames, f.Sound := by
  cases hframes : v.frames with
  | nil => simp
  | cons f fs =>
      cases hcontrol : v.control with
      | none =>
          obtain ⟨hsound, hbelow, -⟩ := h.top hcontrol hframes
          exact List.forall_mem_cons.mpr ⟨hsound, sound_of_stacked hbelow⟩
      | some e =>
          obtain ⟨-, k, hstacked, -⟩ := h.left hcontrol
          exact hframes ▸ sound_of_stacked hstacked

theorem Sound.faultless (h : v.Sound goal) : v.Faultless s where
  sound := h.frames
  slot f fs hcontrol hframes := (h.top hcontrol hframes).2.2.1
  left hcontrol := by
    obtain ⟨e, he⟩ := Option.isSome_iff_exists.mp hcontrol
    exact (h.left he).1
  value w f fs x hframes hx := (h.within_step hframes).value x hx
  fails w f hf := by
    cases hframes : v.frames with
    | nil =>
        rw [step_of_frames_nil hframes] at hf
        exact .of_core (.underWay hf) rfl
    | cons g fs => exact (h.within_step hframes).failure f hf
  breaks w message hcrash := by
    cases hframes : v.frames with
    | nil =>
        rw [step_of_frames_nil hframes] at hcrash
        contradiction
    | cons g fs => exact (h.within_step hframes).crash message hcrash

theorem Fresh.sound_of_steps (hfresh : v₀.Fresh mode goal) (hreach : ReflTransGen (Steps s) v₀ v) :
    v.Sound goal := by
  induction hreach with
  | refl => exact hfresh.sound
  | tail _ hstep ih =>
      obtain ⟨w, rfl, hcrash⟩ := hstep
      exact ih.step hcrash

end Vm

namespace System

variable {s : Setting} {σ σ₀ : System}

/-- Wherever a virtual machine gets to by steps, in either mode and in whatever worlds, it has all
that it goes by, and it does not fail internally by itself. Neither do the machines of a run, which
are carried as far as the virtual machines are that stand for them (`Vm.Idle.resume`): every
internal failure in a run is one that a program has thrown, that an extension of the host has
answered with, or that a breakdown of the host has left. -/
theorem Runs.internal_failures_come_from_outside (hlive : σ₀.live = [])
    (hclear : ∀ f, σ₀.Carries f → f.kind ≠ .internal)
    (hruns : Runs s (fun m => ∃ env, m.Fresh env) (fun _ => True) σ₀ σ) :
    (∀ mode goal v₀ v, Vm.Fresh mode goal v₀ → ReflTransGen (Vm.Steps s) v₀ v → v.Faultless s) ∧
      (∀ m ∈ σ.live, m.Reached s) ∧
      ∀ f, σ.Carries f → f.kind = .internal → Arose s σ₀ σ f := by
  obtain ⟨-, hreached, harose⟩ := Runs.internal_failures_arose hlive hclear hruns
  exact ⟨fun mode goal v₀ v hfresh hreach => (hfresh.sound_of_steps hreach).faultless, hreached,
    harose⟩

/-- A program throws the class of internal failures. After four steps the failure is under way, and
it arose when the class was thrown. -/
theorem Runs.internal_failures_come_from_outside_thrown :
    let registry : Registry := ⟨[("Oops", .classDef (Class.builtin .internal))], [], ""⟩
    let s : Setting := ⟨registry, default, Host.none⟩
    let m₀ := Machine.ofBody World.globals [.raise ⟨["Oops"], default⟩]
    let r₁ := m₀.step s (World.new default)
    let r₂ := r₁.machine.step s r₁.world
    let r₃ := r₂.machine.step s r₂.world
    let r₄ := r₃.machine.step s r₃.world
    ∃ f, r₄.machine.signal = .leave (.failWith f) ∧ f.kind = .internal ∧
      Arose s ⟨World.new default, []⟩ ⟨r₄.world, [r₄.machine]⟩ f := by
  intro registry s m₀ r₁ r₂ r₃ r₄
  have hcompile : Expression.compile ⟨["Oops"], default⟩ = .ok ⟨[.load "Oops"], default⟩ := by
    have hclassify : Token.classify ["Oops"] = .ok [.word "Oops"] := by cbv
    simp only [Expression.compile, Code.itemsOf, hclassify]
    rfl
  have h₁ : r₁ = ⟨.next, World.new default, ⟨[.eval [.load "Oops"] [] default,
      .act .raise default, .body [] false true], .run, ⟨World.globals, []⟩, 0⟩⟩ := by
    change Machine.evaluate _ _ _ _ = _
    rw [Machine.evaluate, hcompile]
    rfl
  have h₂ : r₂ = ⟨.next, World.new default, ⟨[.eval [] [.value (.classDef (.builtin .internal))]
      default, .act .raise default, .body [] false true], .run, ⟨World.globals, []⟩, 0⟩⟩ := by
    change Machine.step s r₁.world r₁.machine = _
    rw [h₁]
    rfl
  have h₃ : r₃ = ⟨.next, World.new default, ⟨[.act .raise default, .body [] false true],
      .value (.classDef (.builtin .internal)), ⟨World.globals, []⟩, 0⟩⟩ := by
    change Machine.step s r₂.world r₂.machine = _
    rw [h₂]
    rfl
  have h₄ : r₄ = ⟨.next, World.new default, ⟨[.body [] false true],
      .leave (.failWith ((Failure.new .internal "internal error").locate default)),
      ⟨World.globals, []⟩, 0⟩⟩ := by
    change Machine.step s r₃.world r₃.machine = _
    rw [h₃]
    rfl
  have hstep : ∀ w (m : Machine), (m.step s w).step = .next →
      Happens s (fun m => ∃ env, m.Fresh env) (fun _ => True) ⟨w, [m]⟩
        ⟨(m.step s w).world, [(m.step s w).machine]⟩ := by
    intro w m hnext
    refine .step [] m [] fun message => ?_
    rw [hnext]
    simp
  have hruns : Runs s (fun m => ∃ env, m.Fresh env) (fun _ => True) ⟨World.new default, []⟩
      ⟨r₄.world, [r₄.machine]⟩ := by
    have hstart : Runs s (fun m => ∃ env, m.Fresh env) (fun _ => True) ⟨World.new default, []⟩
        ⟨World.new default, [m₀]⟩ := .single (.start ⟨_, .body _⟩)
    exact (((hstart.tail (hstep _ m₀ (congrArg Reply.step h₁))).tail
      (hstep _ r₁.machine (congrArg Reply.step h₂))).tail
      (hstep _ r₂.machine (congrArg Reply.step h₃))).tail
      (hstep _ r₃.machine (congrArg Reply.step h₄))
  have hclear : ∀ f, (System.mk (World.new default) []).Carries f → f.kind ≠ .internal := by
    rintro f (hm | houtcome)
    · contradiction
    · contradiction
  have hsignal : r₄.machine.signal =
      .leave (.failWith ((Failure.new .internal "internal error").locate default)) := by rw [h₄]
  obtain ⟨-, -, harose⟩ := Runs.internal_failures_come_from_outside rfl hclear hruns
  exact ⟨_, hsignal, rfl, harose _ (.underWay (.head _) hsignal) rfl⟩

end System

end Statute
