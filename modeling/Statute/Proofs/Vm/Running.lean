import Statute.Proofs.Machine.Nesting
import Statute.Proofs.Vm.Refinement

/-!
# Runs of the virtual machine

A cooperative virtual machine that runs until it does not go on, and the machine that it stands for,
when it is resumed, come to the same: to a checkpoint, to the end or to a breakdown of the host,
with the same world, and with the machine that the virtual machine stands for by then. If one of
them never comes to anything, the other one does not either.

A step of the virtual machine that the machine does not take lowers the rank, so only finitely many
of them come in a row.
-/

namespace Statute

open VmReply (Tracks)

theorem VmReply.Tracks.mono {s : Setting} {n n' : Nat} {q : VmReply} {r : Reply}
    (h : Tracks s n q r) (hle : n ≤ n') : Tracks s n' q r := by
  induction h with
  | alike hst hmachine hsettled => exact .alike hst hmachine hsettled
  | silent hnext hlt => exact .silent hnext (Nat.lt_of_lt_of_le hlt hle)
  | later _ ih => exact .later ih

/-! ## Where steps lead to -/

/-- How far a machine is carried where a reply does not go on. -/
def Reply.carried (r : Reply) : Carried :=
  ⟨match r.step with
    | .next => .suspended
    | .pause => .suspended
    | .blocked => .suspended
    | .done => .finished
    | .crash message => .crashed message, r.world, r.machine⟩

/-- How far the machine is carried that a virtual machine stands for. -/
def VmReply.carried (r : VmReply) : Carried :=
  ⟨match r.step with
    | .goOn => .suspended
    | .yield => .suspended
    | .done => .finished
    | .crash message => .crashed message, r.world, r.vm.machine⟩

/-- After a reply, a machine takes steps as long as they go on, and this is where they lead to. -/
inductive Reply.EndsIn (s : Setting) : Reply → Carried → Prop
  | stop {r : Reply} (h : r.step ≠ .next) : EndsIn s r r.carried
  | go {w : World} {m : Machine} {c : Carried} (h : EndsIn s (m.step s w) c) :
      EndsIn s ⟨.next, w, m⟩ c

namespace Machine

variable {s : Setting} {w : World} {m : Machine} {c : Carried}

theorem resume_of_endsIn {r : Reply} (h : r.EndsIn s c) :
    ∀ {w : World} {m : Machine}, m.step s w = r → ∃ n, ∀ k, m.resume s (n + k) w = c := by
  induction h with
  | @stop r hstop =>
      intro w m hstep
      refine ⟨1, fun k => ?_⟩
      rw [Nat.add_comm, resume, hstep]
      obtain ⟨st, w', m'⟩ := r
      cases st with
      | next => contradiction
      | _ => rfl
  | @go w' m' c _ ih =>
      intro w m hstep
      obtain ⟨n, hn⟩ := ih rfl
      refine ⟨n + 1, fun k => ?_⟩
      rw [Nat.add_right_comm, resume, hstep]
      exact hn k

end Machine

namespace Vm

variable {s : Setting} {w : World} {v : Vm} {goal : Shape} {c : Carried}

/-- A machine in order stays so. -/
theorem Sound.step (h : v.Sound goal) (hcrash : ∀ message, (v.step s w).step ≠ .crash message) :
    (v.step s w).vm.Sound goal := by
  cases hframes : v.frames with
  | nil =>
      rw [step_of_frames_nil hframes]
      exact h
  | cons f fs => exact (h.within_step hframes).sound hcrash

/-- A machine that is settled takes its next step. -/
theorem Settled.tracks (h : v.Settled) (hsound : v.Sound goal) (hmode : v.mode = .cooperative) :
    Tracks s v.rank (v.step s w) (v.machine.step s w) :=
  h s w ▸ hsound.tracks_step hmode

theorem sound_of_goOn {w₁ : World} {v₁ : Vm} (h : v.step s w = ⟨.goOn, w₁, v₁⟩)
    (hsound : v.Sound goal) (hmode : v.mode = .cooperative) :
    v₁.Sound goal ∧ v₁.mode = .cooperative := by
  have hsound₁ := hsound.step (s := s) (w := w) (by rw [h]; exact nofun)
  have hmode₁ := mode_step (s := s) (w := w) hmode
  rw [h] at hsound₁ hmode₁
  exact ⟨hsound₁, hmode₁⟩

/-- A run gets past the steps that the machine does not take. -/
theorem exists_awake {r : Reply} (hsound : v.Sound goal) (hmode : v.mode = .cooperative)
    (htracks : Tracks s v.rank (v.step s w) r) :
    ∃ (n : Nat) (w₁ : World) (v₁ : Vm), v₁.Sound goal ∧ v₁.mode = .cooperative ∧
      Tracks s 0 (v₁.step s w₁) r ∧ ∀ fuel, v.run s (n + fuel) w = v₁.run s fuel w₁ := by
  induction hrank : v.rank using Nat.strongRecOn generalizing w v r with
  | ind rank ih =>
      rw [hrank] at htracks
      generalize hstep : v.step s w = q at htracks
      induction htracks with
      | alike hst hmachine hsettled =>
          exact ⟨0, w, v, hsound, hmode, hstep ▸ .alike hst hmachine hsettled,
            fun fuel => by rw [Nat.zero_add]⟩
      | @silent w₁ v₁ r hnext hlt =>
          obtain ⟨hsound₁, hmode₁⟩ := sound_of_goOn hstep hsound hmode
          obtain ⟨n, w₂, v₂, hsound₂, hmode₂, htracks₂, hrun⟩ :=
            ih v₁.rank hlt hsound₁ hmode₁ (hnext ▸ hsound₁.tracks_step hmode₁) rfl
          refine ⟨n + 1, w₂, v₂, hsound₂, hmode₂, htracks₂, fun fuel => ?_⟩
          rw [Nat.add_right_comm, run_goOn hstep, hrun]
      | later _ ih' =>
          obtain ⟨n, w₁, v₁, hsound₁, hmode₁, htracks₁, hrun⟩ := ih' hstep
          exact ⟨n, w₁, v₁, hsound₁, hmode₁, .later htracks₁, hrun⟩

/-- Where the steps of the machine end, a run of the virtual machine ends. -/
theorem exists_run_of_endsIn {r : Reply} (h : r.EndsIn s c) :
    ∀ {w : World} {v : Vm}, v.Sound goal → v.mode = .cooperative →
      Tracks s v.rank (v.step s w) r →
      ∃ fuel, (v.run s fuel w).step ≠ .goOn ∧ (v.run s fuel w).carried = c := by
  induction h with
  | @stop r hstop =>
      intro w v hsound hmode htracks
      obtain ⟨n, w₁, v₁, -, -, htracks₁, hrun⟩ := exists_awake hsound hmode htracks
      generalize hstep : v₁.step s w₁ = q at htracks₁
      cases htracks₁ with
      | @alike st st' w₂ v₂ m hst hmachine =>
          have hgoes : (v₁.step s w₁).step ≠ .goOn := by
            rw [hstep]
            rintro rfl
            cases hst
            exact hstop rfl
          refine ⟨n + 1, ?_⟩
          rw [hrun, run_stop hgoes, hstep]
          refine ⟨hstep ▸ hgoes, ?_⟩
          subst hmachine
          cases hst <;> rfl
      | silent _ hlt => exact absurd hlt (Nat.not_lt_zero _)
      | later => exact absurd rfl hstop
  | @go w' m c _ ih =>
      intro w v hsound hmode htracks
      obtain ⟨n, w₁, v₁, hsound₁, hmode₁, htracks₁, hrun⟩ := exists_awake hsound hmode htracks
      generalize hstep : v₁.step s w₁ = q at htracks₁
      cases htracks₁ with
      | @alike st st' w₂ v₂ m hst hmachine hsettled =>
          cases hst
          obtain ⟨hsound₂, hmode₂⟩ := sound_of_goOn hstep hsound₁ hmode₁
          subst hmachine
          obtain ⟨fuel, hfuel⟩ := ih hsound₂ hmode₂ (hsettled.tracks hsound₂ hmode₂)
          refine ⟨n + (fuel + 1), ?_⟩
          rwa [hrun, run_goOn hstep]
      | silent _ hlt => exact absurd hlt (Nat.not_lt_zero _)
      | later h =>
          obtain ⟨fuel, hfuel⟩ := ih hsound₁ hmode₁ (hstep ▸ h.mono (Nat.zero_le _))
          exact ⟨n + fuel, by rwa [hrun]⟩

/-- A cooperative machine that is begun, or that has come to a checkpoint. -/
structure Idle (goal : Shape) (v : Vm) : Prop where
  sound : v.Sound goal
  mode : v.mode = .cooperative
  settled : v.Settled

/-- Where a run of the virtual machine ends, the steps of the machine end, and the virtual machine
can be resumed. -/
theorem endsIn_of_run {r : Reply} {fuel : Nat} (hsound : v.Sound goal)
    (hmode : v.mode = .cooperative) (htracks : Tracks s v.rank (v.step s w) r)
    (hstop : (v.run s fuel w).step ≠ .goOn) :
    r.EndsIn s (v.run s fuel w).carried ∧
      ((∀ message, (v.run s fuel w).step ≠ .crash message) → (v.run s fuel w).vm.Idle goal) := by
  induction fuel generalizing w v r with
  | zero => exact absurd rfl hstop
  | succ fuel ih =>
      generalize hstep : v.step s w = q at htracks
      induction htracks with
      | @alike st st' w₁ v₁ m hst hmachine hsettled =>
          subst hmachine
          by_cases hgoes : st = .goOn
          · subst hgoes
            cases hst
            obtain ⟨hsound₁, hmode₁⟩ := sound_of_goOn hstep hsound hmode
            rw [run_goOn hstep] at hstop ⊢
            obtain ⟨hends, hidle⟩ := ih hsound₁ hmode₁ (hsettled.tracks hsound₁ hmode₁) hstop
            exact ⟨.go hends, hidle⟩
          · rw [run_stop (by rwa [hstep])]
            refine ⟨?_, fun hcrash => ⟨hsound.step hcrash, mode_step hmode, hstep ▸ hsettled⟩⟩
            rw [hstep]
            cases hst <;> first | contradiction | exact .stop nofun
      | @silent w₁ v₁ r hnext _ =>
          obtain ⟨hsound₁, hmode₁⟩ := sound_of_goOn hstep hsound hmode
          rw [run_goOn hstep] at hstop ⊢
          exact ih hsound₁ hmode₁ (hnext ▸ hsound₁.tracks_step hmode₁) hstop
      | later _ ih' => exact (ih' hstep).imp_left .go

/-- A cooperative virtual machine that runs comes to what the machine is carried to that it stands
for, and can be resumed then, unless the host breaks down. What the steps of the machine end in, a
run of the virtual machine comes to. -/
theorem Idle.resume (h : v.Idle goal) (s : Setting) (w : World) :
    (∀ fuel, (v.run s fuel w).step ≠ .goOn →
      (∃ n, ∀ k, v.machine.resume s (n + k) w = (v.run s fuel w).carried) ∧
        ((∀ message, (v.run s fuel w).step ≠ .crash message) → (v.run s fuel w).vm.Idle goal)) ∧
    ∀ c, (v.machine.step s w).EndsIn s c →
      ∃ fuel, (v.run s fuel w).step ≠ .goOn ∧ (v.run s fuel w).carried = c := by
  have htracks := h.settled.tracks (s := s) (w := w) h.sound h.mode
  refine ⟨fun fuel hstop => ?_, fun c hends => exists_run_of_endsIn hends h.sound h.mode htracks⟩
  obtain ⟨hends, hidle⟩ := endsIn_of_run h.sound h.mode htracks hstop
  exact ⟨Machine.resume_of_endsIn hends rfl, hidle⟩

/-- A machine as it is begun, for a body, an expression or a call, comes to the given shape. -/
inductive Fresh (mode : Mode) : Shape → Vm → Prop
  | body (b : Body) : Fresh mode .statement (forBody b mode)
  | expression (c : Code) (env : Env) : Fresh mode .value (forExpression c env mode)
  | call (callee : Value) (args : List Value) (env : Env) :
      Fresh mode .value (forCall callee args env mode)

theorem Fresh.sound {mode : Mode} (h : v.Fresh mode goal) : v.Sound goal := by
  cases h with
  | body b => exact .runs rfl rfl (.cons rfl ⟨trivial, nofun, rfl, rfl⟩ .root)
  | expression c env => exact .runs rfl rfl (.cons rfl (VmFrame.sound_new trivial rfl rfl) .root)
  | call callee args env =>
      exact .runs rfl rfl (.cons rfl (VmFrame.sound_new trivial rfl rfl) .root)

theorem Fresh.idle (h : v.Fresh .cooperative goal) : v.Idle goal := by
  refine ⟨h.sound, ?_, ?_⟩
  · cases h <;> rfl
  · cases h <;> exact settled_of_top rfl fun _ _ _ => rfl

@[simp] theorem machine_forBody (b : Body) (mode : Mode) :
    (forBody b mode).machine = .ofBody World.globals b := rfl

@[simp] theorem machine_forExpression (c : Code) (env : Env) (mode : Mode) :
    (forExpression c env mode).machine = .ofCode env c := rfl

@[simp] theorem machine_forCall (callee : Value) (args : List Value) (env : Env) (mode : Mode) :
    (forCall callee args env mode).machine = .ofCall env callee args := rfl

theorem flow_machine (v : Vm) : v.machine.flow = v.flow := by
  simp only [Machine.flow, flow, machine, signal]
  rcases v.control with _ | (_ | _ | _ | _)
  · cases v.slot <;> rfl
  all_goals rfl

theorem Sound.outcome_machine (h : v.Sound goal) : v.machine.outcome = v.result := by
  simp only [Machine.outcome, result, machine, signal]
  cases hcontrol : v.control with
  | none => cases v.slot <;> rfl
  | some e =>
      rw [(h.left hcontrol).1]
      cases e <;> rfl

end Vm

end Statute
