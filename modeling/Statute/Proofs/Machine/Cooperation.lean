import Statute.Proofs.Machine.Walk

/-!
# Running and resuming

A machine can be carried to its end at one go, or be resumed again and again, each time to its next
checkpoint. If it is alone in the world it makes no difference: both take the same steps, and both
end with the same machine in the same world, or neither ends. Resuming is only interrupted at the
checkpoints, once at each.
-/

namespace Statute

namespace Machine

/-- Resumes a machine up to so many times, each time for at most `fuel` steps. -/
def resumeTimes (s : Setting) (fuel : Nat) : Nat → World → Machine → Carried
  | 0, w, m => ⟨.suspended, w, m⟩
  | n + 1, w, m =>
      match m.resume s fuel w with
      | ⟨.suspended, w, m⟩ => resumeTimes s fuel n w m
      | c => c

variable {s : Setting} {w w₁ w' : World} {m m₁ m' : Machine} {sts : List Step} {fuel n : Nat}

/-- However far a machine is resumed, it has walked there. -/
theorem walks_of_resume {p : Progress} (h : m.resume s fuel w = ⟨p, w', m'⟩)
    (hp : p = .suspended ∨ p = .finished) :
    ∃ sts, Walks s w m sts w' m' ∧ (p = .finished → m'.frames = []) := by
  induction fuel generalizing w m with
  | zero =>
      cases h
      exact ⟨[], .stay _ _, nofun⟩
  | succ fuel ih =>
      simp only [resume] at h
      split at h
      · next w₁ m₁ hstep =>
          obtain ⟨sts, hwalk, hend⟩ := ih h
          exact ⟨_, .go hstep (Or.inl rfl) hwalk, hend⟩
      · next hstep =>
          cases h
          exact ⟨_, .one hstep (Or.inr rfl), nofun⟩
      · next w₁ m₁ hstep =>
          have hsame := step_of_blocked (s := s) (w := w) (m := m) (by rw [hstep])
          rw [hstep] at hsame
          cases hsame
          cases h
          exact ⟨[], .stay _ _, nofun⟩
      · next w₁ m₁ hstep =>
          have hframes := frames_of_step_done (s := s) (w := w) (m := m) (by rw [hstep])
          rw [step_of_frames_nil hframes] at hstep
          cases hstep
          cases h
          exact ⟨[], .stay _ _, fun _ => hframes⟩
      · cases h
        rcases hp with hp | hp <;> cases hp

theorem walks_of_resumeTimes (h : m.resumeTimes s fuel n w = ⟨.finished, w', m'⟩) :
    ∃ sts, Walks s w m sts w' m' ∧ m'.frames = [] := by
  induction n generalizing w m with
  | zero => cases h
  | succ n ih =>
      simp only [resumeTimes] at h
      split at h
      · next w₁ m₁ hresume =>
          obtain ⟨sts, hwalk, -⟩ := walks_of_resume hresume (Or.inl rfl)
          obtain ⟨sts', hwalk', hend⟩ := ih h
          exact ⟨sts ++ sts', hwalk.append hwalk', hend⟩
      · obtain ⟨sts, hwalk, hend⟩ := walks_of_resume h (Or.inr rfl)
        exact ⟨sts, hwalk, hend rfl⟩

/-- Along a walk to the end, a machine that is resumed gets to the end or is interrupted at a later
point of the walk. With enough fuel that happens only at a checkpoint. -/
theorem Walks.resume (hwalk : Walks s w m sts w' m') (hend : m'.frames = []) (hfuel : 0 < fuel) :
    (m.resume s fuel w = ⟨.finished, w', m'⟩ ∧ (sts.length < fuel → sts.count .pause = 0)) ∨
      ∃ w₁ m₁ sts₁, m.resume s fuel w = ⟨.suspended, w₁, m₁⟩ ∧ Walks s w₁ m₁ sts₁ w' m' ∧
        sts₁.length < sts.length ∧
        (sts.length < fuel → sts.count .pause = sts₁.count .pause + 1) := by
  induction fuel generalizing w m sts with
  | zero => contradiction
  | succ fuel ih =>
      cases hwalk with
      | stay =>
          refine Or.inl ⟨?_, fun _ => rfl⟩
          simp [Machine.resume, step_of_frames_nil hend]
      | @go _ w₁ _ _ m₁ _ st sts hstep hst hwalk =>
          simp only [Machine.resume, hstep, List.length_cons]
          rcases hst with rfl | rfl
          · have hcount : (Step.next :: sts).count .pause = sts.count .pause :=
              List.count_cons_of_ne (by decide)
            rw [hcount]
            rcases Nat.eq_zero_or_pos fuel with rfl | hpos
            · exact Or.inr ⟨w₁, m₁, sts, rfl, hwalk, Nat.lt_succ_self _, fun h => by omega⟩
            · rcases ih hwalk hpos with ⟨hresume, hpauses⟩ |
                ⟨w₂, m₂, sts₂, hresume, hwalk₂, hlength, hpauses⟩
              · exact Or.inl ⟨hresume, fun h => hpauses (by omega)⟩
              · exact Or.inr ⟨w₂, m₂, sts₂, hresume, hwalk₂, by omega,
                  fun h => hpauses (by omega)⟩
          · exact Or.inr ⟨w₁, m₁, sts, rfl, hwalk, Nat.lt_succ_self _,
              fun _ => List.count_cons_self⟩

/-- A machine that can walk to its end gets there when it is resumed often enough. -/
theorem Walks.exists_resumeTimes (hwalk : Walks s w m sts w' m') (hend : m'.frames = [])
    (hfuel : 0 < fuel) : ∃ n, m.resumeTimes s fuel n w = ⟨.finished, w', m'⟩ := by
  induction hlength : sts.length using Nat.strongRecOn generalizing w m sts with
  | ind length ih =>
      rcases hwalk.resume hend hfuel with ⟨hresume, -⟩ | ⟨w₁, m₁, sts₁, hresume, hwalk₁, hlt, -⟩
      · exact ⟨1, by simp [resumeTimes, hresume]⟩
      · obtain ⟨n, hn⟩ := ih sts₁.length (hlength ▸ hlt) hwalk₁ rfl
        exact ⟨n + 1, by simp [resumeTimes, hresume, hn]⟩

/-- With enough fuel, a machine that walks to its end has to be resumed once more than the walk has
checkpoints. -/
theorem Walks.resumeTimes (hwalk : Walks s w m sts w' m') (hend : m'.frames = [])
    (hfuel : sts.length < fuel) :
    m.resumeTimes s fuel n w = ⟨.finished, w', m'⟩ ↔ sts.count .pause < n := by
  induction n generalizing w m sts with
  | zero => simp [Machine.resumeTimes]
  | succ n ih =>
      rcases hwalk.resume hend (Nat.zero_lt_of_lt hfuel) with ⟨hresume, hpauses⟩ |
        ⟨w₁, m₁, sts₁, hresume, hwalk₁, hlt, hpauses⟩
      · simp [Machine.resumeTimes, hresume, hpauses hfuel]
      · have hrest := ih hwalk₁ (Nat.lt_trans hlt hfuel)
        simp only [Machine.resumeTimes, hresume, hrest, hpauses hfuel]
        omega

/-- A machine that schedules nothing, in a world where no task is waiting, ends when it is run
exactly if it ends when it is resumed again and again, with the same machine in the same world. Both
take the same steps; resuming is interrupted at the checkpoints among them and nowhere else. -/
theorem run_finished_iff_resumeTimes_finished (hpool : w.pool.tasks = [])
    (hquiet : NeverSchedules s w m) :
    (∀ fuel, 0 < fuel → ∀ w' m', (∃ k, m.run s k w = ⟨.finished, w', m'⟩) ↔
        ∃ n, m.resumeTimes s fuel n w = ⟨.finished, w', m'⟩) ∧
      ∀ w' m', (∃ k, m.run s k w = ⟨.finished, w', m'⟩) →
        ∃ sts, Walks s w m sts w' m' ∧
          (∀ k, m.run s k w = ⟨.finished, w', m'⟩ ↔ sts.length < k) ∧
          ∀ fuel n, sts.length < fuel →
            (m.resumeTimes s fuel n w = ⟨.finished, w', m'⟩ ↔ sts.count .pause < n) := by
  have halone := hquiet.alone hpool
  refine ⟨fun fuel hfuel w' m' => ⟨?_, ?_⟩, ?_⟩
  · rintro ⟨k, hrun⟩
    obtain ⟨sts, hwalk, hend⟩ := walks_of_run hrun halone
    exact hwalk.exists_resumeTimes hend hfuel
  · rintro ⟨n, hresume⟩
    obtain ⟨sts, hwalk, hend⟩ := walks_of_resumeTimes hresume
    exact ⟨sts.length + 1, (hwalk.run halone hend _).mpr (Nat.lt_succ_self _)⟩
  · rintro w' m' ⟨k, hrun⟩
    obtain ⟨sts, hwalk, hend⟩ := walks_of_run hrun halone
    exact ⟨sts, hwalk, hwalk.run halone hend, fun fuel n hfuel => hwalk.resumeTimes hend hfuel⟩

end Machine

end Statute
