import Statute.Proofs.Machine.Pool

/-!
# Walks

A walk is a sequence of steps that a machine takes by itself, without anything else happening to the
world. A run of a machine that is alone in the world is a walk that ends where there are no frames
left; a step that has to wait changes nothing, so a machine that is alone never gets beyond it.
-/

namespace Statute

namespace Machine

/-- A machine takes steps one after the other; what is recorded of each is how it went. -/
inductive Walks (s : Setting) : World → Machine → List Step → World → Machine → Prop
  | stay (w : World) (m : Machine) : Walks s w m [] w m
  | go {w w₁ w' : World} {m m₁ m' : Machine} {st : Step} {sts : List Step}
      (hstep : m.step s w = ⟨st, w₁, m₁⟩) (hst : st = .next ∨ st = .pause)
      (hwalk : Walks s w₁ m₁ sts w' m') : Walks s w m (st :: sts) w' m'

def Alone (s : Setting) (w : World) (m : Machine) : Prop :=
  ∀ sts w' m', Walks s w m sts w' m' → w'.pool.tasks = []

def NeverSchedules (s : Setting) (w : World) (m : Machine) : Prop :=
  ∀ sts w' m', Walks s w m sts w' m' → ¬ m'.Schedules

variable {s : Setting} {w w₁ w' : World} {m m₁ m' : Machine} {st : Step} {sts sts' : List Step}

theorem Walks.append (h : Walks s w m sts w₁ m₁) (h' : Walks s w₁ m₁ sts' w' m') :
    Walks s w m (sts ++ sts') w' m' := by
  induction h with
  | stay w m => exact h'
  | go hstep hst hwalk ih => exact .go hstep hst (ih h')

theorem Walks.one (hstep : m.step s w = ⟨st, w', m'⟩) (hst : st = .next ∨ st = .pause) :
    Walks s w m [st] w' m' :=
  .go hstep hst (.stay w' m')

theorem Alone.of_walks (h : Alone s w m) (hwalk : Walks s w m sts w₁ m₁) : Alone s w₁ m₁ :=
  fun _ _ _ h' => h _ _ _ (hwalk.append h')

theorem Alone.pool (h : Alone s w m) : w.pool.tasks = [] :=
  h _ _ _ (.stay w m)

theorem Alone.of_frames_nil (hpool : w.pool.tasks = []) (hframes : m.frames = []) :
    Alone s w m := by
  intro sts w' m' hwalk
  cases hwalk with
  | stay => exact hpool
  | go hstep hst hwalk =>
      rw [step_of_frames_nil hframes] at hstep
      cases hstep
      rcases hst with hst | hst <;> contradiction

theorem Alone.of_step (hpool : w.pool.tasks = []) (hstep : m.step s w = ⟨st, w₁, m₁⟩)
    (hnext : Alone s w₁ m₁) : Alone s w m := by
  intro sts w' m' hwalk
  cases hwalk with
  | stay => exact hpool
  | go hstep' hst hwalk =>
      rw [hstep] at hstep'
      cases hstep'
      exact hnext _ _ _ hwalk

/-- A machine that schedules nothing stays alone. -/
theorem NeverSchedules.alone (h : NeverSchedules s w m) (hpool : w.pool.tasks = []) :
    Alone s w m := by
  intro sts w' m' hwalk
  induction hwalk with
  | stay w m => exact hpool
  | @go w w₁ w' m m₁ m' st sts hstep hst hwalk ih =>
      refine ih (fun _ _ _ hwalk' => h _ _ _ (.go hstep hst hwalk')) ?_
      have hsame := step_pool (s := s) (w := w) (h _ _ _ (.stay w m))
      rw [hstep] at hsame
      rw [hsame]
      exact hpool

/-! ## Runs -/

/-- Along a walk to the end a run needs one more step than the walk. -/
theorem Walks.run (hwalk : Walks s w m sts w' m') (halone : Alone s w m) (hend : m'.frames = [])
    (fuel : Nat) : m.run s fuel w = ⟨.finished, w', m'⟩ ↔ sts.length < fuel := by
  induction fuel generalizing w m sts with
  | zero => simp [Machine.run]
  | succ fuel ih =>
      have hpass : (if fuel % share = 0 then w.pass s share else w) = w := by
        split
        · exact World.pass_eq_self halone.pool
        · rfl
      cases hwalk with
      | stay => simp [Machine.run, hpass, step_of_frames_nil hend]
      | go hstep hst hwalk =>
          have hrest := ih hwalk (halone.of_walks (.one hstep hst))
          simp only [Machine.run, hpass, hstep, List.length_cons]
          rcases hst with rfl | rfl
          · simp only [hrest]
            omega
          · simp only [hrest]
            omega

/-- A machine that is alone and whose run ends has walked to its end. -/
theorem walks_of_run {fuel : Nat} (h : m.run s fuel w = ⟨.finished, w', m'⟩)
    (halone : Alone s w m) : ∃ sts, Walks s w m sts w' m' ∧ m'.frames = [] := by
  induction fuel generalizing w m with
  | zero => cases h
  | succ fuel ih =>
      have hpass : (if fuel % share = 0 then w.pass s share else w) = w := by
        split
        · exact World.pass_eq_self halone.pool
        · rfl
      simp only [Machine.run, hpass] at h
      split at h
      · next w₁ m₁ hstep =>
          obtain ⟨sts, hwalk, hend⟩ := ih h (halone.of_walks (.one hstep (Or.inl rfl)))
          exact ⟨_, .go hstep (Or.inl rfl) hwalk, hend⟩
      · next w₁ m₁ hstep =>
          obtain ⟨sts, hwalk, hend⟩ := ih h (halone.of_walks (.one hstep (Or.inr rfl)))
          exact ⟨_, .go hstep (Or.inr rfl) hwalk, hend⟩
      · next w₁ m₁ hstep =>
          have hsame := step_of_blocked (s := s) (w := w) (m := m) (by rw [hstep])
          rw [hstep] at hsame
          cases hsame
          rw [World.pass_eq_self halone.pool] at h
          exact ih h halone
      · next w₁ m₁ hstep =>
          have hframes := frames_of_step_done (s := s) (w := w) (m := m) (by rw [hstep])
          rw [step_of_frames_nil hframes] at hstep
          cases hstep
          cases h
          exact ⟨[], .stay _ _, hframes⟩
      · cases h

end Machine

end Statute
