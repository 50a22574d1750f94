import Statute.Proofs.Machine.Nesting

/-!
# The history of a machine

The moments at which a machine takes its steps, one after the other, each with the world that it
finds. What happens to the world between two steps is open, so a history may belong to a machine
that is alone as well as to one that is set aside at any point for others to have their turn.

A machine above other frames has the history that it would have on its own, until it has come to its
end; from then on the frames below go on with what it came to.
-/

namespace Statute

/-- A machine that is about to take a step, and the world that it finds. -/
structure Moment where
  world : World
  machine : Machine
deriving Inhabited

namespace Moment

def after (s : Setting) (t : Moment) : Machine :=
  (t.machine.step s t.world).machine

def above (below : List Frame) (outer : ScopeStack) (t : Moment) : Moment :=
  ⟨t.world, t.machine.above below outer⟩

end Moment

namespace Machine

/-- A machine takes its steps at the given moments; what happens to the world in between is open. -/
inductive Passes (s : Setting) : Machine → List Moment → Machine → Prop
  | stay (m : Machine) : Passes s m [] m
  | go {w : World} {m m' : Machine} {ts : List Moment}
      (hcrash : ∀ message, (m.step s w).step ≠ .crash message)
      (hrest : Passes s (m.step s w).machine ts m') : Passes s m (⟨w, m⟩ :: ts) m'

variable {s : Setting} {w w' : World} {m m₁ m' : Machine} {ts ts' : List Moment} {goal : Shape}
  {base : Nat} {env : Env}

theorem Passes.of_step {st : Step} (hstep : m.step s w = ⟨st, w', m₁⟩)
    (hcrash : ∀ message, st ≠ .crash message) (hrest : Passes s m₁ ts m') :
    Passes s m (⟨w, m⟩ :: ts) m' := by
  refine .go ?_ ?_
  · rw [hstep]
    exact hcrash
  · rw [hstep]
    exact hrest

theorem Passes.append (h : Passes s m ts m₁) (h' : Passes s m₁ ts' m') :
    Passes s m (ts ++ ts') m' := by
  induction h with
  | stay m => exact h'
  | go hcrash hrest ih => exact .go hcrash (ih h')

theorem Passes.split {xs ys : List Moment} (h : Passes s m (xs ++ ys) m') :
    ∃ m₁, Passes s m xs m₁ ∧ Passes s m₁ ys m' := by
  induction xs generalizing m with
  | nil => exact ⟨m, .stay m, h⟩
  | cons x xs ih =>
      cases h with
      | go hcrash hrest =>
          obtain ⟨m₁, hxs, hys⟩ := ih hrest
          exact ⟨m₁, .go hcrash hxs, hys⟩

theorem Passes.inOrder (h : Passes s m ts m') (horder : m.InOrder goal base env) :
    m'.InOrder goal base env := by
  induction h with
  | stay m => exact horder
  | go hcrash hrest ih => exact ih (Steps.inOrder ⟨_, rfl, hcrash⟩ horder)

theorem Passes.reaches (h : Passes s m ts m') : Relation.ReflTransGen (Steps s) m m' := by
  induction h with
  | stay m => exact .refl
  | go hcrash hrest ih => exact .head ⟨_, rfl, hcrash⟩ ih

theorem Passes.eq_of_frames_nil (h : Passes s m ts m') (hframes : m.frames = []) : m' = m := by
  induction h with
  | stay m => rfl
  | go hcrash hrest ih =>
      rw [step_of_frames_nil hframes] at ih
      exact ih hframes

/-- A machine that walks by itself has a history. -/
theorem Walks.passes {sts : List Step} (h : Walks s w m sts w' m') : ∃ ts, Passes s m ts m' := by
  induction h with
  | stay w m => exact ⟨[], .stay m⟩
  | go hstep hst hwalk ih =>
      obtain ⟨ts, hts⟩ := ih
      refine ⟨_, .of_step hstep ?_ hts⟩
      rcases hst with rfl | rfl <;> nofun

/-- The history of a machine above other frames is that of the machine on its own, or it begins with
the whole of this and goes on with the frames below. -/
theorem Passes.of_above {below : List Frame} {outer : ScopeStack}
    (h : Passes s (m.above below outer) ts m') (horder : m.InOrder goal base outer.current) :
    (∃ us n, ts = us.map (Moment.above below outer) ∧ m' = n.above below outer ∧
        Passes s m us n) ∨
      ∃ us n w later,
        ts = us.map (Moment.above below outer) ++ ⟨w, n.above below outer⟩ :: later ∧
          Passes s m us n ∧ n.frames = [] ∧
          Passes s (n.above below outer) (⟨w, n.above below outer⟩ :: later) m' := by
  induction ts generalizing m with
  | nil =>
      cases h
      exact Or.inl ⟨[], m, rfl, rfl, .stay m⟩
  | cons t ts ih =>
      by_cases hframes : m.frames = []
      · cases h with
        | go hcrash hrest => exact Or.inr ⟨[], m, _, ts, rfl, .stay m, hframes, .go hcrash hrest⟩
      · cases h with
        | @go w _ _ _ hcrash hrest =>
            have hstep : (m.above below outer).step s w = (m.step s w).above below outer :=
              step_above horder hframes
            rw [hstep] at hcrash hrest
            have horder' := Steps.inOrder (s := s) ⟨w, rfl, hcrash⟩ horder
            rcases ih hrest horder' with ⟨us, n, rfl, rfl, hus⟩ |
              ⟨us, n, w', later, rfl, hus, hend, hlater⟩
            · exact Or.inl ⟨⟨w, m⟩ :: us, n, rfl, rfl, .go hcrash hus⟩
            · exact Or.inr ⟨⟨w, m⟩ :: us, n, w', later, rfl, .go hcrash hus, hend, hlater⟩

end Machine

end Statute
