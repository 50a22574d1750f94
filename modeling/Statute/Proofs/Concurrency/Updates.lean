import Statute.Proofs.Concurrency.Tally
import Statute.Proofs.Concurrency.Tasks
import Mathlib.Algebra.BigOperators.Fin
import Mathlib.Algebra.Order.BigOperators.Group.Finset

/-!
# No lost updates

Several tasks run the same tally. In whatever order they are advanced, the counter and what all of
them have still to add come to the same sum. A machine that is inside the block is the only one
there, so the counter is still what the machine has seen when it stores; and nobody outside the
block changes anything that another machine looks at.
-/

namespace Statute

open Function (update)
open Tally

variable {m : Nat} {s : Setting} {c : Tally} {total : Int} {k : Fin m → Int64} {h h' : Heap}
  {pts : Fin m → Point} {i : Fin m} {p' : Point}

namespace Tally.Point

theorem pending_nonneg (p : Point) (k : Int64) : 0 ≤ p.pending k := by
  cases p with
  | start => exact le_max_left _ _
  | entry r => exact le_max_left _ _
  | bounding r q n => exact le_max_left _ _
  | bounded r q => exact le_max_left _ _
  | counting r next => exact remaining_nonneg k next
  | turning r r₂ next => exact Int.add_nonneg (remaining_nonneg k next) (by decide)
  | entering r r₂ next => exact Int.add_nonneg (remaining_nonneg k next) (by decide)
  | inside r r₂ r₃ next v x =>
      refine Int.add_nonneg (remaining_nonneg k next) ?_
      split <;> decide
  | closing r r₂ next => exact remaining_nonneg k next
  | turned r r₂ next begun => exact remaining_nonneg k next
  | counted r begun => exact le_refl 0
  | leaving r => exact le_refl 0
  | finished => exact le_refl 0

end Tally.Point

/-! ## The account of the counter -/

/-- Machines at points of a tally, on one heap. The counter and what is still to be added come to
`total`, and the lock is held if there is a machine inside the block, which is the only one. -/
structure Tallied (c : Tally) (total : Int) (k : Fin m → Int64) (h : Heap) (pts : Fin m → Point) :
    Prop where
  fits : ∀ i, (pts i).Fits h (k i)
  counter : ∃ v, h.local? 0 "counter" = some (.int v) ∧
    v.toInt + ∑ i, (pts i).pending (k i) = total
  lock : h.isHeld c.lock = true ↔ ∃ i, (pts i).holds = true
  alone : ∀ i j, (pts i).holds = true → (pts j).holds = true → i = j

namespace Tallied

theorem sum_pending_update (pts : Fin m → Point) (i : Fin m) (p' : Point) :
    (∑ j, (update pts i p' j).pending (k j)) + (pts i).pending (k i) =
      (∑ j, (pts j).pending (k j)) + p'.pending (k i) := by
  rw [Fintype.sum_eq_add_sum_compl i, Fintype.sum_eq_add_sum_compl i fun j => (pts j).pending (k j)]
  have hothers : ∑ j ∈ {i}ᶜ, (update pts i p' j).pending (k j) =
      ∑ j ∈ {i}ᶜ, (pts j).pending (k j) := by
    refine Finset.sum_congr rfl fun j hj => ?_
    rw [Function.update_of_ne (by simpa using hj)]
  rw [hothers, Function.update_self]
  omega

/-- There is room in the counter for what one machine has still to add. -/
theorem room (htallied : Tallied c total k h pts) (htotal : total ≤ maxInt) (i : Fin m) :
    ∃ v, h.local? 0 "counter" = some (.int v) ∧ v.toInt + (pts i).pending (k i) ≤ maxInt := by
  obtain ⟨v, hv, hsum⟩ := htallied.counter
  have hle : (pts i).pending (k i) ≤ ∑ j, (pts j).pending (k j) :=
    Finset.single_le_sum (fun j _ => (pts j).pending_nonneg (k j)) (Finset.mem_univ i)
  exact ⟨v, hv, by omega⟩

/-- The machine inside the block is still the only one after a machine has taken the lock, or given
it back, or done something else. -/
theorem exclusive (htallied : Tallied c total k h pts)
    (hgoes : Point.Transition c.lock (k i) h (pts i) h' p') :
    (h'.isHeld c.lock = true ↔ ∃ j, (update pts i p' j).holds = true) ∧
      ∀ j j', (update pts i p' j).holds = true → (update pts i p' j').holds = true → j = j' := by
  have hself : update pts i p' i = p' := Function.update_self i p' pts
  have hother : ∀ j, j ≠ i → update pts i p' j = pts j := fun j hj =>
    Function.update_of_ne hj p' pts
  rcases hgoes.lock with ⟨hsame, hheld⟩ | ⟨hfree, hp', hheld⟩ | ⟨hp, hp', hheld⟩
  · have hholds : ∀ j, (update pts i p' j).holds = (pts j).holds := by
      intro j
      by_cases hj : j = i
      · rw [hj, hself, hsame]
      · rw [hother j hj]
    simp only [hholds, hheld]
    exact ⟨htallied.lock, htallied.alone⟩
  · -- The lock was free, so nobody was inside.
    have honly : ∀ j, (update pts i p' j).holds = true → j = i := by
      intro j hj
      by_contra hne
      rw [hother j hne] at hj
      rw [htallied.lock.mpr ⟨j, hj⟩] at hfree
      contradiction
    refine ⟨⟨fun _ => ⟨i, by rw [hself, hp']⟩, fun _ => hheld⟩, fun j j' hj hj' => ?_⟩
    rw [honly j hj, honly j' hj']
  · have hnobody : ∀ j, (update pts i p' j).holds ≠ true := by
      intro j hj
      by_cases hne : j = i
      · rw [hne, hself, hp'] at hj
        contradiction
      · rw [hother j hne] at hj
        exact hne (htallied.alone j i hj hp)
    refine ⟨⟨fun hheld' => ?_, fun ⟨j, hj⟩ => absurd hj (hnobody j)⟩, fun j j' hj => ?_⟩
    · rw [hheld] at hheld'
      contradiction
    · exact absurd hj (hnobody j)

/-- What one machine does keeps the account. -/
theorem transition (htallied : Tallied c total k h pts)
    (hgoes : Point.Transition c.lock (k i) h (pts i) h' p') :
    Tallied c total k h' (update pts i p') := by
  obtain ⟨hlock, halone⟩ := htallied.exclusive hgoes
  refine ⟨?_, ?_, hlock, halone⟩
  · intro j
    by_cases hj : j = i
    · subst hj
      rw [Function.update_self]
      exact hgoes.fits
    · rw [Function.update_of_ne hj]
      cases hi : (pts i).holds with
      | false => exact (htallied.fits j).of_extends (hgoes.outside hi)
      | true =>
          -- The other machine is outside, where it cannot notice anything.
          refine (htallied.fits j).of_spares hgoes.spares ?_
          by_contra hholds
          exact hj (htallied.alone j i (Bool.eq_true_of_not_eq_false hholds) hi)
  · obtain ⟨v, hv, hsum⟩ := htallied.counter
    obtain ⟨v', hv', hadd⟩ := hgoes.counter v hv
    have hupdate := sum_pending_update (k := k) pts i p'
    exact ⟨v', hv', by omega⟩

/-- A machine is carried to a point where it is set aside, or to its end. -/
theorem resume (hlimit : 0 < s.config.recursionLimit) (htotal : total ≤ maxInt) {w : World}
    (htallied : Tallied c total k w.heap pts) (i : Fin m) (env : Env) (fuel : Nat) :
    ∃ progress h' p',
      ((pts i).machine c env (k i)).resume s fuel w =
        ⟨progress, { w with heap := h' }, p'.machine c env (k i)⟩ ∧
      Tallied c total k h' (update pts i p') ∧
      (progress = .suspended ∨ progress = .finished ∧ p' = .finished) := by
  induction fuel generalizing w pts with
  | zero =>
      refine ⟨.suspended, w.heap, pts i, rfl, ?_, Or.inl rfl⟩
      rw [Function.update_eq_self]
      exact htallied
  | succ fuel ih =>
      obtain ⟨v, hv, hroom⟩ := htallied.room htotal i
      obtain ⟨st, h₁, p₁, hstep, hgoes, hst⟩ :=
        Point.goes c env hlimit (htallied.fits i) hv hroom
      have htallied₁ := htallied.transition hgoes
      rw [Machine.resume, hstep]
      rcases hst with rfl | rfl | rfl | ⟨rfl, rfl⟩
      · obtain ⟨progress, h', p', hcarried, htallied', hend⟩ :=
          ih (w := { w with heap := h₁ }) htallied₁
        rw [Function.update_self] at hcarried
        rw [Function.update_idem] at htallied'
        exact ⟨progress, h', p', hcarried, htallied', hend⟩
      · exact ⟨.suspended, h₁, p₁, rfl, htallied₁, Or.inl rfl⟩
      · exact ⟨.suspended, h₁, p₁, rfl, htallied₁, Or.inl rfl⟩
      · exact ⟨.finished, h₁, .finished, rfl, htallied₁, Or.inr ⟨rfl, rfl⟩⟩

end Tallied

/-! ## Tasks -/

/-- A task at a point: its machine is there, or it is done and came to its end without a value. -/
inductive Task.IsAt (c : Tally) (env : Env) (k : Int64) (label : String) : Point → Task → Prop
  | working (p : Point) : IsAt c env k label p (.new label (p.machine c env k))
  | done (m : Machine) : IsAt c env k label .finished ((Task.new label m).finish (.ok .empty))

theorem Task.IsAt.of_done {env : Env} {k : Int64} {label : String} {p : Point} {task : Task}
    (h : task.IsAt c env k label p) (hdone : task.done = true) :
    p = .finished ∧ task.outcome = some (.ok .empty) := by
  cases h with
  | working p => contradiction
  | done m => exact ⟨rfl, rfl⟩

structure World.Tallies (c : Tally) (total : Int) (k : Fin m → Int64) (env : Fin m → Env)
    (label : Fin m → String) (t : Fin m → TaskRef) (w : World) (pts : Fin m → Point) : Prop where
  tallied : Tallied c total k w.heap pts
  place : ∀ i, t i < w.tasks.size
  task : ∀ i, (w.task (t i)).IsAt c (env i) (k i) (label i) (pts i)

namespace World.Tallies

variable {env : Fin m → Env} {label : Fin m → String} {t : Fin m → TaskRef} {w : World}

/-- One task is put where its machine has got to. -/
theorem setTask (ht : Function.Injective t) (htallies : w.Tallies c total k env label t pts)
    {w₁ : World} (hsize : w₁.tasks.size = w.tasks.size)
    (htasks : ∀ u, u ≠ t i → w₁.task u = w.task u)
    (htallied : Tallied c total k w₁.heap (update pts i p')) {task : Task}
    (htask : task.IsAt c (env i) (k i) (label i) p') :
    (w₁.setTask (t i) task).Tallies c total k env label t (update pts i p') := by
  have hplace : ∀ j, t j < w₁.tasks.size := by
    intro j
    rw [hsize]
    exact htallies.place j
  refine ⟨htallied, ?_, ?_⟩
  · intro j
    rw [World.size_setTask]
    exact hplace j
  · intro j
    by_cases hj : j = i
    · subst hj
      rw [World.task_setTask (hplace j), Function.update_self]
      exact htask
    · have hne : t j ≠ t i := fun e => hj (ht e)
      rw [World.task_setTask_of_ne hne, htasks _ hne, Function.update_of_ne hj]
      exact htallies.task j

theorem advance (hlimit : 0 < s.config.recursionLimit) (htotal : total ≤ maxInt)
    (ht : Function.Injective t) (htallies : w.Tallies c total k env label t pts) (i : Fin m)
    (fuel : Nat) : ∃ pts', (w.advance s fuel (t i)).Tallies c total k env label t pts' := by
  have htask := htallies.task i
  generalize hw : w.task (t i) = task at htask
  generalize hp : pts i = p at htask
  cases htask with
  | done m =>
      have hmachine : (w.task (t i)).machine = none := by
        rw [hw]
        rfl
      rw [World.advance_of_machine_none hmachine]
      exact ⟨pts, htallies⟩
  | working p =>
      have hmachine : (w.task (t i)).machine = some (p.machine c (env i) (k i)) := by
        rw [hw]
        rfl
      set w₀ := w.setTask (t i) { w.task (t i) with machine := none } with hw₀
      have htallied : Tallied c total k w₀.heap pts := htallies.tallied
      obtain ⟨progress, h', p', hcarried, htallied', hend⟩ :=
        htallied.resume hlimit htotal i (env i) fuel
      rw [hp] at hcarried
      have hput : ∀ {task : Task}, task.IsAt c (env i) (k i) (label i) p' →
          (World.setTask { w₀ with heap := h' } (t i) task).Tallies c total k env label t
            (update pts i p') := by
        intro task htask
        refine htallies.setTask ht ?_ ?_ htallied' htask
        · exact World.size_setTask _ _ _
        · exact fun u hu => World.task_setTask_of_ne hu _
      refine ⟨update pts i p', ?_⟩
      rw [World.advance_eq hmachine, hcarried, hw]
      rcases hend with rfl | ⟨rfl, rfl⟩
      · exact hput (.working p')
      · exact hput (.done _)

/-- Advancing tasks one after the other keeps the account. -/
theorem advances (hlimit : 0 < s.config.recursionLimit) (htotal : total ≤ maxInt)
    (ht : Function.Injective t) (htallies : w.Tallies c total k env label t pts)
    (order : List (Fin m × Nat)) :
    ∃ pts', (order.foldl (fun w x => w.advance s x.2 (t x.1)) w).Tallies
      c total k env label t pts' := by
  induction order generalizing w pts with
  | nil => exact ⟨pts, htallies⟩
  | cons x order ih =>
      obtain ⟨pts₁, htallies₁⟩ := htallies.advance hlimit htotal ht x.1 x.2
      exact ih htallies₁

end World.Tallies

/-- When all tasks are where they begin, everything is still to be added. -/
theorem Tallied.start {v : Int64} (hcounter : h.local? 0 "counter" = some (.int v))
    (hfree : h.isHeld c.lock = false) :
    Tallied c (v.toInt + ∑ i, max 0 (k i).toInt) k h fun _ => .start where
  fits := fun _ => trivial
  counter := ⟨v, hcounter, rfl⟩
  lock := by
    rw [hfree]
    simp [Point.holds]
  alone := fun i j hi => nomatch hi

/-- Tasks that run the same tally are advanced in any order, each time for any number of steps. None
of them ends with a failure; and when all are done, the counter has been increased by as much as all
of them were told to. -/
theorem Tally.adds_up (c : Tally) (k : Fin m → Int64) (env : Fin m → Env) (label : Fin m → String)
    (t : Fin m → TaskRef) (w : World) (v : Int64) (hlimit : 0 < s.config.recursionLimit)
    (ht : Function.Injective t)
    (htask : ∀ i, w.task (t i) =
      .new (label i) (.ofCall (env i) (.procedure c.procedure) [.int (k i)]))
    (hcounter : w.heap.local? 0 "counter" = some (.int v)) (hfree : w.heap.isHeld c.lock = false)
    (hroom : v.toInt + ∑ i, max 0 (k i).toInt ≤ maxInt) (order : List (Fin m × Nat)) :
    let w' := order.foldl (fun w x => w.advance s x.2 (t x.1)) w
    (∀ i, (w'.task (t i)).done = true → (w'.task (t i)).outcome = some (.ok .empty)) ∧
    ((∀ i, (w'.task (t i)).done = true) → ∃ v', w'.heap.local? 0 "counter" = some (.int v') ∧
      v'.toInt = v.toInt + ∑ i, max 0 (k i).toInt) := by
  intro w'
  have htallies : w.Tallies c (v.toInt + ∑ i, max 0 (k i).toInt) k env label t
      fun _ => .start := by
    refine ⟨Tallied.start hcounter hfree, fun i => ?_, fun i => ?_⟩
    · exact World.lt_size_of_machine (by rw [htask i]; rfl)
    · rw [htask i]
      exact .working .start
  obtain ⟨pts, htallies'⟩ := htallies.advances hlimit hroom ht order
  have hdone : ∀ i, (w'.task (t i)).done = true →
      pts i = .finished ∧ (w'.task (t i)).outcome = some (.ok .empty) :=
    fun i => (htallies'.task i).of_done
  refine ⟨fun i hi => (hdone i hi).2, fun hall => ?_⟩
  obtain ⟨v', hv', hsum⟩ := htallies'.tallied.counter
  refine ⟨v', hv', ?_⟩
  have hnothing : ∑ i, (pts i).pending (k i) = 0 := by
    refine Finset.sum_eq_zero fun i _ => ?_
    rw [(hdone i (hall i)).1]
    rfl
  omega

/-- Two tasks take turns, one to add two and the other to add one. -/
theorem Tally.adds_up_in_turns :
    let s : Setting := ⟨default, default, Host.none⟩
    let c : Tally := ⟨"bump", 0, fun text => ⟨"", 0, text⟩⟩
    let task (k : Int64) : Task :=
      .new "bump" (.ofCall World.globals (.procedure c.procedure) [.int k])
    let w : World := { World.new default with
      heap := (World.new default).heap.define 0 "counter" (.int 40)
      tasks := #[task 2, task 1] }
    let order : List (Fin 2 × Nat) := (List.replicate 12 [(0, 100), (1, 100)]).flatten
    let w' := order.foldl (fun w x => w.advance s x.2 x.1.val) w
    (∀ i : Fin 2, (w'.task i.val).done = true) ∧
      ∃ v', w'.heap.local? 0 "counter" = some (.int v') ∧ v'.toInt = 43 := by
  intro s c task w order w'
  have hdone : ∀ i : Fin 2, (w'.task i.val).done = true := by decide +kernel
  have hlimit : 0 < s.config.recursionLimit := by decide
  have htask : ∀ i : Fin 2, w.task i.val = task (![2, 1] i) := Fin.forall_fin_two.mpr ⟨rfl, rfl⟩
  have hroom : (40 : Int64).toInt + ∑ i : Fin 2, max 0 ((![2, 1] : Fin 2 → Int64) i).toInt ≤
      maxInt := by decide
  obtain ⟨-, hsum⟩ := Tally.adds_up c ![2, 1] (fun _ => World.globals) (fun _ => "bump") Fin.val w
    40 hlimit Fin.val_injective htask rfl rfl hroom order
  refine ⟨hdone, ?_⟩
  obtain ⟨v', hv', htotal⟩ := hsum hdone
  exact ⟨v', hv', htotal⟩

end Statute
