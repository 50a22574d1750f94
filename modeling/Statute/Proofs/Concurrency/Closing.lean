import Statute.Machine.Closing
import Statute.Proofs.Concurrency.Rounds

/-!
# Closing the pool while calls schedule

Whoever closes the pool marks it as closed, takes its workers away, and then goes through them: the
tasks of a worker that are not done are given up, and its list is cleared. All this time calls and
workers move as well. That the workers are stopped and waited for only rules out some orders of the
moves.

A call that looks at the pool after it was marked is refused. If no call is between its look and its
end when the pool is marked, then in the end there are no workers, and each task that was accepted
is done. A call that has looked before, however, goes on as if nothing had happened: it may take on
a worker for a pool that is closed, or hand its task to a worker that was stopped, for which the
worker still counts as active. So the end of the closing is not the end of the tasks.

Closing the pool in one go, with or without calls under way, follows one of these orders.
-/

namespace Statute

open Relation (ReflTransGen)

/-- How far the closing of a pool has got. -/
inductive Phase where
  | before
  /-- The pool is marked as closed. -/
  | marked
  /-- The workers were taken away; those of the given numbers have not been gone through. -/
  | clearing (ids : List Nat)
  /-- The tasks of one worker are given up. -/
  | abandoning (id : Nat) (ts : List TaskRef) (ids : List Nat)
  | over

namespace Phase

/-- Whether the workers have been taken away. -/
def isTaken : Phase → Bool
  | before => false
  | marked => false
  | _ => true

/-- The workers that have not been gone through. -/
def ids : Phase → List Nat
  | clearing ids => ids
  | abandoning id _ ids => id :: ids
  | _ => []

/-- A task of a worker that was taken away is still to be given up. -/
def Left : Phase → Nat → TaskRef → Prop
  | clearing ids, i, _ => i ∈ ids
  | abandoning id ts ids, i, t => i ∈ ids ∨ i = id ∧ t ∈ ts
  | _, _, _ => False

end Phase

/-- An office whose pool is being closed. -/
structure Closing where
  office : Office
  phase : Phase

namespace Closing

open Office (Moves Replaces)

/-- One move: of a call, of a worker, or of whoever closes the pool. -/
inductive Steps : Closing → Closing → Prop
  | office {σ σ' : Office} {p : Phase} (hmove : Moves σ σ') : Steps ⟨σ, p⟩ ⟨σ', p⟩
  | mark {w : World} {fs : List Worker} {es : List Errand} {rs : List Round} :
      Steps ⟨⟨w, fs, es, rs⟩, .before⟩
        ⟨⟨{ w with pool := { w.pool with closed := true } }, fs, es, rs⟩, .marked⟩
  | take {w : World} {fs : List Worker} {es : List Errand} {rs : List Round} :
      Steps ⟨⟨w, fs, es, rs⟩, .marked⟩
        ⟨⟨{ w with pool := { w.pool with workers := [] } }, w.pool.workers ++ fs, es, rs⟩,
          .clearing (w.pool.workers.map (·.id))⟩
  | visit {σ : Office} {k : Worker} {ids : List Nat} (hk : k ∈ σ.staff) :
      Steps ⟨σ, .clearing (k.id :: ids)⟩ ⟨σ, .abandoning k.id k.tasks ids⟩
  | skip {σ : Office} {id : Nat} {t : TaskRef} {ts : List TaskRef} {ids : List Nat}
      (hdone : (σ.world.task t).done = true) :
      Steps ⟨σ, .abandoning id (t :: ts) ids⟩ ⟨σ, .abandoning id ts ids⟩
  | abandon {w : World} {fs : List Worker} {es : List Errand} {rs : List Round} {id : Nat}
      {t : TaskRef} {ts : List TaskRef} {ids : List Nat} (hundone : (w.task t).done = false) :
      Steps ⟨⟨w, fs, es, rs⟩, .abandoning id (t :: ts) ids⟩
        ⟨⟨w.abandon t, fs, es, rs⟩, .abandoning id ts ids⟩
  | clear {σ σ' : Office} {k : Worker} {ids : List Nat}
      (hreplaces : Replaces k { k with tasks := [] } σ σ') :
      Steps ⟨σ, .abandoning k.id [] ids⟩ ⟨σ', .clearing ids⟩
  | finish {σ : Office} : Steps ⟨σ, .clearing []⟩ ⟨σ, .over⟩

end Closing

namespace Errand

/-- The call has returned. -/
def hasEnded : Errand → Bool
  | placed _ => true
  | refused _ => true
  | _ => false

/-- The call has found the pool open and has not returned. -/
def isUnderWay : Errand → Bool
  | admitted _ => true
  | picked _ _ => true
  | _ => false

end Errand

namespace Office

variable {c : Nat} {σ σ' : Office} {w w' : World} {fs : List Worker} {es a b : List Errand}
  {rs : List Round} {k k' : Worker} {t : TaskRef} {p : Phase}

/-- What holds from the moment on that the pool is marked as closed, if no call was under way. -/
structure Settled (p : Phase) (σ : Office) : Prop where
  closed : σ.world.pool.closed = true
  quiet : ∀ e ∈ σ.errands, e.isUnderWay = false
  ids : (σ.staff.map (·.id)).Nodup
  kept : ∀ t, .placed t ∈ σ.errands → (σ.world.task t).done = false →
    t ∈ σ.staff.flatMap (·.tasks)
  tasks : ∀ t ∈ σ.staff.flatMap (·.tasks), t < σ.world.tasks.size
  taken : p.isTaken = true → σ.world.pool.workers = []
  order : p.ids.Nodup
  rest : ∀ k ∈ σ.former, ∀ t ∈ k.tasks, (σ.world.task t).done = false → p.Left k.id t

theorem Settled.later (h : Settled p ⟨w, fs, es, rs⟩) (hlater : w.Precedes w') :
    Settled p ⟨w', fs, es, rs⟩ := by
  have hundone : ∀ t, (w'.task t).done = false → (w.task t).done = false := fun t => hlater.undone
  obtain ⟨heap, tasks, pool, output⟩ := w'
  obtain ⟨hpool, hsize, -⟩ := hlater
  change pool = w.pool at hpool
  subst hpool
  exact { h with
    kept := fun t ht hnow => h.kept t ht (hundone t hnow)
    tasks := fun t ht => Nat.lt_of_lt_of_le (h.tasks t ht) hsize
    rest := fun k hk t ht hnow => h.rest k hk t ht (hundone t hnow) }

theorem Settled.withRounds (h : Settled p ⟨w, fs, es, rs⟩) (rs' : List Round) :
    Settled p ⟨w, fs, es, rs'⟩ :=
  { h with }

/-- A worker keeps its number and some of its tasks, among them those that are not done. -/
theorem Settled.replace (h : Settled p ⟨w, fs, es, rs⟩)
    (hreplaces : Replaces k k' ⟨w, fs, es, rs⟩ σ') (hid : k'.id = k.id)
    (hsub : ∀ t ∈ k'.tasks, t ∈ k.tasks)
    (hkept : ∀ t ∈ k.tasks, (w.task t).done = false → t ∈ k'.tasks) : Settled p σ' := by
  have hids := hreplaces.map_id hid
  have hmem : ∀ t, (w.task t).done = false → t ∈ (w.pool.workers ++ fs).flatMap (·.tasks) →
      t ∈ σ'.staff.flatMap (·.tasks) :=
    fun t hundone => hreplaces.mem_tasks fun hk => hkept t hk hundone
  have hless : ∀ t ∈ σ'.staff.flatMap (·.tasks), t ∈ (w.pool.workers ++ fs).flatMap (·.tasks) := by
    intro t ht
    obtain ⟨x, hx, ht⟩ := List.mem_flatMap.mp ht
    rcases hreplaces.cases_staff x hx with rfl | hx
    · exact List.mem_flatMap.mpr ⟨k, hreplaces.mem_staff, hsub t ht⟩
    · exact List.mem_flatMap.mpr ⟨x, hx, ht⟩
  obtain ⟨ws, fs', rfl, hlength, hformer⟩ := hreplaces.frame
  exact
    { closed := h.closed
      quiet := h.quiet
      ids := hids ▸ h.ids
      kept := fun t ht hundone => hmem t hundone (h.kept t ht hundone)
      tasks := fun t ht => h.tasks t (hless t ht)
      taken := by
        intro htaken
        refine List.eq_nil_of_length_eq_zero (hlength.trans ?_)
        exact congrArg List.length (h.taken htaken)
      order := h.order
      rest := by
        intro x hx t ht hundone
        rcases hformer x hx with hx | ⟨rfl, hk⟩
        · exact h.rest x hx t ht hundone
        · rw [hid]
          exact h.rest k hk t (hsub t ht) hundone }

/-- A call looks at the pool, which is closed, or has not looked yet. -/
theorem Settled.report {e e' : Errand} (h : Settled p ⟨w, fs, a ++ e :: b, rs⟩)
    (he' : e'.isUnderWay = false) (hplaced : ∀ t, e' ≠ .placed t) :
    Settled p ⟨w, fs, a ++ e' :: b, rs⟩ :=
  { h with
    quiet := by
      intro x hx
      rcases List.mem_append.mp hx with hx | hx
      · exact h.quiet x (List.mem_append_left _ hx)
      · rcases List.mem_cons.mp hx with rfl | hx
        · exact he'
        · exact h.quiet x (List.mem_append_right a (List.mem_cons_of_mem e hx))
    kept := by
      intro t ht
      refine h.kept t ?_
      rcases List.mem_append.mp ht with ht | ht
      · exact List.mem_append_left _ ht
      · exact List.mem_append_right a
          (List.mem_cons_of_mem e (List.mem_of_ne_of_mem (hplaced t).symm ht)) }

/-- A move after the pool was marked. No call gets past its look. -/
theorem Moves.settled (hmove : Moves σ σ') (h : σ.Settled p) : σ'.Settled p := by
  have hquiet : ∀ {a b : List Errand} {e : Errand}, σ.errands = a ++ e :: b →
      e.isUnderWay = false := by
    intro a b e herrands
    refine h.quiet e ?_
    rw [herrands]
    exact List.mem_append_right a List.mem_cons_self
  cases hmove with
  | call label m =>
      exact { h with
        quiet := List.forall_mem_cons.mpr ⟨rfl, h.quiet⟩
        kept := fun t ht => h.kept t (List.mem_of_ne_of_mem (y := .begun label m) nofun ht) }
  | refuse a b hclosed => exact h.report rfl nofun
  | letIn a b hopen =>
      have hclosed := h.closed.symm.trans hopen
      contradiction
  | pick a b hpick => exact absurd (hquiet rfl) nofun
  | fail f a b => exact absurd (hquiet rfl) nofun
  | accept a b hsubmit hreplaces => exact absurd (hquiet rfl) nofun
  | reject a b hk hsubmit => exact absurd (hquiet rfl) nofun
  | snapshot hk hactive hfree => exact h.withRounds _
  | advance a b hlater => exact (h.later hlater).withRounds _
  | sweep a b hreplaces =>
      refine (h.withRounds _).replace hreplaces rfl (fun t ht => List.mem_of_mem_filter ht) ?_
      exact fun t ht hundone => List.mem_filter.mpr ⟨ht, by simp [hundone]⟩
  | home a b => exact h.withRounds _
  | retire htasks hreplaces =>
      exact h.replace hreplaces rfl (fun t ht => ht) fun t ht _ => ht
  | elsewhere hlater => exact h.later hlater

/-- When the pool is marked and no call is under way, every task that was accepted is with a worker
of the pool. -/
theorem Orderly.settled (h : Orderly c ⟨w, fs, es, rs⟩)
    (hquiet : ∀ e ∈ es, e.isUnderWay = false) :
    Settled .marked ⟨{ w with pool := { w.pool with closed := true } }, fs, es, rs⟩ where
  closed := rfl
  quiet := hquiet
  ids := h.ids
  kept := h.kept
  tasks := fun t ht => h.tasks t (List.mem_filterMap.mpr ⟨_, h.placed t ht, rfl⟩)
  taken := nofun
  order := .nil
  rest := by
    intro k hk t ht
    rw [h.idle k (List.mem_append_right _ hk) (h.former k hk)] at ht
    contradiction

end Office

theorem Pool.closed_assign (p : Pool) (t : TaskRef) : (p.assign t).closed = p.closed := by
  have hpick : p.settle.pick.1.closed = p.closed := by
    unfold pick
    dsimp only
    split <;> rfl
  unfold assign
  dsimp only
  cases hsubmit : p.settle.pick.1.submit? p.settle.pick.2 t with
  | none => exact hpick
  | some q =>
      unfold submit? at hsubmit
      simp only [Option.bind_eq_bind, Option.bind_eq_some_iff, Option.pure_def,
        Option.some.injEq] at hsubmit
      obtain ⟨k, -, k', -, rfl⟩ := hsubmit
      exact hpick

theorem Pool.closed_foldl_assign (ts : List TaskRef) (p : Pool) :
    (ts.foldl assign p).closed = p.closed := by
  induction ts generalizing p with
  | nil => rfl
  | cons t ts ih => exact (ih (p.assign t)).trans (p.closed_assign t)

theorem Task.done_abandoned (ref : TaskRef) (task : Task) : (task.abandoned ref).done = true := by
  unfold abandoned
  split
  · assumption
  · rfl

namespace World

theorem exists_abandon (w : World) (t : TaskRef) :
    ∃ w' : World, w.Precedes w' ∧ w'.tasks = w.tasks ∧
      w.abandon t = w'.setTask t ((w.task t).abandoned t) := by
  cases hmachine : (w.task t).machine with
  | none => exact ⟨w, .refl w, rfl, abandon_of_machine_none hmachine⟩
  | some m =>
      exact ⟨w.discard m, w.precedes_discard m, tasks_releaseAll w m.locks,
        abandon_of_machine hmachine⟩

theorem done_abandon {w : World} {t : TaskRef} (ht : t < w.tasks.size) :
    ((w.abandon t).task t).done = true := by
  obtain ⟨w', -, htasks, habandon⟩ := w.exists_abandon t
  rw [habandon, task_setTask (htasks ▸ ht)]
  exact Task.done_abandoned t (w.task t)

/-- Giving up a task does not undo others. -/
theorem precedes_abandon (w : World) (t : TaskRef) : w.Precedes (w.abandon t) := by
  obtain ⟨w', hlater, -, habandon⟩ := w.exists_abandon t
  rw [habandon]
  exact hlater.trans (precedes_setTask fun _ => Task.done_abandoned t (w.task t))

theorem done_abandon_of_ne {w : World} {t t' : TaskRef} (h : t' ≠ t) :
    ((w.abandon t).task t').done = (w.task t').done := by
  obtain ⟨w', -, htasks, habandon⟩ := w.exists_abandon t
  rw [habandon, task_setTask_of_ne h, task, htasks, task]

def unfinished (w : World) (ts : List TaskRef) : List TaskRef :=
  ts.filter fun t => !(w.task t).done

theorem unfinished_abandonAll {w : World} {ts us : List TaskRef} (hdisjoint : us.Disjoint ts) :
    (w.abandonAll us).unfinished ts = w.unfinished ts := by
  induction us generalizing w with
  | nil => rfl
  | cons u us ih =>
      obtain ⟨hu, hus⟩ := List.disjoint_cons_left.mp hdisjoint
      rw [abandonAll, ih hus]
      refine List.filter_congr fun t ht => ?_
      rw [done_abandon_of_ne (ne_of_mem_of_not_mem ht hu)]

theorem abandonAll_append (w : World) (ts us : List TaskRef) :
    w.abandonAll (ts ++ us) = (w.abandonAll ts).abandonAll us := by
  induction ts generalizing w with
  | nil => rfl
  | cons t ts ih => exact ih (w.abandon t)

theorem releaseAll_withPool (w : World) (p : Pool) (ls : List LockRef) :
    { w with pool := p }.releaseAll ls = { w.releaseAll ls with pool := p } := by
  induction ls generalizing w with
  | nil => rfl
  | cons l ls ih => exact ih { w with heap := w.heap.release l }

/-- Giving up a task has nothing to do with the pool. -/
theorem abandon_withPool (w : World) (p : Pool) (t : TaskRef) :
    { w with pool := p }.abandon t = { w.abandon t with pool := p } := by
  cases hmachine : (w.task t).machine with
  | none =>
      have hsame : ({ w with pool := p }.task t).machine = none := hmachine
      rw [abandon_of_machine_none hmachine, abandon_of_machine_none hsame]
      rfl
  | some m =>
      have hsame : ({ w with pool := p }.task t).machine = some m := hmachine
      rw [abandon_of_machine hmachine, abandon_of_machine hsame, discard, releaseAll_withPool]
      rfl

theorem abandonAll_withPool (w : World) (p : Pool) (ts : List TaskRef) :
    { w with pool := p }.abandonAll ts = { w.abandonAll ts with pool := p } := by
  induction ts generalizing w with
  | nil => rfl
  | cons t ts ih => rw [abandonAll, abandon_withPool, ih, abandonAll]

theorem pool_abandonAll (w : World) (ts : List TaskRef) : (w.abandonAll ts).pool = w.pool := by
  induction ts generalizing w with
  | nil => rfl
  | cons t ts ih => rw [abandonAll, ih, (w.precedes_abandon t).pool]

theorem pool_addTasks (w : World) (calls : List LateCall) :
    (w.addTasks calls).1.pool = w.pool := by
  induction calls generalizing w with
  | nil => rfl
  | cons c calls ih => exact ih (w.addTask c.label c.machine).1

theorem precedes_answerAll (s : Setting) (calls : List LateCall) (ts : List TaskRef)
    {w : World} (hclosed : w.pool.closed = true) : w.Precedes (w.answerAll s calls ts) := by
  induction calls generalizing w ts with
  | nil => exact .refl w
  | cons c calls ih =>
      cases ts with
      | nil => exact .refl w
      | cons t ts =>
          have hgiven : w.Precedes (w.setTask c.caller
            { w.task c.caller with machine := some (c.resumed t) }) := precedes_setTask id
          have hanswer : w.Precedes (w.answer s c t) :=
            hgiven.trans (precedes_advance_of_closed Machine.share c.caller hclosed)
          exact hanswer.trans (ih ts (hanswer.pool ▸ hclosed))

theorem shutdown_eq {w : World} (hopen : w.pool.closed = false) :
    w.shutdown =
      { w.abandonAll (w.unfinished w.pool.tasks) with pool := w.pool.close } := by
  have hpool := w.pool_abandonAll (w.unfinished w.pool.tasks)
  simp only [unfinished] at hpool
  simp [shutdown, hopen, unfinished, hpool]

end World

namespace Closing

variable {κ κ' : Closing}

theorem Steps.settled (hstep : Steps κ κ') (hphase : κ.phase ≠ .before)
    (h : κ.office.Settled κ.phase) : κ'.phase ≠ .before ∧ κ'.office.Settled κ'.phase := by
  cases hstep with
  | office hmove => exact ⟨hphase, hmove.settled h⟩
  | mark => contradiction
  | take =>
      refine ⟨nofun, { h with taken := fun _ => rfl, order := ?_, rest := ?_ }⟩
      · exact (List.nodup_append.mp (List.map_append ▸ h.ids)).1
      · intro k hk t ht hundone
        rcases List.mem_append.mp hk with hk | hk
        · exact List.mem_map.mpr ⟨k, hk, rfl⟩
        · exact absurd (h.rest k hk t ht hundone) id
  | @visit σ k ids hk =>
      refine ⟨nofun, { h with rest := fun x hx t ht hundone => ?_ }⟩
      rcases List.mem_cons.mp (h.rest x hx t ht hundone) with hid | hid
      · obtain rfl := List.inj_on_of_nodup_map h.ids (List.mem_append_right _ hx) hk hid
        exact Or.inr ⟨rfl, ht⟩
      · exact Or.inl hid
  | skip hdone =>
      refine ⟨nofun, { h with rest := fun x hx t ht hundone => ?_ }⟩
      refine (h.rest x hx t ht hundone).imp_right fun ⟨hid, hmem⟩ => ⟨hid, ?_⟩
      refine List.mem_of_ne_of_mem ?_ hmem
      rintro rfl
      rw [hdone] at hundone
      contradiction
  | @abandon w fs es rs id t ts ids hundone =>
      have hlater := h.later (w.precedes_abandon t)
      refine ⟨nofun, { hlater with rest := fun x hx t' ht' hundone' => ?_ }⟩
      refine (hlater.rest x hx t' ht' hundone').imp_right fun ⟨hid, hmem⟩ => ⟨hid, ?_⟩
      refine List.mem_of_ne_of_mem ?_ hmem
      rintro rfl
      have hlt := h.tasks t' (List.mem_flatMap.mpr ⟨x, List.mem_append_right _ hx, ht'⟩)
      rw [World.done_abandon hlt] at hundone'
      contradiction
  | @clear σ σ' k ids hreplaces =>
      have hk : k ∈ σ.former := by
        have hstaff := hreplaces.mem_staff
        rwa [Office.staff, h.taken rfl] at hstaff
      have hdone : ∀ t ∈ k.tasks, (σ.world.task t).done = false → t ∈ ([] : List TaskRef) := by
        intro t ht hundone
        rcases h.rest k hk t ht hundone with hid | ⟨-, hmem⟩
        · exact absurd hid (List.nodup_cons.mp h.order).1
        · exact hmem
      have hcleared := h.replace hreplaces rfl (List.forall_mem_nil _) hdone
      refine ⟨by simp, { hcleared with
        order := (List.nodup_cons.mp h.order).2
        rest := fun x hx t ht hundone => ?_ }⟩
      exact (hcleared.rest x hx t ht hundone).resolve_right fun hmem => List.not_mem_nil hmem.2
  | finish =>
      refine ⟨by simp, { h with order := .nil, rest := fun x hx t ht hundone => ?_ }⟩
      exact absurd (h.rest x hx t ht hundone) List.not_mem_nil

theorem settled_of_reaches (hsteps : ReflTransGen Steps κ κ') (hphase : κ.phase ≠ .before)
    (h : κ.office.Settled κ.phase) : κ'.phase ≠ .before ∧ κ'.office.Settled κ'.phase := by
  induction hsteps with
  | refl => exact ⟨hphase, h⟩
  | tail _ hstep ih => exact hstep.settled ih.1 ih.2

/-- If the pool is marked as closed while no call is under way, then whatever calls, workers and the
closing do in the meantime, in the end there are no workers, every task that was accepted is done,
and so nobody waits for it in vain. Calls that look from then on are refused. -/
theorem accepted_tasks_end {config : Config} {w w₁ : World} {fs : List Worker} {es : List Errand}
    {rs : List Round} {σ : Office} (hpool : w.pool = Pool.new config)
    (hreach : ReflTransGen Office.Moves (.opened w) ⟨w₁, fs, es, rs⟩)
    (hquiet : ∀ e ∈ es, e.isUnderWay = false)
    (hsteps : ReflTransGen Steps
      ⟨⟨{ w₁ with pool := { w₁.pool with closed := true } }, fs, es, rs⟩, .marked⟩ ⟨σ, .over⟩) :
    σ.world.pool.workers = [] ∧
      (∀ t, .placed t ∈ σ.errands → (σ.world.task t).done = true) ∧
      ∀ label m, ∃ f, σ.world.schedule label m = .error f := by
  have hmarked := (Office.orderly_of_reaches hpool hreach).settled hquiet
  obtain ⟨-, h⟩ := settled_of_reaches hsteps nofun hmarked
  refine ⟨h.taken rfl, fun t ht => ?_, fun label m => ?_⟩
  · by_contra hundone
    have hmem := h.kept t ht (by simpa using hundone)
    obtain ⟨k, hk, hkt⟩ := List.mem_flatMap.mp hmem
    rw [Office.staff, h.taken rfl] at hk
    exact h.rest k hk t hkt (by simpa using hundone)
  · rw [World.schedule, h.closed]
    exact ⟨_, rfl⟩

/-- A task that is not done when the pool is closed is given up. -/
theorem accepted_tasks_end_abandoned :
    ∃ w₁ fs σ, ReflTransGen Office.Moves (.opened (World.new default)) ⟨w₁, fs, [.placed 0], []⟩ ∧
      (w₁.task 0).done = false ∧
      ReflTransGen Steps ⟨⟨{ w₁ with pool := { w₁.pool with closed := true } }, fs, [.placed 0],
        []⟩, .marked⟩ ⟨σ, .over⟩ ∧
      σ.world.pool.workers = [] ∧ (σ.world.task 0).done = true := by
  let m := Machine.ofBody World.globals []
  let k : Worker := ⟨0, [0], true, 0⟩
  let w₀ := World.new default
  let w₁ : World := { w₀ with
    tasks := #[.new "task" m]
    pool := { w₀.pool with workers := [k], nextId := 1 } }
  let w₂ : World := { w₁ with pool := { w₁.pool with closed := true } }
  let w₃ : World := { w₂ with pool := { w₂.pool with workers := [] } }
  obtain ⟨fs, hreach⟩ : ∃ fs, ReflTransGen Office.Moves (.opened w₀) ⟨w₁, fs, [.placed 0], []⟩ :=
    Office.reaches_schedule (m := m) (by decide) rfl
  have h₁ : Steps ⟨⟨w₂, fs, [.placed 0], []⟩, .marked⟩
      ⟨⟨w₃, k :: fs, [.placed 0], []⟩, .clearing [0]⟩ := .take
  have h₂ : Steps ⟨⟨w₃, k :: fs, [.placed 0], []⟩, .clearing [0]⟩
      ⟨⟨w₃, k :: fs, [.placed 0], []⟩, .abandoning 0 [0] []⟩ := .visit (k := k) (.head _)
  have h₃ : Steps ⟨⟨w₃, k :: fs, [.placed 0], []⟩, .abandoning 0 [0] []⟩
      ⟨⟨w₃.abandon 0, k :: fs, [.placed 0], []⟩, .abandoning 0 [] []⟩ := .abandon rfl
  have h₄ : Steps ⟨⟨w₃.abandon 0, k :: fs, [.placed 0], []⟩, .abandoning 0 [] []⟩
      ⟨⟨w₃.abandon 0, { k with tasks := [] } :: fs, [.placed 0], []⟩, .clearing []⟩ :=
    .clear (k := k) (.former [] fs)
  have hsteps := ((((ReflTransGen.single h₁).tail h₂).tail h₃).tail h₄).tail .finish
  obtain ⟨hworkers, hdone, -⟩ := accepted_tasks_end rfl hreach (by simp [Errand.isUnderWay]) hsteps
  exact ⟨w₁, fs, _, hreach, rfl, hsteps, hworkers, hdone 0 (.head _)⟩

/-! ## Calls that are under way -/

/-- A call looks at the pool before it is marked, and picks a worker when the closing is over. Then
there is a worker in a pool that is closed, with a task that is not done. -/
theorem exists_late_worker :
    ∃ σ, ReflTransGen Steps ⟨.opened (World.new default), .before⟩ ⟨σ, .over⟩ ∧
      (∀ e ∈ σ.errands, e.hasEnded = true) ∧ σ.world.pool.workers ≠ [] ∧
      .placed 0 ∈ σ.errands ∧ (σ.world.task 0).done = false := by
  let m := Machine.ofBody World.globals []
  let w₀ := World.new default
  let w₁ := (w₀.addTask "late" m).1
  let w₂ : World := { w₁ with pool := { w₁.pool with closed := true } }
  let w₃ : World := { w₂ with pool := { w₂.pool with
    workers := [⟨0, [], true, 0⟩], nextId := 1 } }
  let w₄ : World := { w₃ with pool := { w₃.pool with workers := [⟨0, [0], true, 0⟩] } }
  have h₁ : Steps ⟨.opened w₀, .before⟩ ⟨⟨w₀, [], [.begun "late" m], []⟩, .before⟩ :=
    .office (.call _ _)
  have h₂ : Steps ⟨⟨w₀, [], [.begun "late" m], []⟩, .before⟩
      ⟨⟨w₁, [], [.admitted 0], []⟩, .before⟩ := .office (.letIn [] [] rfl)
  have h₃ : Steps ⟨⟨w₁, [], [.admitted 0], []⟩, .before⟩ ⟨⟨w₂, [], [.admitted 0], []⟩, .marked⟩ :=
    .mark
  have h₄ : Steps ⟨⟨w₂, [], [.admitted 0], []⟩, .marked⟩
      ⟨⟨w₂, [], [.admitted 0], []⟩, .clearing []⟩ := .take
  have h₅ : Steps ⟨⟨w₂, [], [.admitted 0], []⟩, .clearing []⟩
      ⟨⟨w₂, [], [.admitted 0], []⟩, .over⟩ := .finish
  have h₆ : Steps ⟨⟨w₂, [], [.admitted 0], []⟩, .over⟩ ⟨⟨w₃, [], [.picked 0 0], []⟩, .over⟩ :=
    .office (.pick (k := ⟨0, [], true, 0⟩) [] [] rfl)
  have h₇ : Steps ⟨⟨w₃, [], [.picked 0 0], []⟩, .over⟩ ⟨⟨w₄, [], [.placed 0], []⟩, .over⟩ :=
    .office (.accept (k := ⟨0, [], true, 0⟩) [] [] rfl (.present [] [] rfl))
  have hsteps := ((((((ReflTransGen.single h₁).tail h₂).tail h₃).tail h₄).tail h₅).tail h₆).tail h₇
  exact ⟨_, hsteps, by simp [Errand.hasEnded], nofun, .head _, rfl⟩

/-- A call picks a worker before the pool is marked, and hands its task to it when the closing is
over: the worker was stopped, but it counts as active and accepts the task. Nobody is there any more
to advance it. -/
theorem exists_late_task :
    ∃ σ, ReflTransGen Steps ⟨.opened (World.new default), .before⟩ ⟨σ, .over⟩ ∧
      (∀ e ∈ σ.errands, e.hasEnded = true) ∧ σ.world.pool.workers = [] ∧
      .placed 0 ∈ σ.errands ∧ (σ.world.task 0).done = false := by
  let m := Machine.ofBody World.globals []
  let k : Worker := ⟨0, [], true, 0⟩
  let w₀ := World.new default
  let w₁ := (w₀.addTask "late" m).1
  let w₂ : World := { w₁ with pool := { w₁.pool with workers := [k], nextId := 1 } }
  let w₃ : World := { w₂ with pool := { w₂.pool with closed := true } }
  let w₄ : World := { w₃ with pool := { w₃.pool with workers := [] } }
  have h₁ : Steps ⟨.opened w₀, .before⟩ ⟨⟨w₀, [], [.begun "late" m], []⟩, .before⟩ :=
    .office (.call _ _)
  have h₂ : Steps ⟨⟨w₀, [], [.begun "late" m], []⟩, .before⟩
      ⟨⟨w₁, [], [.admitted 0], []⟩, .before⟩ := .office (.letIn [] [] rfl)
  have h₃ : Steps ⟨⟨w₁, [], [.admitted 0], []⟩, .before⟩ ⟨⟨w₂, [], [.picked 0 0], []⟩, .before⟩ :=
    .office (.pick (k := k) [] [] rfl)
  have h₄ : Steps ⟨⟨w₂, [], [.picked 0 0], []⟩, .before⟩ ⟨⟨w₃, [], [.picked 0 0], []⟩, .marked⟩ :=
    .mark
  have h₅ : Steps ⟨⟨w₃, [], [.picked 0 0], []⟩, .marked⟩
      ⟨⟨w₄, [k], [.picked 0 0], []⟩, .clearing [0]⟩ := .take
  have h₆ : Steps ⟨⟨w₄, [k], [.picked 0 0], []⟩, .clearing [0]⟩
      ⟨⟨w₄, [k], [.picked 0 0], []⟩, .abandoning 0 [] []⟩ := .visit (k := k) (.head _)
  have h₇ : Steps ⟨⟨w₄, [k], [.picked 0 0], []⟩, .abandoning 0 [] []⟩
      ⟨⟨w₄, [k], [.picked 0 0], []⟩, .clearing []⟩ := .clear (k := k) (.former [] [])
  have h₈ : Steps ⟨⟨w₄, [k], [.picked 0 0], []⟩, .over⟩
      ⟨⟨w₄, [{ k with tasks := [0] }], [.placed 0], []⟩, .over⟩ :=
    .office (.accept (k := k) [] [] rfl (.former [] []))
  have hsteps := (((((((ReflTransGen.single h₁).tail h₂).tail h₃).tail h₄).tail h₅).tail h₆).tail
    h₇).tail .finish |>.tail h₈
  exact ⟨_, hsteps, by simp [Errand.hasEnded], rfl, .head _, rfl⟩

/-- The closing of a pool is not final for calls that are under way: when it is over and all calls
have returned, there may be workers left, and even if there are none, tasks that are not done. -/
theorem closing_is_not_final :
    (¬ ∀ config σ, ReflTransGen Steps ⟨.opened (World.new config), .before⟩ ⟨σ, .over⟩ →
      (∀ e ∈ σ.errands, e.hasEnded = true) → σ.world.pool.workers = []) ∧
      ¬ ∀ config σ, ReflTransGen Steps ⟨.opened (World.new config), .before⟩ ⟨σ, .over⟩ →
        (∀ e ∈ σ.errands, e.hasEnded = true) → σ.world.pool.workers = [] →
        ∀ t, .placed t ∈ σ.errands → (σ.world.task t).done = true := by
  constructor
  · intro hall
    obtain ⟨σ, hsteps, hended, hworkers, -⟩ := exists_late_worker
    exact hworkers (hall default σ hsteps hended)
  · intro hall
    obtain ⟨σ, hsteps, hended, hworkers, hplaced, hundone⟩ := exists_late_task
    have hdone := hall default σ hsteps hended hworkers 0 hplaced
    rw [hundone] at hdone
    contradiction

/-! ## Closing in one go -/

section

open Office (Moves)

variable {w : World} {fs : List Worker} {es : List Errand} {rs : List Round}

/-- All moves of calls and workers are moves during the closing. -/
theorem steps_of_moves {σ σ' : Office} (p : Phase) (hmoves : ReflTransGen Moves σ σ') :
    ReflTransGen Steps ⟨σ, p⟩ ⟨σ', p⟩ :=
  hmoves.lift (fun σ => Closing.mk σ p) fun _ _ => Steps.office

theorem reaches_abandonAll {id : Nat} {ids : List Nat} {ts : List TaskRef} (hnodup : ts.Nodup) :
    ReflTransGen Steps ⟨⟨w, fs, es, rs⟩, .abandoning id ts ids⟩
      ⟨⟨w.abandonAll (w.unfinished ts), fs, es, rs⟩, .abandoning id [] ids⟩ := by
  induction ts generalizing w with
  | nil => exact .refl
  | cons t ts ih =>
      obtain ⟨ht, hnodup⟩ := List.nodup_cons.mp hnodup
      cases hdone : (w.task t).done with
      | true =>
          have hskip : w.unfinished (t :: ts) = w.unfinished ts := by
            simp [World.unfinished, hdone]
          rw [hskip]
          exact .head (.skip hdone) (ih hnodup)
      | false =>
          have habandon : w.unfinished (t :: ts) = t :: (w.abandonAll [t]).unfinished ts := by
            rw [World.unfinished_abandonAll (List.singleton_disjoint.mpr ht)]
            simp [World.unfinished, hdone]
          rw [habandon]
          exact .head (.abandon hdone) (ih hnodup)

/-- The workers are gone through one after the other. -/
theorem reaches_clearing {ks : List Worker} (gs : List Worker)
    (hnodup : (ks.flatMap (·.tasks)).Nodup) :
    ReflTransGen Steps ⟨⟨w, gs ++ (ks ++ fs), es, rs⟩, .clearing (ks.map (·.id))⟩
      ⟨⟨w.abandonAll (w.unfinished (ks.flatMap (·.tasks))),
        gs ++ (ks.map ({ · with tasks := [] }) ++ fs), es, rs⟩, .clearing []⟩ := by
  induction ks generalizing w gs with
  | nil => exact .refl
  | cons k ks ih =>
      rw [List.flatMap_cons] at hnodup
      obtain ⟨hk, hks, hdisjoint⟩ := List.nodup_append'.mp hnodup
      set w₁ := w.abandonAll (w.unfinished k.tasks) with hw₁
      have hvisit : Steps ⟨⟨w, gs ++ (k :: ks ++ fs), es, rs⟩, .clearing ((k :: ks).map (·.id))⟩
          ⟨⟨w, gs ++ (k :: ks ++ fs), es, rs⟩, .abandoning k.id k.tasks (ks.map (·.id))⟩ :=
        .visit (List.mem_append_right _ (List.mem_append_right gs (.head _)))
      have hclear : Steps ⟨⟨w₁, gs ++ (k :: ks ++ fs), es, rs⟩, .abandoning k.id [] (ks.map (·.id))⟩
          ⟨⟨w₁, gs ++ { k with tasks := [] } :: (ks ++ fs), es, rs⟩, .clearing (ks.map (·.id))⟩ :=
        .clear (.former gs (ks ++ fs))
      have hrest := ih (w := w₁) (gs ++ [{ k with tasks := [] }]) hks
      have hsame : w₁.unfinished (ks.flatMap (·.tasks)) = w.unfinished (ks.flatMap (·.tasks)) :=
        World.unfinished_abandonAll fun t ht => hdisjoint (List.mem_of_mem_filter ht)
      rw [hsame, hw₁, ← World.abandonAll_append, World.unfinished, World.unfinished,
        ← List.filter_append, ← List.flatMap_cons] at hrest
      simp only [List.append_assoc, List.singleton_append] at hrest
      exact .head hvisit (((reaches_abandonAll hk).tail hclear).trans hrest)

/-- Closing the pool in one go is made of the moves of whoever closes it. -/
theorem reaches_shutdown (hopen : w.pool.closed = false) (hnodup : w.pool.tasks.Nodup) :
    ∃ fs', ReflTransGen Steps ⟨⟨w, fs, es, rs⟩, .before⟩ ⟨⟨w.shutdown, fs', es, rs⟩, .over⟩ := by
  have hmark : Steps ⟨⟨w, fs, es, rs⟩, .before⟩
      ⟨⟨{ w with pool := { w.pool with closed := true } }, fs, es, rs⟩, .marked⟩ := .mark
  have htake : Steps ⟨⟨{ w with pool := { w.pool with closed := true } }, fs, es, rs⟩, .marked⟩
      ⟨⟨{ w with pool := w.pool.close }, [] ++ (w.pool.workers ++ fs), es, rs⟩,
        .clearing (w.pool.workers.map (·.id))⟩ := .take
  rw [World.shutdown_eq hopen, ← World.abandonAll_withPool]
  exact ⟨_, .head hmark (.head htake ((reaches_clearing [] hnodup).tail .finish))⟩

/-- Calls find the pool open. -/
theorem reaches_addTasks {calls : List LateCall} (hopen : w.pool.closed = false) :
    ReflTransGen Moves ⟨w, fs, es, rs⟩
      ⟨(w.addTasks calls).1, fs, ((w.addTasks calls).2.map .admitted).reverse ++ es, rs⟩ := by
  induction calls generalizing w es with
  | nil => exact .refl
  | cons c calls ih =>
      have hcall : Moves ⟨w, fs, es, rs⟩ ⟨w, fs, .begun c.label c.machine :: es, rs⟩ :=
        .call c.label c.machine
      have hletIn : Moves ⟨w, fs, .begun c.label c.machine :: es, rs⟩
          ⟨(w.addTask c.label c.machine).1, fs,
            .admitted (w.addTask c.label c.machine).2 :: es, rs⟩ := .letIn [] es hopen
      simp only [World.addTasks, List.map_cons, List.reverse_cons, List.append_assoc,
        List.singleton_append]
      exact .head hcall (.head hletIn (ih hopen))

/-- Calls that have found the pool open are placed, whether it is open or not. -/
theorem reaches_assignAll {ts : List TaskRef} (hcapacity : 0 < w.pool.capacity) :
    ∃ gs, ReflTransGen Moves ⟨w, fs, (ts.map .admitted).reverse ++ es, rs⟩
      ⟨{ w with pool := ts.foldl Pool.assign w.pool }, fs ++ gs, (ts.map .placed).reverse ++ es,
        rs⟩ := by
  induction ts generalizing w fs es with
  | nil => exact ⟨[], by rw [List.append_nil]; exact .refl⟩
  | cons t ts ih =>
      simp only [List.map_cons, List.reverse_cons, List.append_assoc, List.singleton_append]
      obtain ⟨gs₁, hassign⟩ := Office.reaches_assign hcapacity
      obtain ⟨gs₂, hrest⟩ := ih (w := { w with pool := w.pool.assign t })
        (Office.capacity_pos_of_reaches hassign hcapacity)
      exact ⟨gs₁ ++ gs₂, List.append_assoc fs gs₁ gs₂ ▸ hassign.trans hrest⟩

/-- Closing the pool while calls are under way follows one of the possible orders of moves. -/
theorem reaches_close {s : Setting} (hopen : w.pool.closed = false)
    (hcapacity : 0 < w.pool.capacity) (hnodup : w.pool.tasks.Nodup) :
    ∃ (fs' : List Worker) (late : List TaskRef), ReflTransGen Steps ⟨⟨w, fs, es, rs⟩, .before⟩
      ⟨⟨w.close s, fs', late.map .placed ++ es, rs⟩, .over⟩ := by
  set calls := w.lateCalls
  set w₁ := (w.addTasks calls).1
  set late := (w.addTasks calls).2
  set w₂ : World := { w₁ with pool := w₁.pool.close }
  set w₃ : World := { w₂ with pool := late.foldl Pool.assign w₂.pool }
  set w₄ := w₃.answerAll s calls late
  have hpool : w₁.pool = w.pool := w.pool_addTasks _
  have hlook : ReflTransGen Moves ⟨w, fs, es, rs⟩
      ⟨w₁, fs, (late.map .admitted).reverse ++ es, rs⟩ := reaches_addTasks hopen
  have hmark : Steps ⟨⟨w₁, fs, (late.map .admitted).reverse ++ es, rs⟩, .before⟩
      ⟨⟨{ w₁ with pool := { w₁.pool with closed := true } }, fs,
        (late.map .admitted).reverse ++ es, rs⟩, .marked⟩ := .mark
  have htake : Steps ⟨⟨{ w₁ with pool := { w₁.pool with closed := true } }, fs,
        (late.map .admitted).reverse ++ es, rs⟩, .marked⟩
      ⟨⟨w₂, w.pool.workers ++ fs, (late.map .admitted).reverse ++ es, rs⟩,
        .clearing (w.pool.workers.map (·.id))⟩ := hpool ▸ .take
  have hcapacity₂ : 0 < w₂.pool.capacity := by
    change 0 < w₁.pool.capacity
    rwa [hpool]
  obtain ⟨gs, hplace⟩ : ∃ gs, ReflTransGen Moves
      ⟨w₂, w.pool.workers ++ fs, (late.map .admitted).reverse ++ es, rs⟩
      ⟨w₃, w.pool.workers ++ fs ++ gs, (late.map .placed).reverse ++ es, rs⟩ :=
    reaches_assignAll hcapacity₂
  have hjoin : w₃.Precedes w₄ := by
    refine World.precedes_answerAll s calls late ?_
    exact Pool.closed_foldl_assign late w₂.pool
  set ended := w₄.abandonAll (w₄.unfinished (w.pool.workers.flatMap (·.tasks)))
  set cleared := w.pool.workers.map ({ · with tasks := [] }) ++ (fs ++ gs)
  have hclear : ReflTransGen Steps
      ⟨⟨w₄, w.pool.workers ++ (fs ++ gs), (late.map .placed).reverse ++ es, rs⟩,
        .clearing (w.pool.workers.map (·.id))⟩
      ⟨⟨ended, cleared, (late.map .placed).reverse ++ es, rs⟩, .clearing []⟩ :=
    reaches_clearing [] hnodup
  have hclose : w.close s = ended := by
    have hended : ended = w₄.abandonAll (w₄.unfinished w₁.pool.tasks) := by
      rw [hpool]
      rfl
    rw [hended, World.close, hopen]
    rfl
  refine ⟨cleared, late.reverse, ?_⟩
  rw [hclose, List.map_reverse]
  refine (steps_of_moves .before hlook).trans (.head hmark (.head htake ?_))
  refine (steps_of_moves _ hplace).trans (.head (.office (.elsewhere hjoin)) ?_)
  rw [List.append_assoc]
  exact hclear.tail .finish

end

end Closing

end Statute
