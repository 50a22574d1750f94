import Statute.Machine.Run
import Mathlib.Data.List.Nodup
import Mathlib.Data.List.Pairwise
import Mathlib.Data.List.Perm.Basic
import Mathlib.Logic.Relation

/-!
# Spreading tasks over workers

Scheduling a machine takes several moves, and between any two of them others can move: a call looks
whether the pool is open, picks a worker, and hands the task to that worker, which may have retired
in the meantime. Then the call picks again. At the same time the workers make their rounds: a worker
notes which tasks it has, advances them one after the other, and in the end lets go of those that
are done. Calls can hand it more tasks while it is on its round. A worker without tasks may retire;
it is removed when the next worker is picked, but calls that picked it before still know it.

Whatever the order of the moves, each task that a worker has accepted is looked after by exactly one
worker until it is done.
-/

namespace Statute

open Relation (ReflTransGen)

/-- How far a call that schedules a machine has got. -/
inductive Errand where
  | begun (label : String) (m : Machine)
  /-- The pool was open, and there is a task. -/
  | admitted (t : TaskRef)
  | picked (t : TaskRef) (worker : Nat)
  /-- The worker has accepted the task. -/
  | placed (t : TaskRef)
  | refused (f : Failure)

/-- The task of a call that found the pool open. -/
def Errand.task? : Errand → Option TaskRef
  | admitted t => some t
  | picked t _ => some t
  | placed t => some t
  | _ => none

/-- The round of a worker: the tasks that it has yet to advance, and whether one of the others was
done. -/
structure Round where
  worker : Nat
  batch : List TaskRef
  finished : Bool

def Worker.sweep (isDone : TaskRef → Bool) (k : Worker) : Worker :=
  { k with tasks := k.tasks.filter fun t => !isDone t }

/-- The world some time later, if nobody was scheduled: a task that was done stays done. -/
structure World.Precedes (w w' : World) : Prop where
  pool : w'.pool = w.pool
  size : w.tasks.size ≤ w'.tasks.size
  done : ∀ t, (w.task t).done = true → (w'.task t).done = true

theorem World.Precedes.undone {w w' : World} {t : TaskRef} (h : w.Precedes w')
    (hundone : (w'.task t).done = false) : (w.task t).done = false := by
  by_contra hdone
  rw [h.done t (by simpa using hdone)] at hundone
  contradiction

theorem World.lt_size_of_done {w : World} {t : TaskRef} (h : (w.task t).done = true) :
    t < w.tasks.size := by
  by_contra hge
  simp [task, hge] at h
  contradiction

theorem World.precedes_addTask (w : World) (label : String) (m : Machine) :
    w.Precedes (w.addTask label m).1 := by
  refine ⟨rfl, ?_, fun t ht => ?_⟩
  · simp [addTask]
  · have hlt := lt_size_of_done ht
    simpa [addTask, task, Array.getElem?_push_lt hlt, hlt] using ht

/-- A world, the workers that were removed from its pool, the calls that schedule something, and the
rounds that workers are on. -/
structure Office where
  world : World
  former : List Worker
  errands : List Errand
  rounds : List Round

namespace Office

def staff (σ : Office) : List Worker :=
  σ.world.pool.workers ++ σ.former

/-- One worker is put in the place of another. -/
inductive Replaces (k k' : Worker) : Office → Office → Prop
  | present {w : World} {fs : List Worker} {es : List Errand} {rs : List Round} (a b : List Worker)
      (hworkers : w.pool.workers = a ++ k :: b) :
      Replaces k k' ⟨w, fs, es, rs⟩
        ⟨{ w with pool := { w.pool with workers := a ++ k' :: b } }, fs, es, rs⟩
  | former {w : World} {es : List Errand} {rs : List Round} (a b : List Worker) :
      Replaces k k' ⟨w, a ++ k :: b, es, rs⟩ ⟨w, a ++ k' :: b, es, rs⟩

/-- One move of a call or of a worker. -/
inductive Moves : Office → Office → Prop
  | call {w : World} {fs : List Worker} {es : List Errand} {rs : List Round} (label : String)
      (m : Machine) : Moves ⟨w, fs, es, rs⟩ ⟨w, fs, .begun label m :: es, rs⟩
  /-- The pool is closed. -/
  | refuse {w : World} {fs : List Worker} {rs : List Round} {label : String} {m : Machine}
      {f : Failure} (a b : List Errand) (hclosed : w.schedule label m = .error f) :
      Moves ⟨w, fs, a ++ .begun label m :: b, rs⟩ ⟨w, fs, a ++ .refused f :: b, rs⟩
  | letIn {w : World} {fs : List Worker} {rs : List Round} {label : String} {m : Machine}
      (a b : List Errand) (hopen : w.pool.closed = false) :
      Moves ⟨w, fs, a ++ .begun label m :: b, rs⟩
        ⟨(w.addTask label m).1, fs, a ++ .admitted (w.addTask label m).2 :: b, rs⟩
  /-- Retired workers are removed, and a worker is picked. -/
  | pick {w : World} {fs : List Worker} {rs : List Round} {t : TaskRef} {k : Worker}
      (a b : List Errand) (hpick : w.pool.pick.1.workers[w.pool.pick.2]? = some k) :
      Moves ⟨w, fs, a ++ .admitted t :: b, rs⟩
        ⟨{ w with pool := w.pool.pick.1 }, fs ++ w.pool.workers.filter (!·.active),
          a ++ .picked t k.id :: b, rs⟩
  /-- Retired workers are removed, but no new one can be taken on. -/
  | fail {w : World} {fs : List Worker} {rs : List Round} {t : TaskRef} (f : Failure)
      (a b : List Errand) :
      Moves ⟨w, fs, a ++ .admitted t :: b, rs⟩
        ⟨{ w with pool := { w.pool.purge with nextId := w.pool.nextId + 1 } },
          fs ++ w.pool.workers.filter (!·.active), a ++ .refused f :: b, rs⟩
  | accept {w : World} {fs : List Worker} {rs : List Round} {t : TaskRef} {k k' : Worker}
      {σ : Office} (a b : List Errand) (hsubmit : k.submit? t = some k')
      (hreplaces : Replaces k k' ⟨w, fs, a ++ .placed t :: b, rs⟩ σ) :
      Moves ⟨w, fs, a ++ .picked t k.id :: b, rs⟩ σ
  | reject {w : World} {fs : List Worker} {rs : List Round} {t : TaskRef} {k : Worker}
      (a b : List Errand) (hk : k ∈ w.pool.workers ++ fs) (hsubmit : k.submit? t = none) :
      Moves ⟨w, fs, a ++ .picked t k.id :: b, rs⟩ ⟨w, fs, a ++ .admitted t :: b, rs⟩
  /-- A worker notes its tasks. -/
  | snapshot {w : World} {fs : List Worker} {es : List Errand} {rs : List Round} {k : Worker}
      (hk : k ∈ w.pool.workers ++ fs) (hactive : k.active = true)
      (hfree : ∀ r ∈ rs, r.worker ≠ k.id) :
      Moves ⟨w, fs, es, rs⟩ ⟨w, fs, es, ⟨k.id, k.tasks, false⟩ :: rs⟩
  | advance {w w' : World} {fs : List Worker} {es : List Errand} {id : Nat} {t : TaskRef}
      {ts : List TaskRef} {finished : Bool} (a b : List Round) (hlater : w.Precedes w') :
      Moves ⟨w, fs, es, a ++ ⟨id, t :: ts, finished⟩ :: b⟩
        ⟨w', fs, es, a ++ ⟨id, ts, finished || (w'.task t).done⟩ :: b⟩
  /-- A worker lets go of the tasks that are done. -/
  | sweep {w : World} {fs : List Worker} {es : List Errand} {k : Worker} {ts : List TaskRef}
      {σ : Office} (a b : List Round)
      (hreplaces : Replaces k (k.sweep fun t => (w.task t).done) ⟨w, fs, es, a ++ b⟩ σ) :
      Moves ⟨w, fs, es, a ++ ⟨k.id, ts, true⟩ :: b⟩ σ
  | home {w : World} {fs : List Worker} {es : List Errand} {id : Nat} {ts : List TaskRef}
      (a b : List Round) :
      Moves ⟨w, fs, es, a ++ ⟨id, ts, false⟩ :: b⟩ ⟨w, fs, es, a ++ b⟩
  | retire {w : World} {fs : List Worker} {es : List Errand} {rs : List Round} {k : Worker}
      {σ : Office} (htasks : k.tasks = [])
      (hreplaces : Replaces k { k with active := false } ⟨w, fs, es, rs⟩ σ) :
      Moves ⟨w, fs, es, rs⟩ σ
  | elsewhere {w w' : World} {fs : List Worker} {es : List Errand} {rs : List Round}
      (hlater : w.Precedes w') : Moves ⟨w, fs, es, rs⟩ ⟨w', fs, es, rs⟩

def opened (w : World) : Office :=
  ⟨w, [], [], []⟩

/-! ## What every move keeps -/

/-- What holds while the pool is open. -/
structure Orderly (c : Nat) (σ : Office) : Prop where
  isOpen : σ.world.pool.closed = false
  capacity : σ.world.pool.capacity = c
  length : σ.world.pool.workers.length ≤ c
  ids : (σ.staff.map (·.id)).Nodup
  known : ∀ k ∈ σ.staff, k.id < σ.world.pool.nextId
  former : ∀ k ∈ σ.former, k.active = false
  idle : ∀ k ∈ σ.staff, k.active = false → k.tasks = []
  distinct : (σ.staff.flatMap (·.tasks)).Nodup
  placed : ∀ t ∈ σ.staff.flatMap (·.tasks), .placed t ∈ σ.errands
  /-- A task that was accepted is looked after until it is done. -/
  kept : ∀ t, .placed t ∈ σ.errands → (σ.world.task t).done = false →
    t ∈ σ.staff.flatMap (·.tasks)
  errands : (σ.errands.filterMap Errand.task?).Nodup
  tasks : ∀ t ∈ σ.errands.filterMap Errand.task?, t < σ.world.tasks.size
  rounds : (σ.rounds.map (·.worker)).Nodup
  onRound : ∀ r ∈ σ.rounds, r.worker ∈ σ.staff.map (·.id) ∧ r.batch.Nodup ∧
    ∀ k ∈ σ.staff, k.id = r.worker →
      ∀ t ∈ r.batch, (σ.world.task t).done = false → t ∈ k.tasks

variable {c : Nat} {σ σ' : Office} {w w' : World} {fs : List Worker} {es a b : List Errand}
  {rs : List Round} {k k' : Worker} {t : TaskRef}

theorem orderly_opened {config : Config} (hpool : w.pool = Pool.new config) :
    (opened w).Orderly (max 1 config.maxWorkers) := by
  obtain ⟨heap, tasks, pool, output⟩ := w
  change pool = Pool.new config at hpool
  subst hpool
  exact
    { isOpen := rfl
      capacity := rfl
      length := Nat.zero_le _
      ids := .nil
      known := List.forall_mem_nil _
      former := List.forall_mem_nil _
      idle := List.forall_mem_nil _
      distinct := .nil
      placed := List.forall_mem_nil _
      kept := fun t ht => absurd ht List.not_mem_nil
      errands := .nil
      tasks := List.forall_mem_nil _
      rounds := .nil
      onRound := List.forall_mem_nil _ }

/-! ### Calls -/

/-- A call gets further, or is refused, without its task being accepted. -/
theorem Orderly.report {e d : Errand} (h : Orderly c ⟨w, fs, a ++ e :: b, rs⟩)
    (he : ∀ t, e ≠ .placed t) (hd : ∀ t, d ≠ .placed t)
    (htask : d.task? = e.task? ∨ d.task? = none) : Orderly c ⟨w, fs, a ++ d :: b, rs⟩ := by
  have hsub : ((a ++ d :: b).filterMap Errand.task?).Sublist
      ((a ++ e :: b).filterMap Errand.task?) := by
    simp only [List.filterMap_append, List.filterMap_cons]
    refine .append (.refl _) ?_
    rcases htask with htask | htask
    · rw [htask]
    · rw [htask]
      cases e.task? with
      | none => exact .refl _
      | some t => exact List.sublist_cons_self _ _
  have hplaced : ∀ t, .placed t ∈ a ++ d :: b ↔ .placed t ∈ a ++ e :: b := by
    intro t
    simp [Ne.symm (he t), Ne.symm (hd t)]
  exact { h with
    placed := fun t ht => (hplaced t).mpr (h.placed t ht)
    kept := fun t ht => h.kept t ((hplaced t).mp ht)
    errands := h.errands.sublist hsub
    tasks := fun t ht => h.tasks t (hsub.subset ht) }

theorem Orderly.call (h : Orderly c ⟨w, fs, es, rs⟩) (label : String) (m : Machine) :
    Orderly c ⟨w, fs, .begun label m :: es, rs⟩ :=
  { h with
    placed := fun t ht => List.mem_cons_of_mem _ (h.placed t ht)
    kept := fun t ht => h.kept t (List.mem_of_ne_of_mem (y := .begun label m) nofun ht)
    errands := h.errands
    tasks := h.tasks }

/-- Some time goes by. -/
theorem Orderly.later (h : Orderly c ⟨w, fs, es, rs⟩) (hlater : w.Precedes w') :
    Orderly c ⟨w', fs, es, rs⟩ := by
  have hundone : ∀ t, (w'.task t).done = false → (w.task t).done = false := fun t => hlater.undone
  obtain ⟨heap, tasks, pool, output⟩ := w'
  obtain ⟨hpool, hsize, -⟩ := hlater
  change pool = w.pool at hpool
  subst hpool
  exact { h with
    kept := fun t ht hnow => h.kept t ht (hundone t hnow)
    tasks := fun t ht => Nat.lt_of_lt_of_le (h.tasks t ht) hsize
    onRound := by
      intro r hr
      obtain ⟨hworker, hnodup, hbatch⟩ := h.onRound r hr
      exact ⟨hworker, hnodup, fun k hk hid t ht hnow => hbatch k hk hid t ht (hundone t hnow)⟩ }

/-- A call that finds the pool open has a new task. -/
theorem Orderly.letIn {label : String} {m : Machine}
    (h : Orderly c ⟨w, fs, a ++ .begun label m :: b, rs⟩) :
    Orderly c ⟨(w.addTask label m).1, fs, a ++ .admitted (w.addTask label m).2 :: b, rs⟩ := by
  have hnow := h.later (World.precedes_addTask w label m)
  have hplaced : ∀ t t', .placed t ∈ a ++ .admitted t' :: b ↔
      .placed t ∈ a ++ .begun label m :: b := by simp
  have hold : (a ++ .begun label m :: b).filterMap Errand.task? =
      (a ++ b).filterMap Errand.task? := by
    simp [List.filterMap_append, List.filterMap_cons, Errand.task?]
  have hperm : ((a ++ .admitted w.tasks.size :: b).filterMap Errand.task?).Perm
      (w.tasks.size :: (a ++ b).filterMap Errand.task?) :=
    (List.perm_middle.filterMap _).trans (.of_eq rfl)
  exact { hnow with
    placed := fun t ht => (hplaced t _).mpr (hnow.placed t ht)
    kept := fun t ht => hnow.kept t ((hplaced t _).mp ht)
    errands := by
      refine hperm.nodup_iff.mpr (List.nodup_cons.mpr ⟨fun hmem => ?_, hold ▸ h.errands⟩)
      exact absurd (h.tasks _ (hold ▸ hmem)) (Nat.lt_irrefl _)
    tasks := by
      intro t ht
      rcases List.mem_cons.mp (hperm.mem_iff.mp ht) with rfl | ht
      · simp [World.addTask]
      · exact hnow.tasks t (hold ▸ ht) }

/-! ### The list of workers -/

/-- Retired workers are removed. -/
theorem Orderly.purge (h : Orderly c ⟨w, fs, es, rs⟩) :
    Orderly c ⟨{ w with pool := w.pool.purge }, fs ++ w.pool.workers.filter (!·.active), es,
      rs⟩ := by
  have hstaff : (Office.mk { w with pool := w.pool.purge }
      (fs ++ w.pool.workers.filter (!·.active)) es rs).staff.Perm (w.pool.workers ++ fs) := by
    refine .trans ?_ ((List.filter_append_perm (·.active) w.pool.workers).append_right fs)
    rw [staff, List.append_assoc]
    exact List.perm_append_comm.append_left _
  have htasks := hstaff.flatMap_right (·.tasks)
  have hids := hstaff.map (·.id)
  exact
    { isOpen := h.isOpen
      capacity := h.capacity
      length := Nat.le_trans (List.length_filter_le _ _) h.length
      ids := hids.nodup_iff.mpr h.ids
      known := fun k hk => h.known k (hstaff.mem_iff.mp hk)
      former := by
        intro k hk
        rcases List.mem_append.mp hk with hk | hk
        · exact h.former k hk
        · simpa using (List.mem_filter.mp hk).2
      idle := fun k hk => h.idle k (hstaff.mem_iff.mp hk)
      distinct := htasks.nodup_iff.mpr h.distinct
      placed := fun t ht => h.placed t (htasks.mem_iff.mp ht)
      kept := fun t ht hundone => htasks.mem_iff.mpr (h.kept t ht hundone)
      errands := h.errands
      tasks := h.tasks
      rounds := h.rounds
      onRound := by
        intro r hr
        obtain ⟨hworker, hnodup, hbatch⟩ := h.onRound r hr
        exact ⟨hids.mem_iff.mpr hworker, hnodup, fun k hk => hbatch k (hstaff.mem_iff.mp hk)⟩ }

/-- A new worker is taken on. -/
theorem Orderly.recruit (h : Orderly c ⟨w, fs, es, rs⟩)
    (hroom : w.pool.workers.length < w.pool.capacity) :
    Orderly c ⟨{ w with pool := { w.pool with
      workers := w.pool.workers ++ [Worker.new w.pool.nextId w.pool.clock]
      nextId := w.pool.nextId + 1 } }, fs, es, rs⟩ := by
  set new := Worker.new w.pool.nextId w.pool.clock with hnew
  have hstaff : ((w.pool.workers ++ [new]) ++ fs).Perm (new :: (w.pool.workers ++ fs)) := by
    rw [List.append_assoc]
    exact List.perm_middle
  have htasks : ((w.pool.workers ++ [new]) ++ fs).flatMap (·.tasks) =
      (w.pool.workers ++ fs).flatMap (·.tasks) := by
    simp [List.flatMap_append, hnew, Worker.new]
  have hunknown : w.pool.nextId ∉ (w.pool.workers ++ fs).map (·.id) := by
    intro hmem
    obtain ⟨k, hk, hid⟩ := List.mem_map.mp hmem
    exact absurd hid (Nat.ne_of_lt (h.known k hk))
  have hcases : ∀ k, k ∈ (w.pool.workers ++ [new]) ++ fs → k = new ∨ k ∈ w.pool.workers ++ fs :=
    fun k hk => List.mem_cons.mp (hstaff.mem_iff.mp hk)
  exact
    { isOpen := h.isOpen
      capacity := h.capacity
      length := by
        have hcapacity := h.capacity
        simp only [List.length_append, List.length_singleton] at hcapacity ⊢
        omega
      ids := (hstaff.map _).nodup_iff.mpr (List.nodup_cons.mpr ⟨hunknown, h.ids⟩)
      known := by
        intro k hk
        rcases hcases k hk with rfl | hk
        · exact Nat.lt_succ_self _
        · exact Nat.lt_succ_of_lt (h.known k hk)
      former := h.former
      idle := by
        intro k hk hactive
        rcases hcases k hk with rfl | hk
        · contradiction
        · exact h.idle k hk hactive
      distinct := by
        change (((w.pool.workers ++ [new]) ++ fs).flatMap (·.tasks)).Nodup
        rw [htasks]
        exact h.distinct
      placed := fun t ht => h.placed t (htasks ▸ ht)
      kept := fun t ht hundone => htasks ▸ h.kept t ht hundone
      errands := h.errands
      tasks := h.tasks
      rounds := h.rounds
      onRound := by
        intro r hr
        obtain ⟨hworker, hnodup, hbatch⟩ := h.onRound r hr
        refine ⟨?_, hnodup, fun k hk hid => ?_⟩
        · exact (hstaff.map _).mem_iff.mpr (List.mem_cons_of_mem _ hworker)
        · rcases hcases k hk with rfl | hk
          · rw [← hid] at hworker
            exact absurd hworker hunknown
          · exact hbatch k hk hid }

/-- A worker is picked. -/
theorem Orderly.pick (h : Orderly c ⟨w, fs, es, rs⟩) :
    Orderly c ⟨{ w with pool := w.pool.pick.1 }, fs ++ w.pool.workers.filter (!·.active), es,
      rs⟩ := by
  have hpurge := h.purge
  unfold Pool.pick
  simp only
  split
  · next hroom => exact hpurge.recruit hroom
  · exact { hpurge with }

/-- The place that is picked is one of the list. -/
theorem Orderly.pick_lt (h : σ.Orderly c) (hpos : 0 < c) :
    σ.world.pool.pick.2 < σ.world.pool.pick.1.workers.length := by
  have hcapacity := h.capacity
  unfold Pool.pick
  simp only
  split
  · simp
  · next hfull =>
      refine Nat.mod_lt _ ?_
      change ¬ σ.world.pool.purge.workers.length < σ.world.pool.capacity at hfull
      omega

/-! ### One worker -/

theorem Replaces.staff (h : Replaces k k' σ σ') :
    ∃ a b, σ.staff = a ++ k :: b ∧ σ'.staff = a ++ k' :: b := by
  cases h with
  | @present w fs es rs a b hworkers =>
      refine ⟨a, b ++ fs, ?_, ?_⟩
      · simp [Office.staff, hworkers]
      · simp [Office.staff]
  | @former w es rs a b =>
      refine ⟨w.pool.workers ++ a, b, ?_, ?_⟩
      · simp [Office.staff]
      · simp [Office.staff]

theorem Replaces.mem_staff (h : Replaces k k' σ σ') : k ∈ σ.staff := by
  obtain ⟨a, b, hstaff, -⟩ := h.staff
  rw [hstaff]
  exact List.mem_append_right a List.mem_cons_self

theorem Replaces.cases_staff (h : Replaces k k' σ σ') : ∀ x ∈ σ'.staff, x = k' ∨ x ∈ σ.staff := by
  obtain ⟨a, b, hstaff, hstaff'⟩ := h.staff
  intro x hx
  rw [hstaff'] at hx
  rw [hstaff]
  rcases List.mem_append.mp hx with hx | hx
  · exact Or.inr (List.mem_append_left _ hx)
  · exact (List.mem_cons.mp hx).imp_right fun hx =>
      List.mem_append_right a (List.mem_cons_of_mem k hx)

theorem Replaces.map_id (h : Replaces k k' σ σ') (hid : k'.id = k.id) :
    σ'.staff.map (·.id) = σ.staff.map (·.id) := by
  obtain ⟨a, b, hstaff, hstaff'⟩ := h.staff
  rw [hstaff, hstaff']
  simp [hid]

theorem Replaces.mem_tasks (h : Replaces k k' σ σ') (hkept : t ∈ k.tasks → t ∈ k'.tasks)
    (ht : t ∈ σ.staff.flatMap (·.tasks)) : t ∈ σ'.staff.flatMap (·.tasks) := by
  obtain ⟨a, b, hstaff, hstaff'⟩ := h.staff
  rw [hstaff] at ht
  rw [hstaff']
  simp only [List.flatMap_append, List.flatMap_cons, List.mem_append] at ht ⊢
  exact ht.imp_right (Or.imp_left hkept)

theorem Replaces.frame (h : Replaces k k' ⟨w, fs, es, rs⟩ σ') :
    ∃ ws fs', σ' = ⟨{ w with pool := { w.pool with workers := ws } }, fs', es, rs⟩ ∧
      ws.length = w.pool.workers.length ∧ ∀ x ∈ fs', x ∈ fs ∨ x = k' ∧ k ∈ fs := by
  cases h with
  | present a b hworkers =>
      refine ⟨a ++ k' :: b, fs, rfl, ?_, fun x => Or.inl⟩
      simp [hworkers]
  | former a b =>
      refine ⟨w.pool.workers, a ++ k' :: b, rfl, rfl, fun x hx => ?_⟩
      rcases List.mem_append.mp hx with hx | hx
      · exact Or.inl (List.mem_append_left _ hx)
      · rcases List.mem_cons.mp hx with rfl | hx
        · exact Or.inr ⟨rfl, List.mem_append_right a List.mem_cons_self⟩
        · exact Or.inl (List.mem_append_right a (List.mem_cons_of_mem k hx))

/-- Another worker with the same number is put in the place of one. -/
theorem Orderly.replace {es' : List Errand} (h : Orderly c ⟨w, fs, es, rs⟩)
    (hreplaces : Replaces k k' ⟨w, fs, es', rs⟩ σ') (hid : k'.id = k.id)
    (hretired : k.active = false → k'.active = false)
    (hidle : k'.active = false → k'.tasks = [])
    (hround : ∀ t ∈ k.tasks, (w.task t).done = false → t ∈ k'.tasks)
    (hdistinct : (σ'.staff.flatMap (·.tasks)).Nodup)
    (hplaced : ∀ t ∈ σ'.staff.flatMap (·.tasks), .placed t ∈ es')
    (hkept : ∀ t, .placed t ∈ es' → (w.task t).done = false → t ∈ σ'.staff.flatMap (·.tasks))
    (herrands : es'.filterMap Errand.task? = es.filterMap Errand.task?) : σ'.Orderly c := by
  have hk : k ∈ w.pool.workers ++ fs := hreplaces.mem_staff
  have hcases := hreplaces.cases_staff
  have hids : σ'.staff.map (·.id) = (w.pool.workers ++ fs).map (·.id) := hreplaces.map_id hid
  have hknown : ∀ x ∈ σ'.staff, x.id < w.pool.nextId := by
    intro x hx
    rcases hcases x hx with rfl | hx
    · rw [hid]
      exact h.known k hk
    · exact h.known x hx
  have hidle' : ∀ x ∈ σ'.staff, x.active = false → x.tasks = [] := by
    intro x hx hactive
    rcases hcases x hx with rfl | hx
    · exact hidle hactive
    · exact h.idle x hx hactive
  have hrounds : ∀ r ∈ rs, r.worker ∈ σ'.staff.map (·.id) ∧ r.batch.Nodup ∧
      ∀ x ∈ σ'.staff, x.id = r.worker →
        ∀ t ∈ r.batch, (w.task t).done = false → t ∈ x.tasks := by
    intro r hr
    obtain ⟨hworker, hnodup, hbatch⟩ := h.onRound r hr
    refine ⟨hids ▸ hworker, hnodup, fun x hx hxid => ?_⟩
    rcases hcases x hx with rfl | hx
    · rw [hid] at hxid
      exact fun t ht hundone => hround t (hbatch k hk hxid t ht hundone) hundone
    · exact hbatch x hx hxid
  obtain ⟨ws, fs', rfl, hlength, hformer⟩ := hreplaces.frame
  exact
    { isOpen := h.isOpen
      capacity := h.capacity
      length := Nat.le_trans (Nat.le_of_eq hlength) h.length
      ids := hids ▸ h.ids
      known := hknown
      former := by
        intro x hx
        rcases hformer x hx with hx | ⟨rfl, hk⟩
        · exact h.former x hx
        · exact hretired (h.former k hk)
      idle := hidle'
      distinct := hdistinct
      placed := hplaced
      kept := hkept
      errands := herrands ▸ h.errands
      tasks := fun t ht => h.tasks t (herrands ▸ ht)
      rounds := h.rounds
      onRound := hrounds }

/-- A worker accepts the task of a call. -/
theorem Orderly.accept (h : Orderly c ⟨w, fs, a ++ .picked t k.id :: b, rs⟩)
    (hsubmit : k.submit? t = some k')
    (hreplaces : Replaces k k' ⟨w, fs, a ++ .placed t :: b, rs⟩ σ') : σ'.Orderly c := by
  obtain ⟨hactive, rfl⟩ : k.active = true ∧ { k with tasks := k.tasks ++ [t] } = k' := by
    unfold Worker.submit? at hsubmit
    split at hsubmit
    · next hactive => exact ⟨hactive, Option.some.inj hsubmit⟩
    · contradiction
  have hperm : (σ'.staff.flatMap (·.tasks)).Perm
      (t :: (w.pool.workers ++ fs).flatMap (·.tasks)) := by
    obtain ⟨a, b, hstaff, hstaff'⟩ := hreplaces.staff
    change w.pool.workers ++ fs = a ++ k :: b at hstaff
    rw [hstaff, hstaff']
    simp only [List.flatMap_append, List.flatMap_cons, List.append_assoc, List.singleton_append]
    exact ((List.perm_middle.append_left _).trans List.perm_middle)
  have hnot : .placed t ∉ a ++ .picked t k.id :: b := by
    intro hmem
    have hmid : (a ++ .picked t k.id :: b).Perm (.picked t k.id :: (a ++ b)) := List.perm_middle
    have hnodup : (t :: (a ++ b).filterMap Errand.task?).Nodup :=
      (hmid.filterMap Errand.task?).nodup_iff.mp h.errands
    have hother : .placed t ∈ a ++ b :=
      List.mem_of_ne_of_mem (y := .picked t k.id) nofun (hmid.mem_iff.mp hmem)
    exact (List.nodup_cons.mp hnodup).1 (List.mem_filterMap.mpr ⟨_, hother, rfl⟩)
  have hplaced : ∀ t', .placed t' ∈ a ++ .placed t :: b ↔
      t' = t ∨ .placed t' ∈ a ++ .picked t k.id :: b := by
    intro t'
    simp
    tauto
  refine h.replace hreplaces rfl (fun hretired => ?_) (fun hretired => ?_) (fun t' ht' _ => ?_)
    ?_ ?_ ?_ ?_
  · rw [hactive] at hretired
    contradiction
  · rw [hactive] at hretired
    contradiction
  · exact List.mem_append_left _ ht'
  · refine hperm.nodup_iff.mpr (List.nodup_cons.mpr ⟨fun hmem => ?_, h.distinct⟩)
    exact hnot (h.placed t hmem)
  · intro t' ht'
    rcases List.mem_cons.mp (hperm.mem_iff.mp ht') with rfl | ht'
    · exact (hplaced t').mpr (Or.inl rfl)
    · exact (hplaced t').mpr (Or.inr (h.placed t' ht'))
  · intro t' ht' hundone
    refine hperm.mem_iff.mpr ?_
    rcases (hplaced t').mp ht' with rfl | ht'
    · exact List.mem_cons_self
    · exact List.mem_cons_of_mem t (h.kept t' ht' hundone)
  · simp [List.filterMap_append, Errand.task?]

/-- A worker keeps some of its tasks, among them those that are not done. -/
theorem Orderly.release (h : Orderly c ⟨w, fs, es, rs⟩)
    (hreplaces : Replaces k k' ⟨w, fs, es, rs⟩ σ') (hid : k'.id = k.id)
    (hretired : k.active = false → k'.active = false)
    (hidle : k'.active = false → k'.tasks = [])
    (hsub : k'.tasks.Sublist k.tasks)
    (hkept : ∀ t ∈ k.tasks, (w.task t).done = false → t ∈ k'.tasks) : σ'.Orderly c := by
  have hless : (σ'.staff.flatMap (·.tasks)).Sublist ((w.pool.workers ++ fs).flatMap (·.tasks)) := by
    obtain ⟨a, b, hstaff, hstaff'⟩ := hreplaces.staff
    change w.pool.workers ++ fs = a ++ k :: b at hstaff
    rw [hstaff, hstaff']
    simp only [List.flatMap_append, List.flatMap_cons]
    exact (List.Sublist.refl _).append (hsub.append (.refl _))
  refine h.replace hreplaces hid hretired hidle hkept (h.distinct.sublist hless)
    (fun t ht => h.placed t (hless.subset ht)) (fun t ht hundone => ?_) rfl
  exact hreplaces.mem_tasks (fun hk => hkept t hk hundone) (h.kept t ht hundone)

/-! ### Rounds -/

/-- A worker goes on a round. -/
theorem Orderly.setOut (h : Orderly c ⟨w, fs, es, rs⟩) (hk : k ∈ w.pool.workers ++ fs)
    (hfree : ∀ r ∈ rs, r.worker ≠ k.id) :
    Orderly c ⟨w, fs, es, ⟨k.id, k.tasks, false⟩ :: rs⟩ := by
  have hmine : ∀ x ∈ w.pool.workers ++ fs, x.id = k.id → x = k := fun x hx hid =>
    List.inj_on_of_nodup_map h.ids hx hk hid
  have htasks : k.tasks.Nodup := (List.nodup_flatMap.mp h.distinct).1 k hk
  exact { h with
    rounds := by
      refine List.nodup_cons.mpr ⟨fun hmem => ?_, h.rounds⟩
      obtain ⟨r, hr, hworker⟩ := List.mem_map.mp hmem
      exact hfree r hr hworker
    onRound := by
      intro r hr
      rcases List.mem_cons.mp hr with rfl | hr
      · refine ⟨List.mem_map.mpr ⟨k, hk, rfl⟩, htasks, fun x hx hid => ?_⟩
        rw [hmine x hx hid]
        exact fun t ht _ => ht
      · exact h.onRound r hr }

/-- A worker has less to do on its round. -/
theorem Orderly.proceed {r r' : Round} {a b : List Round} (h : Orderly c ⟨w, fs, es, a ++ r :: b⟩)
    (hworker : r'.worker = r.worker) (hbatch : r'.batch.Sublist r.batch) :
    Orderly c ⟨w, fs, es, a ++ r' :: b⟩ :=
  { h with
    rounds := by
      have hrounds := h.rounds
      simp only [List.map_append, List.map_cons] at hrounds ⊢
      rwa [hworker]
    onRound := by
      intro x hx
      have hr := h.onRound r (List.mem_append_right a List.mem_cons_self)
      rcases List.mem_append.mp hx with hx | hx
      · exact h.onRound x (List.mem_append_left _ hx)
      · rcases List.mem_cons.mp hx with rfl | hx
        · obtain ⟨hknown, hnodup, hall⟩ := hr
          exact ⟨hworker ▸ hknown, hnodup.sublist hbatch, fun k hk hid t ht =>
            hall k hk (hid.trans hworker) t (hbatch.subset ht)⟩
        · exact h.onRound x (List.mem_append_right a (List.mem_cons_of_mem r hx)) }

/-- A worker comes home from its round. -/
theorem Orderly.home {r : Round} {a b : List Round} (h : Orderly c ⟨w, fs, es, a ++ r :: b⟩) :
    Orderly c ⟨w, fs, es, a ++ b⟩ := by
  have hsub : (a ++ b).Sublist (a ++ r :: b) :=
    (List.Sublist.refl a).append (List.sublist_cons_self r b)
  exact { h with
    rounds := h.rounds.sublist (hsub.map _)
    onRound := fun x hx => h.onRound x (hsub.subset hx) }

/-- Every move leaves an orderly office orderly. -/
theorem Moves.orderly (hmove : Moves σ σ') (h : σ.Orderly c) : σ'.Orderly c := by
  cases hmove with
  | call label m => exact h.call label m
  | refuse a b hclosed => exact h.report nofun nofun (Or.inr rfl)
  | letIn a b hopen => exact h.letIn
  | pick a b hpick => exact Orderly.pick (h.report nofun nofun (Or.inl rfl))
  | fail f a b =>
      have hpurge := Orderly.purge (h.report (d := .refused f) nofun nofun (Or.inr rfl))
      exact { hpurge with known := fun k hk => Nat.lt_succ_of_lt (hpurge.known k hk) }
  | accept a b hsubmit hreplaces => exact h.accept hsubmit hreplaces
  | reject a b hk hsubmit => exact h.report nofun nofun (Or.inl rfl)
  | snapshot hk hactive hfree => exact h.setOut hk hfree
  | advance a b hlater => exact (h.later hlater).proceed rfl (List.sublist_cons_self _ _)
  | @sweep w fs es k ts σ a b hreplaces =>
      refine h.home.release hreplaces rfl id (fun hretired => ?_) List.filter_sublist
        (fun t ht hundone => ?_)
      · rw [Worker.sweep, h.idle k hreplaces.mem_staff hretired]
        rfl
      · exact List.mem_filter.mpr ⟨ht, by simp [hundone]⟩
  | home a b => exact h.home
  | retire htasks hreplaces =>
      exact h.release hreplaces rfl (fun _ => rfl) (fun _ => htasks) (.refl _) fun t ht _ => ht
  | elsewhere hlater => exact h.later hlater

theorem orderly_of_reaches {config : Config} (hpool : w.pool = Pool.new config)
    (hreach : ReflTransGen Moves (opened w) σ) : σ.Orderly (max 1 config.maxWorkers) := by
  induction hreach with
  | refl => exact orderly_opened hpool
  | tail _ hmove ih => exact hmove.orderly ih

/-- The worker that looks after a task. -/
theorem Orderly.exists_worker (h : σ.Orderly c) (hplaced : .placed t ∈ σ.errands)
    (hundone : (σ.world.task t).done = false) :
    ∃ k ∈ σ.world.pool.workers, k.active = true ∧ t ∈ k.tasks := by
  obtain ⟨k, hk, ht⟩ := List.mem_flatMap.mp (h.kept t hplaced hundone)
  have hactive : k.active = true := by
    by_contra hretired
    rw [h.idle k hk (by simpa using hretired)] at ht
    contradiction
  rcases List.mem_append.mp hk with hk | hk
  · exact ⟨k, hk, hactive, ht⟩
  · rw [h.former k hk] at hactive
    contradiction

/-- Two workers never have the same task. -/
theorem Orderly.eq_of_mem_tasks (h : σ.Orderly c) (hk : k ∈ σ.staff) (hk' : k' ∈ σ.staff)
    (ht : t ∈ k.tasks) (ht' : t ∈ k'.tasks) : k = k' := by
  by_contra hne
  have hsymm : Std.Symm (Function.onFun List.Disjoint fun k : Worker => k.tasks) :=
    ⟨fun _ _ hdisjoint _ ht ht' => hdisjoint ht' ht⟩
  exact (List.nodup_flatMap.mp h.distinct).2.forall hk hk' hne ht ht'

/-- A task that is not done is on the round of one worker at most. -/
theorem Orderly.eq_of_mem_batch (h : σ.Orderly c) {r r' : Round} (hr : r ∈ σ.rounds)
    (hr' : r' ∈ σ.rounds) (ht : t ∈ r.batch) (ht' : t ∈ r'.batch)
    (hundone : (σ.world.task t).done = false) : r = r' := by
  obtain ⟨hworker, -, hbatch⟩ := h.onRound r hr
  obtain ⟨hworker', -, hbatch'⟩ := h.onRound r' hr'
  obtain ⟨k, hk, hid⟩ := List.mem_map.mp hworker
  obtain ⟨k', hk', hid'⟩ := List.mem_map.mp hworker'
  have heq := h.eq_of_mem_tasks hk hk' (hbatch k hk hid t ht hundone)
    (hbatch' k' hk' hid' t ht' hundone)
  refine List.inj_on_of_nodup_map h.rounds hr hr' ?_
  rw [← hid, ← hid', heq]

/-- However calls and workers take turns, each task that was accepted and is not done is in the list
of exactly one worker, and that worker is in the pool and has not retired. No task that is not done
is on two rounds at once, and on no round is a task twice. A retired worker has no tasks, and there
are never more workers than allowed, so the place that is picked is one of the list. -/
theorem accepted_tasks_have_one_worker {config : Config} (hpool : w.pool = Pool.new config)
    (hreach : ReflTransGen Moves (opened w) σ) :
    (∀ t, .placed t ∈ σ.errands → (σ.world.task t).done = false →
      (σ.staff.flatMap (·.tasks)).count t = 1 ∧
        ∃ k ∈ σ.world.pool.workers, k.active = true ∧ t ∈ k.tasks) ∧
      (∀ r ∈ σ.rounds, r.batch.Nodup ∧ ∀ r' ∈ σ.rounds, ∀ t ∈ r.batch, t ∈ r'.batch →
        (σ.world.task t).done = false → r = r') ∧
      (∀ k ∈ σ.staff, k.active = false → k.tasks = []) ∧
      σ.world.pool.workers.length ≤ max 1 config.maxWorkers ∧
      σ.world.pool.pick.2 < σ.world.pool.pick.1.workers.length := by
  have h := orderly_of_reaches hpool hreach
  refine ⟨fun t hplaced hundone => ⟨?_, h.exists_worker hplaced hundone⟩, fun r hr => ⟨?_, ?_⟩,
    h.idle, h.length, h.pick_lt (Nat.lt_of_lt_of_le Nat.one_pos (Nat.le_max_left 1 _))⟩
  · exact List.count_eq_one_of_mem h.distinct (h.kept t hplaced hundone)
  · exact (h.onRound r hr).2.1
  · exact fun r' hr' t ht ht' hundone => h.eq_of_mem_batch hr hr' ht ht' hundone

/-- With a single worker, a second task is handed to it while it is on its round with the first,
which is done then. The second one stays with the worker. -/
theorem accepted_tasks_have_one_worker_second :
    let config : Config := { Config.standard with maxWorkers := 1 }
    ∃ σ, ReflTransGen Moves (opened (World.new config)) σ ∧ σ.rounds = [] ∧
      (σ.world.task 0).done = true ∧ .placed 1 ∈ σ.errands ∧ (σ.world.task 1).done = false ∧
      (σ.staff.flatMap (·.tasks)).count 1 = 1 ∧
      ∃ k ∈ σ.world.pool.workers, k.active = true ∧ 1 ∈ k.tasks := by
  intro config
  let first := Task.new "first" (.ofBody World.globals [])
  let second := Task.new "second" (.ofBody World.globals [])
  let office (tasks : Array Task) (workers : List Worker) (turn nextId : Nat) (es : List Errand)
      (rs : List Round) : Office :=
    ⟨{ World.new config with
      tasks := tasks
      pool := { Pool.new config with workers := workers, turn := turn, nextId := nextId } },
      [], es, rs⟩
  let finished := first.finish (.ok .empty)
  let σ₁ := office #[] [] 0 0 [.begun "first" (.ofBody World.globals [])] []
  let σ₂ := office #[first] [] 0 0 [.admitted 0] []
  let σ₃ := office #[first] [⟨0, [], true, 0⟩] 0 1 [.picked 0 0] []
  let σ₄ := office #[first] [⟨0, [0], true, 0⟩] 0 1 [.placed 0] []
  let σ₅ := office #[first] [⟨0, [0], true, 0⟩] 0 1 [.placed 0] [⟨0, [0], false⟩]
  let σ₆ := office #[first] [⟨0, [0], true, 0⟩] 0 1
    [.begun "second" (.ofBody World.globals []), .placed 0] [⟨0, [0], false⟩]
  let σ₇ := office #[first, second] [⟨0, [0], true, 0⟩] 0 1 [.admitted 1, .placed 0]
    [⟨0, [0], false⟩]
  let σ₈ := office #[first, second] [⟨0, [0], true, 0⟩] 1 1 [.picked 1 0, .placed 0]
    [⟨0, [0], false⟩]
  let σ₉ := office #[first, second] [⟨0, [0, 1], true, 0⟩] 1 1 [.placed 1, .placed 0]
    [⟨0, [0], false⟩]
  let σ₁₀ := office #[finished, second] [⟨0, [0, 1], true, 0⟩] 1 1 [.placed 1, .placed 0]
    [⟨0, [], true⟩]
  let σ₁₁ := office #[finished, second] [⟨0, [1], true, 0⟩] 1 1 [.placed 1, .placed 0] []
  have h₁ : Moves (opened (World.new config)) σ₁ := .call _ _
  have h₂ : Moves σ₁ σ₂ := .letIn [] [] rfl
  have h₃ : Moves σ₂ σ₃ := .pick (k := ⟨0, [], true, 0⟩) [] [] rfl
  have h₄ : Moves σ₃ σ₄ := .accept (k := ⟨0, [], true, 0⟩) [] [] rfl (.present [] [] rfl)
  have h₅ : Moves σ₄ σ₅ :=
    .snapshot (k := ⟨0, [0], true, 0⟩) (.head _) rfl (List.forall_mem_nil _)
  have h₆ : Moves σ₅ σ₆ := .call _ _
  have h₇ : Moves σ₆ σ₇ := .letIn [] [.placed 0] rfl
  have h₈ : Moves σ₇ σ₈ := .pick (k := ⟨0, [0], true, 0⟩) [] [.placed 0] rfl
  have h₉ : Moves σ₈ σ₉ :=
    .accept (k := ⟨0, [0], true, 0⟩) [] [.placed 0] rfl (.present [] [] rfl)
  have h₁₀ : Moves σ₉ σ₁₀ := by
    refine .advance [] [] ⟨rfl, Nat.le_refl _, fun t ht => ?_⟩
    match t with
    | 0 => rfl
    | 1 => exact ht
    | t + 2 => exact ht
  have h₁₁ : Moves σ₁₀ σ₁₁ :=
    .sweep (k := ⟨0, [0, 1], true, 0⟩) [] [] (.present [] [] rfl)
  have hreach := ((((((((((ReflTransGen.single h₁).tail h₂).tail h₃).tail h₄).tail h₅).tail h₆).tail
    h₇).tail h₈).tail h₉).tail h₁₀).tail h₁₁
  have hplaced : .placed 1 ∈ σ₁₁.errands := .head _
  exact ⟨σ₁₁, hreach, rfl, rfl, hplaced, rfl,
    (accepted_tasks_have_one_worker rfl hreach).1 1 hplaced rfl⟩

/-! ## Scheduling in one go -/

/-- Idle workers retire one by one. -/
theorem reaches_settle : ReflTransGen Moves ⟨w, fs, es, rs⟩
    ⟨{ w with pool := w.pool.settle }, fs, es, rs⟩ := by
  have hall : ∀ ws ds : List Worker, ReflTransGen Moves
      ⟨{ w with pool := { w.pool with workers := ds ++ ws } }, fs, es, rs⟩
      ⟨{ w with pool := { w.pool with
        workers := ds ++ ws.map (Worker.atTime w.pool.ttl w.pool.poll w.pool.clock) } }, fs, es,
        rs⟩ := by
    intro ws
    induction ws with
    | nil => exact fun ds => .refl
    | cons k ws ih =>
        intro ds
        have hrest := ih (ds ++ [k.atTime w.pool.ttl w.pool.poll w.pool.clock])
        simp only [List.append_assoc, List.singleton_append] at hrest
        refine .trans ?_ hrest
        unfold Worker.atTime
        split
        · next hidle =>
            have htasks : k.tasks = [] := by
              simp only [Bool.and_eq_true, List.isEmpty_iff] at hidle
              exact hidle.1
            exact .single (.retire htasks (.present ds ws rfl))
        · exact .refl
  exact hall w.pool.workers []

theorem pick_active {p : Pool} (hcapacity : 0 < p.capacity) :
    ∃ k, p.pick.1.workers[p.pick.2]? = some k ∧ k.active = true := by
  unfold Pool.pick
  simp only
  split
  · exact ⟨Worker.new p.purge.nextId p.purge.clock, by simp, rfl⟩
  · next hfull =>
      have hlt : p.purge.turn % p.purge.workers.length < p.purge.workers.length := by
        refine Nat.mod_lt _ ?_
        change ¬ p.purge.workers.length < p.capacity at hfull
        omega
      refine ⟨_, List.getElem?_eq_getElem hlt, ?_⟩
      exact (List.mem_filter.mp (List.getElem_mem hlt)).2

/-- A task that is assigned in one go is picked a worker for, and the worker accepts it. -/
theorem reaches_assign (hcapacity : 0 < w.pool.capacity) :
    ∃ gs, ReflTransGen Moves ⟨w, fs, a ++ .admitted t :: b, rs⟩
      ⟨{ w with pool := w.pool.assign t }, fs ++ gs, a ++ .placed t :: b, rs⟩ := by
  obtain ⟨k, hpick, hactive⟩ := pick_active (p := w.pool.settle) hcapacity
  have hsubmit : k.submit? t = some { k with tasks := k.tasks ++ [t] } := by
    rw [Worker.submit?, hactive]
    rfl
  set p := w.pool.settle.pick.1 with hp
  set i := w.pool.settle.pick.2 with hi
  obtain ⟨hlt, hget⟩ := List.getElem?_eq_some_iff.mp hpick
  obtain ⟨before, after, hworkers, -, hset⟩ :=
    @List.exists_of_set _ i { k with tasks := k.tasks ++ [t] } _ hlt
  rw [hget] at hworkers
  have hassign : w.pool.assign t =
      { p with workers := before ++ { k with tasks := k.tasks ++ [t] } :: after } := by
    simp only [Pool.assign, Pool.submit?, ← hp, ← hi, hpick, Option.bind_eq_bind, Option.bind_some,
      hsubmit, ← hset]
    rfl
  have hpicked : Moves ⟨{ w with pool := w.pool.settle }, fs, a ++ .admitted t :: b, rs⟩
      ⟨{ w with pool := p }, fs ++ w.pool.settle.workers.filter (!·.active),
        a ++ .picked t k.id :: b, rs⟩ := .pick a b hpick
  rw [hassign]
  exact ⟨_, (reaches_settle.tail hpicked).tail
    (.accept a b hsubmit (.present before after hworkers))⟩

/-- Scheduling a machine in one go is made of the moves of a single call. -/
theorem reaches_schedule {label : String} {m : Machine} (hcapacity : 0 < w.pool.capacity)
    (hschedule : w.schedule label m = .ok (w', t)) :
    ∃ fs', ReflTransGen Moves ⟨w, fs, es, rs⟩ ⟨w', fs', .placed t :: es, rs⟩ := by
  unfold World.schedule at hschedule
  split at hschedule
  · contradiction
  · next hopen =>
      obtain ⟨rfl, rfl⟩ := Prod.mk.inj (Except.ok.inj hschedule)
      have hcall : Moves ⟨w, fs, es, rs⟩ ⟨w, fs, .begun label m :: es, rs⟩ := .call label m
      have hadmit : Moves ⟨w, fs, .begun label m :: es, rs⟩
          ⟨(w.addTask label m).1, fs, .admitted w.tasks.size :: es, rs⟩ :=
        .letIn [] es (by simpa using hopen)
      obtain ⟨gs, hassign⟩ := reaches_assign (w := (w.addTask label m).1) (t := w.tasks.size)
        (a := []) hcapacity
      exact ⟨fs ++ gs, ((ReflTransGen.single hcall).tail hadmit).trans hassign⟩

end Office

end Statute
