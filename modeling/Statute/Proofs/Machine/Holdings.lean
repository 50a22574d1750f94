import Statute.Machine.Run
import Mathlib.Order.Lattice

/-!
# Locks, tasks and depth during a step

A step begins by taking a lock, by giving one back, or by neither. Whatever it does after that
leaves the locks as they are, both those that are held and those that the machine holds; it adds at
most one task, which holds nothing; and it goes deeper into calls only below the limit.

`Reply.Settles` is said of every function that a step is made of, and `Exchange` of what comes
before. What is proved about locks and about the depth of calls follows from these two.
-/

namespace Statute

namespace World

def slots (w : World) : List (Option Machine) :=
  w.tasks.toList.map (·.machine)

theorem slots_length (w : World) : w.slots.length = w.tasks.size := by
  simp [slots]

/-- The place of a task holds its machine. -/
theorem slots_getElem? {w : World} {t : TaskRef} (h : t < w.tasks.size) :
    w.slots[t]? = some (w.task t).machine := by
  simp [slots, task, h]

theorem slots_setTask (w : World) (t : TaskRef) (task : Task) :
    (w.setTask t task).slots = w.slots.set t task.machine := by
  simp [slots, setTask, List.map_set]

/-- A task may be changed in any way that leaves its machine alone. -/
theorem slots_setTask_of_machine {w : World} {t : TaskRef} {task : Task}
    (h : task.machine = (w.task t).machine) : (w.setTask t task).slots = w.slots := by
  rw [slots_setTask, h]
  by_cases ht : t < w.tasks.size
  · obtain ⟨hlt, hget⟩ := List.getElem?_eq_some_iff.mp (slots_getElem? ht)
    rw [← hget]
    exact List.set_getElem_self hlt
  · refine List.set_eq_of_length_le ?_
    rw [slots_length]
    exact Nat.le_of_not_lt ht

end World

/-! ## The heap -/

namespace Heap

@[simp] theorem locks_defineAll (h : Heap) (r : ScopeRef) (vars : List (String × Value)) :
    (h.defineAll r vars).locks = h.locks := by
  induction vars generalizing h with
  | nil => rfl
  | cons var vars ih =>
      rw [defineAll, ih]
      rfl

@[simp] theorem locks_setField (h : Heap) (r : ObjectRef) (name : String) (v : Value) :
    (h.setField r name v).locks = h.locks := by
  unfold setField
  split <;> rfl

@[simp] theorem locks_store (h : Heap) (v : Value) (place : Place) :
    (h.store v place).locks = h.locks := by
  cases place with
  | binding r name => rfl
  | field r name => exact locks_setField h r name v

@[simp] theorem locks_newError (h : Heap) (c : Class) (message : String) :
    (h.newError c message).1.locks = h.locks := by
  unfold newError
  exact locks_setField _ _ _ _

@[simp] theorem locks_exception (h : Heap) (registry : Registry) (f : Failure) :
    (h.exception registry f).1.locks = h.locks := by
  unfold exception
  split
  · rfl
  · split
    · exact locks_newError _ _ _
    · rfl

end Heap

/-! ## What comes after the lock -/

/-- What a step left behind has the locks that there were: those that are held in the world, and
those that the machine holds. New tasks hold nothing, and calls are not deeper than before or than
allowed. -/
structure Reply.Settles (s : Setting) (w : World) (m : Machine) (r : Reply) : Prop where
  held : r.world.heap.locks = w.heap.locks
  slots : ∃ new, r.world.slots = w.slots ++ new ∧ ∀ o ∈ new, ∀ k ∈ o, Machine.locks k = []
  locks : r.machine.locks = m.locks
  depth : r.machine.depth ≤ max m.depth s.config.recursionLimit

namespace Reply.Settles

variable {s : Setting} {w w₁ : World} {m : Machine} {r : Reply}

/-- Most of what a step does leaves the tasks and the depth of calls alone. -/
theorem of_eq (hheld : r.world.heap.locks = w.heap.locks) (htasks : r.world.tasks = w.tasks)
    (hlocks : r.machine.locks = m.locks) (hdepth : r.machine.depth = m.depth) :
    r.Settles s w m := by
  refine ⟨hheld, ⟨[], ?_, fun o ho => nomatch ho⟩, hlocks, ?_⟩
  · rw [World.slots, htasks, World.slots, List.append_nil]
  · rw [hdepth]
    exact le_max_left _ _

/-- A change of the heap beforehand makes no difference if it leaves the locks alone. -/
theorem of_heap (h : r.Settles s w₁ m) (hheld : w₁.heap.locks = w.heap.locks)
    (htasks : w₁.tasks = w.tasks) : r.Settles s w m := by
  obtain ⟨new, hslots, hnew⟩ := h.slots
  refine ⟨h.held.trans hheld, ⟨new, ?_, hnew⟩, h.locks, h.depth⟩
  rw [hslots, World.slots, htasks, World.slots]

end Reply.Settles

namespace Machine

variable {s : Setting} {w : World} {m : Machine}

theorem block_settles (name : String) (vars : List (String × Value)) (body : Body) :
    (m.block w name vars body).Settles s w m :=
  .of_eq (Heap.locks_defineAll _ _ _) rfl rfl rfl

/-- An expression is evaluated for a frame that holds no lock. -/
theorem evaluate_settles {f : Frame} (hf : f.lock? = none) (e : Expression) :
    (m.evaluate w f e).Settles s w m := by
  unfold evaluate
  split
  · refine .of_eq rfl rfl ?_ rfl
    exact List.filterMap_cons_none hf
  · exact .of_eq rfl rfl rfl rfl

theorem choose_settles (otherwise : Option Body) (branches : List Branch) :
    (m.choose w otherwise branches).Settles s w m := by
  cases branches with
  | nil =>
      cases otherwise with
      | none => exact .of_eq rfl rfl rfl rfl
      | some body => exact block_settles "else" [] body
  | cons b rest =>
      obtain ⟨test, body⟩ := b
      exact evaluate_settles rfl test

theorem begin_settles (stmt : Statement) : (m.begin w stmt).Settles s w m := by
  cases stmt with
  | choose branches otherwise => exact choose_settles otherwise branches
  | returnWith e =>
      cases e with
      | none => exact .of_eq rfl rfl rfl rfl
      | some e => exact evaluate_settles rfl e
  | attempt body handlers => exact .of_eq (Heap.locks_defineAll _ _ _) rfl rfl rfl
  | exclusive lock body => exact .of_eq rfl rfl rfl rfl
  | breakOut => exact .of_eq rfl rfl rfl rfl
  | continueOn => exact .of_eq rfl rfl rfl rfl
  | _ => exact evaluate_settles rfl _

theorem act_settles (site : Location) (v : Value) (action : Action) :
    (m.act s w site v action).Settles s w m := by
  cases action with
  | declare name =>
      simp only [act]
      split <;> exact .of_eq rfl rfl rfl rfl
  | assign target =>
      simp only [act]
      split
      · exact .of_eq (Heap.locks_store _ _ _) rfl rfl rfl
      · exact .of_eq rfl rfl rfl rfl
  | raise =>
      simp only [act]
      split <;> exact .of_eq rfl rfl rfl rfl
  | _ => exact .of_eq rfl rfl rfl rfl

/-- A call is entered only if it does not go deeper than allowed. -/
theorem enter_settles (c : Call) : (m.enter s w c).Settles s w m := by
  simp only [enter]
  split
  · exact .of_eq rfl rfl rfl rfl
  · next hlimit =>
      refine ⟨Heap.locks_defineAll _ _ _, ⟨[], (List.append_nil _).symm, fun o ho => nomatch ho⟩,
        rfl, ?_⟩
      have hdepth : m.depth + 1 ≤ s.config.recursionLimit := Nat.lt_of_not_le hlimit
      exact le_trans hdepth (le_max_right _ _)

theorem supply_settles (c : Call) (params : List Param) :
    (m.supply s w c params).Settles s w m := by
  cases params with
  | nil => exact enter_settles c
  | cons p rest =>
      simp only [supply]
      split
      · exact .of_eq rfl rfl rfl rfl
      · split <;> exact .of_eq rfl rfl rfl rfl

theorem bind_settles (c : Call) : (m.bind s w c).Settles s w m := by
  simp only [bind]
  split
  · exact .of_eq rfl rfl rfl rfl
  · exact supply_settles c _

theorem call_settles (callee : Value) (args : List Value) (site : Option Location) :
    (m.call s w callee args site).Settles s w m := by
  cases callee with
  | procedure p => exact bind_settles _
  | method r p => exact bind_settles _
  | extension e =>
      simp only [call]
      split <;> exact .of_eq rfl rfl rfl rfl
  | _ => exact .of_eq rfl rfl rfl rfl

theorem initialise_settles (object : ObjectRef) (cls : Class) (args : List Value) (taken : Nat)
    (site : Option Location) :
    (m.initialise w object cls args taken site).Settles s w m := by
  unfold initialise
  split
  · exact .of_eq rfl rfl rfl rfl
  · split <;> exact .of_eq rfl rfl rfl rfl

theorem construct_settles (cls : Class) (args : List Value) (site : Option Location) :
    (m.construct w cls args site).Settles s w m := by
  unfold construct
  split
  · split
    · exact .of_eq rfl rfl rfl rfl
    · exact .of_eq (Heap.locks_newError _ _ _) rfl rfl rfl
  · simp only
    split
    · exact (initialise_settles _ cls args 0 site).of_heap rfl rfl
    · exact .of_eq rfl rfl rfl rfl

/-- The task that a scheduled call becomes holds nothing. -/
theorem schedule_settles {w' : World} {label : String} {env : Env} {callee : Value}
    {args : List Value} {t : TaskRef}
    (h : w.schedule label (.ofCall env callee args) = .ok (w', t)) :
    w'.heap.locks = w.heap.locks ∧
      ∃ new, w'.slots = w.slots ++ new ∧ ∀ o ∈ new, ∀ k ∈ o, Machine.locks k = [] := by
  unfold World.schedule at h
  split at h
  · contradiction
  · obtain ⟨rfl, -⟩ := Prod.mk.inj (Except.ok.inj h)
    refine ⟨rfl, [some (.ofCall env callee args)], ?_, ?_⟩
    · simp [World.slots, Task.new]
    · intro o ho k hk
      rw [List.mem_singleton.mp ho] at hk
      rw [← Option.some.inj hk]
      rfl

/-- Taking the outcome of a task leaves its machine alone. -/
theorem claim_settles {w' : World} {t : TaskRef} {o : Outcome} (h : w.claim t = .ok (w', o)) :
    w'.heap.locks = w.heap.locks ∧
      ∃ new, w'.slots = w.slots ++ new ∧ ∀ o ∈ new, ∀ k ∈ o, Machine.locks k = [] := by
  unfold World.claim Task.claim at h
  split at h
  · next hclaim =>
      split at hclaim
      · contradiction
      · obtain ⟨rfl, -⟩ := Prod.mk.inj (Except.ok.inj h)
        obtain ⟨-, rfl⟩ := Prod.mk.inj (Except.ok.inj hclaim)
        refine ⟨rfl, [], ?_, fun o ho => nomatch ho⟩
        rw [List.append_nil]
        exact World.slots_setTask_of_machine rfl
  · contradiction

theorem evalItem_settles (items : List Item) (stack : List Operand) (site : Location) :
    (m.evalItem s w items stack site).Settles s w m := by
  cases items with
  | nil =>
      simp only [evalItem]
      split <;> exact .of_eq rfl rfl rfl rfl
  | cons i rest =>
      simp only [evalItem]
      split
      · exact .of_eq rfl rfl rfl rfl
      · exact .of_eq rfl rfl rfl rfl
      · split
        · next hschedule =>
            obtain ⟨hheld, hslots⟩ := schedule_settles hschedule
            exact ⟨hheld, hslots, rfl, le_max_left _ _⟩
        · exact .of_eq rfl rfl rfl rfl
      · split
        · exact .of_eq rfl rfl rfl rfl
        · split
          · exact .of_eq rfl rfl rfl rfl
          · split
            · next hclaim =>
                obtain ⟨hheld, hslots⟩ := claim_settles hclaim
                exact ⟨hheld, hslots, rfl, le_max_left _ _⟩
            · next hclaim =>
                obtain ⟨hheld, hslots⟩ := claim_settles hclaim
                exact ⟨hheld, hslots, rfl, le_max_left _ _⟩
            · exact .of_eq rfl rfl rfl rfl
      · exact .of_eq rfl rfl rfl rfl
      · exact .of_eq rfl rfl rfl rfl

theorem handle_settles (f : Failure) (handlers : List Handler) :
    (m.handle s w f handlers).Settles s w m := by
  simp only [handle]
  split
  · exact .of_eq rfl rfl rfl rfl
  · exact (block_settles "handler" _ _).of_heap (Heap.locks_exception _ _ _) rfl

/-- A frame that holds no lock receives a value. -/
theorem receive_settles {f : Frame} (hf : f.lock? = none) (v : Value) :
    (m.receive s w v f).Settles s w m := by
  cases f with
  | act action site => exact act_settles site v action
  | branch site body rest otherwise =>
      simp only [receive]
      split
      · exact block_settles "if" [] body
      · exact choose_settles otherwise rest
      · exact .of_eq rfl rfl rfl rfl
  | lower var site upper body =>
      simp only [receive]
      split
      · exact evaluate_settles rfl upper
      · exact .of_eq rfl rfl rfl rfl
  | upper var next site body =>
      simp only [receive]
      split <;> exact .of_eq rfl rfl rfl rfl
  | test test body =>
      simp only [receive]
      split
      · exact .of_eq (Heap.locks_defineAll _ _ _) rfl rfl rfl
      · exact .of_eq rfl rfl rfl rfl
      · exact .of_eq rfl rfl rfl rfl
  | supply c rest => exact supply_settles _ rest
  | adopt object cls args taken site =>
      refine (initialise_settles object cls args taken site).of_heap ?_ ?_
      · cases v <;> rfl
      · cases v <;> rfl
  | hold lock => contradiction
  | _ => exact .of_eq rfl rfl rfl rfl

/-! ## The lock -/

/-- What a step does first: it takes a free lock, gives back the lock that the machine took last,
or does nothing. Calls do not get deeper by that. -/
inductive Exchange (w : World) (m : Machine) : World → Machine → Prop
  | nothing {m₁ : Machine} (hlocks : m₁.locks = m.locks) (hdepth : m₁.depth ≤ m.depth) :
      Exchange w m w m₁
  | take {m₁ : Machine} {l : LockRef} (hfree : w.heap.isHeld l = false)
      (hlocks : m₁.locks = l :: m.locks) (hdepth : m₁.depth ≤ m.depth) :
      Exchange w m { w with heap := w.heap.hold l } m₁
  | give {m₁ : Machine} {l : LockRef} (hlocks : m.locks = l :: m₁.locks)
      (hdepth : m₁.depth ≤ m.depth) :
      Exchange w m { w with heap := w.heap.release l } m₁

/-- How a machine goes on makes no difference to its locks and to its depth. -/
theorem Exchange.of_send {w₁ : World} {m₁ : Machine} {g : Signal}
    (h : Exchange w (m.send g) w₁ m₁) : Exchange w m w₁ m₁ := by
  cases h with
  | nothing hlocks hdepth => exact .nothing hlocks hdepth
  | take hfree hlocks hdepth => exact .take hfree hlocks hdepth
  | give hlocks hdepth => exact .give hlocks hdepth

/-- Whoever takes a frame away gives back the lock that it held. -/
theorem exchange_giveBack (m : Machine) (f : Frame) :
    Exchange w (m.push f) (m.giveBack w f).1 (m.giveBack w f).2 := by
  have hdepth : (m.giveBack w f).2.depth ≤ (m.push f).depth := by
    simp only [giveBack, push]
    split
    · exact Nat.sub_le _ _
    · exact Nat.le_refl _
  cases hf : f.lock? with
  | none =>
      have hworld : (m.giveBack w f).1 = w := by simp [giveBack, hf]
      rw [hworld]
      exact .nothing (List.filterMap_cons_none hf).symm hdepth
  | some l =>
      have hworld : (m.giveBack w f).1 = { w with heap := w.heap.release l } := by
        simp [giveBack, hf]
      rw [hworld]
      exact .give (List.filterMap_cons_some hf) hdepth

/-- A frame that holds no lock is taken off. -/
theorem exchange_nothing {f : Frame} (hf : f.lock? = none) : Exchange w (m.push f) w m :=
  .nothing (List.filterMap_cons_none hf).symm (Nat.le_refl _)

theorem resumeFrame_settles (f : Frame) :
    ∃ w₁ m₁, Exchange w (m.push f) w₁ m₁ ∧ (m.resumeFrame s w f).Settles s w₁ m₁ := by
  have hback := exchange_giveBack (w := w) m f
  cases f with
  | body rest own begun =>
      cases begun with
      | true => exact ⟨w, m, exchange_nothing rfl, .of_eq rfl rfl rfl rfl⟩
      | false =>
          cases rest with
          | nil => exact ⟨_, _, hback, .of_eq rfl rfl rfl rfl⟩
          | cons stmt rest =>
              exact ⟨w, m.push (.body rest own true), .nothing rfl (Nat.le_refl _),
                begin_settles stmt⟩
  | count var next last body =>
      refine ⟨w, m, exchange_nothing rfl, ?_⟩
      cases next with
      | none => exact .of_eq rfl rfl rfl rfl
      | some i =>
          simp only [resumeFrame]
          split
          · exact .of_eq rfl rfl rfl rfl
          · exact .of_eq (Heap.locks_defineAll _ _ _) rfl rfl rfl
  | again test body => exact ⟨w, m, exchange_nothing rfl, evaluate_settles rfl test⟩
  | guard handlers => exact ⟨w, m, exchange_nothing rfl, .of_eq rfl rfl rfl rfl⟩
  | enter lock body =>
      simp only [resumeFrame]
      split
      · exact ⟨w, m, exchange_nothing rfl, .of_eq rfl rfl rfl rfl⟩
      · next hheld =>
          exact ⟨_, m.push (.hold lock),
            .take (Bool.eq_false_iff.mpr hheld) rfl (Nat.le_refl _),
            block_settles "exclusive" [] body⟩
  | hold lock => exact ⟨_, _, hback, .of_eq rfl rfl rfl rfl⟩
  | eval items stack site =>
      exact ⟨w, m, exchange_nothing rfl, evalItem_settles items stack site⟩
  | call callee args site => exact ⟨w, m, exchange_nothing rfl, call_settles callee args site⟩
  | running c => exact ⟨_, _, hback, .of_eq rfl rfl rfl rfl⟩
  | construct cls args site =>
      exact ⟨w, m, exchange_nothing rfl, construct_settles cls args site⟩
  | _ =>
      refine ⟨w, m, exchange_nothing rfl, ?_⟩
      simp only [resumeFrame]
      exact receive_settles rfl .empty

theorem unwind_settles (e : Exit) (f : Frame) :
    ∃ w₁ m₁, Exchange w (m.push f) w₁ m₁ ∧ (m.unwind s w e f).Settles s w₁ m₁ := by
  have hback := exchange_giveBack (w := w) m f
  have hstay : Exchange w (m.push f) w (m.push f) := .nothing rfl (Nat.le_refl _)
  unfold unwind
  split
  · exact ⟨_, _, hstay, .of_eq rfl rfl rfl rfl⟩
  · exact ⟨_, _, hstay, .of_eq rfl rfl rfl rfl⟩
  · exact ⟨_, _, hback, .of_eq rfl rfl rfl rfl⟩
  · exact ⟨_, _, hback, .of_eq rfl rfl rfl rfl⟩
  · split
    · exact ⟨w, m, exchange_nothing rfl, handle_settles _ _⟩
    · split
      · next hloop =>
          refine ⟨w, m, exchange_nothing ?_, .of_eq rfl rfl rfl rfl⟩
          cases f <;> simp_all [Frame.isLoop, Frame.lock?]
      · exact ⟨_, _, hback, .of_eq rfl rfl rfl rfl⟩
    · split
      · exact ⟨_, _, hstay, .of_eq rfl rfl rfl rfl⟩
      · exact ⟨_, _, hback, .of_eq rfl rfl rfl rfl⟩
    · exact ⟨_, _, hback, .of_eq rfl rfl rfl rfl⟩

/-- A step exchanges a lock at first, or nothing, and then settles. -/
theorem step_settles (m : Machine) :
    ∃ w₁ m₁, Exchange w m w₁ m₁ ∧ (m.step s w).Settles s w₁ m₁ := by
  obtain ⟨frames, signal, scopes, depth⟩ := m
  cases frames with
  | nil => exact ⟨w, _, .nothing rfl (Nat.le_refl _), .of_eq rfl rfl rfl rfl⟩
  | cons f frames =>
      cases signal with
      | run => exact resumeFrame_settles (m := ⟨frames, .run, scopes, depth⟩) f
      | value v =>
          by_cases hf : f.lock? = none
          · exact ⟨w, ⟨frames, .run, scopes, depth⟩,
              .nothing (List.filterMap_cons_none hf).symm (Nat.le_refl _), receive_settles hf v⟩
          · cases f with
            | hold lock =>
                exact ⟨w, _, .nothing rfl (Nat.le_refl _), .of_eq rfl rfl rfl rfl⟩
            | _ => exact absurd rfl hf
      | leave e =>
          obtain ⟨w₁, m₁, hexchange, hsettles⟩ :=
            unwind_settles (s := s) (w := w) (m := ⟨frames, .run, scopes, depth⟩) e f
          exact ⟨w₁, m₁, .of_send (g := .run) hexchange, hsettles⟩

/-- A step goes deeper into calls only below the limit. -/
theorem step_depth_le (h : m.depth ≤ s.config.recursionLimit) :
    (m.step s w).machine.depth ≤ s.config.recursionLimit := by
  obtain ⟨w₁, m₁, hexchange, hsettles⟩ := step_settles (s := s) (w := w) m
  have hle : m₁.depth ≤ m.depth := by
    cases hexchange <;> assumption
  exact le_trans hsettles.depth (max_le (le_trans hle h) (le_refl _))

end Machine

end Statute
