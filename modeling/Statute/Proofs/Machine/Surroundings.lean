import Statute.Proofs.Machine.Tidiness
import Statute.Proofs.Value.Surroundings

/-!
# Machines amid surroundings

A machine sees the global scope and the scopes that it has entered, and the values on the heap. It
does not see the scopes of others, the machines that work at tasks, the workers of the pool or the
lines printed before. All this can be put around a machine without changing what it does: each step
is taken in the same way and leaves the surroundings as they were, unless it schedules a task.
-/

namespace Statute

/-- What a machine does not see of a world. -/
structure Surroundings where
  /-- The places behind the global scope, some of them taken by scopes of others. -/
  scopes : List (Option Scope)
  /-- The machines that work at tasks. -/
  machines : TaskRef → Option Machine
  pool : Pool
  /-- The lines printed before. -/
  output : Array String

/-- The chains of a computation when others have taken places behind the global scope. -/
def ScopeStack.past (places : List (Option Scope)) (scopes : ScopeStack) : ScopeStack :=
  ⟨scopes.root.map (Statute.past places), scopes.inner.map (List.map (Statute.past places))⟩

/-- There are enough scopes, if there are `n`: one for each of the places that are left free, the
global one, and those that the chains name. -/
structure ScopeStack.Fits (places : List (Option Scope)) (n : Nat) (scopes : ScopeStack) :
    Prop where
  free : Scope.freeCount places < n
  root : ∀ r ∈ scopes.root, r < n
  inner : ∀ env ∈ scopes.inner, ∀ r ∈ env, r < n

def Machine.amid (e : Surroundings) (m : Machine) : Machine :=
  { m with scopes := m.scopes.past e.scopes }

def Machine.Fits (e : Surroundings) (w : World) (m : Machine) : Prop :=
  m.scopes.Fits e.scopes w.heap.scopes.size

/-- A world with surroundings. -/
def World.amid (e : Surroundings) (w : World) : World where
  heap := w.heap.amid e.scopes
  tasks := w.tasks.mapIdx fun t task => { task with machine := e.machines t }
  pool := { e.pool with closed := w.pool.closed }
  output := e.output ++ w.output

def Reply.amid (e : Surroundings) (r : Reply) : Reply :=
  ⟨r.step, r.world.amid e, r.machine.amid e⟩

/-- What a step left behind amid surroundings, given what it left behind without them. -/
structure Reply.IsAmid (e : Surroundings) (r r' : Reply) : Prop where
  eq : r' = r.amid e
  fits : r.machine.Fits e r.world

/-- A step in a world was taken in the same way amid surroundings, or it scheduled a task with and
without them. -/
inductive Reply.Parallels (e : Surroundings) (w : World) (r r' : Reply) : Prop
  | amid (h : r.IsAmid e r')
  | scheduled (h : w.tasks.size < r.world.tasks.size) (h' : w.tasks.size < r'.world.tasks.size)

variable {e : Surroundings} {s : Setting} {w : World} {m : Machine}

namespace ScopeStack

variable {places places' : List (Option Scope)} {n n' : Nat} {scopes : ScopeStack}

theorem current_past (places : List (Option Scope)) (scopes : ScopeStack) :
    (scopes.past places).current = scopes.current.map (Statute.past places) := by
  obtain ⟨root, inner⟩ := scopes
  cases inner <;> rfl

theorem pop_past (places : List (Option Scope)) (scopes : ScopeStack) :
    (scopes.past places).pop = scopes.pop.past places := by
  obtain ⟨root, inner⟩ := scopes
  cases inner <;> rfl

theorem Fits.mono (h : scopes.Fits places n) (hle : n ≤ n') : scopes.Fits places n' where
  free := Nat.lt_of_lt_of_le h.free hle
  root r hr := Nat.lt_of_lt_of_le (h.root r hr) hle
  inner env henv r hr := Nat.lt_of_lt_of_le (h.inner env henv r hr) hle

theorem Fits.current (h : scopes.Fits places n) : ∀ r ∈ scopes.current, r < n := by
  obtain ⟨root, inner⟩ := scopes
  cases inner with
  | nil => exact h.root
  | cons env inner => exact h.inner env List.mem_cons_self

theorem Fits.pop (h : scopes.Fits places n) : scopes.pop.Fits places n where
  free := h.free
  root := h.root
  inner env henv := h.inner env (List.mem_of_mem_tail henv)

theorem Fits.push (h : scopes.Fits places n) {outer : Env} (houter : ∀ r ∈ outer, r < n) :
    (scopes.push (n :: outer)).Fits places (n + 1) where
  free := (h.mono (Nat.le_succ n)).free
  root := (h.mono (Nat.le_succ n)).root
  inner env henv r hr := by
    rcases List.mem_cons.mp henv with rfl | henv
    · rcases List.mem_cons.mp hr with rfl | hr
      · exact Nat.lt_succ_self r
      · exact Nat.lt_succ_of_lt (houter r hr)
    · exact (h.mono (Nat.le_succ n)).inner env henv r hr

end ScopeStack

theorem headD_past (places : List (Option Scope)) (env : Env) :
    (env.map (past places)).headD 0 = past places (env.headD 0) :=
  List.headD_map (f := past places) (a := 0)

namespace World

@[simp] theorem heap_amid : (w.amid e).heap = w.heap.amid e.scopes := rfl

theorem size_amid (hw : m.Fits e w) :
    (w.amid e).heap.scopes.size = past e.scopes w.heap.scopes.size :=
  Heap.size_amid hw.free

@[simp] theorem closed_amid : (w.amid e).pool.closed = w.pool.closed := rfl

@[simp] theorem tasks_size_amid : (w.amid e).tasks.size = w.tasks.size := Array.size_mapIdx

/-- Of a task only its machine belongs to the surroundings. -/
theorem exists_task_amid (w : World) (e : Surroundings) (t : TaskRef) :
    ∃ working, (w.amid e).task t = { w.task t with machine := working } ∧
      ∀ task : Task,
        (w.amid e).setTask t { task with machine := working } = (w.setTask t task).amid e := by
  by_cases ht : t < w.tasks.size
  · refine ⟨e.machines t, ?_, fun task => ?_⟩
    · simp [task, amid, Array.getD_eq_getD_getElem?, ht]
    · simp only [setTask, amid, Array.mapIdx_setIfInBounds]
  · refine ⟨(w.task t).machine, ?_, fun task => ?_⟩
    · simp [task, amid, Array.getD_eq_getD_getElem?, ht]
    · simp [setTask, amid, Array.setIfInBounds, ht]

theorem claim_amid (t : TaskRef) :
    (w.amid e).claim t = (w.claim t).map fun claimed => (claimed.1.amid e, claimed.2) := by
  obtain ⟨working, htask, hset⟩ := exists_task_amid w e t
  cases hwaited : (w.task t).waited with
  | true =>
      simp only [claim, Task.claim, htask, hwaited, if_true]
      rfl
  | false =>
      simp only [claim, Task.claim, htask, hwaited, Bool.false_eq_true, if_false, Except.map]
      rw [← hset]

theorem print_amid (line : String) : (w.amid e).print line = (w.print line).amid e :=
  congrArg (fun output => { w.amid e with output := output }) Array.append_push.symm

end World

namespace Machine

theorem current_amid :
    (m.amid e).scopes.current = m.scopes.current.map (past e.scopes) :=
  ScopeStack.current_past _ m.scopes

/-- Only the places of the scopes that are there matter. -/
theorem amid_congr {e' : Surroundings} (hw : m.Fits e w)
    (hpast : ∀ r < w.heap.scopes.size, past e'.scopes r = past e.scopes r) :
    m.amid e' = m.amid e := by
  have hroot : m.scopes.root.map (past e'.scopes) = m.scopes.root.map (past e.scopes) :=
    List.map_congr_left fun r hr => hpast r (hw.root r hr)
  have hinner : m.scopes.inner.map (List.map (past e'.scopes)) =
      m.scopes.inner.map (List.map (past e.scopes)) :=
    List.map_congr_left fun env henv =>
      List.map_congr_left fun r hr => hpast r (hw.inner env henv r hr)
  simp only [amid, ScopeStack.past, hroot, hinner]

theorem giveBack_amid (f : Frame) :
    (m.amid e).giveBack (w.amid e) f =
      ((m.giveBack w f).1.amid e, (m.giveBack w f).2.amid e) := by
  have hscopes : (if f.ownsScope then (m.amid e).scopes.pop else (m.amid e).scopes) =
      (if f.ownsScope then m.scopes.pop else m.scopes).past e.scopes := by
    split
    · exact ScopeStack.pop_past _ m.scopes
    · rfl
  unfold giveBack
  rw [hscopes]
  cases f.lock? <;> rfl

theorem Fits.of_size {w' : World} (hw : m.Fits e w)
    (hsize : w'.heap.scopes.size = w.heap.scopes.size) : m.Fits e w' :=
  ScopeStack.Fits.mono hw (Nat.le_of_eq hsize.symm)

theorem Fits.giveBack (hw : m.Fits e w) (f : Frame) :
    (m.giveBack w f).2.Fits e (m.giveBack w f).1 := by
  have hscopes : (if f.ownsScope then m.scopes.pop else m.scopes).Fits e.scopes
      w.heap.scopes.size := by
    split
    · exact ScopeStack.Fits.pop hw
    · exact hw
  unfold Machine.giveBack
  cases f.lock? <;> exact hscopes

theorem Fits.openScope (hw : m.Fits e w) {outer : Env}
    (houter : ∀ r ∈ outer, r < w.heap.scopes.size) (name : String)
    (vars : List (String × Value)) (f : Frame) :
    (m.openScope w name outer vars f).2.Fits e (m.openScope w name outer vars f).1 := by
  have hscopes := ScopeStack.Fits.push hw houter
  rw [← Heap.size_newScope name, ← Heap.size_defineAll w.heap.scopes.size vars] at hscopes
  exact hscopes

theorem openScope_amid (hw : m.Fits e w) (name : String) (outer : Env)
    (vars : List (String × Value)) (f : Frame) :
    (m.amid e).openScope (w.amid e) name (outer.map (past e.scopes)) vars f =
      ((m.openScope w name outer vars f).1.amid e, (m.openScope w name outer vars f).2.amid e) := by
  simp only [openScope, World.heap_amid, Heap.newScope_amid hw.free, Heap.defineAll_amid]
  rfl

theorem openBlock_amid (hw : m.Fits e w) (name : String) (vars : List (String × Value))
    (body : Body) :
    (m.amid e).openBlock (w.amid e) name vars body =
      ((m.openBlock w name vars body).1.amid e, (m.openBlock w name vars body).2.amid e) := by
  unfold openBlock
  rw [current_amid]
  exact openScope_amid hw name _ vars _

theorem block_amid (hw : m.Fits e w) (name : String) (vars : List (String × Value))
    (body : Body) :
    (m.block w name vars body).IsAmid e ((m.amid e).block (w.amid e) name vars body) := by
  refine ⟨?_, Fits.openScope hw (ScopeStack.Fits.current hw) name vars (.body body true false)⟩
  unfold block
  rw [openBlock_amid hw]
  rfl

theorem turn_amid (hw : m.Fits e w) (name : String) (vars : List (String × Value))
    (body : Body) :
    (m.turn w name vars body).IsAmid e ((m.amid e).turn (w.amid e) name vars body) := by
  refine ⟨?_, Fits.openScope hw (ScopeStack.Fits.current hw) name vars (.body body true false)⟩
  unfold turn
  rw [openBlock_amid hw]
  rfl

theorem evaluate_amid (hw : m.Fits e w) (f : Frame) (x : Expression) :
    (m.evaluate w f x).IsAmid e ((m.amid e).evaluate (w.amid e) f x) := by
  unfold evaluate
  cases x.compile <;> exact ⟨rfl, hw⟩

/-! ## Statements -/

theorem choose_amid (hw : m.Fits e w) (otherwise : Option Body) (branches : List Branch) :
    (m.choose w otherwise branches).IsAmid e
      ((m.amid e).choose (w.amid e) otherwise branches) := by
  cases branches with
  | nil =>
      cases otherwise with
      | none => exact ⟨rfl, hw⟩
      | some body => exact block_amid hw "else" [] body
  | cons b rest =>
      obtain ⟨test, body⟩ := b
      exact evaluate_amid hw _ test

theorem begin_amid (hw : m.Fits e w) (stmt : Statement) :
    (m.begin w stmt).IsAmid e ((m.amid e).begin (w.amid e) stmt) := by
  cases stmt with
  | choose branches otherwise => exact choose_amid hw otherwise branches
  | attempt body handlers =>
      exact block_amid (m := m.push (.guard handlers)) hw "try" [] body
  | exclusive lock body => exact ⟨rfl, hw⟩
  | returnWith x =>
      cases x with
      | none => exact ⟨rfl, hw⟩
      | some x => exact evaluate_amid hw _ x
  | breakOut => exact ⟨rfl, hw⟩
  | continueOn => exact ⟨rfl, hw⟩
  | _ => exact evaluate_amid hw _ _

theorem act_amid (hw : m.Fits e w) (site : Location) (v : Value) (action : Action) :
    (m.act s w site v action).IsAmid e ((m.amid e).act s (w.amid e) site v action) := by
  cases action with
  | declare name =>
      simp only [act, current_amid, headD_past, World.heap_amid, Heap.local?_amid,
        Heap.define_amid]
      split
      · exact ⟨rfl, hw⟩
      · exact ⟨rfl, hw.of_size (Heap.size_define _ _ _ _)⟩
  | assign target =>
      simp only [act, current_amid, World.heap_amid, Setting.place_amid]
      cases s.place w.heap m.scopes.current target with
      | error f => exact ⟨rfl, hw⟩
      | ok place =>
          simp only [Except.map, Heap.store_amid]
          exact ⟨rfl, hw.of_size (Heap.size_store _ _)⟩
  | print =>
      simp only [act, World.heap_amid, Heap.text_amid, World.print_amid]
      exact ⟨rfl, hw⟩
  | raise =>
      simp only [act, World.heap_amid, Heap.thrown_amid]
      split <;> exact ⟨rfl, hw⟩
  | returnWith => exact ⟨rfl, hw⟩
  | discard => exact ⟨rfl, hw⟩

theorem handle_amid (hw : m.Fits e w) (f : Failure) (handlers : List Handler) :
    (m.handle s w f handlers).IsAmid e ((m.amid e).handle s (w.amid e) f handlers) := by
  have hcatches : (fun h : Handler => (w.amid e).heap.catches h.className f) =
      fun h => w.heap.catches h.className f := rfl
  unfold handle
  rw [hcatches]
  split
  · exact ⟨rfl, hw⟩
  · simp only [World.heap_amid, Heap.exception_amid]
    exact block_amid (w := { w with heap := (w.heap.exception s.registry f).1 })
      (hw.of_size (Heap.size_exception s.registry f)) "handler" _ _

/-! ## Calls and expressions -/

theorem enter_amid (hw : m.Fits e w) (c : Call) :
    (m.enter s w c).IsAmid e ((m.amid e).enter s (w.amid e) c) := by
  simp only [enter]
  change Reply.IsAmid e _ (if _ ≤ m.depth then _ else _)
  split
  · exact ⟨rfl, hw⟩
  · have houter : ∀ r ∈ World.globals, r < w.heap.scopes.size := by
      intro r hr
      rw [List.mem_singleton.mp hr]
      exact Nat.zero_lt_of_lt hw.free
    refine ⟨?_, Fits.openScope hw houter c.procedure.name (callVars c) (.running c)⟩
    have hopen := openScope_amid (m := m) (e := e) hw c.procedure.name World.globals (callVars c)
      (.running c)
    change (m.amid e).openScope (w.amid e) c.procedure.name World.globals _ _ = _ at hopen
    rw [hopen]
    rfl

theorem supply_amid (hw : m.Fits e w) (c : Call) (params : List Param) :
    (m.supply s w c params).IsAmid e ((m.amid e).supply s (w.amid e) c params) := by
  cases params with
  | nil => exact enter_amid hw c
  | cons p rest =>
      simp only [supply]
      split
      · exact ⟨rfl, hw⟩
      · split <;> exact ⟨rfl, hw⟩

theorem bind_amid (hw : m.Fits e w) (c : Call) :
    (m.bind s w c).IsAmid e ((m.amid e).bind s (w.amid e) c) := by
  simp only [bind]
  split
  · exact ⟨rfl, hw⟩
  · exact supply_amid hw c _

theorem call_amid (hw : m.Fits e w) (callee : Value) (args : List Value)
    (site : Option Location) :
    (m.call s w callee args site).IsAmid e ((m.amid e).call s (w.amid e) callee args site) := by
  cases callee with
  | procedure p => exact bind_amid hw _
  | method r p => exact bind_amid hw _
  | extension x =>
      simp only [call, World.heap_amid, Extension.checkedCall_amid]
      split <;> exact ⟨rfl, hw⟩
  | _ => exact ⟨rfl, hw⟩

theorem initialise_amid (hw : m.Fits e w) (object : ObjectRef) (cls : Class)
    (args : List Value) (taken : Nat) (site : Option Location) :
    (m.initialise w object cls args taken site).IsAmid e
      ((m.amid e).initialise (w.amid e) object cls args taken site) := by
  unfold initialise
  split
  · exact ⟨rfl, hw⟩
  · split <;> exact ⟨rfl, hw⟩

theorem construct_amid (hw : m.Fits e w) (cls : Class) (args : List Value)
    (site : Option Location) :
    (m.construct w cls args site).IsAmid e ((m.amid e).construct (w.amid e) cls args site) := by
  unfold construct
  split
  · split
    · exact ⟨rfl, hw⟩
    · simp only [World.heap_amid, Heap.text_amid, Heap.newError_amid]
      exact ⟨rfl, hw.of_size (Heap.size_newError _ _)⟩
  · simp only
    split
    · exact initialise_amid (w := { w with heap := (w.heap.newObject cls).1 }) hw _ cls args 0 site
    · exact ⟨rfl, hw⟩

theorem evalItem_amid (hw : m.Fits e w) (items : List Item) (stack : List Operand)
    (site : Location) :
    (m.evalItem s w items stack site).Parallels e w
      ((m.amid e).evalItem s (w.amid e) items stack site) := by
  cases items with
  | nil =>
      refine .amid ?_
      simp only [evalItem, World.heap_amid, Item.result_amid]
      split <;> exact ⟨rfl, hw⟩
  | cons i rest =>
      simp only [evalItem, current_amid, World.heap_amid, Item.effect_amid]
      cases i.effect s w.heap m.scopes.current stack with
      | next stack => exact .amid ⟨rfl, hw⟩
      | call callee args stack => exact .amid ⟨rfl, hw⟩
      | schedule callee args under =>
          cases hclosed : w.pool.closed with
          | true =>
              simp only [World.schedule, World.closed_amid, hclosed, if_true]
              exact .amid ⟨rfl, hw⟩
          | false =>
              simp only [World.schedule, World.closed_amid, hclosed, Bool.false_eq_true, if_false]
              refine .scheduled ?_ ?_
              · simp [World.addTask, next]
              · simp [World.addTask, next]
      | await t under =>
          obtain ⟨working, htask, -⟩ := World.exists_task_amid w e t
          refine .amid ?_
          simp only [htask, World.claim_amid]
          split
          · exact ⟨rfl, hw⟩
          · split
            · exact ⟨rfl, hw⟩
            · cases hclaim : w.claim t with
              | error f => exact ⟨rfl, hw⟩
              | ok claimed =>
                  obtain ⟨w', o⟩ := claimed
                  have hw' : m.Fits e w' := hw.of_size (by rw [(eq_of_claim hclaim).1])
                  cases o <;> exact ⟨rfl, hw'⟩
      | fail f => exact .amid ⟨rfl, hw⟩
      | crash message => exact .amid ⟨rfl, hw⟩

/-! ## Frames -/

theorem condition_amid (h : Heap) (places : List (Option Scope)) (site : Location) (v : Value) :
    condition (h.amid places) site v = condition h site v := by
  simp only [condition, Heap.unbox_amid]

theorem bound_amid (h : Heap) (places : List (Option Scope)) (site : Location) (v : Value) :
    bound (h.amid places) site v = bound h site v := by
  simp only [bound, Heap.unbox_amid, Heap.text_amid]

theorem receive_amid (hw : m.Fits e w) (v : Value) (f : Frame) :
    (m.receive s w v f).IsAmid e ((m.amid e).receive s (w.amid e) v f) := by
  cases f with
  | act action site => exact act_amid hw site v action
  | branch site body rest otherwise =>
      simp only [receive, World.heap_amid, condition_amid]
      split
      · exact block_amid hw "if" [] body
      · exact choose_amid hw otherwise rest
      · exact ⟨rfl, hw⟩
  | lower var site upper body =>
      simp only [receive, World.heap_amid, bound_amid]
      split
      · exact evaluate_amid hw _ upper
      · exact ⟨rfl, hw⟩
  | upper var next site body =>
      simp only [receive, World.heap_amid, bound_amid]
      split <;> exact ⟨rfl, hw⟩
  | test test body =>
      simp only [receive, World.heap_amid, condition_amid]
      split
      · exact turn_amid (m := m.push (.again test body)) hw "while" [] body
      · exact ⟨rfl, hw⟩
      · exact ⟨rfl, hw⟩
  | supply c rest => exact supply_amid hw _ rest
  | adopt object cls args taken site =>
      cases v with
      | object parent =>
          exact initialise_amid (w := { w with heap := w.heap.adopt object parent }) hw object cls
            args taken site
      | _ => exact initialise_amid hw object cls args taken site
  | _ => exact ⟨rfl, hw⟩

theorem resumeFrame_amid (hw : m.Fits e w) (f : Frame) :
    (m.resumeFrame s w f).Parallels e w ((m.amid e).resumeFrame s (w.amid e) f) := by
  cases f with
  | eval items stack site => exact evalItem_amid hw items stack site
  | body rest own begun =>
      refine .amid ?_
      cases begun with
      | true => exact ⟨rfl, hw⟩
      | false =>
          cases rest with
          | nil =>
              simp only [resumeFrame, giveBack_amid]
              exact ⟨rfl, hw.giveBack (.body [] own false)⟩
          | cons stmt rest => exact begin_amid (m := m.push (.body rest own true)) hw stmt
  | count var next last body =>
      refine .amid ?_
      cases next with
      | none => exact ⟨rfl, hw⟩
      | some i =>
          simp only [resumeFrame]
          split
          · exact ⟨rfl, hw⟩
          · exact turn_amid (m := m.push (.count var (successor? i) last body)) hw _ _ _
  | again test body => exact .amid (evaluate_amid hw _ test)
  | guard handlers => exact .amid ⟨rfl, hw⟩
  | enter lock body =>
      refine .amid ?_
      have hheld : (w.amid e).heap.isHeld lock = w.heap.isHeld lock := rfl
      simp only [resumeFrame, hheld]
      split
      · exact ⟨rfl, hw⟩
      · exact block_amid (w := { w with heap := w.heap.hold lock }) (m := m.push (.hold lock)) hw
          "exclusive" [] body
  | hold lock => exact .amid ⟨rfl, hw⟩
  | call callee args site => exact .amid (call_amid hw callee args site)
  | running c =>
      refine .amid ?_
      simp only [resumeFrame, giveBack_amid]
      exact ⟨rfl, hw.giveBack (.running c)⟩
  | construct cls args site => exact .amid (construct_amid hw cls args site)
  | _ =>
      simp only [resumeFrame]
      exact .amid (receive_amid hw .empty _)

theorem unwind_amid (hw : m.Fits e w) (x : Exit) (f : Frame) :
    (m.unwind s w x f).IsAmid e ((m.amid e).unwind s (w.amid e) x f) := by
  have hback := hw.giveBack f
  unfold unwind
  rw [giveBack_amid]
  split
  · exact ⟨rfl, hw⟩
  · exact ⟨rfl, hw⟩
  · exact ⟨rfl, hback⟩
  · exact ⟨rfl, hback⟩
  · split
    · exact handle_amid hw _ _
    · split
      · exact ⟨rfl, hw⟩
      · exact ⟨rfl, hback⟩
    · split
      · exact ⟨rfl, hw⟩
      · exact ⟨rfl, hback⟩
    · exact ⟨rfl, hback⟩

/-- A step is taken in the same way amid surroundings and leaves them as they were, unless it
schedules a task. -/
theorem step_amid (hw : m.Fits e w) :
    (m.step s w).Parallels e w ((m.amid e).step s (w.amid e)) := by
  obtain ⟨frames, signal, scopes, depth⟩ := m
  cases frames with
  | nil => exact .amid ⟨rfl, hw⟩
  | cons f fs =>
      cases signal with
      | run => exact resumeFrame_amid (m := ⟨fs, .run, scopes, depth⟩) hw f
      | value v => exact .amid (receive_amid (m := ⟨fs, .run, scopes, depth⟩) hw v f)
      | leave x => exact .amid (unwind_amid (m := ⟨fs, .run, scopes, depth⟩) hw x f)

end Machine

end Statute
