import Statute.Machine.Run

/-!
# The pool during a step

A step leaves the pool as it was, unless it schedules a call. It is always taken, unless the machine
has to wait for a task or for a lock, and then nothing changes. Only the items of an expression have
to do with tasks. A pool without tasks has nothing to advance, so a machine that schedules nothing
runs alone for good.
-/

namespace Statute

/-- A step that was taken and left the pool as it was. -/
structure Reply.Proceeds (w : World) (r : Reply) : Prop where
  pool : r.world.pool = w.pool
  taken : r.step ≠ .blocked ∧ r.step ≠ .done

/-- A step that was taken and left the tasks as they were, too. -/
structure Reply.Quiet (w : World) (r : Reply) : Prop extends r.Proceeds w where
  tasks : r.world.tasks = w.tasks

namespace Reply

variable {w w' : World} {m : Machine}

theorem Proceeds.next (h : w'.pool = w.pool) : Proceeds w ⟨.next, w', m⟩ :=
  ⟨h, nofun, nofun⟩

theorem Proceeds.crash {message : Option String} (h : w'.pool = w.pool) :
    Proceeds w ⟨.crash message, w', m⟩ :=
  ⟨h, nofun, nofun⟩

theorem Quiet.next (hpool : w'.pool = w.pool) (htasks : w'.tasks = w.tasks) :
    Quiet w ⟨.next, w', m⟩ :=
  ⟨.next hpool, htasks⟩

theorem Quiet.pause (hpool : w'.pool = w.pool) (htasks : w'.tasks = w.tasks) :
    Quiet w ⟨.pause, w', m⟩ :=
  ⟨⟨hpool, nofun, nofun⟩, htasks⟩

theorem Quiet.crash {message : Option String} (hpool : w'.pool = w.pool)
    (htasks : w'.tasks = w.tasks) : Quiet w ⟨.crash message, w', m⟩ :=
  ⟨.crash hpool, htasks⟩

end Reply

namespace Machine

def Schedules (m : Machine) : Prop :=
  m.signal = .run ∧
    ∃ rest stack site frames, m.frames = .eval (.op .background :: rest) stack site :: frames

variable {s : Setting} {w : World} {m : Machine}

theorem giveBack_quiet (m : Machine) (f : Frame) (m' : Machine) :
    Reply.Quiet w ⟨.next, (m.giveBack w f).1, m'⟩ := by
  unfold giveBack
  cases f.lock? <;> exact .next rfl rfl

theorem evaluate_quiet (f : Frame) (e : Expression) : (m.evaluate w f e).Quiet w := by
  unfold evaluate
  split
  · exact .next rfl rfl
  · exact .next rfl rfl

theorem choose_quiet (otherwise : Option Body) (branches : List Branch) :
    (m.choose w otherwise branches).Quiet w := by
  cases branches with
  | nil =>
      cases otherwise with
      | none => exact .next rfl rfl
      | some body => exact .next rfl rfl
  | cons b rest =>
      obtain ⟨test, body⟩ := b
      exact evaluate_quiet _ test

theorem begin_quiet (stmt : Statement) : (m.begin w stmt).Quiet w := by
  cases stmt with
  | choose branches otherwise => exact choose_quiet otherwise branches
  | returnWith e =>
      cases e with
      | none => exact .next rfl rfl
      | some e => exact evaluate_quiet _ e
  | attempt body handlers => exact .next rfl rfl
  | exclusive lock body => exact .next rfl rfl
  | breakOut => exact .next rfl rfl
  | continueOn => exact .next rfl rfl
  | _ => exact evaluate_quiet _ _

theorem act_quiet (site : Location) (v : Value) (action : Action) :
    (m.act s w site v action).Quiet w := by
  cases action with
  | declare name =>
      simp only [act]
      split <;> exact .next rfl rfl
  | assign target =>
      simp only [act]
      split <;> exact .next rfl rfl
  | raise =>
      simp only [act]
      split <;> exact .next rfl rfl
  | _ => exact .next rfl rfl

theorem enter_quiet (c : Call) : (m.enter s w c).Quiet w := by
  simp only [enter]
  split <;> exact .next rfl rfl

theorem supply_quiet (c : Call) (params : List Param) :
    (m.supply s w c params).Quiet w := by
  cases params with
  | nil => exact enter_quiet c
  | cons p rest =>
      simp only [supply]
      split
      · exact .next rfl rfl
      · split <;> exact .next rfl rfl

theorem bind_quiet (c : Call) : (m.bind s w c).Quiet w := by
  simp only [bind]
  split
  · exact .next rfl rfl
  · exact supply_quiet c _

theorem call_quiet (callee : Value) (args : List Value) (site : Option Location) :
    (m.call s w callee args site).Quiet w := by
  cases callee with
  | procedure p => exact bind_quiet _
  | method r p => exact bind_quiet _
  | extension e =>
      simp only [call]
      split
      · exact .next rfl rfl
      · exact .next rfl rfl
      · exact .crash rfl rfl
  | _ => exact .next rfl rfl

theorem initialise_quiet {w' : World} (hpool : w'.pool = w.pool) (htasks : w'.tasks = w.tasks)
    (object : ObjectRef) (cls : Class) (args : List Value) (taken : Nat) (site : Option Location) :
    (m.initialise w' object cls args taken site).Quiet w := by
  unfold initialise
  split
  · exact .next hpool htasks
  · split <;> exact .next hpool htasks

theorem construct_quiet (cls : Class) (args : List Value) (site : Option Location) :
    (m.construct w cls args site).Quiet w := by
  unfold construct
  split
  · split <;> exact .next rfl rfl
  · simp only
    split
    · refine initialise_quiet ?_ ?_ _ cls args 0 site <;> rfl
    · exact .next rfl rfl

theorem claim_pool {w' : World} {t : TaskRef} {o : Outcome} (h : w.claim t = .ok (w', o)) :
    w'.pool = w.pool := by
  unfold World.claim at h
  split at h
  · obtain ⟨rfl, -⟩ := Prod.mk.inj (Except.ok.inj h)
    rfl
  · contradiction

end Machine

/-! ## What items do -/

/-- Whether an item begins a call that has to end before the items after it go on. -/
def Item.calls : Item → Bool
  | .call _ deferred => !deferred
  | .invoke deferred => !deferred
  | _ => false

/-- The kinds of effects that an item can have: not every item calls, and to schedule a call or to
wait for a task takes an operator of its own. -/
inductive Item.Permits (i : Item) : Effect → Prop
  | next (stack : List Operand) : Permits i (.next stack)
  | fail (f : Failure) : Permits i (.fail f)
  | crash (message : Option String) : Permits i (.crash message)
  | call (hcalls : i.calls = true) (callee : Value) (args : List Value) (stack : List Operand) :
      Permits i (.call callee args stack)
  | schedule (hi : i = .op .background) (callee : Value) (args : List Value)
      (stack : List Operand) : Permits i (.schedule callee args stack)
  | await (hi : i = .op .wait) (t : TaskRef) (stack : List Operand) : Permits i (.await t stack)

namespace Item

variable {s : Setting} {h : Heap} {env : Env} {stack : List Operand} {i : Item}

theorem permits_ofExcept_bind {α : Type} {x : Except Failure α} {f : α → Except Failure Effect}
    (hf : ∀ a, i.Permits (.ofExcept (f a))) : i.Permits (.ofExcept (x >>= f)) := by
  cases x with
  | error e => exact .fail e
  | ok a => exact hf a

theorem permits_ofAnswer (stack : List Operand) (answer : HostAnswer) :
    i.Permits (.ofAnswer stack answer) := by
  cases answer with
  | value v => exact .next _
  | failure f => exact .fail f
  | crash message => exact .crash message

theorem permits_callEffect {deferred : Bool} (hi : deferred = false → i.calls = true)
    (callee : Value) (args : List Value) :
    i.Permits (callEffect s h callee args deferred stack) := by
  unfold callEffect
  split
  · exact .fail _
  · split
    · exact .next _
    · next hdeferred =>
        split
        · exact permits_ofAnswer stack _
        · exact .call (hi (eq_false_of_ne_true hdeferred)) _ args stack

theorem permits_operatorEffect (o : Operator) : (op o).Permits (operatorEffect h o stack) := by
  unfold operatorEffect
  split
  · unfold dotEffect
    split
    · exact permits_ofExcept_bind fun a => permits_ofExcept_bind fun w => .next _
    · exact .fail _
  · refine permits_ofExcept_bind fun a => ?_
    obtain ⟨v, below⟩ := a
    cases v with
    | deferred callee given => exact .schedule rfl callee given below
    | _ => exact .fail _
  · unfold awaitEffect
    split
    · split
      · exact .await rfl _ _
      · exact .fail _
    · exact .fail _
  · refine permits_ofExcept_bind fun a => ?_
    obtain ⟨right, below⟩ := a
    dsimp only
    split
    · exact permits_ofExcept_bind fun v => .next _
    · exact permits_ofExcept_bind fun b => permits_ofExcept_bind fun v => .next _

theorem permits_effect (i : Item) : i.Permits (i.effect s h env stack) := by
  cases i with
  | push v => exact .next _
  | load name =>
      simp only [effect]
      split
      · exact .fail _
      · split
        · exact permits_ofAnswer stack _
        · exact .next _
      · exact .next _
  | attr name => exact .next _
  | args => exact .next _
  | call name deferred =>
      refine permits_ofExcept_bind fun a => permits_ofExcept_bind fun callee => ?_
      exact permits_callEffect (fun hdeferred => by rw [calls, hdeferred]; rfl) callee a.1
  | invoke deferred =>
      refine permits_ofExcept_bind fun a => permits_ofExcept_bind fun callee => ?_
      exact permits_callEffect (fun hdeferred => by rw [calls, hdeferred]; rfl) _ a.1
  | op o => exact permits_operatorEffect o

/-- Only an item that calls has a call carried out. -/
theorem calls_of_effect {callee : Value} {args : List Value} {stack' : List Operand}
    (heffect : i.effect s h env stack = .call callee args stack') : i.calls = true := by
  have hpermits : i.Permits (.call callee args stack') := heffect ▸ i.permits_effect
  cases hpermits with
  | call hcalls => exact hcalls

/-- No item but a scheduling operator schedules a call. -/
theorem eq_background_of_effect {callee : Value} {args : List Value} {stack' : List Operand}
    (heffect : i.effect s h env stack = .schedule callee args stack') : i = .op .background := by
  have hpermits : i.Permits (.schedule callee args stack') := heffect ▸ i.permits_effect
  cases hpermits with
  | schedule hi => exact hi

end Item

namespace Machine

variable {s : Setting} {w : World} {m : Machine}

/-- An item is evaluated and leaves the pool as it was, or it has to wait and nothing changes, or it
schedules a call. -/
theorem evalItem_cases (items : List Item) (stack : List Operand) (site : Location) :
    (m.evalItem s w items stack site).Proceeds w ∨
      m.evalItem s w items stack site = ⟨.blocked, w, m.push (.eval items stack site)⟩ ∨
      items.head? = some (.op .background) ∧
        (m.evalItem s w items stack site).step ≠ .blocked ∧
        (m.evalItem s w items stack site).step ≠ .done := by
  cases items with
  | nil =>
      refine Or.inl ?_
      simp only [evalItem]
      split <;> exact .next rfl
  | cons i rest =>
      simp only [evalItem]
      split
      · exact Or.inl (.next rfl)
      · exact Or.inl (.next rfl)
      · next heffect =>
          refine Or.inr (Or.inr ⟨congrArg some (Item.eq_background_of_effect heffect), ?_⟩)
          split <;> exact ⟨nofun, nofun⟩
      · split
        · exact Or.inl (.next rfl)
        · split
          · exact Or.inr (Or.inl rfl)
          · split
            · next hclaim => exact Or.inl (.next (claim_pool hclaim))
            · next hclaim => exact Or.inl (.next (claim_pool hclaim))
            · exact Or.inl (.next rfl)
      · exact Or.inl (.next rfl)
      · exact Or.inl (.crash rfl)

theorem receive_quiet (v : Value) (f : Frame) : (m.receive s w v f).Quiet w := by
  cases f with
  | act action site => exact act_quiet site v action
  | branch site body rest otherwise =>
      simp only [receive]
      split
      · exact .next rfl rfl
      · exact choose_quiet otherwise rest
      · exact .next rfl rfl
  | lower var site upper body =>
      simp only [receive]
      split
      · exact evaluate_quiet _ upper
      · exact .next rfl rfl
  | upper var next site body =>
      simp only [receive]
      split <;> exact .next rfl rfl
  | test test body =>
      simp only [receive]
      split
      · exact .pause rfl rfl
      · exact .next rfl rfl
      · exact .next rfl rfl
  | supply c rest => exact supply_quiet _ rest
  | adopt object cls args taken site =>
      cases v with
      | object parent => refine initialise_quiet ?_ ?_ object cls args taken site <;> rfl
      | _ => exact initialise_quiet rfl rfl object cls args taken site
  | _ => exact .next rfl rfl

/-- Only an item and a lock can make a frame wait, and only an item has to do with tasks. -/
theorem resumeFrame_quiet {f : Frame} (henter : ∀ lock body, f ≠ .enter lock body)
    (heval : ∀ items stack site, f ≠ .eval items stack site) :
    (m.resumeFrame s w f).Quiet w := by
  cases f with
  | body rest own begun =>
      cases begun with
      | true => exact .pause rfl rfl
      | false =>
          cases rest with
          | nil => exact m.giveBack_quiet (.body [] own false) _
          | cons stmt rest => exact begin_quiet stmt
  | count var next last body =>
      cases next with
      | none => exact .next rfl rfl
      | some i =>
          simp only [resumeFrame]
          split
          · exact .next rfl rfl
          · exact .pause rfl rfl
  | again test body => exact evaluate_quiet _ test
  | enter lock body => exact absurd rfl (henter lock body)
  | hold lock => exact m.giveBack_quiet (.hold lock) _
  | eval items stack site => exact absurd rfl (heval items stack site)
  | call callee args site => exact call_quiet callee args site
  | running c => exact m.giveBack_quiet (.running c) _
  | construct cls args site => exact construct_quiet cls args site
  | guard handlers => exact .next rfl rfl
  | _ =>
      simp only [resumeFrame]
      exact receive_quiet .empty _

/-- A frame goes on and leaves the pool as it was, or it has to wait and nothing changes, or it
schedules a call. -/
theorem resumeFrame_cases (f : Frame) :
    (m.resumeFrame s w f).Proceeds w ∨
      m.resumeFrame s w f = ⟨.blocked, w, m.push f⟩ ∨
      (∃ rest stack site, f = .eval (.op .background :: rest) stack site) ∧
        (m.resumeFrame s w f).step ≠ .blocked ∧ (m.resumeFrame s w f).step ≠ .done := by
  cases f with
  | enter lock body =>
      simp only [resumeFrame]
      split
      · exact Or.inr (Or.inl rfl)
      · exact Or.inl (.next rfl)
  | eval items stack site =>
      rcases evalItem_cases (s := s) (w := w) (m := m) items stack site with h | h | ⟨hhead, h⟩
      · exact Or.inl h
      · exact Or.inr (Or.inl h)
      · obtain ⟨rest, rfl⟩ := List.head?_eq_some_iff.mp hhead
        exact Or.inr (Or.inr ⟨⟨rest, stack, site, rfl⟩, h⟩)
  | _ => exact Or.inl (resumeFrame_quiet (by simp) (by simp)).toProceeds

theorem unwind_quiet (e : Exit) (f : Frame) : (m.unwind s w e f).Quiet w := by
  have hback := m.giveBack_quiet (w := w) f
  unfold unwind
  split
  · exact .next rfl rfl
  · exact .next rfl rfl
  · exact hback _
  · exact hback _
  · split
    · simp only [handle]
      split <;> exact .next rfl rfl
    · split
      · exact .next rfl rfl
      · exact hback _
    · split
      · exact .next rfl rfl
      · exact hback _
    · exact hback _

/-- A step is taken and leaves the pool as it was, or it has to wait and nothing changes, or it
schedules a call. -/
theorem step_cases (h : m.frames ≠ []) :
    (m.step s w).Proceeds w ∨ m.step s w = ⟨.blocked, w, m⟩ ∨
      m.Schedules ∧ (m.step s w).step ≠ .blocked ∧ (m.step s w).step ≠ .done := by
  obtain ⟨frames, signal, scopes, depth⟩ := m
  cases frames with
  | nil => exact absurd rfl h
  | cons f frames =>
      cases signal with
      | run =>
          rcases resumeFrame_cases (s := s) (w := w) (m := ⟨frames, .run, scopes, depth⟩) f with
            h | h | ⟨⟨rest, stack, site, rfl⟩, h⟩
          · exact Or.inl h
          · exact Or.inr (Or.inl h)
          · exact Or.inr (Or.inr ⟨⟨rfl, rest, stack, site, frames, rfl⟩, h⟩)
      | value v => exact Or.inl (receive_quiet v f).toProceeds
      | leave e => exact Or.inl (unwind_quiet e f).toProceeds

/-- A step that schedules nothing leaves the pool as it was. -/
theorem step_pool (h : ¬ m.Schedules) : (m.step s w).world.pool = w.pool := by
  by_cases hframes : m.frames = []
  · rw [step, hframes]
  · rcases step_cases (s := s) (w := w) hframes with hstep | hstep | ⟨hschedules, -⟩
    · exact hstep.pool
    · rw [hstep]
    · exact absurd hschedules h

theorem step_of_frames_nil (h : m.frames = []) : m.step s w = ⟨.done, w, m⟩ := by
  rw [step, h]

theorem frames_of_step_done (h : (m.step s w).step = .done) : m.frames = [] := by
  by_cases hframes : m.frames = []
  · exact hframes
  · rcases step_cases (s := s) (w := w) hframes with hstep | hstep | ⟨-, hstep⟩
    · exact absurd h hstep.taken.2
    · rw [hstep] at h
      contradiction
    · exact absurd h hstep.2

/-- A step that has to wait changes nothing. -/
theorem step_of_blocked (h : (m.step s w).step = .blocked) : m.step s w = ⟨.blocked, w, m⟩ := by
  by_cases hframes : m.frames = []
  · rw [step_of_frames_nil hframes] at h
    contradiction
  · rcases step_cases (s := s) (w := w) hframes with hstep | hstep | ⟨-, hstep⟩
    · exact absurd h hstep.taken.1
    · exact hstep
    · exact absurd h hstep.1

end Machine

/-- A pool without tasks has nothing to advance. -/
theorem World.pass_eq_self {s : Setting} {fuel : Nat} {w : World} (h : w.pool.tasks = []) :
    w.pass s fuel = w := by
  unfold World.pass
  rw [h]

end Statute
