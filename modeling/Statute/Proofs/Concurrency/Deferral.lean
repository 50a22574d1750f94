import Statute.Proofs.Concurrency.Checked
import Statute.Proofs.Expression.Tree
import Statute.Proofs.Machine.Invocation

/-!
# Calls in the background

The arguments of a call in the background are evaluated when it is scheduled, like those of any
other call. What makes up for missing ones is not: the task begins with the arguments that were
given and with the scopes of the caller, and looks at the defaults when it is advanced for the first
time. Until then the caller and everybody else may have changed what the defaults depend on.

So the task binds what the same call would bind if it were made in the same scopes at that time.
-/

namespace Statute

/-! ## Written calls -/

/-- A call of a name, or of a value. The flag tells whether it is deferred. -/
def Item.Calling (i : Bool → Item) : Prop :=
  (∃ n, i = .call n) ∨ i = .invoke

mutual

/-- The item that carries out the call that an operand is. -/
def Primary.calling? : Primary → Option (Bool → Item)
  | .call n _ => some (.call n)
  | .invoke _ _ _ => some .invoke
  | .group t => t.calling?
  | _ => none

def Tree.calling? : Tree → Option (Bool → Item)
  | .operand p => p.calling?
  | _ => none

end

mutual

theorem Primary.items_of_calling? {i : Bool → Item} :
    ∀ p : Primary, p.calling? = some i →
      Item.Calling i ∧ ∃ items, ∀ deferred, p.items deferred = items ++ [i deferred]
  | .literal l, h => by simp [Primary.calling?] at h
  | .name n, h => by simp [Primary.calling?] at h
  | .field p f, h => by simp [Primary.calling?] at h
  | .call n args, h => by
      obtain rfl := Option.some.inj h
      exact ⟨Or.inl ⟨n, rfl⟩, .args :: Tree.listItems args, fun deferred => by
        simp [Primary.items]⟩
  | .invoke p f args, h => by
      obtain rfl := Option.some.inj h
      exact ⟨Or.inr rfl, p.items false ++ .attr f :: .op .dot :: .args :: Tree.listItems args,
        fun deferred => by simp [Primary.items]⟩
  | .group t, h => by
      obtain ⟨hi, items, hitems⟩ := Tree.items_of_calling? t h
      exact ⟨hi, items, fun deferred => by rw [Primary.items, hitems]⟩

/-- Scheduling a call defers its last item and leaves the others as they are. -/
theorem Tree.items_of_calling? {i : Bool → Item} :
    ∀ t : Tree, t.calling? = some i →
      Item.Calling i ∧ ∃ items, ∀ deferred, t.items deferred = items ++ [i deferred]
  | .operand p, h => by
      obtain ⟨hi, items, hitems⟩ := Primary.items_of_calling? p h
      exact ⟨hi, items, fun deferred => by rw [Tree.items, hitems]⟩
  | .unary o t, h => by simp [Tree.calling?] at h
  | .binary o l r, h => by simp [Tree.calling?] at h

end

namespace Item

variable {s : Setting} {h : Heap} {env : Env} {stack below : List Operand} {callee : Value}
  {args : List Value}

theorem callEffect_deferred {callee₀ : Value} {args₀ : List Value} {stack₀ : List Operand}
    (hcall : callEffect s h callee₀ args₀ false stack₀ = .call callee args below) :
    callEffect s h callee₀ args₀ true stack₀ =
      .next (.value (.deferred callee args) :: below) := by
  unfold callEffect at hcall ⊢
  by_cases hcallable : callee₀.isCallable = true
  · rw [if_neg (by simp [hcallable]), if_neg Bool.false_ne_true] at hcall
    rw [if_neg (by simp [hcallable]), if_pos rfl]
    split at hcall
    · next e =>
        cases hanswer : e.checkedCall s.host h args₀ <;> rw [hanswer] at hcall <;> cases hcall
    · cases hcall
      rfl
  · rw [if_pos (by simpa using hcallable)] at hcall
    cases hcall

/-- Where a call would be carried out, the deferred call leaves a value that stands for it, with the
same arguments. -/
theorem Calling.effect_deferred {i : Bool → Item} (hi : Calling i)
    (hcall : (i false).effect s h env stack = .call callee args below) :
    (i true).effect s h env stack = .next (.value (.deferred callee args) :: below) := by
  rcases hi with ⟨n, rfl⟩ | rfl
  · simp only [effect] at hcall ⊢
    cases hargs : Operand.popArgs h [] stack with
    | error f =>
        rw [hargs] at hcall
        cases hcall
    | ok a =>
        cases hresolve : s.resolve h env n with
        | error f =>
            rw [hargs, hresolve] at hcall
            cases hcall
        | ok v =>
            rw [hargs, hresolve] at hcall
            exact callEffect_deferred hcall
  · simp only [effect] at hcall ⊢
    cases hargs : Operand.popArgs h [] stack with
    | error f =>
        rw [hargs] at hcall
        cases hcall
    | ok a =>
        rw [hargs] at hcall
        cases hpop : Operand.pop a.2 with
        | error f =>
            simp only [bind, Except.bind, hpop] at hcall
            cases hcall
        | ok b =>
            simp only [bind, Except.bind, hpop] at hcall ⊢
            exact callEffect_deferred hcall

end Item

/-! ## Scheduling -/

namespace Machine

variable {s : Setting} {w : World} {m k : Machine} {stack below : List Operand} {callee : Value}
  {args : List Value}

def evaluating (m : Machine) (items : List Item) (stack : List Operand) (site : Location) :
    Machine :=
  (m.push (.eval items stack site)).send .run

theorem step_evaluating (i : Item) (rest : List Item) (site : Location) :
    (k.evaluating (i :: rest) stack site).step s w =
      (k.send .run).evalItem s w (i :: rest) stack site :=
  rfl

theorem step_evaluating_call {i : Item}
    (hcall : i.effect s w.heap k.scopes.current stack = .call callee args below)
    (rest : List Item) (site : Location) :
    (k.evaluating (i :: rest) stack site).step s w =
      ⟨.next, w, (k.evaluating rest below site).calling callee args site⟩ := by
  have hcall : i.effect s w.heap (k.send .run).scopes.current stack = _ := hcall
  rw [step_evaluating]
  simp only [evalItem, hcall]
  rfl

theorem step_evaluating_next {i : Item}
    (hnext : i.effect s w.heap k.scopes.current stack = .next below) (rest : List Item)
    (site : Location) :
    (k.evaluating (i :: rest) stack site).step s w = ⟨.next, w, k.evaluating rest below site⟩ := by
  have hnext : i.effect s w.heap (k.send .run).scopes.current stack = _ := hnext
  rw [step_evaluating]
  simp only [evalItem, hnext]
  rfl

/-- The task that a call in the background begins with: the call with the arguments that were given,
in the scopes of its caller. -/
theorem step_evaluating_background (hopen : w.pool.closed = false) (k : Machine) (callee : Value)
    (args : List Value) (below : List Operand) (rest : List Item) (site : Location) :
    ∃ w' label, (k.evaluating (.op .background :: rest)
        (.value (.deferred callee args) :: below) site).step s w =
          ⟨.next, w', k.evaluating rest (.value (.task w.tasks.size) :: below) site⟩ ∧
      w'.task w.tasks.size = .new label (.ofCall k.scopes.current callee args) := by
  have hschedule : (Item.op .background).effect s w.heap (k.send .run).scopes.current
      (.value (.deferred callee args) :: below) = .schedule callee args below := rfl
  rw [step_evaluating]
  simp only [evalItem, hschedule, World.schedule, hopen]
  refine ⟨_, taskLabel w.heap callee, rfl, ?_⟩
  simp [World.addTask, World.task, send]

/-- With the value of its last default a call enters its body, below the limit of depth. -/
theorem opens_of_supplied (c : Call) (v : Value) (below : List Frame) (scopes : ScopeStack)
    {depth : Nat} (hdepth : depth < s.config.recursionLimit) :
    Machine.Opens s w ⟨.supply c [] :: below, .value v, scopes, depth⟩
      { c with args := c.args ++ [v] } below := by
  have hstep : Machine.step s w ⟨.supply c [] :: below, .value v, scopes, depth⟩ =
      Machine.enter s w ⟨below, .run, scopes, depth⟩ { c with args := c.args ++ [v] } := rfl
  rw [enter, if_neg (Nat.not_le.mpr hdepth)] at hstep
  exact ⟨by rw [hstep]; rfl, by rw [hstep]; rfl, by rw [hstep]; rfl⟩

end Machine

/-! ## What happens to a task -/

/-- What others do to a task: they leave it alone, or take its outcome when it is done. -/
def Task.Spared (t t' : Task) : Prop :=
  t' = t ∨ t.done = true ∧ t' = { t with waited := true, outcome := none }

/-- A task is done and has no machine any more, or it has one with the given history from `m₀`
on. -/
def Task.Pursuing (s : Setting) (m₀ : Machine) (ts : List Moment) (t : Task) : Prop :=
  (t.done = true ∧ t.machine = none) ∨
    (t.done = false ∧ ∃ m, t.machine = some m ∧ Machine.Passes s m₀ ts m ∧
      ∀ t ∈ ts, t.machine.frames ≠ [])

theorem Task.Pursuing.spared {s : Setting} {m₀ : Machine} {ts : List Moment} {t t' : Task}
    (h : t.Pursuing s m₀ ts) (hspared : t.Spared t') : t'.Pursuing s m₀ ts := by
  rcases hspared with rfl | ⟨hdone, rfl⟩
  · exact h
  · refine Or.inl ⟨hdone, ?_⟩
    rcases h with ⟨-, hmachine⟩ | ⟨hopen, -⟩
    · exact hmachine
    · rw [hdone] at hopen
      contradiction

theorem Task.pursuing_finish (s : Setting) (m₀ : Machine) (ts : List Moment) (t : Task)
    (o : Outcome) : (t.finish o).Pursuing s m₀ ts :=
  Or.inl ⟨rfl, rfl⟩

theorem Task.pursuing_abandoned (s : Setting) (m₀ : Machine) (ts : List Moment) (ref : TaskRef)
    (t : Task) : (t.abandoned ref).Pursuing s m₀ ts := by
  refine Or.inl ⟨?_, t.machine_abandoned ref⟩
  unfold abandoned
  split
  · assumption
  · rfl

namespace World

variable {s : Setting} {w : World} {m m₀ : Machine} {t t' : TaskRef}

theorem spared_step (m : Machine) (ht : t < w.tasks.size) :
    (w.task t).Spared ((m.step s w).world.task t) := by
  cases hdone : (w.task t).done with
  | false => exact Or.inl (task_step ht hdone)
  | true =>
      obtain ⟨ts, htasks, hafter⟩ := m.exists_tasksAfter s w
      rw [task, task, htasks]
      cases hafter with
      | same => exact Or.inl rfl
      | @claimed t' _ =>
          by_cases heq : t' = t
          · subst heq
            exact Or.inr ⟨hdone, task_setTask ht _⟩
          · exact Or.inl (task_setTask_of_ne (Ne.symm heq) _)
      | scheduled label hcall =>
          left
          rw [Array.getD_eq_getD_getElem?, Array.getElem?_push_lt ht]
          simp [ht]

theorem task_discard (w : World) (m : Machine) (t : TaskRef) :
    (w.discard m).task t = w.task t := by
  rw [task, discard, tasks_releaseAll, task]

theorem size_discard (w : World) (m : Machine) : (w.discard m).tasks.size = w.tasks.size := by
  rw [discard, tasks_releaseAll]

/-- What the machine of a task finds when the task is advanced: it has been taken out of it. -/
def moment (w : World) (t : TaskRef) (m : Machine) : Moment :=
  ⟨w.setTask t { w.task t with machine := none }, m⟩

/-- A step of the machine of a task, seen from outside of the task. -/
theorem advance_one {m : Machine} (hmachine : (w.task t).machine = some m) :
    ∃ (task : Task) (w' : World), w.advance s 1 t = w'.setTask t task ∧
      w'.tasks = (m.step s (w.moment t m).world).world.tasks ∧
      ∀ m₀ ts, (w.task t).Pursuing s m₀ ts → task.Pursuing s m₀ (ts ++ [w.moment t m]) := by
  rw [advance_eq hmachine, Machine.resume]
  rcases hreply : m.step s (w.moment t m).world with ⟨st, w₁, m₁⟩
  -- A machine that is neither at its end nor broken down goes back into the task.
  have hback : (∀ message, st ≠ .crash message) → st ≠ .done → ∀ m₀ ts,
      (w.task t).Pursuing s m₀ ts →
        Task.Pursuing s m₀ (ts ++ [w.moment t m]) { w.task t with machine := some m₁ } := by
    intro hcrash hdone m₀ ts hpursuing
    obtain ⟨-, hnone⟩ | ⟨hopen, m', hsome, hpasses, hbusy⟩ := hpursuing
    · rw [hnone] at hmachine
      contradiction
    · obtain rfl : m' = m := Option.some.inj (hsome.symm.trans hmachine)
      refine Or.inr ⟨hopen, m₁, rfl, hpasses.append (.of_step hreply hcrash (.stay m₁)), ?_⟩
      intro t' ht'
      rcases List.mem_append.mp ht' with ht' | ht'
      · exact hbusy t' ht'
      · obtain rfl := List.mem_singleton.mp ht'
        intro hframes
        have hframes : m'.frames = [] := hframes
        rw [Machine.step_of_frames_nil hframes] at hreply
        cases hreply
        exact hdone rfl
  change m.step s (w.setTask t { w.task t with machine := none }) = _ at hreply
  rw [hreply]
  cases st with
  | next => exact ⟨_, w₁, rfl, rfl, hback (by simp) (by simp)⟩
  | pause => exact ⟨_, w₁, rfl, rfl, hback (by simp) (by simp)⟩
  | blocked => exact ⟨_, w₁, rfl, rfl, hback (by simp) (by simp)⟩
  | done => exact ⟨_, w₁, rfl, rfl, fun m₀ ts _ => Task.pursuing_finish s m₀ _ _ _⟩
  | crash message =>
      exact ⟨_, w₁.discard m₁, rfl, tasks_releaseAll w₁ _,
        fun m₀ ts _ => Task.pursuing_finish s m₀ _ _ _⟩

theorem size_le_advance (w : World) (t : TaskRef) :
    w.tasks.size ≤ (w.advance s 1 t).tasks.size := by
  cases hmachine : (w.task t).machine with
  | none => rw [advance_of_machine_none hmachine]
  | some m =>
      obtain ⟨task, w', hadvance, htasks, -⟩ := advance_one (s := s) hmachine
      rw [hadvance, size_setTask, htasks]
      exact (size_setTask w t _).symm.trans_le (size_le_step m)

theorem spared_advance (ht : t < w.tasks.size) (hne : t ≠ t') :
    (w.task t).Spared ((w.advance s 1 t').task t) := by
  cases hmachine : (w.task t').machine with
  | none =>
      rw [advance_of_machine_none hmachine]
      exact Or.inl rfl
  | some m =>
      obtain ⟨task, w', hadvance, htasks, -⟩ := advance_one (s := s) hmachine
      have htask : w'.task t = (m.step s _).world.task t :=
        congrArg (fun ts : Array Task => ts.getD t default) htasks
      rw [hadvance, task_setTask_of_ne hne, htask,
        ← task_setTask_of_ne (w := w) hne { w.task t' with machine := none }]
      exact spared_step m (by rwa [size_setTask])

theorem pursuing_advance {ts : List Moment} (h : (w.task t).Pursuing s m₀ ts)
    (ht : t < w.tasks.size) (hmachine : (w.task t).machine = some m) :
    ((w.advance s 1 t).task t).Pursuing s m₀ (ts ++ [w.moment t m]) := by
  obtain ⟨task, w', hadvance, htasks, hpursuing⟩ := advance_one (s := s) hmachine
  have ht' : t < w'.tasks.size := by
    rw [htasks]
    exact ht.trans_le ((size_setTask w t _).symm.trans_le (size_le_step m))
  rw [hadvance, task_setTask ht']
  exact hpursuing m₀ ts h

theorem abandon_eq (w : World) (t : TaskRef) :
    ∃ w' : World, w.abandon t = w'.setTask t ((w.task t).abandoned t) ∧ w'.tasks = w.tasks := by
  cases hmachine : (w.task t).machine with
  | none => exact ⟨w, abandon_of_machine_none hmachine, rfl⟩
  | some m => exact ⟨w.discard m, abandon_of_machine hmachine, tasks_releaseAll w _⟩

end World

namespace System

variable {s : Setting} {σ σ' σ₁ : System} {Begun : Machine → Prop} {Given : Value → Prop}
  {t : TaskRef} {m m₀ : Machine} {label : String}

def Touches (s : Setting) (t : TaskRef) (σ σ' : System) : Prop :=
  σ' = ⟨σ.world.advance s 1 t, σ.atWork⟩ ∨ σ' = ⟨σ.world.abandon t, σ.atWork⟩

/-- Nothing but a touch makes a task go on. -/
theorem Happens.task (hmove : Happens s Begun Given σ σ') (ht : t < σ.world.tasks.size) :
    t < σ'.world.tasks.size ∧
      ((σ.world.task t).Spared (σ'.world.task t) ∨ Touches s t σ σ') := by
  cases hmove with
  | start hbegun => exact ⟨ht, Or.inl (Or.inl rfl)⟩
  | step before m after hstep =>
      exact ⟨ht.trans_le (World.size_le_step m), Or.inl (World.spared_step m ht)⟩
  | crash before m after hstep =>
      rw [World.size_discard, World.task_discard]
      exact ⟨ht.trans_le (World.size_le_step m), Or.inl (World.spared_step m ht)⟩
  | drop before m after =>
      rw [World.size_discard, World.task_discard]
      exact ⟨ht, Or.inl (Or.inl rfl)⟩
  | @advance w ms t' =>
      refine ⟨ht.trans_le (w.size_le_advance t'), ?_⟩
      by_cases heq : t = t'
      · subst heq
        exact Or.inr (Or.inl rfl)
      · exact Or.inl (World.spared_advance ht heq)
  | @abandon w ms t' =>
      obtain ⟨w', habandon, htasks⟩ := w.abandon_eq t'
      refine ⟨?_, ?_⟩
      · rw [habandon, World.size_setTask, htasks]
        exact ht
      · by_cases heq : t = t'
        · subst heq
          exact Or.inr (Or.inr rfl)
        · refine Or.inl (Or.inl ?_)
          rw [habandon, World.task_setTask_of_ne heq, World.task, htasks, World.task]
  | give name hgiven => exact ⟨ht, Or.inl (Or.inl rfl)⟩
  | elsewhere locks pool output => exact ⟨ht, Or.inl (Or.inl rfl)⟩

/-- A run, with the moments at which a task takes its steps. -/
inductive Attends (s : Setting) (Begun : Machine → Prop) (Given : Value → Prop) (t : TaskRef)
    (σ : System) : List Moment → System → Prop
  | stay : Attends s Begun Given t σ [] σ
  | apart {σ₁ σ₂ : System} {ts : List Moment} (h : Attends s Begun Given t σ ts σ₁)
      (hmove : Happens s Begun Given σ₁ σ₂)
      (hspared : (σ₁.world.task t).Spared (σ₂.world.task t)) : Attends s Begun Given t σ ts σ₂
  | advance {w : World} {ms : List Machine} {ts : List Moment} {m : Machine}
      (h : Attends s Begun Given t σ ts ⟨w, ms⟩) (hmachine : (w.task t).machine = some m) :
      Attends s Begun Given t σ (ts ++ [w.moment t m]) ⟨w.advance s 1 t, ms⟩
  | abandon {w : World} {ms : List Machine} {ts : List Moment}
      (h : Attends s Begun Given t σ ts ⟨w, ms⟩) :
      Attends s Begun Given t σ ts ⟨w.abandon t, ms⟩

theorem Attends.runs {ts : List Moment} (h : Attends s Begun Given t σ ts σ') :
    Runs s Begun Given σ σ' := by
  induction h with
  | stay => exact .refl
  | apart _ hmove _ ih => exact ih.tail hmove
  | advance _ _ ih => exact ih.tail (.advance t)
  | abandon _ ih => exact ih.tail (.abandon t)

/-- In every run a task takes its steps at some moments. -/
theorem Runs.attends (hruns : Runs s Begun Given σ σ') (ht : t < σ.world.tasks.size) :
    t < σ'.world.tasks.size ∧ ∃ ts, Attends s Begun Given t σ ts σ' := by
  induction hruns with
  | refl => exact ⟨ht, [], .stay⟩
  | @tail σ₁ σ₂ _ hmove ih =>
      obtain ⟨ht₁, ts, hattends⟩ := ih
      obtain ⟨ht₂, hspared | rfl | rfl⟩ := hmove.task ht₁
      · exact ⟨ht₂, ts, hattends.apart hmove hspared⟩
      · cases hmachine : (σ₁.world.task t).machine with
        | none =>
            refine ⟨ht₂, ts, hattends.apart hmove (Or.inl ?_)⟩
            rw [World.advance_of_machine_none hmachine]
        | some m => exact ⟨ht₂, _, hattends.advance hmachine⟩
      · exact ⟨ht₂, ts, hattends.abandon⟩

theorem Attends.pursuing {ts : List Moment} (h : Attends s Begun Given t σ ts σ')
    (hnew : σ.world.task t = .new label m₀) :
    t < σ'.world.tasks.size ∧ (σ'.world.task t).Pursuing s m₀ ts := by
  induction h with
  | stay =>
      refine ⟨World.lt_size_of_machine (m := m₀) (by rw [hnew]; rfl), ?_⟩
      rw [hnew]
      exact Or.inr ⟨rfl, m₀, rfl, .stay m₀, List.forall_mem_nil _⟩
  | apart _ hmove hspared ih =>
      obtain ⟨ht, hpursuing⟩ := ih
      exact ⟨(hmove.task ht).1, hpursuing.spared hspared⟩
  | @advance w ms ts m _ hmachine ih =>
      obtain ⟨ht, hpursuing⟩ := ih
      exact ⟨ht.trans_le (w.size_le_advance t), World.pursuing_advance hpursuing ht hmachine⟩
  | @abandon w ms ts _ ih =>
      obtain ⟨ht, -⟩ := ih
      obtain ⟨w', habandon, htasks⟩ := w.abandon_eq t
      rw [habandon, World.size_setTask, htasks]
      refine ⟨ht, ?_⟩
      rw [World.task_setTask (by rwa [htasks])]
      exact Task.pursuing_abandoned s m₀ ts t _

/-- As long as a task has a machine, its moments are the history of this machine. -/
theorem Attends.passes {ts : List Moment} (h : Attends s Begun Given t σ ts σ')
    (hnew : σ.world.task t = .new label m₀) (hmachine : (σ'.world.task t).machine = some m) :
    Machine.Passes s m₀ ts m ∧ ∀ t ∈ ts, t.machine.frames ≠ [] := by
  obtain ⟨-, ⟨-, hnone⟩ | ⟨-, m', hsome, hpasses⟩⟩ := h.pursuing hnew
  · rw [hnone] at hmachine
    contradiction
  · obtain rfl : m' = m := Option.some.inj (hsome.symm.trans hmachine)
    exact hpasses

/-- A task is as it began until it is touched for the first time. -/
theorem Runs.first_touch (hruns : Runs s Begun Given σ σ')
    (hnew : σ.world.task t = .new label m₀) :
    ∃ σ₁, Runs s Begun Given σ σ₁ ∧ σ₁.world.task t = .new label m₀ ∧
      (σ₁ = σ' ∨ ∃ σ₂, Touches s t σ₁ σ₂ ∧ Runs s Begun Given σ₂ σ') := by
  induction hruns with
  | refl => exact ⟨σ, .refl, hnew, Or.inl rfl⟩
  | @tail σ₃ σ₄ hbefore hmove ih =>
      obtain ⟨σ₁, hfirst, htask, rfl | ⟨σ₂, htouches, hrest⟩⟩ := ih
      · have ht : t < σ₁.world.tasks.size :=
          World.lt_size_of_machine (m := m₀) (by rw [htask]; rfl)
        -- A task that has not begun is not done, so nobody takes an outcome from it.
        obtain ⟨-, (hsame | ⟨hdone, -⟩) | htouches⟩ := hmove.task ht
        · exact ⟨σ₄, hfirst.tail hmove, hsame.trans htask, Or.inl rfl⟩
        · rw [htask] at hdone
          contradiction
        · exact ⟨σ₁, hfirst, htask, Or.inr ⟨σ₄, htouches, .refl⟩⟩
      · exact ⟨σ₁, hfirst, htask, Or.inr ⟨σ₂, htouches, hrest.tail hmove⟩⟩

/-! ## What a call in the background binds -/

/-- A call in the background is scheduled with the arguments that the same call would be made with
then, and until its task is touched for the first time the task is as it began, whatever else
happens. From then on, wherever the task has got to, a body that it enters on its own account is
that of the call, and the arguments that were given come first in it; and at every moment of its
history it does and binds what the same call does and binds there when it is made in the same scopes
at the first one of these moments, unless this is refused for its depth. -/
theorem background_binds {t : Tree} {i : Bool → Item} (ht : t.calling? = some i) {w : World}
    {k : Machine} {stack below : List Operand} {callee : Value} {args : List Value}
    (hcall : (i false).effect s w.heap k.scopes.current stack = .call callee args below)
    (rest : List Item) (site : Location) :
    (∃ items, t.items false = items ++ [i false] ∧
      (Tree.unary ⟨.background, rfl⟩ t).items false = items ++ [i true, .op .background]) ∧
    (k.evaluating (i false :: rest) stack site).step s w =
      ⟨.next, w, (k.evaluating rest below site).calling callee args site⟩ ∧
    (k.evaluating (i true :: .op .background :: rest) stack site).step s w =
      ⟨.next, w, k.evaluating (.op .background :: rest)
        (.value (.deferred callee args) :: below) site⟩ ∧
    ∀ w₁ : World, w₁.pool.closed = false →
      ∃ w₂ label, (k.evaluating (.op .background :: rest)
          (.value (.deferred callee args) :: below) site).step s w₁ =
            ⟨.next, w₂, k.evaluating rest (.value (.task w₁.tasks.size) :: below) site⟩ ∧
        ∀ (Begun : Machine → Prop) (Given : Value → Prop) (ms : List Machine) (σ : System),
          Runs s Begun Given ⟨w₂, ms⟩ σ →
          (∃ σ₁, Runs s Begun Given ⟨w₂, ms⟩ σ₁ ∧
            σ₁.world.task w₁.tasks.size =
              .new label (.ofCall k.scopes.current callee args) ∧
            (σ₁ = σ ∨ ∃ σ₂, Touches s w₁.tasks.size σ₁ σ₂ ∧ Runs s Begun Given σ₂ σ)) ∧
          (∃ ts, Attends s Begun Given w₁.tasks.size ⟨w₂, ms⟩ ts σ) ∧
          ∀ ts m, Attends s Begun Given w₁.tasks.size ⟨w₂, ms⟩ ts σ →
            (σ.world.task w₁.tasks.size).machine = some m →
              (∀ w c outer, m.Opens s w c outer → (∀ f ∈ outer, f.call? = none) →
                c.Stems args callee) ∧
              Machine.Passes s (.ofCall k.scopes.current callee args) ts m ∧
              ∀ k' : Machine, k'.scopes.current = k.scopes.current → ∀ site',
                Machine.Mirrors s (k'.calling callee args site') ts m := by
  obtain ⟨hi, items, hitems⟩ := t.items_of_calling? ht
  refine ⟨⟨items, hitems false, ?_⟩, Machine.step_evaluating_call hcall rest site,
    Machine.step_evaluating_next (hi.effect_deferred hcall) _ site, fun w₁ hopen => ?_⟩
  · simp [Tree.items, hitems]
  · obtain ⟨w₂, label, hstep, htask⟩ :=
      Machine.step_evaluating_background (s := s) hopen k callee args below rest site
    have ht : w₁.tasks.size < w₂.tasks.size :=
      World.lt_size_of_machine (m := .ofCall k.scopes.current callee args) (by rw [htask]; rfl)
    refine ⟨w₂, label, hstep, fun Begun Given ms σ hruns =>
      ⟨hruns.first_touch htask, (hruns.attends ht).2, ?_⟩⟩
    intro ts m hattends hmachine
    obtain ⟨hpasses, hbusy⟩ := hattends.passes htask hmachine
    refine ⟨fun w c outer hopens houter => Machine.stems_of_opens hpasses.reaches hopens houter,
      hpasses, ?_⟩
    intro k' hscopes site'
    rw [← hscopes] at hpasses
    exact Machine.mirrors_calling k' site' hpasses hbusy

def fee : Procedure :=
  ⟨"fee", [⟨"base", none⟩, ⟨"surcharge", some ⟨["rate"], default⟩⟩],
    [.returnWith (some ⟨["base", "+", "surcharge"], default⟩)]⟩

def charging : World :=
  { World.new default with
    heap := { Heap.empty with scopes := #[⟨"global", [("fee", .procedure fee)]⟩] } }

/-- When `fee(1)` is scheduled, the base is 1 in every body that the task enters for it. -/
theorem background_binds_fee :
    let s : Setting := ⟨default, default, Host.none⟩
    let k : Machine := ⟨[], .run, ⟨World.globals, []⟩, 0⟩
    charging.pool.closed = false ∧
    ∃ w₂, (k.evaluating [.op .background] [.value (.deferred (.procedure fee) [.int 1])]
        default).step s charging = ⟨.next, w₂, k.evaluating [] [.value (.task 0)] default⟩ ∧
      ∀ σ m, Runs s (fun _ => False) (fun _ => False) ⟨w₂, []⟩ σ →
        (σ.world.task 0).machine = some m → ∀ w c outer, m.Opens s w c outer →
          (∀ f ∈ outer, f.call? = none) → c.Stems [.int 1] (.procedure fee) := by
  intro s k
  have hcall : (Item.call "fee" false).effect s charging.heap k.scopes.current
      [.value (.int 1), .mark] = .call (.procedure fee) [.int 1] [] := by
    rfl
  have hcalling : (Tree.operand (.call "fee" [.operand (.literal (.int 1))])).calling? =
      some (Item.call "fee") := rfl
  obtain ⟨-, -, -, hschedules⟩ := background_binds hcalling hcall [] default
  obtain ⟨w₂, _, hstep, hall⟩ := hschedules charging rfl
  refine ⟨rfl, w₂, hstep, fun σ m hruns hmachine => ?_⟩
  obtain ⟨-, ⟨ts, hattends⟩, hfollows⟩ := hall _ _ _ σ hruns
  exact (hfollows ts m hattends hmachine).1

/-- A procedure with a default, which is called in the background before what the default depends on
changes. -/
def rescaled : Source :=
  ⟨[⟨"fee", [⟨"surcharge", some ⟨["rate"], default⟩⟩], []⟩], [], [],
    [.declare "rate" ⟨["1"], default⟩,
      .declare "later" ⟨["in", "background", "fee", "(", ")"], default⟩,
      .assign ⟨"rate", none⟩ ⟨["2"], default⟩]⟩

/-- Whether the default comes to 1 when the call is made where it is scheduled, and to 2 in the task
that is first advanced when the program has changed the rate. -/
def drifts (session : Session) : Bool :=
  let s := session.setting
  let declared := (Machine.ofBody World.globals s.registry.main).resume s 5 session.world
  let before := declared.machine.resume s 3 declared.world
  match before.machine with
  | ⟨.eval [.op .background] [.value (.deferred callee [])] site :: fs, .run, scopes, depth⟩ =>
      let k : Machine := ⟨fs, .run, scopes, depth⟩
      let inline := ((k.evaluating [] [] site).calling callee [] site).resume s 3 before.world
      let scheduled := before.machine.resume s 4 before.world
      let changed := scheduled.machine.resume s 5 scheduled.world
      match inline.machine, ((changed.world.advance s 3 0).task 0).machine with
      | ⟨.supply ⟨p, _, [], _⟩ [] :: _, .value (.int i), _, d⟩,
          some ⟨[.supply ⟨p', _, [], _⟩ []], .value (.int i'), _, d'⟩ =>
          decide ((p.name = "fee" ∧ i = 1 ∧ d < s.config.recursionLimit) ∧
            (p'.name = "fee" ∧ i' = 2 ∧ d' < s.config.recursionLimit) ∧
            before.world.tasks.size = 0 ∧
            ∀ c ∈ [declared, before, scheduled, changed], c.progress = .suspended)
      | _, _ => false
  | _ => false

/-- The call that is made where it is scheduled binds 1, and the task binds 2. -/
theorem background_default_drifts :
    ∃ (session : Session) (w₁ : World) (k : Machine) (callee : Value) (site : Location)
      (inline : Carried) (c : Call) (outer : List Frame) (σ : System) (m : Machine) (c' : Call),
      Session.load default Host.none [] "main" rescaled = .ok session ∧
      Runs session.setting (fun _ => False) (fun _ => False)
        ⟨session.world, [.ofBody World.globals session.setting.registry.main]⟩
        ⟨w₁, [k.evaluating [.op .background] [.value (.deferred callee [])] site]⟩ ∧
      ((k.evaluating [] [] site).calling callee [] site).resume session.setting 3 w₁ = inline ∧
      inline.machine.Opens session.setting inline.world c outer ∧
      Runs session.setting (fun _ => False) (fun _ => False)
        ⟨w₁, [k.evaluating [.op .background] [.value (.deferred callee [])] site]⟩ σ ∧
      (σ.world.task w₁.tasks.size).machine = some m ∧ m.Opens session.setting σ.world c' [] ∧
      c.procedure.name = "fee" ∧ c'.procedure.name = "fee" ∧
      c.args = [.int 1] ∧ c'.args = [.int 2] := by
  have hdrifts : ((Session.load default Host.none [] "main" rescaled).map drifts).toOption =
      some true := by
    decide +kernel
  cases hload : Session.load default Host.none [] "main" rescaled with
  | error f =>
      rw [hload] at hdrifts
      contradiction
  | ok session =>
      rw [hload] at hdrifts
      have hdrifts : drifts session = true := Option.some.inj hdrifts
      unfold drifts at hdrifts
      dsimp only at hdrifts
      generalize hdeclared : Machine.resume session.setting 5 session.world _ = declared at hdrifts
      generalize hreaches : Machine.resume session.setting 3 declared.world _ = before at hdrifts
      split at hdrifts
      · next callee site fs scopes depth hbefore =>
          generalize hschedules : Machine.resume session.setting 4 before.world _ = scheduled
            at hdrifts
          generalize hchanges : Machine.resume session.setting 5 scheduled.world _ = changed
            at hdrifts
          split at hdrifts
          · next p receiver place above i scopes₁ d p' receiver' place' i' scopes₂ d' hinline
              htask =>
              obtain ⟨⟨hname, rfl, hdepth⟩, ⟨hname', rfl, hdepth'⟩, hnone, hsuspended⟩ :=
                of_decide_eq_true hdrifts
              -- Every stride of the program is a run in which nobody else does anything.
              have hstride : ∀ {c : Carried}, c ∈ [declared, before, scheduled, changed] →
                  ∀ {fuel w m}, m.resume session.setting fuel w = c →
                    Runs session.setting (fun _ => False) (fun _ => False) ⟨w, [m]⟩
                      ⟨c.world, [c.machine]⟩ := by
                intro c hc fuel w m hcarried
                exact runs_resume hcarried (by simp [hsuspended c hc]) [] []
              have hbegins : Runs session.setting (fun _ => False) (fun _ => False) _ _ :=
                (hstride (by simp) hdeclared).trans (hstride (by simp) hreaches)
              have hgoesOn : Runs session.setting (fun _ => False) (fun _ => False) _ _ :=
                (hstride (by simp) hschedules).trans (hstride (by simp) hchanges)
              rw [hbefore] at hbegins hgoesOn
              have hidle := hgoesOn.idle (hbegins.idle (Session.idle_load hload))
              refine ⟨session, before.world, ⟨fs, .run, scopes, depth⟩, callee, site, _,
                ⟨p, receiver, [.int 1], place⟩, above,
                ⟨changed.world.advance session.setting 3 0, [changed.machine]⟩,
                ⟨[.supply ⟨p', receiver', [], place'⟩ []], .value (.int 2), scopes₂, d'⟩,
                ⟨p', receiver', [.int 2], place'⟩, rfl, hbegins, rfl, ?_,
                hgoesOn.trans (runs_advance hidle 2 0 _), ?_, ?_, hname, hname', rfl, rfl⟩
              · rw [hinline]
                exact Machine.opens_of_supplied ⟨p, receiver, [], place⟩ _ _ _ hdepth
              · rw [hnone]
                exact htask
              · exact Machine.opens_of_supplied ⟨p', receiver', [], place'⟩ _ _ _ hdepth'
          · contradiction
      · contradiction

end System

end Statute
