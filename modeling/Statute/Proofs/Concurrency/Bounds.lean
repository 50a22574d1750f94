import Statute.Proofs.Concurrency.Escape
import Statute.Proofs.Machine.Weight

/-!
# Bounds on machines

The limit of calls bounds a machine as long as everything that can be pending is counted. That is so
if the defaults of parameters do not call. Then the number of frames stays within a bound that is
computed from the program and the limit, whatever is called with whatever arguments and whichever
way the machines take turns. And a machine that is resumed comes back: after so many steps, which
can be computed from its frames, it is at a checkpoint, has to wait or is done.

A default is evaluated before its call is entered, so a call in it is pending without being counted.
Then there is no bound at all.
-/

namespace Statute

open Statute.Frame (Below)

/-! ## Loading -/

theorem Heap.stores_among (R : Repertoire) : Stores (Among R) (Value.Among R) where
  scalar _ hv := (Value.pervasive_among R).scalar hv
  list _ hvs := Value.among_list.mpr hvs
  record _ := trivial
  newRecord _ _ hamong hr := hamong.newRecord hr
  locks _ _ hamong := hamong.locks _

/-- A program is loaded onto a heap that carries no code, and has no tasks yet. -/
theorem Session.among_load {config : Config} {host : Host} {extensions : List Extension}
    {file : String} {source : Source} {session : Session}
    (hload : load config host extensions file source = .ok session) (R : Repertoire) :
    session.setting.host = host ∧ session.world.heap.Among R ∧ session.world.tasks = #[] := by
  obtain ⟨⟨heap, registry⟩, hbuild, hsession⟩ := exists_of_bind_eq_ok hload
  obtain rfl := Except.ok.inj hsession
  exact ⟨rfl, (Heap.stores_among R).build (Heap.among_empty.newScope "global") hbuild, rfl⟩

/-! ## Machines -/

/-- What is on the heap and what tasks have come to is among a repertoire. -/
structure World.Among (R : Repertoire) (w : World) : Prop where
  heap : w.heap.Among R
  outcomes : ∀ t v, (w.task t).outcome = some (.ok v) → v.Among R

namespace Machine

variable {R : Repertoire} {s : Setting} {w w' : World} {m m' : Machine} {bound : Nat}

/-- A machine as it is begun: for a body, a compiled expression, or a call of values of the
repertoire. -/
inductive Launched (R : Repertoire) : Machine → Prop
  | body (env : Env) (b : Body) : Launched R (ofBody env b)
  | code (env : Env) {raws : List String} {c : Code} (hcode : Code.itemsOf raws = .ok c.items) :
      Launched R (ofCode env c)
  | call (env : Env) {callee : Value} {args : List Value} (hcallee : callee.Among R)
      (hargs : ∀ v ∈ args, v.Among R) : Launched R (ofCall env callee args)

/-- A machine that keeps to a repertoire and is in order, from the first call on. -/
structure Kept (R : Repertoire) (m : Machine) : Prop where
  among : m.Among R
  inOrder : ∃ goal env, m.InOrder goal 0 env

theorem Launched.kept (h : m.Launched R) : m.Kept R := by
  cases h with
  | body env b =>
      have hfresh : (ofBody env b).Fresh env := .body b
      obtain ⟨goal, horder⟩ := hfresh.inOrder
      exact ⟨⟨List.forall_mem_singleton.mpr trivial, trivial⟩, goal, env, horder⟩
  | @code env raws c hcode =>
      exact ⟨⟨List.forall_mem_singleton.mpr ⟨Code.among_itemsOf hcode, List.forall_mem_nil _⟩,
        trivial⟩, .value, env, inOrder_ofCode env c⟩
  | @call env callee args hcallee hargs =>
      have hfresh : (ofCall env callee args).Fresh env := .call callee args
      obtain ⟨goal, horder⟩ := hfresh.inOrder
      exact ⟨⟨List.forall_mem_singleton.mpr ⟨hcallee, hargs⟩, trivial⟩, goal, env, horder⟩

theorem Kept.step (h : m.Kept R) (hs : s.Among R) (hw : w.Among R)
    (hcrash : ∀ message, (m.step s w).step ≠ .crash message) : (m.step s w).machine.Kept R := by
  obtain ⟨goal, env, horder⟩ := h.inOrder
  exact ⟨(h.among.step hs hw.heap hw.outcomes).machine, goal, env,
    Steps.inOrder (s := s) ⟨w, rfl, hcrash⟩ horder⟩

theorem Kept.becomes (h : m.Kept R) {f : Frame} {fs : List Frame} (hframes : m.frames = f :: fs)
    (hcrash : ∀ message, (m.step s w).step ≠ .crash message) :
    ∃ gs, (m.step s w).machine.frames = gs ++ fs ∧
      f.Becomes s.config.recursionLimit ((f :: fs).countP Frame.isCall) m.signal
        (m.step s w).step gs (m.step s w).machine.signal := by
  obtain ⟨goal, env, horder⟩ := h.inOrder
  have hdepth := horder.counts.2
  rw [Nat.zero_add, hframes] at hdepth
  rw [← hdepth]
  exact horder.becomes hframes hcrash

/-- The frames of a machine stay below a height that they are below. -/
theorem Kept.below_step (h : m.Kept R) (hR : R.DefaultsDoNotCall)
    (hbelow : Below R s.config.recursionLimit bound m.frames)
    (hcrash : ∀ message, (m.step s w).step ≠ .crash message) :
    Below R s.config.recursionLimit bound (m.step s w).machine.frames := by
  cases hframes : m.frames with
  | nil =>
      rw [step_of_frames_nil hframes]
      exact hbelow
  | cons f fs =>
      obtain ⟨gs, hgs, hbecomes⟩ := h.becomes hframes hcrash
      rw [hframes] at hbelow
      rw [hgs]
      exact hbecomes.below hR (h.among.frames f (by rw [hframes]; exact List.mem_cons_self)) hbelow

/-- A call begins below the height of any call. -/
theorem below_ofCall {limit : Nat} (hbound : R.call limit ≤ bound) (env : Env) (callee : Value)
    (args : List Value) : Below R limit bound (ofCall env callee args).frames := by
  refine Frame.Below.push trivial ?_
  have hcost := Frame.cost_call_le (R := R) (r := limit) callee args none
  simp only [Frame.room, List.length_nil, List.countP_nil, Nat.sub_zero, Frame.height]
  omega

/-- A machine that keeps to a repertoire, with frames below a height and calls within a limit. -/
structure Bounded (R : Repertoire) (limit bound : Nat) (m : Machine) : Prop where
  kept : m.Kept R
  below : Below R limit bound m.frames
  depth : m.depth ≤ limit

/-- How many steps a machine can take before the next checkpoint. -/
def cost (R : Repertoire) (limit : Nat) (m : Machine) : Nat :=
  Frame.costs R limit m.frames + m.signal.cost

theorem Kept.cost_step (h : m.Kept R) (hR : R.DefaultsDoNotCall)
    (hstep : (m.step s w).step = .next) :
    (m.step s w).machine.cost R s.config.recursionLimit < m.cost R s.config.recursionLimit := by
  cases hframes : m.frames with
  | nil =>
      rw [step_of_frames_nil hframes] at hstep
      contradiction
  | cons f fs =>
      obtain ⟨gs, hgs, hbecomes⟩ := h.becomes hframes (s := s) (w := w) (by rw [hstep]; exact nofun)
      rw [hstep] at hbecomes
      rw [cost, cost, hgs, hframes]
      exact hbecomes.costs_lt hR (h.among.frames f (by rw [hframes]; exact List.mem_cons_self))

end Machine

theorem World.Among.step {R : Repertoire} {s : Setting} {w : World} {m : Machine}
    (hw : w.Among R) (h : m.Kept R) (hs : s.Among R) : (m.step s w).world.Among R := by
  have htasks : w.Holds (fun _ => True) fun o => ∀ v, o = .ok v → v.Among R :=
    ⟨fun _ _ _ => trivial, fun t o ho v hv => hw.outcomes t v (hv ▸ ho)⟩
  have hafter := htasks.step (s := s) (m := m) fun _ _ _ => trivial
  exact ⟨(h.among.step hs hw.heap hw.outcomes).heap, fun t v hv => hafter.outcome t _ hv v rfl⟩

/-! ## Resuming -/

namespace Machine

variable {R : Repertoire} {s : Setting} {w w' : World} {m m' : Machine} {n : Nat}

/-- A machine goes on for so many steps without a checkpoint. In between anything may happen to the
world, as long as `P` holds of it. -/
inductive GoesOn (s : Setting) (P : World → Prop) : Nat → Machine → Machine → Prop
  | stay (m : Machine) : GoesOn s P 0 m m
  | step {w : World} {n : Nat} {m m' : Machine} (hw : P w) (hstep : (m.step s w).step = .next)
      (hrest : GoesOn s P n (m.step s w).machine m') : GoesOn s P (n + 1) m m'

theorem Kept.goesOn (hgoes : GoesOn s (World.Among R) n m m') (h : m.Kept R)
    (hs : s.Among R) (hR : R.DefaultsDoNotCall) :
    n + m'.cost R s.config.recursionLimit ≤ m.cost R s.config.recursionLimit := by
  induction hgoes with
  | stay m => exact Nat.le_of_eq (Nat.zero_add _)
  | @step w n m m' hw hstep hrest ih =>
      have hless := h.cost_step hR hstep
      have hnext := ih (h.step hs hw (by rw [hstep]; exact nofun))
      omega

/-- A machine that is resumed comes to a step that does not go on, and then it is given back. -/
theorem Kept.exists_walks (h : m.Kept R) (hs : s.Among R) (hR : R.DefaultsDoNotCall)
    (hw : w.Among R) :
    ∃ n w' m', n ≤ m.cost R s.config.recursionLimit ∧
      Walks s w m (List.replicate n .next) w' m' ∧ (m'.step s w').step ≠ .next ∧
      ∀ fuel, n < fuel → m.resume s fuel w = m'.resume s 1 w' := by
  induction hcost : m.cost R s.config.recursionLimit using Nat.strongRecOn generalizing w m with
  | ind cost ih =>
      by_cases hstep : (m.step s w).step = .next
      · have hless := h.cost_step hR hstep
        obtain ⟨n, w', m', hn, hwalk, hend, hresume⟩ := ih _ (hcost ▸ hless)
          (h.step hs hw (by rw [hstep]; exact nofun)) (hw.step h hs) rfl
        have hreply : m.step s w = ⟨.next, (m.step s w).world, (m.step s w).machine⟩ := by
          rw [← hstep]
        refine ⟨n + 1, w', m', by omega, .go hreply (Or.inl rfl) hwalk, hend, fun fuel hfuel => ?_⟩
        cases fuel with
        | zero => contradiction
        | succ fuel =>
            rw [Machine.resume, hreply]
            exact hresume fuel (Nat.lt_of_succ_lt_succ hfuel)
      · refine ⟨0, w, m, Nat.zero_le _, .stay w m, hstep, fun fuel hfuel => ?_⟩
        cases fuel with
        | zero => contradiction
        | succ fuel =>
            rw [Machine.resume, Machine.resume]
            rcases hreply : m.step s w with ⟨st, w₁, m₁⟩
            rw [hreply] at hstep
            cases st with
            | next => contradiction
            | _ => rfl

end Machine

/-- A host whose functions come back, with a value or a failure. -/
def Host.Returns (host : Host) : Prop :=
  ∀ name args text message, host name args text ≠ .crash message

/-- A machine breaks down only where it asks the host. -/
theorem Machine.InOrder.breaks {s : Setting} {w : World} {m : Machine} {goal : Shape} {base : Nat}
    {env : Env} {message : Option String} (horder : m.InOrder goal base env)
    (hstep : (m.step s w).step = .crash message) : m.Breaks s w.heap message := by
  have hleads : ∀ {r : Reply} {f : Frame} {limit depth : Nat} {sig : Signal} {fs : List Frame},
      r.Leads (f.Becomes limit depth sig) fs → r.step ≠ .crash message := by
    rintro r f limit depth sig fs ⟨gs, -, hbecomes⟩ hcrash
    rw [hcrash] at hbecomes
    cases hbecomes
  obtain ⟨frames, signal, scopes, depth⟩ := m
  cases frames with
  | nil => cases hstep
  | cons f fs =>
      cases signal with
      | run =>
          refine (within_resumeFrame (m := ⟨fs, .run, scopes, depth⟩) (P := fun _ => True) rfl
            horder.2.1 (fun _ _ _ => trivial) (fun _ _ _ _ => trivial) ?_ ?_).crash message hstep
          · intro e args hasks
            exact ⟨fun _ _ => trivial, fun message hm => ⟨e, args, hasks, hm⟩⟩
          · intros
            trivial
      | value v =>
          exact absurd hstep
            (hleads (leads_receive (m := ⟨fs, .run, scopes, depth⟩) (Upholds.of_cons horder.2).1 v))
      | leave e =>
          exact absurd hstep
            (hleads (leads_unwind (s := s) (m := ⟨fs, .run, scopes, depth⟩) f e))

/-- If the host comes back then so does a machine that is resumed: it is set aside, or it is
finished. -/
theorem Machine.InOrder.progress_resume {s : Setting} {w : World} {m : Machine} {goal : Shape}
    {base : Nat} {env : Env} (horder : m.InOrder goal base env) (hhost : s.host.Returns)
    (fuel : Nat) :
    (m.resume s fuel w).progress = .suspended ∨ (m.resume s fuel w).progress = .finished := by
  induction fuel generalizing w m with
  | zero => exact Or.inl rfl
  | succ fuel ih =>
      have hcrash : ∀ message, (m.step s w).step ≠ .crash message := by
        intro message hstep
        obtain ⟨e, args, -, -, hanswer⟩ := horder.breaks hstep
        exact hhost _ _ _ _ hanswer
      have hnext := Steps.inOrder (s := s) ⟨w, rfl, hcrash⟩ horder
      rcases hreply : m.step s w with ⟨st, w', m'⟩
      rw [hreply] at hcrash hnext
      rw [resume, hreply]
      cases st with
      | next => exact ih hnext
      | pause => exact Or.inl rfl
      | blocked => exact Or.inl rfl
      | done => exact Or.inr rfl
      | crash message => exact absurd rfl (hcrash message)

theorem World.Among.setTask {R : Repertoire} {w : World} (hw : w.Among R) (t : TaskRef)
    {task : Task} (htask : ∀ v, task.outcome = some (.ok v) → v.Among R) :
    (w.setTask t task).Among R := by
  have houtcomes : w.Holds (fun _ => True) fun o => ∀ v, o = .ok v → v.Among R :=
    ⟨fun _ _ _ => trivial, fun t o ho v hv => hw.outcomes t v (hv ▸ ho)⟩
  have hafter := houtcomes.setTask t task (fun _ _ => trivial) fun o ho v hv => htask v (hv ▸ ho)
  exact ⟨hw.heap, fun t v hv => hafter.outcome t _ hv v rfl⟩

/-- The worker that advances a task gets on to the next one. With enough fuel it does not matter how
much there is. -/
theorem World.Among.exists_advance {R : Repertoire} {s : Setting} {w : World} {t : TaskRef}
    (hw : w.Among R) (hs : s.Among R) (hR : R.DefaultsDoNotCall)
    (hkept : ∀ m, (w.task t).machine = some m → m.Kept R) :
    ∃ n, ∀ fuel, n < fuel → w.advance s fuel t = w.advance s (n + 1) t := by
  cases hmachine : (w.task t).machine with
  | none =>
      refine ⟨0, fun fuel _ => ?_⟩
      rw [advance_of_machine_none hmachine, advance_of_machine_none hmachine]
  | some m =>
      have hw' : (w.setTask t { w.task t with machine := none }).Among R :=
        hw.setTask t fun v hv => hw.outcomes t v hv
      obtain ⟨n, w', m', -, -, -, hresume⟩ := (hkept m hmachine).exists_walks hs hR hw'
      refine ⟨n, fun fuel hfuel => ?_⟩
      rw [advance_eq hmachine, advance_eq hmachine, hresume fuel hfuel,
        hresume (n + 1) (Nat.lt_succ_self n)]

/-! ## Runs -/

namespace System

variable {R : Repertoire} {s : Setting} {σ σ₀ : System} {bound : Nat}

theorem Holds.world_among {M : Machine → Prop}
    (h : σ.Holds (Heap.Among R) M fun o => ∀ v, o = .ok v → v.Among R) : σ.world.Among R :=
  ⟨h.heap, fun t v hv => h.tasks.outcome t _ hv v rfl⟩

/-- Steps keep to the repertoire. -/
theorem keeps_among (hs : s.Among R) :
    Keeps s (fun _ _ => True) (Heap.Among R) (Machine.Kept R)
      fun o => ∀ v, o = .ok v → v.Among R where
  heap := by
    intro w m hheap htasks hm
    exact (hm.among.step hs hheap fun t v hv => htasks.outcome t _ hv v rfl).heap
  machine := by
    intro w m hheap htasks hm _ hcrash
    exact hm.step hs ⟨hheap, fun t v hv => htasks.outcome t _ hv v rfl⟩ hcrash
  entrusts := by
    intro w m callee args hheap hm hentrusts
    have hfresh : (Machine.ofCall m.scopes.current callee args).Fresh m.scopes.current :=
      .call callee args
    obtain ⟨goal, horder⟩ := hfresh.inOrder
    exact ⟨hm.among.entrusts hs hheap hentrusts _, goal, _, horder⟩
  outcome := fun hm _ v hv => hm.among.outcome hv
  breakdown := by
    intro w m message _ _ _ task v hv
    rw [Task.eq_empty_of_breakdown hv]
    trivial
  abandonment := fun t task v hv => nomatch hv
  locks := fun locks hheap => hheap.locks locks

/-- Steps keep the frames of every machine below a height that any call is below. -/
theorem keeps_bounded (hs : s.Among R) (hR : R.DefaultsDoNotCall)
    (hbound : R.call s.config.recursionLimit ≤ bound) :
    Keeps s (fun _ _ => True) (Heap.Among R) (Machine.Bounded R s.config.recursionLimit bound)
      fun o => ∀ v, o = .ok v → v.Among R where
  heap := fun hheap htasks hm =>
    (keeps_among hs).heap hheap (htasks.imp (fun _ => Machine.Bounded.kept) fun _ => id) hm.kept
  machine := by
    intro w m hheap htasks hm _ hcrash
    have hkept := htasks.imp (fun _ => Machine.Bounded.kept) fun _ => id
    exact ⟨(keeps_among hs).machine hheap hkept hm.kept trivial hcrash,
      hm.kept.below_step hR hm.below hcrash, Machine.step_depth_le hm.depth⟩
  entrusts := by
    intro w m callee args hheap hm hentrusts
    exact ⟨(keeps_among hs).entrusts hheap hm.kept hentrusts, Machine.below_ofCall hbound _ _ _,
      Nat.zero_le _⟩
  outcome := fun hm hframes => (keeps_among hs).outcome hm.kept hframes
  breakdown := fun hm hQ hcrash => (keeps_among hs).breakdown hm.kept hQ hcrash
  abandonment := (keeps_among hs).abandonment
  locks := (keeps_among hs).locks

/-- In a loaded program whose defaults do not call, a machine that is resumed comes back. Wherever
the machines have got to, in whatever order they took their steps, a machine goes on for no more
steps than its cost, even if the world changes between them. So when it is resumed there is a step
that does not go on, and with more fuel than that nothing else comes out of it. -/
theorem Runs.resumed_machines_come_back {config : Config} {host : Host}
    {extensions : List Extension} {file : String} {source : Source} {session : Session}
    (hload : Session.load config host extensions file source = .ok session)
    (hhost : host.Among session.setting.registry.repertoire)
    (hdefaults : session.setting.registry.repertoire.DefaultsDoNotCall)
    (hruns : Runs session.setting (Machine.Launched session.setting.registry.repertoire)
      (fun v => v.Among session.setting.registry.repertoire) ⟨session.world, []⟩ σ) :
    σ.world.Among session.setting.registry.repertoire ∧
      (∀ m ∈ σ.live, ∃ bound,
        (∀ n m', m.GoesOn session.setting
          (World.Among session.setting.registry.repertoire) n m' → n ≤ bound) ∧
        ∀ w, w.Among session.setting.registry.repertoire →
          ∃ n w' m', n ≤ bound ∧
            Machine.Walks session.setting w m (List.replicate n .next) w' m' ∧
            (m'.step session.setting w').step ≠ .next ∧
            ∀ fuel, n < fuel →
              m.resume session.setting fuel w = m'.resume session.setting 1 w' ∧
                (host.Returns → (m.resume session.setting fuel w).progress = .suspended ∨
                  (m.resume session.setting fuel w).progress = .finished)) ∧
      ∀ t, ∃ n, ∀ fuel, n < fuel →
        σ.world.advance session.setting fuel t = σ.world.advance session.setting (n + 1) t := by
  obtain ⟨hhost', hheap, htasks⟩ := Session.among_load hload session.setting.registry.repertoire
  have hs : session.setting.Among session.setting.registry.repertoire :=
    ⟨Registry.among_repertoire _, hhost' ▸ hhost⟩
  have hholds := hruns.holds (keeps_among hs) (fun m => Machine.Launched.kept)
    (fun h name v hv hheap => hheap.define hv 0 name) hheap htasks rfl
  refine ⟨hholds.world_among, fun m hm => ?_, fun t =>
    hholds.world_among.exists_advance hs hdefaults (hholds.tasks.machine t)⟩
  have hkept := hholds.of_live hm
  refine ⟨m.cost session.setting.registry.repertoire session.setting.config.recursionLimit,
    fun n m' hgoes => ?_, fun w hw => ?_⟩
  · have hcost := hkept.goesOn hgoes hs hdefaults
    omega
  · obtain ⟨n, w', m', hn, hwalk, hend, hresume⟩ := hkept.exists_walks hs hdefaults hw
    obtain ⟨goal, env, horder⟩ := hkept.inOrder
    exact ⟨n, w', m', hn, hwalk, hend, fun fuel hfuel =>
      ⟨hresume fuel hfuel, fun hreturns => horder.progress_resume (hhost' ▸ hreturns) fuel⟩⟩

/-- A procedure that calls itself in a loop, for ever. Its parameter has a default. -/
def endless : Source :=
  ⟨[⟨"again", [⟨"x", some ⟨["true"], default⟩⟩],
    [.repeatWhile ⟨["x"], default⟩ [.perform ⟨["again", "(", "x", ")"], default⟩]]⟩], [], [],
    [.perform ⟨["again", "(", ")"], default⟩]⟩

/-- Whether the endless recursion is in the middle of its work after 24 steps, and is a program
whose defaults do not call. -/
def endlessSuspended : Bool :=
  match Session.load default Host.none [] "" endless with
  | .ok session =>
      match (Machine.ofBody World.globals session.setting.registry.main).run session.setting 24
        session.world with
      | ⟨.suspended, _, ⟨_ :: _, _, _, _⟩⟩ =>
          decide session.setting.registry.repertoire.DefaultsDoNotCall
      | _ => false
  | _ => false

/-- After 24 steps of an endless recursion the machine comes back when it is resumed. -/
theorem Runs.resumed_machines_come_back_endless :
    ∃ session σ m,
      Session.load default Host.none [] "" endless = .ok session ∧
        Runs session.setting (Machine.Launched session.setting.registry.repertoire)
          (fun v => v.Among session.setting.registry.repertoire) ⟨session.world, []⟩ σ ∧
        m ∈ σ.live ∧ m.frames ≠ [] ∧
        ∃ n, ∀ fuel, n < fuel → (m.resume session.setting fuel σ.world).progress = .suspended ∨
          (m.resume session.setting fuel σ.world).progress = .finished := by
  have hrun : endlessSuspended = true := by decide +kernel
  unfold endlessSuspended at hrun
  split at hrun
  · next session hload =>
      split at hrun
      · next w f fs signal scopes depth hcarried =>
          have hstart : Runs session.setting
              (Machine.Launched session.setting.registry.repertoire)
              (fun v => v.Among session.setting.registry.repertoire) ⟨session.world, []⟩
              ⟨session.world, [Machine.ofBody World.globals session.setting.registry.main]⟩ :=
            .single (.start (.body World.globals _))
          have hruns := hstart.trans (runs_run (Session.idle_load hload) 24 _ [] [])
          rw [hcarried] at hruns
          have hlive : (⟨f :: fs, signal, scopes, depth⟩ : Machine) ∈
              (System.mk w [⟨f :: fs, signal, scopes, depth⟩]).live :=
            List.mem_append_left _ (.head _)
          obtain ⟨hworld, hback, -⟩ := Runs.resumed_machines_come_back hload
            (Host.among_none _) (of_decide_eq_true hrun) hruns
          obtain ⟨bound, -, hresume⟩ := hback _ hlive
          obtain ⟨n, _, _, -, -, -, hcomes⟩ := hresume w hworld
          have hreturns : Host.none.Returns := by
            rintro name args text message ⟨⟩
          exact ⟨session, _, _, hload, hruns, hlive, List.cons_ne_nil _ _, n, fun fuel hfuel =>
            (hcomes fuel hfuel).2 hreturns⟩
      · contradiction
  · contradiction

/-! ## How many frames there can be -/

end System

/-- How many frames there can be in a machine of a program, under a limit of calls. -/
def Registry.frameBound (r : Registry) (limit : Nat) : Nat :=
  Body.weight (r.repertoire.call limit) r.main + r.repertoire.call limit

namespace Machine

/-- A machine as a program is begun: at its main body, or with a call of values of the program. -/
inductive OfProgram (r : Registry) : Machine → Prop
  | main (env : Env) : OfProgram r (ofBody env r.main)
  | call (env : Env) {callee : Value} {args : List Value} (hcallee : callee.Among r.repertoire)
      (hargs : ∀ v ∈ args, v.Among r.repertoire) : OfProgram r (ofCall env callee args)

theorem OfProgram.bounded {r : Registry} {m : Machine} (h : m.OfProgram r) (limit : Nat) :
    m.Bounded r.repertoire limit (r.frameBound limit) := by
  cases h with
  | main env =>
      refine ⟨(Launched.body env r.main).kept, Frame.Below.push trivial ?_, Nat.zero_le limit⟩
      simp only [Frame.room, List.length_nil, List.countP_nil, Nat.sub_zero, Frame.height,
        Registry.frameBound]
      omega
  | call env hcallee hargs =>
      exact ⟨(Launched.call env hcallee hargs).kept,
        below_ofCall (Nat.le_add_left _ _) env _ _, Nat.zero_le limit⟩

/-- The next step of a machine enters the body of a procedure, with an argument for every
parameter. -/
inductive Enters : Machine → Procedure → Prop
  | call {callee : Value} {p : Procedure} {args : List Value} {site : Option Location}
      {fs : List Frame} {scopes : ScopeStack} {depth : Nat} (hcallee : callee.procedure? = some p)
      (hargs : args.length = p.params.length) :
      Enters ⟨.call callee args site :: fs, .run, scopes, depth⟩ p
  | supply {c : Call} {v : Value} {fs : List Frame} {scopes : ScopeStack} {depth : Nat} :
      Enters ⟨.supply c [] :: fs, .value v, scopes, depth⟩ c.procedure

/-- At the limit no body is entered: the call fails, and with that it is over. -/
theorem Enters.refused {s : Setting} {m : Machine} {p : Procedure} (h : m.Enters p)
    (hlimit : s.config.recursionLimit ≤ m.depth) (w : World) :
    ∃ failure, failure.kind = .recursionLimit ∧
      m.step s w = ⟨.next, w, ⟨m.frames.tail, .leave (.failWith failure), m.scopes, m.depth⟩⟩ := by
  have henter : ∀ (m : Machine) (c : Call), s.config.recursionLimit ≤ m.depth →
      ∃ failure, failure.kind = .recursionLimit ∧
        m.enter s w c = ⟨.next, w, ⟨m.frames, .leave (.failWith failure), m.scopes, m.depth⟩⟩ := by
    intro m c hlimit
    refine ⟨_, ?_, by rw [enter, if_pos hlimit]; rfl⟩
    exact Failure.kind_of_core (Failure.core_atCall _ _)
  cases h with
  | @call callee _ args site fs scopes depth hcallee hargs =>
      have hbind : ∀ c : Call, c.procedure = p → c.args = args →
          bind s w ⟨fs, .run, scopes, depth⟩ c = enter s w ⟨fs, .run, scopes, depth⟩ c := by
        rintro c rfl rfl
        have hrequired : c.procedure.required ≤ c.procedure.params.length :=
          Procedure.requiredOf_le_length _
        rw [bind, if_neg (by omega), hargs, List.drop_length, Machine.supply]
      have hstep : ∃ c, step s w ⟨.call callee args site :: fs, .run, scopes, depth⟩ =
          enter s w ⟨fs, .run, scopes, depth⟩ c := by
        cases callee with
        | procedure q =>
            obtain rfl := Option.some.inj hcallee
            exact ⟨_, hbind ⟨q, none, args, site⟩ rfl rfl⟩
        | method r q =>
            obtain rfl := Option.some.inj hcallee
            exact ⟨_, hbind ⟨q, some r, args, site⟩ rfl rfl⟩
        | _ => cases hcallee
      obtain ⟨c, hstep⟩ := hstep
      rw [hstep]
      exact henter ⟨fs, .run, scopes, depth⟩ c hlimit
  | @supply c v fs scopes depth =>
      exact henter ⟨fs, .run, scopes, depth⟩ { c with args := c.args ++ [v] } hlimit

end Machine

namespace System

/-- In a loaded program whose defaults do not call, the frames of every machine stay within a bound
that depends on the program and the limit of calls only. No more calls are pending than the limit
allows, and at the limit the next one fails. -/
theorem Runs.frames_stay_bounded {config : Config} {host : Host} {extensions : List Extension}
    {file : String} {source : Source} {session : Session} {σ : System}
    (hload : Session.load config host extensions file source = .ok session)
    (hhost : host.Among session.setting.registry.repertoire)
    (hdefaults : session.setting.registry.repertoire.DefaultsDoNotCall)
    (hruns : Runs session.setting (Machine.OfProgram session.setting.registry)
      (fun v => v.Among session.setting.registry.repertoire) ⟨session.world, []⟩ σ) :
    ∀ m ∈ σ.live,
      m.frames.length ≤
          session.setting.registry.frameBound session.setting.config.recursionLimit ∧
        m.depth ≤ session.setting.config.recursionLimit ∧
        ∀ p w, m.Enters p → m.depth = session.setting.config.recursionLimit →
          ∃ failure, failure.kind = .recursionLimit ∧
            m.step session.setting w =
              ⟨.next, w, ⟨m.frames.tail, .leave (.failWith failure), m.scopes, m.depth⟩⟩ := by
  obtain ⟨hhost', hheap, htasks⟩ := Session.among_load hload session.setting.registry.repertoire
  have hs : session.setting.Among session.setting.registry.repertoire :=
    ⟨Registry.among_repertoire _, hhost' ▸ hhost⟩
  have hholds := hruns.holds (keeps_bounded hs hdefaults (Nat.le_add_left _ _))
    (fun m hm => hm.bounded _) (fun h name v hv hheap => hheap.define hv 0 name) hheap htasks rfl
  intro m hm
  have hbounded := hholds.of_live hm
  exact ⟨hbounded.below.length_le, hbounded.depth,
    fun p w henters hlimit => henters.refused (Nat.le_of_eq hlimit.symm) w⟩

/-- Whether the endless recursion is about to make one call too many after 24 steps, under a limit
of two calls. -/
def endlessAtLimit : Bool :=
  match Session.load { (default : Config) with recursionLimit := 2 } Host.none [] "" endless with
  | .ok session =>
      match (Machine.ofBody World.globals session.setting.registry.main).run session.setting 24
        session.world with
      | ⟨.suspended, _, ⟨.call (.procedure p) [_] _ :: _, .run, _, depth⟩⟩ =>
          decide (1 = p.params.length ∧ depth = session.setting.config.recursionLimit ∧
            session.setting.registry.repertoire.DefaultsDoNotCall)
      | _ => false
  | _ => false

/-- After 24 steps of an endless recursion two calls are pending, and a third one is refused. -/
theorem Runs.frames_stay_bounded_endless :
    ∃ session σ m p,
      Session.load { (default : Config) with recursionLimit := 2 } Host.none [] "" endless =
          .ok session ∧
        Runs session.setting (Machine.OfProgram session.setting.registry)
          (fun v => v.Among session.setting.registry.repertoire) ⟨session.world, []⟩ σ ∧
        m ∈ σ.live ∧ m.Enters p ∧
        m.frames.length ≤
          session.setting.registry.frameBound session.setting.config.recursionLimit ∧
        ∃ failure, failure.kind = .recursionLimit ∧
          (m.step session.setting σ.world).machine.signal = .leave (.failWith failure) := by
  have hrun : endlessAtLimit = true := by decide +kernel
  unfold endlessAtLimit at hrun
  split at hrun
  · next session hload =>
      split at hrun
      · next w p v site fs scopes depth hcarried =>
          obtain ⟨hargs, hdepth, hdefaults⟩ := of_decide_eq_true hrun
          have hidle := Session.idle_load hload
          have hstart : Runs session.setting (Machine.OfProgram session.setting.registry)
              (fun v => v.Among session.setting.registry.repertoire) ⟨session.world, []⟩
              ⟨session.world, [Machine.ofBody World.globals session.setting.registry.main]⟩ :=
            .single (.start (.main World.globals))
          have hruns := hstart.trans (runs_run hidle 24 _ [] [])
          rw [hcarried] at hruns
          have henters : Machine.Enters ⟨.call (.procedure p) [v] site :: fs, .run, scopes, depth⟩
              p := .call rfl hargs
          have hlive : (⟨.call (.procedure p) [v] site :: fs, .run, scopes, depth⟩ : Machine) ∈
              (System.mk w [⟨.call (.procedure p) [v] site :: fs, .run, scopes, depth⟩]).live :=
            List.mem_append_left _ (.head _)
          obtain ⟨hlength, -, hrefused⟩ := Runs.frames_stay_bounded hload
            (Host.among_none _) hdefaults hruns _ hlive
          obtain ⟨failure, hkind, hstep⟩ := hrefused p w henters hdepth
          exact ⟨session, _, _, p, hload, hruns, hlive, henters, hlength, failure, hkind,
            congrArg (·.machine.signal) hstep⟩
      · contradiction
  · contradiction

/-! ## Defaults that call -/

end System

/-- A call whose default calls the same procedure without an argument has two more frames below it
after three steps, and nothing else has changed. -/
theorem Machine.walks_default {s : Setting} {w : World} {p : Procedure} {x name : String}
    {e : Expression} {c : Code} (scopes : ScopeStack) (hparams : p.params = [⟨x, some e⟩])
    (hcode : e.compile = .ok c) (hitems : c.items = [.args, .call name false])
    (hname : s.resolve w.heap scopes.current name = .ok (.procedure p)) (site : Option Location)
    (fs : List Frame) (depth : Nat) :
    Walks s w ⟨.call (.procedure p) [] site :: fs, .run, scopes, depth⟩
      [.next, .next, .next] w
      ⟨.call (.procedure p) [] (some c.location) :: .eval [] [] c.location ::
        .supply ⟨p, none, [], site⟩ [] :: fs, .run, scopes, depth⟩ := by
  have hbind : step s w ⟨.call (.procedure p) [] site :: fs, .run, scopes, depth⟩ =
      ⟨.next, w, ⟨.eval [.args, .call name false] [] c.location ::
        .supply ⟨p, none, [], site⟩ [] :: fs, .run, scopes, depth⟩⟩ := by
    simp [step, resumeFrame, call, bind, Procedure.required, Procedure.requiredOf, hparams, supply,
      hcode, hitems, push, next, send]
  have hcall : (Item.call name false).effect s w.heap scopes.current [.mark] =
      .call (.procedure p) [] [] := by
    simp only [Item.effect, Operand.popArgs, hname]
    rfl
  refine .go hbind (Or.inl rfl) (.go rfl (Or.inl rfl) (.one ?_ (Or.inl rfl)))
  change evalItem s w ⟨.supply ⟨p, none, [], site⟩ [] :: fs, .run, scopes, depth⟩
    [.call name false] [.mark] c.location = _
  simp only [evalItem, hcall]
  rfl

theorem Machine.Walks.runs {s : Setting} {w w' : World} {m m' : Machine} {sts : List Step}
    {Begun : Machine → Prop} {Given : Value → Prop} (h : Walks s w m sts w' m')
    (ms : List Machine) : System.Runs s Begun Given ⟨w, m :: ms⟩ ⟨w', m' :: ms⟩ := by
  induction h with
  | stay w m => exact .refl
  | @go w w₁ w' m m₁ m' st sts hstep hst hwalk ih =>
      refine .head ?_ ih
      have hhappens : System.Happens s Begun Given ⟨w, [] ++ m :: ms⟩
          ⟨(m.step s w).world, [] ++ (m.step s w).machine :: ms⟩ := by
        refine .step [] m ms fun message hcrash => ?_
        rw [hstep] at hcrash
        rcases hst with rfl | rfl <;> contradiction
      rw [hstep] at hhappens
      exact hhappens

namespace System

/-- Where a default calls its own procedure, any number of frames can be pending without a single
call that counts. -/
theorem exists_runs_default {s : Setting} {w : World} {p : Procedure} {x name : String}
    {e : Expression} {c : Code} {Begun : Machine → Prop} {Given : Value → Prop}
    (hparams : p.params = [⟨x, some e⟩]) (hcode : e.compile = .ok c)
    (hitems : c.items = [.args, .call name false])
    (hname : s.resolve w.heap World.globals name = .ok (.procedure p))
    (hbegun : Begun (.ofCall World.globals (.procedure p) [])) (n : Nat) :
    ∃ site fs, n ≤ fs.length ∧ Runs s Begun Given ⟨w, []⟩
      ⟨w, [⟨.call (.procedure p) [] site :: fs, .run, ⟨World.globals, []⟩, 0⟩]⟩ := by
  induction n with
  | zero => exact ⟨none, [], Nat.le_refl 0, .single (.start hbegun)⟩
  | succ n ih =>
      obtain ⟨site, fs, hlength, hruns⟩ := ih
      have hwalk := Machine.walks_default ⟨World.globals, []⟩ hparams hcode hitems hname site fs 0
      refine ⟨_, _, ?_, hruns.trans (hwalk.runs [])⟩
      simp only [List.length_cons]
      omega

/-- A procedure whose parameter defaults to a call of the procedure. -/
def circular : Source :=
  ⟨[⟨"f", [⟨"x", some ⟨["f", "(", ")"], default⟩⟩], []⟩], [], [], []⟩

/-- Whether the default of the circular procedure is found and compiles to a call of it. -/
def circularDefault : Bool :=
  match Session.load default Host.none [] "" circular with
  | .ok session =>
      match session.setting.resolve session.world.heap World.globals "f" with
      | .ok (.procedure ⟨_, [⟨_, some e⟩], _⟩) =>
          match e.compile with
          | .ok ⟨[.args, .call "f" false], _⟩ => true
          | _ => false
      | _ => false
  | _ => false

/-- If defaults may call then there is no bound, whatever the limit of calls: while the default of a
call is evaluated, the call is pending and not counted. -/
theorem Runs.frames_of_circular_unbounded :
    ∃ session, Session.load default Host.none [] "" circular = .ok session ∧
      ¬ ∃ bound, ∀ σ,
        Runs session.setting (Machine.OfProgram session.setting.registry)
          (fun v => v.Among session.setting.registry.repertoire) ⟨session.world, []⟩ σ →
        ∀ m ∈ σ.live, m.frames.length ≤ bound := by
  have hf : circularDefault = true := by decide +kernel
  unfold circularDefault at hf
  split at hf
  · next session hload =>
      split at hf
      · next hname =>
          split at hf
          · next hcode =>
              have hamong := Setting.among_resolve
                (Registry.among_repertoire session.setting.registry)
                (Session.among_load hload _).2.1 hname
              refine ⟨session, hload, ?_⟩
              rintro ⟨bound, hbound⟩
              obtain ⟨site, fs, hlength, hruns⟩ := exists_runs_default rfl hcode rfl hname
                (Machine.OfProgram.call World.globals hamong (List.forall_mem_nil _)) bound
              have hle := hbound _ hruns _ (List.mem_append_left _ (.head _))
              rw [List.length_cons] at hle
              omega
          · contradiction
      · contradiction
  · contradiction

end System

end Statute
