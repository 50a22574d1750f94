import Statute.Proofs.Concurrency.Interleaving
import Statute.Proofs.Machine.Tidiness
import Statute.Proofs.Registry.Loading
import Statute.Session

/-!
# Boxes and deferred calls do not escape

A program is loaded onto a heap without boxes in it. From there on, in any run of any number of
machines, the heap stays bare and the machines stay tidy, if no boxes come from outside: those who
begin a call, those who bind a global name and the host give bare values only.

So there is a box or a deferred call nowhere but among the operands of an expression. What a name or
a field stands for is bare, and one look into a box is enough.
-/

namespace Statute

open Value (areBare)

/-! ## Loading -/

theorem Heap.stores_bare : Stores Bare fun v => v.isBare = true where
  scalar _ hv := hv.isBare
  list vs hvs := by rwa [Value.isBare_list, Value.areBare_iff]
  record _ := rfl
  newRecord _ _ hbare hr := hbare.newRecord hr
  locks _ _ hbare := hbare.of_eq rfl rfl rfl

/-- A program is loaded onto a bare heap, and has no tasks yet. -/
theorem Session.bare_load {config : Config} {host : Host} {extensions : List Extension}
    {file : String} {source : Source} {session : Session}
    (hload : load config host extensions file source = .ok session) :
    session.setting.host = host ∧ session.world.heap.Bare ∧ session.world.tasks = #[] := by
  obtain ⟨⟨heap, registry⟩, hbuild, hsession⟩ := exists_of_bind_eq_ok hload
  obtain rfl := Except.ok.inj hsession
  exact ⟨rfl, Heap.stores_bare.build (Heap.bare_empty.newScope "global") hbuild, rfl⟩

theorem Session.idle_load {config : Config} {host : Host} {extensions : List Extension}
    {file : String} {source : Source} {session : Session}
    (hload : load config host extensions file source = .ok session) : session.world.Idle := by
  obtain ⟨-, -, htasks⟩ := bare_load hload
  intro t m hm
  rw [World.task, htasks] at hm
  contradiction

/-! ## Machines -/

namespace Machine

variable {s : Setting} {w : World} {m : Machine}

/-- A machine as it is begun: for a body, a compiled expression, or a call of bare values. -/
inductive Begun : Machine → Prop
  | body (env : Env) (b : Body) : Begun (ofBody env b)
  | code (env : Env) {raws : List String} {c : Code} (hcode : Code.itemsOf raws = .ok c.items) :
      Begun (ofCode env c)
  | call (env : Env) {callee : Value} {args : List Value} (hcallee : callee.isBare = true)
      (hargs : areBare args = true) : Begun (ofCall env callee args)

/-- A tidy machine that is in order. -/
structure Confined (m : Machine) : Prop where
  tidy : m.Tidy
  inOrder : ∃ goal base env, m.InOrder goal base env

theorem confined_ofCall (env : Env) {callee : Value} {args : List Value}
    (hcallee : callee.isBare = true) (hargs : areBare args = true) :
    (ofCall env callee args).Confined := by
  have hfresh : (ofCall env callee args).Fresh env := .call callee args
  obtain ⟨goal, horder⟩ := hfresh.inOrder
  exact ⟨⟨⟨hcallee, hargs⟩, List.forall_mem_nil _⟩, goal, 0, env, horder⟩

theorem Begun.confined (h : m.Begun) : m.Confined := by
  cases h with
  | body env b =>
      have hfresh : (ofBody env b).Fresh env := .body b
      obtain ⟨goal, horder⟩ := hfresh.inOrder
      exact ⟨⟨trivial, List.forall_mem_nil _⟩, goal, 0, env, horder⟩
  | @code env raws c hcode =>
      exact ⟨⟨tidy_eval hcode c.location, List.forall_mem_nil _⟩, .value, 0, env,
        inOrder_ofCode env c⟩
  | call env hcallee hargs => exact confined_ofCall env hcallee hargs

/-- A call that is entrusted to the pool is one of bare values. -/
theorem Tidy.isBare_of_entrusts (h : m.Tidy) (hhost : Host.Bare s.host) {heap : Heap}
    (hheap : heap.Bare) {callee : Value} {args : List Value}
    (hentrusts : m.Entrusts s heap callee args) :
    callee.isBare = true ∧ areBare args = true := by
  obtain ⟨hsignal, i, rest, stack, below, site, fs, hframes, heffect⟩ := hentrusts
  rw [Tidy, hsignal, hframes] at h
  obtain ⟨ks, ks', hi, hstack, hkinds, -⟩ := exists_of_tidy h.1
  have hconfines := Item.confines_effect m.scopes.current hhost hheap hi hstack hkinds
  rw [heffect] at hconfines
  exact ⟨hconfines.1, hconfines.2.1⟩

theorem Tidy.isBare_of_outcome (h : m.Tidy) {v : Value} (hv : m.outcome = .ok v) :
    v.isBare = true := by
  unfold outcome at hv
  split at hv
  · next u hsignal =>
      rw [Tidy, hsignal] at h
      rw [← Except.ok.inj hv]
      exact h.1
  · next u hsignal =>
      rw [Tidy, hsignal] at h
      rw [← Except.ok.inj hv]
      exact h.1
  · contradiction
  · rw [← Except.ok.inj hv]
    rfl

/-- The operands of an expression are of the kinds that there are, wherever in the machine the
expression is. -/
theorem Tidy.fits (h : m.Tidy) {items : List Item} {stack : List Operand} {site : Location}
    (hframe : .eval items stack site ∈ m.frames) : ∀ o ∈ stack, ∃ k, o.Fits k := by
  have hframe' : ∃ onTop, (Frame.eval items stack site).Tidy onTop := by
    obtain ⟨frames, signal, scopes, depth⟩ := m
    cases signal with
    | run =>
        cases frames with
        | nil => contradiction
        | cons f fs =>
            rcases List.mem_cons.mp hframe with heq | hframe
            · exact ⟨true, heq ▸ h.1⟩
            · exact ⟨false, h.2 _ hframe⟩
    | value v => exact ⟨false, h.2 _ hframe⟩
    | leave e => exact ⟨false, h.2 _ hframe⟩
  obtain ⟨onTop, ks, hstack, -⟩ := hframe'
  clear hframe h
  induction hstack with
  | nil => exact List.forall_mem_nil _
  | cons ho _ ih => exact List.forall_mem_cons.mpr ⟨⟨_, ho⟩, ih⟩

end Machine

/-! ## Runs -/

namespace System

variable {s : Setting} {σ σ₀ : System} {m : Machine}

/-- Steps keep the heap bare, the machines tidy and the outcomes bare. -/
theorem keeps_confined (hhost : Host.Bare s.host) :
    Keeps s (fun _ _ => True) Heap.Bare Machine.Confined
      fun o => ∀ v, o = .ok v → v.isBare = true where
  heap := by
    intro w m hheap htasks hm
    obtain ⟨goal, base, env, horder⟩ := hm.inOrder
    exact (hm.tidy.step horder hhost hheap fun t v hv => htasks.outcome t _ hv v rfl).heap
  machine := by
    intro w m hheap htasks hm _ hcrash
    obtain ⟨goal, base, env, horder⟩ := hm.inOrder
    exact ⟨(hm.tidy.step horder hhost hheap
        fun t v hv => htasks.outcome t _ hv v rfl).machine hcrash,
      goal, base, env, Machine.Steps.inOrder (s := s) ⟨w, rfl, hcrash⟩ horder⟩
  entrusts := by
    intro w m callee args hheap hm hentrusts
    obtain ⟨hcallee, hargs⟩ := hm.tidy.isBare_of_entrusts hhost hheap hentrusts
    exact Machine.confined_ofCall _ hcallee hargs
  outcome := fun hm _ v hv => hm.tidy.isBare_of_outcome hv
  breakdown := by
    intro w m message _ _ _ task v hv
    rw [Task.eq_empty_of_breakdown hv]
    rfl
  abandonment := fun t task v hv => nomatch hv
  locks := fun locks hheap => hheap.of_eq rfl rfl rfl

theorem Runs.confined (hhost : Host.Bare s.host) (hheap : σ₀.world.heap.Bare)
    (htasks : σ₀.world.tasks = #[]) (hwork : σ₀.atWork = [])
    (hruns : Runs s Machine.Begun (fun v => v.isBare = true) σ₀ σ) :
    σ.Holds Heap.Bare Machine.Confined fun o => ∀ v, o = .ok v → v.isBare = true :=
  hruns.holds (keeps_confined hhost) (fun _ => Machine.Begun.confined)
    (fun _ name _ hv hheap => hheap.define hv 0 name) hheap htasks hwork

/-- Boxes and deferred calls are among the operands of expressions and nowhere else. -/
structure Contained (s : Setting) (σ : System) : Prop where
  heap : σ.world.heap.Bare
  machines : ∀ m ∈ σ.live, m.Tidy
  /-- An operand is a bare value, a box, a deferred call of bare values, or no value at all. -/
  operands : ∀ m ∈ σ.live, ∀ items stack site, .eval items stack site ∈ m.frames →
    ∀ o ∈ stack, ∃ k, o.Fits k
  results : ∀ m ∈ σ.live, ∀ v, m.outcome = .ok v → v.isBare = true
  outcomes : ∀ t v, (σ.world.task t).outcome = some (.ok v) → v.isBare = true
  names : ∀ env name v, s.resolve? σ.world.heap env name = some v → v.isBare = true
  members : ∀ owner name v, σ.world.heap.member owner name = .ok v →
    v.isBare = true ∨ ∃ b, v = .field b
  boxes : ∀ b, σ.world.heap.unbox (.field b) = σ.world.heap.box b ∧
    (σ.world.heap.box b).isBare = true

theorem Holds.contained
    (h : σ.Holds Heap.Bare Machine.Confined fun o => ∀ v, o = .ok v → v.isBare = true) :
    σ.Contained s where
  heap := h.heap
  machines _ hm := (h.of_live hm).tidy
  operands _ hm _ _ _ hframe := (h.of_live hm).tidy.fits hframe
  results _ hm _ hv := (h.of_live hm).tidy.isBare_of_outcome hv
  outcomes t v hv := h.tasks.outcome t _ hv v rfl
  names _ _ _ hv := h.heap.resolve? hv
  members _ _ _ hv := h.heap.member hv
  boxes b := ⟨h.heap.unbox_field b, h.heap.boxes b⟩

/-- Whether the box of a message is the only operand after eight steps that look it up. -/
def messageBoxed : Bool :=
  match Code.itemsOf ["Error", "(", "\"", "a", "\"", ")", ".", "message"],
      Session.load default Host.none [] "" default with
  | .ok items, .ok session =>
      match (Machine.ofCode World.globals ⟨items, default⟩).run session.setting 8 session.world with
      | ⟨.suspended, _, ⟨[.eval [] [.value (.field 0)] _], _, _, _⟩⟩ => true
      | _ => false
  | _, _ => false

/-- Whatever the machines of a loaded program do, and in whatever order they take their steps, boxes
and deferred calls stay among the operands, if only bare values are given from outside. So they do
when one more machine is run as far as it gets, with turns of the pool in between. -/
theorem Runs.boxes_do_not_escape {config : Config} {host : Host} {extensions : List Extension}
    {file : String} {source : Source} {session : Session}
    (hload : Session.load config host extensions file source = .ok session)
    (hhost : Host.Bare host)
    (hruns : Runs session.setting Machine.Begun (fun v => v.isBare = true)
      ⟨session.world, []⟩ σ) :
    σ.Contained session.setting ∧
      ∀ (m : Machine) fuel, m.Begun →
        (leftBy [] σ.atWork (m.run session.setting fuel σ.world)).Contained session.setting := by
  obtain ⟨rfl, hheap, htasks⟩ := Session.bare_load hload
  have hidle := Session.idle_load hload
  refine ⟨(hruns.confined hhost hheap htasks rfl).contained, fun m fuel hm => ?_⟩
  have hthen := (hruns.tail (.start hm)).trans (runs_run (hruns.idle hidle) fuel m [] σ.atWork)
  exact (Runs.confined hhost hheap htasks rfl hthen).contained

/-- The message of an error object is looked up. After eight steps its box is on the operands, and
it is nowhere else. -/
theorem Runs.boxes_do_not_escape_message :
    ∃ session σ m site,
      Session.load default Host.none [] "" default = .ok session ∧
        Runs session.setting Machine.Begun (fun v => v.isBare = true) ⟨session.world, []⟩ σ ∧
        m ∈ σ.live ∧ m.frames = [.eval [] [.value (.field 0)] site] ∧
        σ.Contained session.setting := by
  have hbox : messageBoxed = true := by decide +kernel
  unfold messageBoxed at hbox
  split at hbox
  · next items session hitems hload =>
      split at hbox
      · next w site signal scopes depth hrun =>
          have hbegun := Machine.Begun.code (c := ⟨items, default⟩) World.globals hitems
          have hidle := Session.idle_load hload
          have hstart : Runs session.setting Machine.Begun (fun v => v.isBare = true)
              ⟨session.world, []⟩
              ⟨session.world, [Machine.ofCode World.globals ⟨items, default⟩]⟩ :=
            .single (.start hbegun)
          have hruns := hstart.trans (runs_run hidle 8 _ [] [])
          rw [hrun] at hruns
          exact ⟨session, _, _, site, hload, hruns, List.mem_append_left _ (.head _), rfl,
            (Runs.boxes_do_not_escape hload Host.bare_none hruns).1⟩
      · contradiction
  · contradiction

end System

end Statute
