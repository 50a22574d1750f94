import Statute.Proofs.Concurrency.Escape
import Statute.Proofs.Machine.Regions

/-!
# Addresses in a run

A program is loaded without any objects, and its machines make them one at a time. So if machines
are begun with the addresses of objects that are there, and only such addresses are given from
outside, then every address that turns up anywhere in a run is that of an object that is there. In
particular nobody knows the address of an object before it is made.

This goes on to hold if some of the objects are left out. If nobody knows their addresses, and
nobody is given them, then nobody comes to know them; so they are not changed, either, whatever
happens. Everything else about the heap evolves as `Heap.Evolves` says.
-/

namespace Statute

open Relation (ReflTransGen)

def Heap.known (P : List ObjectRef) (h : Heap) : Region :=
  fun r => r < h.objects.size ∧ r ∉ P

theorem Heap.known.grows {P : List ObjectRef} {h h' : Heap} {r : ObjectRef} (hr : h.known P r)
    (hgrows : h.Grows h') : h'.known P r :=
  ⟨hr.1.trans_le hgrows.size, hr.2⟩

/-! ## Loading -/

/-- The records of a program carry no objects. -/
theorem Heap.stores_inside (R : Region) : Stores (Inside R) (Value.Inside R) where
  scalar _ hv := (Value.pervasive_inside R).scalar hv
  list _ hvs := Value.inside_list.mpr hvs
  record _ := trivial
  newRecord _ _ hinside hr := hinside.newRecord hr
  locks _ _ hinside := hinside.of_eq rfl rfl rfl

/-! ## Machines -/

theorem Outcome.Inside.mono {R R' : Region} (hwithin : ∀ r, R r → R' r) {o : Outcome}
    (h : o.Inside R) : o.Inside R' := by
  cases o with
  | ok v => exact Value.Inside.mono hwithin h
  | error f => exact fun r hr => hwithin r (h r hr)

namespace Machine

variable {s : Setting} {w : World} {m : Machine} {P : List ObjectRef} {h h' : Heap} {R : Region}

/-- Whatever addresses a machine knows of or keeps are those of objects that are there, and that are
not left out. -/
structure Grounded (s : Setting) (P : List ObjectRef) (h : Heap) (m : Machine) : Prop where
  reached : m.Reached s
  inside : m.Inside (h.known P)
  waiting : ∀ p ∈ m.waiting, h.known P p.1 ∧ (h.object p.1).cls.Inherits

theorem Inside.mono {R' : Region} (hwithin : ∀ r, R r → R' r) (h : m.Inside R) : m.Inside R' := by
  have hvalues : ∀ vs : List Value, (∀ v ∈ vs, v.Inside R) → ∀ v ∈ vs, v.Inside R' :=
    fun vs hvs v hv => (hvs v hv).mono hwithin
  refine ⟨fun f hf => ?_, ?_, fun f hf r hr => hwithin r (h.failure f hf r hr)⟩
  · have hframe := h.frames f hf
    cases f with
    | eval items stack site =>
        refine ⟨hframe.1, fun o ho => ?_⟩
        have hoperand := hframe.2 o ho
        cases o with
        | value v => exact Value.Inside.mono hwithin hoperand
        | _ => trivial
    | call callee args site => exact ⟨hframe.1.mono hwithin, hvalues _ hframe.2⟩
    | supply c rest =>
        exact ⟨fun r hr => hwithin r (hframe.receiver r hr), hvalues _ hframe.args⟩
    | construct cls args site => exact hvalues _ hframe
    | adopt object cls args taken site => exact hvalues _ hframe
    | finish object => exact hwithin _ hframe
    | _ => trivial
  · have hsignal := h.signal
    generalize m.signal = signal at hsignal ⊢
    cases signal with
    | run => trivial
    | value v => exact Value.Inside.mono hwithin hsignal
    | leave e =>
        cases e with
        | returnWith v => exact Value.Inside.mono hwithin hsignal
        | _ => trivial

theorem Grounded.of_known {P' : List ObjectRef} (hm : m.Grounded s P h) (hgrows : h.Grows h')
    (hwithin : ∀ r, h.known P r → h'.known P' r) : m.Grounded s P' h' := by
  refine ⟨hm.reached, hm.inside.mono hwithin, fun p hp => ?_⟩
  obtain ⟨hknown, hinherits⟩ := hm.waiting p hp
  refine ⟨hwithin _ hknown, ?_⟩
  rwa [hgrows.cls _ hknown.1]

theorem Grounded.mono (hm : m.Grounded s P h) (hgrows : h.Grows h') : m.Grounded s P h' :=
  hm.of_known hgrows fun _ hr => hr.grows hgrows

/-- Whatever a step makes is there afterwards, and so is all that the machine knows of. -/
theorem Grounded.worked (hm : m.Grounded s P w.heap) (hP : ∀ r ∈ P, r < w.heap.objects.size)
    (hhost : ∀ R, s.host.Inside R) (hheap : w.heap.Inside (w.heap.known P))
    (houtcomes : ∀ t o, (w.task t).outcome = some o → Outcome.Inside (w.heap.known P) o) :
    (m.step s w).machine.Inside ((m.step s w).world.heap.known P) ∧
      w.heap.Worked ((m.step s w).world.heap.known P) (m.step s w).world.heap := by
  have hgrows := Machine.grows_step s w m
  have hwithin : ∀ r, w.heap.known P r → (m.step s w).world.heap.known P r :=
    fun _ hr => hr.grows hgrows
  refine (hm.inside.mono hwithin).step (hhost _) (hheap.mono hwithin) ?_ hm.reached ?_ ?_
  · intro t o ho
    exact (houtcomes t o ho).mono hwithin
  · intro f fs p hframes hp _
    have hwaiting := hm.waiting p (List.mem_filterMap.mpr ⟨f, hframes ▸ List.mem_cons_self, hp⟩)
    exact ⟨hwithin _ hwaiting.1, hwaiting.2⟩
  · exact fun _ hsize => ⟨hsize, fun hmem => absurd (hP _ hmem) (Nat.lt_irrefl _)⟩

theorem Grounded.step (hm : m.Grounded s P w.heap) (hP : ∀ r ∈ P, r < w.heap.objects.size)
    (hhost : ∀ R, s.host.Inside R) (hheap : w.heap.Inside (w.heap.known P))
    (houtcomes : ∀ t o, (w.task t).outcome = some o → Outcome.Inside (w.heap.known P) o)
    (hcrash : ∀ message, (m.step s w).step ≠ .crash message) :
    (m.step s w).machine.Grounded s P (m.step s w).world.heap := by
  obtain ⟨env, m₀, hfresh, hreach⟩ := hm.reached
  obtain ⟨goal, horder, -⟩ := hfresh.reached hreach
  have hold := hm.mono (Machine.grows_step s w m)
  refine ⟨⟨env, m₀, hfresh, hreach.tail ⟨w, rfl, hcrash⟩⟩,
    (hm.worked hP hhost hheap houtcomes).1, fun p hp => ?_⟩
  by_cases hputs : m.PutsAway
  · obtain ⟨cls, hinherits, hwaiting, hobject, hsize⟩ :=
      waiting_step_of_putsAway (s := s) (w := w) hputs
    rw [hwaiting] at hp
    rcases List.mem_cons.mp hp with rfl | hp
    · refine ⟨⟨hsize, fun hmem => absurd (hP _ hmem) (Nat.lt_irrefl _)⟩, ?_⟩
      rwa [hobject]
    · exact hold.waiting p hp
  · exact hold.waiting p ((waiting_step_sublist horder hcrash hputs).subset hp)

theorem Inside.entrusts (hm : m.Inside (h.known P)) (hhost : ∀ R, s.host.Inside R)
    (hheap : h.Inside (h.known P)) {callee : Value} {args : List Value}
    (hentrusts : m.Entrusts s h callee args) (env : Env) :
    (ofCall env callee args).Grounded s P h := by
  obtain ⟨-, i, rest, stack, below, site, fs, hframes, heffect⟩ := hentrusts
  have hframe := hm.frames (.eval (i :: rest) stack site) (hframes ▸ List.mem_cons_self)
  have hinside := (Heap.Worked.cargo (hhost _) h).carries_effect ⟨hheap, .refl _ _⟩
    m.scopes.current (hframe.1 i List.mem_cons_self)
    fun o ho => Operand.inside_iff.mp (hframe.2 o ho)
  rw [heffect] at hinside
  refine ⟨⟨env, _, .call callee args, .refl⟩, ⟨?_, trivial, nofun⟩, fun r hr => nomatch hr⟩
  exact List.forall_mem_singleton.mpr ⟨hinside.1, hinside.2.1⟩

theorem Grounded.outcome (hm : m.Grounded s P h) : Outcome.Inside (h.known P) m.outcome := by
  have hsignal := hm.inside.signal
  have hfailure := hm.inside.failure
  unfold Machine.outcome
  generalize m.signal = signal at hsignal hfailure ⊢
  cases signal with
  | run => trivial
  | value v => exact hsignal
  | leave e =>
      cases e with
      | returnWith v => exact hsignal
      | failWith f => exact hfailure f rfl
      | _ => trivial

end Machine

/-! ## Worlds -/

namespace World

variable {s : Setting} {w w' : World} {m : Machine} {t : TaskRef} {P P' : List ObjectRef}

/-- Every address in a world is that of an object that is there, and that is not left out. -/
structure Grounded (s : Setting) (P : List ObjectRef) (w : World) : Prop where
  heap : w.heap.Inside (w.heap.known P)
  tasks : w.Holds (Machine.Grounded s P w.heap) (Outcome.Inside (w.heap.known P))
  there : ∀ r ∈ P, r < w.heap.objects.size

theorem Holds.of_known {h h' : Heap} (hgrows : h.Grows h')
    (hwithin : ∀ r, h.known P r → h'.known P' r)
    (htasks : w.Holds (Machine.Grounded s P h) (Outcome.Inside (h.known P))) :
    w.Holds (Machine.Grounded s P' h') (Outcome.Inside (h'.known P')) :=
  ⟨fun t m hm => (htasks.machine t m hm).of_known hgrows hwithin,
    fun t o ho => (htasks.outcome t o ho).mono hwithin⟩

theorem Holds.grows {h h' : Heap} (hgrows : h.Grows h')
    (htasks : w.Holds (Machine.Grounded s P h) (Outcome.Inside (h.known P))) :
    w.Holds (Machine.Grounded s P h') (Outcome.Inside (h'.known P)) :=
  htasks.of_known hgrows fun _ hr => hr.grows hgrows

/-- Work that leaves the objects in `P` alone keeps everything else known. -/
theorem evolves_of_worked {h h' : Heap} (hworked : h.Worked (h'.known P) h') :
    h.Evolves (fun r => r ∉ P) h' :=
  hworked.evolves.mono fun _ hr => hr.2

theorem Grounded.step (hw : w.Grounded s P) (hhost : ∀ R, s.host.Inside R)
    (hm : m.Grounded s P w.heap) :
    (m.step s w).world.Grounded s P ∧
      w.heap.Evolves (fun r => r ∉ P) (m.step s w).world.heap := by
  have hworked := (hm.worked hw.there hhost hw.heap hw.tasks.outcome).2
  have hgrows := hworked.evolves.grows
  refine ⟨⟨hworked.inside, (hw.tasks.grows hgrows).step fun callee args hentrusts => ?_,
    fun r hr => (hw.there r hr).trans_le hgrows.size⟩, evolves_of_worked hworked⟩
  exact (hm.inside.entrusts hhost hw.heap hentrusts _).mono hgrows

theorem Grounded.setTask (hw : w.Grounded s P) (t : TaskRef) (task : Task)
    (hmachine : ∀ m, task.machine = some m → m.Grounded s P w.heap)
    (houtcome : ∀ o, task.outcome = some o → Outcome.Inside (w.heap.known P) o) :
    (w.setTask t task).Grounded s P :=
  ⟨hw.heap, hw.tasks.setTask t task hmachine houtcome, hw.there⟩

/-- What happens to the locks does not matter. -/
theorem Grounded.locks (hw : w.Grounded s P) {locks : Array Bool}
    (hheap : w'.heap = { w.heap with locks := locks }) (htasks : w'.tasks = w.tasks) :
    w'.Grounded s P := by
  have hgrows : w.heap.Grows w'.heap := .of_objects (by rw [hheap])
  refine ⟨?_, (hw.tasks.grows hgrows).of_tasks htasks, fun r hr => ?_⟩
  · exact (hw.heap.mono fun _ hr => hr.grows hgrows).of_eq (by rw [hheap]) (by rw [hheap])
      (by rw [hheap])
  · exact (hw.there r hr).trans_le hgrows.size

theorem exists_locks_discard (w : World) (m : Machine) :
    ∃ locks, (w.discard m).heap = { w.heap with locks := locks } := by
  unfold discard
  generalize m.locks = ls
  induction ls generalizing w with
  | nil => exact ⟨w.heap.locks, rfl⟩
  | cons l ls ih =>
      obtain ⟨locks, hlocks⟩ := ih { w with heap := w.heap.release l }
      exact ⟨locks, hlocks⟩

theorem Grounded.discard (hw : w.Grounded s P) (m : Machine) (R : Region) :
    (w.discard m).Grounded s P ∧ w.heap.Evolves R (w.discard m).heap := by
  obtain ⟨locks, hlocks⟩ := exists_locks_discard w m
  refine ⟨hw.locks hlocks (tasks_releaseAll w m.locks), ?_⟩
  rw [hlocks]
  exact .of_eq rfl rfl rfl

theorem Grounded.advance (hw : w.Grounded s P) (hhost : ∀ R, s.host.Inside R) (t : TaskRef) :
    (w.advance s 1 t).Grounded s P ∧
      w.heap.Evolves (fun r => r ∉ P) (w.advance s 1 t).heap := by
  cases hmachine : (w.task t).machine with
  | none =>
      rw [advance_of_machine_none hmachine]
      exact ⟨hw, .refl _ _⟩
  | some m =>
      have hm := hw.tasks.machine t m hmachine
      have hw₀ : (w.setTask t { w.task t with machine := none }).Grounded s P :=
        hw.setTask t { w.task t with machine := none } nofun (hw.tasks.outcome t)
      obtain ⟨hw₁, hevolves⟩ := hw₀.step hhost hm
      have hfinish : ∀ {w' : World} {o : Outcome}, w'.Grounded s P →
          Outcome.Inside (w'.heap.known P) o →
          (w'.setTask t ((w.task t).finish o)).Grounded s P := by
        intro w' o hw' ho
        refine hw'.setTask t ((w.task t).finish o) nofun fun o' ho' => ?_
        rwa [← Option.some.inj ho']
      rcases advance_cases (s := s) hmachine with ⟨hcrash, heq⟩ | ⟨hframes, heq⟩ |
        ⟨message, hcrash, heq⟩
      · rw [heq]
        refine ⟨hw₁.setTask t _ (fun k hk => ?_) fun o ho => ?_, hevolves⟩
        · rw [← Option.some.inj hk]
          exact Machine.Grounded.step hm hw₀.there hhost hw₀.heap hw₀.tasks.outcome hcrash
        · exact (hw.tasks.outcome t o ho).mono fun _ hr => hr.grows hevolves.grows
      · rw [heq]
        exact ⟨hfinish hw₀ hm.outcome, .refl _ _⟩
      · rw [heq]
        obtain ⟨hw₂, hdiscard⟩ := hw₁.discard (m.step s _).machine fun r => r ∉ P
        refine ⟨hfinish hw₂ ?_, hevolves.trans hdiscard⟩
        cases hbreakdown : (w.task t).breakdown s.config.debug message with
        | ok v =>
            rw [Task.eq_empty_of_breakdown hbreakdown]
            trivial
        | error f => exact (Task.plain_of_breakdown hbreakdown).inside

theorem Grounded.abandon (hw : w.Grounded s P) (t : TaskRef) (R : Region) :
    (w.abandon t).Grounded s P ∧ w.heap.Evolves R (w.abandon t).heap := by
  have habandoned : ∀ {w' : World}, w'.Grounded s P → w.heap.Evolves R w'.heap →
      (w'.setTask t ((w.task t).abandoned t)).Grounded s P := by
    intro w' hw' hevolves
    refine hw'.setTask t _ (fun m hm => ?_) fun o ho => ?_
    · rw [Task.machine_abandoned] at hm
      contradiction
    · unfold Task.abandoned at ho
      split at ho
      · exact (hw.tasks.outcome t o ho).mono fun _ hr => hr.grows hevolves.grows
      · rw [← Option.some.inj ho]
        exact (Failure.plain_new _ _).inside
  cases hmachine : (w.task t).machine with
  | none =>
      rw [abandon_of_machine_none hmachine]
      exact ⟨habandoned hw (.refl _ _), .refl _ _⟩
  | some m =>
      obtain ⟨hw', hevolves⟩ := hw.discard m R
      rw [abandon_of_machine hmachine]
      exact ⟨habandoned hw' hevolves, hevolves⟩

end World

/-! ## Runs -/

namespace System

variable {s : Setting} {σ σ' : System} {Begun : Machine → Prop} {Given : Value → Prop}
  {P P' : List ObjectRef}

/-- Every address in a system is that of an object that is there, and that is not left out. -/
structure Grounded (s : Setting) (P : List ObjectRef) (σ : System) : Prop where
  world : σ.world.Grounded s P
  atWork : ∀ m ∈ σ.atWork, m.Grounded s P σ.world.heap

/-- What can happen if machines are begun, and values given from outside, with addresses of what is
there only, and of nothing that is left out. -/
def Proceeds (s : Setting) (P : List ObjectRef) (σ σ' : System) : Prop :=
  Happens s (fun m => m.Begun ∧ m.Inside (σ.world.heap.known P))
    (fun v => v.isBare = true ∧ v.Inside (σ.world.heap.known P)) σ σ'

theorem Grounded.happens (hσ : σ.Grounded s P) (hhost : ∀ R, s.host.Inside R)
    (hbegun : ∀ m, Begun m → m.Grounded s P σ.world.heap)
    (hgiven : ∀ v, Given v → v.Inside (σ.world.heap.known P))
    (hmove : Happens s Begun Given σ σ') :
    σ'.Grounded s P ∧ σ.world.heap.Evolves (fun r => r ∉ P) σ'.world.heap := by
  obtain ⟨hw, hwork⟩ := hσ
  have hlater : ∀ {h : Heap} {ms : List Machine}, ms ⊆ σ.atWork → σ.world.heap.Grows h →
      ∀ m ∈ ms, m.Grounded s P h :=
    fun hms hgrows m hm => (hwork m (hms hm)).mono hgrows
  cases hmove with
  | start hstart =>
      exact ⟨⟨hw, List.forall_mem_cons.mpr ⟨hbegun _ hstart, hwork⟩⟩, .refl _ _⟩
  | step before m after hstep =>
      have hm := hwork m (by simp)
      obtain ⟨hw', hevolves⟩ := hw.step hhost hm
      refine ⟨⟨hw', forall_mem_middle (hlater (List.Subset.refl _) hevolves.grows) ?_⟩, hevolves⟩
      exact hm.step hw.there hhost hw.heap hw.tasks.outcome hstep
  | crash before m after hstep =>
      have hm := hwork m (by simp)
      obtain ⟨hw', hevolves⟩ := hw.step hhost hm
      obtain ⟨hw'', hdiscard⟩ := hw'.discard (m.step s _).machine fun r => r ∉ P
      have hall := hevolves.trans hdiscard
      exact ⟨⟨hw'', hlater (by simp) hall.grows⟩, hall⟩
  | drop before m after =>
      obtain ⟨hw', hevolves⟩ := hw.discard m fun r => r ∉ P
      exact ⟨⟨hw', hlater (by simp) hevolves.grows⟩, hevolves⟩
  | advance t =>
      obtain ⟨hw', hevolves⟩ := hw.advance hhost t
      exact ⟨⟨hw', hlater (List.Subset.refl _) hevolves.grows⟩, hevolves⟩
  | abandon t =>
      obtain ⟨hw', hevolves⟩ := hw.abandon t fun r => r ∉ P
      exact ⟨⟨hw', hlater (List.Subset.refl _) hevolves.grows⟩, hevolves⟩
  | @give w ms v name hv =>
      have hevolves : w.heap.Evolves (fun r => r ∉ P) (w.heap.define 0 name v) := .of_eq rfl rfl rfl
      refine ⟨⟨⟨hw.heap.define (hgiven _ hv) 0 name, ?_, hw.there⟩,
        hlater (List.Subset.refl _) hevolves.grows⟩, hevolves⟩
      exact (hw.tasks.grows hevolves.grows).of_tasks rfl
  | elsewhere locks pool output =>
      exact ⟨⟨hw.locks rfl rfl, hlater (List.Subset.refl _) (.of_objects rfl)⟩, .of_eq rfl rfl rfl⟩

theorem Grounded.of_live {m : Machine} (hσ : σ.Grounded s P) (hm : m ∈ σ.live) :
    m.Grounded s P σ.world.heap := by
  rcases mem_live_iff.mp hm with hm | ⟨t, hm⟩
  · exact hσ.atWork m hm
  · exact hσ.world.tasks.machine t m hm

theorem Happens.imp {Begun' : Machine → Prop} {Given' : Value → Prop}
    (hmove : Happens s Begun Given σ σ') (hbegun : ∀ m, Begun m → Begun' m)
    (hgiven : ∀ v, Given v → Given' v) : Happens s Begun' Given' σ σ' := by
  cases hmove with
  | start h => exact .start (hbegun _ h)
  | step before m after hstep => exact .step before m after hstep
  | crash before m after hstep => exact .crash before m after hstep
  | drop before m after => exact .drop before m after
  | advance t => exact .advance t
  | abandon t => exact .abandon t
  | give name h => exact .give name (hgiven _ h)
  | elsewhere locks pool output => exact .elsewhere locks pool output

end System

theorem Machine.Begun.fresh {m : Machine} (h : m.Begun) : ∃ env, m.Fresh env := by
  cases h with
  | body env b => exact ⟨env, .body b⟩
  | code env => exact ⟨env, .code _⟩
  | call env => exact ⟨env, .call _ _⟩

theorem Machine.Begun.waiting_eq_nil {m : Machine} (h : m.Begun) : m.waiting = [] := by
  cases h <;> rfl

theorem Machine.Begun.grounded {s : Setting} {P : List ObjectRef} {h : Heap} {m : Machine}
    (hm : m.Begun) (hinside : m.Inside (h.known P)) : m.Grounded s P h := by
  obtain ⟨env, hfresh⟩ := hm.fresh
  refine ⟨⟨env, m, hfresh, .refl⟩, hinside, fun p hp => ?_⟩
  rw [hm.waiting_eq_nil] at hp
  contradiction

namespace System

variable {s : Setting} {σ σ' : System} {P : List ObjectRef}

theorem Grounded.proceeds (hσ : σ.Grounded s P) (hhost : ∀ R, s.host.Inside R)
    (hmove : Proceeds s P σ σ') :
    σ'.Grounded s P ∧ σ.world.heap.Evolves (fun r => r ∉ P) σ'.world.heap :=
  hσ.happens hhost (fun _ hm => hm.1.grounded hm.2) (fun _ hv => hv.2) hmove

/-- How a run may go on if machines are begun, and values given from outside, with addresses of what
is there only. -/
abbrev GoesOn (s : Setting) : System → System → Prop :=
  ReflTransGen (Proceeds s [])

theorem GoesOn.runs (h : GoesOn s σ σ') :
    Runs s Machine.Begun (fun v => v.isBare = true) σ σ' :=
  ReflTransGen.mono (fun _ _ hmove => Happens.imp hmove (fun _ hm => hm.1) fun _ hv => hv.1) _ _ h

theorem Runs.goesOn (h : Runs s (fun _ => False) (fun _ => False) σ σ') : GoesOn s σ σ' :=
  ReflTransGen.mono (fun _ _ hmove => Happens.imp hmove (fun _ => False.elim) fun _ => False.elim)
    _ _ h

theorem Grounded.goesOn (hσ : σ.Grounded s []) (hhost : ∀ R, s.host.Inside R)
    (h : GoesOn s σ σ') :
    σ'.Grounded s [] ∧ σ.world.heap.Evolves (fun _ => True) σ'.world.heap := by
  induction h with
  | refl => exact ⟨hσ, .refl _ _⟩
  | tail _ hmove ih =>
      obtain ⟨hgrounded, hevolves⟩ := ih.1.proceeds hhost hmove
      exact ⟨hgrounded, ih.2.trans (hevolves.mono fun _ _ => trivial)⟩

end System

/-- A program is loaded without any objects. -/
theorem Session.grounded_load {config : Config} {host : Host} {extensions : List Extension}
    {file : String} {source : Source} {session : Session}
    (hload : load config host extensions file source = .ok session) :
    System.Grounded session.setting [] ⟨session.world, []⟩ := by
  obtain ⟨-, -, htasks⟩ := bare_load hload
  have htask : ∀ t, session.world.task t = default := fun t => by
    rw [World.task, htasks]
    rfl
  refine ⟨⟨?_, ⟨fun t m hm => ?_, fun t o ho => ?_⟩, List.forall_mem_nil _⟩,
    List.forall_mem_nil _⟩
  · obtain ⟨⟨heap, registry⟩, hbuild, hsession⟩ := exists_of_bind_eq_ok hload
    obtain rfl := Except.ok.inj hsession
    exact (Heap.stores_inside _).build (Heap.inside_empty.newScope "global") hbuild
  · rw [htask] at hm
    contradiction
  · rw [htask] at ho
    contradiction

end Statute
