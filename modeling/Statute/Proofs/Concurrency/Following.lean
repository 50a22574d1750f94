import Statute.Proofs.Concurrency.Allocation
import Statute.Proofs.Machine.History

/-!
# Following one machine

One machine of a run is set apart from its beginning on, and the moments at which it takes its own
steps are recorded; between them anything can happen that the rest of the system does. Whoever
begins machines or gives values from outside does so with addresses that somebody was given.

The objects that wait in the frames of this machine for their parent objects are its own. Nobody
else comes to know their addresses, and the machine does not know them anywhere else, either. So
each of them is as it was made, without fields and without a parent, until it adopts the object that
it has been waiting for.
-/

namespace Statute

open Relation (ReflTransGen)

namespace Machine

/-- What a machine keeps to itself: the objects that wait in its frames are all different, and as
they were made, and it knows of their addresses nowhere else. -/
structure Minds (s : Setting) (h : Heap) (m : Machine) : Prop where
  reached : m.Reached s
  inside : m.Inside (h.known m.pending)
  there : ∀ r ∈ m.pending, r < h.objects.size
  blank : ∀ p ∈ m.waiting, p.2.Inherits ∧ h.object p.1 = ⟨p.2, [], none⟩
  distinct : m.pending.Nodup

end Machine

namespace Moment

def left (s : Setting) (t : Moment) : Heap :=
  (t.machine.step s t.world).world.heap

/-- Whether the host breaks down in the step. -/
def breaks (s : Setting) (t : Moment) : Bool :=
  match (t.machine.step s t.world).step with
  | .crash _ => true
  | _ => false

/-- The moments of one machine in a run that has led to the heap `h`. -/
structure Traced (s : Setting) (ts : List Moment) (h : Heap) : Prop where
  minds : ∀ t ∈ ts, t.machine.Minds s t.world.heap
  later : ∀ t ∈ ts, (t.left s).Evolves (fun _ => True) h
  order : ts.Pairwise fun t u => (t.left s).Evolves (fun _ => True) u.world.heap

end Moment

/-- The first moments of a machine that nothing happens around, and what becomes of it and of the
world. -/
def Machine.course (s : Setting) : Nat → World → Machine → List Moment × World × Machine
  | 0, w, m => ([], w, m)
  | n + 1, w, m =>
      let r := m.step s w
      let (ts, w', m') := course s n r.world r.machine
      (⟨w, m⟩ :: ts, w', m')

namespace System

/-- The machine is set apart, and the others go on around it. -/
inductive Follows (s : Setting) : System → Machine → List Moment → System → Machine → Prop
  | stay (σ : System) (m : Machine) : Follows s σ m [] σ m
  | own {w : World} {ms : List Machine} {m m' : Machine} {ts : List Moment} {σ' : System}
      (hcrash : ∀ message, (m.step s w).step ≠ .crash message)
      (hrest : Follows s ⟨(m.step s w).world, ms⟩ (m.step s w).machine ts σ' m') :
      Follows s ⟨w, ms⟩ m (⟨w, m⟩ :: ts) σ' m'
  | others {σ σ₁ σ' : System} {m m' : Machine} {ts : List Moment}
      (hmove : Proceeds s m.pending σ σ₁) (hrest : Follows s σ₁ m ts σ' m') :
      Follows s σ m ts σ' m'

/-- A machine is set apart when it begins: one that is begun from outside, or that of a task. -/
inductive Spawns (s : Setting) : System → System → Machine → Prop
  | outside {σ : System} {m : Machine} (hbegun : m.Begun)
      (hinside : m.Inside (σ.world.heap.known [])) : Spawns s σ σ m
  | task {w : World} {ms : List Machine} {m : Machine} {t : TaskRef} (hbegun : m.Begun)
      (hmachine : (w.task t).machine = some m) :
      Spawns s ⟨w, ms⟩ ⟨w.setTask t { w.task t with machine := none }, ms⟩ m

/-- A machine that is set apart keeps its objects to itself, and the others do not know of them. -/
structure Apart (s : Setting) (σ : System) (m : Machine) : Prop where
  others : σ.Grounded s m.pending
  minds : m.Minds s σ.world.heap
  boxed : σ.world.heap.Boxed

variable {s : Setting} {σ σ₁ σ' : System} {m m' : Machine} {ts : List Moment} {w : World}
  {ms : List Machine}

theorem Follows.passes (h : Follows s σ m ts σ' m') : m.Passes s ts m' := by
  induction h with
  | stay σ m => exact .stay m
  | own hcrash _ ih => exact .go hcrash ih
  | others _ _ ih => exact ih

/-- A machine that nothing happens around takes its steps one after the other. -/
theorem Follows.of_course {n : Nat} {w' : World} (h : m.course s n w = (ts, w', m'))
    (hbreaks : ts.any (Moment.breaks s) = false) : Follows s ⟨w, ms⟩ m ts ⟨w', ms⟩ m' := by
  induction n generalizing w m ts with
  | zero =>
      cases h
      exact .stay _ _
  | succ n ih =>
      cases h
      rw [List.any_cons, Bool.or_eq_false_iff] at hbreaks
      refine .own (fun message hcrash => ?_) (ih rfl hbreaks.2)
      have hfalse := hbreaks.1
      rw [Moment.breaks, hcrash] at hfalse
      contradiction

theorem Spawns.apart (h : Spawns s σ σ₁ m) (hσ : σ.Grounded s []) (hboxed : σ.world.heap.Boxed) :
    σ₁.Apart s m := by
  have hapart : ∀ {σ : System}, m.Begun → m.Inside (σ.world.heap.known []) → σ.Grounded s [] →
      σ.world.heap.Boxed → σ.Apart s m := by
    intro σ hbegun hinside hσ hboxed
    have hwaiting := hbegun.waiting_eq_nil
    have hpending : m.pending = [] := by rw [Machine.pending, hwaiting, List.map_nil]
    obtain ⟨env, hfresh⟩ := hbegun.fresh
    refine ⟨hpending ▸ hσ, ⟨⟨env, m, hfresh, .refl⟩, hpending ▸ hinside, ?_, ?_, ?_⟩, hboxed⟩
    · rw [hpending]
      exact List.forall_mem_nil _
    · rw [hwaiting]
      exact List.forall_mem_nil _
    · rw [hpending]
      exact .nil
  cases h with
  | outside hbegun hinside => exact hapart hbegun hinside hσ hboxed
  | @task w ms m t hbegun hmachine =>
      refine hapart hbegun (hσ.world.tasks.machine t m hmachine).inside ⟨?_, hσ.atWork⟩ hboxed
      refine hσ.world.setTask t _ (fun k hk => ?_) (hσ.world.tasks.outcome t)
      contradiction

end System

/-! ## Objects that wait -/

namespace Machine

variable {s : Setting} {w : World} {m : Machine} {r : ObjectRef} {p : ObjectRef × Class}

theorem mem_pending : r ∈ m.pending ↔ ∃ p ∈ m.waiting, p.1 = r :=
  List.mem_map

theorem Reached.inOrder (h : m.Reached s) : ∃ goal env, m.InOrder goal 0 env := by
  obtain ⟨env, m₀, hfresh, hreach⟩ := h
  obtain ⟨goal, horder, -⟩ := hfresh.reached hreach
  exact ⟨goal, env, horder⟩

namespace Minds

/-- An object that waits after a step has waited before, or it is made by this step. -/
theorem waiting_step (hm : m.Minds s w.heap)
    (hcrash : ∀ message, (m.step s w).step ≠ .crash message)
    (hp : p ∈ (m.step s w).machine.waiting) :
    p ∈ m.waiting ∨ m.PutsAway ∧ p.1 = w.heap.objects.size ∧ p.2.Inherits ∧
      (m.step s w).world.heap.object p.1 = ⟨p.2, [], none⟩ ∧
      p.1 < (m.step s w).world.heap.objects.size := by
  obtain ⟨goal, env, horder⟩ := hm.reached.inOrder
  by_cases hputs : m.PutsAway
  · obtain ⟨cls, hinherits, hwaiting, hobject, hsize⟩ :=
      waiting_step_of_putsAway (s := s) (w := w) hputs
    rw [hwaiting] at hp
    rcases List.mem_cons.mp hp with rfl | hp
    · exact Or.inr ⟨hputs, rfl, hinherits, hobject, hsize⟩
    · exact Or.inl hp
  · exact Or.inl ((waiting_step_sublist horder hcrash hputs).subset hp)

theorem pending_step (hm : m.Minds s w.heap)
    (hcrash : ∀ message, (m.step s w).step ≠ .crash message)
    (hr : r ∈ (m.step s w).machine.pending) :
    r ∈ m.pending ∨ m.PutsAway ∧ r = w.heap.objects.size := by
  obtain ⟨p, hp, rfl⟩ := mem_pending.mp hr
  rcases hm.waiting_step hcrash hp with hold | ⟨hputs, hnew, -⟩
  · exact Or.inl (mem_pending.mpr ⟨p, hold, rfl⟩)
  · exact Or.inr ⟨hputs, hnew⟩

theorem distinct_step (hm : m.Minds s w.heap)
    (hcrash : ∀ message, (m.step s w).step ≠ .crash message) :
    (m.step s w).machine.pending.Nodup := by
  obtain ⟨goal, env, horder⟩ := hm.reached.inOrder
  by_cases hputs : m.PutsAway
  · obtain ⟨cls, -, hwaiting, -⟩ := waiting_step_of_putsAway (s := s) (w := w) hputs
    rw [pending, hwaiting]
    exact List.nodup_cons.mpr ⟨fun hmem => Nat.lt_irrefl _ (hm.there _ hmem), hm.distinct⟩
  · exact hm.distinct.sublist ((waiting_step_sublist horder hcrash hputs).map _)

/-- The object that waits in the frame on top does so no longer when it gets its value. -/
theorem notMem_pending_step (hm : m.Minds s w.heap)
    (hcrash : ∀ message, (m.step s w).step ≠ .crash message) {f : Frame} {fs : List Frame}
    (hframes : m.frames = f :: fs) (hp : f.waiting? = some p) (hleave : ∀ e, m.signal ≠ .leave e) :
    p.1 ∉ (m.step s w).machine.pending := by
  obtain ⟨goal, env, horder⟩ := hm.reached.inOrder
  have hputs : ¬ m.PutsAway := by
    rintro ⟨-, cls, parent, args, site, gs, hconstruct, -⟩
    rw [hframes] at hconstruct
    obtain ⟨rfl, -⟩ := List.cons.inj hconstruct
    contradiction
  rcases Machine.waiting_step horder hframes hcrash hputs with htail | ⟨-, e, he⟩
  · have hdistinct := hm.distinct
    rw [pending, waiting, hframes, List.filterMap_cons_some hp, List.map_cons] at hdistinct
    rw [pending, htail]
    exact (List.nodup_cons.mp hdistinct).1
  · exact absurd he (hleave e)

/-- What is known, and does not wait, does not wait after a step. -/
theorem known_step (hm : m.Minds s w.heap)
    (hcrash : ∀ message, (m.step s w).step ≠ .crash message)
    (hr : w.heap.known m.pending r) :
    (m.step s w).world.heap.known (m.step s w).machine.pending r := by
  refine ⟨hr.1.trans_le (Machine.grows_step s w m).size, fun hmem => ?_⟩
  rcases hm.pending_step hcrash hmem with hold | ⟨-, rfl⟩
  · exact hr.2 hold
  · exact Nat.lt_irrefl _ hr.1

theorem there_step (hm : m.Minds s w.heap)
    (hcrash : ∀ message, (m.step s w).step ≠ .crash message) :
    ∀ r ∈ (m.step s w).machine.pending, r < (m.step s w).world.heap.objects.size := by
  intro r hr
  obtain ⟨p, hp, rfl⟩ := mem_pending.mp hr
  rcases hm.waiting_step hcrash hp with hold | ⟨-, -, -, -, hlt⟩
  · exact (hm.there _ (mem_pending.mpr ⟨p, hold, rfl⟩)).trans_le (Machine.grows_step s w m).size
  · exact hlt

/-- A step works on nothing that waits after it. -/
theorem worked (hm : m.Minds s w.heap) (hcrash : ∀ message, (m.step s w).step ≠ .crash message)
    (hhost : ∀ R, s.host.Inside R) (hw : w.Grounded s m.pending) :
    (m.step s w).machine.Inside
        ((m.step s w).world.heap.known (m.step s w).machine.pending) ∧
      w.heap.Worked ((m.step s w).world.heap.known (m.step s w).machine.pending)
        (m.step s w).world.heap := by
  have hwithin : ∀ r, w.heap.known m.pending r →
      (m.step s w).world.heap.known (m.step s w).machine.pending r :=
    fun _ hr => hm.known_step hcrash hr
  refine (hm.inside.mono hwithin).step (hhost _) (hw.heap.mono hwithin)
    (fun t o ho => (hw.tasks.outcome t o ho).mono hwithin) hm.reached ?_ ?_
  · intro f fs p hframes hp hleave
    have hwaiting : p ∈ m.waiting :=
      List.mem_filterMap.mpr ⟨f, hframes ▸ List.mem_cons_self, hp⟩
    obtain ⟨hinherits, hobject⟩ := hm.blank p hwaiting
    have hthere := hm.there p.1 (mem_pending.mpr ⟨p, hwaiting, rfl⟩)
    refine ⟨⟨hthere.trans_le (Machine.grows_step s w m).size, ?_⟩, by rwa [hobject]⟩
    exact hm.notMem_pending_step hcrash hframes hp hleave
  · intro hputs hsize
    refine ⟨hsize, fun hmem => ?_⟩
    rcases hm.pending_step hcrash hmem with hold | ⟨hputs', -⟩
    · exact Nat.lt_irrefl _ (hm.there _ hold)
    · exact hputs hputs'

theorem step (hm : m.Minds s w.heap) (hcrash : ∀ message, (m.step s w).step ≠ .crash message)
    (hhost : ∀ R, s.host.Inside R) (hw : w.Grounded s m.pending) :
    (m.step s w).machine.Minds s (m.step s w).world.heap := by
  obtain ⟨hinside, hworked⟩ := hm.worked hcrash hhost hw
  obtain ⟨env, m₀, hfresh, hreach⟩ := hm.reached
  refine ⟨⟨env, m₀, hfresh, hreach.tail ⟨w, rfl, hcrash⟩⟩, hinside, hm.there_step hcrash, ?_,
    hm.distinct_step hcrash⟩
  intro p hp
  rcases hm.waiting_step hcrash hp with hold | ⟨-, -, hinherits, hobject, -⟩
  · obtain ⟨hinherits, hobject⟩ := hm.blank p hold
    have hthere := hm.there p.1 (mem_pending.mpr ⟨p, hold, rfl⟩)
    refine ⟨hinherits, ?_⟩
    rw [hworked.evolves.untouched p.1 hthere fun hr => hr.2 (mem_pending.mpr ⟨p, hp, rfl⟩),
      hobject]
  · exact ⟨hinherits, hobject⟩

end Minds

end Machine

namespace System

variable {s : Setting} {σ σ₁ σ' : System} {m m' : Machine} {ts : List Moment} {w : World}
  {ms : List Machine}

/-- A step of the machine itself. -/
theorem Apart.own (h : Apart s ⟨w, ms⟩ m) (hhost : ∀ R, s.host.Inside R)
    (hcrash : ∀ message, (m.step s w).step ≠ .crash message) :
    Apart s ⟨(m.step s w).world, ms⟩ (m.step s w).machine ∧
      w.heap.Evolves (fun _ => True) (m.step s w).world.heap := by
  obtain ⟨⟨hw, hwork⟩, hm, hboxed⟩ := h
  have hworked := (hm.worked hcrash hhost hw).2
  have hgrows := hworked.evolves.grows
  refine ⟨⟨⟨⟨hworked.inside, ?_, hm.there_step hcrash⟩, ?_⟩, hm.step hcrash hhost hw,
    hworked.evolves.boxed hboxed⟩, hworked.evolves.mono fun _ _ => trivial⟩
  · refine (hw.tasks.of_known hgrows fun _ hr => hm.known_step hcrash hr).step fun _ _ h => ?_
    exact (hm.inside.entrusts hhost hw.heap h _).of_known hgrows fun _ hr =>
      hm.known_step hcrash hr
  · exact fun k hk => (hwork k hk).of_known hgrows fun _ hr => hm.known_step hcrash hr

/-- Whatever the others do. -/
theorem Apart.others_proceed (h : σ.Apart s m) (hhost : ∀ R, s.host.Inside R)
    (hmove : Proceeds s m.pending σ σ₁) :
    σ₁.Apart s m ∧ σ.world.heap.Evolves (fun _ => True) σ₁.world.heap := by
  obtain ⟨hσ, hm, hboxed⟩ := h
  obtain ⟨hσ₁, hevolves⟩ := hσ.proceeds hhost hmove
  refine ⟨⟨hσ₁, ⟨hm.reached, ?_, hσ₁.world.there, ?_, hm.distinct⟩, hevolves.boxed hboxed⟩,
    hevolves.mono fun _ _ => trivial⟩
  · exact hm.inside.mono fun _ hr => hr.grows hevolves.grows
  · intro p hp
    have hpending : p.1 ∈ m.pending := Machine.mem_pending.mpr ⟨p, hp, rfl⟩
    obtain ⟨hinherits, hobject⟩ := hm.blank p hp
    refine ⟨hinherits, ?_⟩
    rw [hevolves.untouched p.1 (hm.there _ hpending) fun hout => hout hpending, hobject]

/-- All along, the machine keeps its waiting objects to itself. -/
theorem Follows.apart (h : Follows s σ m ts σ' m') (hhost : ∀ R, s.host.Inside R)
    (hm : σ.Apart s m) :
    σ'.Apart s m' ∧ σ.world.heap.Evolves (fun _ => True) σ'.world.heap ∧
      Moment.Traced s ts σ'.world.heap ∧
      ∀ t ∈ ts, σ.world.heap.Evolves (fun _ => True) t.world.heap := by
  induction h with
  | stay σ m =>
      exact ⟨hm, .refl _ _, ⟨List.forall_mem_nil _, List.forall_mem_nil _, .nil⟩,
        List.forall_mem_nil _⟩
  | @own w ms m m' ts σ' hcrash _ ih =>
      obtain ⟨hm₁, hstep⟩ := hm.own hhost hcrash
      obtain ⟨hm', hevolves, htraced, hfirst⟩ := ih hm₁
      exact ⟨hm', hstep.trans hevolves,
        ⟨List.forall_mem_cons.mpr ⟨hm.minds, htraced.minds⟩,
          List.forall_mem_cons.mpr ⟨hevolves, htraced.later⟩,
          List.pairwise_cons.mpr ⟨hfirst, htraced.order⟩⟩,
        List.forall_mem_cons.mpr ⟨.refl _ _, fun t ht => hstep.trans (hfirst t ht)⟩⟩
  | others hmove _ ih =>
      obtain ⟨hm₁, hstep⟩ := hm.others_proceed hhost hmove
      obtain ⟨hm', hevolves, htraced, hfirst⟩ := ih hm₁
      exact ⟨hm', hstep.trans hevolves, htraced, fun t ht => hstep.trans (hfirst t ht)⟩

end System

end Statute
