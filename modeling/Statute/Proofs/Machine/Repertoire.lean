import Statute.Proofs.Machine.Cargo
import Statute.Proofs.Machine.Origins
import Statute.Proofs.Machine.Scheduling
import Statute.Proofs.Value.Repertoire

/-!
# Machines keep to the repertoire

The frames of a machine carry values, and so does what it hands on or returns. If all of these are
among a repertoire, and so are the heap, the registry and whatever the host and other tasks answer,
then they are after each step. Nothing about the order of the frames is needed for that.

A call that waits for defaults carries the parameters that remain, which are the last ones of its
procedure.
-/

namespace Statute

variable {R : Repertoire} {s : Setting}

/-! ## What machines carry -/

def Item.Among (R : Repertoire) : Item → Prop
  | .push v => v.Among R
  | _ => True

/-- A compiled expression has literals in it, which carry no code. -/
theorem Item.IsPlain.among {i : Item} (h : i.IsPlain) : i.Among R := by
  cases i with
  | push v => exact (Value.pervasive_among R).scalar h
  | _ => trivial

theorem Code.among_itemsOf {raws : List String} {items : List Item}
    (h : Code.itemsOf raws = .ok items) : ∀ i ∈ items, i.Among R :=
  fun i hi => (Code.isPlain_itemsOf h i hi).among

def Operand.Among (R : Repertoire) : Operand → Prop
  | .value v => v.Among R
  | _ => True

theorem Operand.among_iff {o : Operand} : o.Among R ↔ o.Carries (Value.Among R) := by
  cases o <;> exact Iff.rfl

/-- What a setting knows and what its host answers is among a repertoire. -/
structure Setting.Among (R : Repertoire) (s : Setting) : Prop where
  registry : s.registry.Among R
  host : s.host.Among R

theorem Value.Among.mem_of_procedure? {v : Value} {p : Procedure}
    (h : v.Among R) (hp : v.procedure? = some p) : p ∈ R.procedures := by
  cases v with
  | procedure q =>
      obtain rfl := Option.some.inj hp
      exact h
  | method r q =>
      obtain rfl := Option.some.inj hp
      exact h
  | _ => cases hp

/-- A call of a procedure of a repertoire. -/
structure Call.Among (R : Repertoire) (c : Call) : Prop where
  procedure : c.procedure ∈ R.procedures
  args : ∀ v ∈ c.args, v.Among R

/-- What a frame carries is among a repertoire. -/
def Frame.Among (R : Repertoire) : Frame → Prop
  | .eval items stack _ => (∀ i ∈ items, i.Among R) ∧ ∀ o ∈ stack, o.Among R
  | .call callee args _ => callee.Among R ∧ ∀ v ∈ args, v.Among R
  | .supply c rest => c.Among R ∧ rest <:+ c.procedure.params
  | .construct cls args _ => cls.Among R ∧ ∀ v ∈ args, v.Among R
  | .adopt _ cls args _ _ => cls.Among R ∧ ∀ v ∈ args, v.Among R
  | _ => True

/-- What is handed on or returned is among a repertoire. -/
def Signal.Among (R : Repertoire) : Signal → Prop
  | .value v => v.Among R
  | .leave (.returnWith v) => v.Among R
  | _ => True

/-- What a machine carries is among a repertoire. -/
structure Machine.Among (R : Repertoire) (m : Machine) : Prop where
  frames : ∀ f ∈ m.frames, f.Among R
  signal : m.signal.Among R

/-- After a step the heap and the machine are among a repertoire. -/
structure Reply.Among (R : Repertoire) (r : Reply) : Prop where
  heap : r.world.heap.Among R
  machine : r.machine.Among R

/-! ## Steps -/

/-- To be among a repertoire is something to ask of all that machines carry. -/
def Repertoire.cargo (R : Repertoire) (hs : s.Among R) : Cargo s where
  value := Value.Among R
  item := Item.Among R
  remaining p rest := rest <:+ p.params
  adopts _ _ := True
  heap := Heap.Among R
  pervasive := Value.pervasive_among R
  field _ := trivial
  task _ := trivial
  extension _ := trivial
  deferred := Value.among_deferred
  item_of_isPlain := Item.IsPlain.among
  value_of_push hv := hv
  registry := hs.registry
  host := hs.host
  receiver _ := trivial
  ctor hc _ hctor := hc.ctor hctor
  parent hc hparent := hc.parent? hparent
  remaining_drop p n := List.drop_suffix n p.params
  remaining_tail hrest := (List.suffix_cons _ _).trans hrest
  stored := Heap.Among.all
  method hh _ hmethod := (hh.objects _).method? hmethod
  locks locks hh := hh.locks locks
  newScope name hh := hh.newScope name
  define hh hv r name := hh.define hv r name
  store p hh hv _ := hh.store hv p
  newObject hh hc := hh.newObject hc
  newError message hh hc := hh.newError hc message
  adopt _ hh _ := hh.adopt _ _
  object_of_adopts _ := trivial

theorem Call.among_callee {c : Call} : c.callee.Among R ↔ c.procedure ∈ R.procedures := by
  unfold callee
  split <;> exact Iff.rfl

theorem Frame.among_iff (hs : s.Among R) {f : Frame} : f.Among R ↔ f.Carries (R.cargo hs) := by
  cases f with
  | eval items stack site =>
      exact and_congr Iff.rfl (forall₂_congr fun _ _ => Operand.among_iff)
  | supply c rest =>
      constructor
      · rintro ⟨⟨hp, hargs⟩, hrest⟩
        exact ⟨Call.among_callee.mpr hp, hargs, hrest⟩
      · rintro ⟨hp, hargs, hrest⟩
        exact ⟨⟨Call.among_callee.mp hp, hargs⟩, hrest⟩
  | _ => exact Iff.rfl

theorem Signal.among_iff (hs : s.Among R) {sig : Signal} :
    sig.Among R ↔ sig.Carries (R.cargo hs) := by
  cases sig with
  | leave e => cases e <;> exact Iff.rfl
  | _ => exact Iff.rfl

namespace Machine

variable {w : World} {m : Machine}

/-- A step keeps to the repertoire. -/
theorem Among.step (h : m.Among R) (hs : s.Among R) (hheap : w.heap.Among R)
    (houtcomes : ∀ t v, (w.task t).outcome = some (.ok v) → v.Among R) :
    (m.step s w).Among R := by
  have hcarries : m.Carries (R.cargo hs) w :=
    ⟨hheap, fun f hf => (Frame.among_iff hs).mp (h.frames f hf)⟩
  have hstep := hcarries.step ((Signal.among_iff hs).mp h.signal) houtcomes
    (fun _ _ _ _ => trivial) (fun _ _ _ _ _ _ _ _ => trivial) fun _ _ => trivial
  refine ⟨hstep.machine.heap, fun f hf => ?_, (Signal.among_iff hs).mpr hstep.signal⟩
  exact (Frame.among_iff hs).mpr (hstep.machine.frames f hf)

theorem Among.outcome (h : m.Among R) {v : Value} (hv : m.outcome = .ok v) : v.Among R := by
  have hsignal := h.signal
  unfold Machine.outcome at hv
  split at hv
  · next u heq =>
      rw [heq] at hsignal
      rw [← Except.ok.inj hv]
      exact hsignal
  · next u heq =>
      rw [heq] at hsignal
      rw [← Except.ok.inj hv]
      exact hsignal
  · contradiction
  · rw [← Except.ok.inj hv]
    trivial

/-- A call that is entrusted to the pool is one of values of the repertoire. -/
theorem Among.entrusts (h : m.Among R) (hs : s.Among R) {heap : Heap} (hheap : heap.Among R)
    {callee : Value} {args : List Value} (hentrusts : m.Entrusts s heap callee args) (env : Env) :
    (ofCall env callee args).Among R := by
  obtain ⟨-, i, rest, stack, below, site, fs, hframes, heffect⟩ := hentrusts
  have hframe := h.frames (.eval (i :: rest) stack site) (by rw [hframes]; exact List.mem_cons_self)
  have hamong := (R.cargo hs).carries_effect hheap m.scopes.current
    (hframe.1 i List.mem_cons_self) fun o ho => Operand.among_iff.mp (hframe.2 o ho)
  rw [heffect] at hamong
  exact ⟨List.forall_mem_singleton.mpr ⟨hamong.1, hamong.2.1⟩, trivial⟩

end Machine

end Statute
