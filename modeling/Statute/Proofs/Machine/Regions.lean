import Statute.Proofs.Concurrency.Provenance
import Statute.Proofs.Machine.Evolution

/-!
# Machines work on a region

The frames of a machine carry values, and so does what it hands on, returns or fails with. If the
addresses in all of these are inside a region, and so are those on the heap and in whatever the
registry, the host and other tasks answer with, then they are after each step, and the objects
outside of the region are as they were.

Two addresses come in anew. One is that of an object that a step makes: it is inside the region, or
it is put away in a frame that waits for the parent object. The other is that of the object in this
frame, once the parent object is there.
-/

namespace Statute

def Operand.Inside (R : Region) : Operand → Prop
  | .value v => v.Inside R
  | _ => True

theorem Operand.inside_iff {R : Region} {o : Operand} :
    o.Inside R ↔ o.Carries (Value.Inside R) := by
  cases o <;> exact Iff.rfl

/-! ## Work on the heap -/

/-- A heap has been worked on, and all that is stored on it is inside the region. -/
structure Heap.Worked (R : Region) (h₀ h : Heap) : Prop where
  inside : h.Inside R
  evolves : h₀.Evolves R h

namespace Heap.Worked

variable {R : Region} {h₀ h : Heap} {v : Value}

theorem locks (hworked : h₀.Worked R h) (locks : Array Bool) :
    h₀.Worked R { h with locks := locks } :=
  ⟨hworked.inside.of_eq rfl rfl rfl, hworked.evolves.trans (.of_eq rfl rfl rfl)⟩

theorem define (hworked : h₀.Worked R h) (hv : v.Inside R) (r : ScopeRef) (name : String) :
    h₀.Worked R (h.define r name v) :=
  ⟨hworked.inside.define hv r name, hworked.evolves.trans (.of_eq rfl rfl rfl)⟩

theorem newScope (hworked : h₀.Worked R h) (name : String) :
    h₀.Worked R (h.newScope name).1 :=
  ⟨hworked.inside.newScope name, hworked.evolves.trans (.of_eq rfl rfl rfl)⟩

theorem store (hworked : h₀.Worked R h) (hv : v.Inside R) {p : Place}
    (hplace : ∀ r name, p = .field r name → R r) : h₀.Worked R (h.store v p) :=
  ⟨hworked.inside.store hv p, hworked.evolves.trans (.store hplace h v)⟩

theorem newObject (hworked : h₀.Worked R h) (c : Class) : h₀.Worked R (h.newObject c).1 :=
  ⟨hworked.inside.of_eq rfl rfl rfl, hworked.evolves.trans (.newObject R h c)⟩

theorem newError (hworked : h₀.Worked R h) (c : Class) (message : String) :
    h₀.Worked R (h.newError c message).1 :=
  ⟨hworked.inside.newError c message, hworked.evolves.trans (.newError R h c message)⟩

theorem adopt (hworked : h₀.Worked R h) {child : ObjectRef} (hchild : R child)
    (hinherits : (h.object child).cls.Inherits) (parent : ObjectRef) :
    h₀.Worked R (h.adopt child parent) :=
  ⟨hworked.inside.of_eq rfl rfl rfl, hworked.evolves.trans (.adopt hchild hinherits parent)⟩

end Heap.Worked

/-! ## Machines -/

/-- The addresses in a call are inside a region. -/
structure Call.Inside (R : Region) (c : Call) : Prop where
  receiver : ∀ r, c.receiver = some r → R r
  args : ∀ v ∈ c.args, v.Inside R

/-- The addresses that a frame hands out sooner or later are inside a region. That of an object that
waits for its parent object is not handed out before this is there. -/
def Frame.Inside (R : Region) : Frame → Prop
  | .eval items stack _ => (∀ i ∈ items, i.IsPlain) ∧ ∀ o ∈ stack, o.Inside R
  | .call callee args _ => callee.Inside R ∧ ∀ v ∈ args, v.Inside R
  | .supply c _ => c.Inside R
  | .construct _ args _ => ∀ v ∈ args, v.Inside R
  | .adopt _ _ args _ _ => ∀ v ∈ args, v.Inside R
  | .finish r => R r
  | _ => True

/-- The object that a frame keeps until the parent object is there, and its class. -/
def Frame.waiting? : Frame → Option (ObjectRef × Class)
  | .adopt object cls _ _ _ => some (object, cls)
  | _ => none

/-- The addresses in what is handed on or returned are inside a region. -/
def Signal.Inside (R : Region) : Signal → Prop
  | .value v => v.Inside R
  | .leave (.returnWith v) => v.Inside R
  | _ => True

/-- The addresses in what a task ended with are inside a region. -/
def Outcome.Inside (R : Region) : Outcome → Prop
  | .ok v => v.Inside R
  | .error f => f.Inside R

/-- The addresses that a machine knows of are inside a region. -/
structure Machine.Inside (R : Region) (m : Machine) : Prop where
  frames : ∀ f ∈ m.frames, f.Inside R
  signal : m.signal.Inside R
  failure : ∀ f, m.signal = .leave (.failWith f) → f.Inside R

/-! ## Steps -/

/-- To be inside a region is something to ask of all that machines carry, and to be worked on inside
of it something to ask of heaps. Only objects of classes that inherit adopt parent objects. -/
def Heap.Worked.cargo {R : Region} {s : Setting} (hhost : s.host.Inside R) (h₀ : Heap) :
    Cargo s where
  value := Value.Inside R
  item := Item.IsPlain
  remaining _ _ := True
  adopts h r := R r ∧ (h.object r).cls.Inherits
  heap := h₀.Worked R
  pervasive := Value.pervasive_inside R
  field _ := trivial
  task _ := trivial
  extension _ := trivial
  deferred := Value.inside_deferred
  item_of_isPlain hi := hi
  value_of_push hv := (Value.pervasive_inside R).scalar hv
  registry _ _ := Registry.inside_of_lookup?
  host := hhost.value
  receiver hr := hr
  ctor _ hr _ := hr
  parent _ _ := trivial
  remaining_drop _ _ := trivial
  remaining_tail _ := trivial
  stored hh := Heap.inside_iff_all.mp hh.inside
  method _ hr _ := hr
  locks locks hh := hh.locks locks
  newScope name hh := hh.newScope name
  define hh hv r name := hh.define hv r name
  store _ hh hv hplace := hh.store hv hplace
  newObject hh _ := hh.newObject _
  newError message hh _ := hh.newError _ message
  adopt parent hh hchild := hh.adopt hchild.1 hchild.2 parent
  object_of_adopts hchild := hchild.1

section

variable {R : Region} {s : Setting} {h₀ : Heap}

theorem Call.inside_callee {c : Call} :
    c.callee.Inside R ↔ ∀ r, c.receiver = some r → R r := by
  unfold callee
  cases c.receiver with
  | none => exact ⟨fun _ => nofun, fun _ => trivial⟩
  | some r => exact ⟨fun hr r' heq => Option.some.inj heq ▸ hr, fun h => h r rfl⟩

theorem Frame.inside_iff (hhost : s.host.Inside R) {f : Frame} :
    f.Inside R ↔ f.Carries (Heap.Worked.cargo hhost h₀) := by
  cases f with
  | eval items stack site =>
      exact and_congr Iff.rfl (forall₂_congr fun _ _ => Operand.inside_iff)
  | supply c rest =>
      constructor
      · rintro ⟨hreceiver, hargs⟩
        exact ⟨Call.inside_callee.mpr hreceiver, hargs, trivial⟩
      · rintro ⟨hcallee, hargs, -⟩
        exact ⟨Call.inside_callee.mp hcallee, hargs⟩
  | construct cls args site => exact ⟨fun hargs => ⟨trivial, hargs⟩, And.right⟩
  | adopt object cls args taken site => exact ⟨fun hargs => ⟨trivial, hargs⟩, And.right⟩
  | _ => exact Iff.rfl

theorem Signal.inside_iff (hhost : s.host.Inside R) {sig : Signal} :
    sig.Inside R ↔ sig.Carries (Heap.Worked.cargo hhost h₀) := by
  cases sig with
  | leave e => cases e <;> exact Iff.rfl
  | _ => exact Iff.rfl

end

theorem Failure.covers_inside (R : Region) : System.Covers (Failure.Inside R) := by
  refine ⟨fun f g hcore hg r hr => hg r ?_, fun f hplain _ => hplain.inside⟩
  have hpayload : f.payload = g.payload := (congrArg (fun c => c.2.2.2) hcore :)
  exact hpayload.symm.trans hr

namespace Machine.Inside

variable {R : Region} {s : Setting} {w : World} {m : Machine}

/-- A failure that a machine comes upon carries an object that the machine or another one knows. -/
theorem failure_of_meets (h : m.Inside R) (hhost : s.host.Inside R)
    (houtcomes : ∀ t o, (w.task t).outcome = some o → o.Inside R) {f : Failure}
    (hmeets : m.Meets s w f) : f.Inside R := by
  cases hmeets with
  | underWay hsignal => exact h.failure f hsignal
  | raised hraises =>
      cases hraises with
      | thrown hsignal _ hthrown =>
          have hv := h.signal
          rw [hsignal] at hv
          exact Heap.inside_of_thrown hv hthrown
      | answered _ hanswer => exact hhost.failure _ _ _ _ hanswer.2
  | awaited _ _ _ houtcome => exact houtcomes _ _ houtcome

/-- A step works on the region: what it leaves is inside of it, and so is what the machine knows of
afterwards. An object that it makes has to be inside, unless this is put away to wait for its parent
object. If one has been waiting for the value that is handed on, it has to be inside as well, and of
a class that inherits. -/
theorem step (h : m.Inside R) (hhost : s.host.Inside R) (hheap : w.heap.Inside R)
    (houtcomes : ∀ t o, (w.task t).outcome = some o → o.Inside R) (hreached : m.Reached s)
    (hwaiting : ∀ f fs p, m.frames = f :: fs → f.waiting? = some p →
      (∀ e, m.signal ≠ .leave e) → R p.1 ∧ (w.heap.object p.1).cls.Inherits)
    (hnew : ¬ m.PutsAway → w.heap.objects.size < (m.step s w).world.heap.objects.size →
      R w.heap.objects.size) :
    (m.step s w).machine.Inside R ∧ w.heap.Worked R (m.step s w).world.heap := by
  have hcarries : m.Carries (Heap.Worked.cargo hhost w.heap) w :=
    ⟨⟨hheap, .refl R w.heap⟩, fun f hf => (Frame.inside_iff hhost).mp (h.frames f hf)⟩
  have hstep := hcarries.step ((Signal.inside_iff hhost).mp h.signal)
    (fun t v => houtcomes t (.ok v)) (fun failure r hf => h.failure failure hf r)
    (fun object cls args taken site fs hframes => hwaiting _ fs (object, cls) hframes rfl) hnew
  refine ⟨⟨fun f hf => ?_, (Signal.inside_iff hhost).mpr hstep.signal, fun f hf => ?_⟩,
    hstep.machine.heap⟩
  · exact (Frame.inside_iff hhost).mpr (hstep.machine.frames f hf)
  · exact (Failure.covers_inside R).cause (hreached.cause hf) fun g =>
      h.failure_of_meets hhost houtcomes

end Machine.Inside

/-! ## Objects that wait -/

namespace Machine

variable {s : Setting} {w : World} {m m' : Machine} {env : Env} {goal : Shape} {base : Nat}
  {f : Frame} {fs : List Frame}

/-- The objects that wait for their parent objects in the frames of a machine, with their
classes. -/
def waiting (m : Machine) : List (ObjectRef × Class) :=
  m.frames.filterMap Frame.waiting?

def pending (m : Machine) : List ObjectRef :=
  m.waiting.map Prod.fst

theorem mem_waiting {object : ObjectRef} {cls : Class} {args : List Value} {taken : Nat}
    {site : Option Location} (h : .adopt object cls args taken site ∈ m.frames) :
    (object, cls) ∈ m.waiting :=
  List.mem_filterMap.mpr ⟨_, h, rfl⟩

theorem waiting_evaluates {f : Frame} {e : Expression} {gs : List Frame} {sig : Signal}
    (hf : f.waiting? = none) (h : Evaluates f e gs sig) : gs.filterMap Frame.waiting? = [] := by
  cases h with
  | begun => rw [List.filterMap_cons_none rfl, List.filterMap_cons_none hf, List.filterMap_nil]
  | refused => rfl

theorem waiting_chooses {otherwise : Option Body} {branches : List Branch} {gs : List Frame}
    {sig : Signal} (h : Chooses otherwise branches gs sig) :
    gs.filterMap Frame.waiting? = [] := by
  cases h with
  | tests htest => exact waiting_evaluates rfl htest
  | otherwise => rfl
  | nothing => rfl

theorem waiting_begins {stmt : Statement} {gs : List Frame} {sig : Signal}
    (h : Begins stmt gs sig) : gs.filterMap Frame.waiting? = [] := by
  cases h with
  | @evaluates _ f e _ _ hwaiting he =>
      refine waiting_evaluates ?_ he
      cases stmt with
      | returnWith e => cases e <;> cases hwaiting; rfl
      | choose => cases hwaiting
      | attempt => cases hwaiting
      | exclusive => cases hwaiting
      | breakOut => cases hwaiting
      | continueOn => cases hwaiting
      | _ => cases hwaiting; rfl
  | chooses hchooses => exact waiting_chooses hchooses
  | attempts => rfl
  | excludes => rfl
  | leaves => rfl

theorem waiting_supplies {limit depth : Nat} {c : Call} {params : List Param} {gs : List Frame}
    {sig : Signal} (h : Supplies limit depth c params gs sig) :
    gs.filterMap Frame.waiting? = [] := by
  cases h <;> rfl

theorem waiting_initialises {cls : Class} {site : Option Location} {gs : List Frame}
    {sig : Signal} (h : Initialises cls site gs sig) : gs.filterMap Frame.waiting? = [] := by
  cases h <;> rfl

/-- What takes the place of a frame has no waiting object in it, unless it is the frame itself, or a
class that has a parent begins to be constructed. -/
theorem waiting_becomes {limit depth : Nat} {sig sig' : Signal} {st : Step} {gs : List Frame}
    (h : f.Becomes limit depth sig st gs sig') :
    gs.filterMap Frame.waiting? = [] ∨ gs = [f] ∧ (sig = .run ∨ ∃ e, sig = .leave e) ∨
      sig = .run ∧ gs ≠ [] ∧ ∃ cls parent args site, f = .construct cls args site ∧
        cls.parent? = some parent := by
  cases h with
  | ends => exact Or.inl rfl
  | waits => exact Or.inr (Or.inl ⟨rfl, Or.inl rfl⟩)
  | stops => exact Or.inr (Or.inl ⟨rfl, Or.inr ⟨_, rfl⟩⟩)
  | begins h => exact Or.inl (by simp [waiting_begins h, Frame.waiting?])
  | retests h => exact Or.inl (waiting_evaluates rfl h)
  | binds _ _ h => exact Or.inl (waiting_supplies h)
  | initialises h => exact Or.inl (waiting_initialises h)
  | descends hparent => exact Or.inr (Or.inr ⟨rfl, List.cons_ne_nil _ _, _, _, _, _, rfl, hparent⟩)
  | rejects h => exact Or.inl (waiting_chooses h)
  | bounds h => exact Or.inl (waiting_evaluates rfl h)
  | supplies _ _ h => exact Or.inl (waiting_supplies h)
  | adopts h => exact Or.inl (waiting_initialises h)
  | _ => exact Or.inl rfl

/-- An object that is made for a class with a parent is put away until the parent object is
there. -/
theorem waiting_step_of_putsAway (hputs : m.PutsAway) :
    ∃ cls, cls.Inherits ∧ (m.step s w).machine.waiting = (w.heap.objects.size, cls) :: m.waiting ∧
      (m.step s w).world.heap.object w.heap.objects.size = ⟨cls, [], none⟩ ∧
      w.heap.objects.size < (m.step s w).world.heap.objects.size := by
  obtain ⟨hsignal, cls, parent, args, site, fs, hframes, hbuiltin, hparent⟩ := hputs
  obtain ⟨frames, signal, scopes, depth⟩ := m
  obtain rfl : frames = _ := hframes
  obtain rfl : signal = .run := hsignal
  refine ⟨cls, ⟨hbuiltin, ?_⟩, ?_⟩
  · rw [hparent]
    exact Option.some_ne_none _
  · simp only [step, resumeFrame, construct, hbuiltin, hparent]
    refine ⟨rfl, ?_, ?_⟩
    · exact (Heap.object_newObject w.heap cls _).trans (if_pos rfl)
    · simp [Heap.newObject, next]

/-- Otherwise a step puts no object away. That of the frame on top is no longer kept, unless the
machine is on its way out. -/
theorem waiting_step (horder : m.InOrder goal base env) (hframes : m.frames = f :: fs)
    (hcrash : ∀ message, (m.step s w).step ≠ .crash message) (hputs : ¬ m.PutsAway) :
    (m.step s w).machine.waiting = fs.filterMap Frame.waiting? ∨
      (m.step s w).machine.waiting = m.waiting ∧ ∃ e, m.signal = .leave e := by
  obtain ⟨gs, hgs, hbecomes⟩ := horder.becomes hframes hcrash
  have hwaiting : (m.step s w).machine.waiting =
      gs.filterMap Frame.waiting? ++ fs.filterMap Frame.waiting? := by
    rw [waiting, hgs, List.filterMap_append]
  rcases waiting_becomes hbecomes with hnone | ⟨rfl, hsignal⟩ |
    ⟨hsignal, hne, cls, parent, args, site, rfl, hparent⟩
  · rw [hwaiting, hnone]
    exact Or.inl rfl
  · have hsame : (m.step s w).machine.waiting = m.waiting := by
      rw [waiting, hgs, waiting, hframes]
      rfl
    rcases hsignal with hsignal | hleave
    · -- A frame that goes on by itself keeps no object.
      have hgoes := horder.2
      rw [hsignal, hframes] at hgoes
      have hnone : f.waiting? = none := by
        have hgoes := hgoes.1
        cases f <;> first | rfl | contradiction
      rw [hsame, waiting, hframes, List.filterMap_cons_none hnone]
      exact Or.inl rfl
    · exact Or.inr ⟨hsame, hleave⟩
  · -- Only a built-in class is left, and this is made at once.
    exfalso
    cases hbuiltin : cls.own.builtin with
    | none => exact hputs ⟨hsignal, cls, parent, args, site, fs, hframes, hbuiltin, hparent⟩
    | some k =>
        refine hne (List.append_left_eq_self.mp (hgs.symm.trans ?_))
        obtain ⟨frames, signal, scopes, depth⟩ := m
        obtain rfl : frames = _ := hframes
        obtain rfl : signal = .run := hsignal
        simp only [step, resumeFrame, construct, hbuiltin]
        split <;> rfl

theorem waiting_step_sublist (horder : m.InOrder goal base env)
    (hcrash : ∀ message, (m.step s w).step ≠ .crash message) (hputs : ¬ m.PutsAway) :
    (m.step s w).machine.waiting.Sublist m.waiting := by
  cases hframes : m.frames with
  | nil =>
      rw [step_of_frames_nil hframes]
  | cons f fs =>
      rcases waiting_step horder hframes hcrash hputs with htail | ⟨hsame, -⟩
      · rw [htail, waiting, hframes]
        exact (List.sublist_cons_self f fs).filterMap _
      · rw [hsame]

end Machine

end Statute
