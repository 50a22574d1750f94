import Statute.Proofs.Concurrency.Following
import Statute.Proofs.Machine.Construction

/-!
# Construction along a line of classes

An object is constructed together with the objects of the classes that its class inherits from. Each
of these gets its parent object at the moment at which the construction of the parent has ended, and
not before: until then nobody else knows of it. So it has no fields of its own when it takes over
those of its parent, and shares the boxes of all of them from then on, whatever happens.
-/

namespace Statute

/-- A field of two objects is one and the same: both hold the same, and what is stored into it
through either of them is found through the other. -/
structure Heap.Joins (h : Heap) (r r' : ObjectRef) (name : String) : Prop where
  same : ∃ v, h.fieldValue? r name = some v ∧ h.fieldValue? r' name = some v
  down : ∀ v, (h.setField r' name v).fieldValue? r name = some v
  up : ∀ v, (h.setField r name v).fieldValue? r' name = some v

theorem Heap.joins_of_field? {h : Heap} {r r' : ObjectRef} {name : String} {b : BoxRef}
    (hboxed : h.Boxed) (hr : h.field? r name = some b) (hr' : h.field? r' name = some b) :
    h.Joins r r' name where
  same := ⟨h.box b, by rw [fieldValue?, hr]; rfl, by rw [fieldValue?, hr']; rfl⟩
  down := fieldValue?_setField hboxed hr' hr
  up := fieldValue?_setField hboxed hr hr'

namespace Moment

variable {s : Setting} {ts us : List Moment} {h : Heap} {t : Moment}

theorem Traced.sublist (htraced : Traced s ts h) (hsub : us.Sublist ts) : Traced s us h where
  minds t ht := htraced.minds t (hsub.subset ht)
  later t ht := htraced.later t (hsub.subset ht)
  order := htraced.order.sublist hsub

/-- The step hands its parent object to an object that waits for it. From now on it has all the
fields of its parent object, and its own constructor starts. -/
structure Adopts (s : Setting) (site : Option Location) (t : Moment) (p : Part)
    (parent : ObjectRef) : Prop where
  handed : t.machine.signal = .value (.object parent)
  waiting : ∃ gs, t.machine.frames = .adopt p.object p.cls p.args p.taken site :: gs
  starts : ∀ c, p.ctorCall? site = some c →
    (t.after s).signal = .run ∧ ∃ gs, (t.after s).frames = c.frame :: .finish p.object :: gs
  shares : (t.left s).Shares p.object parent

end Moment

namespace Machine

variable {s : Setting} {site : Option Location} {b : Base} {p : Part} {cls : Class}
  {args : List Value} {ts : List Moment} {parts : List Part} {log : List (Call × Machine)}
  {res : Headway} {h : Heap} {w : World} {r : ObjectRef}

theorem heap_initialise (w : World) (m : Machine) (object : ObjectRef) (cls : Class)
    (args : List Value) (taken : Nat) (site : Option Location) :
    (m.initialise w object cls args taken site).world = w := by
  unfold initialise
  split
  · rfl
  · split <;> rfl

/-- An object that waits for its parent object is as it was made when it gets it. -/
theorem Minds.blank_adopting {signal : Signal}
    (hm : ((b.adopting p site).answering signal).Minds s h) :
    h.object p.object = ⟨p.cls, [], none⟩ ∧ p.object < h.objects.size := by
  have hwaiting : (p.object, p.cls) ∈ ((b.adopting p site).answering signal).waiting :=
    mem_waiting List.mem_cons_self
  exact ⟨(hm.blank _ hwaiting).2, hm.there _ (mem_pending.mpr ⟨_, hwaiting, rfl⟩)⟩

theorem left_adopting (w : World) (b : Base) (p : Part) (r : ObjectRef) :
    Moment.left s ⟨w, (b.adopting p site).answering (.value (.object r))⟩ =
      w.heap.adopt p.object r :=
  congrArg World.heap (heap_initialise _ _ _ _ _ _ _)

theorem adopts_of_minds
    (hm : ((b.adopting p site).answering (.value (.object r))).Minds s w.heap)
    (hbuiltin : p.cls.own.builtin = none) :
    Moment.Adopts s site ⟨w, (b.adopting p site).answering (.value (.object r))⟩ p r := by
  refine ⟨rfl, ⟨b.frames, rfl⟩, fun c hc => ?_, ?_⟩
  · rw [Part.ctorCall?_of_user hbuiltin, Option.map_eq_some_iff] at hc
    obtain ⟨q, hctor, rfl⟩ := hc
    have hafter : Moment.after s ⟨w, (b.adopting p site).answering (.value (.object r))⟩ =
        ((p.call q site).begun (b.finishing p)) := by
      change ((b.answering .run).initialise _ p.object p.cls p.args p.taken site).machine = _
      simp only [initialise, hctor]
      rfl
    rw [hafter]
    exact ⟨rfl, b.frames, rfl⟩
  · obtain ⟨hobject, hsize⟩ := hm.blank_adopting
    rw [left_adopting]
    refine Heap.shares_adopt hsize (by rw [hobject]) ?_
    rintro rfl
    have hknown := hm.inside.signal
    exact hknown.2 (mem_pending.mpr ⟨_, mem_waiting List.mem_cons_self, rfl⟩)

/-- From this step on the object has its parent object. -/
theorem parent_of_adopting
    (hm : ((b.adopting p site).answering (.value (.object r))).Minds s w.heap)
    (hlater : (Moment.left s ⟨w, (b.adopting p site).answering (.value (.object r))⟩).Evolves
      (fun _ => True) h) :
    (h.object p.object).parent = some r := by
  obtain ⟨hobject, hsize⟩ := hm.blank_adopting
  rw [left_adopting] at hlater
  refine hlater.parent _ _ ?_
  rw [Heap.object_adopt hsize, if_pos rfl, hobject]
  rfl

end Machine

theorem Class.not_inherits_of_builtin {c : Class} {k : ErrorKind}
    (hbuiltin : c.own.builtin = some k) : ¬ c.Inherits := by
  rintro ⟨hnone, -⟩
  rw [hbuiltin] at hnone
  contradiction

namespace Heap

variable {h h' : Heap} {r : ObjectRef} {cls : Class} {R : Region}

/-- An object of a class, without a parent object. -/
structure Made (h : Heap) (r : ObjectRef) (cls : Class) : Prop where
  there : r < h.objects.size
  cls : (h.object r).cls = cls
  parent : (h.object r).parent = none

theorem Made.cls_evolves (hmade : h.Made r cls) (hevolves : h.Evolves R h') :
    (h'.object r).cls = cls :=
  (hevolves.grows.cls r hmade.there).trans hmade.cls

/-- An object of a class that does not inherit goes on to be without a parent object. -/
theorem Made.evolves (hmade : h.Made r cls) (hcls : ¬ cls.Inherits) (hevolves : h.Evolves R h') :
    h'.Made r cls where
  there := hmade.there.trans_le hevolves.grows.size
  cls := hmade.cls_evolves hevolves
  parent := hevolves.orphans r hmade.there (by rwa [hmade.cls]) hmade.parent

theorem made_newObject (h : Heap) (cls : Class) :
    (h.newObject cls).1.Made h.objects.size cls := by
  have hobject : (h.newObject cls).1.object h.objects.size = ⟨cls, [], none⟩ := by
    rw [object_newObject, if_pos rfl]
  exact ⟨by simp [newObject], by rw [hobject], by rw [hobject]⟩

theorem made_newError (h : Heap) {k : ErrorKind} (hbuiltin : cls.own.builtin = some k)
    (message : String) : (h.newError cls message).1.Made h.objects.size cls :=
  (made_newObject h cls).evolves (Class.not_inherits_of_builtin hbuiltin)
    (.setField (R := fun _ => True) trivial _ "message" (.text message))

end Heap

namespace Machine

variable {s : Setting} {cls : Class} {args : List Value}

/-- The step that begins to construct an object makes it. -/
theorem made_constructing (w : World) (b : Base) (hbuiltin : cls.own.builtin = none)
    (args : List Value) (site : Option Location) :
    (Moment.left s ⟨w, b.constructing cls args site⟩).Made w.heap.objects.size cls := by
  change ((b.answering .run).construct w cls args site).world.heap.Made _ cls
  cases hparent : cls.parent? with
  | none =>
      simp only [construct, hbuiltin, hparent, heap_initialise]
      exact Heap.made_newObject w.heap cls
  | some parent =>
      simp only [construct, hbuiltin, hparent]
      exact Heap.made_newObject w.heap cls

theorem made_constructing_of_builtin (w : World) (b : Base) {k : ErrorKind}
    (hbuiltin : cls.own.builtin = some k) (hcount : args.length ≤ 1) (site : Option Location) :
    (Moment.left s ⟨w, b.constructing cls args site⟩).Made w.heap.objects.size cls := by
  change ((b.answering .run).construct w cls args site).world.heap.Made _ cls
  simp only [construct, hbuiltin, if_neg (Nat.not_lt_of_le hcount)]
  exact Heap.made_newError w.heap hbuiltin _

end Machine

theorem Moment.Traced.evolves {s : Setting} {ts : List Moment} {h h' : Heap}
    (htraced : Traced s ts h) (hevolves : h.Evolves (fun _ => True) h') : Traced s ts h' :=
  { htraced with later := fun t ht => (htraced.later t ht).trans hevolves }

namespace Construction

/-- How the construction of an object of a class goes, given the moments, the objects made, the
calls of constructors, and the heap that is there now. -/
structure InLine (s : Setting) (site : Option Location) (cls : Class) (args : List Value)
    (ts : List Moment) (parts : List Part) (log : List (Call × Machine)) (h : Heap) : Prop where
  /-- One after the other the steps begin to construct the classes of the line, each with the
  leading arguments that it is given. -/
  steps : ∀ (i : Nat) (t : Moment) (c : Class), ts[i]? = some t → cls.line[i]? = some c →
    t.machine.signal = .run ∧
      ∃ gs, t.machine.frames = .construct c (args.take (cls.given args.length i)) site :: gs
  /-- Each object is one of its class, with the arguments that this was given. -/
  instances : ∀ (i : Nat) (p : Part), parts[i]? = some p → cls.line[i]? = some p.cls ∧
    p.args = args.take (cls.given args.length i) ∧ (h.object p.object).cls = p.cls
  distinct : (parts.map Part.object).Pairwise (· < ·)
  /-- Constructors are called from the oldest class on, each for the object of its own class. -/
  calls : log.map Prod.fst <+: Part.ctorCalls site parts

/-- All the objects have been made, and all the constructors have come to an end. -/
structure Complete (site : Option Location) (cls : Class) (parts : List Part)
    (log : List (Call × Machine)) : Prop where
  line : parts.map Part.cls = cls.line
  calls : log.map Prod.fst = Part.ctorCalls site parts
  returned : ∀ e ∈ log, e.2.Returned

/-- Every object is one of its class, has the object of the next class as its parent object, and
shares with it the fields that this had when its own constructor started. -/
structure Joined (s : Setting) (site : Option Location) (ts : List Moment) (parts : List Part)
    (h : Heap) : Prop where
  chain : ∀ (i : Nat) (p : Part), parts[i]? = some p → (h.object p.object).cls = p.cls ∧
    (h.object p.object).parent = parts[i + 1]?.map Part.object
  fields : ∀ (i : Nat) (p q : Part), parts[i]? = some p → parts[i + 1]? = some q →
    ∃ t ∈ ts, t.Adopts s site p q.object ∧
      ∀ name box, (t.left s).field? q.object name = some box → h.Joins p.object q.object name

end Construction

namespace Machine.Constructs

variable {s : Setting} {site : Option Location} {b : Base} {p q : Part} {cls : Class}
  {args : List Value} {ts : List Moment} {parts : List Part} {log : List (Call × Machine)}
  {res : Headway} {h : Heap} {v : Value} {i : Nat} {m' : Machine}

/-- The objects are made one after the other, so they are all different. -/
theorem increasing (hconstructs : Constructs s site b cls args ts parts log res)
    (htraced : Moment.Traced s ts h) : (parts.map Part.object).Pairwise (· < ·) := by
  induction hconstructs with
  | begins => exact .nil
  | overfills => exact .nil
  | builtin => exact List.pairwise_singleton _ _
  | root => exact List.pairwise_singleton _ _
  | @inherits b cls parent args w ts us parts log log' res res' hbuiltin _ hdeeper _ ih =>
      have hsub : ts.Sublist (⟨w, b.constructing cls args site⟩ :: (ts ++ us)) :=
        (List.sublist_append_left ts us).cons _
      refine List.pairwise_cons.mpr ⟨fun r hr => ?_, ih (htraced.sublist hsub)⟩
      obtain ⟨q, hq, rfl⟩ := List.mem_map.mp hr
      obtain ⟨i, hi⟩ := List.mem_iff_getElem?.mp hq
      obtain ⟨t, ht, hobject, -⟩ := hdeeper.parts_getElem? hi
      have hlater := (List.pairwise_cons.mp htraced.order).1 t
        (List.mem_append_left us (List.mem_of_getElem? ht))
      rw [hobject]
      exact (made_constructing w b hbuiltin args site).there.trans_le
        hlater.grows.size

/-- Every object is one of its class. -/
theorem cls_object (hconstructs : Constructs s site b cls args ts parts log res)
    (htraced : Moment.Traced s ts h) : ∀ p ∈ parts, (h.object p.object).cls = p.cls := by
  induction hconstructs with
  | begins => exact List.forall_mem_nil _
  | overfills => exact List.forall_mem_nil _
  | @builtin b cls args k hbuiltin hcount w =>
      refine List.forall_mem_singleton.mpr ?_
      exact (made_constructing_of_builtin w b hbuiltin hcount site).cls_evolves
        (htraced.later _ (.head _))
  | @root b cls args w ts log res hbuiltin =>
      refine List.forall_mem_singleton.mpr ?_
      exact (made_constructing w b hbuiltin args site).cls_evolves
        (htraced.later _ (.head _))
  | @inherits b cls parent args w ts us parts log log' res res' hbuiltin _ hdeeper hthen ih =>
      have hdeep := htraced.sublist ((List.sublist_append_left ts us).cons _)
      refine List.forall_mem_cons.mpr ⟨?_, ih hdeep⟩
      exact (made_constructing w b hbuiltin args site).cls_evolves
        (htraced.later _ (.head _))

/-- On success every object but the last one has been handed the one of the next class. -/
theorem exists_handed (hconstructs : Constructs s site b cls args ts parts log (.ended (.value v)))
    (hp : parts[i]? = some p) (hq : parts[i + 1]? = some q) :
    p.cls.own.builtin = none ∧ ∃ w b',
      ⟨w, (Base.adopting b' p site).answering (.value (.object q.object))⟩ ∈ ts := by
  generalize hres : Headway.ended (.value v) = res at hconstructs
  induction hconstructs generalizing v i with
  | begins => simp at hp
  | overfills => simp at hp
  | builtin => simp at hq
  | root => simp at hq
  | @inherits b cls parent args w ts us parts log log' res res' hbuiltin _ hdeeper hthen ih =>
      subst hres
      cases hthen with
      | @adopts r us _ _ w₁ hruns =>
          cases i with
          | zero =>
              obtain rfl := Option.some.inj hp
              rcases hdeeper.answer with ⟨q', rest, rfl, hr⟩ | ⟨f, hf⟩
              · obtain rfl := Option.some.inj hq
                obtain rfl := Value.object.inj (Signal.value.inj hr)
                exact ⟨hbuiltin, w₁, b, .tail _ (List.mem_append_right _ (.head _))⟩
              · contradiction
          | succ i =>
              obtain ⟨hbuiltin', w₂, b', hmem⟩ := ih hp hq rfl
              exact ⟨hbuiltin', w₂, b', .tail _ (List.mem_append_left _ hmem)⟩

/-- The last object is one of a class that does not inherit, so it never gets a parent object. -/
theorem parent_of_last (hconstructs : Constructs s site b cls args ts parts log (.ended (.value v)))
    (htraced : Moment.Traced s ts h) (hp : parts[i]? = some p) (hlast : parts[i + 1]? = none) :
    (h.object p.object).parent = none := by
  generalize hres : Headway.ended (.value v) = res at hconstructs
  induction hconstructs generalizing v i with
  | begins => simp at hp
  | overfills => simp at hp
  | @builtin b cls args k hbuiltin hcount w =>
      obtain rfl := List.mem_singleton.mp (List.mem_of_getElem? hp)
      exact ((made_constructing_of_builtin w b hbuiltin hcount site).evolves
        (Class.not_inherits_of_builtin hbuiltin) (htraced.later _ (.head _))).parent
  | @root b cls args w ts log res hbuiltin hparent hruns =>
      obtain rfl := List.mem_singleton.mp (List.mem_of_getElem? hp)
      exact ((made_constructing w b hbuiltin args site).evolves (fun h => h.2 hparent)
        (htraced.later _ (.head _))).parent
  | @inherits b cls parent args w ts us parts log log' res res' hbuiltin _ hdeeper hthen ih =>
      subst hres
      cases hthen with
      | adopts w₁ hruns =>
          cases i with
          | zero =>
              rcases hdeeper.answer with ⟨q, rest, rfl, -⟩ | ⟨f, hf⟩
              · simp at hlast
              · contradiction
          | succ i =>
              have hdeep := htraced.sublist ((List.sublist_append_left ts _).cons _)
              exact ih hdeep hp hlast rfl

theorem inLine (hconstructs : Constructs s site b cls args ts parts log res)
    (htraced : Moment.Traced s ts h) : Construction.InLine s site cls args ts parts log h where
  steps _ _ _ ht hc := hconstructs.step_getElem? ht hc
  instances i p hp := by
    obtain ⟨t, -, -, hline, hargs⟩ := hconstructs.parts_getElem? hp
    exact ⟨hline, hargs, hconstructs.cls_object htraced p (List.mem_of_getElem? hp)⟩
  distinct := hconstructs.increasing htraced
  calls := hconstructs.calls_prefix

theorem joined (hconstructs : Constructs s site b cls args ts parts log (.ended (.value v)))
    (htraced : Moment.Traced s ts h) (hboxed : h.Boxed) :
    Construction.Joined s site ts parts h where
  chain i p hp := by
    refine ⟨hconstructs.cls_object htraced p (List.mem_of_getElem? hp), ?_⟩
    cases hq : parts[i + 1]? with
    | none => exact hconstructs.parent_of_last htraced hp hq
    | some q =>
        obtain ⟨-, w, b', hmem⟩ := hconstructs.exists_handed hp hq
        exact parent_of_adopting (htraced.minds _ hmem) (htraced.later _ hmem)
  fields i p q hp hq := by
    obtain ⟨hbuiltin, w, b', hmem⟩ := hconstructs.exists_handed hp hq
    have hadopts := adopts_of_minds (htraced.minds _ hmem) hbuiltin
    refine ⟨_, hmem, hadopts, fun name box hbox => ?_⟩
    have hkept := (htraced.later _ hmem).fields
    exact Heap.joins_of_field? hboxed (hkept _ _ _ (hadopts.shares name box hbox))
      (hkept _ _ _ hbox)

/-- Up to the end of a construction the history of a machine goes as this says. -/
theorem exists_of_passes (hpasses : (b.constructing cls args site).Passes s ts m')
    (habove : ∀ t ∈ ts, b.frames.length < t.machine.frames.length) :
    ∃ parts log res, m' = Headway.machine b res ∧
      Constructs s site b cls args ts parts log res := by
  rcases does hpasses with ⟨parts, log, hgoing⟩ |
    ⟨us, vs, signal, rfl, ⟨parts, log, hended⟩, hvs⟩
  · exact ⟨parts, log, _, rfl, hgoing⟩
  · cases hvs with
    | stay =>
        rw [List.append_nil]
        exact ⟨parts, log, _, rfl, hended⟩
    | go =>
        have hlt := habove _ (List.mem_append_right us (.head _))
        exact absurd hlt (Nat.lt_irrefl _)

end Machine.Constructs

/-! ## Runs -/

theorem Heap.stores_no_object : Stores (fun h => h.objects = #[]) fun _ => True where
  scalar _ _ := trivial
  list _ _ := trivial
  record _ := trivial
  newRecord _ _ hobjects _ := hobjects
  locks _ _ hobjects := hobjects

theorem Session.boxed_load {config : Config} {host : Host} {extensions : List Extension}
    {file : String} {source : Source} {session : Session}
    (hload : load config host extensions file source = .ok session) :
    session.world.heap.Boxed := by
  obtain ⟨⟨heap, registry⟩, hbuild, hsession⟩ := exists_of_bind_eq_ok hload
  obtain rfl := Except.ok.inj hsession
  have hobjects : heap.objects = #[] := Heap.stores_no_object.build rfl hbuild
  intro r name b hb
  rw [Heap.field?_eq_none (by simp [hobjects])] at hb
  contradiction

/-- A machine constructs an object of a class, in any run of a program, with any number of arguments
and with anything going on around it. Each class of the line is constructed with as many leading
arguments as it and all the classes before it but the first take. Constructors run from the oldest
class of the line to the class itself, each on the object of its own class. If no call of a
constructor that accepts its arguments fails, because of its body, of a default or of the limit of
calls, then the construction fails exactly if there are more arguments than the class takes, or if
the constructor of a class of the line requires more than it is given; and this is then a failure
about the number of arguments. If the construction succeeds, it comes to an object of the class with
a chain of parent objects of the classes of the line. Each of them has all the fields of its parent
object when its own constructor starts, and from then on each of these fields is one and the same
for both.

The machine is followed from its beginning on, and to the end of the construction at most. The host
gives out nothing but what it is given. -/
theorem Session.construction_along_line {config : Config} {host : Host}
    {extensions : List Extension} {file : String} {source : Source} {session : Session}
    (hload : load config host extensions file source = .ok session)
    (hinside : ∀ R, host.Inside R) {σ₀ σ₁ σ σ' : System} {m₀ m' : Machine} {b : Base}
    {cls : Class} {args : List Value} {site : Option Location} {before ts : List Moment}
    (hruns : System.GoesOn session.setting ⟨session.world, []⟩ σ₀)
    (hspawns : System.Spawns session.setting σ₀ σ₁ m₀)
    (hreaches : System.Follows session.setting σ₁ m₀ before σ (b.constructing cls args site))
    (hfollows : System.Follows session.setting σ (b.constructing cls args site) ts σ' m')
    (habove : ∀ t ∈ ts, b.frames.length < t.machine.frames.length) :
    let s := session.setting
    ∃ parts log res, m' = Headway.machine b res ∧
      Machine.Constructs s site b cls args ts parts log res ∧
      Construction.InLine s site cls args ts parts log σ'.world.heap ∧
      ∀ signal, m' = b.answering signal → res = .ended signal ∧
        ((∀ e ∈ log, e.1.Accepted → e.2.Returned) →
          ((∃ f, signal = .leave (.failWith f)) ↔ cls.Misgiven args.length) ∧
            ∀ f, signal = .leave (.failWith f) → f.kind = .argumentCount) ∧
        ((∃ f, signal = .leave (.failWith f)) ∨
          (∃ p, parts.head? = some p ∧ signal = .value (.object p.object)) ∧
            Construction.Complete site cls parts log ∧
            ∀ us σ'' m'', System.Follows s σ' m' us σ'' m'' →
              Construction.Joined s site ts parts σ''.world.heap) := by
  intro s
  obtain ⟨rfl, -⟩ := bare_load hload
  obtain ⟨hgrounded, hevolves₀⟩ := (grounded_load hload).goesOn hinside hruns
  have hapart₁ := hspawns.apart hgrounded (hevolves₀.boxed (boxed_load hload))
  obtain ⟨hapart, -⟩ := hreaches.apart hinside hapart₁
  obtain ⟨hapart', -, htraced, -⟩ := hfollows.apart hinside hapart
  obtain ⟨parts, log, res, rfl, hconstructs⟩ :=
    Machine.Constructs.exists_of_passes hfollows.passes habove
  refine ⟨parts, log, res, rfl, hconstructs, hconstructs.inLine htraced, fun signal hsignal => ?_⟩
  obtain rfl : res = .ended signal := by
    cases res with
    | ended signal' => exact congrArg Headway.ended (congrArg Machine.signal hsignal)
    | going m =>
        have hlt := hconstructs.above
        rw [show m = b.answering signal from hsignal] at hlt
        exact absurd hlt (Nat.lt_irrefl _)
  refine ⟨rfl, hconstructs.fails_iff, ?_⟩
  rcases hconstructs.answer with ⟨p, rest, rfl, rfl⟩ | hfails
  · obtain ⟨hline, hcalls, hreturned⟩ := hconstructs.complete
    refine Or.inr ⟨⟨p, rfl, rfl⟩, ⟨hline, hcalls, hreturned⟩, fun us σ'' m'' hlater => ?_⟩
    obtain ⟨hapart'', hevolves, -⟩ := hlater.apart hinside hapart'
    exact hconstructs.joined (htraced.evolves hevolves) hapart''.boxed
  · exact Or.inl hfails

/-- A program that constructs an object of a class of errors. -/
def faulty : Source :=
  ⟨[], [⟨"Fault", some "Error", [], some ⟨"Fault", [⟨"text", none⟩, ⟨"code", none⟩],
      [.assign ⟨"this", some "code"⟩ ⟨["code"], default⟩]⟩⟩], [],
    [.perform ⟨["Fault", "(", "1", ",", "2", ")"], default⟩]⟩

/-- After six steps the construction begins, and twelve steps later it is over. -/
def faultBuilt : Bool :=
  match Session.load default Host.none [] "main" faulty with
  | .ok session =>
      match (Machine.ofBody World.globals session.setting.registry.main).course session.setting 6
        session.world with
      | (before, w, ⟨.construct cls args site :: fs, .run, scopes, depth⟩) =>
          match Machine.course session.setting 12 w
            ⟨.construct cls args site :: fs, .run, scopes, depth⟩ with
          | (ts, _, ⟨gs, .value _, _, _⟩) =>
              !before.any (Moment.breaks session.setting) &&
                !ts.any (Moment.breaks session.setting) &&
                ts.all (fun t => fs.length < t.machine.frames.length) &&
                gs.length = fs.length && args.length = 2 && cls.line.length = 2
          | _ => false
      | _ => false
  | _ => false

theorem exists_faultBuilt :
    ∃ session before w cls args site fs scopes depth ts w' gs v scopes' depth',
      Session.load default Host.none [] "main" faulty = .ok session ∧
      (Machine.ofBody World.globals session.setting.registry.main).course session.setting 6
        session.world = (before, w, ⟨.construct cls args site :: fs, .run, scopes, depth⟩) ∧
      Machine.course session.setting 12 w ⟨.construct cls args site :: fs, .run, scopes, depth⟩ =
        (ts, w', ⟨gs, .value v, scopes', depth'⟩) ∧
      before.any (Moment.breaks session.setting) = false ∧
      ts.any (Moment.breaks session.setting) = false ∧
      (∀ t ∈ ts, fs.length < t.machine.frames.length) ∧ gs.length = fs.length ∧
      args.length = 2 ∧ cls.line.length = 2 := by
  have hbuilt : faultBuilt = true := by decide +kernel
  unfold faultBuilt at hbuilt
  split at hbuilt
  · next hload =>
      split at hbuilt
      · next hbefore =>
          split at hbuilt
          · next hcourse =>
              simp only [Bool.and_eq_true, Bool.not_eq_true', decide_eq_true_eq, List.all_eq_true,
                and_assoc] at hbuilt
              exact ⟨_, _, _, _, _, _, _, _, _, _, _, _, _, _, _, hload, hbefore, hcourse, hbuilt⟩
          · contradiction
      · contradiction
  · contradiction

/-- The object of the class and the one of the built-in class above it are joined. -/
theorem Session.construction_along_line_fault :
    ∃ session σ σ' m' b cls args site ts parts log p,
      load default Host.none [] "main" faulty = .ok session ∧
      System.Follows session.setting σ (Base.constructing b cls args site) ts σ' m' ∧
      cls.line.length = 2 ∧ args.length = 2 ∧
      Machine.Constructs session.setting site b cls args ts parts log
        (.ended (.value (.object p.object))) ∧
      parts.head? = some p ∧ Construction.Complete site cls parts log ∧
      Construction.Joined session.setting site ts parts σ'.world.heap := by
  obtain ⟨session, before, w, cls, args, site, fs, scopes, depth, ts, w', gs, v, scopes', depth',
    hload, hbefore, hcourse, hcalm, hcalm', habove, hframes, hargs, hline⟩ := exists_faultBuilt
  let b : Base := ⟨fs, scopes, depth⟩
  let s := session.setting
  have hspawns : System.Spawns s ⟨session.world, []⟩ ⟨session.world, []⟩
      (Machine.ofBody World.globals s.registry.main) := by
    refine .outside (.body _ _) ⟨?_, trivial, fun f hf => ?_⟩
    · exact List.forall_mem_singleton.mpr trivial
    · contradiction
  have hreaches : System.Follows s ⟨session.world, []⟩ _ before ⟨w, []⟩
      (b.constructing cls args site) := .of_course hbefore hcalm
  have hfollows : System.Follows s ⟨w, []⟩ (b.constructing cls args site) ts ⟨w', []⟩
      ⟨gs, .value v, scopes', depth'⟩ := .of_course hcourse hcalm'
  obtain ⟨parts, log, res, hm', hconstructs, -, hended⟩ :=
    construction_along_line hload Host.inside_none .refl hspawns hreaches hfollows habove
  cases res with
  | going m =>
      obtain rfl : _ = m := hm'
      exact absurd hconstructs.above (Nat.not_lt_of_le (Nat.le_of_eq hframes))
  | ended signal =>
      obtain ⟨-, -, ⟨f, hf⟩ | ⟨⟨p, hp, rfl⟩, hcomplete, hjoined⟩⟩ := hended signal hm'
      · have hvalue : Signal.value v = signal := congrArg Machine.signal hm'
        rw [hf] at hvalue
        contradiction
      · exact ⟨session, _, _, _, b, cls, args, site, ts, parts, log, p, hload, hfollows, hline,
          hargs, hconstructs, hp, hcomplete, hjoined [] _ _ (.stay _ _)⟩

end Statute
