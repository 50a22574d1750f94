import Statute.Proofs.Concurrency.Allocation
import Statute.Proofs.Concurrency.Catching
import Statute.Proofs.Machine.Unwinding

/-!
# Throwing again what was caught

A handler that binds an error gets to see an object: the one that was thrown, or one that is made
for it and says the same. If the handler throws this object, what is raised is a failure of the same
kind, class and message, as long as the fields of the object hold what they held when it was thrown,
or made. For the message is the text of a field, and the text of a value that is stored in a field
does not depend on what else happens on the heap: it looks at classes and at records only.

So every handler further out deals with the new failure if and only if it would have dealt with the
old one.
-/

namespace Statute

open Relation (ReflTransGen)
open Value (areBare)

/-! ## Texts -/

namespace Heap

variable {R : Region} {h h' : Heap} {f g : Failure} {r : ObjectRef}

def Retains (h h' : Heap) (r : ObjectRef) : Prop :=
  ∀ name, h'.fieldValue? r name = h.fieldValue? r name

namespace Evolves

mutual

theorem textWith (hevolves : h.Evolves R h') (boxText boxText' : BoxRef → String) {v : Value}
    (hbare : v.isBare = true) (hv : v.Inside (h.known [])) :
    h'.textWith boxText' v = h.textWith boxText v := by
  cases v with
  | list items =>
      rw [Value.isBare_list] at hbare
      rw [Heap.textWith, Heap.textWith,
        textsWith hevolves boxText boxText' hbare (Value.inside_list.mp hv)]
  | object r => simp only [Heap.textWith, hevolves.grows.cls r hv.1]
  | method r p => simp only [Heap.textWith, hevolves.grows.cls r hv.1]
  | record r => simp only [Heap.textWith, record, hevolves.records]
  | field b => contradiction
  | deferred callee args => contradiction
  | _ => simp only [Heap.textWith]

theorem textsWith (hevolves : h.Evolves R h') (boxText boxText' : BoxRef → String)
    {vs : List Value} (hbare : areBare vs = true) (hvs : ∀ v ∈ vs, v.Inside (h.known [])) :
    h'.textsWith boxText' vs = h.textsWith boxText vs := by
  cases vs with
  | nil => rfl
  | cons v vs =>
      rw [Value.areBare_cons, Bool.and_eq_true] at hbare
      obtain ⟨hv, hvs⟩ := List.forall_mem_cons.mp hvs
      rw [Heap.textsWith, Heap.textsWith, textWith hevolves boxText boxText' hbare.1 hv,
        textsWith hevolves boxText boxText' hbare.2 hvs]

end

/-- The text of a bare value stays the same. -/
theorem text (hevolves : h.Evolves R h') {v : Value} (hbare : v.isBare = true)
    (hv : v.Inside (h.known [])) : h'.text v = h.text v :=
  hevolves.textWith _ _ hbare hv

/-- An object whose fields hold what they held is thrown as before. -/
theorem thrown (hevolves : h.Evolves R h') (hbare : h.Bare) (hinside : h.Inside (h.known []))
    (hr : r < h.objects.size) (hretains : h.Retains h' r) :
    h'.thrown (.object r) = h.thrown (.object r) := by
  have hmessage : h'.messageOf? r = h.messageOf? r := by
    have hfield := hretains "message"
    simp only [fieldValue?] at hfield
    rw [messageOf?, messageOf?]
    cases hbox : h.field? r "message" with
    | none =>
        rw [hbox, Option.map_none, Option.map_eq_none_iff] at hfield
        rw [hfield, Option.map_none, Option.map_none]
    | some b =>
        rw [hbox, Option.map_some, Option.map_eq_some_iff] at hfield
        obtain ⟨b', hbox', hvalue⟩ := hfield
        rw [hbox', Option.map_some, Option.map_some, hvalue,
          hevolves.text (hbare.boxes b) (hinside.boxes b)]
  have htext : h'.text (.object r) = h.text (.object r) := hevolves.text rfl ⟨hr, List.not_mem_nil⟩
  simp only [Heap.thrown, notThrowable, hevolves.grows.cls r hr, hmessage, htext]

end Evolves

end Heap

/-! ## Failures -/

/-- A failure says the same as another one, and it carries the given object. -/
structure Failure.Renews (g f : Failure) (r : ObjectRef) : Prop where
  kind : g.kind = f.kind
  className : g.className = f.className
  message : g.message = f.message
  payload : g.payload = some r

/-- Neither the place of a failure nor the calls that it has left matter. -/
theorem Failure.Renews.of_core {f g g' : Failure} {r : ObjectRef} (h : g.Renews f r)
    (hcore : g'.core = g.core) : g'.Renews f r := by
  obtain ⟨hkind, hname, hmessage, hobject⟩ : g'.kind = g.kind ∧ g'.className = g.className ∧
      g'.message = g.message ∧ g'.payload = g.payload := by
    simpa only [core, Prod.mk.injEq] using hcore
  exact ⟨hkind.trans h.kind, hname.trans h.className, hmessage.trans h.message,
    hobject.trans h.payload⟩

namespace Heap

variable {registry : Registry} {R : Region} {h h' : Heap} {f g : Failure} {r : ObjectRef}

/-- An object stands for a failure: it is of its class, and when it is thrown, the failure that is
raised says the same. -/
structure Conveys (h : Heap) (r : ObjectRef) (f : Failure) : Prop where
  allocated : r < h.objects.size
  renews : ∃ g, h.thrown (.object r) = .ok g ∧ g.Renews f r

theorem Conveys.evolves (hconveys : h.Conveys r f) (hevolves : h.Evolves R h') (hbare : h.Bare)
    (hinside : h.Inside (h.known [])) (hretains : h.Retains h' r) : h'.Conveys r f := by
  obtain ⟨hr, g, hthrown, hrenews⟩ := hconveys
  exact ⟨hr.trans_le hevolves.grows.size, g,
    (hevolves.thrown hbare hinside hr hretains).trans hthrown, hrenews⟩

/-- Whatever a handler is for, it deals with both failures or with none of them. -/
theorem catches_of_renews (hr : registry.Orderly) (hrenews : g.Renews f r)
    (hf : f.Regular registry h) (hclass : (h'.object r).cls = h.classOf registry f)
    (handler : String) : h'.catches handler g = h.catches handler f := by
  have hthrown : h'.thrownClass? g = some (h'.object r).cls := by
    rw [thrownClass?, hrenews.payload, Option.map_some]
  cases hpayload : f.payload with
  | some r' =>
      refine catches_congr handler hrenews.kind hrenews.className ?_
      rw [hthrown, hclass, classOf, thrownClass?, hpayload]
      rfl
  | none =>
      -- The class of the fresh object has no ancestors that its kind does not account for.
      have hknown := hr.enrols _ _ (Registry.class?_eq_some_iff.mp (hf.class? hpayload))
      have hancestors : (h.classOf registry f).isA handler = true →
          handler = f.className ∨ handler ∈ (Class.builtin f.kind).ancestry := by
        intro hisA
        rw [hf.className]
        exact hr.mem_ancestry_of_direct hknown hf.kind (hf.direct hpayload)
          (List.contains_iff_mem.mp hisA)
      rw [catches_eq, catches_eq, hthrown, hclass, hrenews.kind, hrenews.className,
        thrownClass?, hpayload, Option.map_none, Option.any_none, Option.any_some, Bool.or_false]
      cases hisA : (h.classOf registry f).isA handler with
      | false => rw [Bool.or_false]
      | true =>
          rcases hancestors hisA with heq | hmem
          · simp [heq]
          · rcases Class.mem_ancestry_builtin.mp hmem with heq | heq
            · simp [heq, ErrorKind.ofClassName?_className]
            · simp [heq]

end Heap

/-! ## Where thrown objects come from -/

namespace System

variable {s : Setting} {σ σ' σ₀ σ₁ σ₂ : System} {m : Machine} {f g : Failure} {r : ObjectRef}

/-- A machine throws an object, and the failure that is raised says what the given one says. -/
def Throws (s : Setting) (σ : System) (r : ObjectRef) (f : Failure) : Prop :=
  ∃ m ∈ σ.live, ∃ site fs g, m.signal = .value (.object r) ∧ m.frames = .act .raise site :: fs ∧
    (m.step s σ.world).machine.signal = .leave (.failWith g) ∧ f.core = g.core

/-- At some moment of the run the object that a failure carries was thrown. -/
def Thrown (s : Setting) (σ₀ σ : System) (f : Failure) : Prop :=
  ∀ r, f.payload = some r → ∃ σ₁, GoesOn s σ₀ σ₁ ∧ GoesOn s σ₁ σ ∧ σ₁.Throws s r f

theorem Throws.of_thrown {site : Location} {fs : List Frame} {v : Value} (hm : m ∈ σ.live)
    (hsignal : m.signal = .value v) (hframes : m.frames = .act .raise site :: fs)
    (hthrown : σ.world.heap.thrown v = .ok f) (hpayload : f.payload = some r) :
    σ.Throws s r f := by
  obtain rfl : v = .object r := by
    unfold Heap.thrown at hthrown
    split at hthrown
    · split at hthrown
      · obtain rfl := Except.ok.inj hthrown
        contradiction
      · contradiction
    · split at hthrown
      · obtain rfl := Except.ok.inj hthrown
        rw [Option.some.inj hpayload]
      · contradiction
    · contradiction
  obtain ⟨g, hleave, hg⟩ := Machine.signal_of_raise (s := s) (w := σ.world) hsignal hframes
  refine ⟨m, hm, site, fs, _, hsignal, hframes, hleave, ?_⟩
  rw [hthrown] at hg
  rcases hg with hg | hg
  · rw [Except.ok.inj hg]
    exact (Failure.core_atCall g (some site)).symm
  · contradiction

/-- Whatever object a failure of a run carries, it was thrown before. -/
theorem GoesOn.thrown
    (hhost : ∀ name args text f, s.host name args text = .failure f → f.payload = none)
    (htasks : σ₀.world.tasks = #[]) (hwork : σ₀.atWork = []) (hruns : GoesOn s σ₀ σ) :
    σ.Holds (fun _ => True) (Vouched s (Thrown s σ₀ σ))
      fun o => ∀ f, o = .error f → Thrown s σ₀ σ f := by
  induction hruns with
  | refl => exact .of_idle trivial htasks hwork
  | @tail σ σ' hbefore hmove ih =>
      have hlater : ∀ f, Thrown s σ₀ σ f → Thrown s σ₀ σ' f := by
        intro f hf r hr
        obtain ⟨σ₁, hfirst, hthen, hthrows⟩ := hf r hr
        exact ⟨σ₁, hfirst, hthen.tail hmove, hthrows⟩
      have hnothing : ∀ f : Failure, f.payload = none → Thrown s σ₀ σ' f := by
        intro f hf r hr
        rw [hf] at hr
        contradiction
      have hcovers : Covers (Thrown s σ₀ σ') := by
        refine ⟨fun f g hcore hg r hr => ?_, fun f hf _ => hnothing f hf.payload⟩
        have hpayload : f.payload = g.payload := (congrArg (fun c => c.2.2.2) hcore :)
        obtain ⟨σ₁, hfirst, hthen, m, hm, site, fs, k, hsignal, hframes, hleave, hk⟩ :=
          hg r (hpayload.symm.trans hr)
        exact ⟨σ₁, hfirst, hthen, m, hm, site, fs, k, hsignal, hframes, hleave, hcore.trans hk⟩
      refine Happens.holds hmove (keeps_known hcovers) ?_ (fun _ _ _ _ _ => trivial) ?_ ?_
      · rintro m ⟨hm, -⟩
        obtain ⟨env, hfresh⟩ := hm.fresh
        exact vouched_of_fresh hfresh
      · exact fun m hm => warned_of_host (fun _ _ _ f hf => hnothing f (hhost _ _ _ f hf))
          (fun f hf => hnothing f hf.payload) fun hsignal hframes hthrown r hr =>
            ⟨σ, hbefore, .single hmove, .of_thrown hm hsignal hframes hthrown hr⟩
      · exact ih.imp (fun m hm => ⟨hm.1, fun f hf => hlater f (hm.2 f hf)⟩)
          fun o ho f hf => hlater f (ho f hf)

/-- Since this moment the object that a handler gets to see for a failure has stood for it: it was
thrown then, or it was made then by the step that begins the handler. -/
inductive Stems (s : Setting) (σ₀ σ : System) (m : Machine) (f : Failure) (r : ObjectRef) :
    System → Prop
  | thrown {σ₁ : System} (hpayload : f.payload = some r) (hbefore : GoesOn s σ₀ σ₁)
      (hafter : GoesOn s σ₁ σ) (hthrows : σ₁.Throws s r f) : Stems s σ₀ σ m f r σ₁
  | made {σ₁ : System} (hpayload : f.payload = none) (hr : r = σ.world.heap.objects.size)
      (hmove : Proceeds s [] σ σ₁) (hheap : σ₁.world.heap = (m.step s σ.world).world.heap) :
      Stems s σ₀ σ m f r σ₁

/-- An object that was thrown stands for the failure that was raised. -/
theorem Throws.conveys (hσ : σ.Grounded s []) (hthrows : σ.Throws s r f)
    (hpayload : f.payload = some r) : σ.world.heap.Conveys r f := by
  obtain ⟨m, hm, site, fs, g, hsignal, hframes, hleave, hcore⟩ := hthrows
  have hr : r < σ.world.heap.objects.size := by
    have hinside := (hσ.of_live hm).inside.signal
    rw [hsignal] at hinside
    exact hinside.1
  obtain ⟨k, hleave', hthrown⟩ := Machine.signal_of_raise (s := s) (w := σ.world) hsignal hframes
  obtain rfl := Exit.failWith.inj (Signal.leave.inj (hleave.symm.trans hleave'))
  have hself : f.Renews f r := ⟨rfl, rfl, rfl, hpayload⟩
  have hrenews : k.Renews f r :=
    hself.of_core ((Failure.core_atCall k (some site)).symm.trans hcore.symm)
  rcases hthrown with hthrown | hthrown
  · exact ⟨hr, k, hthrown, hrenews⟩
  · have hnone := hrenews.payload
    rw [Heap.eq_notThrowable_of_thrown hthrown] at hnone
    contradiction

end System

/-- The object that is made for a failure stands for it. -/
theorem Heap.conveys_of_fresh {h : Heap} {r : ObjectRef} {f : Failure} {c : Class} {b : BoxRef}
    (hr : r < h.objects.size) (hobject : h.object r = ⟨c, [("message", b)], none⟩)
    (hbox : h.box b = .text f.message) (hname : f.className = c.name)
    (hkind : c.errorRoot = some f.kind) : h.Conveys r f := by
  have hmessage : h.messageOf? r = some f.message := by
    rw [messageOf?, field?, hobject, Bindings.get?_cons, if_pos rfl, Option.map_some, hbox, text,
      textWith]
  have hthrown : h.thrown (.object r) =
      .ok ⟨f.kind, c.name, f.message, some r, none, []⟩ := by
    simp only [thrown, hobject, hkind, hmessage]
    rfl
  exact ⟨hr, _, hthrown, rfl, hname.symm, rfl, rfl⟩

namespace System

variable {s : Setting} {σ σ₀ σ₁ σ₂ : System} {m : Machine} {f g : Failure} {r : ObjectRef}
  {handler : Handler} {fs : List Frame}

/-- What stands for a failure from some moment on does so at this moment. -/
theorem Stems.conveys (hstems : Stems s σ₀ σ m f r σ₁) (hσ₀ : σ₀.Grounded s [])
    (hhost : ∀ R, s.host.Inside R) (hf : f.Regular s.registry σ.world.heap)
    (hentered : Machine.Entered s.registry handler f fs σ.world m (m.step s σ.world)) :
    σ₁.world.heap.Conveys r f ∧
      (σ₁.world.heap.object r).cls = σ.world.heap.classOf s.registry f := by
  cases hstems with
  | thrown hpayload hbefore hafter hthrows =>
      have hconveys := hthrows.conveys (hσ₀.goesOn hhost hbefore).1 hpayload
      have hevolves := ((hσ₀.goesOn hhost hbefore).1.goesOn hhost hafter).2
      refine ⟨hconveys, ?_⟩
      rw [Heap.classOf, hpayload]
      exact (hevolves.grows.cls r hconveys.allocated).symm
  | made hpayload hr hmove hheap =>
      obtain ⟨heap, v, hshows, hworld⟩ := hentered.world
      rw [hworld] at hheap
      cases hshows with
      | thrown hpayload' =>
          rw [hpayload] at hpayload'
          contradiction
      | @fresh c _ hclass =>
          have hsame : σ.world.heap.classOf s.registry f = c :=
            Option.some.inj ((hf.errorClass? hpayload).symm.trans hclass)
          have hobject : σ₁.world.heap.object r =
              ⟨c, [("message", σ.world.heap.boxes.size)], none⟩ := by
            simp [hheap, hr, Heap.object]
          refine ⟨Heap.conveys_of_fresh ?_ hobject ?_ (hsame ▸ hf.className) (hsame ▸ hf.kind), ?_⟩
          · simp [hheap, hr]
          · simp [hheap, Heap.box]
          · rw [hobject, hsame]
      | bare _ hclass =>
          rw [hf.errorClass? hpayload] at hclass
          contradiction

/-- The step of a machine that goes on is one of the things that can happen. -/
theorem exists_step_of_live (hm : m ∈ σ.live)
    (hstep : ∀ w : World, w.heap = σ.world.heap → (m.step s w).step = .next ∧
      (m.step s w).world.heap = (m.step s σ.world).world.heap) :
    ∃ σ', Proceeds s [] σ σ' ∧ σ'.world.heap = (m.step s σ.world).world.heap := by
  obtain ⟨w, ms⟩ := σ
  rcases mem_live_iff.mp hm with hm | ⟨t, hm⟩
  · obtain ⟨before, after, rfl⟩ := List.append_of_mem hm
    refine ⟨_, .step before m after fun message => ?_, rfl⟩
    rw [(hstep w rfl).1]
    intro hcrash
    contradiction
  · refine ⟨_, .advance t, ?_⟩
    change (w.advance s 1 t).heap = _
    obtain ⟨hnext, hheap⟩ := hstep (w.setTask t { w.task t with machine := none }) rfl
    rcases World.advance_cases (s := s) hm with ⟨-, heq⟩ | ⟨hframes, -⟩ | ⟨message, hcrash, -⟩
    · rw [heq]
      exact hheap
    · rw [Machine.step_of_frames_nil hframes] at hnext
      contradiction
    · rw [hnext] at hcrash
      contradiction

end System

namespace Machine

variable {s : Setting} {w w' : World} {m : Machine} {f : Failure} {handlers : List Handler}
  {handler : Handler} {fs : List Frame} {name : String} {reply : Reply}

/-- What a handler is entered with depends on the heap alone. -/
theorem heap_step_of_handled (hframes : m.frames = .guard handlers :: fs)
    (hsignal : m.signal = .leave (.failWith f)) (hheap : w'.heap = w.heap) :
    (m.step s w').world.heap = (m.step s w).world.heap := by
  simp only [step, hframes, hsignal, unwind, Frame.call?, handle, hheap]
  split
  · exact hheap
  · rfl

/-- In the scope of a handler the name of the binding stands for the object. -/
theorem Entered.resolve? {registry : Registry}
    (hentered : Entered registry handler f fs w m reply) (hbinding : handler.binding = some name) :
    ∃ v, s.resolve? reply.world.heap reply.machine.scopes.current name = some v ∧
      ∃ heap, w.heap.Shows registry f heap v := by
  obtain ⟨heap, v, hshows, hworld⟩ := hentered.world
  refine ⟨v, ?_, heap, hshows⟩
  have hlocal : reply.world.heap.local? w.heap.scopes.size name = some v := by
    rw [hworld, Heap.local?, Heap.scope, Array.getD_eq_getD_getElem?, Array.getElem?_push_size,
      Option.getD_some, Handler.vars, hbinding, Bindings.get?_cons, if_pos rfl]
  have hcurrent : reply.machine.scopes.current = w.heap.scopes.size :: m.scopes.current := by
    rw [hentered.scopes]
    rfl
  rw [Setting.resolve?, Heap.lookup?, hcurrent, List.findSome?_cons, hlocal]
  rfl

end Machine

/-- When an object that stands for a failure is thrown, this failure is raised again. -/
theorem Heap.Conveys.raise {s : Setting} {w : World} {m : Machine} {f : Failure} {r : ObjectRef}
    {site : Location} {fs : List Frame} (hconveys : w.heap.Conveys r f)
    (hsignal : m.signal = .value (.object r)) (hframes : m.frames = .act .raise site :: fs) :
    ∃ g, (m.step s w).machine.signal = .leave (.failWith g) ∧ g.Renews f r := by
  obtain ⟨-, g, hthrown, hrenews⟩ := hconveys
  obtain ⟨k, hleave, hk⟩ := Machine.signal_of_raise (s := s) (w := w) hsignal hframes
  refine ⟨_, hleave, ?_⟩
  rw [hthrown] at hk
  rcases hk with hk | hk
  · rw [← Except.ok.inj hk]
    exact hrenews.of_core (Failure.core_atCall g (some site))
  · contradiction

/-- Catching an error and throwing it again changes nothing about it. Wherever in a run a failure
reaches a handler that deals with it and has a binding, the name stands in the handler for an object
that was thrown for this failure, or that is made for it now. As long as the fields of the object
hold what they held then, whoever throws the object raises a failure of the same kind, class and
message, which carries the object. From then on, whatever calls the new failure leaves, a handler
for any class deals with it if and only if it would have dealt with the old one.

The failures that the host makes up go by the name of a class of their kind that the program knows,
a built-in one or one that is declared right below; and the host gives out nothing but what it is
given. -/
theorem Session.rethrown_renews {config : Config} {host : Host} {extensions : List Extension}
    {file : String} {source : Source} {session : Session}
    (hload : load config host extensions file source = .ok session) (hbare : Host.Bare host)
    (hinside : ∀ R, host.Inside R)
    (hhost : ∀ name args text f, host name args text = .failure f →
      f.Native session.setting.registry) {σ : System}
    (hruns : System.GoesOn session.setting ⟨session.world, []⟩ σ) {m : Machine} (hm : m ∈ σ.live)
    {f : Failure} {handlers : List Handler} {handler : Handler} {fs : List Frame} {name : String}
    (hsignal : m.signal = .leave (.failWith f)) (hframes : m.frames = .guard handlers :: fs)
    (hfind : handlers.find? (fun k => σ.world.heap.catches k.className f) = some handler)
    (hbinding : handler.binding = some name) :
    let s := session.setting
    let caught := m.step s σ.world
    Machine.Entered s.registry handler f fs σ.world m caught ∧
      ∃ r, s.resolve? caught.world.heap caught.machine.scopes.current name = some (.object r) ∧
        (∃ σ₁, System.Stems s ⟨session.world, []⟩ σ m f r σ₁) ∧
        ∀ σ₁ σ₂, System.Stems s ⟨session.world, []⟩ σ m f r σ₁ → System.GoesOn s σ₁ σ₂ →
          σ₁.world.heap.Retains σ₂.world.heap r →
          ∀ m₂ ∈ σ₂.live, ∀ site fs₂, m₂.signal = .value (.object r) →
            m₂.frames = .act .raise site :: fs₂ →
            ∃ g, (m₂.step s σ₂.world).machine.signal = .leave (.failWith g) ∧ g.Renews f r ∧
              ∀ σ₃, System.GoesOn s σ₂ σ₃ → ∀ g' : Failure, g'.core = g.core → ∀ className,
                σ₃.world.heap.catches className g' = σ.world.heap.catches className f := by
  intro s caught
  have hr := orderly_load hload
  obtain ⟨rfl, hheap, htasks⟩ := bare_load hload
  have hloaded := grounded_load hload
  have hσ := hloaded.goesOn hinside hruns
  have hregular : f.Regular s.registry σ.world.heap :=
    ((hruns.runs.regular hr hhost (fun _ => Machine.Begun.fresh) htasks rfl).of_live hm).2 f hsignal
  have hentered : ∀ w : World, w.heap = σ.world.heap →
      Machine.Entered s.registry handler f fs w m (m.step s w) := by
    intro w hw
    refine Machine.step_of_handled hframes hsignal ?_
    rwa [Frame.handler?, hw]
  obtain ⟨v, hresolve, heap, hshows⟩ := (hentered σ.world rfl).resolve? (s := s) hbinding
  -- The registry has a class for the failure, so what is bound is an object.
  obtain ⟨r, rfl⟩ : ∃ r, v = .object r := by
    cases hshows with
    | thrown => exact ⟨_, rfl⟩
    | fresh => exact ⟨_, rfl⟩
    | bare hpayload hclass =>
        rw [hregular.errorClass? hpayload] at hclass
        contradiction
  refine ⟨hentered σ.world rfl, r, hresolve, ?_, ?_⟩
  · cases hshows with
    | thrown hpayload =>
        have hthrown := (System.GoesOn.thrown (fun name args text f hf =>
          (hhost name args text f hf).payload) htasks rfl hruns).of_live hm
        obtain ⟨σ₁, hbefore, hafter, hthrows⟩ := hthrown.2 f hsignal r hpayload
        exact ⟨σ₁, .thrown hpayload hbefore hafter hthrows⟩
    | fresh hpayload =>
        obtain ⟨σ₁, hmove, hheap₁⟩ := System.exists_step_of_live hm fun w hw =>
          ⟨(hentered w hw).step, Machine.heap_step_of_handled hframes hsignal hw⟩
        exact ⟨σ₁, .made hpayload rfl hmove hheap₁⟩
  intro σ₁ σ₂ hstems hthen hretains m₂ hm₂ site fs₂ hsignal₂ hframes₂
  have hruns₁ : System.GoesOn s ⟨session.world, []⟩ σ₁ := by
    cases hstems with
    | thrown _ hbefore => exact hbefore
    | made _ _ hmove => exact hruns.tail hmove
  have hσ₁ := (hloaded.goesOn hinside hruns₁).1
  have hbare₁ : σ₁.world.heap.Bare := (hruns₁.runs.confined hbare hheap htasks rfl).heap
  obtain ⟨hconveys, hclass⟩ := hstems.conveys hloaded hinside hregular (hentered σ.world rfl)
  obtain ⟨hσ₂, hevolves⟩ := hσ₁.goesOn hinside hthen
  have hconveys₂ := hconveys.evolves hevolves hbare₁ hσ₁.world.heap hretains
  obtain ⟨g, hleave, hrenews⟩ := hconveys₂.raise (s := s) hsignal₂ hframes₂
  refine ⟨g, hleave, hrenews, fun σ₃ hlater g' hcore className => ?_⟩
  have hgrows := (hevolves.trans (hσ₂.goesOn hinside hlater).2).grows
  refine Heap.catches_of_renews hr (hrenews.of_core hcore) hregular ?_ className
  exact (hgrows.cls r hconveys.allocated).trans hclass

/-- A quotient that there is not, and a handler that throws again what it has caught. -/
def rethrowing : Source :=
  ⟨[], [], [], [.attempt [.perform ⟨["1", "/", "0"], default⟩]
    [.mk "Error" (some "e") [.raise ⟨["e"], default⟩]]]⟩

/-- Whether the failure has reached the handler after seven steps of the program. -/
def quotientCaught : Bool :=
  match Session.load default Host.none [] "main" rethrowing with
  | .ok session =>
      match (Machine.ofBody World.globals session.setting.registry.main).run session.setting 7
        session.world with
      | ⟨.suspended, _, ⟨.guard [.mk "Error" (some "e") [.raise ⟨["e"], _⟩]] :: _,
          .leave (.failWith f), _, _⟩⟩ =>
          f.kind = .divisionByZero && f.payload.isNone
      | _ => false
  | _ => false

theorem exists_quotientCaught :
    ∃ session w l fs f scopes depth,
      Session.load default Host.none [] "main" rethrowing = .ok session ∧
      (Machine.ofBody World.globals session.setting.registry.main).run session.setting 7
        session.world = ⟨.suspended, w,
          ⟨.guard [.mk "Error" (some "e") [.raise ⟨["e"], l⟩]] :: fs, .leave (.failWith f), scopes,
            depth⟩⟩ ∧
      f.kind = .divisionByZero ∧ f.payload = none := by
  have hcaught : quotientCaught = true := by decide +kernel
  unfold quotientCaught at hcaught
  split at hcaught
  · next hload =>
      split at hcaught
      · next hrun =>
          simp only [Bool.and_eq_true, decide_eq_true_eq, Option.isNone_iff_eq_none] at hcaught
          exact ⟨_, _, _, _, _, _, _, hload, hrun, hcaught⟩
      · contradiction
  · contradiction

/-- A statement that throws the object of a name is about to do so after three steps. -/
theorem System.runs_raise {s : Setting} {Begun : Machine → Prop} {Given : Value → Prop} {w : World}
    {e : Expression} {name : String} {l : Location} {r : ObjectRef} {rest : Body} {own : Bool}
    {fs : List Frame} {scopes : ScopeStack} {depth : Nat}
    (hcompile : e.compile = .ok ⟨[.load name], l⟩)
    (hresolve : s.resolve? w.heap scopes.current name = some (.object r)) :
    Runs s Begun Given ⟨w, [⟨.body (.raise e :: rest) own false :: fs, .run, scopes, depth⟩]⟩
      ⟨w, [⟨.act .raise e.location :: .body rest own true :: fs, .value (.object r), scopes,
        depth⟩]⟩ := by
  have hstep : ∀ m m' : Machine, m.step s w = ⟨.next, w, m'⟩ →
      Happens s Begun Given ⟨w, [m]⟩ ⟨w, [m']⟩ := by
    intro m m' h
    have hmove : Happens s Begun Given ⟨w, [m]⟩ ⟨(m.step s w).world, [(m.step s w).machine]⟩ :=
      .step [] m [] fun message => by simp [h]
    rwa [h] at hmove
  have hbegin : Machine.step s w ⟨.body (.raise e :: rest) own false :: fs, .run, scopes, depth⟩ =
      ⟨.next, w, ⟨.eval [.load name] [] l :: .act .raise e.location :: .body rest own true :: fs,
        .run, scopes, depth⟩⟩ := by
    change Machine.evaluate w _ _ e = _
    rw [Machine.evaluate, hcompile]
    rfl
  have hload : Machine.step s w ⟨.eval [.load name] [] l :: .act .raise e.location ::
        .body rest own true :: fs, .run, scopes, depth⟩ =
      ⟨.next, w, ⟨.eval [] [.value (.object r)] l :: .act .raise e.location ::
        .body rest own true :: fs, .run, scopes, depth⟩⟩ := by
    change Machine.evalItem s w _ [.load name] [] l = _
    rw [Machine.evalItem, Item.effect, Setting.resolve, hresolve]
    rfl
  exact ((ReflTransGen.single (hstep _ _ hbegin)).tail (hstep _ _ hload)).tail (hstep _ _ rfl)

/-- The failure of the division is caught, and the handler throws it again. -/
theorem Session.rethrown_renews_quotient :
    ∃ session σ σ₂ f g r, Session.load default Host.none [] "main" rethrowing = .ok session ∧
      System.GoesOn session.setting ⟨session.world, []⟩ σ ∧ σ.Carries f ∧
      f.kind = .divisionByZero ∧ System.GoesOn session.setting σ σ₂ ∧
      (∃ m ∈ σ₂.live, (m.step session.setting σ₂.world).machine.signal = .leave (.failWith g)) ∧
      g.Renews f r := by
  obtain ⟨session, w, l, fs, f, scopes, depth, hload, hrun, hkind, hpayload⟩ :=
    exists_quotientCaught
  have hcompile : Expression.compile ⟨["e"], l⟩ = .ok ⟨[.load "e"], l⟩ := by
    have hclassify : Token.classify ["e"] = .ok [.word "e"] := by cbv
    simp only [Expression.compile, Code.itemsOf, hclassify]
    rfl
  let m : Machine := ⟨.guard [.mk "Error" (some "e") [.raise ⟨["e"], l⟩]] :: fs,
    .leave (.failWith f), scopes, depth⟩
  have hstart : System.GoesOn session.setting ⟨session.world, []⟩
      ⟨session.world, [Machine.ofBody World.globals session.setting.registry.main]⟩ := by
    refine .single (.start ⟨.body _ _, ⟨?_, trivial, fun r hr => ?_⟩⟩)
    · exact List.forall_mem_singleton.mpr trivial
    · contradiction
  have hruns := hstart.trans (System.Runs.goesOn
    (System.runs_run (Session.idle_load hload) 7 _ [] []))
  rw [hrun] at hruns
  change System.GoesOn _ _ ⟨w, [m]⟩ at hruns
  have hfind : [Handler.mk "Error" (some "e") [.raise ⟨["e"], l⟩]].find?
      (fun k => w.heap.catches k.className f) =
        some (.mk "Error" (some "e") [.raise ⟨["e"], l⟩]) := by
    refine List.find?_cons_of_pos ?_
    simp [Heap.catches, Handler.className, ErrorKind.className]
  have hm : m ∈ (System.mk w [m]).live := List.mem_append_left _ (.head _)
  have hhost : ∀ name args text f, Host.none name args text = .failure f →
      f.Native session.setting.registry := by
    intro name args text g hg
    obtain rfl := HostAnswer.failure.inj hg
    exact (Failure.plain_new _ _).native (Session.orderly_load hload)
  obtain ⟨hentered, r, hresolve, ⟨_, hstems⟩, hrenews⟩ := Session.rethrown_renews hload
    Host.bare_none Host.inside_none hhost hruns hm rfl rfl hfind rfl
  have hr : r = w.heap.objects.size := by
    cases hstems with
    | thrown hsome =>
        rw [hpayload] at hsome
        contradiction
    | made _ hr => exact hr
  -- The handler begins, and three steps later it throws the object.
  have hmove : System.Proceeds session.setting [] ⟨w, [m]⟩
      ⟨(m.step session.setting w).world, [(m.step session.setting w).machine]⟩ :=
    .step [] m [] fun message => by simp [hentered.step]
  have hframes := hentered.frames
  have hsignal := hentered.signal
  rcases hreply : m.step session.setting w with ⟨st, w₁, ⟨frames, signal, scopes₁, depth₁⟩⟩
  rw [hreply] at hframes hsignal hresolve hmove
  obtain rfl : frames = _ := hframes
  obtain rfl : signal = _ := hsignal
  have hthen : System.GoesOn session.setting
      ⟨w₁, [⟨.body [.raise ⟨["e"], l⟩] true false :: fs, .run, scopes₁, depth₁⟩]⟩
      ⟨w₁, [⟨.act .raise l :: .body [] true true :: fs, .value (.object r), scopes₁, depth₁⟩]⟩ :=
    System.Runs.goesOn (System.runs_raise hcompile hresolve)
  obtain ⟨g, hleave, hg, -⟩ := hrenews _ _
    (.made hpayload hr hmove (congrArg (fun r => r.world.heap) hreply).symm) hthen
    (fun name => rfl) _ (List.mem_append_left _ (.head _)) _ _ rfl rfl
  exact ⟨session, _, _, f, g, r, hload, hruns, .underWay hm rfl, hkind, .head hmove hthen,
    ⟨_, List.mem_append_left _ (.head _), hleave⟩, hg⟩

end Statute
