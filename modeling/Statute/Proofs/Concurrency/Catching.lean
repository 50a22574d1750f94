import Statute.Proofs.Concurrency.Checked
import Statute.Proofs.Machine.Growth
import Statute.Proofs.Machine.Unwinding

/-!
# Throwing and catching by ancestry

Whatever failure comes up in a run says the truth about its class. Machines make up plain failures,
and so does the host; a thrown object is of the class that its failure names, and it stays so while
the heap grows. The objects of a run are of classes that the registry knows under their names.

Therefore a handler deals with a failure if and only if it is for an ancestor of the class that the
registry knows under the name of the failure's class. And since the failures that nothing was thrown
for are plain, what a handler binds is the thrown object or a fresh one of a built-in class, which
completes the account of unwinding.
-/

namespace Statute

open Relation (ReflTransGen)

/-! ## Failures -/

namespace Failure

variable {registry : Registry} {h h' : Heap} {f g : Failure}

theorem Regular.of_core (hf : g.Regular registry h) (hcore : f.core = g.core) :
    f.Regular registry h := by
  obtain ⟨kind, className, message, payload, location, trace⟩ := f
  obtain ⟨kind', className', message', payload', location', trace'⟩ := g
  obtain ⟨rfl, rfl, rfl, rfl⟩ : kind = kind' ∧ className = className' ∧ message = message' ∧
      payload = payload' := by simpa [core] using hcore
  exact ⟨hf.className, hf.kind, hf.direct⟩

/-- An object that was thrown is on the heap, so it is of the same class ever after. -/
theorem Regular.grows (hf : f.Regular registry h) (hgrows : h.Grows h') :
    f.Regular registry h' := by
  have hclass : h'.classOf registry f = h.classOf registry f := by
    have hkind := hf.kind
    unfold Heap.classOf at hkind ⊢
    cases hpayload : f.payload with
    | none => rfl
    | some r =>
        rw [hpayload] at hkind
        refine hgrows.cls r (Nat.lt_of_not_le fun hle => ?_)
        change (h.object r).cls.errorRoot = some f.kind at hkind
        rw [Heap.object, Array.getD_eq_getD_getElem?, Array.getElem?_eq_none hle] at hkind
        cases hkind
  exact ⟨by rw [hclass, hf.className], by rw [hclass, hf.kind],
    fun hpayload => by rw [hclass]; exact hf.direct hpayload⟩

/-- Only an object that is thrown makes a failure that is not plain. -/
theorem plain_of_thrown {v : Value} (hthrown : h.thrown v = .ok f) (hpayload : f.payload = none) :
    f.Plain := by
  unfold Heap.thrown at hthrown
  split at hthrown
  · split at hthrown
    · obtain rfl := Except.ok.inj hthrown
      exact plain_new _ _
    · contradiction
  · split at hthrown
    · obtain rfl := Except.ok.inj hthrown
      contradiction
    · contradiction
  · contradiction

theorem regular_of_thrown (hr : registry.Orderly) {v : Value} (hthrown : h.thrown v = .ok f) :
    f.Regular registry h := by
  unfold Heap.thrown at hthrown
  split at hthrown
  · split at hthrown
    · obtain rfl := Except.ok.inj hthrown
      exact ((plain_new _ _).native hr).regular hr
    · contradiction
  · split at hthrown
    · next hroot =>
        obtain rfl := Except.ok.inj hthrown
        exact ⟨rfl, hroot, nofun⟩
    · contradiction
  · contradiction

end Failure

/-- What a value is raised as when it is thrown. A built-in class is raised as a plain failure of
its kind. An object whose line has a built-in class is raised as a failure of the kind of the first
such class, with the object itself. Nothing else can be thrown. -/
inductive Heap.Throws (h : Heap) (f : Failure) : Value → Prop
  | builtin (hplain : f.Plain) : Throws h f (.classDef (.builtin f.kind))
  | object {r : ObjectRef}
      (hkind : (h.object r).cls.ancestry.findSome? ErrorKind.ofClassName? = some f.kind)
      (hname : f.className = (h.object r).cls.name) (hpayload : f.payload = some r) :
      Throws h f (.object r)
  | refused {v : Value} (hclass : ∀ k, v ≠ .classDef (.builtin k))
      (hobject : ∀ r, v = .object r → ∀ k : ErrorKind, k.className ∉ (h.object r).cls.ancestry)
      (hplain : f.Plain) (hkind : f.kind = .notThrowable) : Throws h f v

theorem Heap.Throws.locate {h : Heap} {f : Failure} {v : Value} (hthrows : h.Throws f v)
    (site : Location) : h.Throws (f.locate site) v := by
  cases hthrows with
  | builtin hplain => exact .builtin (f := f.locate site) ⟨hplain.className, hplain.payload⟩
  | object hkind hname hpayload => exact .object hkind hname hpayload
  | refused hclass hobject hplain hkind =>
      exact .refused hclass hobject ⟨hplain.className, hplain.payload⟩ hkind

/-- The registry knows a class under the name that a failure counts as, and a handler deals with the
failure if and only if it is for this class or for one of its ancestors. -/
def Registry.Settles (r : Registry) (h : Heap) (f : Failure) : Prop :=
  ∃ c, r.lookup? f.className = some (.classDef c) ∧
    ∀ handler, h.catches handler f = true ↔ handler ∈ c.ancestry

namespace Registry.Orderly

variable {r : Registry} {h : Heap} {f : Failure} {v : Value}

theorem settles (hr : r.Orderly) (hheap : h.Among r.kin) (hf : f.Regular r h) :
    r.Settles h f := by
  have hclass : r.Enrols (h.classOf r f) := by
    cases hpayload : f.payload with
    | some ref =>
        have hamong : (h.classOf r f).Among r.kin := by
          rw [Heap.classOf, hpayload]
          exact hheap.objects ref
        refine hr.enrols_of_among hamong ?_
        rw [hf.kind]
        exact Option.some_ne_none _
    | none => exact hr.enrols _ _ (Registry.class?_eq_some_iff.mp (hf.class? hpayload))
  refine ⟨h.classOf r f, ?_, hf.catches_iff hr hclass⟩
  rw [hf.className]
  exact hclass.lookup?

/-- Only the built-in classes have a built-in level of their own. -/
theorem eq_builtin_of_among (hr : r.Orderly) {c : Class} (hc : c.Among r.kin) {k : ErrorKind}
    (hk : c.own.builtin = some k) : c = .builtin k := by
  refine hr.eq_builtin (hr.enrols_of_among hc ?_) hk
  rw [Class.errorRoot, Class.levels, List.findSome?_cons, hk]
  exact Option.some_ne_none _

/-- A class that stands for no kind of error has no built-in class in its line. -/
theorem className_notMem (hr : r.Orderly) {c : Class} (hc : c.Among r.kin)
    (hroot : c.errorRoot = none) (k : ErrorKind) : k.className ∉ c.ancestry := by
  obtain rfl | ⟨k', rfl⟩ | henrols := hc.known
  · cases k <;> decide
  · cases hroot
  · rw [hr.errorRoot_eq henrols] at hroot
    intro hmem
    have hnone := List.findSome?_eq_none_iff.mp hroot _ hmem
    rw [ErrorKind.ofClassName?_className] at hnone
    cases hnone

theorem throws_of_thrown (hr : r.Orderly) (hheap : h.Among r.kin) (hv : v.Among r.kin)
    (hthrown : h.thrown v = .ok f) : h.Throws f v := by
  unfold Heap.thrown at hthrown
  split at hthrown
  · next c =>
      split at hthrown
      · next k hk =>
          obtain rfl := Except.ok.inj hthrown
          rw [hr.eq_builtin_of_among hv hk]
          exact .builtin (Failure.plain_new _ _)
      · contradiction
  · next ref =>
      split at hthrown
      · next k hk =>
          obtain rfl := Except.ok.inj hthrown
          have henrols : r.Enrols (h.object ref).cls := by
            refine hr.enrols_of_among (hheap.objects ref) ?_
            rw [hk]
            exact Option.some_ne_none _
          exact .object ((hr.errorRoot_eq henrols).symm.trans hk) rfl rfl
      · contradiction
  · contradiction

theorem throws_notThrowable (hr : r.Orderly) (hheap : h.Among r.kin)
    (hthrown : h.thrown v = .error f) : h.Throws f v := by
  have hf := Heap.eq_notThrowable_of_thrown hthrown
  rw [hf]
  refine .refused ?_ ?_ (Failure.plain_new _ _) rfl
  · rintro k rfl
    contradiction
  · rintro ref rfl k
    refine hr.className_notMem (hheap.objects ref) ?_ k
    simp only [Heap.thrown] at hthrown
    split at hthrown
    · contradiction
    · assumption

end Registry.Orderly

/-- A thrown value becomes a failure at the place of the statement. -/
theorem Machine.signal_of_raise {s : Setting} {w : World} {m : Machine} {v : Value}
    {site : Location} {fs : List Frame} (hsignal : m.signal = .value v)
    (hframes : m.frames = .act .raise site :: fs) :
    ∃ f, (m.step s w).machine.signal = .leave (.failWith (f.locate site)) ∧
      (w.heap.thrown v = .ok f ∨ w.heap.thrown v = .error f) := by
  simp only [step, hsignal, hframes, receive, act]
  cases hthrown : w.heap.thrown v with
  | ok f => exact ⟨f, rfl, Or.inl rfl⟩
  | error f => exact ⟨f, rfl, Or.inr rfl⟩

/-! ## Runs -/

namespace System

variable {s : Setting} {σ σ' σ₀ : System} {Begun : Machine → Prop} {Given : Value → Prop}

theorem keeps_grows (s : Setting) (h₀ : Heap) :
    Keeps s (fun _ _ => True) h₀.Grows (fun _ => True) fun _ => True where
  heap := fun hheap _ _ => hheap.trans (Machine.grows_step s _ _)
  machine := fun _ _ _ _ _ => trivial
  entrusts := fun _ _ _ => trivial
  outcome := fun _ _ => trivial
  breakdown := fun _ _ _ _ => trivial
  abandonment := fun _ _ => trivial
  locks := fun _ hheap => hheap.trans (.of_objects rfl)

/-- Whatever happens, objects stay and keep their classes. -/
theorem Happens.grows (hmove : Happens s Begun Given σ σ') :
    σ.world.heap.Grows σ'.world.heap := by
  refine (hmove.holds (keeps_grows s σ.world.heap) (fun _ _ => trivial) ?_ (fun _ _ => trivial)
    ⟨.refl _, ⟨fun _ _ _ => trivial, fun _ _ _ => trivial⟩, fun _ _ => trivial⟩).heap
  exact fun h name v _ hgrows => hgrows.trans (.of_objects rfl)

theorem covers_regular (hr : s.registry.Orderly) (h : Heap) :
    Covers (Failure.Regular s.registry h) :=
  ⟨fun _ _ hcore hg => hg.of_core hcore, fun _ hplain _ => (hplain.native hr).regular hr⟩

/-- If the failures that the host makes up say the truth about their classes, then every failure of
a run does. -/
theorem Runs.regular (hr : s.registry.Orderly)
    (hhost : ∀ name args text f, s.host name args text = .failure f → f.Native s.registry)
    (hbegun : ∀ m, Begun m → ∃ env, m.Fresh env) (htasks : σ₀.world.tasks = #[])
    (hwork : σ₀.atWork = []) (hruns : Runs s Begun Given σ₀ σ) :
    σ.Holds (fun _ => True) (Vouched s (Failure.Regular s.registry σ.world.heap))
      fun o => ∀ f, o = .error f → f.Regular s.registry σ.world.heap := by
  induction hruns with
  | refl => exact .of_idle trivial htasks hwork
  | @tail σ σ' _ hmove ih =>
      have hgrows := hmove.grows
      refine hmove.holds (keeps_known (covers_regular hr _)) ?_ (fun _ _ _ _ _ => trivial) ?_ ?_
      · intro m hm
        obtain ⟨env, hfresh⟩ := hbegun m hm
        exact vouched_of_fresh hfresh
      · exact fun m _ => warned_of_host (fun _ _ _ f hf => (hhost _ _ _ f hf).regular hr)
          (fun _ hf => (hf.native hr).regular hr) fun _ _ hthrown =>
            (Failure.regular_of_thrown hr hthrown).grows hgrows
      · exact ih.imp (fun m hm => ⟨hm.1, fun f hf => (hm.2 f hf).grows hgrows⟩)
          fun o ho f hf => (ho f hf).grows hgrows

theorem covers_plain : Covers fun f => f.payload = none → f.Plain := by
  refine ⟨fun f g hcore hg hpayload => ?_, fun _ hplain _ _ => hplain⟩
  obtain ⟨hkind, hname, -, hsame⟩ : f.kind = g.kind ∧ f.className = g.className ∧
      f.message = g.message ∧ f.payload = g.payload := by simpa [Failure.core] using hcore
  exact ⟨by rw [hname, hkind, (hg (hsame ▸ hpayload)).className], hpayload⟩

/-- In a run the failures that nothing was thrown for are plain, if those of the host are. -/
theorem Runs.plain
    (hhost : ∀ name args text f, s.host name args text = .failure f → f.payload = none → f.Plain)
    (hbegun : ∀ m, Begun m → ∃ env, m.Fresh env) (htasks : σ₀.world.tasks = #[])
    (hwork : σ₀.atWork = []) (hruns : Runs s Begun Given σ₀ σ) :
    σ.Holds (fun _ => True) (Vouched s fun f => f.payload = none → f.Plain)
      fun o => ∀ f, o = .error f → f.payload = none → f.Plain := by
  induction hruns with
  | refl => exact .of_idle trivial htasks hwork
  | tail _ hmove ih =>
      refine hmove.holds (keeps_known covers_plain) ?_ (fun _ _ _ _ _ => trivial) ?_ ih
      · intro m hm
        obtain ⟨env, hfresh⟩ := hbegun m hm
        exact vouched_of_fresh hfresh
      · exact fun m _ => warned_of_host hhost (fun _ hf _ => hf) fun _ _ => Failure.plain_of_thrown

end System

/-! ## Unwinding -/

namespace Machine

variable {s : Setting} {m m₀ : Machine} {env : Env} {f : Failure}

/-- Wherever a machine has got to, a failure takes off exactly the frames above the first one with a
handler for it, or all frames if there is none. The frames below are left as they were, with what
they own. The failure arrives there with the calls that it has left on the way, the innermost first,
and otherwise unchanged: the first handler that deals with it begins in a scope of its own, or the
machine has ended with the failure. The handler gets to see the object that was thrown, or a fresh
one that carries the message. In a program that was built there is a class for it: the built-in one
of the kind of the failure, if the failure goes by the name of its kind. In a run every failure that
nothing was thrown for does so, unless the host makes up one that goes by another name.

Each step may find another world, as long as the thrown object has the same class in all of them. -/
theorem Fresh.unwinds (hfresh : m₀.Fresh env) (hreach : Relation.ReflTransGen (Steps s) m₀ m)
    (hsignal : m.signal = .leave (.failWith f)) (w : World) (ws : List World)
    (hclass : ∀ v ∈ ws, v.heap.thrownClass? f = w.heap.thrownClass? f) :
    let above := m.frames.takeWhile fun g => (g.handler? w.heap f).isNone
    let rest := m.frames.dropWhile fun g => (g.handler? w.heap f).isNone
    let arrived := f.leavingAll above
    (∀ callee args site, Frame.call callee args site ∉ m.frames) ∧
      (∀ h h' file extensions source,
        Registry.build h file extensions source = .ok (h', s.registry) →
        ∃ c, s.registry.errorClass? arrived = some c ∧
          (arrived.className = arrived.kind.className → c = .builtin arrived.kind)) ∧
      ((∀ name args text g, s.host name args text = .failure g → g.payload = none → g.Plain) →
        ∀ (Begun : Machine → Prop) (Given : Value → Prop) (σ₀ σ : System),
          (∀ m, Begun m → ∃ env, m.Fresh env) → σ₀.world.tasks = #[] → σ₀.atWork = [] →
          System.Runs s Begun Given σ₀ σ → m ∈ σ.live → arrived.payload = none →
          arrived.className = arrived.kind.className) ∧
      (ws.length = above.length → ∃ m', Sheds s ws m m' ∧
        m'.whole = m.lowest rest.length ∧ m'.signal = .leave (.failWith arrived) ∧
        (rest = [] → (∀ v, m'.step s v = ⟨.done, v, m'⟩) ∧ m'.outcome = .error arrived ∧
          m'.flow = .error arrived) ∧
        ∀ g below, rest = g :: below → ∃ handlers handler, g = .guard handlers ∧
          handlers.find? (fun k => w.heap.catches k.className f) = some handler ∧
          ∀ v, v.heap.thrownClass? f = w.heap.thrownClass? f →
            Entered s.registry handler arrived below v m' (m'.step s v)) := by
  intro above rest arrived
  obtain ⟨goal, horder, -⟩ := hfresh.reached hreach
  refine ⟨?_, fun h h' file extensions source hbuild => Registry.errorClass?_of_build hbuild _,
    fun hhost Begun Given σ₀ σ hbegun htasks hwork hruns hm hpayload => ?_, fun hlength => ?_⟩
  · intro callee args site hmem
    exact hfresh.underway hreach _ hsignal _ hmem rfl
  · have hplain := ((hruns.plain hhost hbegun htasks hwork).of_live hm).2 f hsignal hpayload
    exact hplain.className
  have hsplit : m.frames = above ++ rest := List.takeWhile_append_dropWhile.symm
  have hnone : ∀ g ∈ above, ∀ v ∈ ws, g.handler? v.heap f = none := by
    intro g hg v hv
    rw [Heap.handler?_congr g rfl rfl (hclass v hv)]
    exact Option.isNone_iff_eq_none.mp (List.all_eq_true.mp List.all_takeWhile g hg)
  obtain ⟨m', hsheds, hframes, hsignal'⟩ := sheds_of_unhandled (s := s) hsplit hsignal hlength hnone
  have hwhole := hsheds.whole horder
  rw [hframes] at hwhole
  refine ⟨m', hsheds, hwhole, hsignal', fun hrest => ?_, fun g below hrest => ?_⟩
  · rw [hrest] at hframes
    refine ⟨fun v => step_of_frames_nil hframes, ?_, ?_⟩
    · rw [outcome, hsignal']
    · rw [flow, hsignal']
  · have hsome : (g.handler? w.heap f).isNone = false := by
      have hhead := List.head?_dropWhile_not (fun g : Frame => (g.handler? w.heap f).isNone)
        m.frames
      rw [show m.frames.dropWhile _ = g :: below from hrest] at hhead
      exact hhead
    obtain ⟨handler, hhandler⟩ := Option.isSome_iff_exists.mp (by simpa using hsome)
    obtain ⟨handlers, rfl⟩ : ∃ handlers, g = .guard handlers := by
      cases g with
      | guard handlers => exact ⟨handlers, rfl⟩
      | _ => contradiction
    refine ⟨handlers, handler, rfl, hhandler, fun v hv => ?_⟩
    refine step_of_handled (hframes.trans hrest) hsignal' ?_
    rw [← hhandler]
    exact Heap.handler?_congr _ rfl rfl hv

/-- A guarded call of a procedure. The second of the handlers deals with every failure. -/
def guardedCall : Machine :=
  ofBody World.globals [.attempt [.perform ⟨["f", "(", ")"], ⟨"main", 1, "f()"⟩⟩]
    [.mk "Missing" none [], .mk "Error" (some "e") []]]

/-- A world in which this procedure leaves a loop where there is none. -/
def strayWorld : World :=
  let w := World.new default
  { w with heap := w.heap.define 0 "f" (.procedure ⟨"f", [], [.breakOut]⟩) }

/-- After eight steps the failure of the procedure is under way, with four frames above the
handlers, of which one is a call, and one frame below them. -/
def strayUnderWay : Bool :=
  let s : Setting := ⟨default, default, Host.none⟩
  match guardedCall.resume s 8 strayWorld with
  | ⟨.suspended, w, m⟩ =>
      match m.signal with
      | .leave (.failWith f) =>
          let above := m.frames.takeWhile fun g => (g.handler? w.heap f).isNone
          above.length = 4 && m.frames.length = 6 &&
            (f.leavingAll above).trace = [⟨"f", some ⟨"main", 1, "f()"⟩⟩]
      | _ => false
  | _ => false

/-- The failure leaves the call and is dealt with below it. -/
theorem Fresh.unwinds_stray :
    ∃ s w m f m' handler below, Machine.Fresh World.globals guardedCall ∧
      Relation.ReflTransGen (Steps s) guardedCall m ∧ m.signal = .leave (.failWith f) ∧
      Sheds s [w, w, w, w] m m' ∧ below.length = 1 ∧
      ∃ arrived : Failure, arrived.trace = [⟨"f", some ⟨"main", 1, "f()"⟩⟩] ∧
        Entered s.registry handler arrived below w m' (m'.step s w) := by
  have hrun : strayUnderWay = true := by decide +kernel
  simp only [strayUnderWay] at hrun
  split at hrun
  · next w m hresume =>
      split at hrun
      · next f hsignal =>
          simp only [Bool.and_eq_true, decide_eq_true_eq] at hrun
          obtain ⟨⟨habove, hframes⟩, htrace⟩ := hrun
          have hreach := reaches_of_resume hresume
          obtain ⟨-, -, -, hunwinds⟩ := Fresh.unwinds (.body _) hreach hsignal w [w, w, w, w]
            fun v hv => by simp_all
          obtain ⟨m', hsheds, -, -, -, hhandled⟩ := hunwinds habove.symm
          -- Of six frames four are above the handlers.
          have hlength :
              (m.frames.dropWhile fun g => (g.handler? w.heap f).isNone).length = 1 + 1 := by
            have hsplit := congrArg List.length (List.takeWhile_append_dropWhile
              (p := fun g : Frame => (g.handler? w.heap f).isNone) (l := m.frames))
            rw [List.length_append, habove, hframes] at hsplit
            omega
          obtain ⟨g, below, hrest⟩ := List.exists_cons_of_length_eq_add_one hlength
          obtain ⟨handlers, handler, -, -, hentered⟩ := hhandled g below hrest
          refine ⟨_, w, m, f, m', handler, below, .body _, hreach, hsignal, hsheds, ?_, _, htrace,
            hentered w rfl⟩
          rw [hrest] at hlength
          exact Nat.succ.inj hlength
      · contradiction
  · contradiction

end Machine

/-! ## Loaded programs -/

/-- The registry of a program that was loaded is in order. -/
theorem Session.orderly_load {config : Config} {host : Host} {extensions : List Extension}
    {file : String} {source : Source} {session : Session}
    (hload : load config host extensions file source = .ok session) :
    session.setting.registry.Orderly := by
  obtain ⟨⟨heap, registry⟩, hbuild, hsession⟩ := exists_of_bind_eq_ok hload
  obtain rfl := Except.ok.inj hsession
  exact Registry.orderly_build hbuild

/-- In every run of a program, whatever machines take their steps in whatever order, a handler deals
with a failure if and only if it is for an ancestor of the class that the registry knows under the
name of the failure's class. A value that is thrown is raised as such a failure: a built-in class,
and an object whose line has a built-in class, with the kind of the first one. Anything else cannot
be thrown, and the failure says so. The host has to make up plain failures, and to give out classes
of the program only. -/
theorem Session.handlers_match_ancestry {config : Config} {host : Host}
    {extensions : List Extension} {file : String} {source : Source} {session : Session}
    (hload : load config host extensions file source = .ok session)
    (hhost : host.Among session.setting.registry.kin)
    (hplain : ∀ name args text f, host name args text = .failure f → f.Plain) {σ : System}
    (hruns : System.Runs session.setting (Machine.Launched session.setting.registry.kin)
      (fun v => v.Among session.setting.registry.kin) ⟨session.world, []⟩ σ) :
    (∀ f, σ.Carries f → session.setting.registry.Settles σ.world.heap f) ∧
      ∀ m ∈ σ.live, ∀ v site fs, m.signal = .value v → m.frames = .act .raise site :: fs →
        ∃ f, (m.step session.setting σ.world).machine.signal = .leave (.failWith f) ∧
          σ.world.heap.Throws f v ∧ session.setting.registry.Settles σ.world.heap f := by
  obtain ⟨hhost', hheap, htasks⟩ := Session.among_load hload session.setting.registry.kin
  have hr := orderly_load hload
  have hs : session.setting.Among session.setting.registry.kin :=
    ⟨hr.among_kin, hhost' ▸ hhost⟩
  have hamong := hruns.holds (System.keeps_among hs) (fun _ hm => hm.kept)
    (fun h name v hv hheap => hheap.define hv 0 name) hheap htasks rfl
  have hregular := hruns.regular hr
    (fun name args text f hf => (hplain name args text f (hhost' ▸ hf)).native hr)
    (fun _ hm => hm.fresh) htasks rfl
  refine ⟨fun f hf => hr.settles hamong.heap ?_, fun m hm v site fs hsignal hframes => ?_⟩
  · cases hf with
    | underWay hm hsignal => exact (hregular.of_live hm).2 f hsignal
    | kept houtcome => exact hregular.tasks.outcome _ _ houtcome f rfl
  · obtain ⟨f, hleave, hthrown⟩ := Machine.signal_of_raise (s := session.setting) (w := σ.world)
      hsignal hframes
    have hv : v.Among session.setting.registry.kin := by
      have hsent := (hamong.of_live hm).among.signal
      rwa [hsignal] at hsent
    have hraised : σ.world.heap.Throws f v ∧
        f.Regular session.setting.registry σ.world.heap := by
      rcases hthrown with hthrown | hthrown
      · exact ⟨hr.throws_of_thrown hamong.heap hv hthrown, Failure.regular_of_thrown hr hthrown⟩
      · refine ⟨hr.throws_notThrowable hamong.heap hthrown, ?_⟩
        rw [Heap.eq_notThrowable_of_thrown hthrown]
        exact ((Failure.plain_new _ _).native hr).regular hr
    exact ⟨_, hleave, hraised.1.locate site,
      hr.settles hamong.heap (hraised.2.of_core (Failure.core_atCall f (some site)))⟩

/-- A class of errors below a built-in one, an object of which is thrown. -/
def slipping : Source :=
  ⟨[], [⟨"E", some "TypeError", [], none⟩], [], [.raise ⟨["E", "(", ")"], default⟩]⟩

/-- Whether a failure of the class is under way after ten steps of the program. -/
def slipUnderWay : Bool :=
  match Session.load default Host.none [] "main" slipping with
  | .ok session =>
      match (Machine.ofBody World.globals session.setting.registry.main).run session.setting 10
        session.world with
      | ⟨.suspended, _, ⟨_, .leave (.failWith f), _, _⟩⟩ => decide (f.className = "E")
      | _ => false
  | _ => false

/-- After ten steps the object has been thrown, and handlers deal with the failure by the ancestry
of its class. -/
theorem Session.handlers_match_ancestry_slipping :
    ∃ session σ f, Session.load default Host.none [] "main" slipping = .ok session ∧
      System.Runs session.setting (Machine.Launched session.setting.registry.kin)
        (fun v => v.Among session.setting.registry.kin) ⟨session.world, []⟩ σ ∧
      σ.Carries f ∧ f.className = "E" ∧ session.setting.registry.Settles σ.world.heap f := by
  have hslip : slipUnderWay = true := by decide +kernel
  unfold slipUnderWay at hslip
  split at hslip
  · next session hload =>
      split at hslip
      · next w fs f scopes depth hcarried =>
          have hstart : System.Runs session.setting
              (Machine.Launched session.setting.registry.kin)
              (fun v => v.Among session.setting.registry.kin) ⟨session.world, []⟩
              ⟨session.world, [Machine.ofBody World.globals session.setting.registry.main]⟩ :=
            .single (.start (.body _ _))
          have hruns := hstart.trans (System.runs_run (Session.idle_load hload) 10 _ [] [])
          rw [hcarried] at hruns
          have hcarries : (System.mk w [⟨fs, .leave (.failWith f), scopes, depth⟩]).Carries f :=
            .underWay (List.mem_append_left _ (.head _)) rfl
          refine ⟨session, _, f, hload, hruns, hcarries, of_decide_eq_true hslip, ?_⟩
          have hplain : ∀ name args text f, Host.none name args text = .failure f → f.Plain := by
            intro name args text g hg
            obtain rfl := HostAnswer.failure.inj hg
            exact Failure.plain_new _ _
          have hsettles := Session.handlers_match_ancestry hload (Host.among_none _) hplain hruns
          exact hsettles.1 f hcarries
      · contradiction
  · contradiction

end Statute
