import Statute.Proofs.Concurrency.Provenance
import Statute.Session

/-!
# Where failures say they arose

Many failures are made without a place: by operators, by scopes, when arguments are bound or an
object is built. The frame on top adds the place that it knows of, and every frame that can fail in
this way knows one, as long as the machine was begun for a body or an expression: a call is then
always made by an expression, and it keeps the place of this expression until its body is entered.

One failure is not made by such a frame. Where a loop is left and there is none, the failure arises
when the call around it is met, and nobody adds a place: a frame that a failure leaves does not. So
this is the one failure that a session can report without saying where it arose, unless a task ended
with it and the expression that waited for the task adds its own place.
-/

namespace Statute

open Relation (ReflTransGen)

namespace Failure

/-- A loop was left where there is none. -/
def Stray (f : Failure) : Prop :=
  ∃ keyword ∈ ["break", "continue"], f.core = (Machine.outsideLoop keyword).core

/-- A failure has a place after a call if it had one or the call has one. -/
theorem isSome_location_atCall {f : Failure} {site : Option Location}
    (h : site.isSome ∨ f.location.isSome) : (f.atCall site).location.isSome := by
  obtain ⟨kind, className, message, payload, location, trace⟩ := f
  cases location with
  | some l =>
      rw [atCall_of_location rfl]
      rfl
  | none =>
      obtain ⟨l, rfl⟩ := Option.isSome_iff_exists.mp (h.resolve_right (by simp))
      rfl

end Failure

/-! ## Frames that know their place -/

/-- A frame that can fail by itself knows of a place. -/
def Frame.Sited (f : Frame) : Prop :=
  f.raises = true → f.site?.isSome

theorem Frame.sited_of_not_raises {f : Frame} (h : f.raises = false) : f.Sited :=
  fun hraises => absurd (h.symm.trans hraises) Bool.false_ne_true

theorem Frame.sited_body {b : Body} {own checkpoint : Bool} : (body b own checkpoint).Sited :=
  sited_of_not_raises rfl

theorem Statement.sited_of_waiting? {stmt : Statement} {f : Frame} {e : Expression}
    (h : stmt.waiting? = some (f, e)) : f.Sited := by
  unfold waiting? at h
  split at h
  all_goals first
    | contradiction
    | (obtain ⟨rfl, rfl⟩ := Prod.mk.inj (Option.some.inj h); exact fun _ => rfl)

theorem Evaluates.sited {f : Frame} {e : Expression} {gs : List Frame} {sig : Signal}
    (h : Evaluates f e gs sig) (hf : f.Sited) : ∀ g ∈ gs, g.Sited := by
  cases h with
  | begun hcode =>
      refine List.forall_mem_cons.mpr ⟨fun _ => rfl, ?_⟩
      exact List.forall_mem_singleton.mpr hf
  | refused failure => simp

theorem Chooses.sited {otherwise : Option Body} {branches : List Branch} {gs : List Frame}
    {sig : Signal} (h : Chooses otherwise branches gs sig) : ∀ g ∈ gs, g.Sited := by
  cases h with
  | tests htest => exact htest.sited fun _ => rfl
  | otherwise hbody => exact List.forall_mem_singleton.mpr Frame.sited_body
  | nothing => simp

theorem Begins.sited {stmt : Statement} {gs : List Frame} {sig : Signal}
    (h : Begins stmt gs sig) : ∀ g ∈ gs, g.Sited := by
  cases h with
  | evaluates hwaiting he => exact he.sited (Statement.sited_of_waiting? hwaiting)
  | chooses h => exact h.sited
  | attempts body handlers =>
      refine List.forall_mem_cons.mpr ⟨Frame.sited_body, ?_⟩
      exact List.forall_mem_singleton.mpr (Frame.sited_of_not_raises rfl)
  | excludes lock body => exact List.forall_mem_singleton.mpr (Frame.sited_of_not_raises rfl)
  | leaves stmt e => simp

theorem Supplies.sited {limit depth : Nat} {c : Call} {params : List Param} {gs : List Frame}
    {sig : Signal} (h : Supplies limit depth c params gs sig) (hc : c.site.isSome) :
    ∀ g ∈ gs, g.Sited := by
  cases h with
  | enters hdepth =>
      refine List.forall_mem_cons.mpr ⟨Frame.sited_body, ?_⟩
      exact List.forall_mem_singleton.mpr (Frame.sited_of_not_raises rfl)
  | default hdefault hcode =>
      refine List.forall_mem_cons.mpr ⟨fun _ => rfl, ?_⟩
      exact List.forall_mem_singleton.mpr fun _ => hc
  | refused params failure => simp

theorem Initialises.sited {cls : Class} {site : Option Location} {gs : List Frame} {sig : Signal}
    (h : Initialises cls site gs sig) (hsite : site.isSome) : ∀ g ∈ gs, g.Sited := by
  cases h with
  | calls hctor object args =>
      refine List.forall_mem_cons.mpr ⟨fun _ => hsite, ?_⟩
      exact List.forall_mem_singleton.mpr (Frame.sited_of_not_raises rfl)
  | ends sig => simp

/-- What takes the place of a frame that knows its place does too. -/
theorem Frame.Becomes.sited {limit depth : Nat} {f : Frame} {sig sig' : Signal} {st : Step}
    {gs : List Frame} (h : f.Becomes limit depth sig st gs sig') (hf : f.Sited) :
    ∀ g ∈ gs, g.Sited := by
  cases h with
  | ends f sig sig' => simp
  | waits f => simpa using hf
  | stops f hexit hsig => simpa using hf
  | begins h =>
      exact List.forall_mem_append.mpr ⟨h.sited, List.forall_mem_singleton.mpr sited_body⟩
  | retests h => exact h.sited fun _ => rfl
  | calls hcalls rest stack stack' site callee args => simp [Sited, site?]
  | binds hcallee n h args => exact h.sited (hf rfl)
  | constructs cls args site => simpa [Sited, raises, site?] using hf
  | initialises h args => exact h.sited (hf rfl)
  | descends hparent object args args' taken site =>
      have hsite : site.isSome := hf rfl
      simp [hsite, Sited, site?]
  | rejects h site body v => exact h.sited
  | bounds h site v => exact h.sited fun _ => rfl
  | supplies hc hsite h v =>
      -- The call has one more argument now, and is made where it was.
      have hsome := hf rfl
      rw [site?, ← hsite] at hsome
      exact h.sited hsome
  | adopts h object args taken v => exact h.sited (hf rfl)
  | _ => simp [Sited, raises, site?]

namespace Machine

variable {s : Setting} {w w' : World} {m m' m₀ : Machine} {env : Env} {f : Failure}

/-- The frames of a machine know their places, and so does a failure that is under way, unless it is
a stray one. -/
structure Situated (m : Machine) : Prop where
  frames : ∀ f ∈ m.frames, f.Sited
  failure : ∀ f, m.signal = .leave (.failWith f) → f.location.isSome ∨ f.Stray

theorem Cause.located (h : m.Cause s w f) (hm : m.Situated) : f.location.isSome ∨ f.Stray := by
  cases h with
  | underWay hsignal hcore hplace =>
      rw [hplace]
      refine (hm.failure _ hsignal).imp_right ?_
      rintro ⟨keyword, hkeyword, heq⟩
      exact ⟨keyword, hkeyword, hcore.trans heq⟩
  | @outside _ _ _ _ keyword hframes hcall hsignal hexit =>
      refine Or.inr ⟨keyword, ?_, rfl⟩
      rcases hexit with ⟨-, rfl⟩ | ⟨-, rfl⟩ <;> simp
  | @arisen top fs g hframes harises hraises =>
      -- What does not compile has the place of the expression, whatever the frame knows.
      have htop : top.Sited := hm.frames top (hframes ▸ List.mem_cons_self)
      exact Or.inl (Failure.isSome_location_atCall (hraises.imp_left htop))

theorem situated_ofBody (env : Env) (b : Body) : (ofBody env b).Situated where
  frames := List.forall_mem_singleton.mpr Frame.sited_body
  failure _ h := by contradiction

theorem situated_ofCode (env : Env) (c : Code) : (ofCode env c).Situated where
  frames := List.forall_mem_singleton.mpr fun _ => rfl
  failure _ h := by contradiction

/-- A step adds no frame without a place, and a failure that it leaves behind has one or is a stray
one. -/
theorem Situated.step {goal : Shape} {base : Nat} {start : Body → Prop} (hm : m.Situated)
    (horder : m.InOrder goal base env) (hplaced : Placed start m.frames)
    (hcrash : ∀ message, (m.step s w).step ≠ .crash message) :
    (m.step s w).machine.Situated where
  frames := horder.forall_step hcrash (fun _ hf hbecomes => hbecomes.sited hf) hm.frames
  failure f hf := by
    cases hframes : m.frames with
    | nil =>
        rw [step_of_frames_nil hframes] at hf
        exact hm.failure f hf
    | cons top fs => exact ((horder.within_step hplaced hframes).failure f hf).located hm

/-- Wherever a machine gets to by steps, its frames and failures know their places if they did when
it was begun. -/
theorem Fresh.situated (hfresh : m₀.Fresh env) (hm₀ : m₀.Situated)
    (hreach : ReflTransGen (Steps s) m₀ m) : m.Situated := by
  induction hreach with
  | refl => exact hm₀
  | tail hreach hstep ih =>
      obtain ⟨w, rfl, hcrash⟩ := hstep
      obtain ⟨goal, horder, -⟩ := hfresh.reached hreach
      exact ih.step horder (placed_of_reached hfresh hreach) hcrash

/-- A run that ends takes steps in the worlds that it finds. -/
theorem reaches_of_run {fuel : Nat} (h : m.run s fuel w = ⟨.finished, w', m'⟩) :
    ReflTransGen (Steps s) m m' := by
  induction fuel generalizing w m with
  | zero => cases h
  | succ fuel ih =>
      simp only [run] at h
      set w₁ := if fuel % share = 0 then w.pass s share else w
      have hstep : ∀ {st w₂ m₂}, m.step s w₁ = ⟨st, w₂, m₂⟩ →
          (∀ message, st ≠ .crash message) → m.Steps s m₂ := by
        intro st w₂ m₂ heq hst
        exact ⟨w₁, congrArg Reply.machine heq, by rwa [heq]⟩
      split at h
      · next heq => exact .head (hstep heq (by simp)) (ih h)
      · next heq => exact .head (hstep heq (by simp)) (ih h)
      · next heq => exact .head (hstep heq (by simp)) (ih h)
      · next heq =>
          cases h
          exact .single (hstep heq (by simp))
      · cases h

theorem signal_of_flow (h : m.flow = .error f) : m.signal = .leave (.failWith f) := by
  unfold flow at h
  split at h
  · contradiction
  · contradiction
  · contradiction
  · next g hsignal => rw [hsignal, Except.error.inj h]
  · contradiction

end Machine

namespace Session

variable {α : Type} {s : Session} {m : Machine} {read : Machine → Except Failure α} {f : Failure}

/-- The host breaks down while a machine is carried to its end. -/
def BreaksDown (s : Session) (m : Machine) : Prop :=
  ∃ message, (m.run s.setting fuel s.world).progress = .crashed message

/-- A failure that a request ends with is read off a machine at its end, unless the host breaks
down. -/
theorem exists_of_carry (h : (s.carry m read).2 = .failure f) (hhost : ¬ s.BreaksDown m) :
    ∃ m', ReflTransGen (Machine.Steps s.setting) m m' ∧ read m' = .error f := by
  unfold carry at h
  split at h
  · next w m' hrun =>
      refine ⟨m', Machine.reaches_of_run hrun, ?_⟩
      cases hread : read m' with
      | ok a =>
          rw [hread] at h
          contradiction
      | error g =>
          rw [hread] at h
          rw [Ending.failure.inj h]
  · next message w m' hrun => exact absurd ⟨message, by rw [hrun]⟩ hhost
  · contradiction

theorem located_of_runBody {body : Body} (h : (s.runBody body).2 = .failure f)
    (hhost : ¬ s.BreaksDown (.ofBody World.globals body)) : f.location.isSome ∨ f.Stray := by
  obtain ⟨m, hreach, hflow⟩ := exists_of_carry h hhost
  have hm := (Machine.Fresh.body body).situated (Machine.situated_ofBody _ body) hreach
  exact hm.failure f (Machine.signal_of_flow hflow)

/-- A failure that a session reports for its main body, for another body or for an expression has a
place, in whatever state the session is, unless the host broke down or a loop was left where there
is none. -/
theorem reported_failures_say_where (s : Session) :
    (∀ f, s.runMain.2 = .failure f →
        ¬ s.BreaksDown (.ofBody World.globals s.setting.registry.main) →
        f.location.isSome ∨ f.Stray) ∧
      (∀ body f, (s.execute body).2 = .failure f →
        ¬ (s.prepare body).1.BreaksDown (.ofBody World.globals (s.prepare body).2) →
        f.location.isSome ∨ f.Stray) ∧
      ∀ text f, (s.evaluate text).2 = .failure f →
        (∀ c, (Expression.ofText text).compile = .ok c →
          ¬ s.BreaksDown (.ofCode World.globals c)) →
        f.location.isSome ∨ f.Stray := by
  refine ⟨fun f h hhost => located_of_runBody h hhost,
    fun body f h hhost => located_of_runBody h hhost, fun text f h hhost => ?_⟩
  unfold evaluate at h
  split at h
  · next c hcompile =>
      obtain ⟨m, hreach, houtcome⟩ := exists_of_carry h (hhost c hcompile)
      have hm := (Machine.Fresh.code c).situated (Machine.situated_ofCode _ c) hreach
      exact hm.failure f (Machine.signal_of_outcome houtcome)
  · next g hcompile =>
      obtain rfl := Ending.failure.inj h
      rw [(Expression.failure_of_compile hcompile).2]
      exact Or.inl rfl

/-- The failure that the main body of a source ends with while the host does not break down. -/
def mainFailure? (source : Source) : Option Failure :=
  match load default Host.none [] "main" source with
  | .ok s =>
      match s.runMain.2, ((Machine.ofBody World.globals s.setting.registry.main).run s.setting fuel
        s.world).progress with
      | .failure f, .finished => some f
      | _, _ => none
  | .error _ => none

theorem exists_of_mainFailure? {source : Source} (h : mainFailure? source = some f) :
    ∃ s, load default Host.none [] "main" source = .ok s ∧ s.runMain.2 = .failure f ∧
      ¬ s.BreaksDown (.ofBody World.globals s.setting.registry.main) := by
  unfold mainFailure? at h
  split at h
  · next s hload =>
      split at h
      · next g hmain hprogress =>
          obtain rfl := Option.some.inj h
          refine ⟨s, hload, hmain, ?_⟩
          rintro ⟨message, hcrash⟩
          rw [hprogress] at hcrash
          contradiction
      · contradiction
  · contradiction

def dividing : Source :=
  ⟨[], [], [], [.perform ⟨["1", "/", "0"], ⟨"main", 1, "1 / 0"⟩⟩]⟩

/-- A division by zero says where it is. -/
theorem reported_failures_say_where_dividing :
    ∃ s f, load default Host.none [] "main" dividing = .ok s ∧ s.runMain.2 = .failure f ∧
      f.kind = .divisionByZero ∧ f.location.isSome := by
  have hkind : (mainFailure? dividing).map Failure.kind = some .divisionByZero := by
    decide +kernel
  obtain ⟨f, hf, hkind⟩ := Option.map_eq_some_iff.mp hkind
  obtain ⟨s, hload, hmain, hhost⟩ := exists_of_mainFailure? hf
  refine ⟨s, f, hload, hmain, hkind, ?_⟩
  refine ((reported_failures_say_where s).1 f hmain hhost).resolve_right ?_
  rintro ⟨keyword, -, hcore⟩
  rw [Failure.kind_of_core hcore] at hkind
  contradiction

/-- A procedure that leaves a loop where there is none, and a main body that calls it. -/
def straying : Source :=
  ⟨[⟨"f", [], [.breakOut]⟩], [], [], [.perform ⟨["f", "(", ")"], ⟨"main", 1, "f()"⟩⟩]⟩

/-- A loop that is left where there is none does not say where this is. -/
theorem runMain_straying :
    ∃ s f, load default Host.none [] "main" straying = .ok s ∧ s.runMain.2 = .failure f ∧
      ¬ s.BreaksDown (.ofBody World.globals s.setting.registry.main) ∧ f.location = none := by
  have hnone : (mainFailure? straying).map Failure.location = some none := by decide +kernel
  obtain ⟨f, hf, hlocation⟩ := Option.map_eq_some_iff.mp hnone
  obtain ⟨s, hload, hmain, hhost⟩ := exists_of_mainFailure? hf
  exact ⟨s, f, hload, hmain, hhost, hlocation⟩

end Session

end Statute
