import Statute.Proofs.Concurrency.Bounds
import Statute.Proofs.Concurrency.Provenance
import Statute.Proofs.Machine.Compiling
import Statute.Proofs.Registry.Checking

/-!
# Checked programs

A check compiles every expression of a registry and reports those that do not compile. A run
compiles expressions when it comes to them. Whatever a machine of the program comes to, in whatever
state of the world, has been checked: its code is drawn from the main body and from procedures of
the repertoire, and their expressions are those of the registry. So a run of a program with a clean
check does not raise an error of compilation, and other runs raise only errors that the check
reports.

A machine can also be begun with a body or an expression that does not belong to the program. It
may then come to the expressions that were handed in with it, and to no others.
-/

namespace Statute

open Relation (ReflTransGen)

namespace Registry

theorem complaint?_eq_some_iff {e : Expression} {f : Failure} :
    complaint? e = some f ↔ e.compile = .error f := by
  unfold complaint?
  cases e.compile <;> simp

theorem mem_check_of_compile {r : Registry} {e : Expression} {f : Failure}
    (he : e ∈ r.expressions) (hcompile : e.compile = .error f) : f ∈ r.check :=
  List.mem_filterMap.mpr ⟨e, he, complaint?_eq_some_iff.mpr hcompile⟩

end Registry

namespace Machine

variable {s : Setting} {R : Repertoire} {r : Registry} {w : World} {m m₀ : Machine}
  {E T : List Expression}

/-- A machine takes a step in a world that keeps to a repertoire, and the host does not break
down. -/
def StepsAmong (s : Setting) (R : Repertoire) (m m' : Machine) : Prop :=
  ∃ w, w.Among R ∧ (m.step s w).machine = m' ∧ ∀ message, (m.step s w).step ≠ .crash message

/-- A machine as it is begun, and the expressions that are handed in with it. There are none if the
program itself is run. -/
inductive BegunWith (r : Registry) : List Expression → Machine → Prop
  | program {m : Machine} (h : m.OfProgram r) : BegunWith r [] m
  | body (env : Env) (b : Body) : BegunWith r (Body.expressions b) (ofBody env b)
  | code (env : Env) {e : Expression} {c : Code} (hcode : e.compile = .ok c) :
      BegunWith r [e] (ofCode env c)

theorem BegunWith.launched (h : m.BegunWith r T) : m.Launched r.repertoire := by
  cases h with
  | program h =>
      cases h with
      | main env => exact .body env _
      | call env hcallee hargs => exact .call env hcallee hargs
  | body env b => exact .body env b
  | code env hcode => exact .code env (Expression.itemsOf_of_compile hcode)

theorem Launched.fresh (h : m.Launched R) : ∃ env, m.Fresh env := by
  cases h with
  | body env b => exact ⟨env, .body b⟩
  | code env hcode => exact ⟨env, .code _⟩
  | call env hcallee hargs => exact ⟨env, .call _ _⟩

theorem BegunWith.drawsOn (h : m.BegunWith r T) :
    ∀ f ∈ m.frames, f.DrawsOn (T ++ r.expressions) := by
  cases h with
  | program h =>
      cases h with
      | main env =>
          refine List.forall_mem_singleton.mpr (Frame.drawsOn_body ?_ false false)
          exact List.subset_append_left _ _
      | call env hcallee hargs =>
          exact List.forall_mem_singleton.mpr (Frame.drawsOn_of_nil rfl trivial)
  | body env b =>
      refine List.forall_mem_singleton.mpr (Frame.drawsOn_body ?_ false false)
      exact List.subset_append_left _ _
  | code env hcode =>
      exact List.forall_mem_singleton.mpr (Frame.drawsOn_compiled List.mem_cons_self hcode)

/-- The frames of a machine go on to draw on the same expressions. -/
theorem Kept.drawsOn_step (h : m.Kept R) (hR : ∀ p ∈ R.procedures, p.expressions ⊆ E)
    (hdraws : ∀ f ∈ m.frames, f.DrawsOn E)
    (hcrash : ∀ message, (m.step s w).step ≠ .crash message) :
    ∀ f ∈ (m.step s w).machine.frames, f.DrawsOn E := by
  obtain ⟨goal, env, horder⟩ := h.inOrder
  exact horder.forall_step hcrash
    (fun hf hdraws hbecomes => hbecomes.drawsOn (h.among.frames _ hf) hR hdraws) hdraws

/-- Whatever a machine compiles and evaluates is among some expressions. -/
structure KeepsTo (s : Setting) (E : List Expression) (m : Machine) : Prop where
  /-- So is whatever its next step may compile. -/
  compiles : ∀ e, m.Compiles e → e ∈ E
  /-- Code that is evaluated was compiled from one of them. -/
  code : ∀ items stack site, .eval items stack site ∈ m.frames →
    ∃ e ∈ E, ∃ c, e.compile = .ok c ∧ items <:+ c.items ∧ site = c.location
  /-- An error of form is one that the machine comes upon, or the way out of a loop where there is
  none, or one of them does not compile. -/
  fails : ∀ w f, (m.step s w).machine.signal = .leave (.failWith f) → f.kind = .syntaxError →
    (∃ g, m.Meets s w g ∧ f.core = g.core) ∨ (∃ keyword, f = outsideLoop keyword) ∨
      ∃ e ∈ E, m.Compiles e ∧ e.compile = .error f

/-- Where an error of form comes from. -/
theorem Cause.meets_or_refused {f : Failure} (h : m.Cause s w f) (hkind : f.kind = .syntaxError) :
    (∃ g, m.Meets s w g ∧ f.core = g.core) ∨ (∃ keyword, f = outsideLoop keyword) ∨
      ∃ e, m.Compiles e ∧ e.compile = .error f := by
  cases h with
  | underWay hsignal hcore hplace => exact Or.inl ⟨_, .underWay hsignal, hcore⟩
  | outside hframes hcall hsignal hexit => exact Or.inr (Or.inl ⟨_, rfl⟩)
  | @arisen top fs g hframes harises =>
      cases harises with
      | ordinary hordinary =>
          rw [Failure.kind_of_core (Failure.core_atCall g _)] at hkind
          exact absurd hkind hordinary.kind.2
      | met hmeets => exact Or.inl ⟨g, hmeets, Failure.core_atCall g _⟩
      | refused hcompiles hcompile =>
          rw [Expression.atCall_of_compile hcompile]
          exact Or.inr (Or.inr ⟨_, hcompiles, hcompile⟩)

/-- Wherever a machine gets to, it keeps to what was handed in with it and to the program. -/
theorem BegunWith.keepsTo (hbegun : m₀.BegunWith r T) (hs : s.Among r.repertoire)
    (hR : ∀ p ∈ r.repertoire.procedures, p.expressions ⊆ r.expressions)
    (hreach : ReflTransGen (StepsAmong s r.repertoire) m₀ m) :
    m.KeepsTo s (T ++ r.expressions) := by
  have hR' : ∀ p ∈ r.repertoire.procedures, p.expressions ⊆ T ++ r.expressions := fun p hp =>
    List.subset_append_of_subset_right _ (hR p hp)
  have hinv : m.Kept r.repertoire ∧ ∀ f ∈ m.frames, f.DrawsOn (T ++ r.expressions) := by
    induction hreach with
    | refl => exact ⟨hbegun.launched.kept, hbegun.drawsOn⟩
    | tail _ hstep ih =>
        obtain ⟨w, hw, rfl, hcrash⟩ := hstep
        exact ⟨ih.1.step hs hw hcrash, ih.1.drawsOn_step hR' ih.2 hcrash⟩
  have hsteps : ReflTransGen (Steps s) m₀ m :=
    ReflTransGen.mono (fun _ _ ⟨w, _, hstep, hcrash⟩ => ⟨w, hstep, hcrash⟩) _ _ hreach
  have hcompiles : ∀ e, m.Compiles e → e ∈ T ++ r.expressions := by
    rintro e ⟨f, fs, hframes, hcompiles⟩
    have hf : f ∈ m.frames := hframes ▸ List.mem_cons_self
    exact hcompiles.mem (hinv.1.among.frames f hf) hR' (hinv.2 f hf)
  refine ⟨hcompiles, fun items stack site hf => (hinv.2 _ hf).evaluates, ?_⟩
  intro w f hf hkind
  obtain ⟨env, hfresh⟩ := hbegun.launched.fresh
  obtain ⟨goal, horder, -⟩ := hfresh.reached hsteps
  cases hframes : m.frames with
  | nil =>
      rw [step_of_frames_nil hframes] at hf
      exact Or.inl ⟨f, .underWay hf, rfl⟩
  | cons g fs =>
      have hcause := (horder.within_step (placed_of_reached hfresh hsteps) hframes).failure f hf
      refine (hcause.meets_or_refused hkind).imp_right fun h => h.imp_right ?_
      rintro ⟨e, he, hcompile⟩
      exact ⟨e, hcompiles e he, he, hcompile⟩

def ComesFrom (s : Setting) (r : Registry) (T : List Expression) (m : Machine) : Prop :=
  ∃ m₀, m₀.BegunWith r T ∧ ReflTransGen (StepsAmong s r.repertoire) m₀ m

end Machine

namespace System

/-- Steps keep machines to where they come from. Calls that are entrusted to the pool come from the
program. -/
theorem keeps_comesFrom {s : Setting} {r : Registry} {Handed : List Expression → Prop}
    (hs : s.Among r.repertoire) (hnone : Handed []) :
    Keeps s (fun _ _ => True) (Heap.Among r.repertoire)
      (fun m => m.Kept r.repertoire ∧ ∃ T, Handed T ∧ m.ComesFrom s r T)
      fun o => ∀ v, o = .ok v → v.Among r.repertoire where
  heap := fun hheap htasks hm =>
    (keeps_among hs).heap hheap (htasks.imp (fun _ => And.left) fun _ => id) hm.1
  machine := by
    rintro w m hheap htasks ⟨hkept, T, hT, m₀, hbegun, hreach⟩ - hcrash
    have hw : w.Among r.repertoire := ⟨hheap, fun t v hv => htasks.outcome t _ hv v rfl⟩
    exact ⟨hkept.step hs hw hcrash, T, hT, m₀, hbegun, hreach.tail ⟨w, hw, rfl, hcrash⟩⟩
  entrusts := by
    intro w m callee args hheap hm hentrusts
    have hkept := (keeps_among hs).entrusts hheap hm.1 hentrusts
    have hcall : (Frame.call callee args none).Among r.repertoire :=
      hkept.among.frames _ List.mem_cons_self
    exact ⟨hkept, [], hnone, _, .program (.call _ hcall.1 hcall.2), .refl⟩
  outcome := fun hm hframes => (keeps_among hs).outcome hm.1 hframes
  breakdown := fun hm hQ hcrash => (keeps_among hs).breakdown hm.1 hQ hcrash
  abandonment := (keeps_among hs).abandonment
  locks := (keeps_among hs).locks

end System

/-- A check visits the expressions of the source, each in the file of the program, and reports one
failure for each of them that does not compile. Whatever a machine compiles, wherever it has got to
in whatever state of the world, is one of them or was handed in with the machine; and where it is
the program that runs, a clean check leaves no error of compilation to be raised. The machines of a
run are such machines. -/
theorem Session.check_covers_runs {config : Config} {host : Host} {extensions : List Extension}
    {file : String} {source : Source} {session : Session}
    (hload : load config host extensions file source = .ok session)
    (hhost : host.Among session.setting.registry.repertoire) :
    session.setting.registry.expressions.Perm
        (source.expressions.map (Expression.inFile file)) ∧
      session.setting.registry.check.Perm
        ((source.expressions.map (Expression.inFile file)).filterMap Registry.complaint?) ∧
      (∀ (T : List Expression) (m : Machine),
        m.ComesFrom session.setting session.setting.registry T →
        m.KeepsTo session.setting (T ++ session.setting.registry.expressions) ∧
          (session.setting.registry.check = [] → ∀ e f, m.Compiles e → e.compile = .error f →
            e ∈ T) ∧
          (session.setting.registry.check = [] → T = [] → ∀ w f,
            (m.step session.setting w).machine.signal = .leave (.failWith f) →
            f.kind = .syntaxError →
            (∃ g, m.Meets session.setting w g ∧ f.core = g.core) ∨
              ∃ keyword, f = Machine.outsideLoop keyword)) ∧
      ∀ (Handed : List Expression → Prop) (σ : System), Handed [] →
        System.Runs session.setting
          (fun m => ∃ T, Handed T ∧ m.BegunWith session.setting.registry T)
          (fun v => v.Among session.setting.registry.repertoire) ⟨session.world, []⟩ σ →
        σ.world.Among session.setting.registry.repertoire ∧
          ∀ m ∈ σ.live, ∃ T, Handed T ∧
            m.ComesFrom session.setting session.setting.registry T := by
  obtain ⟨hhost', hheap, htasks⟩ := Session.among_load hload session.setting.registry.repertoire
  have hs : session.setting.Among session.setting.registry.repertoire :=
    ⟨Registry.among_repertoire _, hhost' ▸ hhost⟩
  have hbuild : ∃ h h', Registry.build h file extensions source =
      .ok (h', session.setting.registry) := by
    obtain ⟨⟨heap, registry⟩, hbuild, hsession⟩ := exists_of_bind_eq_ok hload
    obtain rfl := Except.ok.inj hsession
    exact ⟨_, heap, hbuild⟩
  obtain ⟨h, h', hbuild⟩ := hbuild
  have hperm := Registry.perm_expressions_build hbuild
  refine ⟨hperm, hperm.filterMap _, ?_, ?_⟩
  · rintro T m ⟨m₀, hbegun, hreach⟩
    have hkeeps := hbegun.keepsTo hs (fun p => Registry.expressions_of_repertoire hbuild) hreach
    -- With a clean check only what was handed in can be refused.
    have hclean : session.setting.registry.check = [] → ∀ e f, m.Compiles e →
        e.compile = .error f → e ∈ T := by
      intro hcheck e f he hcompile
      refine (List.mem_append.mp (hkeeps.compiles e he)).resolve_right fun hmem => ?_
      have hreported := Registry.mem_check_of_compile hmem hcompile
      rw [hcheck] at hreported
      contradiction
    refine ⟨hkeeps, hclean, fun hcheck hT w f hf hkind => ?_⟩
    refine (hkeeps.fails w f hf hkind).imp_right fun h => h.resolve_right ?_
    rintro ⟨e, -, he, hcompile⟩
    have hmem := hclean hcheck e f he hcompile
    rw [hT] at hmem
    contradiction
  · intro Handed σ hnone hruns
    have hholds := hruns.holds (System.keeps_comesFrom hs hnone)
      (fun m ⟨T, hT, hm⟩ => ⟨hm.launched.kept, T, hT, m, hm, .refl⟩)
      (fun h name v hv hheap => hheap.define hv 0 name) hheap htasks rfl
    exact ⟨hholds.world_among, fun m hm => (hholds.of_live hm).2⟩

/-- A procedure whose default does not compile, a method that calls it with an argument, and a main
body that calls it without one. -/
def careless : Source :=
  ⟨[⟨"f", [⟨"x", some ⟨["1", "+"], default⟩⟩], []⟩],
    [⟨"C", none, [⟨"m", [], [.perform ⟨["f", "(", "1", ")"], default⟩]⟩], none⟩], [],
    [.perform ⟨["f", "(", ")"], default⟩]⟩

/-- Whether the careless program is about to compile the default after three steps, and fails to. -/
def carelessFails : Bool :=
  match Session.load default Host.none [] "main" careless with
  | .ok session =>
      match (Machine.ofBody World.globals session.setting.registry.main).run session.setting 3
        session.world with
      | ⟨.suspended, w, ⟨.call (.procedure p) args site :: fs, .run, scopes, depth⟩⟩ =>
          match (Machine.step session.setting w
            ⟨.call (.procedure p) args site :: fs, .run, scopes, depth⟩).machine.signal with
          | .leave (.failWith f) => decide (f.kind = .syntaxError ∧ f.location.isSome)
          | _ => false
      | _ => false
  | _ => false

/-- After three steps of the careless program a step fails because the default does not compile. The
check reports this failure. -/
theorem Session.check_covers_runs_careless :
    ∃ session σ m f,
      Session.load default Host.none [] "main" careless = .ok session ∧
        System.Runs session.setting
          (fun m => ∃ T, T = [] ∧ m.BegunWith session.setting.registry T)
          (fun v => v.Among session.setting.registry.repertoire) ⟨session.world, []⟩ σ ∧
        m ∈ σ.live ∧ (m.step session.setting σ.world).machine.signal = .leave (.failWith f) ∧
        f ∈ session.setting.registry.check := by
  have hfails : carelessFails = true := by decide +kernel
  unfold carelessFails at hfails
  split at hfails
  · next session hload =>
      split at hfails
      · next w p args site fs scopes depth hcarried =>
          split at hfails
          · next f hsignal =>
              obtain ⟨hkind, hlocation⟩ := of_decide_eq_true hfails
              have hmain : (Machine.ofBody World.globals session.setting.registry.main).BegunWith
                  session.setting.registry [] := .program (.main World.globals)
              have hstart : System.Runs session.setting
                  (fun m => ∃ T, T = [] ∧ m.BegunWith session.setting.registry T)
                  (fun v => v.Among session.setting.registry.repertoire) ⟨session.world, []⟩
                  ⟨session.world, [Machine.ofBody World.globals session.setting.registry.main]⟩ :=
                .single (.start ⟨[], rfl, hmain⟩)
              have hruns := hstart.trans (System.runs_run (Session.idle_load hload) 3 _ [] [])
              rw [hcarried] at hruns
              set m : Machine := ⟨.call (.procedure p) args site :: fs, .run, scopes, depth⟩
              have hlive : m ∈ (System.mk w [m]).live := List.mem_append_left _ (.head _)
              refine ⟨session, _, _, f, hload, hruns, hlive, hsignal, ?_⟩
              obtain ⟨-, -, hkeeps, hcomes⟩ := Session.check_covers_runs hload (Host.among_none _)
              obtain ⟨T, rfl, hm⟩ := (hcomes (· = []) _ rfl hruns).2 _ hlive
              obtain ⟨g, hmeets, -⟩ | ⟨keyword, rfl⟩ | ⟨e, he, -, hcompile⟩ :=
                (hkeeps [] _ hm).1.fails w f hsignal hkind
              · -- Nothing is under way, and a procedure is neither thrown nor asked nor awaited.
                cases hmeets with
                | underWay h => cases h
                | raised h =>
                    cases h with
                    | thrown h => cases h
                    | answered h =>
                        cases h with
                        | item _ h => cases h
                        | call _ h => cases h
                | awaited _ h => cases h
              · cases hlocation
              · exact Registry.mem_check_of_compile he hcompile
          · contradiction
      · contradiction
  · contradiction

end Statute
