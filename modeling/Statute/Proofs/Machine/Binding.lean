import Statute.Proofs.Machine.Cooperation
import Statute.Proofs.Machine.History
import Statute.Proofs.Machine.Isolation
import Statute.Proofs.Machine.Origins

/-!
# How a call binds its parameters

A call of a procedure or of a method looks at the number of its arguments first. If this is
accepted, every parameter without an argument has a default. The defaults are evaluated in the order
of the parameters, each of them once and by itself, in the scopes of the caller. Then the body is
entered in one fresh scope inside the global one, unless the calls are nested too deep. If a default
comes to a failure, this leaves the call, and neither the later defaults nor the body are begun.

`Call.Binds` says this of the history of a machine that makes the call, for each parameter that
remains: the moments at which the default is evaluated are those of a machine that has nothing else
to do.
-/

namespace Statute

def Base.evaluating (b : Base) (code : Code) : Machine :=
  ⟨[.eval code.items [] code.location], .run, ⟨b.scopes.current, []⟩, b.depth⟩

/-- A machine that has come to something, with nothing left above. -/
def Base.answering (b : Base) (signal : Signal) : Machine :=
  ⟨b.frames, signal, b.scopes, b.depth⟩

namespace Call

def begun (c : Call) (b : Base) : Machine :=
  ⟨c.frame :: b.frames, .run, b.scopes, b.depth⟩

def extended (c : Call) (v : Value) : Call :=
  { c with args := c.args ++ [v] }

/-- The machine that waits for the default of a parameter, when this has come to something. -/
def supplied (c : Call) (rest : List Param) (b : Base) (signal : Signal) : Machine :=
  ⟨.supply c rest :: b.frames, signal, b.scopes, b.depth⟩

def miscounted (c : Call) : Failure :=
  (Failure.argumentCount c.procedure.name c.procedure.arityText c.args.length).atCall c.site

def leftBy (c : Call) (f : Failure) : Failure :=
  f.leaving ⟨c.procedure.name, c.site⟩

def Accepted (c : Call) : Prop :=
  c.procedure.required ≤ c.args.length ∧ c.args.length ≤ c.procedure.params.length

instance (c : Call) : Decidable c.Accepted :=
  inferInstanceAs (Decidable (_ ∧ _))

/-- The scope `r` is fresh and binds what a call has: the receiver to its own name, and every other
name to the last argument for a parameter of that name. -/
structure Scoped (c : Call) (w w' : World) (r : ScopeRef) : Prop where
  fresh : r = w.heap.scopes.size ∧ w'.heap.scopes.size = r + 1
  others : ∀ r' < r, w'.heap.scope r' = w.heap.scope r'
  receiver : ∀ object, c.receiver = some object → w'.heap.local? r "this" = some (.object object)
  params : ∀ x, (c.receiver = none ∨ x ≠ "this") →
    w'.heap.local? r x = ((c.procedure.params.map (·.name)).zip c.args).reverse.lookup x

/-- How a call goes on after a step that has left the parameters `rest` without an argument. The
step has led from the world `w` to `w'`, the moments are those that follow, and `m` is what the
machine has become after them. -/
inductive Binds (s : Setting) (b : Base) :
    Call → List Param → World → World → List Moment → Machine → Prop
  /-- The default of the next parameter is still being evaluated, or has just come to something. -/
  | evaluates {c : Call} {p : Param} {rest : List Param} {e : Expression} {code : Code} {w : World}
      {us : List Moment} {n : Machine} (hdefault : p.default = some e)
      (hcode : e.compile = .ok code) (heval : (b.evaluating code).Passes s us n) :
      Binds s b c (p :: rest) w w (us.map (.above (.supply c rest :: b.frames) b.scopes))
        (n.above (.supply c rest :: b.frames) b.scopes)
  /-- The default has come to a value, which is the next argument. The step that takes it goes on
  with the call in the same way. -/
  | supplies {c : Call} {p : Param} {rest : List Param} {e : Expression} {code : Code}
      {w w₁ : World} {us ts : List Moment} {v : Value} {m : Machine}
      (hdefault : p.default = some e) (hcode : e.compile = .ok code)
      (heval : (b.evaluating code).Passes s us ⟨[], .value v, ⟨b.scopes.current, []⟩, b.depth⟩)
      (hrest : Binds s b (c.extended v) rest w₁ ((c.supplied rest b (.value v)).step s w₁).world
        ts m) :
      Binds s b c (p :: rest) w w
        (us.map (.above (.supply c rest :: b.frames) b.scopes) ++
          ⟨w₁, c.supplied rest b (.value v)⟩ :: ts) m
  /-- The default has come to a failure, which leaves the call. -/
  | fails {c : Call} {p : Param} {rest : List Param} {e : Expression} {code : Code}
      {w w₁ : World} {us ts : List Moment} {f : Failure} {m : Machine}
      (hdefault : p.default = some e) (hcode : e.compile = .ok code)
      (heval : (b.evaluating code).Passes s us
        ⟨[], .leave (.failWith f), ⟨b.scopes.current, []⟩, b.depth⟩)
      (hrest : (b.answering (.leave (.failWith (c.leftBy f)))).Passes s ts m) :
      Binds s b c (p :: rest) w w
        (us.map (.above (.supply c rest :: b.frames) b.scopes) ++
          ⟨w₁, c.supplied rest b (.leave (.failWith f))⟩ :: ts) m
  /-- The default is no expression, which fails at once. -/
  | refuses {c : Call} {p : Param} {rest : List Param} {e : Expression} {f : Failure} {w : World}
      {ts : List Moment} {m : Machine} (hdefault : p.default = some e)
      (hcode : e.compile = .error f)
      (hrest : (b.answering (.leave (.failWith (f.atCall c.site)))).Passes s ts m) :
      Binds s b c (p :: rest) w w ts m
  /-- All parameters have arguments, and the body is entered. -/
  | enters {c : Call} {w w' : World} {r : ScopeRef} {ts : List Moment} {m : Machine}
      (hdepth : b.depth < s.config.recursionLimit)
      (hargs : c.args.length = c.procedure.params.length) (hscope : c.Scoped w w' r)
      (hrest : ((c.inside r b.depth).above (.running c :: b.frames)
        (b.scopes.push (r :: World.globals))).Passes s ts m) : Binds s b c [] w w' ts m
  /-- All parameters have arguments, but the calls are nested too deep. -/
  | overreaches {c : Call} {w : World} {ts : List Moment} {m : Machine}
      (hdepth : s.config.recursionLimit ≤ b.depth)
      (hrest : (b.answering
        (.leave (.failWith (c.tooDeep s.config.recursionLimit)))).Passes s ts m) :
      Binds s b c [] w w ts m

variable {s : Setting} {b : Base} {c : Call} {w w' : World} {m : Machine} {ts : List Moment}
  {p : Param} {ps : List Param}

/-! ## The scope of a call -/

theorem local?_defineAll {h : Heap} {r : ScopeRef} (hr : r < h.scopes.size)
    (vars : List (String × Value)) (x : String) :
    (h.defineAll r vars).local? r x = (vars.reverse.lookup x).or (h.local? r x) := by
  induction vars generalizing h with
  | nil => simp [Heap.defineAll]
  | cons var vars ih =>
      obtain ⟨y, v⟩ := var
      rw [Heap.defineAll, ih (by rwa [Heap.size_define]), List.reverse_cons, List.lookup_append,
        Heap.local?_define hr, Option.or_assoc]
      congr 1
      by_cases h : x = y
      · simp [h]
      · simp [h, List.lookup_cons, beq_false_of_ne h]

theorem scope_defineAll_of_ne {h : Heap} {r r' : ScopeRef} (hr : r' ≠ r)
    (vars : List (String × Value)) : (h.defineAll r vars).scope r' = h.scope r' := by
  induction vars generalizing h with
  | nil => rfl
  | cons var vars ih =>
      rw [Heap.defineAll, ih]
      simp [Heap.define, Heap.scope, Array.getD_eq_getD_getElem?, Array.getElem?_modify, Ne.symm hr]

theorem scoped_opened (c : Call) (w : World) : c.Scoped w (c.opened w) w.heap.scopes.size := by
  have hsize : w.heap.scopes.size < (w.heap.newScope c.procedure.name).1.scopes.size := by
    simp [Heap.newScope]
  refine ⟨⟨rfl, c.size_opened w⟩, ?_, ?_, ?_⟩
  · intro r' hr'
    rw [opened, scope_defineAll_of_ne (Nat.ne_of_lt hr'), Heap.scope_newScope_of_lt hr']
  · intro object hreceiver
    simp [opened, local?_defineAll hsize, Machine.callVars, hreceiver]
  · intro x hx
    rw [opened, local?_defineAll hsize, Heap.local?_newScope_size, Option.or_none]
    cases hreceiver : c.receiver with
    | none => simp [Machine.callVars, hreceiver]
    | some object =>
        have hne : x ≠ "this" := hx.resolve_left (by simp [hreceiver])
        simp [Machine.callVars, hreceiver, List.lookup_cons, beq_false_of_ne hne]

/-! ## The steps of a call -/

theorem step_begun (c : Call) (b : Base) :
    (c.begun b).step s w = (b.answering .run).bind s w c := by
  obtain ⟨p, receiver, args, site⟩ := c
  cases receiver <;> rfl

/-- With a number of arguments that is not accepted a call fails at once. -/
theorem step_begun_miscounted (hcount : ¬ c.Accepted) :
    (c.begun b).step s w = ⟨.next, w, b.answering (.leave (.failWith c.miscounted))⟩ := by
  have hbad : c.args.length < c.procedure.required ∨
      c.procedure.params.length < c.args.length := by
    unfold Accepted at hcount
    omega
  rw [step_begun, Machine.bind]
  simp only [if_pos hbad]
  rfl

theorem step_begun_accepted (hcount : c.Accepted) :
    (c.begun b).step s w =
      (b.answering .run).supply s w c (c.procedure.params.drop c.args.length) := by
  have hgood : ¬ (c.args.length < c.procedure.required ∨
      c.procedure.params.length < c.args.length) := by
    unfold Accepted at hcount
    omega
  rw [step_begun, Machine.bind]
  simp only [if_neg hgood]

theorem inOrder_evaluating (b : Base) (code : Code) :
    (b.evaluating code).InOrder .value b.depth b.scopes.current :=
  ⟨rfl, rfl, _, _, .nothing rfl rfl _ _, .root⟩

/-- A machine that waits for a value by itself comes to one, or to a failure. -/
theorem answer_of_inOrder {n : Machine} {base : Nat} {env : Env}
    (horder : n.InOrder .value base env) (hend : n.frames = []) :
    ∃ signal, IsAnswer signal ∧ n = ⟨[], signal, ⟨env, []⟩, base⟩ := by
  have hn := horder.eq_of_frames_nil hend
  rw [hn] at horder
  refine ⟨n.signal, ?_, hn⟩
  generalize n.signal = signal at horder
  cases signal with
  | value v => exact Or.inl ⟨v, rfl⟩
  | run => exact absurd (Upholds.of_nil horder.2).1 (by decide)
  | leave e =>
      cases e with
      | failWith f => exact Or.inr ⟨f, rfl⟩
      | _ => exact absurd (Upholds.of_nil horder.2).1 (by decide)

/-- Whatever the history of a machine that supplies the parameters that remain, it is one that the
call can have. -/
theorem binds_supply (hps : ∀ p ∈ ps, p.default.isSome)
    (hargs : c.args.length + ps.length = c.procedure.params.length)
    (h : ((b.answering .run).supply s w c ps).machine.Passes s ts m) :
    Binds s b c ps w ((b.answering .run).supply s w c ps).world ts m := by
  induction ps generalizing c w ts with
  | nil =>
      by_cases hdepth : s.config.recursionLimit ≤ b.depth
      · have hdeep : (b.answering .run).supply s w c [] = ⟨.next, w,
            b.answering (.leave (.failWith (c.tooDeep s.config.recursionLimit)))⟩ := if_pos hdepth
        rw [hdeep] at h ⊢
        exact .overreaches hdepth h
      · have hinside : (b.answering .run).supply s w c [] = ⟨.next, c.opened w,
            (c.inside w.heap.scopes.size b.depth).above (.running c :: b.frames)
              (b.scopes.push (w.heap.scopes.size :: World.globals))⟩ := if_neg hdepth
        rw [hinside] at h ⊢
        exact .enters (Nat.lt_of_not_le hdepth) hargs (scoped_opened c w) h
  | cons p rest ih =>
      obtain ⟨hp, hrest⟩ := List.forall_mem_cons.mp hps
      obtain ⟨e, hdefault⟩ := Option.isSome_iff_exists.mp hp
      cases hcode : e.compile with
      | error f =>
          have hrefuses : (b.answering .run).supply s w c (p :: rest) =
              ⟨.next, w, b.answering (.leave (.failWith (f.atCall c.site)))⟩ := by
            simp only [Machine.supply, hdefault, hcode]
            rfl
          rw [hrefuses] at h ⊢
          exact .refuses hdefault hcode h
      | ok code =>
          have heval : (b.answering .run).supply s w c (p :: rest) = ⟨.next, w,
              (b.evaluating code).above (.supply c rest :: b.frames) b.scopes⟩ := by
            simp only [Machine.supply, hdefault, hcode]
            rfl
          rw [heval] at h ⊢
          rcases h.of_above (inOrder_evaluating b code) with ⟨us, n, rfl, rfl, hus⟩ |
            ⟨us, n, w₁, later, rfl, hus, hend, hlater⟩
          · exact .evaluates hdefault hcode hus
          · obtain ⟨signal, ⟨v, rfl⟩ | ⟨f, rfl⟩, rfl⟩ :=
              answer_of_inOrder (hus.inOrder (inOrder_evaluating b code)) hend
            · cases hlater with
              | go hcrash hnext =>
                  refine .supplies hdefault hcode hus (ih hrest ?_ hnext)
                  simpa [extended, Nat.add_assoc, Nat.add_comm 1] using hargs
            · cases hlater with
              | go hcrash hnext => exact .fails hdefault hcode hus hnext

/-- A call with an accepted number of arguments does not fail at once because of this number. -/
theorem Binds.kind_ne {f : Failure}
    (h : Binds s b c ps w w' [] (b.answering (.leave (.failWith f)))) :
    f.kind ≠ .argumentCount := by
  generalize hts : ([] : List Moment) = ts at h
  generalize hm : b.answering (.leave (.failWith f)) = m at h
  have hkind : ∀ g : Failure, f = g.atCall c.site → g.kind ≠ .argumentCount →
      f.kind ≠ .argumentCount := by
    rintro g rfl hg
    rwa [Failure.kind_of_core (Failure.core_atCall g c.site)]
  cases h with
  | evaluates =>
      have hlength := congrArg (List.length ∘ Machine.frames) hm
      simp only [Function.comp_apply, Base.answering, Machine.above, List.length_append,
        List.length_cons] at hlength
      omega
  | supplies => simp at hts
  | fails => simp at hts
  | refuses hdefault hcode hrest =>
      subst hts
      cases hrest
      refine hkind _ ?_ (by rw [(Expression.failure_of_compile hcode).1]; decide)
      cases hm
      rfl
  | enters hdepth hargs hscope hrest =>
      subst hts
      cases hrest
      have hlength := congrArg (List.length ∘ Machine.frames) hm
      simp only [Function.comp_apply, Base.answering, Machine.above, inside, List.length_append,
        List.length_cons] at hlength
      omega
  | overreaches hdepth hrest =>
      subst hts
      cases hrest
      cases hm
      exact hkind (Failure.new .recursionLimit _) rfl (by simp [Failure.new])

/-- A call fails because of the number of its arguments exactly if this is not accepted, and then it
does so at once: no default is evaluated, and the body is not entered. Otherwise every parameter
without an argument has a default, and the call goes on with them one by one, as `Call.Binds`
says. -/
theorem binds_params (s : Setting) (c : Call) (b : Base) (w : World) :
    ((∃ f : Failure, f.kind = .argumentCount ∧
        ((c.begun b).step s w).machine = b.answering (.leave (.failWith f))) ↔ ¬ c.Accepted) ∧
      (¬ c.Accepted →
        (c.begun b).step s w = ⟨.next, w, b.answering (.leave (.failWith c.miscounted))⟩) ∧
      (c.Accepted →
        (∀ p ∈ c.procedure.params.drop c.args.length, p.default.isSome) ∧
          ∀ ts m, ((c.begun b).step s w).machine.Passes s ts m →
            Binds s b c (c.procedure.params.drop c.args.length) w ((c.begun b).step s w).world
              ts m) := by
  have haccepted : c.Accepted →
      (∀ p ∈ c.procedure.params.drop c.args.length, p.default.isSome) ∧
        ∀ ts m, ((c.begun b).step s w).machine.Passes s ts m →
          Binds s b c (c.procedure.params.drop c.args.length) w ((c.begun b).step s w).world
            ts m := by
    intro hcount
    have hps : ∀ p ∈ c.procedure.params.drop c.args.length, p.default.isSome :=
      fun p hp => Procedure.isSome_default_of_mem_drop hcount.1 hp
    have hlength : c.args.length + (c.procedure.params.drop c.args.length).length =
        c.procedure.params.length := by
      rw [List.length_drop, Nat.add_sub_cancel' hcount.2]
    refine ⟨hps, fun ts m hpasses => ?_⟩
    rw [step_begun_accepted hcount] at hpasses ⊢
    exact binds_supply hps hlength hpasses
  refine ⟨⟨?_, ?_⟩, step_begun_miscounted, haccepted⟩
  · rintro ⟨f, hkind, hfails⟩ hcount
    have hbinds := (haccepted hcount).2 [] _ (.stay _)
    rw [hfails] at hbinds
    exact hbinds.kind_ne hkind
  · intro hcount
    refine ⟨c.miscounted, ?_, by rw [step_begun_miscounted hcount]⟩
    exact Failure.kind_of_core (Failure.core_atCall _ c.site)

/-- A call with one argument of a procedure that has two parameters of the same name. -/
def repeatedName : Call :=
  let params : List Param := [⟨"a", none⟩, ⟨"a", some ⟨["7"], ⟨"main", 1, "7"⟩⟩⟩]
  ⟨⟨"f", params, []⟩, none, [.int 1], none⟩

/-- Three steps after it has begun, this call has the value of its default and enters its body with
the next step. -/
def repeatedNameSupplied : Bool :=
  let s : Setting := ⟨default, default, Host.none⟩
  let w := World.new default
  match (((repeatedName.begun ⟨[], ⟨World.globals, []⟩, 0⟩).step s w).machine.resume s 3 w) with
  | ⟨.suspended, _, m⟩ =>
      match m.frames with
      | [.body _ _ _, .running c] => c.args.length = 2 && m.depth = 1
      | _ => false
  | _ => false

/-- The call gets to its body, where the argument is bound first and then the value of the default,
under the same name. -/
theorem binds_params_repeatedName :
    ∃ s b w ts m, ((repeatedName.begun b).step s w).machine.Passes s ts m ∧
      m.frames.length = 2 ∧
      Binds s b repeatedName [⟨"a", some ⟨["7"], ⟨"main", 1, "7"⟩⟩⟩] w
        ((repeatedName.begun b).step s w).world ts m := by
  have hrun : repeatedNameSupplied = true := by decide +kernel
  simp only [repeatedNameSupplied] at hrun
  split at hrun
  · next w m hresume =>
      split at hrun
      · next hframes =>
          obtain ⟨sts, hwalk, -⟩ := Machine.walks_of_resume hresume (Or.inl rfl)
          obtain ⟨ts, hpasses⟩ := hwalk.passes
          have haccepted : repeatedName.Accepted := by decide
          refine ⟨_, _, _, ts, m, hpasses, by rw [hframes]; rfl, ?_⟩
          exact ((binds_params _ _ _ _).2.2 haccepted).2 ts m hpasses
      · contradiction
  · contradiction

/-- One procedure calls another, with a limit of one call. -/
def nestedCall : Machine :=
  Machine.ofBody World.globals [.perform ⟨["f", "(", ")"], ⟨"main", 1, "f()"⟩⟩]

def nestedWorld : World :=
  let w := World.new default
  let f : Procedure := ⟨"f", [], [.returnWith (some ⟨["g", "(", ")"], ⟨"main", 2, "g()"⟩⟩)]⟩
  let g : Procedure := ⟨"g", [], [.returnWith (some ⟨["1"], ⟨"main", 3, "1"⟩⟩)]⟩
  { w with heap := w.heap.defineAll 0 [("f", .procedure f), ("g", .procedure g)] }

/-- After seven steps the second procedure is about to be called, inside of the first one. -/
def nestedAtLimit : Bool :=
  let s : Setting := ⟨default, { (default : Config) with recursionLimit := 1 }, Host.none⟩
  match nestedCall.resume s 7 nestedWorld with
  | ⟨.suspended, _, m⟩ =>
      match m.frames, m.signal with
      | .call (.procedure g) [] _ :: _, .run => g.params.isEmpty && m.depth = 1
      | _, _ => false
  | _ => false

/-- A machine makes a call without arguments of a procedure without parameters. Nothing is wrong
with their number and no default can fail, but the body is not entered. -/
theorem binds_params_nestedCall :
    ∃ (s : Setting) (c : Call) (b : Base) (w : World),
      Relation.ReflTransGen (Machine.Steps s) nestedCall (c.begun b) ∧ c.Accepted ∧
      c.procedure.params = [] ∧
      ((c.begun b).step s w).machine = b.answering (.leave (.failWith (c.tooDeep 1))) := by
  have hrun : nestedAtLimit = true := by decide +kernel
  simp only [nestedAtLimit] at hrun
  split at hrun
  · next w m hresume =>
      split at hrun
      · next g site fs hframes hsignal =>
          simp only [Bool.and_eq_true, List.isEmpty_iff, decide_eq_true_eq] at hrun
          obtain ⟨hparams, hdepth⟩ := hrun
          obtain ⟨sts, hwalk, -⟩ := Machine.walks_of_resume hresume (Or.inl rfl)
          obtain ⟨ts, hpasses⟩ := hwalk.passes
          obtain ⟨frames, signal, scopes, depth⟩ := m
          obtain rfl : frames = _ := hframes
          obtain rfl : signal = _ := hsignal
          obtain rfl : depth = 1 := hdepth
          have haccepted : (⟨g, none, [], site⟩ : Call).Accepted := by
            simp [Accepted, Procedure.required, Procedure.requiredOf, hparams]
          refine ⟨_, ⟨g, none, [], site⟩, ⟨fs, scopes, 1⟩, w, hpasses.reaches, haccepted, hparams,
            ?_⟩
          rw [step_begun_accepted haccepted, hparams]
          rfl
      · contradiction
  · contradiction

end Call

end Statute
