import Statute.Proofs.Machine.Operands
import Statute.Proofs.Machine.Stages
import Statute.Proofs.Machine.Succession
import Statute.Proofs.Value.Operations

/-!
# Where failures come from

A failure that a step leaves behind has one of a few causes, `Machine.Cause`: it is under way, a
loop is left where there is none, or it arises at the frame on top, which then says where. What
arises there is an ordinary failure of an operation, a failure that the machine comes upon, or the
error of an expression that does not compile.

So a machine never makes up an internal failure: an operator is applied only where it stands for an
operation, and a parameter whose default is needed has one. An internal failure that a step leaves
behind was there before, as the failure that is under way or as the outcome of the task that is
waited for, or the program throws it, or an extension of the host answers with it.

A value that a step leaves behind is for the frame right below the one that the step took off.
-/

namespace Statute

/-- A value that cannot be thrown fails as such. -/
theorem Heap.eq_notThrowable_of_thrown {h : Heap} {v : Value} {f : Failure}
    (hthrown : h.thrown v = .error f) : f = h.notThrowable v := by
  unfold thrown at hthrown
  split at hthrown <;> try split at hthrown
  all_goals first
    | contradiction
    | exact (Except.error.inj hthrown).symm

/-- What a failure says, without its place and the calls that it has left. -/
def Failure.core (f : Failure) : ErrorKind × String × String × Option ObjectRef :=
  (f.kind, f.className, f.message, f.payload)

theorem Failure.kind_of_core {f g : Failure} (h : f.core = g.core) : f.kind = g.kind :=
  congrArg Prod.fst h

theorem Failure.core_atCall (f : Failure) (site : Option Location) :
    (f.atCall site).core = f.core := by
  cases site <;> rfl

/-- A failure that has its place keeps it at a call. -/
theorem Failure.atCall_of_location {f : Failure} {l : Location} (h : f.location = some l)
    (site : Option Location) : f.atCall site = f := by
  obtain ⟨kind, className, message, payload, location, trace⟩ := f
  obtain rfl : location = some l := h
  cases site <;> rfl

theorem Expression.atCall_of_compile {e : Expression} {f : Failure} (h : e.compile = .error f)
    (site : Option Location) : f.atCall site = f :=
  Failure.atCall_of_location (failure_of_compile h).2 site

/-! ## Items -/

/-- An item calls an extension at once. -/
inductive Item.Asks (s : Setting) (h : Heap) (env : Env) (stack : List Operand) (e : Extension) :
    Item → List Value → Prop
  | load {name : String} (hname : s.resolve h env name = .ok (.extension e))
      (hauto : e.arity.autoInvoke = true) : Asks s h env stack e (.load name) []
  | call {name : String} {args : List Value} {below : List Operand}
      (hargs : Operand.popArgs h [] stack = .ok (args, below))
      (hname : s.resolve h env name = .ok (.extension e)) :
      Asks s h env stack e (.call name false) args
  | invoke {callee : Value} {args : List Value} {below : List Operand}
      (hargs : Operand.popArgs h [] stack = .ok (args, .value callee :: below))
      (hcallee : h.unbox callee = .extension e) : Asks s h env stack e (.invoke false) args

namespace Effect

/-- If an effect is a failure then `P` holds of it, if it is a breakdown of the host then `B` holds
of the message, and if it waits for a task then `Q` holds of the task. -/
def Within (P : Failure → Prop) (B : Option String → Prop) (Q : TaskRef → Prop) : Effect → Prop
  | .fail f => P f
  | .crash message => B message
  | .await t _ => Q t
  | _ => True

variable {P : Failure → Prop} {B : Option String → Prop} {Q : TaskRef → Prop}

theorem within_bind {α : Type} {x : Except Failure α} {f : α → Except Failure Effect}
    {R : α → Prop} (hown : ∀ f : Failure, f.Ordinary → P f) (hx : Gives R x)
    (hf : ∀ a, x = .ok a → (ofExcept (f a)).Within P B Q) :
    (ofExcept (x >>= f)).Within P B Q := by
  cases x with
  | error e => exact hown e (hx.failure e rfl)
  | ok a => exact hf a rfl

theorem within_ofAnswer {stack : List Operand} {answer : HostAnswer}
    (h : ∀ f, answer = .failure f → P f)
    (hcrash : ∀ message, answer = .crash message → B message) :
    (ofAnswer stack answer).Within P B Q := by
  cases answer with
  | value v => trivial
  | failure f => exact h f rfl
  | crash message => exact hcrash message rfl

end Effect

namespace Item

variable {s : Setting} {h : Heap} {env : Env} {stack : List Operand} {P : Failure → Prop}
  {B : Option String → Prop} {Q : TaskRef → Prop}

theorem gives_pop (stack : List Operand) : Gives (fun _ => True) (Operand.pop stack) := by
  unfold Operand.pop
  split
  · exact .ok trivial
  · exact .new (by decide)

theorem gives_result (h : Heap) (stack : List Operand) :
    Gives (fun _ => True) (result h stack) := by
  refine (gives_pop stack).bind fun a _ => ?_
  simp only
  split
  · exact .ok trivial
  · exact .new (by decide)

theorem gives_popArgs (h : Heap) (later : List Value) (stack : List Operand) :
    Gives (fun _ => True) (Operand.popArgs h later stack) := by
  fun_induction Operand.popArgs h later stack with
  | case1 later v stack ih => exact ih
  | case2 => exact .ok trivial
  | case3 => exact .new (by decide)

theorem within_operatorEffect {o : Operator} (hown : ∀ f : Failure, f.Ordinary → P f)
    (hwaits : ∀ t v below, o = .wait → stack = .value v :: below → h.unbox v = .task t → Q t) :
    (operatorEffect h o stack).Within P B Q := by
  unfold operatorEffect
  split
  · unfold dotEffect
    split
    · exact Effect.within_bind hown (gives_pop _) fun a _ =>
        Effect.within_bind hown (gives_member h a.1 _) fun w _ => trivial
    · exact hown _ (Failure.ordinary_new (by decide))
  · refine Effect.within_bind hown (gives_pop _) fun a _ => ?_
    simp only
    split
    · trivial
    · exact hown _ (Failure.ordinary_new (by decide))
  · unfold awaitEffect
    split
    · split
      · next htask => exact hwaits _ _ _ rfl rfl htask
      · exact hown _ (Failure.ordinary_new (by decide))
    · exact hown _ (Failure.ordinary_new (by decide))
  · next hdot hbackground hwait =>
      refine Effect.within_bind hown (gives_pop _) fun a _ => ?_
      simp only
      split
      · exact Effect.within_bind hown (gives_unary h o _) fun v _ => trivial
      · next hunary =>
          refine Effect.within_bind hown (gives_pop _) fun b _ => ?_
          exact Effect.within_bind hown (gives_binary h (eq_false_of_ne_true hunary) hdot _ _)
            fun v _ => trivial

theorem within_callEffect {callee : Value} {args : List Value} {deferred : Bool}
    (hown : ∀ f : Failure, f.Ordinary → P f)
    (hasks : ∀ e, callee = .extension e → deferred = false →
      (∀ f, e.Answers s h args (.failure f) → P f) ∧
        ∀ message, e.Answers s h args (.crash message) → B message) :
    (callEffect s h callee args deferred stack).Within P B Q := by
  unfold callEffect
  split
  · exact hown _ (Failure.ordinary_new (by decide))
  · split
    · trivial
    · next hdeferred =>
        split
        · next e _ =>
            obtain ⟨hfailure, hcrash⟩ := hasks e rfl (eq_false_of_ne_true hdeferred)
            exact Effect.within_ofAnswer
              (fun f hf => (Extension.answers_of_checkedCall hf).elim (hown f) (hfailure f))
              fun message hm => hcrash message (Extension.answers_of_checkedCall_crash hm)
        · trivial

/-- An item ends with a failure that is not an ordinary one only where an extension of the host
does, it breaks down only where the host does, and it waits for the task on top of the operands. -/
theorem within_effect (s : Setting) (h : Heap) (env : Env) (stack : List Operand) (i : Item) :
    (i.effect s h env stack).Within
      (fun f => f.Ordinary ∨
        ∃ e args, i.Asks s h env stack e args ∧ e.Answers s h args (.failure f))
      (fun message => ∃ e args, i.Asks s h env stack e args ∧ e.Answers s h args (.crash message))
      fun t => i = .op .wait ∧ ∃ v below, stack = .value v :: below ∧ h.unbox v = .task t := by
  cases i with
  | push v => trivial
  | load name =>
      simp only [effect]
      split
      · next f hf => exact Or.inl ((gives_resolve _ _ _ _).failure f hf)
      · next e he =>
          split
          · next hauto =>
              have hasks : Asks s h env stack e (.load name) [] := .load he hauto
              exact Effect.within_ofAnswer
                (fun f hf => (Extension.answers_of_call hf).imp_right fun ha => ⟨e, [], hasks, ha⟩)
                fun message hm => ⟨e, [], hasks, Extension.answers_of_call_crash hm⟩
          · trivial
      · trivial
  | attr name => trivial
  | args => trivial
  | call name deferred =>
      refine Effect.within_bind (fun _ => Or.inl) (gives_popArgs h [] stack) fun given hgiven => ?_
      refine Effect.within_bind (fun _ => Or.inl) (gives_resolve s h env name)
        fun callee hcallee => ?_
      refine within_callEffect (fun _ => Or.inl) fun e he hdeferred => ?_
      subst he hdeferred
      have hasks := Asks.call hgiven hcallee
      exact ⟨fun f hf => Or.inr ⟨e, given.1, hasks, hf⟩,
        fun message hm => ⟨e, given.1, hasks, hm⟩⟩
  | invoke deferred =>
      refine Effect.within_bind (fun _ => Or.inl) (gives_popArgs h [] stack) fun given hgiven => ?_
      refine Effect.within_bind (fun _ => Or.inl) (gives_pop given.2) fun callee hcallee => ?_
      refine within_callEffect (fun _ => Or.inl) fun e he hdeferred => ?_
      subst hdeferred
      have hasks : Asks s h env stack e (.invoke false) given.1 := by
        have hargs : Operand.popArgs h [] stack = .ok (given.1, .value callee.1 :: callee.2) := by
          rw [hgiven, ← Operand.eq_of_pop hcallee]
        exact .invoke hargs he
      exact ⟨fun f hf => Or.inr ⟨e, given.1, hasks, hf⟩,
        fun message hm => ⟨e, given.1, hasks, hm⟩⟩
  | op o =>
      refine within_operatorEffect (fun _ => Or.inl) fun t v below ho hstack htask => ?_
      exact ⟨congrArg Item.op ho, v, below, hstack, htask⟩

end Item

namespace Machine

/-- The next step of a machine asks an extension for an answer. -/
inductive Asks (s : Setting) (h : Heap) (m : Machine) (e : Extension) (args : List Value) : Prop
  | item {i : Item} {rest : List Item} {stack : List Operand} {site : Location} {fs : List Frame}
      (hsignal : m.signal = .run) (hframes : m.frames = .eval (i :: rest) stack site :: fs)
      (hasks : i.Asks s h m.scopes.current stack e args)
  | call {site : Option Location} {fs : List Frame} (hsignal : m.signal = .run)
      (hframes : m.frames = .call (.extension e) args site :: fs)

/-- The next step of a machine raises a failure that is not of its own making: the program throws
it, or an extension of the host answers with it. -/
inductive Raises (s : Setting) (h : Heap) (m : Machine) (f : Failure) : Prop
  | thrown {site : Location} {fs : List Frame} {v : Value} (hsignal : m.signal = .value v)
      (hframes : m.frames = .act .raise site :: fs) (hthrown : h.thrown v = .ok f)
  | answered {e : Extension} {args : List Value} (hasks : m.Asks s h e args)
      (hanswer : e.Answers s h args (.failure f))

/-- The host breaks down in the next step of a machine. -/
def Breaks (s : Setting) (h : Heap) (m : Machine) (message : Option String) : Prop :=
  ∃ e args, m.Asks s h e args ∧ e.Answers s h args (.crash message)

/-- The next step of a machine comes upon a failure: it is under way, the machine raises it, or it
is the outcome of the task that the machine waits for. -/
inductive Meets (s : Setting) (w : World) (m : Machine) (f : Failure) : Prop
  | underWay (hsignal : m.signal = .leave (.failWith f))
  | raised (hraises : m.Raises s w.heap f)
  | awaited {t : TaskRef} {v : Value} {rest : List Item} {stack : List Operand} {site : Location}
      {fs : List Frame} (hsignal : m.signal = .run)
      (hframes : m.frames = .eval (.op .wait :: rest) (.value v :: stack) site :: fs)
      (htask : w.heap.unbox v = .task t) (houtcome : (w.task t).outcome = some (.error f))

end Machine

/-! ## Expressions that are compiled -/

def Statement.first? : Statement → Option Expression
  | .choose (.mk test _ :: _) _ => some test
  | stmt => stmt.waiting?.map (·.2)

/-- A frame that goes on with a signal may have an expression compiled: the first one of a
statement, the test of a loop or of the next branch, the upper bound of a loop, or the default of
the next parameter. -/
inductive Frame.Compiles : Frame → Signal → Expression → Prop
  | begins {stmt : Statement} {e : Expression} (hfirst : stmt.first? = some e) (rest : Body)
      (own : Bool) : Compiles (.body (stmt :: rest) own false) .run e
  | retests (test : Expression) (body : Body) : Compiles (.again test body) .run test
  | rejects (site : Location) (body : Body) (test : Expression) (body' : Body)
      (rest : List Branch) (otherwise : Option Body) (v : Value) :
      Compiles (.branch site body (.mk test body' :: rest) otherwise) (.value v) test
  | bounds (var : Option String) (site : Location) (upper : Expression) (body : Body) (v : Value) :
      Compiles (.lower var site upper body) (.value v) upper
  | binds {callee : Value} {p : Procedure} {q : Param} {e : Expression}
      (hcallee : callee.procedure? = some p) (hparam : q ∈ p.params)
      (hdefault : q.default = some e) (args : List Value) (site : Option Location) :
      Compiles (.call callee args site) .run e
  | supplies {q : Param} {e : Expression} (hdefault : q.default = some e) (c : Call)
      (rest : List Param) (v : Value) : Compiles (.supply c (q :: rest)) (.value v) e

/-- The place that a frame knows of. -/
def Frame.site? : Frame → Option Location
  | .act _ site => some site
  | .branch site _ _ _ => some site
  | .lower _ site _ _ => some site
  | .upper _ _ site _ => some site
  | .test e _ => some e.location
  | .eval _ _ site => some site
  | .call _ _ site => site
  | .supply c _ => c.site
  | .construct _ _ site => site
  | .adopt _ _ _ _ site => site
  | _ => none

/-- Whether a frame can fail by itself, with a failure that says nothing of a place yet. -/
def Frame.raises : Frame → Bool
  | .act _ _ | .branch _ _ _ _ | .lower _ _ _ _ | .upper _ _ _ _ | .test _ _ | .eval _ _ _
  | .call _ _ _ | .supply _ _ | .construct _ _ _ | .adopt _ _ _ _ _ => true
  | _ => false

namespace Machine

def Compiles (m : Machine) (e : Expression) : Prop :=
  ∃ f fs, m.frames = f :: fs ∧ f.Compiles m.signal e

/-- A failure arises in the next step of a machine. -/
inductive Arises (s : Setting) (w : World) (m : Machine) (f : Failure) : Prop
  /-- An operation fails. -/
  | ordinary (hordinary : f.Ordinary)
  /-- The machine comes upon it. -/
  | met (hmeets : m.Meets s w f)
  /-- An expression does not compile. -/
  | refused {e : Expression} (hcompiles : m.Compiles e) (hcompile : e.compile = .error f)

/-- Why a step of a machine leaves a failure behind. -/
inductive Cause (s : Setting) (w : World) (m : Machine) : Failure → Prop
  /-- It is under way, and leaves at most one more call. -/
  | underWay {f g : Failure} (hsignal : m.signal = .leave (.failWith g)) (hcore : f.core = g.core)
      (hplace : f.location = g.location) : Cause s w m f
  /-- The way out of a loop meets a call first. -/
  | outside {f : Frame} {fs : List Frame} {c : Call} {e : Exit} {keyword : String}
      (hframes : m.frames = f :: fs) (hcall : f.call? = some c) (hsignal : m.signal = .leave e)
      (hexit : (e = .breakOut ∧ keyword = "break") ∨ (e = .continueOn ∧ keyword = "continue")) :
      Cause s w m (outsideLoop keyword)
  /-- It arises at the frame on top. -/
  | arisen {f : Frame} {fs : List Frame} {g : Failure} (hframes : m.frames = f :: fs)
      (harises : m.Arises s w g) (hraises : f.raises = true ∨ g.location.isSome) :
      Cause s w m (g.atCall f.site?)

/-- An internal failure is one that the machine comes upon. -/
theorem Cause.meets {s : Setting} {w : World} {m : Machine} {f : Failure} (h : m.Cause s w f)
    (hkind : f.kind = .internal) : ∃ g, m.Meets s w g ∧ f.core = g.core := by
  cases h with
  | underWay hsignal hcore hplace => exact ⟨_, .underWay hsignal, hcore⟩
  | outside => cases hkind
  | @arisen top fs g hframes harises _ =>
      rw [Failure.kind_of_core (Failure.core_atCall g _)] at hkind
      cases harises with
      | ordinary hordinary => exact absurd hkind hordinary.kind.1
      | met hmeets => exact ⟨g, hmeets, Failure.core_atCall g _⟩
      | refused _ hcompile =>
          rw [(Expression.failure_of_compile hcompile).1] at hkind
          cases hkind

end Machine

/-- If a step leaves a failure behind then `P` holds of it, if the host breaks down then `B` holds
of the message, and if it leaves a value behind then this is for what is below. -/
structure Reply.Within (P : Failure → Prop) (B : Option String → Prop) (below : List Frame)
    (r : Reply) : Prop where
  failure : ∀ f, r.machine.signal = .leave (.failWith f) → P f
  crash : ∀ message, r.step = .crash message → B message
  value : ∀ v, r.machine.signal = .value v → r.machine.frames = below

namespace Machine

variable {s : Setting} {w : World} {m : Machine} {P : Failure → Prop}
  {B : Option String → Prop} {below : List Frame}

theorem within_run {st : Step} (hsignal : m.signal = .run)
    (hcrash : ∀ message, st = .crash message → B message) :
    Reply.Within P B below ⟨st, w, m⟩ := by
  refine ⟨?_, hcrash, ?_⟩ <;> simp [hsignal]

theorem within_next : (m.next w).Within P B below := ⟨nofun, nofun, nofun⟩

theorem within_yield (v : Value) : (m.yield w v).Within P B m.frames :=
  ⟨nofun, nofun, fun _ _ => rfl⟩

theorem within_leave {e : Exit} (h : ∀ f, e = .failWith f → P f) :
    (m.leave w e).Within P B below :=
  ⟨fun f hf => h f (Signal.leave.inj hf), nofun, nofun⟩

theorem within_fail {f : Failure} (h : P f) : (m.fail w f).Within P B below := by
  refine within_leave fun g hg => ?_
  obtain rfl := Exit.failWith.inj hg
  exact h

theorem within_evaluate (f : Frame) {e : Expression} (hrefused : ∀ g, e.compile = .error g → P g) :
    (m.evaluate w f e).Within P B below := by
  unfold evaluate
  split
  · exact within_next
  · next failure hfailure => exact within_fail (hrefused failure hfailure)

theorem within_choose (otherwise : Option Body) {branches : List Branch}
    (hrefused : ∀ test body rest g, branches = .mk test body :: rest →
      test.compile = .error g → P g) : (m.choose w otherwise branches).Within P B below := by
  cases branches with
  | nil => cases otherwise <;> exact within_next
  | cons b rest =>
      obtain ⟨test, body⟩ := b
      exact within_evaluate _ fun g => hrefused test body rest g rfl

theorem within_begin {stmt : Statement}
    (hrefused : ∀ e g, stmt.first? = some e → e.compile = .error g → P g) :
    (m.begin w stmt).Within P B below := by
  cases stmt with
  | choose branches otherwise =>
      refine within_choose otherwise fun test body rest g hbranches => ?_
      subst hbranches
      exact hrefused test g rfl
  | returnWith e =>
      cases e with
      | none => exact within_leave nofun
      | some e => exact within_evaluate _ fun g => hrefused e g rfl
  | attempt body handlers => exact within_next
  | exclusive lock body => exact within_next
  | breakOut => exact within_leave nofun
  | continueOn => exact within_leave nofun
  | _ => exact within_evaluate _ fun g => hrefused _ g rfl

theorem within_act {site : Location} {v : Value} {action : Action}
    (hown : ∀ f : Failure, f.Ordinary → P (f.locate site))
    (hthrown : ∀ f, action = .raise → w.heap.thrown v = .ok f → P (f.locate site)) :
    (m.act s w site v action).Within P B below := by
  cases action with
  | declare name =>
      simp only [act]
      split
      · exact within_fail (hown _ (Failure.ordinary_new (by decide)))
      · exact within_next
  | assign target =>
      simp only [act]
      split
      · exact within_next
      · next f hf => exact within_fail (hown f ((gives_place s _ _ target).failure f hf))
  | raise =>
      simp only [act]
      split
      · next f hf => exact within_fail (hthrown f rfl hf)
      · next f hf =>
          rw [Heap.eq_notThrowable_of_thrown hf]
          exact within_fail (hown _ (Failure.ordinary_new (by decide)))
  | print => exact within_next
  | returnWith => exact within_leave (by simp)
  | discard => exact within_next

theorem within_enter {c : Call} (hown : ∀ f : Failure, f.Ordinary → P (f.atCall c.site)) :
    (m.enter s w c).Within P B below := by
  simp only [enter]
  split
  · exact within_fail (hown _ (Failure.ordinary_new (by decide)))
  · exact within_next

theorem within_supply {c : Call} {params : List Param} (h : ∀ p ∈ params, p.default.isSome)
    (hown : ∀ f : Failure, f.Ordinary → P (f.atCall c.site))
    (hrefused : ∀ p rest e f, params = p :: rest → p.default = some e → e.compile = .error f →
      P (f.atCall c.site)) : (m.supply s w c params).Within P B below := by
  cases params with
  | nil => exact within_enter hown
  | cons p rest =>
      simp only [supply]
      split
      · next hnone => simp [hnone] at h
      · next e hdefault =>
          split
          · exact within_next
          · next f hf => exact within_fail (hrefused p rest e f rfl hdefault hf)

theorem within_bind {c : Call} (hown : ∀ f : Failure, f.Ordinary → P (f.atCall c.site))
    (hrefused : ∀ p rest e f, c.procedure.params.drop c.args.length = p :: rest →
      p.default = some e → e.compile = .error f → P (f.atCall c.site)) :
    (m.bind s w c).Within P B below := by
  simp only [bind]
  split
  · exact within_fail (hown _ (Failure.ordinary_new (by decide)))
  · next hcount =>
      refine within_supply (fun p hp => ?_) hown hrefused
      exact Procedure.isSome_default_of_mem_drop (Nat.le_of_not_lt (not_or.mp hcount).1) hp

theorem within_call {callee : Value} {args : List Value} {site : Option Location}
    (hsignal : m.signal = .run) (hown : ∀ f : Failure, f.Ordinary → P (f.atCall site))
    (hrefused : ∀ e f, (Frame.call callee args site).Compiles .run e → e.compile = .error f →
      P (f.atCall site))
    (hasks : ∀ e, callee = .extension e →
      (∀ f, e.Answers s w.heap args (.failure f) → P (f.atCall site)) ∧
        ∀ message, e.Answers s w.heap args (.crash message) → B message) :
    (m.call s w callee args site).Within P B m.frames := by
  have hbind : ∀ r p, callee.procedure? = some p →
      (m.bind s w ⟨p, r, args, site⟩).Within P B m.frames := fun r p hp =>
    within_bind hown fun q rest e f hparams hdefault => by
      have hparam : q ∈ p.params := List.mem_of_mem_drop (hparams ▸ List.mem_cons_self)
      exact hrefused e f (.binds hp hparam hdefault args site)
  cases callee with
  | procedure p => exact hbind none p rfl
  | method r p => exact hbind (some r) p rfl
  | classDef c => exact within_next
  | extension e =>
      simp only [call]
      split
      · exact within_yield _
      · next f hf =>
          exact within_fail ((Extension.answers_of_checkedCall hf).elim (hown f)
            ((hasks e rfl).1 f))
      · next message hm =>
          refine within_run hsignal fun message' h => ?_
          obtain rfl := Step.crash.inj h
          exact (hasks e rfl).2 message (Extension.answers_of_checkedCall_crash hm)
  | _ => exact within_fail (hown _ (Failure.ordinary_new (by decide)))

theorem within_initialise {site : Option Location}
    (hown : ∀ f : Failure, f.Ordinary → P (f.atCall site)) (object : ObjectRef) (cls : Class)
    (args : List Value) (taken : Nat) :
    (m.initialise w object cls args taken site).Within P B m.frames := by
  unfold initialise
  split
  · exact within_next
  · split
    · exact within_fail (hown _ (Failure.ordinary_new (by decide)))
    · exact within_yield _

theorem within_construct {site : Option Location}
    (hown : ∀ f : Failure, f.Ordinary → P (f.atCall site)) (cls : Class) (args : List Value) :
    (m.construct w cls args site).Within P B m.frames := by
  unfold construct
  split
  · split
    · exact within_fail (hown _ (Failure.ordinary_new (by decide)))
    · exact within_yield _
  · simp only
    split
    · exact within_initialise hown _ cls args 0
    · exact within_next

theorem within_evalItem {items : List Item} {stack : List Operand} {site : Location}
    (hsignal : m.signal = .run) (hown : ∀ f : Failure, f.Ordinary → P (f.locate site))
    (hasks : ∀ i rest e args, items = i :: rest →
      i.Asks s w.heap m.scopes.current stack e args →
      (∀ f, e.Answers s w.heap args (.failure f) → P (f.locate site)) ∧
        ∀ message, e.Answers s w.heap args (.crash message) → B message)
    (hawaits : ∀ rest v below t f, items = .op .wait :: rest → stack = .value v :: below →
      w.heap.unbox v = .task t → (w.task t).outcome = some (.error f) → P (f.locate site)) :
    (m.evalItem s w items stack site).Within P B m.frames := by
  cases items with
  | nil =>
      simp only [evalItem]
      split
      · exact within_yield _
      · next f hf => exact within_fail (hown f ((Item.gives_result w.heap stack).failure f hf))
  | cons i rest =>
      have heffect := i.within_effect s w.heap m.scopes.current stack
      simp only [evalItem]
      cases he : i.effect s w.heap m.scopes.current stack with
      | next stack => exact within_next
      | call callee args stack => exact within_next
      | schedule callee args stack =>
          simp only
          split
          · exact within_next
          · next f hf =>
              unfold World.schedule at hf
              split at hf
              · obtain rfl := Except.error.inj hf
                exact within_fail (hown _ (Failure.ordinary_new (by decide)))
              · contradiction
      | await t below =>
          rw [he] at heffect
          obtain ⟨rfl, v, below', rfl, htask⟩ := heffect
          simp only
          split
          · exact within_fail (hown _ (Failure.ordinary_new (by decide)))
          · split
            · exact within_run hsignal (by simp)
            · split
              · exact within_next
              · next f hclaim =>
                  exact within_fail
                    (hawaits rest v below' t f rfl rfl htask (outcome_of_claim hclaim))
              · next hwaited _ _ f hclaim =>
                  simp [World.claim, Task.claim, hwaited] at hclaim
      | fail f =>
          rw [he] at heffect
          refine within_fail ?_
          rcases heffect with hordinary | ⟨e, args, hi, hf⟩
          · exact hown f hordinary
          · exact (hasks i rest e args rfl hi).1 f hf
      | crash message =>
          rw [he] at heffect
          refine within_run hsignal fun message' h => ?_
          obtain rfl := Step.crash.inj h
          obtain ⟨e, args, hi, hm⟩ := heffect
          exact (hasks i rest e args rfl hi).2 message hm

/-! ## Frames -/

/-- A test that is none and a bound that is none fail where they are written. -/
theorem ordinary_of_condition {h : Heap} {site : Location} {v : Value} {f : Failure}
    (hf : condition h site v = .error f) : ∃ g : Failure, g.Ordinary ∧ f = g.locate site := by
  unfold condition at hf
  split at hf
  · contradiction
  · exact ⟨.invalidType _, Failure.ordinary_new (by decide), (Except.error.inj hf).symm⟩

theorem ordinary_of_bound {h : Heap} {site : Location} {v : Value} {f : Failure}
    (hf : bound h site v = .error f) : ∃ g : Failure, g.Ordinary ∧ f = g.locate site := by
  simp only [bound] at hf
  split at hf
  · contradiction
  · split at hf
    · contradiction
    · exact ⟨.invalidType _, Failure.ordinary_new (by decide), (Except.error.inj hf).symm⟩
  · exact ⟨.invalidType _, Failure.ordinary_new (by decide), (Except.error.inj hf).symm⟩

theorem within_receive {f : Frame} {v : Value} (hsupplied : f.Supplied)
    (hown : f.raises = true → ∀ g : Failure, g.Ordinary → P (g.atCall f.site?))
    (hrefused : ∀ e g, f.Compiles (.value v) e → e.compile = .error g → P (g.atCall f.site?))
    (hthrown : ∀ site g, f = .act .raise site → w.heap.thrown v = .ok g → P (g.locate site)) :
    (m.receive s w v f).Within P B m.frames := by
  have hrefused' : ∀ e g, f.Compiles (.value v) e → e.compile = .error g → P g := by
    intro e g he hg
    rw [← Expression.atCall_of_compile hg f.site?]
    exact hrefused e g he hg
  cases f with
  | act action site =>
      refine within_act (hown rfl) fun g hg hv => hthrown site g ?_ hv
      rw [hg]
  | branch site body rest otherwise =>
      simp only [receive]
      split
      · exact within_next
      · refine within_choose otherwise fun test body' rest' g hrest => ?_
        subst hrest
        exact hrefused' test g (.rejects ..)
      · next g hg =>
          obtain ⟨k, hkind, rfl⟩ := ordinary_of_condition hg
          exact within_fail (hown rfl k hkind)
  | lower var site upper body =>
      simp only [receive]
      split
      · exact within_evaluate _ fun g => hrefused' upper g (.bounds ..)
      · next g hg =>
          obtain ⟨k, hkind, rfl⟩ := ordinary_of_bound hg
          exact within_fail (hown rfl k hkind)
  | upper var next site body =>
      simp only [receive]
      split
      · exact within_next
      · next g hg =>
          obtain ⟨k, hkind, rfl⟩ := ordinary_of_bound hg
          exact within_fail (hown rfl k hkind)
  | test test body =>
      simp only [receive]
      split
      · exact within_run rfl (by simp)
      · exact within_next
      · next g hg =>
          obtain ⟨k, hkind, rfl⟩ := ordinary_of_condition hg
          exact within_fail (hown rfl k hkind)
  | supply c rest =>
      obtain ⟨hrequired, -, rfl⟩ := hsupplied
      refine within_supply (fun p hp => ?_) (hown rfl) fun p rest e g hparams hdefault => ?_
      · exact Procedure.isSome_default_of_mem_drop (Nat.le_succ_of_le hrequired) hp
      · rw [hparams] at hrefused
        exact hrefused e g (.supplies hdefault c rest v)
  | adopt object cls args taken site => exact within_initialise (hown rfl) object cls args taken
  | finish object => exact within_yield _
  | _ => exact within_next

theorem within_resumeFrame {f : Frame} (hsignal : m.signal = .run) (hgoes : f.goesOn = true)
    (hown : f.raises = true → ∀ g : Failure, g.Ordinary → P (g.atCall f.site?))
    (hrefused : ∀ e g, f.Compiles .run e → e.compile = .error g → P (g.atCall f.site?))
    (hasks : ∀ e args, Asks s w.heap (m.push f) e args →
      (∀ g, e.Answers s w.heap args (.failure g) → P (g.atCall f.site?)) ∧
        ∀ message, e.Answers s w.heap args (.crash message) → B message)
    (hawaits : ∀ rest v below site t g,
      f = .eval (.op .wait :: rest) (.value v :: below) site → w.heap.unbox v = .task t →
      (w.task t).outcome = some (.error g) → P (g.locate site)) :
    (m.resumeFrame s w f).Within P B m.frames := by
  have hrefused' : ∀ e g, f.Compiles .run e → e.compile = .error g → P g := by
    intro e g he hg
    rw [← Expression.atCall_of_compile hg f.site?]
    exact hrefused e g he hg
  cases f with
  | body rest own begun =>
      cases begun with
      | true => exact within_run hsignal (by simp)
      | false =>
          cases rest with
          | nil => exact within_next
          | cons stmt rest =>
              exact within_begin fun e g hfirst => hrefused' e g (.begins hfirst rest own)
  | count var next last body =>
      cases next with
      | none => exact within_next
      | some i =>
          simp only [resumeFrame]
          split
          · exact within_next
          · exact within_run rfl (by simp)
  | again test body => exact within_evaluate _ fun g => hrefused' test g (.retests test body)
  | guard handlers => exact within_next
  | enter lock body =>
      simp only [resumeFrame]
      split
      · exact within_run hsignal (by simp)
      · exact within_next
  | hold lock => exact within_next
  | eval items stack site =>
      refine within_evalItem hsignal (hown rfl) (fun i rest e args hitems hi => ?_)
        fun rest v below t g hitems hstack htask hg => ?_
      · subst hitems
        exact hasks e args (.item hsignal rfl hi)
      · subst hitems hstack
        exact hawaits rest v below site t g rfl htask hg
  | call callee args site =>
      refine within_call hsignal (hown rfl) hrefused fun e he => ?_
      subst he
      exact hasks e args (.call hsignal rfl)
  | running c => exact within_yield (m := (m.giveBack w (.running c)).2) .empty
  | construct cls args site => exact within_construct (hown rfl) cls args
  | _ => simp [Frame.goesOn, Frame.awaits] at hgoes

theorem within_unwind {f : Frame} {e : Exit}
    (hunderWay : ∀ failure g, e = .failWith failure → g.core = failure.core →
      g.location = failure.location → P g)
    (houtside : ∀ c keyword, f.call? = some c →
      (e = .breakOut ∧ keyword = "break") ∨ (e = .continueOn ∧ keyword = "continue") →
      P (outsideLoop keyword)) :
    (m.unwind s w e f).Within P B m.frames := by
  have hleave : (Machine.leave (m.giveBack w f).1 (m.giveBack w f).2 e).Within P B m.frames :=
    within_leave fun g hg => hunderWay g g hg rfl rfl
  unfold unwind
  split
  · next c hcall => exact within_fail (houtside c "break" hcall (Or.inl ⟨rfl, rfl⟩))
  · next c hcall => exact within_fail (houtside c "continue" hcall (Or.inr ⟨rfl, rfl⟩))
  · exact within_yield (m := (m.giveBack w f).2) _
  · exact within_fail (hunderWay _ _ rfl rfl rfl)
  · split
    · simp only [handle]
      split
      · exact within_fail (hunderWay _ _ rfl rfl rfl)
      · exact within_next
    · split
      · exact within_next
      · exact hleave
    · split
      · exact within_next
      · exact hleave
    · exact hleave

/-- Only a frame that can fail by itself asks an extension. -/
theorem Asks.raises {h : Heap} {f : Frame} {e : Extension} {args : List Value}
    (hasks : (m.push f).Asks s h e args) : f.raises = true := by
  cases hasks with
  | item hsignal hframes hasks =>
      obtain ⟨rfl, -⟩ := List.cons.inj hframes
      rfl
  | call hsignal hframes =>
      obtain ⟨rfl, -⟩ := List.cons.inj hframes
      rfl

/-- A machine in order whose frames are where they belong leaves a failure behind only for a cause.
A value it leaves behind is for the frame below the one on top. -/
theorem InOrder.within_step {goal : Shape} {base : Nat} {env : Env} {start : Body → Prop}
    (horder : m.InOrder goal base env) (hplaced : Placed start m.frames) {f : Frame}
    (hframes : m.frames = f :: below) :
    (m.step s w).Within (m.Cause s w) (m.Breaks s w.heap) below := by
  obtain ⟨frames, signal, scopes, depth⟩ := m
  change frames = f :: below at hframes
  subst hframes
  have hown : f.raises = true → ∀ g : Failure, g.Ordinary →
      Cause s w ⟨f :: below, signal, scopes, depth⟩ (g.atCall f.site?) := fun hraises g hg =>
    .arisen rfl (.ordinary hg) (Or.inl hraises)
  have hrefused : ∀ e g, f.Compiles signal e → e.compile = .error g →
      Cause s w ⟨f :: below, signal, scopes, depth⟩ (g.atCall f.site?) := fun e g he hg =>
    .arisen rfl (.refused ⟨f, below, rfl, he⟩ hg)
      (Or.inr (by rw [(Expression.failure_of_compile hg).2, Option.isSome_some]))
  have hmet : f.raises = true → ∀ g, Meets s w ⟨f :: below, signal, scopes, depth⟩ g →
      Cause s w ⟨f :: below, signal, scopes, depth⟩ (g.atCall f.site?) := fun hraises g hg =>
    .arisen rfl (.met hg) (Or.inl hraises)
  cases signal with
  | run =>
      refine within_resumeFrame (m := ⟨below, .run, scopes, depth⟩) rfl horder.2.1 hown hrefused
        ?_ ?_
      · intro e args hasks
        refine ⟨fun g hg => ?_, fun message hm => ⟨e, args, hasks, hm⟩⟩
        exact hmet hasks.raises g (.raised (.answered hasks hg))
      · rintro rest v stack site t g rfl htask hg
        exact hmet rfl g (.awaited rfl rfl htask hg)
  | value v =>
      refine within_receive (m := ⟨below, .run, scopes, depth⟩) hplaced.supplied hown hrefused ?_
      rintro site g rfl hg
      exact hmet rfl g (.raised (.thrown rfl rfl hg))
  | leave e =>
      refine within_unwind (m := ⟨below, .run, scopes, depth⟩) ?_ ?_
      · rintro failure g rfl hcore hplace
        exact .underWay rfl hcore hplace
      · intro c keyword hcall hexit
        exact .outside rfl hcall rfl hexit

end Machine

end Statute
