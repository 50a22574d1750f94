import Statute.Proofs.Expression.Compilation
import Statute.Proofs.Machine.Tidiness

/-!
# What machines carry

The frames of a machine carry values, classes, calls and compiled code, and so does what it hands on
or returns. A `Cargo` says what is asked of all this and of the heap that is worked on, in such a
way that nothing that operations come to, nothing that is found on the heap and nothing that the
host answers breaks it. Then no step breaks it, either. Nothing about the order of the frames is
needed for that.

An object that a step makes is the only thing that comes in anew. It has to be as it is asked,
unless it is put away at once, to wait for its parent object; then it has to be so once the parent
object is there.
-/

namespace Statute

/-- What is called: a procedure, or a method of an object. -/
def Call.callee (c : Call) : Value :=
  match c.receiver with
  | none => .procedure c.procedure
  | some r => .method r c.procedure

/-- What is asked of all that machines carry and of the heap that they work on. -/
structure Cargo (s : Setting) where
  value : Value → Prop
  /-- What is asked of an item of a compiled expression. -/
  item : Item → Prop
  /-- Which parameters of a procedure a call may have left. -/
  remaining : Procedure → List Param → Prop
  /-- Which objects may adopt a parent object. -/
  adopts : Heap → ObjectRef → Prop
  heap : Heap → Prop
  pervasive : Value.Pervasive value
  field : ∀ b, value (.field b)
  task : ∀ t, value (.task t)
  extension : ∀ e, value (.extension e)
  deferred : ∀ {callee args},
    value (.deferred callee args) ↔ value callee ∧ ∀ v ∈ args, value v
  item_of_isPlain : ∀ {i : Item}, i.IsPlain → item i
  value_of_push : ∀ {v}, item (.push v) → value v
  registry : ∀ name v, s.registry.lookup? name = some v → value v
  host : s.host.Keeps value
  receiver : ∀ {r p}, value (.method r p) → value (.object r)
  ctor : ∀ {c r p}, value (.classDef c) → value (.object r) → c.own.ctor = some p →
    value (.method r p)
  parent : ∀ {c parent}, value (.classDef c) → c.parent? = some parent → value (.classDef parent)
  remaining_drop : ∀ (p : Procedure) (n : Nat), remaining p (p.params.drop n)
  remaining_tail : ∀ {p q rest}, remaining p (q :: rest) → remaining p rest
  stored : ∀ {h}, heap h → h.All value
  method : ∀ {h r name p}, heap h → value (.object r) → h.method? r name = some p →
    value (.method r p)
  locks : ∀ {h : Heap} (locks : Array Bool), heap h → heap { h with locks := locks }
  newScope : ∀ {h} name, heap h → heap (h.newScope name).1
  define : ∀ {h v}, heap h → value v → ∀ r name, heap (h.define r name v)
  store : ∀ {h v} p, heap h → value v → (∀ r name, p = .field r name → value (.object r)) →
    heap (h.store v p)
  newObject : ∀ {h c}, heap h → value (.classDef c) → heap (h.newObject c).1
  newError : ∀ {h c} message, heap h → value (.classDef c) → heap (h.newError c message).1
  adopt : ∀ {h child} parent, heap h → adopts h child → heap (h.adopt child parent)
  object_of_adopts : ∀ {h child}, adopts h child → value (.object child)

/-! ## Operands and effects -/

namespace Operand

def Carries (P : Value → Prop) : Operand → Prop
  | .value v => P v
  | _ => True

variable {P : Value → Prop} {h : Heap} {stack below : List Operand} {v : Value}

theorem carries_pop (hstack : ∀ o ∈ stack, o.Carries P) (hpop : pop stack = .ok (v, below)) :
    P v ∧ ∀ o ∈ below, o.Carries P := by
  obtain rfl := eq_of_pop hpop
  exact List.forall_mem_cons.mp hstack

theorem carries_popArgs (hall : h.All P) {later args : List Value}
    (hstack : ∀ o ∈ stack, o.Carries P) (hlater : ∀ v ∈ later, P v)
    (hpop : popArgs h later stack = .ok (args, below)) :
    (∀ v ∈ args, P v) ∧ ∀ o ∈ below, o.Carries P := by
  induction stack generalizing later with
  | nil => cases hpop
  | cons o stack ih =>
      obtain ⟨ho, hrest⟩ := List.forall_mem_cons.mp hstack
      cases o with
      | value v => exact ih hrest (List.forall_mem_cons.mpr ⟨hall.unbox ho, hlater⟩) hpop
      | attr name => cases hpop
      | mark =>
          cases hpop
          exact ⟨hlater, hrest⟩

end Operand

namespace Effect

/-- What an effect leaves and hands on has a property. -/
def Carries (P : Value → Prop) : Effect → Prop
  | .next stack => ∀ o ∈ stack, o.Carries P
  | .call callee args stack => P callee ∧ (∀ v ∈ args, P v) ∧ ∀ o ∈ stack, o.Carries P
  | .schedule callee args stack => P callee ∧ (∀ v ∈ args, P v) ∧ ∀ o ∈ stack, o.Carries P
  | .await _ stack => ∀ o ∈ stack, o.Carries P
  | .fail _ => True
  | .crash _ => True

variable {P : Value → Prop} {stack : List Operand}

theorem carries_push (hstack : ∀ o ∈ stack, o.Carries P) {v : Value} (hv : P v) :
    (push stack v).Carries P :=
  List.forall_mem_cons.mpr ⟨hv, hstack⟩

theorem carries_bind {α : Type} {x : Except Failure α} {f : α → Except Failure Effect}
    (hf : ∀ a, x = .ok a → (ofExcept (f a)).Carries P) : (ofExcept (x >>= f)).Carries P := by
  cases x with
  | error e => trivial
  | ok a => exact hf a rfl

theorem carries_ofAnswer (hstack : ∀ o ∈ stack, o.Carries P) {answer : HostAnswer}
    (hanswer : ∀ v, answer = .value v → P v) : (ofAnswer stack answer).Carries P := by
  cases answer with
  | value v => exact carries_push hstack (hanswer v rfl)
  | failure f => trivial
  | crash message => trivial

end Effect

namespace Cargo

variable {s : Setting} (K : Cargo s) {h : Heap} {stack : List Operand}

theorem carries_callEffect {callee : Value} {args : List Value} (hcallee : K.value callee)
    (hargs : ∀ v ∈ args, K.value v) (hstack : ∀ o ∈ stack, o.Carries K.value) (deferred : Bool) :
    (Item.callEffect s h callee args deferred stack).Carries K.value := by
  unfold Item.callEffect
  split
  · trivial
  · split
    · exact Effect.carries_push hstack (K.deferred.mpr ⟨hcallee, hargs⟩)
    · split
      · exact Effect.carries_ofAnswer hstack fun v hv =>
          Extension.keeps_checkedCall K.pervasive K.host hargs hv
      · exact ⟨hcallee, hargs, hstack⟩

theorem value_of_member (hh : K.heap h) {a v : Value} (ha : K.value a) {name : String}
    (hv : h.member a name = .ok v) : K.value v := by
  cases (gives_member h a name).result v hv with
  | box b => exact K.field b
  | method howner hmethod =>
      exact K.method hh (howner ▸ (K.stored hh).unbox ha) hmethod
  | stored hw => exact (K.stored hh).records _ _ hw

theorem carries_operatorEffect (hh : K.heap h) (o : Operator)
    (hstack : ∀ o ∈ stack, o.Carries K.value) :
    (Item.operatorEffect h o stack).Carries K.value := by
  unfold Item.operatorEffect
  split
  · unfold Item.dotEffect
    split
    · refine Effect.carries_bind fun a ha => Effect.carries_bind fun u hu => ?_
      obtain ⟨howner, hbelow⟩ := Operand.carries_pop (List.forall_mem_cons.mp hstack).2 ha
      exact Effect.carries_push hbelow (K.value_of_member hh howner hu)
    · trivial
  · refine Effect.carries_bind fun a ha => ?_
    obtain ⟨v, below⟩ := a
    obtain ⟨hv, hbelow⟩ := Operand.carries_pop hstack ha
    cases v with
    | deferred callee args =>
        obtain ⟨hcallee, hargs⟩ := K.deferred.mp hv
        exact ⟨hcallee, hargs, hbelow⟩
    | _ => trivial
  · unfold Item.awaitEffect
    split
    · split
      · exact (List.forall_mem_cons.mp hstack).2
      · trivial
    · trivial
  · next hdot _ _ =>
      refine Effect.carries_bind fun a ha => ?_
      obtain ⟨right, below⟩ := a
      obtain ⟨hright, hbelow⟩ := Operand.carries_pop hstack ha
      dsimp only
      split
      · exact Effect.carries_bind fun u hu =>
          Effect.carries_push hbelow (K.pervasive.scalar ((gives_unary _ _ _).result u hu))
      · next hunary =>
          refine Effect.carries_bind fun b hb => Effect.carries_bind fun u hu => ?_
          obtain ⟨hleft, hbelow⟩ := Operand.carries_pop hbelow hb
          exact Effect.carries_push hbelow (K.pervasive.binary (eq_false_of_ne_true hunary) hdot
            ((K.stored hh).unbox hleft) ((K.stored hh).unbox hright) hu)

theorem value_of_resolve (hh : K.heap h) {env : Env} {name : String} {v : Value}
    (hv : s.resolve h env name = .ok v) : K.value v :=
  (K.stored hh).resolve? K.registry ((gives_resolve s h env name).result v hv)

/-- What an item makes of the operands is as it is asked. -/
theorem carries_effect {i : Item} (hh : K.heap h) (env : Env) (hi : K.item i)
    (hstack : ∀ o ∈ stack, o.Carries K.value) : (i.effect s h env stack).Carries K.value := by
  cases i with
  | push v => exact Effect.carries_push hstack (K.value_of_push hi)
  | load name =>
      simp only [Item.effect]
      split
      · trivial
      · split
        · exact Effect.carries_ofAnswer hstack fun v hv =>
            Extension.keeps_call K.pervasive K.host (List.forall_mem_nil _) hv
        · exact Effect.carries_push hstack (K.extension _)
      · next v _ hv => exact Effect.carries_push hstack (K.value_of_resolve hh hv)
  | attr name => exact List.forall_mem_cons.mpr ⟨trivial, hstack⟩
  | args => exact List.forall_mem_cons.mpr ⟨trivial, hstack⟩
  | call name deferred =>
      refine Effect.carries_bind fun a ha => Effect.carries_bind fun callee hcallee => ?_
      obtain ⟨hargs, hbelow⟩ :=
        Operand.carries_popArgs (K.stored hh) hstack (List.forall_mem_nil _) ha
      exact K.carries_callEffect (K.value_of_resolve hh hcallee) hargs hbelow deferred
  | invoke deferred =>
      refine Effect.carries_bind fun a ha => Effect.carries_bind fun b hb => ?_
      obtain ⟨hargs, hbelow⟩ :=
        Operand.carries_popArgs (K.stored hh) hstack (List.forall_mem_nil _) ha
      obtain ⟨hcallee, hbelow⟩ := Operand.carries_pop hbelow hb
      exact K.carries_callEffect ((K.stored hh).unbox hcallee) hargs hbelow deferred
  | op o => exact K.carries_operatorEffect hh o hstack

end Cargo

/-! ## Machines -/

variable {s : Setting}

/-- What a frame carries is as it is asked. -/
def Frame.Carries (K : Cargo s) : Frame → Prop
  | .eval items stack _ => (∀ i ∈ items, K.item i) ∧ ∀ o ∈ stack, o.Carries K.value
  | .call callee args _ => K.value callee ∧ ∀ v ∈ args, K.value v
  | .supply c rest =>
      K.value c.callee ∧ (∀ v ∈ c.args, K.value v) ∧ K.remaining c.procedure rest
  | .construct cls args _ => K.value (.classDef cls) ∧ ∀ v ∈ args, K.value v
  | .adopt _ cls args _ _ => K.value (.classDef cls) ∧ ∀ v ∈ args, K.value v
  | .finish r => K.value (.object r)
  | _ => True

/-- What is handed on or returned is as it is asked. -/
def Signal.Carries (K : Cargo s) : Signal → Prop
  | .value v => K.value v
  | .leave (.returnWith v) => K.value v
  | _ => True

/-- The heap and what the frames of a machine carry are as it is asked. -/
structure Machine.Carries (K : Cargo s) (w : World) (m : Machine) : Prop where
  heap : K.heap w.heap
  frames : ∀ f ∈ m.frames, f.Carries K

/-- The heap and all that a machine carries are as it is asked after a step. -/
structure Reply.Carries (K : Cargo s) (r : Reply) : Prop where
  machine : r.machine.Carries K r.world
  signal : r.machine.signal.Carries K

namespace Machine

/-- The machine is about to make an object that will wait for its parent object. -/
def PutsAway (m : Machine) : Prop :=
  m.signal = .run ∧ ∃ cls parent args site fs, m.frames = .construct cls args site :: fs ∧
    cls.own.builtin = none ∧ cls.parent? = some parent

namespace Carries

variable {K : Cargo s} {w : World} {m : Machine} {f : Frame} {v : Value}

theorem push (h : m.Carries K w) (hf : f.Carries K) : (m.push f).Carries K w :=
  ⟨h.heap, List.forall_mem_cons.mpr ⟨hf, h.frames⟩⟩

theorem next (h : m.Carries K w) : (m.next w).Carries K :=
  ⟨⟨h.heap, h.frames⟩, trivial⟩

theorem yield (h : m.Carries K w) (hv : K.value v) : (m.yield w v).Carries K :=
  ⟨⟨h.heap, h.frames⟩, hv⟩

theorem leave (h : m.Carries K w) {e : Exit} (he : (Signal.leave e).Carries K) :
    (m.leave w e).Carries K :=
  ⟨⟨h.heap, h.frames⟩, he⟩

theorem fail (h : m.Carries K w) (failure : Failure) : (m.fail w failure).Carries K :=
  ⟨⟨h.heap, h.frames⟩, trivial⟩

/-- The machine works on another heap. -/
theorem of_heap (h : m.Carries K w) (w' : World) (hheap : K.heap w'.heap) : m.Carries K w' :=
  ⟨hheap, h.frames⟩

theorem giveBack (h : m.Carries K w) (f : Frame) :
    (m.giveBack w f).2.Carries K (m.giveBack w f).1 := by
  unfold Machine.giveBack
  split
  · exact ⟨K.locks _ h.heap, h.frames⟩
  · exact ⟨h.heap, h.frames⟩

/-- A fresh scope is opened for a frame. -/
theorem openScope (h : m.Carries K w) (name : String) (outer : Env) {vars : List (String × Value)}
    (hvars : ∀ p ∈ vars, K.value p.2) (hf : f.Carries K) :
    (m.openScope w name outer vars f).2.Carries K (m.openScope w name outer vars f).1 :=
  ⟨Heap.defineAll_induction K.define (K.newScope name h.heap) hvars _,
    List.forall_mem_cons.mpr ⟨hf, h.frames⟩⟩

theorem block (h : m.Carries K w) (name : String) {vars : List (String × Value)}
    (hvars : ∀ p ∈ vars, K.value p.2) (body : Body) : (m.block w name vars body).Carries K :=
  (h.openScope name m.scopes.current hvars (f := .body body true false) trivial).next

theorem turn (h : m.Carries K w) (name : String) {vars : List (String × Value)}
    (hvars : ∀ p ∈ vars, K.value p.2) (body : Body) : (m.turn w name vars body).Carries K :=
  have hopen := h.openScope name m.scopes.current hvars (f := .body body true false) trivial
  ⟨⟨hopen.heap, hopen.frames⟩, trivial⟩

/-- The code of an expression is put on top. -/
theorem code (h : m.Carries K w) {e : Expression} {c : Code} (hcode : e.compile = .ok c)
    (site : Location) : (m.push (.eval c.items [] site)).Carries K w :=
  h.push ⟨fun i hi => K.item_of_isPlain (Expression.isPlain_compile hcode i hi),
    List.forall_mem_nil _⟩

theorem evaluate (h : m.Carries K w) (hf : f.Carries K) (e : Expression) :
    (m.evaluate w f e).Carries K := by
  unfold Machine.evaluate
  split
  · next c hcode => exact ((h.push hf).code hcode _).next
  · exact h.fail _

/-! ## Statements -/

theorem choose (h : m.Carries K w) (otherwise : Option Body) (branches : List Branch) :
    (m.choose w otherwise branches).Carries K := by
  cases branches with
  | nil =>
      cases otherwise with
      | none => exact h.next
      | some body => exact h.block "else" (List.forall_mem_nil _) body
  | cons b rest =>
      obtain ⟨test, body⟩ := b
      exact h.evaluate (f := .branch _ _ _ _) trivial test

theorem begin (h : m.Carries K w) (stmt : Statement) : (m.begin w stmt).Carries K := by
  cases stmt with
  | choose branches otherwise => exact h.choose otherwise branches
  | repeatFor var lower upper body => exact h.evaluate (f := .lower _ _ _ _) trivial lower
  | repeatWhile test body => exact h.evaluate (f := .test _ _) trivial test
  | attempt body handlers =>
      exact (h.push (f := .guard handlers) trivial).block "try" (List.forall_mem_nil _) body
  | exclusive lock body => exact (h.push (f := .enter lock body) trivial).next
  | returnWith e =>
      cases e with
      | none => exact h.leave (e := .returnWith .empty) (K.pervasive.scalar trivial)
      | some e => exact h.evaluate (f := .act _ _) trivial e
  | breakOut => exact h.leave (e := .breakOut) trivial
  | continueOn => exact h.leave (e := .continueOn) trivial
  | _ => exact h.evaluate (f := .act _ _) trivial _

theorem act (h : m.Carries K w) (hv : K.value v) (site : Location) (action : Action) :
    (m.act s w site v action).Carries K := by
  cases action with
  | declare name =>
      simp only [Machine.act]
      split
      · exact h.fail _
      · exact (h.of_heap _ (K.define h.heap hv _ name)).next
  | assign target =>
      simp only [Machine.act]
      split
      · next place hplace =>
          refine (h.of_heap _ (K.store place h.heap hv fun r name heq => ?_)).next
          subst heq
          exact (K.stored h.heap).place K.registry hplace
      · exact h.fail _
  | print => exact (h.of_heap (w.print (w.heap.text v)) h.heap).next
  | raise =>
      simp only [Machine.act]
      split <;> exact h.fail _
  | returnWith => exact h.leave (e := .returnWith v) hv
  | discard => exact h.next

theorem objects_block (w : World) (m : Machine) (name : String) (vars : List (String × Value))
    (body : Body) : (m.block w name vars body).world.heap.objects = w.heap.objects :=
  Heap.objects_defineAll (w.heap.newScope name).1 _ vars

theorem handle (h : m.Carries K w) {failure : Failure}
    (hpayload : ∀ r, failure.payload = some r → K.value (.object r)) {handlers : List Handler}
    (hnew : w.heap.objects.size < (m.handle s w failure handlers).world.heap.objects.size →
      K.value (.object w.heap.objects.size)) : (m.handle s w failure handlers).Carries K := by
  cases hfind : handlers.find? fun k => w.heap.catches k.className failure with
  | none =>
      simp only [Machine.handle, hfind]
      exact h.fail failure
  | some handler =>
      simp only [Machine.handle, hfind] at hnew ⊢
      have hheap : K.heap (w.heap.exception s.registry failure).1 :=
        Heap.exception_induction h.heap fun c hc => by
          obtain ⟨name, hname⟩ := Registry.exists_of_errorClass? hc
          exact K.newError failure.message h.heap (K.registry name _ hname)
      have hobject : K.value (w.heap.exception s.registry failure).2 := by
        unfold Heap.exception at hnew ⊢
        cases hcase : failure.payload with
        | some r => exact hpayload r hcase
        | none =>
            cases hclass : s.registry.errorClass? failure with
            | none => exact K.pervasive.scalar trivial
            | some c =>
                rw [hcase, hclass] at hnew
                refine hnew ?_
                rw [objects_block]
                exact (Nat.lt_succ_self _).trans_eq (Heap.size_objects_newError _ _ _).symm
      refine (h.of_heap { w with heap := (w.heap.exception s.registry failure).1 } hheap).block
        "handler" ?_ _
      split
      · exact List.forall_mem_singleton.mpr hobject
      · exact List.forall_mem_nil _

/-! ## Calls -/

theorem value_callVars {c : Call} (hcallee : K.value c.callee) (hargs : ∀ v ∈ c.args, K.value v) :
    ∀ p ∈ callVars c, K.value p.2 := by
  intro p hp
  rcases List.mem_append.mp hp with hp | hp
  · exact hargs p.2 (List.of_mem_zip (b := p.2) (a := p.1) hp).2
  · split at hp
    · next r hr =>
        rw [List.mem_singleton.mp hp]
        rw [Call.callee, hr] at hcallee
        exact K.receiver hcallee
    · contradiction

theorem supply (h : m.Carries K w) {c : Call} {params : List Param}
    (hc : (Frame.supply c params).Carries K) : (m.supply s w c params).Carries K := by
  obtain ⟨hcallee, hargs, hparams⟩ := hc
  cases params with
  | nil =>
      simp only [Machine.supply, Machine.enter]
      split
      · exact h.fail _
      · have hopen := h.openScope c.procedure.name World.globals (value_callVars hcallee hargs)
          (f := .running c) trivial
        exact ⟨⟨hopen.heap, List.forall_mem_cons.mpr ⟨trivial, hopen.frames⟩⟩, trivial⟩
  | cons p rest =>
      simp only [Machine.supply]
      split
      · exact h.fail _
      · split
        · next code hcode =>
            have hrest : (Frame.supply c rest).Carries K :=
              ⟨hcallee, hargs, K.remaining_tail hparams⟩
            exact ((h.push hrest).code hcode _).next
        · exact h.fail _

theorem bind (h : m.Carries K w) {c : Call} (hcallee : K.value c.callee)
    (hargs : ∀ v ∈ c.args, K.value v) : (m.bind s w c).Carries K := by
  simp only [Machine.bind]
  split
  · exact h.fail _
  · exact h.supply ⟨hcallee, hargs, K.remaining_drop _ _⟩

theorem call (h : m.Carries K w) (hsignal : m.signal.Carries K) {callee : Value}
    {args : List Value} (hcallee : K.value callee) (hargs : ∀ v ∈ args, K.value v)
    (site : Option Location) : (m.call s w callee args site).Carries K := by
  cases callee with
  | procedure p => exact h.bind (c := ⟨p, none, args, site⟩) hcallee hargs
  | method r p => exact h.bind (c := ⟨p, some r, args, site⟩) hcallee hargs
  | classDef c => exact (h.push (f := .construct c args site) ⟨hcallee, hargs⟩).next
  | extension e =>
      simp only [Machine.call]
      split
      · next v hv => exact h.yield (Extension.keeps_checkedCall K.pervasive K.host hargs hv)
      · exact h.fail _
      · exact ⟨h, hsignal⟩
  | _ => exact h.fail _

theorem initialise (h : m.Carries K w) {object : ObjectRef} {cls : Class} {args : List Value}
    (hobject : K.value (.object object)) (hcls : K.value (.classDef cls))
    (hargs : ∀ v ∈ args, K.value v) (taken : Nat) (site : Option Location) :
    (m.initialise w object cls args taken site).Carries K := by
  unfold Machine.initialise
  split
  · next p hctor =>
      exact ((h.push (f := .finish object) hobject).push (f := .call (.method object p) args site)
        ⟨K.ctor hcls hobject hctor, hargs⟩).next
  · split
    · exact h.fail _
    · exact h.yield hobject

theorem world_initialise (w : World) (m : Machine) (object : ObjectRef) (cls : Class)
    (args : List Value) (taken : Nat) (site : Option Location) :
    (m.initialise w object cls args taken site).world = w := by
  unfold Machine.initialise
  split
  · rfl
  · split <;> rfl

theorem construct (h : m.Carries K w) {cls : Class} {args : List Value}
    (hcls : K.value (.classDef cls)) (hargs : ∀ v ∈ args, K.value v) (site : Option Location)
    (hnew : ¬ (cls.own.builtin = none ∧ ∃ parent, cls.parent? = some parent) →
      w.heap.objects.size < (m.construct w cls args site).world.heap.objects.size →
        K.value (.object w.heap.objects.size)) :
    (m.construct w cls args site).Carries K := by
  unfold Machine.construct at hnew ⊢
  split
  · next k hbuiltin =>
      rw [hbuiltin] at hnew
      dsimp only at hnew
      split
      · exact h.fail _
      · next hcount =>
          rw [if_neg hcount] at hnew
          have hobject := hnew (by simp) (by simp [Machine.yield, Heap.size_objects_newError])
          exact (h.of_heap _ (K.newError _ h.heap hcls)).yield hobject
  · next hbuiltin =>
      rw [hbuiltin] at hnew
      dsimp only at hnew ⊢
      have hheap := h.of_heap { w with heap := (w.heap.newObject cls).1 }
        (K.newObject h.heap hcls)
      split
      · next hparent =>
          rw [hparent] at hnew
          have hobject := hnew (by simp) (by simp [world_initialise, Heap.newObject])
          exact hheap.initialise hobject hcls hargs 0 site
      · next parent hparent =>
          have htaken : ∀ n, ∀ v ∈ args.take n, K.value v := fun n v hv =>
            hargs v (List.mem_of_mem_take hv)
          exact ((hheap.push (f := .adopt _ cls args _ site) ⟨hcls, hargs⟩).push
            (f := .construct parent _ site) ⟨K.parent hcls hparent, htaken _⟩).next

/-! ## Expressions -/

theorem value_of_claim {t : TaskRef} {w' : World} {v : Value}
    (houtcomes : ∀ t v, (w.task t).outcome = some (.ok v) → K.value v)
    (h : w.claim t = .ok (w', .ok v)) : K.value v := by
  obtain ⟨-, hv⟩ := eq_of_claim h
  cases houtcome : (w.task t).outcome with
  | none =>
      rw [houtcome] at hv
      rw [Except.ok.inj hv]
      exact K.pervasive.scalar trivial
  | some o =>
      rw [houtcome] at hv
      exact houtcomes t v (houtcome.trans (congrArg some hv.symm))

theorem evalItem (h : m.Carries K w)
    (houtcomes : ∀ t v, (w.task t).outcome = some (.ok v) → K.value v)
    (hsignal : m.signal.Carries K) {items : List Item} {stack : List Operand} {site : Location}
    (hf : (Frame.eval items stack site).Carries K) :
    (m.evalItem s w items stack site).Carries K := by
  obtain ⟨hitems, hstack⟩ := hf
  cases items with
  | nil =>
      simp only [Machine.evalItem]
      split
      · next v hv =>
          refine h.yield ?_
          obtain ⟨⟨u, below⟩, hpop, hrest⟩ := exists_of_bind_eq_ok hv
          dsimp only at hrest
          split at hrest
          · rw [← Except.ok.inj hrest]
            exact (K.stored h.heap).unbox (Operand.carries_pop hstack hpop).1
          · cases hrest
      · exact h.fail _
  | cons i rest =>
      obtain ⟨hi, hrest⟩ := List.forall_mem_cons.mp hitems
      have heffect := K.carries_effect h.heap m.scopes.current hi hstack
      have heval : ∀ stack' : List Operand, (∀ o ∈ stack', o.Carries K.value) →
          (Frame.eval rest stack' site).Carries K := fun _ hstack' => ⟨hrest, hstack'⟩
      simp only [Machine.evalItem]
      cases hcase : i.effect s w.heap m.scopes.current stack with
      | next stack' =>
          rw [hcase] at heffect
          exact (h.push (heval _ heffect)).next
      | call callee args stack' =>
          rw [hcase] at heffect
          obtain ⟨hcallee, hargs, hstack'⟩ := heffect
          exact ((h.push (heval _ hstack')).push (f := .call callee args (some site))
            ⟨hcallee, hargs⟩).next
      | schedule callee args stack' =>
          rw [hcase] at heffect
          obtain ⟨-, -, hstack'⟩ := heffect
          simp only
          split
          · next w' t hschedule =>
              have hheap : K.heap w'.heap := by
                rw [heap_of_schedule hschedule]
                exact h.heap
              have hstack : ∀ o ∈ .value (.task t) :: stack', o.Carries K.value :=
                List.forall_mem_cons.mpr ⟨K.task t, hstack'⟩
              exact ((h.of_heap _ hheap).push (heval _ hstack)).next
          · exact h.fail _
      | await t stack' =>
          rw [hcase] at heffect
          have hclaimed : ∀ {w' : World} {o : Outcome}, w.claim t = .ok (w', o) →
              m.Carries K w' := fun hclaim => h.of_heap _ ((eq_of_claim hclaim).1 ▸ h.heap)
          simp only
          split
          · exact h.fail _
          · split
            · exact ⟨h.push ⟨hitems, hstack⟩, hsignal⟩
            · split
              · next w' v hclaim =>
                  have hstack : ∀ o ∈ .value v :: stack', o.Carries K.value :=
                    List.forall_mem_cons.mpr ⟨value_of_claim houtcomes hclaim, heffect⟩
                  exact ((hclaimed hclaim).push (heval _ hstack)).next
              · next hclaim => exact (hclaimed hclaim).fail _
              · exact h.fail _
      | fail failure => exact h.fail _
      | crash message => exact ⟨h, hsignal⟩

/-! ## Frames -/

/-- A frame receives a value. An object that has been waiting for its parent object comes in. -/
theorem receive (h : m.Carries K w) (hf : f.Carries K)
    (hadopts : ∀ object cls args taken site, f = .adopt object cls args taken site →
      K.adopts w.heap object) (hv : K.value v) : (m.receive s w v f).Carries K := by
  cases f with
  | act action site => exact h.act hv site action
  | branch site body rest otherwise =>
      simp only [Machine.receive]
      split
      · exact h.block "if" (List.forall_mem_nil _) body
      · exact h.choose otherwise rest
      · exact h.fail _
  | lower var site upper body =>
      simp only [Machine.receive]
      split
      · exact h.evaluate (f := .upper _ _ _ _) trivial upper
      · exact h.fail _
  | upper var next site body =>
      simp only [Machine.receive]
      split
      · exact (h.push (f := .count _ _ _ _) trivial).next
      · exact h.fail _
  | test test body =>
      simp only [Machine.receive]
      split
      · exact (h.push (f := .again test body) trivial).turn "while" (List.forall_mem_nil _) body
      · exact h.next
      · exact h.fail _
  | eval items stack site =>
      exact (h.push (f := .eval items (.value v :: stack) site)
        ⟨hf.1, List.forall_mem_cons.mpr ⟨hv, hf.2⟩⟩).next
  | supply c rest =>
      obtain ⟨hcallee, hargs, hrest⟩ := hf
      refine h.supply (c := { c with args := c.args ++ [v] }) ⟨hcallee, ?_, hrest⟩
      exact List.forall_mem_append.mpr ⟨hargs, List.forall_mem_singleton.mpr hv⟩
  | adopt object cls args taken site =>
      have hchild := hadopts object cls args taken site rfl
      refine (h.of_heap _ ?_).initialise (K.object_of_adopts hchild) hf.1 hf.2 taken site
      split
      · exact K.adopt _ h.heap hchild
      · exact h.heap
  | finish object => exact h.yield hf
  | _ => exact (h.push hf).next

theorem resumeFrame (h : m.Carries K w) (hf : f.Carries K) (hsignal : m.signal.Carries K)
    (houtcomes : ∀ t v, (w.task t).outcome = some (.ok v) → K.value v)
    (hadopts : ∀ object cls args taken site, f = .adopt object cls args taken site →
      K.adopts w.heap object)
    (hnew : (∀ cls args site, f = .construct cls args site →
        ¬ (cls.own.builtin = none ∧ ∃ parent, cls.parent? = some parent)) →
      w.heap.objects.size < (m.resumeFrame s w f).world.heap.objects.size →
        K.value (.object w.heap.objects.size)) : (m.resumeFrame s w f).Carries K := by
  have hback := h.giveBack f
  cases f with
  | body rest own begun =>
      cases begun with
      | true => exact ⟨h.push (f := .body rest own false) trivial, hsignal⟩
      | false =>
          cases rest with
          | nil => exact hback.next
          | cons stmt rest => exact (h.push (f := .body rest own true) trivial).begin stmt
  | count var next last body =>
      cases next with
      | none => exact h.next
      | some i =>
          simp only [Machine.resumeFrame]
          split
          · exact h.next
          · refine (h.push (f := .count var (successor? i) last body) trivial).turn "repeat" ?_ body
            split
            · exact List.forall_mem_singleton.mpr (K.pervasive.scalar trivial)
            · exact List.forall_mem_nil _
  | again test body => exact h.evaluate (f := .test test body) trivial test
  | guard handlers => exact h.next
  | enter lock body =>
      simp only [Machine.resumeFrame]
      split
      · exact ⟨h.push (f := .enter lock body) trivial, hsignal⟩
      · have hheld := h.of_heap { w with heap := w.heap.hold lock } (K.locks _ h.heap)
        exact (hheld.push (f := .hold lock) trivial).block "exclusive" (List.forall_mem_nil _) body
  | hold lock => exact hback.next
  | eval items stack site => exact h.evalItem houtcomes hsignal hf
  | call callee args site => exact h.call hsignal hf.1 hf.2 site
  | running c => exact hback.yield (v := .empty) (K.pervasive.scalar trivial)
  | construct cls args site =>
      refine h.construct hf.1 hf.2 site fun hputs => hnew fun cls' args' site' heq => ?_
      obtain ⟨rfl, -, -⟩ := Frame.construct.inj heq
      exact hputs
  | _ =>
      simp only [Machine.resumeFrame]
      exact h.receive hf hadopts (K.pervasive.scalar trivial)

theorem unwind (h : m.Carries K w) (hf : f.Carries K) {e : Exit}
    (he : (Signal.leave e).Carries K)
    (hpayload : ∀ failure r, e = .failWith failure → failure.payload = some r →
      K.value (.object r))
    (hnew : w.heap.objects.size < (m.unwind s w e f).world.heap.objects.size →
      K.value (.object w.heap.objects.size)) : (m.unwind s w e f).Carries K := by
  have hback := h.giveBack f
  have hhandle : ∀ handlers failure, f = .guard handlers → e = .failWith failure →
      (m.handle s w failure handlers).Carries K := by
    rintro handlers failure rfl rfl
    exact h.handle (fun r => hpayload failure r rfl) hnew
  unfold Machine.unwind
  split
  · exact (h.push hf).fail _
  · exact (h.push hf).fail _
  · exact hback.yield he
  · exact hback.fail _
  · split
    · exact hhandle _ _ rfl rfl
    · split
      · exact h.next
      · exact hback.leave he
    · split
      · exact (h.push hf).next
      · exact hback.leave he
    · exact hback.leave he

/-- All that a machine carries and the heap go on to be as it is asked. An object that the step
makes has to be so, unless it is put away to wait for its parent object. If one has been waiting for
the value that is handed on, it has to be so as well. -/
theorem step (h : m.Carries K w) (hsignal : m.signal.Carries K)
    (houtcomes : ∀ t v, (w.task t).outcome = some (.ok v) → K.value v)
    (hpayload : ∀ failure r, m.signal = .leave (.failWith failure) → failure.payload = some r →
      K.value (.object r))
    (hadopts : ∀ object cls args taken site fs,
      m.frames = .adopt object cls args taken site :: fs → (∀ e, m.signal ≠ .leave e) →
        K.adopts w.heap object)
    (hnew : ¬ m.PutsAway → w.heap.objects.size < (m.step s w).world.heap.objects.size →
      K.value (.object w.heap.objects.size)) : (m.step s w).Carries K := by
  obtain ⟨frames, signal, scopes, depth⟩ := m
  cases frames with
  | nil => exact ⟨h, hsignal⟩
  | cons f fs =>
      obtain ⟨hf, hfs⟩ := List.forall_mem_cons.mp h.frames
      have hrest : Carries K w ⟨fs, .run, scopes, depth⟩ := ⟨h.heap, hfs⟩
      have hchild : (∀ e, signal ≠ .leave e) → ∀ object cls args taken site,
          f = .adopt object cls args taken site → K.adopts w.heap object := by
        rintro hleave object cls args taken site rfl
        exact hadopts object cls args taken site fs rfl hleave
      cases signal with
      | run =>
          refine hrest.resumeFrame hf trivial houtcomes (hchild nofun) fun hputs => hnew ?_
          rintro ⟨-, cls, parent, args, site, fs', heq, hbuiltin, hparent⟩
          exact hputs cls args site (List.cons.inj heq).1 ⟨hbuiltin, parent, hparent⟩
      | value v => exact hrest.receive hf (hchild nofun) hsignal
      | leave e =>
          refine hrest.unwind hf hsignal (fun failure r he => hpayload failure r (he ▸ rfl)) ?_
          exact hnew fun hputs => nomatch hputs.1

end Carries

end Machine

end Statute
