import Statute.Proofs.Machine.Binding

/-!
# How an object is constructed

A class that is not built in first lets its parent be constructed with as many leading arguments as
this takes, and then runs its own constructor on the object. So the classes are gone through from
the nearest to the first one that is built in, or to the root, and each of them gets an object and
leading arguments of the class before. On the way back the constructors run one after the other,
that of the oldest class first, each on the object of its own class. A class without a constructor
only looks at whether its parent has taken all the arguments.

`Machine.Constructs` says this of the history of a machine that constructs an object, whatever
happens to the world between its steps.
-/

namespace Statute

namespace Class

/-- The classes from the one with level `own` on, up to the first that is built in. -/
def lineFrom (own : Level) : List Level → List Class
  | [] => [⟨own, []⟩]
  | l :: ls =>
      if own.builtin.isSome then [⟨own, l :: ls⟩] else ⟨own, l :: ls⟩ :: lineFrom l ls

/-- The class and its ancestors, up to and including the first one that is built in, or the root. -/
def line (c : Class) : List Class :=
  lineFrom c.own c.ancestors

/-- How many of `n` arguments the class at place `i` of the line is given: no more than `n`, and no
more than each of the classes from the parent down to this one takes. -/
def given (c : Class) (n i : Nat) : Nat :=
  (((c.line.drop 1).take i).map constructorArity).foldl min n

/-- The number of arguments is not accepted somewhere: there are more than the class takes, or the
constructor of a class of the line requires more than it is given. -/
def Misgiven (c : Class) (n : Nat) : Prop :=
  c.constructorArity < n ∨
    ∃ i k p, c.line[i]? = some k ∧ k.own.builtin = none ∧ k.own.ctor = some p ∧
      c.given n i < p.required

variable {c parent : Class} {n i : Nat} {k : ErrorKind}

theorem line_of_builtin (hbuiltin : c.own.builtin = some k) : c.line = [c] := by
  obtain ⟨own, ancestors⟩ := c
  change own.builtin = some k at hbuiltin
  cases ancestors with
  | nil => rfl
  | cons l ls => simp [line, lineFrom, hbuiltin]

theorem line_of_parent?_eq_none (hparent : c.parent? = none) : c.line = [c] := by
  obtain ⟨own, ancestors⟩ := c
  cases ancestors with
  | nil => rfl
  | cons l ls => contradiction

theorem line_of_parent? (hbuiltin : c.own.builtin = none) (hparent : c.parent? = some parent) :
    c.line = c :: parent.line := by
  obtain ⟨own, ancestors⟩ := c
  change own.builtin = none at hbuiltin
  cases ancestors with
  | nil => contradiction
  | cons l ls =>
      obtain rfl := Option.some.inj hparent
      simp [line, lineFrom, hbuiltin]

theorem exists_line (c : Class) : ∃ rest, c.line = c :: rest := by
  cases hbuiltin : c.own.builtin with
  | some k => exact ⟨[], line_of_builtin hbuiltin⟩
  | none =>
      cases hparent : c.parent? with
      | none => exact ⟨[], line_of_parent?_eq_none hparent⟩
      | some parent => exact ⟨_, line_of_parent? hbuiltin hparent⟩

@[simp] theorem given_zero (c : Class) (n : Nat) : c.given n 0 = n := rfl

theorem given_succ (hbuiltin : c.own.builtin = none) (hparent : c.parent? = some parent) :
    c.given n (i + 1) = parent.given (min n parent.constructorArity) i := by
  obtain ⟨rest, hrest⟩ := parent.exists_line
  simp [given, line_of_parent? hbuiltin hparent, hrest]

theorem given_le (c : Class) (n i : Nat) : c.given n i ≤ n := by
  unfold given
  generalize ((c.line.drop 1).take i).map constructorArity = arities
  induction arities generalizing n with
  | nil => exact Nat.le_refl n
  | cons a arities ih => exact (ih (min n a)).trans (Nat.min_le_left n a)

/-- The leading arguments that a class of the line is given are those that its parent is given. -/
theorem take_given (hbuiltin : c.own.builtin = none) (hparent : c.parent? = some parent)
    (args : List Value) (i : Nat) :
    (args.take parent.constructorArity).take
        (parent.given (args.take parent.constructorArity).length i) =
      args.take (c.given args.length (i + 1)) := by
  rw [given_succ hbuiltin hparent, List.take_take, List.length_take, Nat.min_comm args.length,
    Nat.min_eq_left]
  exact (given_le _ _ _).trans (Nat.min_le_left _ _)

theorem constructorArity_of_builtin (hbuiltin : c.own.builtin = some k) :
    c.constructorArity = 1 := by
  rw [constructorArity_eq, hbuiltin]
  rfl

theorem constructorArity_of_ctor {p : Procedure} (hbuiltin : c.own.builtin = none)
    (hctor : c.own.ctor = some p) : c.constructorArity = p.params.length := by
  rw [constructorArity_eq, hbuiltin, hctor]
  rfl

theorem constructorArity_of_parent? (hbuiltin : c.own.builtin = none) (hctor : c.own.ctor = none)
    (hparent : c.parent? = some parent) : c.constructorArity = parent.constructorArity := by
  rw [constructorArity_eq, hbuiltin, hctor]
  obtain ⟨own, ancestors⟩ := c
  cases ancestors with
  | nil => contradiction
  | cons l ls =>
      obtain rfl := Option.some.inj hparent
      rfl

theorem constructorArity_of_parent?_eq_none (hbuiltin : c.own.builtin = none)
    (hctor : c.own.ctor = none) (hparent : c.parent? = none) : c.constructorArity = 0 := by
  rw [constructorArity_eq, hbuiltin, hctor]
  obtain ⟨own, ancestors⟩ := c
  cases ancestors with
  | nil => rfl
  | cons l ls => contradiction

end Class

/-- An object under construction: its class, the arguments that this was given, and how many of them
its parent takes. -/
structure Part where
  object : ObjectRef
  cls : Class
  args : List Value
  taken : Nat

namespace Part

/-- The object that is made next for a class. -/
def next (w : World) (cls : Class) (args : List Value) : Part :=
  ⟨w.heap.objects.size, cls, args,
    match cls.parent? with
    | none => 0
    | some parent => min parent.constructorArity args.length⟩

def call (p : Part) (q : Procedure) (site : Option Location) : Call :=
  ⟨q, some p.object, p.args, site⟩

def ctorCall? (p : Part) (site : Option Location) : Option Call :=
  if p.cls.isBuiltin then none else p.cls.own.ctor.map fun q => p.call q site

/-- The calls of the constructors of some objects, that of the last object first. -/
def ctorCalls (site : Option Location) (parts : List Part) : List Call :=
  (parts.filterMap fun p => p.ctorCall? site).reverse

/-- The failure of a class without a constructor that is given more arguments than its parent
takes. -/
def overfilled (p : Part) (site : Option Location) : Failure :=
  (Failure.argumentCount p.cls.name (toString p.taken) p.args.length).atCall site

@[simp] theorem ctorCalls_cons (site : Option Location) (p : Part) (parts : List Part) :
    ctorCalls site (p :: parts) = ctorCalls site parts ++ (p.ctorCall? site).toList := by
  rw [ctorCalls, List.filterMap_cons]
  cases p.ctorCall? site <;> simp [ctorCalls]

theorem ctorCall?_of_builtin {p : Part} {k : ErrorKind} (hbuiltin : p.cls.own.builtin = some k)
    (site : Option Location) : p.ctorCall? site = none := by
  simp [ctorCall?, Class.isBuiltin, hbuiltin]

theorem ctorCall?_of_user {p : Part} (hbuiltin : p.cls.own.builtin = none)
    (site : Option Location) :
    p.ctorCall? site = p.cls.own.ctor.map fun q => p.call q site := by
  simp [ctorCall?, Class.isBuiltin, hbuiltin]

end Part

namespace Base

/-- The machine that begins to construct an object above other frames. -/
def constructing (b : Base) (cls : Class) (args : List Value) (site : Option Location) : Machine :=
  ⟨.construct cls args site :: b.frames, .run, b.scopes, b.depth⟩

/-- What is below the construction of a parent object. -/
def adopting (b : Base) (p : Part) (site : Option Location) : Base :=
  ⟨.adopt p.object p.cls p.args p.taken site :: b.frames, b.scopes, b.depth⟩

/-- What is below the constructor of an object. -/
def finishing (b : Base) (p : Part) : Base :=
  ⟨.finish p.object :: b.frames, b.scopes, b.depth⟩

/-- The scopes and the depth of calls, without any frames. -/
def alone (b : Base) : Base :=
  ⟨[], ⟨b.scopes.current, []⟩, b.depth⟩

end Base

/-- How far something has come that a machine does above other frames: it is still under way, or it
is over, and the frames below go on with a signal. -/
inductive Headway where
  | going (m : Machine)
  | ended (signal : Signal)

def Headway.machine (b : Base) : Headway → Machine
  | going m => m
  | ended signal => b.answering signal

/-- How the constructor of an object runs: its moments, the call together with what the machine that
makes it has become by itself, and how far it has come. -/
inductive Part.Runs (s : Setting) (site : Option Location) (b : Base) (p : Part) :
    List Moment → List (Call × Machine) → Headway → Prop
  | calls {q : Procedure} {us : List Moment} {n : Machine} (hctor : p.cls.own.ctor = some q)
      (hcall : ((p.call q site).begun b.alone).Passes s us n) :
      Runs s site b p (us.map (.above (b.finishing p).frames b.scopes)) [(p.call q site, n)]
        (.going (n.above (b.finishing p).frames b.scopes))
  | returns {q : Procedure} {us : List Moment} {n : Machine} {v : Value}
      (hctor : p.cls.own.ctor = some q) (hcall : ((p.call q site).begun b.alone).Passes s us n)
      (hend : n.frames = []) (hvalue : n.signal = .value v) (w : World) :
      Runs s site b p
        (us.map (.above (b.finishing p).frames b.scopes) ++
          [⟨w, (b.finishing p).answering (.value v)⟩])
        [(p.call q site, n)] (.ended (.value (.object p.object)))
  | fails {q : Procedure} {us : List Moment} {n : Machine} {f : Failure}
      (hctor : p.cls.own.ctor = some q) (hcall : ((p.call q site).begun b.alone).Passes s us n)
      (hend : n.frames = []) (hfails : n.signal = .leave (.failWith f)) (w : World) :
      Runs s site b p
        (us.map (.above (b.finishing p).frames b.scopes) ++
          [⟨w, (b.finishing p).answering (.leave (.failWith f))⟩])
        [(p.call q site, n)] (.ended (.leave (.failWith f)))
  /-- There is no constructor, and the parent has taken all the arguments. -/
  | passes (hctor : p.cls.own.ctor = none) (hcount : p.args.length ≤ p.taken) :
      Runs s site b p [] [] (.ended (.value (.object p.object)))
  | refuses (hctor : p.cls.own.ctor = none) (hcount : p.taken < p.args.length) :
      Runs s site b p [] [] (.ended (.leave (.failWith (p.overfilled site))))

/-- How an object goes on that waits for its parent object, when the construction of this has come
as far as the first headway says. -/
inductive Part.Adopts (s : Setting) (site : Option Location) (b : Base) (p : Part) :
    Headway → List Moment → List (Call × Machine) → Headway → Prop
  /-- The parent object is not finished, or it has just been finished or given up. -/
  | waits (res : Headway) : Adopts s site b p res [] [] (.going (res.machine (b.adopting p site)))
  | drops (f : Failure) (w : World) :
      Adopts s site b p (.ended (.leave (.failWith f)))
        [⟨w, (b.adopting p site).answering (.leave (.failWith f))⟩] []
        (.ended (.leave (.failWith f)))
  | adopts {r : ObjectRef} {ts : List Moment} {log : List (Call × Machine)} {res : Headway}
      (w : World) (hruns : p.Runs s site b ts log res) :
      Adopts s site b p (.ended (.value (.object r)))
        (⟨w, (b.adopting p site).answering (.value (.object r))⟩ :: ts) log res

namespace Machine

/-- How an object of a class is constructed: the moments, the objects that are made for the class
and its ancestors, the calls of constructors in their order, each with what the machine that makes
it has become by itself, and how far all this has come. -/
inductive Constructs (s : Setting) (site : Option Location) :
    Base → Class → List Value → List Moment → List Part → List (Call × Machine) → Headway → Prop
  | begins (b : Base) (cls : Class) (args : List Value) :
      Constructs s site b cls args [] [] [] (.going (b.constructing cls args site))
  /-- A built-in class takes a message at most. -/
  | overfills {b : Base} {cls : Class} {args : List Value} {k : ErrorKind}
      (hbuiltin : cls.own.builtin = some k) (hcount : 1 < args.length) (w : World) :
      Constructs s site b cls args [⟨w, b.constructing cls args site⟩] [] []
        (.ended (.leave (.failWith
          ((Failure.argumentCount cls.name "0 to 1" args.length).atCall site))))
  | builtin {b : Base} {cls : Class} {args : List Value} {k : ErrorKind}
      (hbuiltin : cls.own.builtin = some k) (hcount : args.length ≤ 1) (w : World) :
      Constructs s site b cls args [⟨w, b.constructing cls args site⟩] [.next w cls args] []
        (.ended (.value (.object w.heap.objects.size)))
  | root {b : Base} {cls : Class} {args : List Value} {w : World} {ts : List Moment}
      {log : List (Call × Machine)} {res : Headway} (hbuiltin : cls.own.builtin = none)
      (hparent : cls.parent? = none) (hruns : (Part.next w cls args).Runs s site b ts log res) :
      Constructs s site b cls args (⟨w, b.constructing cls args site⟩ :: ts) [.next w cls args] log
        res
  /-- An object of the parent class is constructed first. -/
  | inherits {b : Base} {cls parent : Class} {args : List Value} {w : World} {ts us : List Moment}
      {parts : List Part} {log log' : List (Call × Machine)} {res res' : Headway}
      (hbuiltin : cls.own.builtin = none) (hparent : cls.parent? = some parent)
      (hdeeper : Constructs s site (b.adopting (.next w cls args) site) parent
        (args.take parent.constructorArity) ts parts log res)
      (hthen : (Part.next w cls args).Adopts s site b res us log' res') :
      Constructs s site b cls args (⟨w, b.constructing cls args site⟩ :: (ts ++ us))
        (.next w cls args :: parts) (log ++ log') res'

end Machine

/-! ## Histories of a construction -/

/-- Something that is done above the frames of a base goes as `C` says: it is still under way, or it
is over and the frames below have gone on with its signal. -/
def Base.Does (s : Setting) (b : Base) (C : List Moment → Headway → Prop) (ts : List Moment)
    (m : Machine) : Prop :=
  C ts (.going m) ∨
    ∃ us vs signal, ts = us ++ vs ∧ C us (.ended signal) ∧ (b.answering signal).Passes s vs m

variable {s : Setting} {site : Option Location} {b : Base} {p : Part} {cls : Class}
  {args : List Value} {ts : List Moment} {parts : List Part} {log : List (Call × Machine)}
  {res res' : Headway} {m : Machine} {signal : Signal} {us : List Moment}
  {log' : List (Call × Machine)} {b' : Base} {i : Nat}

theorem Part.inOrder_call (p : Part) (q : Procedure) (site : Option Location) (b : Base) :
    ((p.call q site).begun b.alone).InOrder .value b.depth b.scopes.current :=
  ⟨rfl, rfl, _, _, .nothing rfl rfl _ _, .root⟩

/-- Whatever the history of a machine that runs the constructor of an object, it is one that this
can have. -/
theorem Part.does_runs {w : World}
    (h : ((b.answering .run).initialise w p.object p.cls p.args p.taken site).machine.Passes s
      ts m) :
    b.Does s (fun us res => ∃ log, p.Runs s site b us log res) ts m := by
  cases hctor : p.cls.own.ctor with
  | none =>
      by_cases hcount : p.taken < p.args.length
      · simp only [Machine.initialise, hctor, if_pos hcount] at h
        exact Or.inr ⟨[], ts, _, rfl, ⟨[], .refuses hctor hcount⟩, h⟩
      · simp only [Machine.initialise, hctor, if_neg hcount] at h
        exact Or.inr ⟨[], ts, _, rfl, ⟨[], .passes hctor (Nat.le_of_not_lt hcount)⟩, h⟩
  | some q =>
      simp only [Machine.initialise, hctor] at h
      change (((p.call q site).begun b.alone).above (b.finishing p).frames b.scopes).Passes s
        ts m at h
      have horder := p.inOrder_call q site b
      rcases h.of_above horder with ⟨us, n, rfl, rfl, hus⟩ |
        ⟨us, n, w₁, later, rfl, hus, hend, hlater⟩
      · exact Or.inl ⟨_, .calls hctor hus⟩
      · obtain ⟨signal, ⟨v, rfl⟩ | ⟨f, rfl⟩, rfl⟩ :=
          Call.answer_of_inOrder (hus.inOrder horder) hend
        · cases hlater with
          | go hcrash hrest =>
              refine Or.inr ⟨_, later, _, ?_, ⟨_, .returns hctor hus rfl rfl w₁⟩, hrest⟩
              rw [List.append_assoc]
              rfl
        · cases hlater with
          | go hcrash hrest =>
              refine Or.inr ⟨_, later, _, ?_, ⟨_, .fails hctor hus rfl rfl w₁⟩, hrest⟩
              rw [List.append_assoc]
              rfl

/-- Whatever the history of a machine that has an object adopt its parent object, it is one that
this can have. -/
theorem Part.does_adopts (hanswer : (∃ r, signal = .value (.object r)) ∨
      ∃ f, signal = .leave (.failWith f))
    (h : ((b.adopting p site).answering signal).Passes s ts m) :
    b.Does s (fun us res => ∃ log, p.Adopts s site b (.ended signal) us log res) ts m := by
  cases h with
  | stay => exact Or.inl ⟨_, .waits _⟩
  | @go w _ _ ts _ hrest =>
      rcases hanswer with ⟨r, rfl⟩ | ⟨f, rfl⟩
      · rcases Part.does_runs (p := p) (b := b) hrest with ⟨log, hruns⟩ |
          ⟨us, vs, signal, rfl, ⟨log, hruns⟩, hvs⟩
        · exact Or.inl ⟨_, .adopts w hruns⟩
        · exact Or.inr ⟨_ :: us, vs, _, rfl, ⟨_, .adopts w hruns⟩, hvs⟩
      · exact Or.inr ⟨[_], ts, _, rfl, ⟨_, .drops f w⟩, hrest⟩

theorem Part.Runs.answer (h : p.Runs s site b ts log (.ended signal)) :
    signal = .value (.object p.object) ∨ ∃ f, signal = .leave (.failWith f) := by
  cases h with
  | returns => exact Or.inl rfl
  | fails => exact Or.inr ⟨_, rfl⟩
  | passes => exact Or.inl rfl
  | refuses => exact Or.inr ⟨_, rfl⟩

theorem Part.Runs.above (h : p.Runs s site b ts log (.going m)) :
    b.frames.length < m.frames.length := by
  cases h with
  | calls =>
      simp only [Machine.above, Base.finishing, List.length_append, List.length_cons]
      omega

/-- Nothing is over before the construction of the parent object is. -/
theorem Part.Adopts.ended (h : p.Adopts s site b res ts log (.ended signal)) :
    ∃ signal', res = .ended signal' := by
  cases h <;> exact ⟨_, rfl⟩

namespace Machine.Constructs

/-- A construction ends with the object that was made first, or with a failure. -/
theorem answer (h : Constructs s site b cls args ts parts log (.ended signal)) :
    (∃ p rest, parts = p :: rest ∧ signal = .value (.object p.object)) ∨
      ∃ f, signal = .leave (.failWith f) := by
  cases h with
  | overfills => exact Or.inr ⟨_, rfl⟩
  | builtin => exact Or.inl ⟨_, _, rfl, rfl⟩
  | root _ _ hruns => exact hruns.answer.imp_left fun h => ⟨_, _, rfl, h⟩
  | inherits _ _ _ hthen =>
      cases hthen with
      | drops => exact Or.inr ⟨_, rfl⟩
      | adopts _ hruns => exact hruns.answer.imp_left fun h => ⟨_, _, rfl, h⟩

theorem does_of_builtin {k : ErrorKind} (hbuiltin : cls.own.builtin = some k)
    (h : (b.constructing cls args site).Passes s ts m) :
    b.Does s (fun us res => ∃ parts log, Constructs s site b cls args us parts log res) ts m := by
  cases h with
  | stay => exact Or.inl ⟨_, _, .begins b cls args⟩
  | @go w _ _ ts hcrash hrest =>
      change ((b.answering .run).construct w cls args site).machine.Passes s ts m at hrest
      by_cases hcount : 1 < args.length
      · simp only [construct, hbuiltin, if_pos hcount] at hrest
        exact Or.inr ⟨[_], ts, _, rfl, ⟨_, _, .overfills hbuiltin hcount w⟩, hrest⟩
      · simp only [construct, hbuiltin, if_neg hcount] at hrest
        exact Or.inr ⟨[_], ts, _, rfl, ⟨_, _, .builtin hbuiltin (Nat.le_of_not_lt hcount) w⟩, hrest⟩

theorem does_of_root (hbuiltin : cls.own.builtin = none) (hparent : cls.parent? = none)
    (h : (b.constructing cls args site).Passes s ts m) :
    b.Does s (fun us res => ∃ parts log, Constructs s site b cls args us parts log res) ts m := by
  cases h with
  | stay => exact Or.inl ⟨_, _, .begins b cls args⟩
  | @go w _ _ ts hcrash hrest =>
      change ((b.answering .run).construct w cls args site).machine.Passes s ts m at hrest
      have hnext : Part.next w cls args = ⟨w.heap.objects.size, cls, args, 0⟩ := by
        rw [Part.next, hparent]
      simp only [construct, hbuiltin, hparent] at hrest
      rcases Part.does_runs (p := .next w cls args) (b := b) (by rw [hnext]; exact hrest) with
        ⟨log, hruns⟩ | ⟨us, vs, signal, rfl, ⟨log, hruns⟩, hvs⟩
      · exact Or.inl ⟨_, _, .root hbuiltin hparent hruns⟩
      · exact Or.inr ⟨_ :: us, vs, _, rfl, ⟨_, _, .root hbuiltin hparent hruns⟩, hvs⟩

/-- The object waits for its parent object, of whose construction this is known already. -/
theorem does_of_parent {parent : Class} (hbuiltin : cls.own.builtin = none)
    (hparent : cls.parent? = some parent)
    (hdeeper : ∀ {b : Base} {args : List Value} {ts : List Moment},
      (b.constructing parent args site).Passes s ts m →
        b.Does s (fun us res => ∃ parts log, Constructs s site b parent args us parts log res)
          ts m)
    (h : (b.constructing cls args site).Passes s ts m) :
    b.Does s (fun us res => ∃ parts log, Constructs s site b cls args us parts log res) ts m := by
  cases h with
  | stay => exact Or.inl ⟨_, _, .begins b cls args⟩
  | @go w _ _ ts hcrash hrest =>
      change ((b.answering .run).construct w cls args site).machine.Passes s ts m at hrest
      have hnext : Part.next w cls args =
          ⟨w.heap.objects.size, cls, args, min parent.constructorArity args.length⟩ := by
        rw [Part.next, hparent]
      simp only [construct, hbuiltin, hparent, ← List.take_eq_take_min] at hrest
      have hpasses : ((b.adopting (.next w cls args) site).constructing parent
          (args.take parent.constructorArity) site).Passes s ts m := by
        rw [hnext]
        exact hrest
      rcases hdeeper hpasses with ⟨parts, log, hgoing⟩ |
        ⟨us, vs, signal, rfl, ⟨parts, log, hended⟩, hvs⟩
      · have hwaits := Constructs.inherits hbuiltin hparent hgoing (.waits (.going m))
        rw [List.append_nil] at hwaits
        exact Or.inl ⟨_, _, hwaits⟩
      · have hanswer : (∃ r, signal = .value (.object r)) ∨ ∃ f, signal = .leave (.failWith f) := by
          refine hended.answer.imp_left ?_
          rintro ⟨p, -, -, hp⟩
          exact ⟨p.object, hp⟩
        rcases Part.does_adopts hanswer hvs with ⟨log', hthen⟩ |
          ⟨us', vs', signal', rfl, ⟨log', hthen⟩, hvs'⟩
        · exact Or.inl ⟨_, _, .inherits hbuiltin hparent hended hthen⟩
        · refine Or.inr ⟨_, vs', _, ?_, ⟨_, _, .inherits hbuiltin hparent hended hthen⟩, hvs'⟩
          rw [List.cons_append, List.append_assoc]

/-- Whatever the history of a machine that constructs an object, it is one that this can have. -/
theorem does (h : (b.constructing cls args site).Passes s ts m) :
    b.Does s (fun us res => ∃ parts log, Constructs s site b cls args us parts log res) ts m := by
  obtain ⟨own, ancestors⟩ := cls
  -- The induction goes from the parent of a class to the class.
  induction ancestors generalizing own args b ts with
  | nil =>
      cases hbuiltin : own.builtin with
      | some k => exact does_of_builtin hbuiltin h
      | none => exact does_of_root hbuiltin rfl h
  | cons l ls ih =>
      cases hbuiltin : own.builtin with
      | some k => exact does_of_builtin hbuiltin h
      | none => exact does_of_parent hbuiltin rfl (fun h => ih l h) h

/-- As long as a construction is under way, the machine is above the base. -/
theorem above (h : Constructs s site b cls args ts parts log (.going m)) :
    b.frames.length < m.frames.length := by
  generalize hres : Headway.going m = res at h
  induction h generalizing m with
  | begins =>
      obtain rfl := Headway.going.inj hres
      exact Nat.lt_succ_self _
  | overfills => contradiction
  | builtin => contradiction
  | root _ _ hruns =>
      subst hres
      exact hruns.above
  | @inherits b cls parent args w ts us parts log log' res res' _ _ _ hthen ih =>
      subst hres
      cases hthen with
      | waits =>
          cases res with
          | going n => exact (Nat.lt_succ_self _).trans (ih rfl)
          | ended signal => exact Nat.lt_succ_self _
      | adopts _ hruns => exact hruns.above

/-! ## Arguments -/

/-- The steps go through all of the line before anything else is done. -/
theorem length_line_le (h : Constructs s site b cls args ts parts log (.ended signal)) :
    cls.line.length ≤ ts.length := by
  generalize hres : Headway.ended signal = res at h
  induction h generalizing signal with
  | begins => contradiction
  | overfills hbuiltin => simp [Class.line_of_builtin hbuiltin]
  | builtin hbuiltin => simp [Class.line_of_builtin hbuiltin]
  | root _ hparent => simp [Class.line_of_parent?_eq_none hparent]
  | inherits hbuiltin hparent _ hthen ih =>
      subst hres
      obtain ⟨signal', rfl⟩ := hthen.ended
      have hline := ih rfl
      simp only [Class.line_of_parent? hbuiltin hparent, List.length_cons, List.length_append]
      omega

/-- The steps that go through the line come first. -/
theorem getElem?_append (h : Constructs s site b cls args ts parts log res)
    (hthen : p.Adopts s site b' res us log' res') (hi : i < cls.line.length) :
    (ts ++ us)[i]? = ts[i]? := by
  cases hthen with
  | waits => rw [List.append_nil]
  | drops => exact List.getElem?_append_left (hi.trans_le h.length_line_le)
  | adopts => exact List.getElem?_append_left (hi.trans_le h.length_line_le)

/-- One after the other the steps begin to construct the classes of the line, each with the leading
arguments that it is given. -/
theorem step_getElem? (h : Constructs s site b cls args ts parts log res) {t : Moment} {c : Class}
    (ht : ts[i]? = some t) (hc : cls.line[i]? = some c) :
    t.machine.signal = .run ∧
      ∃ gs, t.machine.frames = .construct c (args.take (cls.given args.length i)) site :: gs := by
  have hfirst : ∀ {b : Base} {cls : Class} {args : List Value} {w : World} {ts : List Moment},
      (Moment.mk w (b.constructing cls args site) :: ts)[0]? = some t → cls.line[0]? = some c →
        t.machine.signal = .run ∧
          ∃ gs, t.machine.frames =
            .construct c (args.take (cls.given args.length 0)) site :: gs := by
    intro b cls args w ts ht hc
    obtain ⟨rest, hline⟩ := cls.exists_line
    rw [hline] at hc
    obtain rfl := Option.some.inj ht
    obtain rfl := Option.some.inj hc
    exact ⟨rfl, b.frames, by simp [Base.constructing]⟩
  induction h generalizing i with
  | begins => simp at ht
  | overfills hbuiltin =>
      cases i with
      | zero => exact hfirst ht hc
      | succ i => simp at ht
  | builtin hbuiltin =>
      cases i with
      | zero => exact hfirst ht hc
      | succ i => simp at ht
  | root _ hparent =>
      cases i with
      | zero => exact hfirst ht hc
      | succ i => simp [Class.line_of_parent?_eq_none hparent] at hc
  | inherits hbuiltin hparent hdeeper hthen ih =>
      cases i with
      | zero => exact hfirst ht hc
      | succ i =>
          rw [Class.line_of_parent? hbuiltin hparent, List.getElem?_cons_succ] at hc
          rw [List.getElem?_cons_succ,
            hdeeper.getElem?_append hthen (List.getElem?_eq_some_iff.mp hc).1] at ht
          rw [← Class.take_given hbuiltin hparent]
          exact ih ht hc

/-- The objects are made by these steps, each for its class. -/
theorem parts_getElem? (h : Constructs s site b cls args ts parts log res)
    (hp : parts[i]? = some p) :
    ∃ t, ts[i]? = some t ∧ p.object = t.world.heap.objects.size ∧ cls.line[i]? = some p.cls ∧
      p.args = args.take (cls.given args.length i) := by
  have hfirst : ∀ {b : Base} {cls : Class} {args : List Value} {w : World} {ts : List Moment}
      {parts : List Part}, (Part.next w cls args :: parts)[0]? = some p →
        ∃ t, (Moment.mk w (b.constructing cls args site) :: ts)[0]? = some t ∧
          p.object = t.world.heap.objects.size ∧ cls.line[0]? = some p.cls ∧
          p.args = args.take (cls.given args.length 0) := by
    intro b cls args w ts parts hp
    obtain ⟨rest, hline⟩ := cls.exists_line
    obtain rfl := Option.some.inj hp
    exact ⟨_, rfl, rfl, by rw [hline]; rfl, by simp [Part.next]⟩
  induction h generalizing i with
  | begins => simp at hp
  | overfills => simp at hp
  | builtin =>
      cases i with
      | zero => exact hfirst hp
      | succ i => simp at hp
  | root =>
      cases i with
      | zero => exact hfirst hp
      | succ i => simp at hp
  | inherits hbuiltin hparent hdeeper hthen ih =>
      cases i with
      | zero => exact hfirst hp
      | succ i =>
          obtain ⟨t, ht, hobject, hline, hargs⟩ := ih hp
          refine ⟨t, ?_, hobject, ?_, ?_⟩
          · rw [List.getElem?_cons_succ,
              List.getElem?_append_left (List.getElem?_eq_some_iff.mp ht).1]
            exact ht
          · rwa [Class.line_of_parent? hbuiltin hparent]
          · rw [hargs, Class.take_given hbuiltin hparent]

end Machine.Constructs

/-! ## Constructors -/

def Machine.Returned (m : Machine) : Prop :=
  m.frames = [] ∧ ∃ v, m.signal = .value v

theorem Part.Runs.map_fst (h : p.Runs s site b ts log res) (hbuiltin : p.cls.own.builtin = none) :
    log.map Prod.fst = (p.ctorCall? site).toList := by
  rw [ctorCall?_of_user hbuiltin]
  cases h with
  | calls hctor => rw [hctor]; rfl
  | returns hctor => rw [hctor]; rfl
  | fails hctor => rw [hctor]; rfl
  | passes hctor => rw [hctor]; rfl
  | refuses hctor => rw [hctor]; rfl

theorem Part.Runs.returned {v : Value} (h : p.Runs s site b ts log (.ended (.value v))) :
    ∀ e ∈ log, e.2.Returned := by
  cases h with
  | returns _ _ hend hvalue => exact List.forall_mem_singleton.mpr ⟨hend, _, hvalue⟩
  | passes => exact List.forall_mem_nil _

namespace Machine.Constructs

/-- On success every class of the line has got an object, and all the constructors have run, that of
the oldest class first. -/
theorem complete {v : Value} (h : Constructs s site b cls args ts parts log (.ended (.value v))) :
    parts.map Part.cls = cls.line ∧ log.map Prod.fst = Part.ctorCalls site parts ∧
      ∀ e ∈ log, e.2.Returned := by
  generalize hres : Headway.ended (.value v) = res at h
  induction h generalizing v with
  | begins => contradiction
  | overfills => simp at hres
  | @builtin b cls args k hbuiltin _ w =>
      rw [Class.line_of_builtin hbuiltin, Part.ctorCalls_cons, Part.ctorCall?_of_builtin hbuiltin]
      exact ⟨rfl, rfl, List.forall_mem_nil _⟩
  | root hbuiltin hparent hruns =>
      subst hres
      rw [Class.line_of_parent?_eq_none hparent, hruns.map_fst hbuiltin, Part.ctorCalls_cons]
      exact ⟨rfl, rfl, hruns.returned⟩
  | inherits hbuiltin hparent _ hthen ih =>
      subst hres
      cases hthen with
      | adopts _ hruns =>
          obtain ⟨hline, hcalls, hreturned⟩ := ih rfl
          refine ⟨?_, ?_, List.forall_mem_append.mpr ⟨hreturned, hruns.returned⟩⟩
          · rw [Class.line_of_parent? hbuiltin hparent, List.map_cons, hline]
            rfl
          · rw [List.map_append, hcalls, hruns.map_fst hbuiltin, Part.ctorCalls_cons]

/-- At any time the constructors that have been called are the first ones in this order, each for
the object of its own class. -/
theorem calls_prefix (h : Constructs s site b cls args ts parts log res) :
    log.map Prod.fst <+: Part.ctorCalls site parts := by
  induction h with
  | begins => exact List.nil_prefix
  | overfills => exact List.nil_prefix
  | builtin => exact List.nil_prefix
  | @root b cls args w ts log res hbuiltin _ hruns =>
      have hall : log.map Prod.fst = Part.ctorCalls site [.next w cls args] := by
        rw [hruns.map_fst hbuiltin, Part.ctorCalls_cons]
        rfl
      exact ⟨[], (List.append_nil _).trans hall⟩
  | @inherits b cls parent args w ts us parts log log' res res' hbuiltin _ hdeeper hthen ih =>
      rw [Part.ctorCalls_cons]
      cases hthen with
      | waits =>
          rw [List.append_nil]
          exact ih.trans (List.prefix_append _ _)
      | drops =>
          rw [List.append_nil]
          exact ih.trans (List.prefix_append _ _)
      | adopts _ hruns =>
          have hall : (log ++ log').map Prod.fst =
              Part.ctorCalls site parts ++ ((Part.next w cls args).ctorCall? site).toList := by
            rw [List.map_append, hdeeper.complete.2.1, hruns.map_fst hbuiltin]
          exact ⟨[], (List.append_nil _).trans hall⟩

end Machine.Constructs

/-! ## Failures -/

/-- A call with a number of arguments that is not accepted comes to a failure because of this. -/
theorem Call.signal_of_miscounted {c : Call} {us : List Moment} {n : Machine}
    (hcount : ¬ c.Accepted) (hpasses : (c.begun b.alone).Passes s us n) (hend : n.frames = []) :
    n.signal = .leave (.failWith c.miscounted) := by
  cases hpasses with
  | stay => contradiction
  | go _ hrest =>
      rw [Call.step_begun_miscounted hcount] at hrest
      rw [hrest.eq_of_frames_nil rfl]
      rfl

theorem Call.kind_miscounted (c : Call) : c.miscounted.kind = .argumentCount :=
  Failure.kind_of_core (Failure.core_atCall _ c.site)

theorem Part.kind_overfilled (p : Part) (site : Option Location) :
    (p.overfilled site).kind = .argumentCount :=
  Failure.kind_of_core (Failure.core_atCall _ site)

/-- The constructor does not accept the number of its arguments, or there is none and the parent has
not taken all of them. -/
def Part.Refuses (p : Part) : Prop :=
  match p.cls.own.ctor with
  | some q => ¬ (p.call q none).Accepted
  | none => p.taken < p.args.length

theorem Part.refuses_next_iff (w : World) (hbuiltin : cls.own.builtin = none) (args : List Value) :
    (Part.next w cls args).Refuses ↔ cls.constructorArity < args.length ∨
      ∃ q, cls.own.ctor = some q ∧ args.length < q.required := by
  cases hctor : cls.own.ctor with
  | some q =>
      simp only [Part.Refuses, Part.next, hctor, Class.constructorArity_of_ctor hbuiltin hctor,
        Call.Accepted, Part.call, Option.some.injEq, exists_eq_left']
      omega
  | none =>
      cases hparent : cls.parent? with
      | none =>
          simp [Part.Refuses, Part.next, hctor, hparent,
            Class.constructorArity_of_parent?_eq_none hbuiltin hctor hparent]
      | some parent =>
          simp [Part.Refuses, Part.next, hctor, hparent,
            Class.constructorArity_of_parent? hbuiltin hctor hparent]

/-- If no accepted call of the constructor fails, then a failure is one about the number of
arguments, and whether there is one depends on nothing else. -/
theorem Part.Runs.fails_iff (h : p.Runs s site b ts log (.ended signal))
    (hclean : ∀ e ∈ log, e.1.Accepted → e.2.Returned) :
    ((∃ f, signal = .leave (.failWith f)) ↔ p.Refuses) ∧
      ∀ f, signal = .leave (.failWith f) → f.kind = .argumentCount := by
  unfold Part.Refuses
  cases h with
  | @returns q us n v hctor hcall hend hvalue =>
      have haccepted : (p.call q none).Accepted := by
        by_contra hcount
        rw [Call.signal_of_miscounted (c := p.call q site) hcount hcall hend] at hvalue
        contradiction
      simp [hctor, haccepted]
  | @fails q us n f hctor hcall hend hfails =>
      have hcount : ¬ (p.call q none).Accepted := by
        intro haccepted
        obtain ⟨-, v, hvalue⟩ := List.forall_mem_singleton.mp hclean haccepted
        rw [hfails] at hvalue
        contradiction
      rw [Call.signal_of_miscounted (c := p.call q site) hcount hcall hend] at hfails
      obtain rfl := Exit.failWith.inj (Signal.leave.inj hfails)
      simpa [hctor, hcount] using (p.call q site).kind_miscounted
  | passes hctor hcount => simp [hctor, hcount]
  | refuses hctor hcount => simpa [hctor, hcount] using p.kind_overfilled site

namespace Class

variable {parent : Class} {n : Nat} {k : ErrorKind}

theorem misgiven_of_builtin (hbuiltin : cls.own.builtin = some k) : cls.Misgiven n ↔ 1 < n := by
  rw [Misgiven, constructorArity_of_builtin hbuiltin, line_of_builtin hbuiltin, or_iff_left]
  rintro ⟨i, c, q, hc, hnone, -⟩
  obtain rfl := List.mem_singleton.mp (List.mem_of_getElem? hc)
  rw [hbuiltin] at hnone
  contradiction

theorem misgiven_of_parent?_eq_none (hbuiltin : cls.own.builtin = none)
    (hparent : cls.parent? = none) :
    cls.Misgiven n ↔ cls.constructorArity < n ∨ ∃ q, cls.own.ctor = some q ∧ n < q.required := by
  rw [Misgiven, line_of_parent?_eq_none hparent]
  refine or_congr_right ⟨?_, ?_⟩
  · rintro ⟨i, c, q, hc, -, hctor, hlt⟩
    cases i with
    | zero =>
        obtain rfl := Option.some.inj hc
        exact ⟨q, hctor, hlt⟩
    | succ i => simp at hc
  · rintro ⟨q, hctor, hlt⟩
    exact ⟨0, cls, q, rfl, hbuiltin, hctor, hlt⟩

/-- The parent is never given more arguments than it takes. -/
theorem misgiven_of_parent? (hbuiltin : cls.own.builtin = none)
    (hparent : cls.parent? = some parent) :
    cls.Misgiven n ↔ parent.Misgiven (min n parent.constructorArity) ∨
      (cls.constructorArity < n ∨ ∃ q, cls.own.ctor = some q ∧ n < q.required) := by
  rw [Misgiven, line_of_parent? hbuiltin hparent]
  constructor
  · rintro (hmany | ⟨i, c, q, hc, huser, hctor, hlt⟩)
    · exact Or.inr (Or.inl hmany)
    · cases i with
      | zero =>
          obtain rfl := Option.some.inj hc
          exact Or.inr (Or.inr ⟨q, hctor, hlt⟩)
      | succ i =>
          rw [given_succ hbuiltin hparent] at hlt
          exact Or.inl (Or.inr ⟨i, c, q, hc, huser, hctor, hlt⟩)
  · rintro ((hmany | ⟨i, c, q, hc, huser, hctor, hlt⟩) | (hmany | ⟨q, hctor, hlt⟩))
    · exact absurd (Nat.min_le_right _ _) (Nat.not_le_of_lt hmany)
    · rw [← given_succ hbuiltin hparent] at hlt
      exact Or.inr ⟨i + 1, c, q, hc, huser, hctor, hlt⟩
    · exact Or.inl hmany
    · exact Or.inr ⟨0, cls, q, rfl, hbuiltin, hctor, hlt⟩

end Class

namespace Machine.Constructs

/-- If no accepted call of a constructor fails, then a construction fails exactly if the number of
arguments is not accepted somewhere. -/
theorem fails_iff (h : Constructs s site b cls args ts parts log (.ended signal))
    (hclean : ∀ e ∈ log, e.1.Accepted → e.2.Returned) :
    ((∃ f, signal = .leave (.failWith f)) ↔ cls.Misgiven args.length) ∧
      ∀ f, signal = .leave (.failWith f) → f.kind = .argumentCount := by
  generalize hres : Headway.ended signal = res at h
  induction h generalizing signal with
  | begins => contradiction
  | overfills hbuiltin hcount =>
      obtain rfl := Headway.ended.inj hres
      rw [Class.misgiven_of_builtin hbuiltin]
      refine ⟨⟨fun _ => hcount, fun _ => ⟨_, rfl⟩⟩, fun f hf => ?_⟩
      rw [← Exit.failWith.inj (Signal.leave.inj hf)]
      exact Failure.kind_of_core (Failure.core_atCall _ site)
  | builtin hbuiltin hcount =>
      obtain rfl := Headway.ended.inj hres
      rw [Class.misgiven_of_builtin hbuiltin]
      simp [hcount]
  | root hbuiltin hparent hruns =>
      subst hres
      rw [Class.misgiven_of_parent?_eq_none hbuiltin hparent, ← Part.refuses_next_iff _ hbuiltin]
      exact hruns.fails_iff hclean
  | @inherits b cls parent args w ts us parts log log' res res' hbuiltin hparent _ hthen ih =>
      subst hres
      obtain ⟨hclean₁, hclean₂⟩ := List.forall_mem_append.mp hclean
      rw [Class.misgiven_of_parent? hbuiltin hparent, ← Part.refuses_next_iff w hbuiltin,
        Nat.min_comm, ← List.length_take]
      cases hthen with
      | drops =>
          obtain ⟨hiff, hkind⟩ := ih hclean₁ rfl
          exact ⟨⟨fun h => Or.inl (hiff.mp h), fun _ => ⟨_, rfl⟩⟩, hkind⟩
      | adopts _ hruns =>
          obtain ⟨hiff, -⟩ := ih hclean₁ rfl
          have hparentGood : ¬ parent.Misgiven (args.take parent.constructorArity).length := by
            rw [← hiff]
            simp
          rw [or_iff_right hparentGood]
          exact hruns.fails_iff hclean₂

end Machine.Constructs

end Statute
