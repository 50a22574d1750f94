import Statute.Machine.Evaluation
import Statute.Throwing
import Statute.World

/-!
# One step of a machine

The frame on top is taken off and dealt with according to the signal. It is put back, perhaps
changed, if it has not ended, and frames for what begins are put above it.

A step can reach a checkpoint, where the machine may be set aside for a while: after each statement
of a body that ran to its end, and at the beginning of each turn of a loop. A step can also find
that it has to wait for another machine; then nothing has changed, and the same step has to be tried
again later.
-/

namespace Statute

/-- How a step went. -/
inductive Step where
  /-- The machine goes on. -/
  | next
  /-- The machine goes on, and has reached a checkpoint. -/
  | pause
  /-- The machine waits for another one. -/
  | blocked
  /-- There is nothing left to do. -/
  | done
  /-- The host broke down. -/
  | crash (message : Option String)
deriving DecidableEq, Repr, Inhabited

/-- How a step went, and what it left behind. -/
structure Reply where
  step : Step
  world : World
  machine : Machine
deriving Inhabited

namespace Machine

/-! ## Beginning and ending -/

def push (m : Machine) (f : Frame) : Machine :=
  { m with frames := f :: m.frames }

def send (m : Machine) (s : Signal) : Machine :=
  { m with signal := s }

def next (w : World) (m : Machine) : Reply :=
  ⟨.next, w, m.send .run⟩

/-- The machine hands a value to the frame on top. -/
def yield (w : World) (m : Machine) (v : Value) : Reply :=
  ⟨.next, w, m.send (.value v)⟩

def leave (w : World) (m : Machine) (e : Exit) : Reply :=
  ⟨.next, w, m.send (.leave e)⟩

def fail (w : World) (m : Machine) (f : Failure) : Reply :=
  m.leave w (.failWith f)

/-- Gives back what a frame owned, once it has been taken off. -/
def giveBack (w : World) (m : Machine) (f : Frame) : World × Machine :=
  let w := match f.lock? with
    | some l => { w with heap := w.heap.release l }
    | none => w
  (w, { m with
    scopes := if f.ownsScope then m.scopes.pop else m.scopes
    depth := if f.isCall then m.depth - 1 else m.depth })

/-- Opens a fresh scope inside `outer` that binds `vars`, and puts the frame on top that owns it. -/
def openScope (w : World) (m : Machine) (name : String) (outer : Env)
    (vars : List (String × Value)) (f : Frame) : World × Machine :=
  let (heap, r) := w.heap.newScope name
  ({ w with heap := heap.defineAll r vars },
    { m with scopes := m.scopes.push (r :: outer), frames := f :: m.frames })

def openBlock (w : World) (m : Machine) (name : String) (vars : List (String × Value))
    (body : Body) : World × Machine :=
  m.openScope w name m.scopes.current vars (.body body true false)

/-- Goes on with a body in a fresh scope inside the current one. -/
def block (w : World) (m : Machine) (name : String) (vars : List (String × Value))
    (body : Body) : Reply :=
  let (w, m) := m.openBlock w name vars body
  m.next w

/-- Begins a turn of a loop, which is a checkpoint. -/
def turn (w : World) (m : Machine) (name : String) (vars : List (String × Value))
    (body : Body) : Reply :=
  let (w, m) := m.openBlock w name vars body
  ⟨.pause, w, m.send .run⟩

/-- Begins to evaluate an expression for the given frame. -/
def evaluate (w : World) (m : Machine) (f : Frame) (e : Expression) : Reply :=
  match e.compile with
  | .ok c => ((m.push f).push (.eval c.items [] c.location)).next w
  | .error failure => m.fail w failure

/-! ## Statements -/

/-- Tries the branches in order. -/
def choose (w : World) (m : Machine) (otherwise : Option Body) : List Branch → Reply
  | .mk test body :: rest => m.evaluate w (.branch test.location body rest otherwise) test
  | [] =>
      match otherwise with
      | some body => m.block w "else" [] body
      | none => m.next w

/-- Begins a statement. -/
def begin (w : World) (m : Machine) : Statement → Reply
  | .declare name e => m.evaluate w (.act (.declare name) e.location) e
  | .assign target e => m.evaluate w (.act (.assign target) e.location) e
  | .choose branches otherwise => m.choose w otherwise branches
  | .repeatFor var lower upper body =>
      m.evaluate w (.lower var lower.location upper body) lower
  | .repeatWhile test body => m.evaluate w (.test test body) test
  | .attempt body handlers => (m.push (.guard handlers)).block w "try" [] body
  | .raise e => m.evaluate w (.act .raise e.location) e
  | .exclusive lock body => (m.push (.enter lock body)).next w
  | .print e => m.evaluate w (.act .print e.location) e
  | .returnWith (some e) => m.evaluate w (.act .returnWith e.location) e
  | .returnWith none => m.leave w (.returnWith .empty)
  | .breakOut => m.leave w .breakOut
  | .continueOn => m.leave w .continueOn
  | .perform e => m.evaluate w (.act .discard e.location) e

/-- Does with a value what a statement asks for. -/
def act (s : Setting) (w : World) (m : Machine) (site : Location) (v : Value) : Action → Reply
  | .declare name =>
      let r := m.scopes.current.headD 0
      if (w.heap.local? r name).isSome then m.fail w ((Heap.alreadyDefined name).locate site)
      else m.next { w with heap := w.heap.define r name v }
  | .assign target =>
      match s.place w.heap m.scopes.current target with
      | .ok place => m.next { w with heap := w.heap.store v place }
      | .error f => m.fail w (f.locate site)
  | .print => m.next (w.print (w.heap.text v))
  | .raise =>
      match w.heap.thrown v with
      | .ok f => m.fail w (f.locate site)
      | .error f => m.fail w (f.locate site)
  | .returnWith => m.leave w (.returnWith v)
  | .discard => m.next w

/-- A test as a truth value. -/
def condition (h : Heap) (site : Location) (v : Value) : Except Failure Bool :=
  match h.unbox v with
  | .bool b => .ok b
  | other =>
      .error ((Failure.invalidType
        ("condition must be a boolean, got " ++ other.typeName)).locate site)

def wholeFloat? (x : Float) : Option Int64 :=
  if x.floor == x ∧ -9223372036854775808.0 ≤ x ∧ x < 9223372036854775808.0 then some x.toInt64
  else none

/-- A bound of a counted loop: an integer, or a number without a fraction. -/
def bound (h : Heap) (site : Location) (v : Value) : Except Failure Int64 :=
  let refused (w : Value) : Failure :=
    (Failure.invalidType ("loop bounds must be whole numbers, got " ++ w.typeName ++ " '" ++
      h.text w ++ "'")).locate site
  match h.unbox v with
  | .int i => .ok i
  | .number x =>
      match wholeFloat? x with
      | some i => .ok i
      | none => .error (refused (.number x))
  | other => .error (refused other)

/-- The integer after another one, if there is one. -/
def successor? (i : Int64) : Option Int64 :=
  int64? (i.toInt + 1)

theorem toInt_of_successor? {i j : Int64} (h : successor? i = some j) :
    j.toInt = i.toInt + 1 := by
  unfold successor? int64? at h
  split at h
  · next hfits =>
      obtain rfl := Option.some.inj h
      unfold minInt maxInt at hfits
      exact Int64.toInt_ofInt_of_le (by omega) (by omega)
  · contradiction

/-- Only the greatest integer has no other after it. -/
theorem toInt_of_successor?_eq_none {i : Int64} (h : successor? i = none) :
    i.toInt = maxInt := by
  have hmin := Int64.le_toInt i
  have hmax := Int64.toInt_lt i
  unfold successor? int64? at h
  split at h
  · contradiction
  · next hfits =>
      unfold minInt maxInt at hfits
      unfold maxInt
      omega

/-! ## Calls -/

/-- The scope variables of a call: the parameters, and the object that a method belongs to. -/
def callVars (c : Call) : List (String × Value) :=
  (c.procedure.params.map (·.name)).zip c.args ++
    match c.receiver with
    | some r => [("this", .object r)]
    | none => []

/-- Enters the body of a call that has all its arguments. -/
def enter (s : Setting) (w : World) (m : Machine) (c : Call) : Reply :=
  let limit := s.config.recursionLimit
  if limit ≤ m.depth then
    m.fail w ((Failure.new .recursionLimit
      ("maximum recursion depth of " ++ toString limit ++ " exceeded calling '" ++
        c.procedure.name ++ "'")).atCall c.site)
  else
    let (w, m) := m.openScope w c.procedure.name World.globals (callVars c) (.running c)
    { m with depth := m.depth + 1 }.push (.body c.procedure.body false false) |>.next w

/-- Evaluates the defaults of the remaining parameters one by one, and then enters the body. -/
def supply (s : Setting) (w : World) (m : Machine) (c : Call) : List Param → Reply
  | [] => m.enter s w c
  | p :: rest =>
      match p.default with
      | none =>
          m.fail w ((Failure.new .internal
            ("parameter '" ++ p.name ++ "' of '" ++ c.procedure.name ++
              "' has no default")).atCall c.site)
      | some e =>
          match e.compile with
          | .ok code =>
              ((m.push (.supply c rest)).push (.eval code.items [] code.location)).next w
          | .error f => m.fail w (f.atCall c.site)

/-- Begins a call of a procedure. -/
def bind (s : Setting) (w : World) (m : Machine) (c : Call) : Reply :=
  let p := c.procedure
  let supplied := c.args.length
  if supplied < p.required ∨ p.params.length < supplied then
    m.fail w ((Failure.argumentCount p.name p.arityText supplied).atCall c.site)
  else m.supply s w c (p.params.drop supplied)

/-- Begins a call of a value. -/
def call (s : Setting) (w : World) (m : Machine) (callee : Value) (args : List Value)
    (site : Option Location) : Reply :=
  match callee with
  | .procedure p => m.bind s w ⟨p, none, args, site⟩
  | .method r p => m.bind s w ⟨p, some r, args, site⟩
  | .classDef c => (m.push (.construct c args site)).next w
  | .extension e =>
      match e.checkedCall s.host w.heap args with
      | .value v => m.yield w v
      | .failure f => m.fail w (f.atCall site)
      | .crash message => ⟨.crash message, w, m⟩
  | other => m.fail w ((Failure.invalidType (other.typeName ++ " is not callable")).atCall site)

/-! ## Construction -/

/-- Runs the constructor of a class on an object, after its parent object was given `taken` of the
arguments. -/
def initialise (w : World) (m : Machine) (object : ObjectRef) (cls : Class) (args : List Value)
    (taken : Nat) (site : Option Location) : Reply :=
  match cls.own.ctor with
  | some p => ((m.push (.finish object)).push (.call (.method object p) args site)).next w
  | none =>
      if taken < args.length then
        m.fail w ((Failure.argumentCount cls.name (toString taken) args.length).atCall site)
      else m.yield w (.object object)

/-- Begins to construct an object. A built-in class takes a message; any other class first lets its
parent take as many leading arguments as it can. -/
def construct (w : World) (m : Machine) (cls : Class) (args : List Value)
    (site : Option Location) : Reply :=
  match cls.own.builtin with
  | some k =>
      if 1 < args.length then
        m.fail w ((Failure.argumentCount cls.name "0 to 1" args.length).atCall site)
      else
        let message := match args.head? with
          | some v => w.heap.text v
          | none => k.defaultMessage
        let (heap, r) := w.heap.newError cls message
        m.yield { w with heap := heap } (.object r)
  | none =>
      let (heap, r) := w.heap.newObject cls
      let w := { w with heap := heap }
      match cls.parent? with
      | none => m.initialise w r cls args 0 site
      | some parent =>
          let taken := min parent.constructorArity args.length
          ((m.push (.adopt r cls args taken site)).push
            (.construct parent (args.take taken) site)).next w

/-! ## Expressions -/

/-- The label of a task that calls a value. -/
def taskLabel (h : Heap) : Value → String
  | .procedure p => p.name
  | .method _ p => p.name
  | .classDef c => c.name
  | .extension e => e.name
  | other => h.text other

/-- Evaluates the next item of an expression, or ends it. -/
def evalItem (s : Setting) (w : World) (m : Machine) (items : List Item) (stack : List Operand)
    (site : Location) : Reply :=
  match items with
  | [] =>
      match Item.result w.heap stack with
      | .ok v => m.yield w v
      | .error f => m.fail w (f.locate site)
  | item :: rest =>
      match item.effect s w.heap m.scopes.current stack with
      | .next stack => (m.push (.eval rest stack site)).next w
      | .call callee args stack =>
          ((m.push (.eval rest stack site)).push (.call callee args (some site))).next w
      | .schedule callee args stack =>
          match w.schedule (taskLabel w.heap callee) (.ofCall m.scopes.current callee args) with
          | .ok (w, t) => (m.push (.eval rest (.value (.task t) :: stack) site)).next w
          | .error f => m.fail w (f.locate site)
      | .await t below =>
          let task := w.task t
          if task.waited then m.fail w ((task.doubleWait t).locate site)
          else if !task.done then ⟨.blocked, w, m.push (.eval items stack site)⟩
          else match w.claim t with
            | .ok (w, .ok v) => (m.push (.eval rest (.value v :: below) site)).next w
            | .ok (w, .error f) => m.fail w (f.locate site)
            | .error f => m.fail w (f.locate site)
      | .fail f => m.fail w (f.locate site)
      | .crash message => ⟨.crash message, w, m⟩

/-! ## Frames -/

/-- A frame receives the value of what was above it. The frame has been taken off already. -/
def receive (s : Setting) (w : World) (m : Machine) (v : Value) : Frame → Reply
  | .act action site => m.act s w site v action
  | .branch site body rest otherwise =>
      match condition w.heap site v with
      | .ok true => m.block w "if" [] body
      | .ok false => m.choose w otherwise rest
      | .error f => m.fail w f
  | .lower var site upper body =>
      match bound w.heap site v with
      | .ok lo => m.evaluate w (.upper var lo upper.location body) upper
      | .error f => m.fail w f
  | .upper var next site body =>
      match bound w.heap site v with
      | .ok hi => (m.push (.count var (some next) hi body)).next w
      | .error f => m.fail w f
  | .test test body =>
      match condition w.heap test.location v with
      | .ok true => (m.push (.again test body)).turn w "while" [] body
      | .ok false => m.next w
      | .error f => m.fail w f
  | .eval items stack site => (m.push (.eval items (.value v :: stack) site)).next w
  | .supply c rest => m.supply s w { c with args := c.args ++ [v] } rest
  | .adopt object cls args taken site =>
      let w := match v with
        | .object parent => { w with heap := w.heap.adopt object parent }
        | _ => w
      m.initialise w object cls args taken site
  | .finish object => m.yield w (.object object)
  | f => (m.push f).next w

/-- A frame goes on by itself. The frame has been taken off already. A frame that waits for a value
is never asked to; it would take the empty value. -/
def resumeFrame (s : Setting) (w : World) (m : Machine) (f : Frame) : Reply :=
  match f with
  | .body rest own true => ⟨.pause, w, m.push (.body rest own false)⟩
  | .body [] _ false =>
      let (w, m) := m.giveBack w f
      m.next w
  | .body (stmt :: rest) own false => (m.push (.body rest own true)).begin w stmt
  | .count var (some i) last body =>
      if last < i then m.next w
      else (m.push (.count var (successor? i) last body)).turn w "repeat"
        (match var with
          | some name => [(name, .int i)]
          | none => []) body
  | .count _ none _ _ => m.next w
  | .again test body => m.evaluate w (.test test body) test
  | .guard _ => m.next w
  | .enter lock body =>
      if w.heap.isHeld lock then ⟨.blocked, w, m.push f⟩
      else (m.push (.hold lock)).block { w with heap := w.heap.hold lock } "exclusive" [] body
  | .hold _ =>
      let (w, m) := m.giveBack w f
      m.next w
  | .eval items stack site => m.evalItem s w items stack site
  | .call callee args site => m.call s w callee args site
  | .running _ =>
      let (w, m) := m.giveBack w f
      m.yield w .empty
  | .construct cls args site => m.construct w cls args site
  | _ => m.receive s w .empty f

/-- A failure reaches handlers: the first that deals with it runs in a scope that binds the
error. -/
def handle (s : Setting) (w : World) (m : Machine) (f : Failure) (handlers : List Handler) :
    Reply :=
  match handlers.find? fun h => w.heap.catches h.className f with
  | none => m.fail w f
  | some handler =>
      let (heap, v) := w.heap.exception s.registry f
      m.block { w with heap := heap } "handler"
        (match handler.binding with
          | some name => [(name, v)]
          | none => []) handler.body

def outsideLoop (keyword : String) : Failure :=
  .malformed ("'" ++ keyword ++ "' outside of a loop")

/-- A frame is left early. The frame has been taken off already. -/
def unwind (s : Setting) (w : World) (m : Machine) (e : Exit) (f : Frame) : Reply :=
  match f.call?, e with
  | some _, .breakOut => (m.push f).fail w (outsideLoop "break")
  | some _, .continueOn => (m.push f).fail w (outsideLoop "continue")
  | some _, .returnWith v =>
      let (w, m) := m.giveBack w f
      m.yield w v
  | some c, .failWith failure =>
      let (w, m) := m.giveBack w f
      m.fail w (failure.leaving ⟨c.procedure.name, c.site⟩)
  | none, e =>
      match f, e with
      | .guard handlers, .failWith failure => m.handle s w failure handlers
      | _, .breakOut =>
          if f.isLoop then m.next w
          else
            let (w, m) := m.giveBack w f
            m.leave w e
      | _, .continueOn =>
          if f.isLoop then (m.push f).next w
          else
            let (w, m) := m.giveBack w f
            m.leave w e
      | _, _ =>
          let (w, m) := m.giveBack w f
          m.leave w e

/-- One step of a machine. -/
def step (s : Setting) (w : World) (m : Machine) : Reply :=
  match m.frames with
  | [] => ⟨.done, w, m⟩
  | f :: frames =>
      match m.signal with
      | .run => { m with frames := frames }.resumeFrame s w f
      | .value v => { m with frames := frames, signal := .run }.receive s w v f
      | .leave e => { m with frames := frames, signal := .run }.unwind s w e f

end Machine

end Statute
