import Statute.Machine.Step
import Statute.Vm.Frame

/-!
# One step of the virtual machine

As long as nothing is left early, a step takes the kind out of the frame on top and lets the handler
of this kind go on. Otherwise it lets the frame on top deal with what is left early.

There are four places where the mode makes a difference: after a statement, at the beginning of a
turn of a loop, where a lock is held by somebody else, and where a task is waited for that is not
done. A cooperative machine yields there. A synchronous one goes on, and tries again if it has to.
-/

namespace Statute

inductive VmStep where
  | goOn
  /-- A checkpoint was reached. -/
  | yield
  /-- No frames are left. -/
  | done
  /-- The host broke down. -/
  | crash (message : Option String)
deriving DecidableEq, Repr, Inhabited

structure VmReply where
  step : VmStep
  world : World
  vm : Vm
deriving Inhabited

/-! ## Parts of statements -/

namespace Statement

/-- The expression of a statement that acts on the value of one. -/
def valueExpression? : Statement → Option Expression
  | .declare _ e => some e
  | .assign _ e => some e
  | .print e => some e
  | .raise e => some e
  | .perform e => some e
  | .returnWith e => e
  | _ => none

/-- A failure at the place of the expression of a statement. -/
def located (stmt : Statement) (f : Failure) : Failure :=
  match stmt.valueExpression? with
  | some e => f.locate e.location
  | none => f

end Statement

namespace Vm

/-! ## Frames -/

/-- Puts a kind back into the frame on top. -/
def restore (v : Vm) (kind : FrameKind) : Vm :=
  match v.frames with
  | [] => v
  | f :: fs => { v with frames := { f with kind := kind } :: fs }

def pushFrame (v : Vm) (f : VmFrame) : Vm :=
  { v with frames := f :: v.frames }

def push (v : Vm) (kind : FrameKind) : Vm :=
  v.pushFrame (.new kind)

/-- Pops the frame on top and undoes what it has acquired. -/
def popFrame (w : World) (v : Vm) : World × Vm :=
  match v.frames with
  | [] => (w, v)
  | f :: fs =>
      (match f.lock with
        | some l => { w with heap := w.heap.release l }
        | none => w,
        { v with
          frames := fs
          scopes := if f.pushedScope then v.scopes.pop else v.scopes
          depth := if f.boundary then v.depth - 1 else v.depth })

def goOn (w : World) (v : Vm) : VmReply :=
  ⟨.goOn, w, v⟩

def finish (w : World) (v : Vm) : VmReply :=
  let (w, v) := v.popFrame w
  v.goOn w

def finishWith (w : World) (v : Vm) (x : Value) : VmReply :=
  let (w, v) := v.popFrame w
  { v with slot := some x }.goOn w

/-- Pops the frame on top, and what is below it is left early. -/
def leave (w : World) (v : Vm) (e : Exit) : VmReply :=
  let (w, v) := v.popFrame w
  { v with control := some e }.goOn w

/-- Pops the frame on top, and what is below it fails. -/
def throw (w : World) (v : Vm) (f : Failure) : VmReply :=
  v.leave w (.failWith f)

def fault (w : World) (v : Vm) (message : String) : VmReply :=
  v.throw w (.new .internal message)

def takeSlot (v : Vm) : Value × Vm :=
  (v.slot.getD .empty, { v with slot := none })

/-- Pushes a body that runs in a fresh scope inside the current one. -/
def pushBlock (w : World) (v : Vm) (name : String) (body : Body) : World × Vm :=
  let (heap, r) := w.heap.newScope name
  ({ w with heap := heap },
    { v with scopes := v.scopes.push (r :: v.scopes.current) }.pushFrame
      { VmFrame.new (.body body 0 false) with pushedScope := true })

def define (w : World) (v : Vm) (name : String) (x : Value) : World :=
  { w with heap := w.heap.define (v.scopes.current.headD 0) name x }

def pushEval (v : Vm) (code : Code) : Vm :=
  v.push (.eval ⟨code, 0, [], false⟩)

def pushCall (v : Vm) (callee : Value) (args : List Value) (site : Option Location) : Vm :=
  v.push (.call ⟨callee, args, site, .bind⟩)

def outOfBounds (w : World) (v : Vm) (length index : Nat) : VmReply :=
  ⟨.crash (some ("index out of bounds: the len is " ++ toString length ++ " but the index is " ++
    toString index)), w, v⟩

/-- Goes on with the statement that is referred to. -/
def withStmt (w : World) (v : Vm) (ref : StmtRef) (f : Statement → VmReply) : VmReply :=
  match ref.stmt? with
  | some stmt => f stmt
  | none => v.outOfBounds w ref.body.length ref.index

/-- Compiles an expression, puts a kind back and pushes the expression above it. -/
def pushExpression (w : World) (v : Vm) (e : Expression) (kind : FrameKind) : VmReply :=
  match e.compile with
  | .ok code => ((v.restore kind).pushEval code).goOn w
  | .error f => v.throw w f

/-! ## Bodies -/

/-- Begins a statement. -/
def pushStmt (w : World) (v : Vm) (ref : StmtRef) : VmReply :=
  v.withStmt w ref fun stmt =>
    match stmt with
    | .declare _ _ => (v.push (.value .declare ref .eval)).goOn w
    | .assign _ _ => (v.push (.value .assign ref .eval)).goOn w
    | .print _ => (v.push (.value .print ref .eval)).goOn w
    | .raise _ => (v.push (.value .throw ref .eval)).goOn w
    | .returnWith _ => (v.push (.value .returnWith ref .eval)).goOn w
    | .perform _ => (v.push (.value .perform ref .eval)).goOn w
    | .choose _ _ => (v.push (.choose ref (.test 0))).goOn w
    | .repeatFor _ _ _ _ => (v.push (.repeatFor ref .start)).goOn w
    | .repeatWhile _ _ => (v.push (.repeatWhile ref .test)).goOn w
    | .attempt _ _ => (v.push (.attempt ref .start)).goOn w
    | .exclusive lock _ => (v.push (.exclusive ref lock .acquire)).goOn w
    | .breakOut => { v with control := some .breakOut }.goOn w
    | .continueOn => { v with control := some .continueOn }.goOn w

/-- The next statement of a body. In cooperative mode a checkpoint comes after each of them. -/
def executeBody (w : World) (v : Vm) (body : Body) (index : Nat) (checkpoint : Bool) : VmReply :=
  if checkpoint ∧ v.mode = .cooperative then ⟨.yield, w, v.restore (.body body index false)⟩
  else if body.length ≤ index then v.finish w
  else (v.restore (.body body (index + 1) true)).pushStmt w ⟨body, index⟩

/-! ## Statements of one expression -/

/-- Does with a value what a statement asks for. -/
def applyValue (s : Setting) (w : World) (v : Vm) (ref : StmtRef) (x : Value) : VmReply :=
  v.withStmt w ref fun stmt =>
    match stmt with
    | .declare name _ =>
        match w.heap.declare (v.scopes.current.headD 0) name x with
        | .ok heap => v.finish { w with heap := heap }
        | .error f => v.throw w (stmt.located f)
    | .assign target _ =>
        match s.place w.heap v.scopes.current target with
        | .ok place => v.finish { w with heap := w.heap.store x place }
        | .error f => v.throw w (stmt.located f)
    | .print _ => v.finish (w.print (w.heap.text x))
    | .raise _ =>
        match w.heap.thrown x with
        | .ok f => v.throw w (stmt.located f)
        | .error f => v.throw w (stmt.located f)
    | .returnWith _ => v.leave w (.returnWith x)
    | _ => v.finish w

def executeValue (s : Setting) (w : World) (v : Vm) (kind : FrameKind) : VmReply :=
  match kind with
  | .value k ref .eval =>
      v.withStmt w ref fun stmt =>
        match stmt.valueExpression? with
        | some e => v.pushExpression w e (.value k ref .apply)
        | none => { v.restore (.value k ref .apply) with slot := some .empty }.goOn w
  | .value _ ref .apply =>
      let (x, v) := v.takeSlot
      v.applyValue s w ref x
  | _ => v.fault w "not a single-expression statement"

/-! ## Choices and loops -/

def executeIf (w : World) (v : Vm) (ref : StmtRef) (phase : IfPhase) : VmReply :=
  v.withStmt w ref fun stmt =>
    match stmt with
    | .choose branches otherwise =>
        match phase with
        | .test n =>
            match branches[n]? with
            | some (.mk test _) => v.pushExpression w test (.choose ref (.check n))
            | none =>
                match otherwise with
                | some body =>
                    let (w, v) := (v.restore (.choose ref .done)).pushBlock w "else" body
                    v.goOn w
                | none => v.finish w
        | .check n =>
            match branches[n]? with
            | some (.mk test body) =>
                let (x, v) := v.takeSlot
                match Machine.condition w.heap test.location x with
                | .ok true =>
                    let (w, v) := (v.restore (.choose ref .done)).pushBlock w "if" body
                    v.goOn w
                | .ok false => (v.restore (.choose ref (.test (n + 1)))).goOn w
                | .error f => v.throw w f
            | none => v.outOfBounds w branches.length n
        | .done => v.finish w
    | _ => v.fault w "if frame without an if statement"

/-- How a machine goes on at the beginning of a turn of a loop, and where it has to try again. -/
def checkpoint (v : Vm) : VmStep :=
  match v.mode with
  | .cooperative => .yield
  | .sync => .goOn

/-- The phase of a counted loop after the turn of a number. -/
def following (next upper : Int64) : RepeatPhase :=
  match Machine.successor? next with
  | some i => .iterate i upper
  | none => .finished

def executeRepeat (w : World) (v : Vm) (ref : StmtRef) (phase : RepeatPhase) : VmReply :=
  v.withStmt w ref fun stmt =>
    match stmt with
    | .repeatFor var lower upper body =>
        match phase with
        | .start => v.pushExpression w lower (.repeatFor ref .lower)
        | .lower =>
            let (x, v) := v.takeSlot
            match Machine.bound w.heap lower.location x with
            | .ok lo => v.pushExpression w upper (.repeatFor ref (.upper lo))
            | .error f => v.throw w f
        | .upper lo =>
            let (x, v) := v.takeSlot
            match Machine.bound w.heap upper.location x with
            | .ok hi => (v.restore (.repeatFor ref (.iterate lo hi))).goOn w
            | .error f => v.throw w f
        | .iterate next hi =>
            if hi < next then v.finish w
            else
              let (w, v) :=
                (v.restore (.repeatFor ref (following next hi))).pushBlock w "repeat" body
              let w := match var with
                | some name => v.define w name (.int next)
                | none => w
              ⟨v.checkpoint, w, v⟩
        | .finished => v.finish w
    | _ => v.fault w "repeat frame without a repeat statement"

def executeWhile (w : World) (v : Vm) (ref : StmtRef) (phase : WhilePhase) : VmReply :=
  v.withStmt w ref fun stmt =>
    match stmt with
    | .repeatWhile test body =>
        match phase with
        | .test => v.pushExpression w test (.repeatWhile ref .check)
        | .check =>
            let (x, v) := v.takeSlot
            match Machine.condition w.heap test.location x with
            | .ok true =>
                let (w, v) := (v.restore (.repeatWhile ref .test)).pushBlock w "while" body
                ⟨v.checkpoint, w, v⟩
            | .ok false => v.finish w
            | .error f => v.throw w f
    | _ => v.fault w "while frame without a while statement"

/-! ## Handlers and exclusive blocks -/

/-- The handlers themselves are entered when a failure comes. -/
def executeTry (w : World) (v : Vm) (ref : StmtRef) (phase : TryPhase) : VmReply :=
  match phase with
  | .start =>
      v.withStmt w ref fun stmt =>
        match stmt with
        | .attempt body _ =>
            let (w, v) := (v.restore (.attempt ref .body)).pushBlock w "try" body
            v.goOn w
        | _ => v.fault w "try frame without a try statement"
  | .body => v.finish w
  | .handler => v.finish w

/-- Notes down the lock that goes with the frame on top. -/
def holding (v : Vm) (lock : LockRef) : Vm :=
  match v.frames with
  | [] => v
  | f :: fs => { v with frames := { f with lock := some lock } :: fs }

def executeExclusive (w : World) (v : Vm) (ref : StmtRef) (lock : LockRef)
    (phase : ExclusivePhase) : VmReply :=
  match phase with
  | .acquire =>
      if w.heap.isHeld lock then ⟨v.checkpoint, w, v.restore (.exclusive ref lock .acquire)⟩
      else
        v.withStmt w ref fun stmt =>
          match stmt with
          | .exclusive _ body =>
              let (w, v) := ((v.restore (.exclusive ref lock .body)).holding lock).pushBlock
                { w with heap := w.heap.hold lock } "exclusive" body
              v.goOn w
          | _ => v.fault w "exclusive frame without an exclusive statement"
  | .body => v.finish w

/-! ## Expressions -/

/-- Evaluates the items of an expression from the one at `pc` on, until it is done, or a call comes
first, or a task that is not done. -/
def evalItems (s : Setting) (w : World) (v : Vm) (code : Code) (pc : Nat)
    (stack : List Operand) : List Item → VmReply
  | [] =>
      match Item.result w.heap stack with
      | .ok x => v.finishWith w x
      | .error f => v.throw w (f.locate code.location)
  | item :: rest =>
      match item.effect s w.heap v.scopes.current stack with
      | .next stack => v.evalItems s w code (pc + 1) stack rest
      | .call callee args stack =>
          ((v.restore (.eval ⟨code, pc + 1, stack, true⟩)).pushCall callee args
            (some code.location)).goOn w
      | .schedule callee args stack =>
          match w.schedule (Machine.taskLabel w.heap callee)
            (.ofCall v.scopes.current callee args) with
          | .ok (w, t) => v.evalItems s w code (pc + 1) (.value (.task t) :: stack) rest
          | .error f => v.throw w (f.locate code.location)
      | .await t below =>
          let task := w.task t
          if task.waited then v.throw w ((task.doubleWait t).locate code.location)
          else if !task.done then ⟨v.checkpoint, w, v.restore (.eval ⟨code, pc, stack, false⟩)⟩
          else match w.claim t with
            | .ok (w, .ok x) => v.evalItems s w code (pc + 1) (.value x :: below) rest
            | .ok (w, .error f) => v.throw w (f.locate code.location)
            | .error f => v.throw w (f.locate code.location)
      | .fail f => v.throw w (f.locate code.location)
      | .crash message => ⟨.crash message, w, v⟩

def evalStep (s : Setting) (w : World) (v : Vm) (frame : EvalFrame) : VmReply :=
  let (stack, v) :=
    if frame.awaiting then
      let (x, v) := v.takeSlot
      (.value x :: frame.stack, v)
    else (frame.stack, v)
  v.evalItems s w frame.code frame.pc stack (frame.code.items.drop frame.pc)

/-! ## Calls -/

/-- The default of a parameter, compiled. -/
def defaultCode (p : Procedure) (param : Param) : Except Failure Code :=
  match param.default with
  | some e => e.compile
  | none =>
      .error (.new .internal ("parameter '" ++ param.name ++ "' of '" ++ p.name ++
        "' has no default"))

/-- Goes on with the default of the parameter of a number, or enters the body. -/
def supplyNext (w : World) (v : Vm) (p : Procedure) (frame : CallFrame) (next : Nat) : VmReply :=
  match p.params[next]? with
  | none => (v.restore (.call { frame with phase := .enter })).goOn w
  | some param =>
      match defaultCode p param with
      | .ok code =>
          ((v.restore (.call { frame with phase := .default next true })).pushEval code).goOn w
      | .error f => v.throw w (f.atCall frame.site)

/-- Enters the body of a procedure. Nothing looks at the arguments from then on. -/
def enterCall (s : Setting) (w : World) (v : Vm) (p : Procedure) (receiver : Option ObjectRef)
    (frame : CallFrame) : VmReply :=
  let limit := s.config.recursionLimit
  if limit ≤ v.depth then
    v.throw w ((Failure.new .recursionLimit
      ("maximum recursion depth of " ++ toString limit ++ " exceeded calling '" ++ p.name ++
        "'")).atCall frame.site)
  else
    let (heap, r) := w.heap.newScope p.name
    let w := { w with
      heap := heap.defineAll r (Machine.callVars ⟨p, receiver, frame.args, frame.site⟩) }
    match v.frames with
    | [] => v.goOn w
    | f :: fs =>
        ({ v with
          frames := { f with
            kind := .call { frame with phase := .running }
            pushedScope := true
            boundary := true } :: fs
          scopes := v.scopes.push (r :: World.globals)
          depth := v.depth + 1 }.push (.body p.body 0 false)).goOn w

/-- A call of a procedure, as a function or as a method of an object. -/
def callProcedure (s : Setting) (w : World) (v : Vm) (p : Procedure) (receiver : Option ObjectRef)
    (frame : CallFrame) : VmReply :=
  match frame.phase with
  | .bind =>
      let supplied := frame.args.length
      if supplied < p.required ∨ p.params.length < supplied then
        v.throw w ((Failure.argumentCount p.name p.arityText supplied).atCall frame.site)
      else if supplied < p.params.length then
        (v.restore (.call { frame with phase := .default supplied false })).goOn w
      else (v.restore (.call { frame with phase := .enter })).goOn w
  | .default next true =>
      let (x, v) := v.takeSlot
      v.supplyNext w p { frame with args := frame.args ++ [x] } (next + 1)
  | .default next false => v.supplyNext w p frame next
  | .enter => v.enterCall s w p receiver frame
  | .running => v.finishWith w .empty

def callStep (s : Setting) (w : World) (v : Vm) (frame : CallFrame) : VmReply :=
  match frame.callee with
  | .procedure p => v.callProcedure s w p none frame
  | .method r p => v.callProcedure s w p (some r) frame
  | .extension e =>
      match e.checkedCall s.host w.heap frame.args with
      | .value x => v.finishWith w x
      | .failure f => v.throw w (f.atCall frame.site)
      | .crash message => ⟨.crash message, w, v⟩
  | .classDef cls =>
      (v.restore (.construct ⟨cls, frame.args, none, 0, frame.site, .start⟩)).goOn w
  | other =>
      v.throw w ((Failure.invalidType (other.typeName ++ " is not callable")).atCall frame.site)

/-! ## Construction -/

/-- Makes the object of a class. A built-in class takes a message; any other class first lets its
parent take as many leading arguments as it can. -/
def constructStart (w : World) (v : Vm) (frame : ConstructFrame) : VmReply :=
  let cls := frame.cls
  match cls.own.builtin with
  | some k =>
      if 1 < frame.args.length then
        v.throw w ((Failure.argumentCount cls.name "0 to 1" frame.args.length).atCall frame.site)
      else
        let message := match frame.args.head? with
          | some x => w.heap.text x
          | none => k.defaultMessage
        let (heap, r) := w.heap.newError cls message
        v.finishWith { w with heap := heap } (.object r)
  | none =>
      let (heap, r) := w.heap.newObject cls
      let w := { w with heap := heap }
      match cls.parent? with
      | some parent =>
          let consumed := min parent.constructorArity frame.args.length
          ((v.restore (.construct
            { frame with object := some r, consumed := consumed, phase := .parent })).push
              (.construct ⟨parent, frame.args.take consumed, none, 0, frame.site, .start⟩)).goOn w
      | none => (v.restore (.construct { frame with object := some r, phase := .own })).goOn w

def constructStep (w : World) (v : Vm) (frame : ConstructFrame) : VmReply :=
  match frame.phase with
  | .start => v.constructStart w frame
  | .parent =>
      let (x, v) := v.takeSlot
      let w := match x, frame.object with
        | .object parent, some r => { w with heap := w.heap.adopt r parent }
        | _, _ => w
      (v.restore (.construct { frame with phase := .own })).goOn w
  | .own =>
      match frame.object with
      | none => v.fault w "constructor ran without an instance"
      | some r =>
          match frame.cls.own.ctor with
          | some p =>
              ((v.restore (.construct { frame with phase := .finish })).pushCall (.method r p)
                frame.args frame.site).goOn w
          | none =>
              if frame.consumed < frame.args.length then
                v.throw w ((Failure.argumentCount frame.cls.name (toString frame.consumed)
                  frame.args.length).atCall frame.site)
              else v.finishWith w (.object r)
  | .finish =>
      let (_, v) := v.takeSlot
      match frame.object with
      | some r => v.finishWith w (.object r)
      | none => v.fault w "constructor ran without an instance"

/-! ## Leaving early -/

/-- What the frame on top can do about something that is left early. -/
inductive Landing where
  | loop
  | call (entry : TraceEntry)
  | attempt (ref : StmtRef)
  | other

def landing (h : Heap) : FrameKind → Landing
  | .repeatFor _ _ => .loop
  | .repeatWhile _ _ => .loop
  | .call frame =>
      .call ⟨match frame.callee with
        | .procedure p => p.name
        | .method _ p => p.name
        | other => h.text other, frame.site⟩
  | .attempt ref .body => .attempt ref
  | _ => .other

/-- The first handler that deals with the failure runs, or the failure goes on. -/
def catching (s : Setting) (w : World) (v : Vm) (ref : StmtRef) (f : Failure) : VmReply :=
  v.withStmt w ref fun stmt =>
    let handlers := match stmt with
      | .attempt _ handlers => handlers
      | _ => []
    match handlers.find? fun handler => w.heap.catches handler.className f with
    | none => v.throw w f
    | some handler =>
        let (heap, x) := w.heap.exception s.registry f
        let (w, v) := (v.restore (.attempt ref .handler)).pushBlock { w with heap := heap }
          "handler" handler.body
        match handler.binding with
        | some name => v.goOn (v.define w name x)
        | none => v.goOn w

/-- Lets the frame on top deal with something that is left early. -/
def unwind (s : Setting) (w : World) (v : Vm) (e : Exit) : VmReply :=
  match v.frames with
  | [] => ⟨.done, w, { v with control := some e }⟩
  | f :: _ =>
      match e, landing w.heap f.kind with
      | .breakOut, .loop => v.finish w
      | .continueOn, .loop => v.goOn w
      | .breakOut, .call _ =>
          { v with control := some (.failWith (Machine.outsideLoop "break")) }.goOn w
      | .continueOn, .call _ =>
          { v with control := some (.failWith (Machine.outsideLoop "continue")) }.goOn w
      | .returnWith x, .call _ => v.finishWith w x
      | .failWith g, .call entry => v.throw w (g.leaving entry)
      | .failWith g, .attempt ref => v.catching s w ref g
      | e, _ => v.leave w e

/-! ## Steps -/

/-- Lets the handler of a kind go on, which has been taken out of the frame on top. -/
def execute (s : Setting) (w : World) (v : Vm) (kind : FrameKind) : VmReply :=
  match kind with
  | .body body index checkpoint => v.executeBody w body index checkpoint
  | .value _ _ _ => v.executeValue s w kind
  | .choose ref phase => v.executeIf w ref phase
  | .repeatFor ref phase => v.executeRepeat w ref phase
  | .repeatWhile ref phase => v.executeWhile w ref phase
  | .attempt ref phase => v.executeTry w ref phase
  | .exclusive ref lock phase => v.executeExclusive w ref lock phase
  | .eval frame => v.evalStep s w frame
  | .call frame => v.callStep s w frame
  | .construct frame => v.constructStep w frame
  | .vacant => v.fault w "stepped into a vacant frame"

def step (s : Setting) (w : World) (v : Vm) : VmReply :=
  match v.control with
  | some e => { v with control := none }.unwind s w e
  | none =>
      match v.frames with
      | [] => ⟨.done, w, v⟩
      | f :: _ => (v.restore .vacant).execute s w f.kind

/-! ## Running -/

/-- Takes steps as long as they go on, at most so many. This is how a machine is run, and how it is
resumed. -/
def run (s : Setting) : Nat → World → Vm → VmReply
  | 0, w, v => v.goOn w
  | fuel + 1, w, v =>
      match v.step s w with
      | ⟨.goOn, w, v⟩ => run s fuel w v
      | r => r

/-- A machine is resumed until it is done, after it has yielded so many times. -/
inductive Resumes (s : Setting) : World → Vm → Nat → World → Vm → Prop
  | done {w w' : World} {v v' : Vm} {fuel : Nat} (h : v.run s fuel w = ⟨.done, w', v'⟩) :
      Resumes s w v 0 w' v'
  | again {w w₁ w' : World} {v v₁ v' : Vm} {fuel n : Nat} (h : v.run s fuel w = ⟨.yield, w₁, v₁⟩)
      (hrest : Resumes s w₁ v₁ n w' v') : Resumes s w v (n + 1) w' v'

end Vm

end Statute
