import Statute.Machine.Run

/-!
# Structured meaning of statements

What statements do, told by recursion on the statements alone. There are no frames here: a body
stops at the first statement that does not simply end, a loop absorbs what leaves its turns,
handlers see the failures of the body they belong to, and every block has a fresh scope inside the
scopes around it. Only the value of an expression is what a machine makes of it.

The recursion is bounded by fuel, because loops need not end; without enough of it there is no
result. `Eventually` says what the result is once there is enough.
-/

namespace Statute

/-- The world that a computation has left and what it came to, if it had enough fuel. -/
abbrev Run (α : Type) := Option (World × Except Failure α)

/-- From some fuel on, a computation comes to the given result. -/
def Eventually {α : Type} (x : Nat → Option α) (a : α) : Prop :=
  ∃ n, ∀ fuel, n ≤ fuel → x fuel = some a

namespace Structured

/-- The value of an expression in a chain of scopes. -/
def evaluate (s : Setting) (fuel : Nat) (env : Env) (w : World) (e : Expression) : Run Value :=
  match e.compile with
  | .error f => some (w, .error f)
  | .ok c =>
      match (Machine.ofCode env c).run s fuel w with
      | ⟨.finished, w, m⟩ => some (w, m.outcome)
      | _ => none

def withValue (k : World → Value → Run Flow) : World × Except Failure Value → Run Flow
  | (w, .ok v) => k w v
  | (w, .error f) => some (w, .error f)

/-- Goes on with a part of a computation that may have failed. -/
def withPart {α : Type} (w : World) (x : Except Failure α) (k : α → Run Flow) : Run Flow :=
  match x with
  | .error f => some (w, .error f)
  | .ok a => k a

/-- Goes on in a fresh scope inside the given ones. -/
def inChild (w : World) (env : Env) (name : String) (vars : List (String × Value))
    (k : Env → World → Run Flow) : Run Flow :=
  let (heap, r) := w.heap.newScope name
  k (r :: env) { w with heap := heap.defineAll r vars }

/-- Goes on after a computation that simply ended; any other end stays as it is. -/
def andThen (k : World → Run Flow) : World × Except Failure Flow → Run Flow
  | (w, .ok .stop) => k w
  | r => some r

/-- Goes on after a computation that failed; any other end stays as it is. -/
def orElse (k : World → Failure → Run Flow) : World × Except Failure Flow → Run Flow
  | (w, .error f) => k w f
  | r => some r

/-- Sets a lock free, however the computation that held it ended. -/
def releasing (lock : LockRef) : World × Except Failure Flow → Run Flow
  | (w, o) => some ({ w with heap := w.heap.release lock }, o)

/-- What a loop makes of the end of a turn: it goes on, or it ends. -/
def absorb (again : World → Run Flow) : World × Except Failure Flow → Run Flow
  | (w, .ok .stop) => again w
  | (w, .ok .continueOn) => again w
  | (w, .ok .breakOut) => some (w, .ok .stop)
  | (w, .ok (.returnWith v)) => some (w, .ok (.returnWith v))
  | (w, .error f) => some (w, .error f)

/-- Does with a value what a statement asks for. -/
def perform (s : Setting) (env : Env) (w : World) (site : Location) (v : Value) :
    Action → World × Except Failure Flow
  | .declare name =>
      let r := env.headD 0
      if (w.heap.local? r name).isSome then (w, .error ((Heap.alreadyDefined name).locate site))
      else ({ w with heap := w.heap.define r name v }, .ok .stop)
  | .assign target =>
      match s.place w.heap env target with
      | .ok place => ({ w with heap := w.heap.store v place }, .ok .stop)
      | .error f => (w, .error (f.locate site))
  | .print => (w.print (w.heap.text v), .ok .stop)
  | .raise =>
      match w.heap.thrown v with
      | .ok f => (w, .error (f.locate site))
      | .error f => (w, .error (f.locate site))
  | .returnWith => (w, .ok (.returnWith v))
  | .discard => (w, .ok .stop)

/-- Evaluates an expression and does with its value what a statement asks for. -/
def act (s : Setting) (fuel : Nat) (env : Env) (w : World) (action : Action) (e : Expression) :
    Run Flow :=
  (evaluate s fuel env w e).bind (withValue fun w v =>
    some (perform s env w e.location v action))

mutual

/-- A body stops at the first statement that does not simply end. -/
def runBody (s : Setting) : Nat → Env → World → Body → Run Flow
  | 0, _, _, _ => none
  | _ + 1, _, w, [] => some (w, .ok .stop)
  | fuel + 1, env, w, stmt :: rest =>
      (runStatement s fuel env w stmt).bind (andThen fun w => runBody s fuel env w rest)

/-- A statement. An exclusive block whose lock is held waits for ever. -/
def runStatement (s : Setting) : Nat → Env → World → Statement → Run Flow
  | 0, _, _, _ => none
  | fuel + 1, env, w, .declare name e => act s fuel env w (.declare name) e
  | fuel + 1, env, w, .assign target e => act s fuel env w (.assign target) e
  | fuel + 1, env, w, .choose branches otherwise => runBranches s fuel env w otherwise branches
  | fuel + 1, env, w, .repeatFor var lower upper body =>
      (evaluate s fuel env w lower).bind (withValue fun w lo =>
        withPart w (Machine.bound w.heap lower.location lo) fun first =>
          (evaluate s fuel env w upper).bind (withValue fun w hi =>
            withPart w (Machine.bound w.heap upper.location hi) fun last =>
              runCount s fuel env w var (some first) last body))
  | fuel + 1, env, w, .repeatWhile test body => runWhile s fuel env w test body
  | fuel + 1, env, w, .attempt body handlers =>
      (inChild w env "try" [] fun inner w => runBody s fuel inner w body).bind
        (orElse fun w f =>
          match handlers.find? fun h => w.heap.catches h.className f with
          | none => some (w, .error f)
          | some handler =>
              let (heap, v) := w.heap.exception s.registry f
              inChild { w with heap := heap } env "handler"
                (match handler.binding with
                  | some name => [(name, v)]
                  | none => [])
                fun inner w => runBody s fuel inner w handler.body)
  | fuel + 1, env, w, .raise e => act s fuel env w .raise e
  | fuel + 1, env, w, .exclusive lock body =>
      if w.heap.isHeld lock then none
      else
        (inChild { w with heap := w.heap.hold lock } env "exclusive" [] fun inner w =>
          runBody s fuel inner w body).bind (releasing lock)
  | fuel + 1, env, w, .print e => act s fuel env w .print e
  | fuel + 1, env, w, .returnWith (some e) => act s fuel env w .returnWith e
  | _ + 1, _, w, .returnWith none => some (w, .ok (.returnWith .empty))
  | _ + 1, _, w, .breakOut => some (w, .ok .breakOut)
  | _ + 1, _, w, .continueOn => some (w, .ok .continueOn)
  | fuel + 1, env, w, .perform e => act s fuel env w .discard e

/-- Only the first branch whose test is true runs, and otherwise the body after all branches. -/
def runBranches (s : Setting) : Nat → Env → World → Option Body → List Branch → Run Flow
  | 0, _, _, _, _ => none
  | fuel + 1, env, w, otherwise, [] =>
      match otherwise with
      | some body => inChild w env "else" [] fun inner w => runBody s fuel inner w body
      | none => some (w, .ok .stop)
  | fuel + 1, env, w, otherwise, .mk test body :: rest =>
      (evaluate s fuel env w test).bind (withValue fun w v =>
        withPart w (Machine.condition w.heap test.location v) fun holds =>
          if holds then inChild w env "if" [] fun inner w => runBody s fuel inner w body
          else runBranches s fuel env w otherwise rest)

/-- A conditional loop. -/
def runWhile (s : Setting) : Nat → Env → World → Expression → Body → Run Flow
  | 0, _, _, _, _ => none
  | fuel + 1, env, w, test, body =>
      (evaluate s fuel env w test).bind (withValue fun w v =>
        withPart w (Machine.condition w.heap test.location v) fun holds =>
          if holds then
            (inChild w env "while" [] fun inner w => runBody s fuel inner w body).bind
              (absorb fun w => runWhile s fuel env w test body)
          else some (w, .ok .stop))

/-- A counted loop from its next turn on. -/
def runCount (s : Setting) :
    Nat → Env → World → Option String → Option Int64 → Int64 → Body → Run Flow
  | 0, _, _, _, _, _, _ => none
  | _ + 1, _, w, _, none, _, _ => some (w, .ok .stop)
  | fuel + 1, env, w, var, some i, last, body =>
      if last < i then some (w, .ok .stop)
      else
        (inChild w env "repeat"
          (match var with
            | some name => [(name, .int i)]
            | none => [])
          fun inner w => runBody s fuel inner w body).bind
            (absorb fun w => runCount s fuel env w var (Machine.successor? i) last body)

end

end Structured

/-! ## Enough fuel -/

namespace Eventually

variable {α β : Type} {x y : Nat → Option α} {a : α}

theorem of_forall (h : ∀ fuel, x fuel = some a) : Eventually x a :=
  ⟨0, fun fuel _ => h fuel⟩

/-- A computation that spends one unit of fuel first. -/
theorem of_succ (hy : Eventually y a) (h : ∀ fuel, x (fuel + 1) = y fuel) : Eventually x a := by
  obtain ⟨n, hn⟩ := hy
  refine ⟨n + 1, fun fuel hfuel => ?_⟩
  obtain ⟨k, rfl⟩ : ∃ k, fuel = k + 1 := ⟨fuel - 1, by omega⟩
  rw [h k]
  exact hn k (by omega)

/-- A computation in two parts. -/
theorem bind {z : Nat → α → Option β} {b : β} (hx : Eventually x a)
    (hz : Eventually (fun fuel => z fuel a) b) :
    Eventually (fun fuel => (x fuel).bind (z fuel)) b := by
  obtain ⟨n, hn⟩ := hx
  obtain ⟨k, hk⟩ := hz
  refine ⟨max n k, fun fuel hfuel => ?_⟩
  simp only [hn fuel (by omega)]
  exact hk fuel (by omega)

end Eventually

end Statute
