import Statute.Machine.Step
import Mathlib.Order.Lattice
import Mathlib.Tactic.Set

/-!
# Counting in an exclusive block

A tally is a procedure that adds one to the global `counter` a given number of times. Each time it
enters an exclusive block, remembers what it has seen, and stores one more than that.

Between any two steps another machine can be at work, so all places that a machine can have got to
in a tally are listed, as `Point`. A point says what the frames of the machine are, how much the
machine has still to add, and whether it is inside the block. One step leads to another point, by
`Point.goes`, and what was added to the counter is no longer to be added.
-/

namespace Statute

/-- How a tally is written, apart from its statements: its name, the lock of its block and the
places of its expressions. -/
structure Tally where
  name : String
  lock : LockRef
  place : String → Location

namespace Tally

def after (v : Int64) : Int64 :=
  Int64.ofInt (v.toInt + 1)

theorem toInt_after {v : Int64} (h : v.toInt < maxInt) : (after v).toInt = v.toInt + 1 := by
  have hle := Int64.le_toInt v
  refine Int64.toInt_ofInt_of_le ?_ ?_
  · omega
  · unfold maxInt at h
    omega

def written (c : Tally) (text : String) : Expression :=
  ⟨Lexeme.split text, c.place text⟩

def increment (c : Tally) : Body :=
  [.declare "seen" (c.written "counter"), .assign ⟨"counter", none⟩ (c.written "seen + 1")]

def turn (c : Tally) : Body :=
  [.exclusive c.lock c.increment]

/-- The procedure, which is told how many times to add one. -/
def procedure (c : Tally) : Procedure :=
  ⟨c.name, [⟨"times", none⟩], [.repeatFor none (c.written "1") (c.written "times") c.turn]⟩

-- What a program declares as `bump` becomes such a procedure, with the next lock that is free.
example (d : Registry.Draft) (file : String) :
    (d.procedure file "bump" ⟨"bump", [⟨"times", none⟩],
      [.repeatFor none (.ofText "1") (.ofText "times")
        [.exclusive 0 [.declare "seen" (.ofText "counter"),
          .assign ⟨"counter", none⟩ (.ofText "seen + 1")]]]⟩).2 =
      procedure ⟨"bump", d.locks, fun text => ⟨file, 0, Text.trim text⟩⟩ :=
  rfl

/-! ## Questions -/

/-- The expressions of a tally, with the values that they have: the bounds of the loop, the counter,
and one more than what was seen. -/
inductive Question where
  | lower
  | upper (k : Int64)
  | read (v : Int64)
  | sum (v : Int64)

namespace Question

def text : Question → String
  | lower => "1"
  | upper _ => "times"
  | read _ => "counter"
  | sum _ => "seen + 1"

def items : Question → List Item
  | lower => [.push (.int 1)]
  | upper _ => [.load "times"]
  | read _ => [.load "counter"]
  | sum _ => [.load "seen", .push (.int 1), .op .add]

/-- The operands when so many items have been evaluated. -/
def stack : Question → Nat → List Operand
  | _, 0 => []
  | lower, _ => [.value (.int 1)]
  | upper k, _ => [.value (.int k)]
  | read v, _ => [.value (.int v)]
  | sum v, 1 => [.value (.int v)]
  | sum v, 2 => [.value (.int 1), .value (.int v)]
  | sum v, _ => [.value (.int (after v))]

def answer : Question → Int64
  | lower => 1
  | upper k => k
  | read v => v
  | sum v => after v

/-- The frame that evaluates the question, when so many items have been evaluated. -/
def asks (c : Tally) (q : Question) (n : Nat) : Frame :=
  .eval (q.items.drop n) (q.stack n) (c.place q.text)

/-- The frame that waits for the answer. -/
def asker (c : Tally) : Question → Frame
  | lower => .lower none (c.place "1") (c.written "times") c.turn
  | upper _ => .upper none 1 (c.place "times") c.turn
  | read _ => .act (.declare "seen") (c.place "counter")
  | sum _ => .act (.assign ⟨"counter", none⟩) (c.place "seen + 1")

/-- The names in the question have the values that lead to the answer. -/
def Known (h : Heap) (env : Env) : Question → Prop
  | lower => True
  | upper k => h.lookup? env "times" = some (.int k)
  | read v => h.lookup? env "counter" = some (.int v)
  | sum v => h.lookup? env "seen" = some (.int v) ∧ v.toInt < maxInt

theorem itemsOf_text (q : Question) : Code.itemsOf (Lexeme.split q.text) = .ok q.items := by
  cases q with
  | lower =>
      have hsplit : Lexeme.split "1" = ["1"] := by decide +kernel
      rw [text, hsplit, Code.itemsOf, Token.classify,
        Token.classifyAfter_cons (.literal (.int 1)) rfl, Token.classifyAfter]
      rfl
  | upper k =>
      have hsplit : Lexeme.split "times" = ["times"] := by decide +kernel
      rw [text, hsplit, Code.itemsOf, Token.classify, Token.classifyAfter_cons (.word "times") rfl,
        Token.classifyAfter]
      rfl
  | read v =>
      have hsplit : Lexeme.split "counter" = ["counter"] := by decide +kernel
      rw [text, hsplit, Code.itemsOf, Token.classify,
        Token.classifyAfter_cons (.word "counter") rfl, Token.classifyAfter]
      rfl
  | sum v =>
      have hsplit : Lexeme.split "seen + 1" = ["seen", "+", "1"] := by decide +kernel
      rw [text, hsplit, Code.itemsOf, Token.classify, Token.classifyAfter_cons (.word "seen") rfl,
        Token.classifyAfter_cons (.binary .add) rfl,
        Token.classifyAfter_cons (.literal (.int 1)) rfl, Token.classifyAfter]
      rfl

variable {s : Setting} {w : World} {c : Tally} {q : Question}

theorem evaluate_written (m : Machine) (q : Question) :
    m.evaluate w (q.asker c) (c.written q.text) =
      ⟨.next, w, ⟨q.asks c 0 :: q.asker c :: m.frames, .run, m.scopes, m.depth⟩⟩ := by
  have hcompile : (c.written q.text).compile = .ok ⟨q.items, c.place q.text⟩ := by
    simp only [Expression.compile, Tally.written, itemsOf_text]
  rw [Machine.evaluate, hcompile]
  cases q <;> rfl

theorem effect_load {h : Heap} {env : Env} {name : String} {v : Int64} {stack : List Operand}
    (hv : h.lookup? env name = some (.int v)) :
    (Item.load name).effect s h env stack = .next (.value (.int v) :: stack) := by
  simp [Item.effect, Setting.resolve, Setting.resolve?, hv, Effect.push]

theorem effect_add {h : Heap} {env : Env} {v : Int64} {stack : List Operand}
    (hv : v.toInt < maxInt) :
    (Item.op .add).effect s h env (.value (.int 1) :: .value (.int v) :: stack) =
      .next (.value (.int (after v)) :: stack) := by
  have hfits : int64? (v.toInt + 1) = some (after v) := by
    have hle := Int64.le_toInt v
    rw [int64?, if_pos]
    · rfl
    · unfold maxInt at hv ⊢
      unfold minInt
      omega
  have hadd : h.binary .add (.int v) (.int 1) = .ok (.int (after v)) := by
    change exactly .add (v.toInt + 1) = _
    rw [exactly, hfits]
  change Effect.ofExcept
    (h.binary .add (.int v) (.int 1) >>= fun u => pure (Effect.push stack u)) = _
  rw [hadd]
  rfl

theorem step_asks {n : Nat} {fs : List Frame} {scopes : ScopeStack} {depth : Nat}
    (hn : n < q.items.length) (hknown : q.Known w.heap scopes.current) :
    Machine.step s w ⟨q.asks c n :: fs, .run, scopes, depth⟩ =
      ⟨.next, w, ⟨q.asks c (n + 1) :: fs, .run, scopes, depth⟩⟩ := by
  -- The item leads from the operands to those of the next number.
  have hstep : ∀ i rest, q.items.drop n = i :: rest →
      i.effect s w.heap scopes.current (q.stack n) = .next (q.stack (n + 1)) →
      Machine.step s w ⟨q.asks c n :: fs, .run, scopes, depth⟩ =
        ⟨.next, w, ⟨q.asks c (n + 1) :: fs, .run, scopes, depth⟩⟩ := by
    intro i rest hdrop heffect
    have hrest : q.items.drop (n + 1) = rest := by
      rw [← List.drop_drop, hdrop]
      rfl
    simp only [Machine.step, asks, hdrop, hrest, Machine.resumeFrame, Machine.evalItem, heffect]
    rfl
  cases q with
  | lower =>
      obtain rfl : n = 0 := by simpa [items] using hn
      exact hstep _ _ rfl rfl
  | upper k =>
      obtain rfl : n = 0 := by simpa [items] using hn
      exact hstep _ _ rfl (effect_load hknown)
  | read v =>
      obtain rfl : n = 0 := by simpa [items] using hn
      exact hstep _ _ rfl (effect_load hknown)
  | sum v =>
      obtain ⟨hseen, hroom⟩ := hknown
      match n, hn with
      | 0, _ => exact hstep _ _ rfl (effect_load hseen)
      | 1, _ => exact hstep _ _ rfl rfl
      | 2, _ => exact hstep _ _ rfl (effect_add hroom)

theorem step_answer {n : Nat} {fs : List Frame} {scopes : ScopeStack} {depth : Nat}
    (hn : n = q.items.length) :
    Machine.step s w ⟨q.asks c n :: fs, .run, scopes, depth⟩ =
      ⟨.next, w, ⟨fs, .value (.int q.answer), scopes, depth⟩⟩ := by
  subst hn
  cases q <;> rfl

end Question

/-! ## Points -/

/-- Where a machine can be inside the block. -/
inductive Inner where
  | begun
  | reading (n : Nat)
  | read
  | declared (begun : Bool)
  | summing (n : Nat)
  | summed
  | stored (begun : Bool)

namespace Inner

/-- The frames above the lock, for a machine that sees the value `v`. -/
def frames (c : Tally) (v : Int64) : Inner → List Frame
  | begun => [.body c.increment true false]
  | reading n => [(Question.read v).asks c n, (Question.read v).asker c,
      .body (c.increment.drop 1) true true]
  | read => [(Question.read v).asker c, .body (c.increment.drop 1) true true]
  | declared b => [.body (c.increment.drop 1) true b]
  | summing n => [(Question.sum v).asks c n, (Question.sum v).asker c, .body [] true true]
  | summed => [(Question.sum v).asker c, .body [] true true]
  | stored b => [.body [] true b]

def signal (v : Int64) : Inner → Signal
  | read => .value (.int v)
  | summed => .value (.int (after v))
  | _ => .run

def hasSeen : Inner → Bool
  | begun | reading _ | read => false
  | _ => true

def hasStored : Inner → Bool
  | stored _ => true
  | _ => false

/-- Whether a number of evaluated items is one that there can be. -/
def InRange (v : Int64) : Inner → Prop
  | reading n => n ≤ (Question.read v).items.length
  | summing n => n ≤ (Question.sum v).items.length
  | _ => True

end Inner

/-- Where a machine can be in a tally. The scopes are those of the call, of the turn of the loop and
of the block; `next` is the number of the next turn. -/
inductive Point where
  | start
  | entry (r : ScopeRef)
  | bounding (r : ScopeRef) (q : Question) (n : Nat)
  | bounded (r : ScopeRef) (q : Question)
  | counting (r : ScopeRef) (next : Option Int64)
  | turning (r r₂ : ScopeRef) (next : Option Int64)
  | entering (r r₂ : ScopeRef) (next : Option Int64)
  | inside (r r₂ r₃ : ScopeRef) (next : Option Int64) (v : Int64) (x : Inner)
  | closing (r r₂ : ScopeRef) (next : Option Int64)
  | turned (r r₂ : ScopeRef) (next : Option Int64) (begun : Bool)
  | counted (r : ScopeRef) (begun : Bool)
  | leaving (r : ScopeRef)
  | finished

/-- The frame of the call, which is told to add `k` times. -/
def ground (c : Tally) (k : Int64) : List Frame :=
  [.running ⟨c.procedure, none, [.int k], none⟩]

def loop (c : Tally) (k : Int64) (next : Option Int64) : List Frame :=
  .count none next k c.turn :: .body [] false true :: c.ground k

def block (c : Tally) (k : Int64) (next : Option Int64) : List Frame :=
  .hold c.lock :: .body [] true true :: c.loop k next

/-- How many turns remain of a loop up to `k`. -/
def remaining (k : Int64) : Option Int64 → Int
  | some i => max 0 (k.toInt - i.toInt + 1)
  | none => 0

theorem remaining_nonneg (k : Int64) (next : Option Int64) : 0 ≤ remaining k next := by
  cases next with
  | none => exact le_refl 0
  | some i => exact le_max_left _ _

theorem remaining_of_lt {k i : Int64} (h : k < i) : remaining k (some i) = 0 := by
  rw [Int64.lt_iff_toInt_lt] at h
  simp only [remaining]
  omega

/-- A turn is one of those that remained, also when there is no number after it. -/
theorem remaining_of_not_lt {k i : Int64} (h : ¬ k < i) :
    remaining k (some i) = remaining k (Machine.successor? i) + 1 := by
  rw [Int64.lt_iff_toInt_lt] at h
  have hmax := Int64.toInt_lt k
  cases hnext : Machine.successor? i with
  | some j =>
      have hj := Machine.toInt_of_successor? hnext
      simp only [remaining, hj]
      omega
  | none =>
      have hi := Machine.toInt_of_successor?_eq_none hnext
      unfold maxInt at hi
      simp only [remaining]
      omega

namespace Point

def machine (c : Tally) (env : Env) (k : Int64) : Point → Machine
  | start => .ofCall env (.procedure c.procedure) [.int k]
  | entry r => ⟨.body c.procedure.body false false :: c.ground k, .run, ⟨env, [[r, 0]]⟩, 1⟩
  | bounding r q n =>
      ⟨q.asks c n :: q.asker c :: .body [] false true :: c.ground k, .run, ⟨env, [[r, 0]]⟩, 1⟩
  | bounded r q =>
      ⟨q.asker c :: .body [] false true :: c.ground k, .value (.int q.answer), ⟨env, [[r, 0]]⟩, 1⟩
  | counting r next => ⟨c.loop k next, .run, ⟨env, [[r, 0]]⟩, 1⟩
  | turning r r₂ next =>
      ⟨.body c.turn true false :: c.loop k next, .run, ⟨env, [[r₂, r, 0], [r, 0]]⟩, 1⟩
  | entering r r₂ next =>
      ⟨.enter c.lock c.increment :: .body [] true true :: c.loop k next, .run,
        ⟨env, [[r₂, r, 0], [r, 0]]⟩, 1⟩
  | inside r r₂ r₃ next v x =>
      ⟨x.frames c v ++ c.block k next, x.signal v,
        ⟨env, [[r₃, r₂, r, 0], [r₂, r, 0], [r, 0]]⟩, 1⟩
  | closing r r₂ next => ⟨c.block k next, .run, ⟨env, [[r₂, r, 0], [r, 0]]⟩, 1⟩
  | turned r r₂ next begun =>
      ⟨.body [] true begun :: c.loop k next, .run, ⟨env, [[r₂, r, 0], [r, 0]]⟩, 1⟩
  | counted r begun => ⟨.body [] false begun :: c.ground k, .run, ⟨env, [[r, 0]]⟩, 1⟩
  | leaving r => ⟨c.ground k, .run, ⟨env, [[r, 0]]⟩, 1⟩
  | finished => ⟨[], .value .empty, ⟨env, []⟩, 0⟩

/-- How much is still to be added to the counter. -/
def pending (k : Int64) : Point → Int
  | start | entry _ | bounding _ _ _ | bounded _ _ => max 0 k.toInt
  | counting _ next => remaining k next
  | turning _ _ next | entering _ _ next => remaining k next + 1
  | inside _ _ _ next _ x => remaining k next + (if x.hasStored then 0 else 1)
  | closing _ _ next | turned _ _ next _ => remaining k next
  | counted _ _ | leaving _ | finished => 0

def holds : Point → Bool
  | inside _ _ _ _ _ _ | closing _ _ _ => true
  | _ => false

end Point

end Tally

/-! ## Scopes -/

namespace Heap

/-- A scope other than the global one, without a counter of its own. -/
structure Local (h : Heap) (r : ScopeRef) : Prop where
  pos : 0 < r
  lt : r < h.scopes.size
  counter : h.local? r "counter" = none

/-- The scope of a call that is to add `k` times. -/
structure Called (h : Heap) (k : Int64) (r : ScopeRef) : Prop extends Local h r where
  times : h.local? r "times" = some (.int k)

/-- Each scope binds what it bound before; there may be more scopes. -/
structure Extends (h h' : Heap) : Prop where
  size : h.scopes.size ≤ h'.scopes.size
  bound : ∀ r < h.scopes.size, ∀ name, h'.local? r name = h.local? r name

/-- Nothing changes but what was seen, and what is global. -/
structure Spares (h h' : Heap) : Prop where
  size : h.scopes.size ≤ h'.scopes.size
  bound : ∀ r < h.scopes.size, 0 < r → ∀ name, name ≠ "seen" → h'.local? r name = h.local? r name

variable {h h' : Heap} {r : ScopeRef} {k : Int64}

theorem lt_size_of_local? {name : String} {v : Value} (hv : h.local? r name = some v) :
    r < h.scopes.size := by
  by_contra hr
  have hnone : h.local? r name = none := by
    simp [local?, scope, hr]
    rfl
  rw [hnone] at hv
  contradiction

theorem Extends.refl (h : Heap) : h.Extends h :=
  ⟨Nat.le_refl _, fun _ _ _ => rfl⟩

theorem extends_newScope (h : Heap) (name : String) : h.Extends (h.newScope name).1 :=
  ⟨by simp [newScope], fun r _ x => local?_newScope h name r x⟩

theorem local_newScope (hzero : 0 < h.scopes.size) (name : String) :
    (h.newScope name).1.Local h.scopes.size ∧
      ∀ x, (h.newScope name).1.local? h.scopes.size x = none := by
  have hnone := h.local?_newScope_size name
  exact ⟨⟨hzero, by simp [newScope], hnone _⟩, hnone⟩

theorem Extends.spares (hext : h.Extends h') : h.Spares h' :=
  ⟨hext.size, fun r hr _ name _ => hext.bound r hr name⟩

theorem Spares.local (hspares : h.Spares h') (hr : h.Local r) : h'.Local r where
  pos := hr.pos
  lt := Nat.lt_of_lt_of_le hr.lt hspares.size
  counter := by
    rw [hspares.bound r hr.lt hr.pos "counter" (by decide)]
    exact hr.counter

theorem Spares.called (hspares : h.Spares h') (hr : h.Called k r) : h'.Called k r where
  toLocal := hspares.local hr.toLocal
  times := by
    rw [hspares.bound r hr.lt hr.pos "times" (by decide)]
    exact hr.times

end Heap

namespace Tally.Point

variable {h h' : Heap} {k : Int64} {p : Point}

/-- A point fits a heap: the scopes of the machine are there, and bind what they should. -/
def Fits (h : Heap) (k : Int64) : Point → Prop
  | start | finished => True
  | entry r | counting r _ | counted r _ | leaving r => h.Called k r
  | bounding r q n => h.Called k r ∧ (q = .lower ∨ q = .upper k) ∧ n ≤ q.items.length
  | bounded r q => h.Called k r ∧ (q = .lower ∨ q = .upper k)
  | turning r r₂ _ | entering r r₂ _ | closing r r₂ _ | turned r r₂ _ _ =>
      h.Called k r ∧ h.Local r₂
  | inside r r₂ r₃ _ v x =>
      h.Called k r ∧ h.Local r₂ ∧ h.Local r₃ ∧
        h.local? r₃ "seen" = (if x.hasSeen then some (.int v) else none) ∧
        h.local? 0 "counter" = some (.int (if x.hasStored then after v else v)) ∧ x.InRange v

/-- A machine outside the block does not notice what happens inside. -/
theorem Fits.of_spares (hfits : p.Fits h k) (hspares : h.Spares h') (hp : p.holds = false) :
    p.Fits h' k := by
  cases p with
  | start => trivial
  | finished => trivial
  | entry r => exact hspares.called hfits
  | counting r next => exact hspares.called hfits
  | counted r begun => exact hspares.called hfits
  | leaving r => exact hspares.called hfits
  | bounding r q n => exact ⟨hspares.called hfits.1, hfits.2⟩
  | bounded r q => exact ⟨hspares.called hfits.1, hfits.2⟩
  | turning r r₂ next => exact ⟨hspares.called hfits.1, hspares.local hfits.2⟩
  | entering r r₂ next => exact ⟨hspares.called hfits.1, hspares.local hfits.2⟩
  | turned r r₂ next begun => exact ⟨hspares.called hfits.1, hspares.local hfits.2⟩
  | inside r r₂ r₃ next v x => contradiction
  | closing r r₂ next => contradiction

/-- A machine anywhere does not notice new scopes. -/
theorem Fits.of_extends (hfits : p.Fits h k) (hext : h.Extends h') : p.Fits h' k := by
  cases p with
  | inside r r₂ r₃ next v x =>
      obtain ⟨hr, hr₂, hr₃, hseen, hcounter, hrange⟩ := hfits
      have hzero : 0 < h.scopes.size := Nat.lt_trans hr.pos hr.lt
      refine ⟨hext.spares.called hr, hext.spares.local hr₂, hext.spares.local hr₃, ?_, ?_, hrange⟩
      · rw [hext.bound r₃ hr₃.lt]
        exact hseen
      · rw [hext.bound 0 hzero]
        exact hcounter
  | closing r r₂ next => exact ⟨hext.spares.called hfits.1, hext.spares.local hfits.2⟩
  | _ => exact hfits.of_spares hext.spares rfl

/-! ## Steps -/

/-- What a step does to the heap and to the point. Outside the block nothing is changed that others
could see; inside it, what is added to the counter is no longer to be added. The lock stays as it
is, or is taken, or is given back. -/
structure Transition (l : LockRef) (k : Int64) (h : Heap) (p : Point) (h' : Heap) (p' : Point) :
    Prop where
  fits : p'.Fits h' k
  spares : h.Spares h'
  outside : p.holds = false → h.Extends h'
  counter : ∀ v, h.local? 0 "counter" = some (.int v) →
    ∃ v', h'.local? 0 "counter" = some (.int v') ∧ v'.toInt + p'.pending k = v.toInt + p.pending k
  lock : (p'.holds = p.holds ∧ h'.isHeld l = h.isHeld l) ∨
    (h.isHeld l = false ∧ p'.holds = true ∧ h'.isHeld l = true) ∨
    (p.holds = true ∧ p'.holds = false ∧ h'.isHeld l = false)

/-- A machine at a point takes a step to another one. -/
def Goes (s : Setting) (w : World) (c : Tally) (env : Env) (k : Int64) (p : Point) : Prop :=
  ∃ st h' p', (p.machine c env k).step s w = ⟨st, { w with heap := h' }, p'.machine c env k⟩ ∧
    Transition c.lock k w.heap p h' p' ∧
    (st = .next ∨ st = .pause ∨ st = .blocked ∨ st = .done ∧ p' = .finished)

variable {l : LockRef} {p' : Point} {s : Setting} {w : World} {c : Tally} {env : Env} {st : Step}
  {r r₂ r₃ : ScopeRef} {next : Option Int64} {v : Int64}

theorem Transition.of_extends (hext : h.Extends h') (hfits : p'.Fits h' k)
    (hpending : p'.pending k = p.pending k)
    (hlock : (p'.holds = p.holds ∧ h'.isHeld l = h.isHeld l) ∨
      (h.isHeld l = false ∧ p'.holds = true ∧ h'.isHeld l = true) ∨
      (p.holds = true ∧ p'.holds = false ∧ h'.isHeld l = false)) :
    Transition l k h p h' p' where
  fits := hfits
  spares := hext.spares
  outside := fun _ => hext
  counter := by
    intro v hv
    refine ⟨v, ?_, by rw [hpending]⟩
    rw [hext.bound 0 (Heap.lt_size_of_local? hv)]
    exact hv
  lock := hlock

/-- Most steps leave the heap alone. -/
theorem Goes.stay (p' : Point)
    (hstep : (p.machine c env k).step s w = ⟨st, w, p'.machine c env k⟩)
    (hst : st = .next ∨ st = .pause ∨ st = .blocked ∨ st = .done ∧ p' = .finished)
    (hfits : p'.Fits w.heap k) (hpending : p'.pending k = p.pending k)
    (hholds : p'.holds = p.holds) : p.Goes s w c env k :=
  ⟨st, w.heap, p', hstep, .of_extends (.refl _) hfits hpending (Or.inl ⟨hholds, rfl⟩), hst⟩

theorem goes_start (hlimit : 0 < s.config.recursionLimit) (hzero : 0 < w.heap.scopes.size) :
    start.Goes s w c env k := by
  set h₁ := (w.heap.newScope c.name).1
  obtain ⟨hlocal, hnone⟩ := Heap.local_newScope hzero c.name
  set h₂ := h₁.define w.heap.scopes.size "times" (.int k)
  have hext : w.heap.Extends h₂ := by
    refine ⟨?_, fun r hr name => ?_⟩
    · simp [h₂, h₁, Heap.newScope]
    · rw [Heap.local?_define hlocal.lt, if_neg (fun e => Nat.ne_of_lt hr e.1)]
      exact Heap.local?_newScope _ _ _ _
  have hcalled : h₂.Called k w.heap.scopes.size := by
    refine ⟨⟨hzero, ?_, ?_⟩, ?_⟩
    · simpa [h₂] using hlocal.lt
    · rw [Heap.local?_define hlocal.lt, if_neg (fun e => absurd e.2 (by decide))]
      exact hnone _
    · rw [Heap.local?_define hlocal.lt, if_pos ⟨rfl, rfl⟩]
  refine ⟨.next, h₂, .entry w.heap.scopes.size, ?_,
    .of_extends hext hcalled rfl (Or.inl ⟨rfl, rfl⟩), Or.inl rfl⟩
  change Machine.enter s w ⟨[], .run, ⟨env, []⟩, 0⟩ ⟨c.procedure, none, [.int k], none⟩ = _
  rw [Machine.enter, if_neg (Nat.not_le_of_lt hlimit)]
  rfl

theorem goes_entry (hfits : (entry r).Fits w.heap k) : (entry r).Goes s w c env k := by
  have hstep : ((entry r).machine c env k).step s w =
      ⟨.next, w, (bounding r .lower 0).machine c env k⟩ :=
    Question.evaluate_written ⟨.body [] false true :: c.ground k, .run, ⟨env, [[r, 0]]⟩, 1⟩ .lower
  exact .stay _ hstep (Or.inl rfl) ⟨hfits, Or.inl rfl, Nat.zero_le _⟩ rfl rfl

theorem goes_bounding {q : Question} {n : Nat} (hfits : (bounding r q n).Fits w.heap k) :
    (bounding r q n).Goes s w c env k := by
  obtain ⟨hr, hq, hn⟩ := hfits
  have hknown : q.Known w.heap [r, 0] := by
    rcases hq with rfl | rfl
    · trivial
    · simp [Question.Known, Heap.lookup?, hr.times]
  rcases Nat.lt_or_eq_of_le hn with hlt | heq
  · exact .stay (bounding r q (n + 1)) (Question.step_asks hlt hknown) (Or.inl rfl)
      ⟨hr, hq, hlt⟩ rfl rfl
  · exact .stay (bounded r q) (Question.step_answer heq) (Or.inl rfl) ⟨hr, hq⟩ rfl rfl

theorem goes_bounded {q : Question} (hfits : (bounded r q).Fits w.heap k) :
    (bounded r q).Goes s w c env k := by
  obtain ⟨hr, rfl | rfl⟩ := hfits
  · have hstep : ((bounded r .lower).machine c env k).step s w =
        ⟨.next, w, (bounding r (.upper k) 0).machine c env k⟩ :=
      Question.evaluate_written ⟨.body [] false true :: c.ground k, .run, ⟨env, [[r, 0]]⟩, 1⟩
        (.upper k)
    exact .stay _ hstep (Or.inl rfl) ⟨hr, Or.inr rfl, Nat.zero_le _⟩ rfl rfl
  · refine .stay (counting r (some 1)) rfl (Or.inl rfl) hr ?_ rfl
    simp [pending, remaining]

theorem goes_counting (hfits : (counting r next).Fits w.heap k) :
    (counting r next).Goes s w c env k := by
  cases next with
  | none => exact .stay (counted r true) rfl (Or.inl rfl) hfits rfl rfl
  | some i =>
      by_cases hlast : k < i
      · have hstep : ((counting r (some i)).machine c env k).step s w =
            ⟨.next, w, (counted r true).machine c env k⟩ := if_pos hlast
        refine .stay _ hstep (Or.inl rfl) hfits ?_ rfl
        exact (remaining_of_lt hlast).symm
      · have hzero : 0 < w.heap.scopes.size := Nat.lt_trans hfits.pos hfits.lt
        have hext := Heap.extends_newScope w.heap "repeat"
        refine ⟨.pause, _, turning r w.heap.scopes.size (Machine.successor? i), if_neg hlast,
          .of_extends hext ?_ ?_ (Or.inl ⟨rfl, rfl⟩), Or.inr (Or.inl rfl)⟩
        · exact ⟨hext.spares.called hfits, (Heap.local_newScope hzero _).1⟩
        · exact (remaining_of_not_lt hlast).symm

theorem goes_turning (hfits : (turning r r₂ next).Fits w.heap k) :
    (turning r r₂ next).Goes s w c env k :=
  .stay (entering r r₂ next) rfl (Or.inl rfl) hfits rfl rfl

theorem goes_entering (hfits : (entering r r₂ next).Fits w.heap k)
    (hcounter : w.heap.local? 0 "counter" = some (.int v)) :
    (entering r r₂ next).Goes s w c env k := by
  obtain ⟨hr, hr₂⟩ := hfits
  cases hheld : w.heap.isHeld c.lock with
  | true =>
      have hstep : ((entering r r₂ next).machine c env k).step s w =
          ⟨.blocked, w, (entering r r₂ next).machine c env k⟩ := if_pos hheld
      exact .stay _ hstep (Or.inr (Or.inr (Or.inl rfl))) ⟨hr, hr₂⟩ rfl rfl
  | false =>
      set h₁ := w.heap.hold c.lock
      have hzero : 0 < h₁.scopes.size := Nat.lt_trans hr.pos hr.lt
      obtain ⟨hlocal, hnone⟩ := Heap.local_newScope hzero "exclusive"
      have hnew := Heap.extends_newScope h₁ "exclusive"
      have hext : w.heap.Extends (h₁.newScope "exclusive").1 := ⟨hnew.size, hnew.bound⟩
      have hstep : ((entering r r₂ next).machine c env k).step s w =
          ⟨.next, { w with heap := (h₁.newScope "exclusive").1 },
            (inside r r₂ h₁.scopes.size next v .begun).machine c env k⟩ :=
        if_neg (by rw [hheld]; decide)
      refine ⟨.next, _, inside r r₂ h₁.scopes.size next v .begun, hstep,
        .of_extends hext ?_ rfl (Or.inr (Or.inl ⟨hheld, rfl, ?_⟩)), Or.inl rfl⟩
      · refine ⟨hext.spares.called hr, hext.spares.local hr₂, hlocal, hnone _, ?_, trivial⟩
        rw [Heap.local?_newScope]
        exact hcounter
      · change h₁.isHeld c.lock = true
        simp [h₁]

theorem goes_closing (hfits : (closing r r₂ next).Fits w.heap k) :
    (closing r r₂ next).Goes s w c env k := by
  have hext : w.heap.Extends (w.heap.release c.lock) := ⟨Nat.le_refl _, fun _ _ _ => rfl⟩
  have hfits' : (closing r r₂ next).Fits (w.heap.release c.lock) k := hfits.of_extends hext
  refine ⟨.next, w.heap.release c.lock, turned r r₂ next true, rfl,
    .of_extends hext hfits' rfl (Or.inr (Or.inr ⟨rfl, rfl, ?_⟩)), Or.inl rfl⟩
  simp

theorem goes_turned {begun : Bool} (hfits : (turned r r₂ next begun).Fits w.heap k) :
    (turned r r₂ next begun).Goes s w c env k := by
  cases begun with
  | true => exact .stay (turned r r₂ next false) rfl (Or.inr (Or.inl rfl)) hfits rfl rfl
  | false => exact .stay (counting r next) rfl (Or.inl rfl) hfits.1 rfl rfl

theorem goes_counted {begun : Bool} (hfits : (counted r begun).Fits w.heap k) :
    (counted r begun).Goes s w c env k := by
  cases begun with
  | true => exact .stay (counted r false) rfl (Or.inr (Or.inl rfl)) hfits rfl rfl
  | false => exact .stay (leaving r) rfl (Or.inl rfl) hfits rfl rfl

theorem goes_leaving : (leaving r).Goes s w c env k :=
  .stay finished rfl (Or.inl rfl) trivial rfl rfl

theorem goes_finished : finished.Goes s w c env k :=
  .stay finished rfl (Or.inr (Or.inr (Or.inr ⟨rfl, rfl⟩))) trivial rfl rfl

/-! ### Inside the block -/

theorem goes_begun (hfits : (inside r r₂ r₃ next v .begun).Fits w.heap k) :
    (inside r r₂ r₃ next v .begun).Goes s w c env k := by
  obtain ⟨hr, hr₂, hr₃, hseen, hcounter, -⟩ := hfits
  have hstep : ((inside r r₂ r₃ next v .begun).machine c env k).step s w =
      ⟨.next, w, (inside r r₂ r₃ next v (.reading 0)).machine c env k⟩ :=
    Question.evaluate_written
      ⟨.body (c.increment.drop 1) true true :: c.block k next, .run,
        ⟨env, [[r₃, r₂, r, 0], [r₂, r, 0], [r, 0]]⟩, 1⟩ (.read v)
  exact .stay _ hstep (Or.inl rfl) ⟨hr, hr₂, hr₃, hseen, hcounter, Nat.zero_le _⟩ rfl rfl

theorem goes_reading {n : Nat} (hfits : (inside r r₂ r₃ next v (.reading n)).Fits w.heap k) :
    (inside r r₂ r₃ next v (.reading n)).Goes s w c env k := by
  obtain ⟨hr, hr₂, hr₃, hseen, hcounter, hn⟩ := hfits
  have hknown : (Question.read v).Known w.heap [r₃, r₂, r, 0] := by
    change w.heap.local? 0 "counter" = some (.int v) at hcounter
    simp [Question.Known, Heap.lookup?, hr.counter, hr₂.counter, hr₃.counter, hcounter]
  rcases Nat.lt_or_eq_of_le hn with hlt | heq
  · exact .stay (inside r r₂ r₃ next v (.reading (n + 1))) (Question.step_asks hlt hknown)
      (Or.inl rfl) ⟨hr, hr₂, hr₃, hseen, hcounter, hlt⟩ rfl rfl
  · exact .stay (inside r r₂ r₃ next v .read) (Question.step_answer heq) (Or.inl rfl)
      ⟨hr, hr₂, hr₃, hseen, hcounter, trivial⟩ rfl rfl

/-- What was seen is declared in the scope of the block. -/
theorem goes_read (hfits : (inside r r₂ r₃ next v .read).Fits w.heap k) :
    (inside r r₂ r₃ next v .read).Goes s w c env k := by
  obtain ⟨hr, hr₂, hr₃, hseen, hcounter, -⟩ := hfits
  set h₁ := w.heap.define r₃ "seen" (.int v)
  have hother : ∀ r' name, name ≠ "seen" → h₁.local? r' name = w.heap.local? r' name := by
    intro r' name hname
    rw [Heap.local?_define hr₃.lt, if_neg (fun e => hname e.2)]
  have hspares : w.heap.Spares h₁ :=
    ⟨by simp [h₁], fun r' _ _ name hname => hother r' name hname⟩
  have hstep : ((inside r r₂ r₃ next v .read).machine c env k).step s w =
      ⟨.next, { w with heap := h₁ }, (inside r r₂ r₃ next v (.declared true)).machine c env k⟩ := by
    refine if_neg ?_
    change ¬ (w.heap.local? r₃ "seen").isSome = true
    change w.heap.local? r₃ "seen" = none at hseen
    simp [hseen]
  refine ⟨.next, h₁, _, hstep, ⟨?_, hspares, nofun, ?_, Or.inl ⟨rfl, rfl⟩⟩, Or.inl rfl⟩
  · refine ⟨hspares.called hr, hspares.local hr₂, hspares.local hr₃, ?_, ?_, trivial⟩
    · rw [Heap.local?_define hr₃.lt, if_pos ⟨rfl, rfl⟩]
      rfl
    · rw [hother 0 "counter" (by decide)]
      exact hcounter
  · intro v' hv'
    exact ⟨v', by rw [hother 0 "counter" (by decide), hv'], rfl⟩

theorem goes_declared {begun : Bool}
    (hfits : (inside r r₂ r₃ next v (.declared begun)).Fits w.heap k) :
    (inside r r₂ r₃ next v (.declared begun)).Goes s w c env k := by
  obtain ⟨hr, hr₂, hr₃, hseen, hcounter, -⟩ := hfits
  cases begun with
  | true =>
      exact .stay (inside r r₂ r₃ next v (.declared false)) rfl (Or.inr (Or.inl rfl))
        ⟨hr, hr₂, hr₃, hseen, hcounter, trivial⟩ rfl rfl
  | false =>
      have hstep : ((inside r r₂ r₃ next v (.declared false)).machine c env k).step s w =
          ⟨.next, w, (inside r r₂ r₃ next v (.summing 0)).machine c env k⟩ :=
        Question.evaluate_written
          ⟨.body [] true true :: c.block k next, .run,
            ⟨env, [[r₃, r₂, r, 0], [r₂, r, 0], [r, 0]]⟩, 1⟩ (.sum v)
      exact .stay _ hstep (Or.inl rfl) ⟨hr, hr₂, hr₃, hseen, hcounter, Nat.zero_le _⟩ rfl rfl

theorem goes_summing {n : Nat} (hfits : (inside r r₂ r₃ next v (.summing n)).Fits w.heap k)
    (hroom : v.toInt < maxInt) : (inside r r₂ r₃ next v (.summing n)).Goes s w c env k := by
  obtain ⟨hr, hr₂, hr₃, hseen, hcounter, hn⟩ := hfits
  have hknown : (Question.sum v).Known w.heap [r₃, r₂, r, 0] := by
    change w.heap.local? r₃ "seen" = some (.int v) at hseen
    simp [Question.Known, Heap.lookup?, hseen, hroom]
  rcases Nat.lt_or_eq_of_le hn with hlt | heq
  · exact .stay (inside r r₂ r₃ next v (.summing (n + 1))) (Question.step_asks hlt hknown)
      (Or.inl rfl) ⟨hr, hr₂, hr₃, hseen, hcounter, hlt⟩ rfl rfl
  · exact .stay (inside r r₂ r₃ next v .summed) (Question.step_answer heq) (Or.inl rfl)
      ⟨hr, hr₂, hr₃, hseen, hcounter, trivial⟩ rfl rfl

/-- The counter is increased. -/
theorem goes_summed (hfits : (inside r r₂ r₃ next v .summed).Fits w.heap k)
    (hroom : v.toInt < maxInt) : (inside r r₂ r₃ next v .summed).Goes s w c env k := by
  obtain ⟨hr, hr₂, hr₃, hseen, hcounter, -⟩ := hfits
  change w.heap.local? 0 "counter" = some (.int v) at hcounter
  have hzero := Heap.lt_size_of_local? hcounter
  set h₁ := w.heap.define 0 "counter" (.int (after v))
  have hother : ∀ r', 0 < r' → ∀ name, h₁.local? r' name = w.heap.local? r' name := by
    intro r' hr' name
    rw [Heap.local?_define hzero, if_neg (fun e => Nat.ne_of_gt hr' e.1)]
  have hspares : w.heap.Spares h₁ :=
    ⟨by simp [h₁], fun r' _ hr' name _ => hother r' hr' name⟩
  have hstored : h₁.local? 0 "counter" = some (.int (after v)) := by
    rw [Heap.local?_define hzero, if_pos ⟨rfl, rfl⟩]
  have hplace : s.place w.heap [r₃, r₂, r, 0] ⟨"counter", none⟩ = .ok (.binding 0 "counter") := by
    simp [Setting.place, Heap.binder?, hr.counter, hr₂.counter, hr₃.counter, hcounter]
  have hstep : ((inside r r₂ r₃ next v .summed).machine c env k).step s w =
      ⟨.next, { w with heap := h₁ }, (inside r r₂ r₃ next v (.stored true)).machine c env k⟩ := by
    change Machine.act s w ⟨.body [] true true :: c.block k next, .run,
      ⟨env, [[r₃, r₂, r, 0], [r₂, r, 0], [r, 0]]⟩, 1⟩ (c.place "seen + 1") (.int (after v))
      (.assign ⟨"counter", none⟩) = _
    simp only [Machine.act, ScopeStack.current, List.headD_cons, hplace]
    rfl
  refine ⟨.next, h₁, _, hstep, ⟨?_, hspares, nofun, ?_, Or.inl ⟨rfl, rfl⟩⟩, Or.inl rfl⟩
  · refine ⟨hspares.called hr, hspares.local hr₂, hspares.local hr₃, ?_, hstored, trivial⟩
    rw [hother r₃ hr₃.pos]
    exact hseen
  · intro v' hv'
    rw [hcounter] at hv'
    cases hv'
    refine ⟨after v, hstored, ?_⟩
    rw [toInt_after hroom]
    change v.toInt + 1 + (remaining k next + 0) = v.toInt + (remaining k next + 1)
    omega

theorem goes_stored {begun : Bool} (hfits : (inside r r₂ r₃ next v (.stored begun)).Fits w.heap k) :
    (inside r r₂ r₃ next v (.stored begun)).Goes s w c env k := by
  obtain ⟨hr, hr₂, hr₃, hseen, hcounter, -⟩ := hfits
  cases begun with
  | true =>
      exact .stay (inside r r₂ r₃ next v (.stored false)) rfl (Or.inr (Or.inl rfl))
        ⟨hr, hr₂, hr₃, hseen, hcounter, trivial⟩ rfl rfl
  | false =>
      refine .stay (closing r r₂ next) rfl (Or.inl rfl) ⟨hr, hr₂⟩ ?_ rfl
      simp [pending, Inner.hasStored]

/-- A machine at a point that fits goes on to another point, as long as there is room for what is
still to be added. -/
theorem goes (c : Tally) (env : Env) (hlimit : 0 < s.config.recursionLimit)
    (hfits : p.Fits w.heap k) (hcounter : w.heap.local? 0 "counter" = some (.int v))
    (hroom : v.toInt + p.pending k ≤ maxInt) : p.Goes s w c env k := by
  cases p with
  | start => exact goes_start hlimit (Heap.lt_size_of_local? hcounter)
  | entry r => exact goes_entry hfits
  | bounding r q n => exact goes_bounding hfits
  | bounded r q => exact goes_bounded hfits
  | counting r next => exact goes_counting hfits
  | turning r r₂ next => exact goes_turning hfits
  | entering r r₂ next => exact goes_entering hfits hcounter
  | closing r r₂ next => exact goes_closing hfits
  | turned r r₂ next begun => exact goes_turned hfits
  | counted r begun => exact goes_counted hfits
  | leaving r => exact goes_leaving
  | finished => exact goes_finished
  | inside r r₂ r₃ next u x =>
      have hlast : x.hasStored = false → u.toInt < maxInt := by
        intro hx
        have hseen := hfits.2.2.2.2.1
        rw [hcounter, hx] at hseen
        have hsame : v = u := by simpa using hseen
        have hleft := remaining_nonneg k next
        simp only [pending, hx, hsame] at hroom
        change u.toInt + (remaining k next + 1) ≤ maxInt at hroom
        omega
      cases x with
      | begun => exact goes_begun hfits
      | reading n => exact goes_reading hfits
      | read => exact goes_read hfits
      | declared begun => exact goes_declared hfits
      | summing n => exact goes_summing hfits (hlast rfl)
      | summed => exact goes_summed hfits (hlast rfl)
      | stored begun => exact goes_stored hfits

end Tally.Point

end Statute
