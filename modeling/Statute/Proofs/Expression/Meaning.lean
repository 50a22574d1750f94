import Statute.Machine.Run
import Statute.Proofs.Expression.Compilation
import Statute.Proofs.Machine.Operands
import Statute.Proofs.Value.Bare
import Mathlib.Logic.Relation

/-!
# What an expression means

A tree can be evaluated as it stands: the value of an operator comes from the values of its
operands. Operands are evaluated from left to right, all of them in any case; the arguments of a
call come before the name of what is called. The first part without a value decides that the whole
has none, and why.

The items that a tree is compiled to have the same meaning. A machine that evaluates them gets to
the value of the tree on top of what was there before, or stops for the reason that the tree gives.
Marks and boxes are all that the operands show on the way beyond the values of the tree.
-/

namespace Statute

open Relation (ReflTransGen)

/-- Why an expression has no value. -/
inductive Stop where
  | failure (f : Failure)
  /-- The host broke down. -/
  | breakdown (message : Option String)
  /-- Something has to be called that is no extension. -/
  | call (callee : Value) (args : List Value)

namespace Stop

variable {α : Type}

/-- A computation that may fail, as one that may stop. -/
def ofExcept : Except Failure α → Except Stop α
  | .ok a => .ok a
  | .error f => .error (.failure f)

/-- The answer of an extension. -/
def ofAnswer : HostAnswer → Except Stop Value
  | .value v => .ok v
  | .failure f => .error (.failure f)
  | .crash message => .error (.breakdown message)

end Stop

/-! ## Evaluation of a tree -/

/-- What is seen when a tree is evaluated. An access of a field may give the box of the field, which
is opened when it is used, or what is in the box; `read` says which. -/
structure View where
  setting : Setting
  heap : Heap
  env : Env
  read : Value → Value

namespace View

/-- The value of a name. A bare name of an extension without arguments calls it. -/
def named (e : View) (n : String) : Except Stop Value := do
  match ← Stop.ofExcept (e.setting.resolve e.heap e.env n) with
  | .extension x =>
      if x.arity.autoInvoke then Stop.ofAnswer (x.call e.setting.host e.heap [])
      else return .extension x
  | v => return v

def access (e : View) (v : Value) (f : String) : Except Stop Value :=
  (Stop.ofExcept (e.heap.member v f)).map e.read

/-- A call of a value. -/
def apply (e : View) (callee : Value) (args : List Value) : Except Stop Value :=
  match callee with
  | .extension x => Stop.ofAnswer (x.checkedCall e.setting.host e.heap args)
  | callee =>
      if callee.isCallable then .error (.call callee args)
      else .error (.failure (.invalidType
        (callee.typeName ++ " '" ++ e.heap.text callee ++ "' is not callable")))

end View

mutual

/-- The value of an operand. -/
def Primary.eval (e : View) : Primary → Except Stop Value
  | .literal l => .ok l.toValue
  | .name n => e.named n
  | .call n args => do
      let vs ← Tree.evalAll e args
      let callee ← Stop.ofExcept (e.setting.resolve e.heap e.env n)
      e.apply callee (vs.map e.heap.unbox)
  | .field p f => do
      let v ← p.eval e
      e.access v f
  | .invoke p f args => do
      let v ← p.eval e
      let callee ← e.access v f
      let vs ← Tree.evalAll e args
      e.apply (e.heap.unbox callee) (vs.map e.heap.unbox)
  | .group t => t.eval e

/-- The value of a tree. -/
def Tree.eval (e : View) : Tree → Except Stop Value
  | .operand p => p.eval e
  | .unary o t => do
      let v ← t.eval e
      Stop.ofExcept (e.heap.unary o v)
  | .binary o l r => do
      let v ← l.eval e
      let w ← r.eval e
      Stop.ofExcept (e.heap.binary o v w)

/-- The values of several trees, from left to right. -/
def Tree.evalAll (e : View) : List Tree → Except Stop (List Value)
  | [] => .ok []
  | t :: ts => do
      let v ← t.eval e
      let vs ← Tree.evalAll e ts
      return v :: vs

end

mutual

/-- Whether an operand neither schedules a task nor waits for one. -/
def Primary.isTaskFree : Primary → Bool
  | .literal _ => true
  | .name _ => true
  | .call _ args => Tree.areTaskFree args
  | .field p _ => p.isTaskFree
  | .invoke p _ args => p.isTaskFree && Tree.areTaskFree args
  | .group t => t.isTaskFree

/-- Whether a tree neither schedules a task nor waits for one. -/
def Tree.isTaskFree : Tree → Bool
  | .operand p => p.isTaskFree
  | .unary o t => o.1 != .background && o.1 != .wait && t.isTaskFree
  | .binary _ l r => l.isTaskFree && r.isTaskFree

/-- Whether several trees neither schedule a task nor wait for one. -/
def Tree.areTaskFree : List Tree → Bool
  | [] => true
  | t :: ts => t.isTaskFree && Tree.areTaskFree ts

end

/-! ## Machines that evaluate -/

/-- Where an expression is evaluated: its place, the scopes, the depth of calls and the frames that
wait for its value. -/
structure Evaluation where
  site : Location
  scopes : ScopeStack
  depth : Nat
  below : List Frame

namespace Evaluation

def machine (e : Evaluation) (items : List Item) (stack : List Operand) : Machine :=
  ⟨.eval items stack e.site :: e.below, .run, e.scopes, e.depth⟩

def ended (e : Evaluation) (sig : Signal) : Machine :=
  ⟨e.below, sig, e.scopes, e.depth⟩

end Evaluation

def Machine.Moves (s : Setting) (w : World) : Machine → Machine → Prop :=
  ReflTransGen fun m m' => m.step s w = ⟨.next, w, m'⟩

/-- A machine stops evaluating an expression: the failure gets the place of the expression, the host
breaks down, or the call is about to begin. -/
inductive Evaluation.Halts (s : Setting) (w : World) (e : Evaluation) (m : Machine) : Stop → Prop
  | failure {f : Failure}
      (hmoves : m.Moves s w (e.ended (.leave (.failWith (f.locate e.site))))) :
      Halts s w e m (.failure f)
  | breakdown {message : Option String} {m₁ m' : Machine} (hmoves : m.Moves s w m₁)
      (hcrash : m₁.step s w = ⟨.crash message, w, m'⟩) : Halts s w e m (.breakdown message)
  | call {callee : Value} {args : List Value} {items : List Item} {stack : List Operand}
      (hmoves : m.Moves s w ((e.machine items stack).push (.call callee args (some e.site)))) :
      Halts s w e m (.call callee args)

/-- A machine ends the evaluation of an expression with the given result; a value has lost its
boxes. -/
def Evaluation.Ends (s : Setting) (w : World) (e : Evaluation) (m : Machine) :
    Except Stop Value → Prop
  | .ok v => m.Moves s w (e.ended (.value (w.heap.unbox v)))
  | .error stop => e.Halts s w m stop

/-- A machine gets to the remaining items with operands as `P` says, or stops. -/
def Evaluation.Comes {α : Type} (s : Setting) (w : World) (e : Evaluation) (m : Machine)
    (rest : List Item) (P : α → List Operand → Prop) : Except Stop α → Prop
  | .ok a => ∃ stack, P a stack ∧ m.Moves s w (e.machine rest stack)
  | .error stop => e.Halts s w m stop

namespace Operand

/-- A value is on top of some operands, perhaps in a box. -/
def Topped (h : Heap) (stack : List Operand) (v : Value) (stack' : List Operand) : Prop :=
  ∃ u, h.unbox u = h.unbox v ∧ stack' = .value u :: stack

/-- Several values are on top of some operands, the last one highest. -/
def ToppedAll (h : Heap) (stack : List Operand) (vs : List Value) (stack' : List Operand) : Prop :=
  ∃ us : List Value,
    us.map h.unbox = vs.map h.unbox ∧ stack' = (us.map Operand.value).reverse ++ stack

end Operand

namespace Evaluation

variable {α β : Type} {s : Setting} {w : World} {e : Evaluation} {m m' : Machine}
  {rest rest' : List Item} {stack : List Operand} {stop : Stop} {P : α → List Operand → Prop}
  {Q : β → List Operand → Prop}

theorem Halts.of_moves (hmoves : m.Moves s w m') (h : e.Halts s w m' stop) :
    e.Halts s w m stop := by
  cases h with
  | failure h => exact .failure (hmoves.trans h)
  | breakdown h hcrash => exact .breakdown (hmoves.trans h) hcrash
  | call h => exact .call (hmoves.trans h)

theorem Comes.of_moves {x : Except Stop α} (hmoves : m.Moves s w m')
    (h : e.Comes s w m' rest P x) : e.Comes s w m rest P x := by
  cases x with
  | ok a =>
      obtain ⟨stack, ha, h⟩ := h
      exact ⟨stack, ha, hmoves.trans h⟩
  | error stop => exact Halts.of_moves hmoves h

/-- What is evaluated after something else goes on from where that got to. -/
theorem Comes.bind {x : Except Stop α} {k : α → Except Stop β} (hx : e.Comes s w m rest P x)
    (hk : ∀ a stack, P a stack → e.Comes s w (e.machine rest stack) rest' Q (k a)) :
    e.Comes s w m rest' Q (x >>= k) := by
  cases x with
  | ok a =>
      obtain ⟨stack, ha, h⟩ := hx
      exact (hk a stack ha).of_moves h
  | error stop => exact hx

theorem Comes.map {x : Except Stop α} {f : α → β} (hx : e.Comes s w m rest P x)
    (hf : ∀ a stack, P a stack → Q (f a) stack) : e.Comes s w m rest Q (x.map f) := by
  cases x with
  | ok a =>
      obtain ⟨stack, ha, h⟩ := hx
      exact ⟨stack, hf a stack ha, h⟩
  | error stop => exact hx

end Evaluation

/-! ## Items -/

/-- The effect of something that comes to a value or stops. -/
def Effect.ofResult (stack : List Operand) : Except Stop Value → Effect
  | .ok v => .push stack v
  | .error (.failure f) => .fail f
  | .error (.breakdown message) => .crash message
  | .error (.call callee args) => .call callee args stack

namespace Item

variable {s : Setting} {h : Heap} {env : Env} {read : Value → Value} {stack : List Operand}

theorem effect_load (n : String) :
    (Item.load n).effect s h env stack = .ofResult stack (View.named ⟨s, h, env, read⟩ n) := by
  simp only [effect, View.named]
  cases s.resolve h env n with
  | error f => rfl
  | ok v =>
      cases v with
      | extension x =>
          cases hauto : x.arity.autoInvoke with
          | false =>
              simp [Stop.ofExcept, bind, Except.bind, hauto, Effect.ofResult, pure, Except.pure]
          | true =>
              simp only [Stop.ofExcept, bind, Except.bind, hauto, if_true]
              cases x.call s.host h [] <;> rfl
      | _ => rfl

theorem callEffect_eq_ofResult (callee : Value) (args : List Value) :
    callEffect s h callee args false stack =
      .ofResult stack (View.apply ⟨s, h, env, read⟩ callee args) := by
  cases callee with
  | extension x =>
      change Effect.ofAnswer stack (x.checkedCall s.host h args) =
        .ofResult stack (Stop.ofAnswer (x.checkedCall s.host h args))
      cases x.checkedCall s.host h args <;> rfl
  | _ => rfl

/-- The arguments above a mark are taken off from left to right, and lose their boxes. -/
theorem popArgs_reverse (us : List Value) :
    Operand.popArgs h [] ((us.map Operand.value).reverse ++ .mark :: stack) =
      .ok (us.map h.unbox, stack) := by
  rw [← List.map_reverse, Operand.popArgs_map_value]
  simp

theorem effect_call (n : String) (us : List Value) :
    (Item.call n false).effect s h env ((us.map Operand.value).reverse ++ .mark :: stack) =
      .ofResult stack (do
        let callee ← Stop.ofExcept (s.resolve h env n)
        View.apply ⟨s, h, env, read⟩ callee (us.map h.unbox)) := by
  simp only [effect, popArgs_reverse]
  cases s.resolve h env n with
  | error f => rfl
  | ok callee => exact callEffect_eq_ofResult callee _

theorem effect_invoke (callee : Value) (us : List Value) :
    (Item.invoke false).effect s h env
        ((us.map Operand.value).reverse ++ .mark :: .value callee :: stack) =
      .ofResult stack (View.apply ⟨s, h, env, read⟩ (h.unbox callee) (us.map h.unbox)) := by
  simp only [effect, popArgs_reverse]
  exact callEffect_eq_ofResult (h.unbox callee) _

theorem effect_dot (v : Value) (f : String) :
    (Item.op .dot).effect s h env (.attr f :: .value v :: stack) =
      .ofResult stack (Stop.ofExcept (h.member v f)) := by
  change Effect.ofExcept (h.member v f >>= fun u => pure (Effect.push stack u)) = _
  cases h.member v f <;> rfl

theorem effect_unary (o : Operator.Unary) (hbackground : o.1 ≠ .background) (hwait : o.1 ≠ .wait)
    (v : Value) :
    (Item.op o).effect s h env (.value v :: stack) =
      .ofResult stack (Stop.ofExcept (h.unary o v)) := by
  obtain ⟨o, ho⟩ := o
  have heffect : (Item.op o).effect s h env (.value v :: stack) =
      Effect.ofExcept (h.unary o v >>= fun u => pure (Effect.push stack u)) := by
    cases o <;> first | contradiction | rfl
  rw [heffect]
  cases h.unary o v <;> rfl

theorem effect_binary (o : Operator.Binary) (v u : Value) :
    (Item.op o).effect s h env (.value u :: .value v :: stack) =
      .ofResult stack (Stop.ofExcept (h.binary o v u)) := by
  obtain ⟨o, ho, hdot⟩ := o
  have heffect : (Item.op o).effect s h env (.value u :: .value v :: stack) =
      Effect.ofExcept (h.binary o v u >>= fun x => pure (Effect.push stack x)) := by
    cases o <;> first | contradiction | rfl
  rw [heffect]
  cases h.binary o v u <;> rfl

end Item

namespace Evaluation

variable {s : Setting} {w : World} {e : Evaluation} {rest : List Item} {stack below : List Operand}

/-- A machine whose next item has the effect of a result comes to that result. -/
theorem comes_of_effect {i : Item} {r : Except Stop Value}
    (heffect : i.effect s w.heap e.scopes.current stack = .ofResult below r) :
    e.Comes s w (e.machine (i :: rest) stack) rest (Operand.Topped w.heap below) r := by
  have hstep : (e.machine (i :: rest) stack).step s w =
      (e.ended .run).evalItem s w (i :: rest) stack e.site := rfl
  rw [Machine.evalItem, show (e.ended .run).scopes = e.scopes from rfl, heffect] at hstep
  cases r with
  | ok v => exact ⟨_, ⟨v, rfl, rfl⟩, .single hstep⟩
  | error stop =>
      cases stop with
      | failure f => exact .failure (.single hstep)
      | breakdown message => exact .breakdown .refl hstep
      | call callee args => exact .call (.single hstep)

/-- An item that only adds a mark or the name of a field. -/
theorem moves_of_effect {i : Item}
    (heffect : i.effect s w.heap e.scopes.current stack = .next below) :
    (e.machine (i :: rest) stack).Moves s w (e.machine rest below) := by
  have hstep : (e.machine (i :: rest) stack).step s w =
      (e.ended .run).evalItem s w (i :: rest) stack e.site := rfl
  rw [Machine.evalItem, show (e.ended .run).scopes = e.scopes from rfl, heffect] at hstep
  exact .single hstep

end Evaluation

/-! ## Trees -/

namespace Heap

variable {h : Heap} {u v : Value}

/-- Fields are looked for without the boxes. -/
theorem member_congr (huv : h.unbox u = h.unbox v) (f : String) : h.member u f = h.member v f := by
  simp only [member, memberBy, huv]

theorem unary_congr (huv : h.unbox u = h.unbox v) (o : Operator) : h.unary o u = h.unary o v := by
  simp only [unary, huv]

theorem binary_congr {u' v' : Value} (huv : h.unbox u = h.unbox v) (huv' : h.unbox u' = h.unbox v')
    (o : Operator) : h.binary o u u' = h.binary o v v' := by
  simp only [binary, huv, huv']

/-- On a bare heap there is no box inside a box, so a field can be read at once. -/
theorem Bare.unbox_unbox (hbare : h.Bare) (v : Value) : h.unbox (h.unbox v) = h.unbox v := by
  cases v with
  | field b =>
      rw [hbare.unbox_field b]
      exact h.unbox_of_isBare (hbare.boxes b)
  | _ => rfl

end Heap

section Trees

variable {s : Setting} {w : World} {read : Value → Value} (e : Evaluation)

/-- The field of a value that is on top. -/
theorem Evaluation.comes_access (hread : ∀ v, w.heap.unbox (read v) = w.heap.unbox v) {v u : Value}
    (huv : w.heap.unbox u = w.heap.unbox v) (f : String) (rest : List Item)
    (stack : List Operand) :
    e.Comes s w (e.machine (.attr f :: .op .dot :: rest) (.value u :: stack)) rest
      (Operand.Topped w.heap stack) (View.access ⟨s, w.heap, e.scopes.current, read⟩ v f) := by
  refine Comes.of_moves (moves_of_effect rfl) ?_
  have heffect : (Item.op .dot).effect s w.heap e.scopes.current (.attr f :: .value u :: stack) =
      .ofResult stack (Stop.ofExcept (w.heap.member u f)) := Item.effect_dot u f
  rw [Heap.member_congr huv] at heffect
  refine (comes_of_effect heffect).map ?_
  rintro x stack' ⟨y, hy, rfl⟩
  exact ⟨y, hy.trans (hread x).symm, rfl⟩

mutual

theorem Primary.comes (hread : ∀ v, w.heap.unbox (read v) = w.heap.unbox v) (p : Primary)
    (hfree : p.isTaskFree = true) (rest : List Item) (stack : List Operand) :
    e.Comes s w (e.machine (p.items false ++ rest) stack) rest (Operand.Topped w.heap stack)
      (p.eval ⟨s, w.heap, e.scopes.current, read⟩) := by
  cases p with
  | literal l =>
      rw [Primary.eval, Primary.items]
      exact Evaluation.comes_of_effect (r := .ok l.toValue) rfl
  | name n =>
      rw [Primary.eval, Primary.items]
      exact Evaluation.comes_of_effect (Item.effect_load n)
  | call n args =>
      rw [Primary.isTaskFree] at hfree
      rw [Primary.eval, Primary.items]
      simp only [List.cons_append, List.append_assoc, List.nil_append]
      refine Evaluation.Comes.of_moves (Evaluation.moves_of_effect rfl) ?_
      refine (Tree.comesAll hread args hfree _ _).bind ?_
      rintro vs stack' ⟨us, hus, rfl⟩
      rw [← hus]
      exact Evaluation.comes_of_effect (Item.effect_call n us)
  | field p f =>
      rw [Primary.isTaskFree] at hfree
      rw [Primary.eval, Primary.items, List.append_assoc]
      refine (Primary.comes hread p hfree _ _).bind ?_
      rintro v stack' ⟨u, hu, rfl⟩
      exact e.comes_access hread hu f rest stack
  | invoke p f args =>
      rw [Primary.isTaskFree, Bool.and_eq_true] at hfree
      rw [Primary.eval, Primary.items]
      simp only [List.cons_append, List.append_assoc, List.nil_append]
      refine (Primary.comes hread p hfree.1 _ _).bind ?_
      rintro v stack' ⟨u, hu, rfl⟩
      refine (e.comes_access hread hu f _ stack).bind ?_
      rintro callee stack' ⟨c, hc, rfl⟩
      refine Evaluation.Comes.of_moves (Evaluation.moves_of_effect rfl) ?_
      refine (Tree.comesAll hread args hfree.2 _ _).bind ?_
      rintro vs stack' ⟨us, hus, rfl⟩
      rw [← hus, ← hc]
      exact Evaluation.comes_of_effect (Item.effect_invoke c us)
  | group t =>
      rw [Primary.isTaskFree] at hfree
      rw [Primary.eval, Primary.items]
      exact Tree.comes hread t hfree rest stack

theorem Tree.comes (hread : ∀ v, w.heap.unbox (read v) = w.heap.unbox v) (t : Tree)
    (hfree : t.isTaskFree = true) (rest : List Item) (stack : List Operand) :
    e.Comes s w (e.machine (t.items false ++ rest) stack) rest (Operand.Topped w.heap stack)
      (t.eval ⟨s, w.heap, e.scopes.current, read⟩) := by
  cases t with
  | operand p =>
      rw [Tree.isTaskFree] at hfree
      rw [Tree.eval, Tree.items]
      exact Primary.comes hread p hfree rest stack
  | unary o t =>
      simp only [Tree.isTaskFree, Bool.and_eq_true, bne_iff_ne] at hfree
      obtain ⟨⟨hbackground, hwait⟩, hfree⟩ := hfree
      rw [Tree.eval, Tree.items, decide_eq_false hbackground, List.append_assoc]
      refine (Tree.comes hread t hfree _ _).bind ?_
      rintro v stack' ⟨u, hu, rfl⟩
      rw [← Heap.unary_congr hu]
      exact Evaluation.comes_of_effect (Item.effect_unary o hbackground hwait u)
  | binary o l r =>
      rw [Tree.isTaskFree, Bool.and_eq_true] at hfree
      rw [Tree.eval, Tree.items, List.append_assoc, List.append_assoc]
      refine (Tree.comes hread l hfree.1 _ _).bind ?_
      rintro v stack' ⟨u, hu, rfl⟩
      refine (Tree.comes hread r hfree.2 _ _).bind ?_
      rintro v' stack' ⟨u', hu', rfl⟩
      rw [← Heap.binary_congr hu hu']
      exact Evaluation.comes_of_effect (Item.effect_binary o u u')

theorem Tree.comesAll (hread : ∀ v, w.heap.unbox (read v) = w.heap.unbox v) (ts : List Tree)
    (hfree : Tree.areTaskFree ts = true) (rest : List Item) (stack : List Operand) :
    e.Comes s w (e.machine (Tree.listItems ts ++ rest) stack) rest (Operand.ToppedAll w.heap stack)
      (Tree.evalAll ⟨s, w.heap, e.scopes.current, read⟩ ts) := by
  cases ts with
  | nil =>
      rw [Tree.evalAll, Tree.listItems]
      exact ⟨stack, ⟨[], rfl, rfl⟩, .refl⟩
  | cons t ts =>
      rw [Tree.areTaskFree, Bool.and_eq_true] at hfree
      rw [Tree.evalAll, Tree.listItems, List.append_assoc]
      refine (Tree.comes hread t hfree.1 _ _).bind ?_
      rintro v stack' ⟨u, hu, rfl⟩
      refine (Tree.comesAll hread ts hfree.2 _ _).bind ?_
      rintro vs stack' ⟨us, hus, rfl⟩
      refine ⟨_, ⟨u :: us, ?_, ?_⟩, .refl⟩
      · rw [List.map_cons, List.map_cons, hu, hus]
      · simp

end

/-- A machine that evaluates the items of a tree ends with what the tree comes to. -/
theorem Tree.ends (hread : ∀ v, w.heap.unbox (read v) = w.heap.unbox v) (t : Tree)
    (hfree : t.isTaskFree = true) :
    e.Ends s w (e.machine (t.items false) []) (t.eval ⟨s, w.heap, e.scopes.current, read⟩) := by
  have hcomes := Tree.comes (s := s) e hread t hfree [] []
  rw [List.append_nil] at hcomes
  cases heval : t.eval ⟨s, w.heap, e.scopes.current, read⟩ with
  | error stop =>
      rw [heval] at hcomes
      exact hcomes
  | ok v =>
      rw [heval] at hcomes
      obtain ⟨stack, ⟨u, hu, rfl⟩, hmoves⟩ := hcomes
      refine hmoves.tail ?_
      rw [← hu]
      rfl

end Trees

/-! ## Compiled expressions -/

theorem Tree.compile_tokens {t : Tree} (ht : t.PrecedenceCorrect) {raws : List String}
    (hraws : Token.classify raws = .ok t.tokens) (site : Location) :
    Expression.compile ⟨raws, site⟩ = .ok ⟨t.items false, site⟩ := by
  have hread := Tree.read?_eq_some_iff.mpr ⟨ht, rfl⟩
  have hshape := Tree.validate_of_read? hread
  have hconvert := Tree.convert_toOption (Token.classifyAfter_isProper hraws) hshape
  rw [hread] at hconvert
  have hitems : Pending.convert t.tokens = .ok (t.items false) := by
    cases hx : Pending.convert t.tokens with
    | error fault =>
        rw [hx] at hconvert
        contradiction
    | ok items =>
        rw [hx] at hconvert
        rw [Option.some.inj hconvert]
  have hall : Code.itemsOf raws = .ok (t.items false) := by
    rw [Code.itemsOf, hraws]
    change (do Token.validate t.tokens; Pending.convert t.tokens) = _
    rw [hshape]
    exact hitems
  rw [Expression.compile, hall]

namespace Machine

variable {s : Setting} {w : World} {m m' m'' : Machine} {r : Carried}

/-- A machine is carried on from step to step, given enough fuel for where it gets to. -/
theorem Moves.resume (hmoves : m.Moves s w m')
    (h : ∃ n, ∀ fuel, n ≤ fuel → m'.resume s fuel w = r) :
    ∃ n, ∀ fuel, n ≤ fuel → m.resume s fuel w = r := by
  induction hmoves using ReflTransGen.head_induction_on with
  | refl => exact h
  | head hstep _ ih =>
      obtain ⟨n, hn⟩ := ih
      refine ⟨n + 1, fun fuel hfuel => ?_⟩
      obtain ⟨fuel, rfl⟩ := Nat.exists_eq_add_of_le' hfuel
      rw [← Nat.add_assoc, Machine.resume, hstep]
      exact hn _ (Nat.le_add_left n fuel)

theorem resume_of_frames_nil (hframes : m.frames = []) :
    ∃ n, ∀ fuel, n ≤ fuel → m.resume s fuel w = ⟨.finished, w, m⟩ := by
  refine ⟨1, fun fuel hfuel => ?_⟩
  obtain ⟨fuel, rfl⟩ := Nat.exists_eq_add_of_le' hfuel
  rw [Machine.resume]
  simp only [step, hframes]

theorem resume_of_crash {message : Option String} (hcrash : m.step s w = ⟨.crash message, w, m'⟩) :
    ∃ n, ∀ fuel, n ≤ fuel → m.resume s fuel w = ⟨.crashed message, w, m'⟩ := by
  refine ⟨1, fun fuel hfuel => ?_⟩
  obtain ⟨fuel, rfl⟩ := Nat.exists_eq_add_of_le' hfuel
  rw [Machine.resume, hcrash]

end Machine

/-- A machine that was begun for an expression has been carried to what the expression comes to. The
place of the expression is that of its failures. Calls of other than extensions lead further. -/
def Carried.Answers (h : Heap) (site : Location) (r : Carried) : Except Stop Value → Prop
  | .ok v => r.progress = .finished ∧ r.machine.outcome = .ok (h.unbox v)
  | .error (.failure f) => r.progress = .finished ∧ r.machine.outcome = .error (f.locate site)
  | .error (.breakdown message) => r.progress = .crashed message
  | .error (.call _ _) => True

theorem Evaluation.Ends.answers {s : Setting} {w : World} {e : Evaluation} {m : Machine}
    {x : Except Stop Value} (h : e.Ends s w m x) (hbelow : e.below = []) :
    ∃ n, ∀ fuel, n ≤ fuel → (m.resume s fuel w).Answers w.heap e.site x := by
  cases x with
  | ok v =>
      obtain ⟨n, hn⟩ := Machine.Moves.resume h (Machine.resume_of_frames_nil hbelow)
      refine ⟨n, fun fuel hfuel => ?_⟩
      rw [hn fuel hfuel]
      exact ⟨rfl, rfl⟩
  | error stop =>
      cases h with
      | failure hmoves =>
          obtain ⟨n, hn⟩ := hmoves.resume (Machine.resume_of_frames_nil hbelow)
          refine ⟨n, fun fuel hfuel => ?_⟩
          rw [hn fuel hfuel]
          exact ⟨rfl, rfl⟩
      | breakdown hmoves hcrash =>
          obtain ⟨n, hn⟩ := hmoves.resume (Machine.resume_of_crash hcrash)
          refine ⟨n, fun fuel hfuel => ?_⟩
          rw [hn fuel hfuel]
          exact rfl
      | call => exact ⟨0, fun _ _ => trivial⟩

/-- A tree that neither schedules a task nor waits for one means what its compiled form does. The
tokens that it is written as compile; and wherever the code is evaluated, for whatever frames below,
in whatever scopes and whatever the world is like, the machine gets to what the tree comes to there:
to its value, without a box, to its first failure, at the place of the expression, to the breakdown
of the host, or to the call of something that is no extension. A machine that was begun for the code
is carried there in one go, given enough fuel.

A field may be read when it is accessed or when it is used. -/
theorem Tree.meaning_of_compile (t : Tree) (ht : t.PrecedenceCorrect) (hfree : t.isTaskFree = true)
    (raws : List String) (hraws : Token.classify raws = .ok t.tokens) (site : Location) :
    ∃ c, Expression.compile ⟨raws, site⟩ = .ok c ∧
      ∀ (s : Setting) (w : World) (read : Value → Value),
        (∀ v, w.heap.unbox (read v) = w.heap.unbox v) →
        (∀ e : Evaluation, e.site = site →
          e.Ends s w (e.machine c.items []) (t.eval ⟨s, w.heap, e.scopes.current, read⟩)) ∧
        ∀ env, ∃ n, ∀ fuel, n ≤ fuel →
          ((Machine.ofCode env c).resume s fuel w).Answers w.heap site
            (t.eval ⟨s, w.heap, env, read⟩) := by
  refine ⟨⟨t.items false, site⟩, t.compile_tokens ht hraws site, fun s w read hread => ⟨?_, ?_⟩⟩
  · intro e he
    exact t.ends e hread hfree
  · intro env
    let e : Evaluation := ⟨site, ⟨env, []⟩, 0, []⟩
    exact (t.ends e hread hfree).answers rfl

def fieldLength : Tree :=
  .binary ⟨.add, by decide⟩ (.operand (.call "f" [.operand (.field (.name "o") "x")]))
    (.unary ⟨.neg, rfl⟩ (.operand (.name "n")))

/-- A world in which the field of `o` has three letters, and `n` is two. -/
def fieldWorld : World :=
  let w := World.new default
  let h := ((w.heap.newObject default).1.setField 0 "x" (.text "low")).define 0 "o" (.object 0)
  { w with heap := h.define 0 "n" (.int 2) }

/-- A setting in which `f` is the length of a text. -/
def lengthSetting : Setting where
  registry := ⟨[("f", .extension (Primitive.toExtension .length))], [], ""⟩
  config := default
  host := Host.none

/-- A field, an extension and two operators come to one, with the field read at once. -/
theorem Tree.meaning_of_compile_length :
    ∃ c, Expression.compile ⟨["f", "(", "o", ".", "x", ")", "+", "-", "n"], default⟩ = .ok c ∧
      ∃ n, ∀ fuel, n ≤ fuel →
        ((Machine.ofCode World.globals c).resume lengthSetting fuel fieldWorld).machine.outcome =
          .ok (.int 1) := by
  have ht : fieldLength.PrecedenceCorrect := by
    simp [fieldLength, Tree.PrecedenceCorrect, Primary.PrecedenceCorrect,
      Tree.AllPrecedenceCorrect, Tree.EdgeFits, Tree.RootFits, Tree.OperandFits, Tree.rightEdge,
      Tree.binaryRoot?]
  have hfree : fieldLength.isTaskFree = true := by decide
  have hclassify : Token.classify ["f", "(", "o", ".", "x", ")", "+", "-", "n"] =
      .ok fieldLength.tokens := by
    cbv
  have hbare : fieldWorld.heap.Bare := by
    have hobject : ((Heap.empty.newScope "global").1.newObject default).1.Bare :=
      (Heap.bare_empty.newScope "global").of_eq rfl rfl rfl
    exact ((hobject.setField rfl 0 "x").define rfl 0 "o").define rfl 0 "n"
  have heval : fieldLength.eval ⟨lengthSetting, fieldWorld.heap, World.globals,
      fieldWorld.heap.unbox⟩ = .ok (.int 1) := by
    rfl
  obtain ⟨c, hc, hmeaning⟩ := fieldLength.meaning_of_compile ht hfree _ hclassify default
  obtain ⟨n, hn⟩ := (hmeaning lengthSetting fieldWorld fieldWorld.heap.unbox
    hbare.unbox_unbox).2 World.globals
  refine ⟨c, hc, n, fun fuel hfuel => ?_⟩
  have hanswers := hn fuel hfuel
  rw [heval] at hanswers
  exact hanswers.2

end Statute
