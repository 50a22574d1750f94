import Statute.Proofs.Machine.Repertoire
import Statute.Proofs.Machine.Succession
import Mathlib.Algebra.GroupWithZero.Nat
import Mathlib.Algebra.Order.BigOperators.Group.List
import Mathlib.Algebra.Order.Group.Nat

/-!
# The weight of what is still to be done

Code has a weight: so much for each statement and for each item of an expression, and for an item
that calls the weight `k` of a call on top. How much a call weighs depends on how many more calls
may begin inside it, and at the limit of calls none may. So all weights can be computed from the
code of a program, if the defaults of parameters do not call: these are evaluated before the limit
is looked at.

From the weights two numbers are read off a frame. `Frame.cost` bounds how many steps the frame can
still take before the next checkpoint: with every step that goes on the costs of all frames get less
in total. `Frame.height` bounds how many frames there can be from this one upwards at any later
time: what takes the place of a frame stays below its height. The two differ for loops, which go on
after a checkpoint with as much as before.
-/

namespace Statute

/-! ## Code -/

def Item.weight (k : Nat) (i : Item) : Nat :=
  if i.calls then k + 1 else 1

/-- The weight of items that are evaluated one after the other, and of their result. -/
def Item.weights (k : Nat) (items : List Item) : Nat :=
  (items.map (Item.weight k)).sum + 2

/-- The weight of an expression. -/
def Expression.weight (k : Nat) (e : Expression) : Nat :=
  match e.compile with
  | .ok c => Item.weights k c.items
  | .error _ => 0

mutual

/-- The weight of a statement, with the bodies inside it. -/
def Statement.weight (k : Nat) : Statement → Nat
  | .declare _ e => e.weight k + 2
  | .assign _ e => e.weight k + 2
  | .choose branches none => Branch.weights k branches + 2
  | .choose branches (some body) => Branch.weights k branches + Body.weight k body + 2
  | .repeatFor _ lower upper body =>
      lower.weight k + upper.weight k + Body.weight k body + 4
  | .repeatWhile test body => test.weight k + Body.weight k body + 3
  | .attempt body handlers => Body.weight k body + Handler.weights k handlers + 2
  | .raise e => e.weight k + 2
  | .exclusive _ body => Body.weight k body + 3
  | .print e => e.weight k + 2
  | .returnWith none => 2
  | .returnWith (some e) => e.weight k + 2
  | .breakOut => 2
  | .continueOn => 2
  | .perform e => e.weight k + 2

def Body.weight (k : Nat) : List Statement → Nat
  | [] => 2
  | stmt :: rest => stmt.weight k + Body.weight k rest + 1

def Branch.weights (k : Nat) : List Branch → Nat
  | [] => 0
  | .mk test body :: rest => test.weight k + Body.weight k body + Branch.weights k rest + 2

def Handler.weights (k : Nat) : List Handler → Nat
  | [] => 0
  | .mk _ _ body :: rest => Body.weight k body + Handler.weights k rest

end

def Body.optionWeight (k : Nat) : Option Body → Nat
  | none => 0
  | some body => Body.weight k body

theorem Statement.weight_choose (k : Nat) (branches : List Branch) (otherwise : Option Body) :
    (Statement.choose branches otherwise).weight k =
      Branch.weights k branches + Body.optionWeight k otherwise + 2 := by
  cases otherwise <;> simp [Statement.weight, Body.optionWeight]

theorem Body.two_le_weight (k : Nat) (body : Body) : 2 ≤ Body.weight k body := by
  induction body with
  | nil => simp [Body.weight]
  | cons stmt rest ih =>
      rw [Body.weight]
      omega

theorem Statement.two_le_weight (k : Nat) (stmt : Statement) : 2 ≤ stmt.weight k := by
  cases stmt with
  | choose branches otherwise =>
      rw [Statement.weight_choose]
      omega
  | returnWith e => cases e <;> simp [Statement.weight]
  | breakOut => simp [Statement.weight]
  | continueOn => simp [Statement.weight]
  | _ =>
      rw [Statement.weight]
      omega

theorem Handler.weight_le {k : Nat} {handler : Handler} {handlers : List Handler}
    (h : handler ∈ handlers) : Body.weight k handler.body ≤ Handler.weights k handlers := by
  induction handlers with
  | nil => contradiction
  | cons first rest ih =>
      obtain ⟨cls, name, body⟩ := first
      rw [Handler.weights]
      rcases List.mem_cons.mp h with rfl | h
      · exact Nat.le_add_right _ _
      · exact Nat.le_trans (ih h) (Nat.le_add_left _ _)

@[simp] theorem Item.weights_cons (k : Nat) (i : Item) (items : List Item) :
    Item.weights k (i :: items) = i.weight k + Item.weights k items := by
  simp [Item.weights, Nat.add_assoc]

theorem Item.one_le_weight (k : Nat) (i : Item) : 1 ≤ i.weight k := by
  unfold Item.weight
  split <;> omega

theorem Item.two_le_weights (k : Nat) (items : List Item) : 2 ≤ Item.weights k items :=
  Nat.le_add_left _ _

/-- Items that do not call weigh the same, whatever a call weighs. -/
theorem Item.weights_of_calls {items : List Item} (h : ∀ i ∈ items, i.calls = false) (k : Nat) :
    Item.weights k items = Item.weights 0 items := by
  induction items with
  | nil => rfl
  | cons i items ih =>
      obtain ⟨hi, hitems⟩ := List.forall_mem_cons.mp h
      simp [ih hitems, Item.weight, hi]

theorem Expression.weight_of_compile {e : Expression} {c : Code} (h : e.compile = .ok c)
    (k : Nat) : e.weight k = Item.weights k c.items := by
  simp [Expression.weight, h]

/-! ## Calls -/

/-- Whether the default of a parameter calls. -/
def Param.defaultCalls (p : Param) : Bool :=
  match p.default.map Expression.compile with
  | some (.ok c) => c.items.any Item.calls
  | _ => false

theorem Param.calls_eq_false {p : Param} {e : Expression} {c : Code}
    (h : p.defaultCalls = false) (hdefault : p.default = some e) (hcode : e.compile = .ok c) :
    ∀ i ∈ c.items, i.calls = false := by
  simpa [Param.defaultCalls, hdefault, hcode] using h

def Param.weight (p : Param) : Nat :=
  (p.default.map (Expression.weight 0)).getD 0 + 1

def Param.weights (params : List Param) : Nat :=
  (params.map Param.weight).sum

theorem Param.weights_le_of_suffix {ps qs : List Param} (h : ps <:+ qs) :
    Param.weights ps ≤ Param.weights qs := by
  obtain ⟨rs, rfl⟩ := h
  simp [Param.weights]

namespace Repertoire

def DefaultsDoNotCall (R : Repertoire) : Prop :=
  ∀ p ∈ R.procedures, ∀ q ∈ p.params, q.defaultCalls = false

instance : DecidablePred DefaultsDoNotCall := fun R =>
  inferInstanceAs (Decidable (∀ p ∈ R.procedures, ∀ q ∈ p.params, q.defaultCalls = false))

variable (R : Repertoire)

def defaults : Nat :=
  (R.procedures.map fun p => Param.weights p.params).sum

/-- The weight of a call of a procedure whose body, once entered, has the given weight. -/
def bindWeight (entry : Nat) : Nat :=
  R.defaults + entry + 3

def constructWeight (entry levels : Nat) : Nat :=
  levels * (R.bindWeight entry + 7) + 2

def callWeight (entry : Nat) : Nat :=
  R.bindWeight entry + R.constructWeight entry R.generations + 1

/-- The weight of a body that has been entered where so many calls may still begin. -/
def entry : Nat → Nat
  | 0 => 0
  | r + 1 => (R.procedures.map fun p => Body.weight (R.callWeight (entry r)) p.body).sum + 4

/-- The weight of a call where so many may still begin. -/
def call (r : Nat) : Nat :=
  R.callWeight (R.entry r)

variable {R}

theorem params_le_defaults {p : Procedure} (hp : p ∈ R.procedures) :
    Param.weights p.params ≤ R.defaults :=
  List.single_le_sum (fun _ _ => Nat.zero_le _) _ (List.mem_map.mpr ⟨p, hp, rfl⟩)

theorem body_le_entry {p : Procedure} (hp : p ∈ R.procedures) (r : Nat) :
    Body.weight (R.call r) p.body + 4 ≤ R.entry (r + 1) := by
  have hsum : Body.weight (R.call r) p.body ≤
      (R.procedures.map fun p => Body.weight (R.callWeight (R.entry r)) p.body).sum :=
    List.single_le_sum (fun _ _ => Nat.zero_le _) _ (List.mem_map.mpr ⟨p, hp, rfl⟩)
  exact Nat.add_le_add_right hsum 4

theorem constructWeight_succ (entry levels : Nat) :
    R.constructWeight entry (levels + 1) =
      R.constructWeight entry levels + R.bindWeight entry + 7 := by
  unfold constructWeight
  rw [Nat.add_mul]
  omega

theorem constructWeight_mono (entry : Nat) {levels levels' : Nat} (h : levels ≤ levels') :
    R.constructWeight entry levels ≤ R.constructWeight entry levels' :=
  Nat.add_le_add_right (Nat.mul_le_mul_right _ h) 2

end Repertoire

/-! ## Frames -/

namespace Frame

/-- How many steps a frame can still take before the next checkpoint, where so many calls may still
begin. -/
def cost (R : Repertoire) (r : Nat) : Frame → Nat
  | .body rest _ false => Body.weight (R.call r) rest
  | .branch _ b rest otherwise =>
      Body.weight (R.call r) b + Branch.weights (R.call r) rest +
        Body.optionWeight (R.call r) otherwise + 2
  | .lower _ _ e _ => e.weight (R.call r) + 2
  | .again e _ => e.weight (R.call r) + 3
  | .guard handlers => Handler.weights (R.call r) handlers + 2
  | .enter _ b => Body.weight (R.call r) b + 3
  | .eval items _ _ => Item.weights (R.call r) items
  | .call callee _ _ =>
      if callee.procedure?.isSome then R.bindWeight (R.entry r)
      else R.constructWeight (R.entry r) R.generations + 1
  | .supply _ rest => Param.weights rest + R.entry r + 2
  | .construct cls _ _ => R.constructWeight (R.entry r) cls.levels.length
  | .adopt _ _ _ _ _ => R.bindWeight (R.entry r) + 5
  | _ => 2

/-- How many frames there can be from a frame upwards at any later time, where so many calls may
still begin. -/
def height (R : Repertoire) (r : Nat) : Frame → Nat
  | .body rest _ _ => Body.weight (R.call r) rest
  | .lower _ _ e b => e.weight (R.call r) + Body.weight (R.call r) b + 3
  | .upper _ _ _ b => Body.weight (R.call r) b + 2
  | .count _ _ _ b => Body.weight (R.call r) b + 2
  | .test e b => e.weight (R.call r) + Body.weight (R.call r) b + 2
  | .again e b => e.weight (R.call r) + Body.weight (R.call r) b + 2
  | f => f.cost R r

variable {R : Repertoire} {r : Nat}

theorem two_le_cost (f : Frame) : 2 ≤ f.cost R r := by
  cases f with
  | body rest own begun =>
      cases begun with
      | true => exact Nat.le_refl 2
      | false => exact Body.two_le_weight _ rest
  | eval items stack site => exact Item.two_le_weights _ items
  | call callee args site =>
      simp only [cost, Repertoire.bindWeight, Repertoire.constructWeight]
      split <;> omega
  | construct cls args site => exact Nat.le_add_left _ _
  | _ =>
      simp only [cost]
      omega

theorem two_le_height (f : Frame) : 2 ≤ f.height R r := by
  cases f with
  | body rest own begun => exact Body.two_le_weight _ rest
  | lower var site upper body => exact Nat.le_add_left 2 _
  | upper var next site body => exact Nat.le_add_left 2 _
  | count var next last body => exact Nat.le_add_left 2 _
  | test test body => exact Nat.le_add_left 2 _
  | again test body => exact Nat.le_add_left 2 _
  | _ =>
      simp only [height]
      exact two_le_cost _

/-- How many calls may still begin above frames. -/
def room (limit : Nat) (fs : List Frame) : Nat :=
  limit - fs.countP isCall

@[simp] theorem room_cons {limit : Nat} {f : Frame} {fs : List Frame} :
    room limit (f :: fs) = room limit fs - if f.isCall then 1 else 0 := by
  unfold room
  rw [List.countP_cons]
  omega

def costs (R : Repertoire) (limit : Nat) : List Frame → Nat
  | [] => 0
  | f :: fs => f.cost R (room limit fs) + costs R limit fs

def Below (R : Repertoire) (limit bound : Nat) : List Frame → Prop
  | [] => True
  | f :: fs => fs.length + f.height R (room limit fs) ≤ bound ∧ Below R limit bound fs

theorem Below.push {limit bound : Nat} {f : Frame} {fs : List Frame} (h : Below R limit bound fs)
    (hf : fs.length + f.height R (room limit fs) ≤ bound) : Below R limit bound (f :: fs) :=
  ⟨hf, h⟩

/-- Two frames are put on top of others, where the lower one is no call. -/
theorem Below.push₂ {limit bound : Nat} {f g : Frame} {fs : List Frame}
    (h : Below R limit bound fs) (hcall : f.isCall = false)
    (hf : fs.length + f.height R (room limit fs) ≤ bound)
    (hg : fs.length + g.height R (room limit fs) + 1 ≤ bound) :
    Below R limit bound (g :: f :: fs) := by
  refine (h.push hf).push ?_
  simp only [List.length_cons, room_cons, hcall, Bool.false_eq_true, if_false, Nat.sub_zero]
  omega

theorem Below.length_le {limit bound : Nat} {fs : List Frame} (h : Below R limit bound fs) :
    fs.length ≤ bound := by
  cases fs with
  | nil => exact Nat.zero_le bound
  | cons f fs =>
      have hheight := two_le_height (R := R) (r := room limit fs) f
      have hle := h.1
      rw [List.length_cons]
      omega

end Frame

/-- A frame that waits for the first expression of a statement is no call, and both together weigh
no more than the statement. -/
theorem Statement.weights_of_waiting? {stmt : Statement} {f : Frame} {e : Expression}
    (h : stmt.waiting? = some (f, e)) (R : Repertoire) (r : Nat) :
    f.isCall = false ∧ e.weight (R.call r) + f.cost R r ≤ stmt.weight (R.call r) ∧
      f.height R r ≤ stmt.weight (R.call r) := by
  cases stmt with
  | returnWith e =>
      cases e with
      | none => cases h
      | some e =>
          cases h
          simp [Frame.isCall, Frame.cost, Frame.height, weight]
  | repeatFor var lower upper body =>
      cases h
      simp only [Frame.isCall, Frame.cost, Frame.height, weight, true_and]
      omega
  | repeatWhile test body =>
      cases h
      simp only [Frame.isCall, Frame.cost, Frame.height, weight, true_and]
      omega
  | choose branches otherwise => cases h
  | attempt body handlers => cases h
  | exclusive lock body => cases h
  | breakOut => cases h
  | continueOn => cases h
  | _ =>
      cases h
      simp [Frame.isCall, Frame.cost, Frame.height, weight]

/-- What it takes to hand a signal on. -/
def Signal.cost : Signal → Nat
  | .value _ => 1
  | .leave .breakOut => 1
  | .leave .continueOn => 1
  | _ => 0

@[simp] theorem Signal.cost_run : Signal.run.cost = 0 := rfl

@[simp] theorem Signal.cost_value (v : Value) : (Signal.value v).cost = 1 := rfl

@[simp] theorem Signal.cost_fail (failure : Failure) :
    (Signal.leave (.failWith failure)).cost = 0 := rfl

theorem Signal.cost_le_one (sig : Signal) : sig.cost ≤ 1 := by
  rcases sig with _ | _ | (_ | _ | _ | _) <;> simp [Signal.cost]

/-! ## What takes the place of a frame costs less -/

section

open Statute.Frame (room costs)

variable {R : Repertoire} {limit depth : Nat} {f : Frame} {fs gs : List Frame}
  {sig sig' : Signal}

theorem Evaluates.costs_le {e : Expression} (h : Evaluates f e gs sig) (hf : f.isCall = false)
    (R : Repertoire) (limit : Nat) (fs : List Frame) :
    costs R limit (gs ++ fs) + sig.cost ≤
      e.weight (R.call (room limit fs)) + f.cost R (room limit fs) + costs R limit fs := by
  cases h with
  | begun hcode =>
      simp [costs, hf, Frame.cost, Expression.weight_of_compile hcode]
      omega
  | refused failure =>
      simp only [List.nil_append, Signal.cost_fail]
      omega

theorem Chooses.costs_le {branches : List Branch} {otherwise : Option Body}
    (h : Chooses otherwise branches gs sig) (R : Repertoire) (limit : Nat) (fs : List Frame) :
    costs R limit (gs ++ fs) + sig.cost ≤
      Branch.weights (R.call (room limit fs)) branches +
        Body.optionWeight (R.call (room limit fs)) otherwise + costs R limit fs := by
  cases h with
  | tests htest =>
      have hle := htest.costs_le rfl R limit fs
      rw [Frame.cost] at hle
      rw [Branch.weights]
      omega
  | otherwise hbody =>
      simp [costs, Frame.cost, hbody, Body.optionWeight]
  | nothing => simp

theorem Begins.costs_le {stmt : Statement} (h : Begins stmt gs sig) (R : Repertoire)
    (limit : Nat) (fs : List Frame) :
    costs R limit (gs ++ fs) + sig.cost ≤
      stmt.weight (R.call (room limit fs)) + costs R limit fs := by
  cases h with
  | @evaluates _ f e _ _ hwaiting he =>
      obtain ⟨hcall, hcost, -⟩ := Statement.weights_of_waiting? hwaiting R (room limit fs)
      have hle := he.costs_le hcall R limit fs
      omega
  | chooses h =>
      rw [Statement.weight_choose]
      exact Nat.le_trans (h.costs_le R limit fs) (by omega)
  | attempts body handlers =>
      simp [costs, Frame.isCall, Frame.cost, Statement.weight]
      omega
  | excludes lock body =>
      simp [costs, Frame.cost, Statement.weight]
  | leaves stmt e =>
      have hone := Signal.cost_le_one (.leave e)
      have htwo := stmt.two_le_weight (R.call (room limit fs))
      rw [List.nil_append]
      omega

/-- The parameters that remain weigh what is still to be supplied. -/
theorem Supplies.costs_le {c : Call} {params : List Param}
    (h : Supplies limit (fs.countP Frame.isCall) c params gs sig) (hR : R.DefaultsDoNotCall)
    (hc : c.procedure ∈ R.procedures) (hparams : params <:+ c.procedure.params) :
    costs R limit (gs ++ fs) + sig.cost ≤
      Param.weights params + R.entry (room limit fs) + 1 + costs R limit fs := by
  cases h with
  | enters hdepth =>
      obtain ⟨r, hr⟩ : ∃ r, room limit fs = r + 1 :=
        Nat.exists_eq_succ_of_ne_zero (Nat.sub_ne_zero_of_lt hdepth)
      have hbody := R.body_le_entry hc r
      simp [costs, Frame.isCall, Frame.cost, hr]
      omega
  | default hdefault hcode =>
      have hplain := Param.calls_eq_false (hR _ hc _ (hparams.mem List.mem_cons_self)) hdefault
        hcode
      simp [costs, Frame.isCall, Frame.cost, Param.weights, Param.weight, hdefault, Signal.cost,
        Expression.weight_of_compile hcode, Item.weights_of_calls hplain (R.call _)]
      omega
  | refused params failure =>
      simp only [List.nil_append, Signal.cost_fail]
      omega

theorem Initialises.costs_le {cls : Class} {site : Option Location}
    (h : Initialises cls site gs sig) (R : Repertoire) (limit : Nat) (fs : List Frame) :
    costs R limit (gs ++ fs) + sig.cost ≤
      R.bindWeight (R.entry (room limit fs)) + 2 + costs R limit fs := by
  cases h with
  | calls hctor object args =>
      simp [costs, Frame.isCall, Frame.cost, Value.procedure?]
      omega
  | ends sig =>
      have hone := sig.cost_le_one
      rw [List.nil_append]
      omega

/-- A call costs no more than the item that begins it. -/
theorem Frame.cost_call_le {R : Repertoire} {r : Nat} (callee : Value) (args : List Value)
    (site : Option Location) : (Frame.call callee args site).cost R r ≤ R.call r := by
  rw [Frame.cost, Repertoire.call, Repertoire.callWeight]
  split <;> omega

theorem Frame.costs_stops (f : Frame) {e : Exit} (hexit : e = .breakOut ∨ e = .continueOn)
    (hsig : sig = .run ∨ ∃ failure, sig = .leave (.failWith failure)) (R : Repertoire)
    (limit : Nat) (fs : List Frame) :
    costs R limit (f :: fs) + sig.cost < costs R limit (f :: fs) + (Signal.leave e).cost := by
  have hzero : sig.cost = 0 := by
    rcases hsig with rfl | ⟨failure, rfl⟩ <;> rfl
  have hone : (Signal.leave e).cost = 1 := by
    rcases hexit with rfl | rfl <;> rfl
  omega

theorem Begins.costs_lt {stmt : Statement} (h : Begins stmt gs sig) (R : Repertoire) (limit : Nat)
    (fs : List Frame) (rest : Body) (own : Bool) :
    costs R limit (gs ++ .body rest own true :: fs) + sig.cost <
      costs R limit (.body (stmt :: rest) own false :: fs) := by
  have hle := h.costs_le R limit (.body rest own true :: fs)
  have htwo := Body.two_le_weight (R.call (room limit fs)) rest
  simp [costs, Frame.isCall, Frame.cost, Body.weight] at hle ⊢
  omega

theorem Frame.costs_item_lt (R : Repertoire) (limit : Nat) (fs : List Frame) (i : Item)
    (rest : List Item) (stack stack' : List Operand) (site : Location) :
    costs R limit (.eval rest stack' site :: fs) <
      costs R limit (.eval (i :: rest) stack site :: fs) := by
  have hone := i.one_le_weight (R.call (room limit fs))
  simp [costs, Frame.cost]
  omega

theorem Frame.costs_call_lt {i : Item} (hcalls : i.calls = true) (R : Repertoire) (limit : Nat)
    (fs : List Frame) (rest : List Item) (stack stack' : List Operand) (site : Location)
    (callee : Value) (args : List Value) :
    costs R limit (.call callee args (some site) :: .eval rest stack' site :: fs) <
      costs R limit (.eval (i :: rest) stack site :: fs) := by
  have hcall := cost_call_le (R := R) (r := room limit fs) callee args (some site)
  simp [costs, Frame.isCall, Frame.cost, Item.weight, hcalls] at hcall ⊢
  omega

/-- Binding costs less than the call, of which some parameters may have been given. -/
theorem Supplies.costs_lt_call {callee : Value} {c : Call} {n : Nat} {args : List Value}
    (h : Supplies limit (fs.countP Frame.isCall) c (c.procedure.params.drop n) gs sig)
    (hR : R.DefaultsDoNotCall) (hc : c.procedure ∈ R.procedures)
    (hcallee : callee.procedure? = some c.procedure) :
    costs R limit (gs ++ fs) + sig.cost < costs R limit (.call callee args c.site :: fs) := by
  have hle := h.costs_le hR hc (List.drop_suffix _ _)
  have hsuffix := Param.weights_le_of_suffix (List.drop_suffix n c.procedure.params)
  have hdefaults := R.params_le_defaults hc
  simp only [costs, Frame.cost, hcallee, Option.isSome_some, if_true, Repertoire.bindWeight]
  omega

theorem Supplies.costs_lt_supply {c c' : Call} {params : List Param}
    (h : Supplies limit (fs.countP Frame.isCall) c' params gs sig) (hR : R.DefaultsDoNotCall)
    (hc : c'.procedure ∈ R.procedures) (hparams : params <:+ c'.procedure.params) :
    costs R limit (gs ++ fs) + sig.cost < costs R limit (.supply c params :: fs) + 1 := by
  have hle := h.costs_le hR hc hparams
  simp only [costs, Frame.cost]
  omega

theorem Initialises.costs_lt {cls : Class} {site : Option Location} {args : List Value}
    (h : Initialises cls site gs sig) (R : Repertoire) (limit : Nat) (fs : List Frame) :
    costs R limit (gs ++ fs) + sig.cost < costs R limit (.construct cls args site :: fs) := by
  have hle := h.costs_le R limit fs
  simp only [costs, Frame.cost, Class.levels, List.length_cons, R.constructWeight_succ]
  omega

/-- Every step that goes on costs something. -/
theorem Frame.Becomes.costs_lt {f : Frame}
    (h : f.Becomes limit ((f :: fs).countP Frame.isCall) sig .next gs sig')
    (hR : R.DefaultsDoNotCall) (hf : f.Among R) :
    costs R limit (gs ++ fs) + sig'.cost < costs R limit (f :: fs) + sig.cost := by
  cases h with
  | ends f sig sig' =>
      have hone := sig'.cost_le_one
      have htwo := f.two_le_cost (R := R) (r := room limit fs)
      rw [List.nil_append, costs]
      omega
  | stops f hexit hsig => exact costs_stops f hexit hsig R limit fs
  | @begins stmt rest own gs sig' h =>
      rw [List.append_assoc]
      exact h.costs_lt R limit fs rest own
  | retests h =>
      have hle := h.costs_le rfl R limit fs
      simp only [costs, Frame.cost, Signal.cost_run] at hle ⊢
      omega
  | locks lock body =>
      simp [costs, Frame.isCall, Frame.cost]
      omega
  | goesOn i rest stack stack' site => exact costs_item_lt R limit fs i rest stack stack' site
  | calls hcalls rest stack stack' site callee args =>
      exact costs_call_lt hcalls R limit fs rest stack stack' site callee args
  | binds hcallee n h args =>
      rw [List.countP_cons_of_neg (by simp [Frame.isCall])] at h
      exact h.costs_lt_call hR (hf.1.mem_of_procedure? hcallee) hcallee
  | constructs cls args site =>
      have hle := R.constructWeight_mono (R.entry (room limit fs)) hf.1.levels
      simp [costs, Frame.cost, Value.procedure?]
      omega
  | initialises h args => exact h.costs_lt R limit fs
  | descends hparent object args args' taken site =>
      simp [costs, Frame.isCall, Frame.cost, Class.levels_of_parent? hparent,
        R.constructWeight_succ]
      omega
  | accepts site body rest otherwise v =>
      simp [costs, Frame.cost]
      omega
  | rejects h site body v =>
      have hle := h.costs_le R limit fs
      simp only [costs, Frame.cost, Signal.cost_value]
      omega
  | bounds h site v =>
      have hle := h.costs_le rfl R limit fs
      simp only [costs, Frame.cost, Signal.cost_value] at hle ⊢
      omega
  | bounded var next last site body v => simp [costs, Frame.cost]
  | receives items stack site v => simp [costs, Frame.cost]
  | supplies hc hsite h v =>
      rw [List.countP_cons_of_neg (by simp [Frame.isCall])] at h
      exact h.costs_lt_supply hR (hc ▸ hf.1.procedure) (hc ▸ hf.2)
  | adopts h object args taken v =>
      have hle := h.costs_le R limit fs
      simp only [costs, Frame.cost, Signal.cost_value]
      omega
  | handles hmem e =>
      have hle := Handler.weight_le (k := R.call (room limit fs)) hmem
      simp [costs, Frame.cost]
      omega

end

/-! ## What takes the place of a frame stays below its height -/

section

open Statute.Frame (room Below)

variable {R : Repertoire} {limit bound : Nat} {f : Frame} {fs gs : List Frame} {st : Step}
  {sig sig' : Signal}

theorem Evaluates.below {e : Expression} (h : Evaluates f e gs sig) (hf : f.isCall = false)
    (hfs : Below R limit bound fs) (hheight : fs.length + f.height R (room limit fs) ≤ bound)
    (he : fs.length + e.weight (R.call (room limit fs)) + 1 ≤ bound) :
    Below R limit bound (gs ++ fs) := by
  cases h with
  | begun hcode =>
      refine hfs.push₂ hf hheight ?_
      simpa only [Frame.height, Frame.cost, ← Expression.weight_of_compile hcode] using he
  | refused failure => exact hfs

theorem Chooses.below {branches : List Branch} {otherwise : Option Body}
    (h : Chooses otherwise branches gs sig) (hfs : Below R limit bound fs)
    (hheight : fs.length + Branch.weights (R.call (room limit fs)) branches +
      Body.optionWeight (R.call (room limit fs)) otherwise ≤ bound) :
    Below R limit bound (gs ++ fs) := by
  cases h with
  | @tests test body rest gs sig htest =>
      have htwo := Body.two_le_weight (R.call (room limit fs)) body
      rw [Branch.weights] at hheight
      refine htest.below rfl hfs ?_ ?_
      · simp only [Frame.height, Frame.cost]
        omega
      · omega
  | otherwise hbody =>
      simp only [Branch.weights, hbody, Body.optionWeight] at hheight
      exact hfs.push hheight
  | nothing => exact hfs

theorem Begins.below {stmt : Statement} (h : Begins stmt gs sig) (hfs : Below R limit bound fs)
    (hheight : fs.length + stmt.weight (R.call (room limit fs)) ≤ bound) :
    Below R limit bound (gs ++ fs) := by
  cases h with
  | @evaluates _ f e _ _ hwaiting he =>
      obtain ⟨hcall, hcost, hwaits⟩ := Statement.weights_of_waiting? hwaiting R (room limit fs)
      have htwo := f.two_le_cost (R := R) (r := room limit fs)
      exact he.below hcall hfs (by omega) (by omega)
  | chooses h =>
      rw [Statement.weight_choose] at hheight
      exact h.below hfs (by omega)
  | attempts body handlers =>
      rw [Statement.weight] at hheight
      refine hfs.push₂ rfl ?_ ?_
      · simp only [Frame.height, Frame.cost]
        omega
      · simp only [Frame.height]
        omega
  | excludes lock body =>
      rw [Statement.weight] at hheight
      exact hfs.push hheight
  | leaves stmt e => exact hfs

theorem Supplies.below {c : Call} {params : List Param}
    (h : Supplies limit (fs.countP Frame.isCall) c params gs sig) (hR : R.DefaultsDoNotCall)
    (hc : c.procedure ∈ R.procedures) (hparams : params <:+ c.procedure.params)
    (hfs : Below R limit bound fs)
    (hheight : fs.length + Param.weights params + R.entry (room limit fs) + 2 ≤ bound) :
    Below R limit bound (gs ++ fs) := by
  cases h with
  | enters hdepth =>
      obtain ⟨r, hr⟩ : ∃ r, room limit fs = r + 1 :=
        Nat.exists_eq_succ_of_ne_zero (Nat.sub_ne_zero_of_lt hdepth)
      have hbody := R.body_le_entry hc r
      rw [hr] at hheight
      refine (hfs.push (f := .running c) ?_).push ?_
      · simp only [Frame.height, Frame.cost]
        omega
      · simp [Frame.isCall, Frame.height, hr]
        omega
  | default hdefault hcode =>
      have hplain := Param.calls_eq_false (hR _ hc _ (hparams.mem List.mem_cons_self)) hdefault
        hcode
      simp [Param.weights, Param.weight, hdefault, Expression.weight_of_compile hcode] at hheight
      refine hfs.push₂ rfl ?_ ?_
      · simp only [Frame.height, Frame.cost, Param.weights]
        omega
      · simp only [Frame.height, Frame.cost, Item.weights_of_calls hplain (R.call _)]
        omega
  | refused params failure => exact hfs

theorem Initialises.below {cls : Class} {site : Option Location}
    (h : Initialises cls site gs sig) (hfs : Below R limit bound fs)
    (hheight : fs.length + R.bindWeight (R.entry (room limit fs)) + 2 ≤ bound) :
    Below R limit bound (gs ++ fs) := by
  cases h with
  | calls hctor object args =>
      refine hfs.push₂ rfl ?_ ?_
      · simp only [Frame.height, Frame.cost]
        omega
      · simp only [Frame.height, Frame.cost, Value.procedure?, Option.isSome_some, if_true]
        omega
  | ends sig => exact hfs

theorem Begins.below_body {stmt : Statement} {rest : Body} {own : Bool} (h : Begins stmt gs sig)
    (hbelow : Below R limit bound (.body (stmt :: rest) own false :: fs)) :
    Below R limit bound (gs ++ .body rest own true :: fs) := by
  obtain ⟨hheight, hfs⟩ := hbelow
  have htwo := stmt.two_le_weight (R.call (room limit fs))
  have htwo' := Body.two_le_weight (R.call (room limit fs)) rest
  simp only [Frame.height, Body.weight] at hheight
  refine h.below (hfs.push (f := .body rest own true) ?_) ?_
  · simp only [Frame.height]
    omega
  · simp [Frame.isCall]
    omega

theorem Frame.Below.item {i : Item} {rest : List Item} {stack stack' : List Operand}
    {site : Location} (hbelow : Below R limit bound (.eval (i :: rest) stack site :: fs)) :
    Below R limit bound (.eval rest stack' site :: fs) := by
  obtain ⟨hheight, hfs⟩ := hbelow
  refine hfs.push ?_
  simp [Frame.height, Frame.cost] at hheight ⊢
  omega

theorem Frame.Below.call {i : Item} (hcalls : i.calls = true) {rest : List Item}
    {stack stack' : List Operand} {site : Location}
    (hbelow : Below R limit bound (.eval (i :: rest) stack site :: fs)) (callee : Value)
    (args : List Value) :
    Below R limit bound (.call callee args (some site) :: .eval rest stack' site :: fs) := by
  obtain ⟨hheight, hfs⟩ := hbelow
  have hcall := cost_call_le (R := R) (r := room limit fs) callee args (some site)
  simp [Frame.height, Frame.cost, Item.weight, hcalls] at hheight
  refine hfs.push₂ rfl ?_ ?_
  · simp only [Frame.height, Frame.cost]
    omega
  · simp only [Frame.height]
    omega

theorem Supplies.below_call {callee : Value} {c : Call} {n : Nat} {args : List Value}
    (h : Supplies limit (fs.countP Frame.isCall) c (c.procedure.params.drop n) gs sig)
    (hR : R.DefaultsDoNotCall) (hc : c.procedure ∈ R.procedures)
    (hcallee : callee.procedure? = some c.procedure)
    (hbelow : Below R limit bound (.call callee args c.site :: fs)) :
    Below R limit bound (gs ++ fs) := by
  obtain ⟨hheight, hfs⟩ := hbelow
  have hsuffix := Param.weights_le_of_suffix (List.drop_suffix n c.procedure.params)
  have hdefaults := R.params_le_defaults hc
  simp only [Frame.height, Frame.cost, hcallee, Option.isSome_some, if_true,
    Repertoire.bindWeight] at hheight
  exact h.below hR hc (List.drop_suffix _ _) hfs (by omega)

theorem Frame.Below.constructs {cls : Class} (hlevels : cls.levels.length ≤ R.generations)
    {args : List Value} {site : Option Location}
    (hbelow : Below R limit bound (.call (.classDef cls) args site :: fs)) :
    Below R limit bound (.construct cls args site :: fs) := by
  obtain ⟨hheight, hfs⟩ := hbelow
  have hle := R.constructWeight_mono (R.entry (room limit fs)) hlevels
  refine hfs.push ?_
  simp [Frame.height, Frame.cost, Value.procedure?] at hheight ⊢
  omega

theorem Frame.Below.descends {cls parent : Class} (hparent : cls.parent? = some parent)
    {args : List Value} {site : Option Location}
    (hbelow : Below R limit bound (.construct cls args site :: fs)) (object : ObjectRef)
    (args' : List Value) (taken : Nat) :
    Below R limit bound
      (.construct parent args' site :: .adopt object cls args taken site :: fs) := by
  obtain ⟨hheight, hfs⟩ := hbelow
  simp only [Frame.height, Frame.cost, Class.levels_of_parent? hparent, List.length_cons,
    R.constructWeight_succ] at hheight
  refine hfs.push₂ rfl ?_ ?_
  · simp only [Frame.height, Frame.cost]
    omega
  · simp only [Frame.height, Frame.cost]
    omega

theorem Frame.Below.locks {lock : LockRef} {body : Body}
    (hbelow : Below R limit bound (.enter lock body :: fs)) :
    Below R limit bound (.body body true false :: .hold lock :: fs) := by
  obtain ⟨hheight, hfs⟩ := hbelow
  simp only [Frame.height, Frame.cost] at hheight
  refine hfs.push₂ rfl ?_ ?_
  · simp only [Frame.height, Frame.cost]
    omega
  · simp only [Frame.height]
    omega

/-- A loop stays where it is while its body runs on top of it. -/
theorem Frame.Below.turns {f g : Frame} {body : Body} (hg : g.isCall = false)
    (hfg : ∀ r, g.height R r = f.height R r)
    (hbody : ∀ r, Body.weight (R.call r) body + 1 ≤ f.height R r)
    (hbelow : Below R limit bound (f :: fs)) :
    Below R limit bound (.body body true false :: g :: fs) := by
  obtain ⟨hheight, hfs⟩ := hbelow
  have hle := hbody (room limit fs)
  refine hfs.push₂ hg ((hfg _).symm ▸ hheight) ?_
  simp only [Frame.height]
  omega

/-- Whatever takes the place of a frame stays below its height. -/
theorem Frame.Becomes.below {f : Frame}
    (h : f.Becomes limit ((f :: fs).countP Frame.isCall) sig st gs sig')
    (hR : R.DefaultsDoNotCall) (hf : f.Among R) (hbelow : Below R limit bound (f :: fs)) :
    Below R limit bound (gs ++ fs) := by
  have hheight := hbelow.1
  have hfs := hbelow.2
  cases h with
  | ends f sig sig' => exact hfs
  | waits f => exact hbelow
  | stops f hexit hsig => exact hbelow
  | rests rest own => exact hbelow
  | begins h =>
      rw [List.append_assoc]
      exact h.below_body hbelow
  | counts var now next last body =>
      refine hbelow.turns rfl (fun _ => rfl) fun r => ?_
      simp only [Frame.height]
      omega
  | retests h =>
      refine h.below rfl hfs hheight ?_
      simp only [Frame.height] at hheight
      omega
  | locks lock body => exact hbelow.locks
  | goesOn i rest stack stack' site => exact hbelow.item
  | calls hcalls rest stack stack' site callee args => exact hbelow.call hcalls callee args
  | binds hcallee n h args =>
      rw [List.countP_cons_of_neg (by simp [Frame.isCall])] at h
      exact h.below_call hR (hf.1.mem_of_procedure? hcallee) hcallee hbelow
  | constructs cls args site => exact hbelow.constructs hf.1.levels
  | initialises h args =>
      simp only [Frame.height, Frame.cost, Class.levels, List.length_cons,
        R.constructWeight_succ] at hheight
      exact h.below hfs (by omega)
  | descends hparent object args args' taken site =>
      exact hbelow.descends hparent object args' taken
  | accepts site body rest otherwise v =>
      refine hfs.push ?_
      simp only [Frame.height, Frame.cost] at hheight ⊢
      omega
  | rejects h site body v =>
      simp only [Frame.height, Frame.cost] at hheight
      exact h.below hfs (by omega)
  | bounds h site v =>
      simp only [Frame.height] at hheight
      refine h.below rfl hfs ?_ (by omega)
      simp only [Frame.height]
      omega
  | bounded var next last site body v => exact hbelow
  | turns test body v =>
      refine hbelow.turns rfl (fun _ => rfl) fun r => ?_
      simp only [Frame.height]
      omega
  | receives items stack site v => exact hbelow
  | supplies hc hsite h v =>
      rw [List.countP_cons_of_neg (by simp [Frame.isCall])] at h
      simp only [Frame.height, Frame.cost] at hheight
      exact h.below hR (hc ▸ hf.1.procedure) (hc ▸ hf.2) hfs (by omega)
  | adopts h object args taken v =>
      simp only [Frame.height, Frame.cost] at hheight
      exact h.below hfs (by omega)
  | handles hmem e =>
      have hle := Handler.weight_le (k := R.call (room limit fs)) hmem
      refine hfs.push ?_
      simp only [Frame.height, Frame.cost] at hheight ⊢
      omega

end

end Statute
