import Statute.Machine.Evaluation
import Statute.Throwing

/-!
# The heap amid other scopes

A heap can be put amid scopes that nothing on it knows of: they take places behind the global scope,
and the scopes of the heap move to the places that are left free. Values hold no address of a scope,
so whatever is computed from values alone comes out the same. A chain of scopes moves with the
scopes that it names; looking up a name along it finds the same value, and storing changes the same
scope at its new address.
-/

namespace Statute

namespace Scope

/-- The `r`-th of the places that are left free. Those after the last one are all free. -/
def freePlace : List (Option Scope) → Nat → Nat
  | [], r => r
  | some _ :: places, r => freePlace places r + 1
  | none :: _, 0 => 0
  | none :: places, r + 1 => freePlace places r + 1

/-- Scopes that have been put, one by one, at the places that are left free. -/
def fill : List (Option Scope) → List Scope → List Scope
  | [], own => own
  | some other :: places, own => other :: fill places own
  | none :: _, [] => []
  | none :: places, scope :: own => scope :: fill places own

/-- How many places are left free before the last one that is taken. -/
def freeCount (places : List (Option Scope)) : Nat :=
  places.countP Option.isNone

variable {places : List (Option Scope)} {own : List Scope}

@[simp] theorem freePlace_nil (r : Nat) : freePlace [] r = r := rfl

@[simp] theorem freePlace_some (other : Scope) (r : Nat) :
    freePlace (some other :: places) r = freePlace places r + 1 := rfl

@[simp] theorem freePlace_none_zero : freePlace (none :: places) 0 = 0 := rfl

@[simp] theorem freePlace_none_succ (r : Nat) :
    freePlace (none :: places) (r + 1) = freePlace places r + 1 := rfl

@[simp] theorem fill_nil (own : List Scope) : fill [] own = own := rfl

@[simp] theorem fill_some (other : Scope) (own : List Scope) :
    fill (some other :: places) own = other :: fill places own := rfl

@[simp] theorem fill_none_nil : fill (none :: places) [] = [] := rfl

@[simp] theorem fill_none_cons (scope : Scope) (own : List Scope) :
    fill (none :: places) (scope :: own) = scope :: fill places own := rfl

theorem freePlace_lt_freePlace (places : List (Option Scope)) {r r' : Nat} (h : r < r') :
    freePlace places r < freePlace places r' := by
  induction places generalizing r r' with
  | nil => exact h
  | cons place places ih =>
      cases place with
      | some other => exact Nat.succ_lt_succ (ih h)
      | none =>
          cases r' with
          | zero => exact absurd h (Nat.not_lt_zero r)
          | succ r' =>
              cases r with
              | zero => exact Nat.succ_pos _
              | succ r => exact Nat.succ_lt_succ (ih (Nat.lt_of_succ_lt_succ h))

theorem getElem?_fill (places : List (Option Scope)) (own : List Scope) (r : Nat) :
    (fill places own)[freePlace places r]? = own[r]? := by
  induction places generalizing own r with
  | nil => rfl
  | cons place places ih =>
      cases place with
      | some other => simpa using ih own r
      | none =>
          cases own with
          | nil => simp
          | cons scope own =>
              cases r with
              | zero => rfl
              | succ r => simpa using ih own r

theorem modify_fill (f : Scope → Scope) (places : List (Option Scope)) (own : List Scope)
    (r : Nat) :
    (fill places own).modify (freePlace places r) f = fill places (own.modify r f) := by
  induction places generalizing own r with
  | nil => rfl
  | cons place places ih =>
      cases place with
      | some other => simp [List.modify_succ_cons, ih]
      | none =>
          cases own with
          | nil => simp
          | cons scope own =>
              cases r with
              | zero => rfl
              | succ r => simp [List.modify_succ_cons, ih]

theorem fill_append (hfree : freeCount places ≤ own.length) (more : List Scope) :
    fill places own ++ more = fill places (own ++ more) := by
  induction places generalizing own with
  | nil => rfl
  | cons place places ih =>
      cases place with
      | some other => simp [ih (by simpa [freeCount] using hfree)]
      | none =>
          cases own with
          | nil => simp [freeCount] at hfree
          | cons scope own => simp [ih (by simpa [freeCount] using hfree)]

theorem length_fill (hfree : freeCount places ≤ own.length) :
    (fill places own).length = freePlace places own.length := by
  induction places generalizing own with
  | nil => rfl
  | cons place places ih =>
      cases place with
      | some other => simp [ih (by simpa [freeCount] using hfree)]
      | none =>
          cases own with
          | nil => simp [freeCount] at hfree
          | cons scope own => simp [ih (by simpa [freeCount] using hfree)]

/-- Where a place is taken, there is the scope that has taken it. -/
theorem getElem?_fill_of_taken {i : Nat} {other : Scope} (hfree : freeCount places ≤ own.length)
    (htaken : places[i]? = some (some other)) : (fill places own)[i]? = some other := by
  induction places generalizing own i with
  | nil => simp at htaken
  | cons place places ih =>
      cases place with
      | some first =>
          cases i with
          | zero => simpa using htaken
          | succ i =>
              simpa using ih (by simpa [freeCount] using hfree) (by simpa using htaken)
      | none =>
          cases own with
          | nil => simp [freeCount] at hfree
          | cons scope own =>
              cases i with
              | zero => simp at htaken
              | succ i =>
                  simpa using ih (by simpa [freeCount] using hfree) (by simpa using htaken)

theorem fill_taken (others own : List Scope) : fill (others.map some) own = others ++ own := by
  induction others with
  | nil => rfl
  | cons other others ih => simp [ih]

/-- Others have changed their scopes and taken more places, but the first `n` of the places that
were left free are free still. -/
structure Retaken (n : Nat) (places places' : List (Option Scope)) : Prop where
  freeCount_le : freeCount places' ≤ n
  freePlace_eq : ∀ r < n, freePlace places' r = freePlace places r
  taken : ∀ (i : Nat) (other : Scope), places[i]? = some (some other) →
    ∃ other', places'[i]? = some (some other')

theorem Retaken.taken_cons {n : Nat} {places places' : List (Option Scope)}
    (h : Retaken n places places') (other other' : Scope) :
    Retaken n (some other :: places) (some other' :: places') where
  freeCount_le := by simpa [freeCount] using h.freeCount_le
  freePlace_eq r hr := by simpa using h.freePlace_eq r hr
  taken i scope hi := by
    cases i with
    | zero => exact ⟨other', rfl⟩
    | succ i => exact h.taken i scope (by simpa using hi)

theorem Retaken.free_cons {n : Nat} {places places' : List (Option Scope)}
    (h : Retaken n places places') : Retaken (n + 1) (none :: places) (none :: places') where
  freeCount_le := by simpa [freeCount] using h.freeCount_le
  freePlace_eq r hr := by
    cases r with
    | zero => rfl
    | succ r => simpa using h.freePlace_eq r (Nat.lt_of_succ_lt_succ hr)
  taken i scope hi := by
    cases i with
    | zero => simp at hi
    | succ i => exact h.taken i scope (by simpa using hi)

/-- No places are as good as one that is left free. -/
theorem Retaken.of_free {n : Nat} {places : List (Option Scope)} (h : Retaken n [none] places) :
    Retaken n [] places where
  freeCount_le := h.freeCount_le
  freePlace_eq r hr := by
    rw [h.freePlace_eq r hr]
    cases r <;> rfl
  taken i scope hi := by simp at hi

/-- When scopes at places that are taken change, and more scopes come behind all others, those at
the places left free are where they were. -/
theorem exists_fill {scopes : List Scope} (hfree : freeCount places ≤ own.length)
    (hlength : (fill places own).length ≤ scopes.length)
    (hown : ∀ r < own.length, scopes[freePlace places r]? = own[r]?) :
    ∃ places', fill places' own = scopes ∧ Retaken own.length places places' := by
  induction places generalizing own scopes with
  | nil =>
      induction own generalizing scopes with
      | nil => exact ⟨scopes.map some, by simp [fill_taken], by simp [freeCount], by simp, by simp⟩
      | cons scope own ih =>
          cases scopes with
          | nil => simp at hlength
          | cons scope' scopes =>
              obtain rfl : scope' = scope := by simpa using hown 0 (by simp)
              obtain ⟨places', rfl, hretaken⟩ := @ih scopes (by simp [freeCount])
                (by simpa using hlength)
                (fun r hr => by simpa using hown (r + 1) (by simpa using hr))
              exact ⟨none :: places', rfl, hretaken.free_cons.of_free⟩
  | cons place places ih =>
      cases place with
      | some other =>
          cases scopes with
          | nil => simp at hlength
          | cons other' scopes =>
              obtain ⟨places', rfl, hretaken⟩ := @ih own scopes
                (by simpa [freeCount] using hfree) (by simpa using hlength)
                (fun r hr => by simpa using hown r hr)
              exact ⟨some other' :: places', rfl, hretaken.taken_cons other other'⟩
      | none =>
          cases own with
          | nil => simp [freeCount] at hfree
          | cons scope own =>
              cases scopes with
              | nil => simp at hlength
              | cons scope' scopes =>
                  obtain rfl : scope' = scope := by simpa using hown 0 (by simp)
                  obtain ⟨places', rfl, hretaken⟩ := @ih own scopes
                    (by simpa [freeCount] using hfree) (by simpa using hlength)
                    (fun r hr => by simpa using hown (r + 1) (by simpa using hr))
                  exact ⟨none :: places', rfl, hretaken.free_cons⟩

end Scope

/-- Where a scope is found when others have taken places behind the global one. -/
def past (places : List (Option Scope)) : ScopeRef → ScopeRef
  | 0 => 0
  | r + 1 => Scope.freePlace places r + 1

theorem past_lt_past (places : List (Option Scope)) {r r' : ScopeRef} (h : r < r') :
    past places r < past places r' := by
  cases r' with
  | zero => exact absurd h (Nat.not_lt_zero r)
  | succ r' =>
      cases r with
      | zero => exact Nat.succ_pos _
      | succ r =>
          exact Nat.succ_lt_succ (Scope.freePlace_lt_freePlace places (Nat.lt_of_succ_lt_succ h))

theorem past_le_past (places : List (Option Scope)) {r r' : ScopeRef} (h : r ≤ r') :
    past places r ≤ past places r' := by
  rcases Nat.eq_or_lt_of_le h with rfl | h
  · exact Nat.le_refl _
  · exact Nat.le_of_lt (past_lt_past places h)

namespace Scope

variable {places : List (Option Scope)}

/-- Scopes amid others, which have taken places behind the first one. -/
def amid (places : List (Option Scope)) : List Scope → List Scope
  | [] => []
  | globals :: locals => globals :: fill places locals

theorem getElem?_amid (scopes : List Scope) (r : ScopeRef) :
    (amid places scopes)[past places r]? = scopes[r]? := by
  cases scopes with
  | nil => rfl
  | cons globals locals =>
      cases r with
      | zero => rfl
      | succ r => simpa [amid, past] using getElem?_fill places locals r

theorem getElem?_amid_of_taken {scopes : List Scope} {i : Nat} {other : Scope}
    (hfree : freeCount places < scopes.length) (htaken : places[i]? = some (some other)) :
    (amid places scopes)[i + 1]? = some other := by
  cases scopes with
  | nil => exact absurd hfree (Nat.not_lt_zero _)
  | cons globals locals =>
      simpa [amid] using getElem?_fill_of_taken (Nat.le_of_lt_succ hfree) htaken

theorem modify_amid (f : Scope → Scope) (scopes : List Scope) (r : ScopeRef) :
    (amid places scopes).modify (past places r) f = amid places (scopes.modify r f) := by
  cases scopes with
  | nil => simp [amid]
  | cons globals locals =>
      cases r with
      | zero => rfl
      | succ r => simp [amid, past, List.modify_succ_cons, modify_fill]

theorem amid_append {scopes : List Scope} (hfree : freeCount places < scopes.length)
    (more : List Scope) : amid places scopes ++ more = amid places (scopes ++ more) := by
  cases scopes with
  | nil => exact absurd hfree (Nat.not_lt_zero _)
  | cons globals locals => simp [amid, fill_append (Nat.le_of_lt_succ hfree)]

theorem length_amid {scopes : List Scope} (hfree : freeCount places < scopes.length) :
    (amid places scopes).length = past places scopes.length := by
  cases scopes with
  | nil => exact absurd hfree (Nat.not_lt_zero _)
  | cons globals locals => simp [amid, past, length_fill (Nat.le_of_lt_succ hfree)]

end Scope

namespace Heap

/-- The heap with scopes of others on it that nothing on it knows of. -/
def amid (places : List (Option Scope)) (h : Heap) : Heap :=
  { h with scopes := (Scope.amid places h.scopes.toList).toArray }

variable {h : Heap} {places : List (Option Scope)}

/-! ## Scopes and names -/

@[simp] theorem scope_amid (r : ScopeRef) :
    (h.amid places).scope (past places r) = h.scope r := by
  simp [amid, scope, Array.getD_eq_getD_getElem?, Scope.getElem?_amid]

theorem scope_amid_of_taken {r : Nat} {other : Scope}
    (hfree : Scope.freeCount places < h.scopes.size)
    (htaken : places[r]? = some (some other)) : (h.amid places).scope (r + 1) = other := by
  simp [amid, scope, Array.getD_eq_getD_getElem?, Scope.getElem?_amid_of_taken hfree htaken]

theorem size_amid (hfree : Scope.freeCount places < h.scopes.size) :
    (h.amid places).scopes.size = past places h.scopes.size := by
  simpa [amid] using Scope.length_amid hfree

@[simp] theorem local?_amid (r : ScopeRef) (name : String) :
    (h.amid places).local? (past places r) name = h.local? r name := by
  simp [local?]

@[simp] theorem lookup?_amid (env : Env) (name : String) :
    (h.amid places).lookup? (env.map (past places)) name = h.lookup? env name := by
  simp [lookup?, List.findSome?_map, Function.comp_def]

@[simp] theorem binder?_amid (env : Env) (name : String) :
    (h.amid places).binder? (env.map (past places)) name =
      (h.binder? env name).map (past places) := by
  have hlocal : (fun r => ((h.amid places).local? r name).isSome) ∘ past places =
      fun r => (h.local? r name).isSome := by
    funext r
    simp
  rw [binder?, binder?, List.find?_map, hlocal]

@[simp] theorem visibleNames_amid (env : Env) :
    (h.amid places).visibleNames (env.map (past places)) = h.visibleNames env := by
  simp [visibleNames, List.flatMap_map]

theorem define_amid (r : ScopeRef) (name : String) (v : Value) :
    (h.amid places).define (past places r) name v = (h.define r name v).amid places := by
  unfold define amid
  congr 1
  apply Array.ext'
  simp [Scope.modify_amid]

theorem defineAll_amid (r : ScopeRef) (vars : List (String × Value)) :
    (h.amid places).defineAll (past places r) vars = (h.defineAll r vars).amid places := by
  induction vars generalizing h with
  | nil => rfl
  | cons var vars ih =>
      simp only [defineAll, define_amid]
      exact ih

/-- A fresh scope comes behind all scopes, also behind those that nobody knew of. -/
theorem newScope_amid (hfree : Scope.freeCount places < h.scopes.size) (name : String) :
    (h.amid places).newScope name =
      ((h.newScope name).1.amid places, past places (h.newScope name).2) := by
  have hscopes : (Scope.amid places h.scopes.toList).toArray.push ⟨name, []⟩ =
      (Scope.amid places (h.scopes.push ⟨name, []⟩).toList).toArray := by
    apply Array.ext'
    simp [Scope.amid_append hfree]
  exact Prod.ext (congrArg (fun scopes => { h with scopes := scopes }) hscopes) (size_amid hfree)

theorem size_defineAll (r : ScopeRef) (vars : List (String × Value)) :
    (h.defineAll r vars).scopes.size = h.scopes.size := by
  induction vars generalizing h with
  | nil => rfl
  | cons var vars ih =>
      rw [defineAll, ih]
      exact size_define h r var.1 var.2

theorem size_newScope (name : String) :
    (h.newScope name).1.scopes.size = h.scopes.size + 1 :=
  Array.size_push _

/-! ## Values -/

theorem unboxWith_amid (fuel : Nat) (v : Value) :
    (h.amid places).unboxWith fuel v = h.unboxWith fuel v := by
  induction fuel generalizing v with
  | zero => rfl
  | succ fuel ih =>
      cases v with
      | field b => exact ih (h.box b)
      | _ => rfl

@[simp] theorem unbox_amid (v : Value) : (h.amid places).unbox v = h.unbox v :=
  unboxWith_amid _ v

mutual

theorem textWith_amid (boxText : BoxRef → String) :
    ∀ v, (h.amid places).textWith boxText v = h.textWith boxText v
  | .list items => by simp only [textWith, textsWith_amid boxText items]
  | .empty | .bool _ | .int _ | .number _ | .text _ | .field _ | .object _ | .classDef _
  | .procedure _ | .method _ _ | .extension _ | .record _ | .task _ | .deferred _ _ => rfl

theorem textsWith_amid (boxText : BoxRef → String) :
    ∀ vs, (h.amid places).textsWith boxText vs = h.textsWith boxText vs
  | [] => rfl
  | v :: vs => by simp only [textsWith, textWith_amid boxText v, textsWith_amid boxText vs]

end

theorem boxText_amid (fuel : Nat) (b : BoxRef) :
    (h.amid places).boxText fuel b = h.boxText fuel b := by
  induction fuel generalizing b with
  | zero => rfl
  | succ fuel ih =>
      have hboxes : (h.amid places).boxText fuel = h.boxText fuel := funext ih
      simp only [boxText, hboxes, textWith_amid]
      rfl

@[simp] theorem text_amid (v : Value) : (h.amid places).text v = h.text v := by
  have hboxes (fuel : Nat) : (h.amid places).boxText fuel = h.boxText fuel :=
    funext (boxText_amid fuel)
  simp only [text, hboxes, textWith_amid]
  rfl

theorem equalFuel_amid (fuel : Nat) : (h.amid places).equalFuel fuel = h.equalFuel fuel := by
  induction fuel with
  | zero => rfl
  | succ fuel ih =>
      simp only [equalFuel, ih]
      rfl

@[simp] theorem equal_amid (v w : Value) : (h.amid places).equal v w = h.equal v w := by
  simp only [equal, equalFuel_amid]
  rfl

@[simp] theorem binary_amid (o : Operator) (v w : Value) :
    (h.amid places).binary o v w = h.binary o v w := by
  simp [binary, add]

@[simp] theorem unary_amid (o : Operator) (v : Value) :
    (h.amid places).unary o v = h.unary o v := by
  simp [unary]

@[simp] theorem member_amid (v : Value) (name : String) :
    (h.amid places).member v name = h.member v name := by
  simp only [member, memberBy, unbox_amid]
  rfl

theorem notThrowable_amid (v : Value) : (h.amid places).notThrowable v = h.notThrowable v := by
  simp [notThrowable]

theorem messageOf?_amid (r : ObjectRef) : (h.amid places).messageOf? r = h.messageOf? r := by
  simp only [messageOf?, text_amid]
  rfl

@[simp] theorem thrown_amid (v : Value) : (h.amid places).thrown v = h.thrown v := by
  simp only [thrown, notThrowable_amid, messageOf?_amid]
  rfl

theorem setField_amid (r : ObjectRef) (name : String) (v : Value) :
    (h.amid places).setField r name v = (h.setField r name v).amid places := by
  have hfield : (h.amid places).field? r name = h.field? r name := rfl
  unfold setField
  rw [hfield]
  split <;> rfl

theorem newError_amid (c : Class) (message : String) :
    (h.amid places).newError c message =
      ((h.newError c message).1.amid places, (h.newError c message).2) :=
  Prod.ext (setField_amid (h := (h.newObject c).1) h.objects.size "message" (.text message)) rfl

theorem exception_amid (registry : Registry) (f : Failure) :
    (h.amid places).exception registry f =
      ((h.exception registry f).1.amid places, (h.exception registry f).2) := by
  unfold exception
  split
  · rfl
  · split
    · rw [newError_amid]
    · rfl

theorem size_setField (r : ObjectRef) (name : String) (v : Value) :
    (h.setField r name v).scopes.size = h.scopes.size := by
  unfold setField
  split <;> rfl

theorem size_newError (c : Class) (message : String) :
    (h.newError c message).1.scopes.size = h.scopes.size :=
  size_setField (h := (h.newObject c).1) _ _ _

theorem size_exception (registry : Registry) (f : Failure) :
    (h.exception registry f).1.scopes.size = h.scopes.size := by
  unfold exception
  split
  · rfl
  · split
    · exact size_newError _ _
    · rfl

end Heap

/-! ## Extensions -/

section Extensions

variable {h : Heap} {places : List (Option Scope)}

theorem Primitive.call_amid (p : Primitive) (args : List Value) :
    p.call (h.amid places) args = p.call h args := by
  cases p with
  | round => simp [call, roundOf]
  | text => simp [call]
  | _ => rfl

theorem Extension.call_amid (host : Host) (e : Extension) (args : List Value) :
    e.call host (h.amid places) args = e.call host h args := by
  have htext : (h.amid places).text = h.text := funext Heap.text_amid
  simp only [Extension.call, Primitive.call_amid, htext]

theorem Extension.checkedCall_amid (host : Host) (e : Extension) (args : List Value) :
    e.checkedCall host (h.amid places) args = e.checkedCall host h args := by
  simp only [Extension.checkedCall, Extension.call_amid]

end Extensions

/-! ## Names and places -/

namespace Setting

variable {s : Setting} {h : Heap} {places : List (Option Scope)}

@[simp] theorem resolve?_amid (env : Env) (name : String) :
    s.resolve? (h.amid places) (env.map (past places)) name = s.resolve? h env name := by
  simp [resolve?]

@[simp] theorem undefined_amid (env : Env) (name : String) :
    s.undefined (h.amid places) (env.map (past places)) name =
      s.undefined h env name := by
  simp [undefined, undefinedBy]

@[simp] theorem resolve_amid (env : Env) (name : String) :
    s.resolve (h.amid places) (env.map (past places)) name = s.resolve h env name := by
  simp [resolve]

end Setting

def Place.past (places : List (Option Scope)) : Place → Place
  | .binding r name => .binding (Statute.past places r) name
  | .field r name => .field r name

theorem Setting.place_amid {s : Setting} {h : Heap} {places : List (Option Scope)} (env : Env)
    (target : Target) :
    s.place (h.amid places) (env.map (past places)) target =
      (s.place h env target).map (Place.past places) := by
  unfold place
  split
  · rw [Heap.binder?_amid, undefined_amid]
    cases h.binder? env target.name <;> rfl
  · rw [resolve?_amid, undefined_amid]
    cases s.resolve? h env target.name with
    | none => rfl
    | some owner =>
        simp only [Heap.unbox_amid]
        cases h.unbox owner <;> rfl

theorem Heap.store_amid {h : Heap} {places : List (Option Scope)} (v : Value) (place : Place) :
    (h.amid places).store v (place.past places) = (h.store v place).amid places := by
  cases place with
  | binding r name => exact define_amid r name v
  | field r name => exact setField_amid r name v

theorem Heap.size_store {h : Heap} (v : Value) (place : Place) :
    (h.store v place).scopes.size = h.scopes.size := by
  cases place with
  | binding r name => exact size_define h r name v
  | field r name => exact size_setField r name v

/-! ## Items -/

namespace Operand

theorem popArgs_amid {h : Heap} {places : List (Option Scope)} (later : List Value)
    (stack : List Operand) : popArgs (h.amid places) later stack = popArgs h later stack := by
  induction stack generalizing later with
  | nil => rfl
  | cons o stack ih =>
      cases o with
      | value v => simp only [popArgs, Heap.unbox_amid, ih]
      | attr name => rfl
      | mark => rfl

end Operand

namespace Item

variable {s : Setting} {h : Heap} {places : List (Option Scope)}

theorem callEffect_amid (callee : Value) (args : List Value) (deferred : Bool)
    (stack : List Operand) :
    callEffect s (h.amid places) callee args deferred stack =
      callEffect s h callee args deferred stack := by
  simp only [callEffect, Heap.text_amid, Extension.checkedCall_amid]

theorem operatorEffect_amid (o : Operator) (stack : List Operand) :
    operatorEffect (h.amid places) o stack = operatorEffect h o stack := by
  simp only [operatorEffect, dotEffect, awaitEffect, Heap.member_amid, Heap.unbox_amid,
    Heap.unary_amid, Heap.binary_amid]

/-- An item does the same to the operands. -/
theorem effect_amid (env : Env) (stack : List Operand) (i : Item) :
    i.effect s (h.amid places) (env.map (past places)) stack = i.effect s h env stack := by
  cases i with
  | load name => simp only [effect, Setting.resolve_amid, Extension.call_amid]
  | call name deferred =>
      simp only [effect, Operand.popArgs_amid, Setting.resolve_amid, callEffect_amid]
  | invoke deferred => simp only [effect, Operand.popArgs_amid, Heap.unbox_amid, callEffect_amid]
  | op o => exact operatorEffect_amid o stack
  | _ => rfl

theorem result_amid (stack : List Operand) : result (h.amid places) stack = result h stack := by
  simp only [result, Heap.unbox_amid]

end Item

end Statute
