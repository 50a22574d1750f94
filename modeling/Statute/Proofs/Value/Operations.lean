import Statute.Machine.Evaluation
import Statute.Proofs.Value.Bare

/-!
# What operations come to

Operators and the standard library put nothing into a value but what is in the values that they are
given. Field access may come to a box or a method as well, and a name to what the registry knows. So
operations on bare values come to bare values, apart from field access.

What can go wrong with an operation, with looking up a name or with a function of the standard
library is the fault of the program, and the failure says so: none of these failures is an internal
one. None is an error of form either; that is what an expression comes to that does not compile.
Among the extensions only those of the host can answer with failures of the other kinds.
-/

namespace Statute

open Value (areBare areBare_iff)

/-- The kinds of failure that operations on values come to. -/
def ErrorKind.Ordinary (k : ErrorKind) : Prop :=
  k ≠ .internal ∧ k ≠ .syntaxError

instance (k : ErrorKind) : Decidable k.Ordinary :=
  inferInstanceAs (Decidable (_ ∧ _))

/-- A failure counts as the class of its kind, and nothing was thrown. -/
structure Failure.Plain (f : Failure) : Prop where
  className : f.className = f.kind.className
  payload : f.payload = none

theorem Failure.plain_new (k : ErrorKind) (message : String) : (new k message).Plain :=
  ⟨rfl, rfl⟩

/-- A plain failure of one of these kinds. -/
structure Failure.Ordinary (f : Failure) : Prop where
  kind : f.kind.Ordinary
  plain : f.Plain

theorem Failure.ordinary_new {k : ErrorKind} {message : String} (hk : k.Ordinary) :
    (new k message).Ordinary :=
  ⟨hk, plain_new k message⟩

/-- A computation gives a result of which `P` holds, or it fails as operations do. -/
structure Gives {α : Type} (P : α → Prop) (x : Except Failure α) : Prop where
  result : ∀ a, x = .ok a → P a
  failure : ∀ f, x = .error f → f.Ordinary

namespace Gives

variable {α β : Type} {P : α → Prop} {Q : β → Prop}

theorem ok {a : α} (h : P a) : Gives P (.ok a) := by
  refine ⟨fun b hb => ?_, nofun⟩
  rwa [← Except.ok.inj hb]

theorem error {f : Failure} (h : f.Ordinary) : Gives P (.error f) := by
  refine ⟨nofun, fun g hg => ?_⟩
  rwa [← Except.error.inj hg]

theorem new {k : ErrorKind} {message : String} (hk : k.Ordinary) :
    Gives P (.error (.new k message)) :=
  error (Failure.ordinary_new hk)

theorem imp {x : Except Failure α} {R : α → Prop} (hx : Gives P x) (himp : ∀ {a}, P a → R a) :
    Gives R x :=
  ⟨fun a ha => himp (hx.result a ha), hx.failure⟩

theorem bind {x : Except Failure α} {f : α → Except Failure β} (hx : Gives P x)
    (hf : ∀ a, P a → Gives Q (f a)) : Gives Q (x >>= f) := by
  cases x with
  | error e => exact error (hx.failure e rfl)
  | ok a => exact hf a (hx.result a rfl)

end Gives

/-! ## Operators -/

theorem gives_exactly (o : Operator) (n : Int) : Gives Value.IsScalar (exactly o n) := by
  unfold exactly
  split
  · exact .ok trivial
  · exact .new (by decide)

theorem gives_finite (o : Operator) (x : Float) : Gives Value.IsScalar (finite o x) := by
  unfold finite
  split
  · exact .new (by decide)
  · exact .ok trivial

theorem gives_mismatch {P : Value → Prop} (o : Operator) (v w : Value) :
    Gives P (.error (mismatch o v w)) :=
  .new (by decide)

theorem gives_combine (o : Operator) (v w : Value) : Gives Value.IsScalar (combine o v w) := by
  unfold combine
  split
  · exact gives_exactly o _
  · split
    · exact gives_finite o _
    · exact gives_mismatch o v w

theorem gives_divide (v w : Value) : Gives Value.IsScalar (divide v w) := by
  unfold divide
  split
  · split
    · exact .new (by decide)
    · split
      · split
        · exact gives_exactly _ _
        · exact gives_finite _ _
      · exact gives_finite _ _
  · exact gives_mismatch _ v w

theorem gives_intPower (base : Int) (e : Nat) : Gives Value.IsScalar (intPower base e) := by
  unfold intPower
  split
  · exact .new (by decide)
  · split
    · exact gives_exactly _ _
    · split
      · exact .new (by decide)
      · exact gives_exactly _ _

theorem gives_power (v w : Value) : Gives Value.IsScalar (power v w) := by
  simp only [power]
  split
  · split
    · exact gives_intPower _ _
    · split
      · exact gives_finite _ _
      · exact gives_mismatch _ _ _
  · split
    · exact gives_finite _ _
    · exact gives_mismatch _ v w

theorem gives_compare (o : Operator) (v w : Value) : Gives Value.IsScalar (compare o v w) := by
  unfold compare
  split
  · exact .ok trivial
  · exact .ok trivial
  · split
    · split <;> exact .ok trivial
    · exact gives_mismatch o v w

/-- Two lists are put together; everything else comes to scalars. -/
theorem gives_add (h : Heap) (v w : Value) : Gives (Value.MadeOf [v, w]) (h.add v w) := by
  unfold Heap.add
  split
  · exact .ok (Value.IsScalar.madeOf trivial)
  · next items items' =>
      refine .ok fun P hP hboth => hP.list.mpr (List.forall_mem_append.mpr ⟨?_, ?_⟩)
      · exact hP.list.mp (hboth _ List.mem_cons_self)
      · exact hP.list.mp (hboth _ (List.mem_cons_of_mem _ List.mem_cons_self))
  · exact (gives_combine .add v w).imp Value.IsScalar.madeOf

/-- An operator that stands between two values is one that can be applied to them. -/
theorem gives_binary (h : Heap) {o : Operator} (hunary : o.isUnary = false) (hdot : o ≠ .dot)
    (v w : Value) : Gives (Value.MadeOf [h.unbox v, h.unbox w]) (h.binary o v w) := by
  have hscalar : ∀ {x : Except Failure Value}, Gives Value.IsScalar x →
      Gives (Value.MadeOf [h.unbox v, h.unbox w]) x := fun hx => hx.imp Value.IsScalar.madeOf
  cases o with
  | add => exact gives_add h _ _
  | sub => exact hscalar (gives_combine _ _ _)
  | mul => exact hscalar (gives_combine _ _ _)
  | div => exact hscalar (gives_divide _ _)
  | pow => exact hscalar (gives_power _ _)
  | gt => exact hscalar (gives_compare _ _ _)
  | lt => exact hscalar (gives_compare _ _ _)
  | ge => exact hscalar (gives_compare _ _ _)
  | le => exact hscalar (gives_compare _ _ _)
  | eq => exact hscalar (.ok trivial)
  | ne => exact hscalar (.ok trivial)
  | and =>
      refine hscalar ?_
      simp only [Heap.binary]
      split
      · exact .ok trivial
      · exact gives_mismatch .and _ _
  | or =>
      refine hscalar ?_
      simp only [Heap.binary]
      split
      · exact .ok trivial
      · exact gives_mismatch .or _ _
  | dot => exact absurd rfl hdot
  | _ => contradiction

theorem gives_unary (h : Heap) (o : Operator) (v : Value) :
    Gives Value.IsScalar (h.unary o v) := by
  simp only [Heap.unary]
  split
  · exact .ok trivial
  · exact .ok trivial
  · exact .ok trivial
  · exact gives_exactly _ _
  · exact .ok trivial
  · exact .new (by decide)

/-- An operator between two values with a property comes to a value with the property. -/
theorem Value.Pervasive.binary {P : Value → Prop} (hP : Value.Pervasive P) {h : Heap} {o : Operator}
    (hunary : o.isUnary = false) (hdot : o ≠ .dot) {a b v : Value} (ha : P (h.unbox a))
    (hb : P (h.unbox b)) (hv : h.binary o a b = .ok v) : P v :=
  (gives_binary h hunary hdot a b).result v hv P hP
    (List.forall_mem_cons.mpr ⟨ha, List.forall_mem_singleton.mpr hb⟩)

/-! ## Names and fields -/

/-- Field access comes to the box of a field, to a method of an object, or to what a record has. -/
inductive Heap.Members (h : Heap) (v : Value) (name : String) : Value → Prop
  | box (b : BoxRef) : Members h v name (.field b)
  | method {r : ObjectRef} {p : Procedure} (howner : h.unbox v = .object r)
      (hmethod : h.method? r name = some p) : Members h v name (.method r p)
  | stored {r : RecordRef} {w : Value} (hw : (name, w) ∈ (h.record r).fields) :
      Members h v name w

theorem gives_member (h : Heap) (v : Value) (name : String) :
    Gives (h.Members v name) (h.member v name) := by
  simp only [Heap.member, Heap.memberBy]
  split
  · next howner =>
      split
      · exact .ok (.box _)
      · next hmethod => exact .ok (.method howner hmethod)
      · exact .new (by decide)
  · split
    · next hw => exact .ok (.stored (Bindings.mem_of_get? hw))
    · exact .new (by decide)
  · exact .new (by decide)

theorem Heap.Bare.member {h : Heap} (hbare : h.Bare) {v w : Value} {name : String}
    (hw : h.member v name = .ok w) : w.isBare = true ∨ ∃ b, w = .field b := by
  cases (gives_member h v name).result w hw with
  | box b => exact Or.inr ⟨b, rfl⟩
  | method => exact Or.inl rfl
  | stored hw => exact Or.inl (hbare.records _ _ hw)

/-- A name stands for what a scope binds it to, or for what the registry knows it as. -/
theorem Setting.eq_of_resolve? {s : Setting} {h : Heap} {env : Env} {name : String} {v : Value}
    (hv : s.resolve? h env name = some v) :
    h.lookup? env name = some v ∨ s.registry.lookup? name = some v := by
  unfold resolve? at hv
  cases hlookup : h.lookup? env name with
  | some w =>
      rw [hlookup] at hv
      exact Or.inl hv
  | none =>
      rw [hlookup] at hv
      exact Or.inr hv

/-- What the scopes and the registry know has a property, and so has what a name stands for. -/
theorem Heap.All.resolve? {P : Value → Prop} {s : Setting} {h : Heap} (hall : h.All P)
    (hregistry : ∀ name v, s.registry.lookup? name = some v → P v) {env : Env} {name : String}
    {v : Value} (hv : s.resolve? h env name = some v) : P v := by
  rcases Setting.eq_of_resolve? hv with hv | hv
  · exact hall.lookup? hv
  · exact hregistry name v hv

theorem Registry.isBare_of_lookup? {r : Registry} {name : String} {v : Value}
    (hv : r.lookup? name = some v) : v.isBare = true := by
  obtain ⟨entry, -, rfl⟩ := Option.map_eq_some_iff.mp hv
  cases entry <;> rfl

theorem gives_resolve (s : Setting) (h : Heap) (env : Env) (name : String) :
    Gives (fun v => s.resolve? h env name = some v) (s.resolve h env name) := by
  unfold Setting.resolve
  split
  · next v hv => exact .ok hv
  · exact .new (by decide)

theorem Heap.Bare.resolve? {h : Heap} (hbare : h.Bare) {s : Setting} {env : Env} {name : String}
    {v : Value} (hv : s.resolve? h env name = some v) : v.isBare = true :=
  (Heap.bare_iff_all.mp hbare).resolve? (fun _ _ => Registry.isBare_of_lookup?) hv

theorem Heap.Bare.resolve {h : Heap} (hbare : h.Bare) {s : Setting} {env : Env} {name : String}
    {v : Value} (hv : s.resolve h env name = .ok v) : v.isBare = true :=
  hbare.resolve? ((gives_resolve s h env name).result v hv)

/-- The object that an assignment stores into has been found by its name. -/
theorem Heap.All.place {P : Value → Prop} {s : Setting} {h : Heap} (hall : h.All P)
    (hregistry : ∀ name v, s.registry.lookup? name = some v → P v) {env : Env} {target : Target}
    {r : ObjectRef} {name : String} (hplace : s.place h env target = .ok (.field r name)) :
    P (.object r) := by
  unfold Setting.place at hplace
  split at hplace
  · split at hplace <;> cases hplace
  · split at hplace
    · cases hplace
    · next owner howner =>
        have hvalue := hall.unbox (hall.resolve? hregistry howner)
        split at hplace
        · next r' hr' =>
            rw [hr'] at hvalue
            cases hplace
            exact hvalue
        · cases hplace
        · cases hplace

theorem gives_place (s : Setting) (h : Heap) (env : Env) (target : Target) :
    Gives (fun _ => True) (s.place h env target) := by
  unfold Setting.place
  split
  · split
    · exact .ok trivial
    · exact .new (by decide)
  · split
    · exact .new (by decide)
    · split
      · exact .ok trivial
      · exact .new (by decide)
      · exact .new (by decide)

namespace Expression

theorem itemsOf_of_compile {e : Expression} {c : Code} (h : e.compile = .ok c) :
    Code.itemsOf e.tokens = .ok c.items := by
  unfold compile at h
  split at h
  · next hitems =>
      obtain rfl := Except.ok.inj h
      exact hitems
  · cases h

/-- What does not compile is an error of form, and it is known where it stands. -/
theorem failure_of_compile {e : Expression} {f : Failure} (h : e.compile = .error f) :
    f.kind = .syntaxError ∧ f.location = some e.location := by
  unfold compile at h
  split at h
  · cases h
  · obtain rfl := Except.error.inj h
    exact ⟨rfl, rfl⟩

theorem plain_of_compile {e : Expression} {f : Failure} (h : e.compile = .error f) : f.Plain := by
  unfold compile at h
  split at h
  · cases h
  · obtain rfl := Except.error.inj h
    exact ⟨rfl, rfl⟩

end Expression

/-! ## The standard library -/

namespace Primitive

theorem gives_numeric (name : String) (v : Value) : Gives (fun _ => True) (numeric name v) := by
  unfold numeric
  split
  · exact .ok trivial
  · exact .new (by decide)

/-- The best of some values is one of them. -/
theorem gives_extremeFrom (name : String) (better : Float → Float → Bool) (best : Value)
    (x : Float) (vs : List Value) :
    Gives (fun v => v ∈ best :: vs) (extremeFrom name better best x vs) := by
  induction vs generalizing best x with
  | nil => exact .ok List.mem_cons_self
  | cons v vs ih =>
      refine (gives_numeric name v).bind fun y _ => ?_
      split
      · exact (ih v y).imp fun hu => List.mem_cons_of_mem best hu
      · refine (ih best x).imp fun hu => ?_
        exact List.mem_cons.mpr ((List.mem_cons.mp hu).imp_right (List.mem_cons_of_mem v))

theorem madeOf_of_mem_choices {args : List Value} {v : Value} (hv : v ∈ choices args) :
    v.MadeOf args := by
  unfold choices at hv
  split at hv
  · exact .of_mem_list hv rfl
  · exact .of_mem hv

theorem gives_extreme (name : String) (better : Float → Float → Bool) (args : List Value) :
    Gives (Value.MadeOf args) (extreme name better args) := by
  unfold extreme
  split
  · exact .new (by decide)
  · next v vs heq =>
      refine (gives_numeric name v).bind fun x _ => (gives_extremeFrom name better v x vs).imp ?_
      exact fun hu => madeOf_of_mem_choices (heq ▸ hu)

theorem gives_round (h : Heap) (v : Value) (places : Option Value) :
    Gives Value.IsScalar (roundOf h v places) := by
  refine (gives_numeric "round" v).bind fun x _ => ?_
  split
  · split
    · exact .ok trivial
    · refine .ok ?_
      simp only [roundWhole]
      split <;> trivial
  · simp only
    split
    · split
      · exact .ok trivial
      · exact .new (by decide)
    · exact .new (by decide)

theorem gives_abs (v : Value) : Gives Value.IsScalar (absOf v) := by
  unfold absOf
  split
  · split
    · exact .ok trivial
    · exact .new (by decide)
  · have hnumeric := gives_numeric "abs" v
    cases hx : numeric "abs" v with
    | ok x => exact .ok trivial
    | error f => exact .error (hnumeric.failure f hx)

theorem gives_item (v index : Value) : Gives (Value.MadeOf [v]) (itemOf v index) := by
  unfold itemOf
  split
  · next items =>
      split
      · next i =>
          simp only
          split
          · next w hw =>
              have hmem : w ∈ items := by
                split at hw
                · exact List.mem_of_getElem? hw
                · contradiction
              exact .ok (.of_mem_list hmem rfl)
          · exact .new (by decide)
      · exact .new (by decide)
  · exact .new (by decide)

/-- The standard library puts nothing into a value but what is in the arguments. -/
theorem gives_call (h : Heap) (p : Primitive) (args : List Value) :
    Gives (Value.MadeOf args) (p.call h args) := by
  have hscalar : ∀ {x : Except Failure Value}, Gives Value.IsScalar x →
      Gives (Value.MadeOf args) x := fun hx => hx.imp Value.IsScalar.madeOf
  cases p with
  | abs => exact hscalar (gives_abs _)
  | round => exact hscalar (gives_round h _ _)
  | min => exact gives_extreme _ _ args
  | max => exact gives_extreme _ _ args
  | pi => exact hscalar (.ok trivial)
  | length =>
      simp only [call, lengthOf]
      split
      · exact hscalar (.ok trivial)
      · exact hscalar (.ok trivial)
      · exact .new (by decide)
  | size =>
      simp only [call, sizeOfValue]
      split
      · exact hscalar (.ok trivial)
      · exact hscalar (.ok trivial)
      · exact hscalar (.ok trivial)
      · exact .new (by decide)
  | text => exact hscalar (.ok trivial)
  | list => exact .ok fun P hP hargs => hP.list.mpr hargs
  | item =>
      refine (gives_item (args.headD .empty) _).imp fun hw P hP hargs => hw P hP ?_
      refine List.forall_mem_singleton.mpr ?_
      cases args with
      | nil => exact hP.scalar trivial
      | cons v vs => exact hargs v List.mem_cons_self

end Primitive

/-! ## Extensions -/

def Extension.Answers (s : Setting) (h : Heap) (e : Extension) (args : List Value)
    (answer : HostAnswer) : Prop :=
  e.primitive = none ∧ s.host e.name args h.text = answer

def Host.Keeps (P : Value → Prop) (host : Host) : Prop :=
  ∀ name args text v, (∀ a ∈ args, P a) → host name args text = .value v → P v

theorem Host.keeps_none (P : Value → Prop) : Host.none.Keeps P :=
  fun _ _ _ _ _ hv => nomatch hv

def Host.Bare (host : Host) : Prop :=
  ∀ name args text v, areBare args = true → host name args text = .value v → v.isBare = true

theorem Host.bare_iff_keeps {host : Host} :
    host.Bare ↔ host.Keeps fun v => v.isBare = true := by
  simp only [Host.Bare, Host.Keeps, areBare_iff]

theorem Host.bare_none : Host.none.Bare :=
  Host.bare_iff_keeps.mpr (Host.keeps_none _)

namespace Extension

variable {s : Setting} {h : Heap} {e : Extension} {args : List Value}

theorem checkedCall_eq (host : Host) (h : Heap) (e : Extension) (args : List Value) :
    e.checkedCall host h args = e.call host h args ∨
      ∃ f, e.checkedCall host h args = .failure f ∧ f.Ordinary := by
  unfold checkedCall Arity.check
  split
  · exact Or.inl rfl
  · next f hf =>
      split at hf
      · contradiction
      · obtain rfl := Except.error.inj hf
        exact Or.inr ⟨_, rfl, Failure.ordinary_new (by decide)⟩

/-- Only the host fails other than operations do. -/
theorem answers_of_call {f : Failure} (hcall : e.call s.host h args = .failure f) :
    f.Ordinary ∨ e.Answers s h args (.failure f) := by
  unfold Extension.call at hcall
  split at hcall
  · next p _ =>
      split at hcall
      · contradiction
      · next g hg =>
          obtain rfl := HostAnswer.failure.inj hcall
          exact Or.inl ((Primitive.gives_call h p args).failure g hg)
  · next hprimitive => exact Or.inr ⟨hprimitive, hcall⟩

/-- Only the host breaks down. -/
theorem answers_of_call_crash {message : Option String}
    (hcall : e.call s.host h args = .crash message) : e.Answers s h args (.crash message) := by
  unfold Extension.call at hcall
  split at hcall
  · split at hcall <;> contradiction
  · next hprimitive => exact ⟨hprimitive, hcall⟩

theorem answers_of_checkedCall {f : Failure} (hcall : e.checkedCall s.host h args = .failure f) :
    f.Ordinary ∨ e.Answers s h args (.failure f) := by
  rcases checkedCall_eq s.host h e args with heq | ⟨g, heq, hg⟩
  · exact answers_of_call (heq ▸ hcall)
  · obtain rfl := HostAnswer.failure.inj (heq.symm.trans hcall)
    exact Or.inl hg

theorem answers_of_checkedCall_crash {message : Option String}
    (hcall : e.checkedCall s.host h args = .crash message) :
    e.Answers s h args (.crash message) := by
  rcases checkedCall_eq s.host h e args with heq | ⟨g, heq, -⟩
  · exact answers_of_call_crash (heq ▸ hcall)
  · have hne := heq.symm.trans hcall
    contradiction

/-- An extension answers a value with a property if it is given such values. -/
theorem keeps_call {P : Value → Prop} (hP : Value.Pervasive P) (hhost : s.host.Keeps P)
    (hargs : ∀ a ∈ args, P a) {v : Value} (hcall : e.call s.host h args = .value v) : P v := by
  unfold Extension.call at hcall
  split at hcall
  · next p _ =>
      split at hcall
      · next w hw =>
          rw [← HostAnswer.value.inj hcall]
          exact (Primitive.gives_call h p args).result w hw P hP hargs
      · contradiction
  · exact hhost e.name args h.text v hargs hcall

theorem keeps_checkedCall {P : Value → Prop} (hP : Value.Pervasive P) (hhost : s.host.Keeps P)
    (hargs : ∀ a ∈ args, P a) {v : Value} (hcall : e.checkedCall s.host h args = .value v) :
    P v := by
  rcases checkedCall_eq s.host h e args with heq | ⟨g, heq, -⟩
  · exact keeps_call hP hhost hargs (heq ▸ hcall)
  · have hne := heq.symm.trans hcall
    contradiction

theorem isBare_of_call {v : Value} (hhost : Host.Bare s.host) (hargs : areBare args = true)
    (hcall : e.call s.host h args = .value v) : v.isBare = true :=
  keeps_call Value.pervasive_isBare (Host.bare_iff_keeps.mp hhost) (areBare_iff.mp hargs) hcall

theorem isBare_of_checkedCall {v : Value} (hhost : Host.Bare s.host) (hargs : areBare args = true)
    (hcall : e.checkedCall s.host h args = .value v) : v.isBare = true :=
  keeps_checkedCall Value.pervasive_isBare (Host.bare_iff_keeps.mp hhost) (areBare_iff.mp hargs)
    hcall

end Extension

end Statute
