import Statute.Proofs.Scope.Tower

/-!
# Scopes are a stack of finite maps

Whatever is done with a stack of scopes, on its current scope or on its root, gives the answers that
a plain stack of finite maps gives. A scope that is entered is a fresh one, inside the current
scope, or inside the root or a scope outside of it, as the global scope is for the body of a call.

The scopes of a stack lie at distinct addresses, and the chains on the stack are those of a tower of
these addresses; this is all that has to be kept, since a scope is changed only through the first
chain element an operation is about.

What the particular operations promise follows in any state that is reached so: declarations fail
for names of the very scope only, assignments change the nearest binding, an outer scope does not
notice what happens to a name that an inner scope binds, and the visible names are those that can be
looked up, in their order.
-/

namespace Statute

/-- The name of a scope and what it binds. -/
structure Cell where
  name : String
  vars : Vars Value

namespace Cell

def bind (name : String) (v : Value) (c : Cell) : Cell :=
  { c with vars := c.vars.insert name v }

def binds (name : String) (c : Cell) : Bool :=
  name ∈ c.vars

end Cell

/-! ## Operations -/

namespace ScopeStack

/-- What is done with a stack of scopes. -/
inductive Op where
  /-- Enters a fresh scope inside another one. -/
  | push (on : Footing) (name : String)
  | pop
  | declare (on : Spot) (name : String) (v : Value)
  | define (on : Spot) (name : String) (v : Value)
  | assign (on : Spot) (name : String) (v : Value)
  | lookup (on : Spot) (name : String)
  | containsLocal (on : Spot) (name : String)
  | visibleNames (on : Spot)

/-- What an operation returns. -/
inductive Answer where
  | done
  | refused (f : Failure)
  /-- The name of the scope that was left, if it was not the root. -/
  | popped (name : Option String)
  | assigned (found : Bool)
  | value (v : Option Value)
  | bound (isBound : Bool)
  | names (ns : List String)

def chain (s : ScopeStack) : Spot → Env
  | .root => s.root
  | .current => s.current

/-- The address of the scope that something is done on. -/
def target (s : ScopeStack) (on : Spot) : ScopeRef :=
  (s.chain on).headD 0

/-- The chain that a fresh scope is inside of. -/
def under (s : ScopeStack) : Footing → Env
  | .below => s.current
  | .ground k => s.root.drop k

/-- The chain of the scope that an operation goes through. -/
def Op.through? (s : ScopeStack) : Op → Option Env
  | pop => none
  | push on _ => some (s.under on)
  | declare on _ _ | define on _ _ | assign on _ _ | lookup on _ | containsLocal on _
  | visibleNames on => some (s.chain on)

/-- An operation on scopes on the heap. -/
def perform : Op → Heap × ScopeStack → Answer × Heap × ScopeStack
  | .push on name, (h, s) =>
      let (h', r) := h.newScope name
      (.done, h', s.push (r :: s.under on))
  | .pop, (h, s) => (.popped (s.inner.head?.map fun env => (h.scope (env.headD 0)).name), h, s.pop)
  | .declare on name v, (h, s) =>
      match h.declare (s.target on) name v with
      | .ok h' => (.done, h', s)
      | .error f => (.refused f, h, s)
  | .define on name v, (h, s) => (.done, h.define (s.target on) name v, s)
  | .assign on name v, (h, s) =>
      match h.assign? (s.chain on) name v with
      | some h' => (.assigned true, h', s)
      | none => (.assigned false, h, s)
  | .lookup on name, (h, s) => (.value (h.lookup? (s.chain on) name), h, s)
  | .containsLocal on name, (h, s) => (.bound (h.local? (s.target on) name).isSome, h, s)
  | .visibleNames on, (h, s) => (.names (h.visibleNames (s.chain on)), h, s)

/-- One operation after the other, with their answers. -/
def run {σ : Type} (perform : Op → σ → Answer × σ) : List Op → σ → List Answer × σ
  | [], x => ([], x)
  | op :: ops, x =>
      let (answer, y) := perform op x
      let (answers, z) := run perform ops y
      (answer :: answers, z)

end ScopeStack

open ScopeStack

/-- An operation on a plain stack of maps. -/
def Tower.perform : Op → Tower Cell → Answer × Tower Cell
  | .push on name, t => (.done, t.raise (⟨name, ∅⟩, on))
  | .pop, t => (.popped (t.inner.head?.map (·.1.name)), t.pop)
  | .declare on name v, t =>
      if (t.chain on).head?.any (·.binds name) then (.refused (Heap.alreadyDefined name), t)
      else (.done, t.update (fun _ => true) (Cell.bind name v) on)
  | .define on name v, t => (.done, t.update (fun _ => true) (Cell.bind name v) on)
  | .assign on name v, t =>
      if (t.chain on).any (·.binds name) then
        (.assigned true, t.update (·.binds name) (Cell.bind name v) on)
      else (.assigned false, t)
  | .lookup on name, t => (.value ((t.chain on).findSome? (·.vars.lookup name)), t)
  | .containsLocal on name, t => (.bound ((t.chain on).head?.any (·.binds name)), t)
  | .visibleNames on, t => (.names (Vars.visible ((t.chain on).map Cell.vars)), t)

/-! ## Scopes as maps -/

namespace Heap

variable {h : Heap} {r : ScopeRef}

def cell (h : Heap) (r : ScopeRef) : Cell :=
  ⟨(h.scope r).name, (h.scope r).vars.toVars⟩

@[simp] theorem lookup_cell (h : Heap) (r : ScopeRef) (name : String) :
    (h.cell r).vars.lookup name = h.local? r name :=
  Bindings.lookup_toVars _ name

@[simp] theorem binds_cell (h : Heap) (r : ScopeRef) (name : String) :
    (h.cell r).binds name = (h.local? r name).isSome := by
  rw [Cell.binds, Bool.eq_iff_iff, decide_eq_true_eq, ← Finmap.lookup_isSome, lookup_cell]

theorem visibleNames_eq (h : Heap) (env : Env) :
    h.visibleNames env = Vars.visible ((env.map h.cell).map Cell.vars) := by
  have hnames := Text.distinct_flatMap_names (env.map fun r => (h.scope r).vars)
  rw [List.flatMap_map] at hnames
  rw [visibleNames, hnames, List.map_map, List.map_map]
  rfl

def place (h : Heap) (env : Env) (name : String) : Nat :=
  env.findIdx fun r => (h.local? r name).isSome

theorem mem_visibleNames {env : Env} {x : String} :
    x ∈ h.visibleNames env ↔ (h.lookup? env x).isSome = true := by
  rw [visibleNames_eq, Vars.mem_visible, lookup?, List.findSome?_isSome_iff]
  simp only [List.mem_map, exists_exists_and_eq_and, ← Finmap.lookup_isSome, lookup_cell]

theorem pairwise_visibleNames (h : Heap) (env : Env) :
    (h.visibleNames env).Pairwise fun x y =>
      h.place env x < h.place env y ∨ h.place env x = h.place env y ∧ x < y := by
  have hplace : Vars.place ((env.map h.cell).map Cell.vars) = h.place env := by
    funext x
    rw [Vars.place, List.findIdx_map, List.findIdx_map, place]
    exact congrArg (List.findIdx · env) (funext fun r => h.binds_cell r x)
  have hpairwise := Vars.pairwise_visible ((env.map h.cell).map Cell.vars)
  rwa [hplace, ← visibleNames_eq] at hpairwise

theorem nodup_visibleNames (h : Heap) (env : Env) : (h.visibleNames env).Nodup := by
  refine (h.pairwise_visibleNames env).imp fun hlt => ?_
  rintro rfl
  exact hlt.elim (Nat.lt_irrefl _) fun hlt => lt_irrefl _ hlt.2

theorem cell_newScope (h : Heap) (name : String) :
    (h.newScope name).1.cell h.scopes.size = ⟨name, ∅⟩ := by
  simp [newScope, cell, scope]
  rfl

theorem cell_define (hr : r < h.scopes.size) (name : String) (v : Value) (r' : ScopeRef) :
    (h.define r name v).cell r' =
      if r = r' then (h.cell r').bind name v else h.cell r' := by
  simp only [cell, define, scope, Array.getD_eq_getD_getElem?, Array.getElem?_modify]
  by_cases hrr : r = r'
  · subst hrr
    simp [hr, Cell.bind, Bindings.toVars_set]
  · simp [hrr]

end Heap

/-! ## The refinement -/

namespace Tower

/-- The chains at the tops of cells stacked on `root`, innermost first. -/
def chainsOn {α : Type} (root : List α) : List (α × Footing) → List (List α)
  | [] => []
  | cell :: rest => chainOn root (cell :: rest) :: chainsOn root rest

def scopes (t : Tower ScopeRef) : ScopeStack :=
  ⟨t.root, chainsOn t.root t.inner⟩

/-- A tower of distinct addresses of scopes. -/
structure Stands (t : Tower ScopeRef) (h : Heap) : Prop where
  distinct : t.cells.Nodup
  allocated : ∀ r ∈ t.cells, r < h.scopes.size
  grounded : t.root ≠ []

variable {t : Tower ScopeRef} {h : Heap}

theorem chain_scopes (t : Tower ScopeRef) (on : Spot) : t.scopes.chain on = t.chain on := by
  obtain ⟨root, inner⟩ := t
  cases on with
  | root => rfl
  | current => cases inner <;> rfl

theorem Stands.chain_cons (ht : t.Stands h) (on : Spot) : ∃ r env, t.chain on = r :: env := by
  refine List.exists_cons_of_ne_nil fun hnil => ?_
  obtain ⟨root, inner⟩ := t
  match on, inner with
  | .root, _ => exact ht.grounded hnil
  | .current, [] => exact ht.grounded hnil
  | .current, _ :: _ => contradiction

theorem Stands.define (ht : t.Stands h) (r : ScopeRef) (name : String) (v : Value) :
    t.Stands (h.define r name v) :=
  ⟨ht.distinct, fun r' hr' => by rw [Heap.size_define]; exact ht.allocated r' hr', ht.grounded⟩

/-- A binding made in the first scope that satisfies `p` updates the stack of maps. -/
theorem Stands.map_define (ht : t.Stands h) {on : Spot} {r : ScopeRef} {p : Cell → Bool}
    (hr : (t.chain on).find? (p ∘ h.cell) = some r) (name : String) (v : Value) :
    t.map (h.define r name v).cell = (t.map h.cell).update p (Cell.bind name v) on := by
  have hmem := (t.chain_sublist on).mem (List.mem_of_find?_eq_some hr)
  rw [update_map ht.distinct, hr]
  refine map_congr fun r' _ => ?_
  rw [Heap.cell_define (ht.allocated r hmem), changedAt]
  simp

theorem Stands.push (ht : t.Stands h) (on : Footing) (name : String) :
    (t.raise (h.scopes.size, on)).Stands (h.newScope name).1 := by
  have hsize : (h.newScope name).1.scopes.size = h.scopes.size + 1 := by simp [Heap.newScope]
  refine ⟨List.nodup_cons.mpr ⟨fun hmem => ?_, ht.distinct⟩, ?_, ht.grounded⟩
  · exact Nat.lt_irrefl _ (ht.allocated _ hmem)
  · intro r hr
    rw [hsize]
    rcases List.mem_cons.mp hr with rfl | hr
    · exact Nat.lt_succ_self _
    · exact Nat.lt_succ_of_lt (ht.allocated r hr)

theorem Stands.map_push (ht : t.Stands h) (on : Footing) (name : String) :
    (t.raise (h.scopes.size, on)).map (h.newScope name).1.cell =
      (t.map h.cell).raise (⟨name, ∅⟩, on) := by
  have hold : t.map (h.newScope name).1.cell = t.map h.cell := by
    refine map_congr fun r hr => ?_
    rw [Heap.cell, Heap.scope_newScope_of_lt (ht.allocated r hr), Heap.cell]
  change (t.map (h.newScope name).1.cell).raise ((h.newScope name).1.cell h.scopes.size, _) = _
  rw [hold, Heap.cell_newScope]
  rfl

theorem scopes_push (t : Tower ScopeRef) (on : Footing) (r : ScopeRef) :
    (t.raise (r, on)).scopes = t.scopes.push (r :: t.scopes.under on) := by
  cases on with
  | below => exact congrArg (fun env => t.scopes.push (r :: env)) (t.chain_scopes .current).symm
  | ground k => rfl

theorem Stands.pop (ht : t.Stands h) : t.pop.Stands h := by
  have hsub : t.pop.cells.Sublist t.cells :=
    ((List.tail_sublist t.inner).map Prod.fst).append_right t.root
  exact ⟨ht.distinct.sublist hsub, fun r hr => ht.allocated r (hsub.mem hr), ht.grounded⟩

theorem scopes_pop (t : Tower ScopeRef) : t.pop.scopes = t.scopes.pop := by
  obtain ⟨root, inner⟩ := t
  cases inner <;> rfl

theorem Stands.binds_target (ht : t.Stands h) (on : Spot) (name : String) :
    ((t.map h.cell).chain on).head?.any (·.binds name) =
      (h.local? (t.scopes.target on) name).isSome := by
  obtain ⟨r, env, hchain⟩ := ht.chain_cons on
  rw [chain_map, ScopeStack.target, chain_scopes, hchain]
  exact h.binds_cell r name

theorem Stands.map_target (ht : t.Stands h) (on : Spot) (name : String) (v : Value) :
    t.map (h.define (t.scopes.target on) name v).cell =
      (t.map h.cell).update (fun _ => true) (Cell.bind name v) on := by
  obtain ⟨r, env, hchain⟩ := ht.chain_cons on
  refine ht.map_define ?_ name v
  rw [ScopeStack.target, chain_scopes, hchain]
  rfl

/-- An operation on scopes gives the answer that it gives on their maps, and the maps afterwards are
those of the scopes afterwards. -/
theorem Stands.perform (ht : t.Stands h) (op : Op) :
    ∃ (t' : Tower ScopeRef) (h' : Heap) (answer : Answer),
      ScopeStack.perform op (h, t.scopes) = (answer, h', t'.scopes) ∧
      t'.Stands h' ∧ Tower.perform op (t.map h.cell) = (answer, t'.map h'.cell) := by
  cases op with
  | push on name =>
      refine ⟨_, _, .done, ?_, ht.push on name, ?_⟩
      · rw [scopes_push]
        rfl
      · rw [Tower.perform, ht.map_push]
  | pop =>
      refine ⟨t.pop, h, .popped (t.inner.head?.map fun cell => (h.scope cell.1).name), ?_, ht.pop,
        ?_⟩
      · rw [scopes_pop, ScopeStack.perform, scopes]
        cases t.inner <;> rfl
      · rw [Tower.perform]
        cases t with | mk root inner => cases inner <;> rfl
  | declare on name v =>
      by_cases hbound : (h.local? (t.scopes.target on) name).isSome = true
      · refine ⟨t, h, .refused (Heap.alreadyDefined name), ?_, ht, ?_⟩
        · rw [ScopeStack.perform, Heap.declare, if_pos hbound]
        · rw [Tower.perform, ht.binds_target, if_pos hbound]
      · refine ⟨t, _, .done, ?_, ht.define (t.scopes.target on) name v, ?_⟩
        · rw [ScopeStack.perform, Heap.declare, if_neg hbound]
        · rw [Tower.perform, ht.binds_target, if_neg hbound, ht.map_target]
  | define on name v =>
      refine ⟨t, _, .done, rfl, ht.define (t.scopes.target on) name v, ?_⟩
      rw [Tower.perform, ht.map_target]
  | assign on name v =>
      have hbinds : (fun c : Cell => c.binds name) ∘ h.cell = fun r => (h.local? r name).isSome :=
        funext fun r => h.binds_cell r name
      cases hbinder : h.binder? (t.chain on) name with
      | none =>
          refine ⟨t, h, .assigned false, ?_, ht, ?_⟩
          · rw [ScopeStack.perform, chain_scopes, Heap.assign?, hbinder]
            rfl
          · rw [Tower.perform, chain_map, List.any_map, hbinds, if_neg]
            simpa [Heap.binder?] using hbinder
      | some r =>
          refine ⟨t, _, .assigned true, ?_, ht.define r name v, ?_⟩
          · rw [ScopeStack.perform, chain_scopes, Heap.assign?, hbinder]
            rfl
          · rw [Tower.perform, chain_map, List.any_map, hbinds, if_pos,
              ht.map_define (p := fun c => c.binds name) (by rw [hbinds]; exact hbinder)]
            have hbound := List.find?_some (p := fun r => (h.local? r name).isSome) hbinder
            exact List.any_eq_true.mpr ⟨r, List.mem_of_find?_eq_some hbinder, hbound⟩
  | lookup on name =>
      refine ⟨t, h, _, rfl, ht, ?_⟩
      rw [Tower.perform, chain_map, chain_scopes, Heap.lookup?, List.findSome?_map]
      simp only [Function.comp_def, Heap.lookup_cell]
  | containsLocal on name =>
      refine ⟨t, h, _, rfl, ht, ?_⟩
      rw [Tower.perform, ht.binds_target]
  | visibleNames on =>
      refine ⟨t, h, _, rfl, ht, ?_⟩
      rw [Tower.perform, chain_map, chain_scopes, h.visibleNames_eq]

/-- The same over any number of operations. -/
theorem Stands.run (ht : t.Stands h) (ops : List Op) :
    ∃ (t' : Tower ScopeRef) (h' : Heap) (answers : List Answer),
      ScopeStack.run ScopeStack.perform ops (h, t.scopes) = (answers, h', t'.scopes) ∧
      t'.Stands h' ∧
      ScopeStack.run Tower.perform ops (t.map h.cell) = (answers, t'.map h'.cell) := by
  induction ops generalizing t h with
  | nil => exact ⟨t, h, [], rfl, ht, rfl⟩
  | cons op ops ih =>
      obtain ⟨t₁, h₁, answer, hscopes, ht₁, hmaps⟩ := ht.perform op
      obtain ⟨t', h', answers, hscopes', ht', hmaps'⟩ := ih ht₁
      refine ⟨t', h', answer :: answers, ?_, ht', ?_⟩
      · simp only [ScopeStack.run, hscopes, hscopes']
      · simp only [ScopeStack.run, hmaps, hmaps']

end Tower

/-! ## What the operations promise -/

namespace ScopeStack

def Binds (h h' : Heap) (r : ScopeRef) (name : String) (v : Value) : Prop :=
  ∀ r' x, h'.local? r' x = if r' = r ∧ x = name then some v else h.local? r' x

/-- Operations each of which is made on the scope of the chain `env` or on a descendant of it. -/
def Through (env : Env) : List Op → Heap × ScopeStack → Prop
  | [], _ => True
  | op :: ops, x => (∀ env' ∈ op.through? x.2, env <:+ env') ∧ Through env ops (perform op x).2

/-- What a stack of scopes promises to who works with it. -/
structure Lawful (h : Heap) (s : ScopeStack) : Prop where
  /-- A declaration fails exactly if the very scope binds the name, and then changes nothing. -/
  declares : ∀ on name v,
    if (h.local? (s.target on) name).isSome then
      perform (.declare on name v) (h, s) = (.refused (Heap.alreadyDefined name), h, s)
    else ∃ h', perform (.declare on name v) (h, s) = (.done, h', s) ∧
      Binds h h' (s.target on) name v
  /-- An assignment to a name that is not bound changes nothing. -/
  misses : ∀ on name v, (∀ r ∈ s.chain on, h.local? r name = none) →
    perform (.assign on name v) (h, s) = (.assigned false, h, s)
  /-- An assignment changes the nearest binding and no other. -/
  assigns : ∀ on name v before r after, s.chain on = before ++ r :: after →
    (∀ r' ∈ before, h.local? r' name = none) → (h.local? r name).isSome →
    ∃ h', perform (.assign on name v) (h, s) = (.assigned true, h', s) ∧ Binds h h' r name v
  /-- A name that an inner scope binds is the same to the scopes outside of it, whatever is done
  through the inner scope and its descendants. -/
  hides : ∀ r outer name, (h.local? r name).isSome → ∀ ops, Through (r :: outer) ops (h, s) →
    ∀ env, env <:+ outer → (run perform ops (h, s)).2.1.lookup? env name = h.lookup? env name
  /-- The visible names are those that are found, each once, scope by scope from the innermost and
  in order within a scope. -/
  lists : ∀ on, ∃ names, perform (.visibleNames on) (h, s) = (.names names, h, s) ∧
    (∀ x, x ∈ names ↔ (h.lookup? (s.chain on) x).isSome) ∧ names.Nodup ∧
    names.Pairwise fun x y => h.place (s.chain on) x < h.place (s.chain on) y ∨
      h.place (s.chain on) x = h.place (s.chain on) y ∧ x < y

end ScopeStack

namespace Tower

variable {t : Tower ScopeRef} {h : Heap} {on : Spot} {r : ScopeRef} {outer : Env} {name : String}

theorem Stands.target_mem (ht : t.Stands h) (on : Spot) :
    t.scopes.target on ∈ t.scopes.chain on := by
  obtain ⟨r, env, hchain⟩ := ht.chain_cons on
  rw [ScopeStack.target, chain_scopes, hchain]
  exact List.mem_cons_self

theorem Stands.allocated_of_mem (ht : t.Stands h) (hr : r ∈ t.scopes.chain on) :
    r < h.scopes.size := by
  rw [chain_scopes] at hr
  exact ht.allocated r ((t.chain_sublist on).mem hr)

theorem Stands.declares (ht : t.Stands h) (on : Spot) (name : String) (v : Value) :
    if (h.local? (t.scopes.target on) name).isSome then
      ScopeStack.perform (.declare on name v) (h, t.scopes) =
        (.refused (Heap.alreadyDefined name), h, t.scopes)
    else ∃ h', ScopeStack.perform (.declare on name v) (h, t.scopes) = (.done, h', t.scopes) ∧
      Binds h h' (t.scopes.target on) name v := by
  split
  · next hbound => rw [ScopeStack.perform, Heap.declare, if_pos hbound]
  · next hbound =>
      refine ⟨_, by rw [ScopeStack.perform, Heap.declare, if_neg hbound], ?_⟩
      exact Heap.local?_define (ht.allocated_of_mem (ht.target_mem on)) name v

theorem misses {s : ScopeStack} (hunbound : ∀ r ∈ s.chain on, h.local? r name = none)
    (v : Value) : ScopeStack.perform (.assign on name v) (h, s) = (.assigned false, h, s) := by
  have hbinder : h.binder? (s.chain on) name = none := by
    refine List.find?_eq_none.mpr fun r hr => ?_
    rw [hunbound r hr]
    exact Bool.false_ne_true
  rw [ScopeStack.perform, Heap.assign?, hbinder]
  rfl

theorem Stands.assigns (ht : t.Stands h) {before after : Env}
    (hchain : t.scopes.chain on = before ++ r :: after)
    (hbefore : ∀ r' ∈ before, h.local? r' name = none) (hbound : (h.local? r name).isSome)
    (v : Value) :
    ∃ h', ScopeStack.perform (.assign on name v) (h, t.scopes) = (.assigned true, h', t.scopes) ∧
      Binds h h' r name v := by
  have hbinder : h.binder? (t.scopes.chain on) name = some r := by
    refine List.find?_eq_some_iff_append.mpr ⟨hbound, before, after, hchain, fun r' hr' => ?_⟩
    rw [hbefore r' hr']
    rfl
  have hmem : r ∈ t.scopes.chain on := by
    rw [hchain]
    exact List.mem_append_right before List.mem_cons_self
  refine ⟨h.define r name v, ?_, Heap.local?_define (ht.allocated_of_mem hmem) name v⟩
  rw [ScopeStack.perform, Heap.assign?, hbinder]
  rfl

/-! ### Scopes outside -/

/-- What is found first on a chain is not outside of a scope of it that would do. -/
theorem notMem_of_find? {env : Env} {p : ScopeRef → Bool} {found : ScopeRef} (hdistinct : env.Nodup)
    (hsuffix : r :: outer <:+ env) (hr : p r = true) (hfound : env.find? p = some found) :
    found ∉ outer := by
  obtain ⟨before, rfl⟩ := hsuffix
  obtain ⟨-, hcons, hdisjoint⟩ := List.nodup_append.mp hdistinct
  rw [List.find?_append, List.find?_cons_of_pos hr] at hfound
  intro hmem
  cases hbefore : before.find? p with
  | none =>
      rw [hbefore] at hfound
      obtain rfl := Option.some.inj hfound
      exact (List.nodup_cons.mp hcons).1 hmem
  | some b =>
      rw [hbefore] at hfound
      obtain rfl := Option.some.inj hfound
      exact hdisjoint b (List.mem_of_find?_eq_some hbefore) b (List.mem_cons_of_mem r hmem) rfl

/-- What an operation leaves of a name that is bound in an inner scope. -/
structure Hides (h h' : Heap) (r : ScopeRef) (outer : Env) (name : String) : Prop where
  bound : (h'.local? r name).isSome = true
  outside : ∀ r' ∈ outer, h'.local? r' name = h.local? r' name

theorem Hides.refl (hbound : (h.local? r name).isSome = true) (outer : Env) :
    Hides h h r outer name :=
  ⟨hbound, fun _ _ => rfl⟩

theorem Hides.define {found : ScopeRef} (hbound : (h.local? r name).isSome = true)
    (hallocated : found < h.scopes.size) (x : String) (v : Value)
    (houter : x = name → found ∉ outer) : Hides h (h.define found x v) r outer name := by
  constructor
  · rw [Heap.local?_define hallocated]
    split
    · rfl
    · exact hbound
  · intro r' hr'
    rw [Heap.local?_define hallocated, if_neg]
    rintro ⟨rfl, rfl⟩
    exact houter rfl hr'

theorem Stands.hides_step (ht : t.Stands h) {op : Op}
    (hthrough : ∀ env ∈ op.through? t.scopes, r :: outer <:+ env)
    (hbound : (h.local? r name).isSome = true) :
    Hides h (ScopeStack.perform op (h, t.scopes)).2.1 r outer name := by
  have hdistinct : ∀ on, (t.scopes.chain on).Nodup := by
    intro on
    rw [chain_scopes]
    exact ht.distinct.sublist (t.chain_sublist on)
  have htarget : ∀ on x v, r :: outer <:+ t.scopes.chain on →
      Hides h (h.define (t.scopes.target on) x v) r outer name := by
    intro on x v hsuffix
    refine .define hbound (ht.allocated_of_mem (ht.target_mem on)) x v fun _ => ?_
    refine notMem_of_find? (p := fun _ => true) (hdistinct on) hsuffix rfl ?_
    obtain ⟨r', env, hchain⟩ := ht.chain_cons on
    rw [ScopeStack.target, chain_scopes, hchain]
    rfl
  cases op with
  | push on x =>
      refine ⟨?_, fun r' _ => ?_⟩
      · exact (Heap.local?_newScope h x r name).symm ▸ hbound
      · exact Heap.local?_newScope h x r' name
  | declare on x v =>
      rw [ScopeStack.perform, Heap.declare]
      by_cases hx : (h.local? (t.scopes.target on) x).isSome = true
      · rw [if_pos hx]
        exact .refl hbound outer
      · rw [if_neg hx]
        exact htarget on x v (hthrough _ rfl)
  | define on x v => exact htarget on x v (hthrough _ rfl)
  | assign on x v =>
      rw [ScopeStack.perform, Heap.assign?]
      cases hbinder : h.binder? (t.scopes.chain on) x with
      | none => exact .refl hbound outer
      | some found =>
          have hfound := ht.allocated_of_mem (List.mem_of_find?_eq_some hbinder)
          refine Hides.define hbound hfound x v ?_
          rintro rfl
          exact notMem_of_find? (hdistinct on) (hthrough _ rfl) hbound hbinder
  | pop | lookup _ _ | containsLocal _ _ | visibleNames _ => exact .refl hbound outer

theorem Stands.hides_run (ht : t.Stands h) {ops : List Op}
    (hthrough : Through (r :: outer) ops (h, t.scopes))
    (hbound : (h.local? r name).isSome = true) :
    Hides h (ScopeStack.run ScopeStack.perform ops (h, t.scopes)).2.1 r outer name := by
  induction ops generalizing t h with
  | nil => exact .refl hbound outer
  | cons op ops ih =>
      have hstep := ht.hides_step hthrough.1 hbound
      obtain ⟨t₁, h₁, answer, hscopes, ht₁, -⟩ := ht.perform op
      have hrest := hthrough.2
      rw [hscopes] at hstep hrest
      have hafter := ih ht₁ hrest hstep.bound
      refine ⟨?_, fun r' hr' => ?_⟩
      · simpa only [ScopeStack.run, hscopes] using hafter.bound
      · simp only [ScopeStack.run, hscopes]
        rw [hafter.outside r' hr', hstep.outside r' hr']

theorem Hides.lookup? {h' : Heap} (hhides : Hides h h' r outer name) {env : Env}
    (henv : env <:+ outer) : h'.lookup? env name = h.lookup? env name := by
  have houtside : ∀ r' ∈ env, h'.local? r' name = h.local? r' name :=
    fun r' hr' => hhides.outside r' (henv.mem hr')
  clear henv
  induction env with
  | nil => rfl
  | cons r' env ih =>
      obtain ⟨hhere, houtside⟩ := List.forall_mem_cons.mp houtside
      have hrest := ih houtside
      rw [Heap.lookup?, Heap.lookup?] at hrest ⊢
      rw [List.findSome?_cons, List.findSome?_cons, hhere, hrest]

theorem Stands.lawful (ht : t.Stands h) : Lawful h t.scopes where
  declares := ht.declares
  misses _ _ v hunbound := misses hunbound v
  assigns _ _ v _ _ _ hchain hbefore hbound := ht.assigns hchain hbefore hbound v
  hides _ _ _ hbound _ hthrough _ henv := (ht.hides_run hthrough hbound).lookup? henv
  lists _ := ⟨_, rfl, fun _ => Heap.mem_visibleNames, h.nodup_visibleNames _,
    h.pairwise_visibleNames _⟩

end Tower

/-- A stack of scopes is a stack of finite maps. It stands on any chain of distinct scopes; whatever
operations are made on it, in any order, they return what they return on the maps that these scopes
are, and in every state that is reached the operations keep their promises. -/
theorem ScopeStack.run_refines (h : Heap) (env : Env) (hground : env ≠ []) (hdistinct : env.Nodup)
    (hallocated : ∀ r ∈ env, r < h.scopes.size) (ops : List Op) :
    let reached := run perform ops (h, ⟨env, []⟩)
    reached.1 = (run Tower.perform ops ⟨env.map h.cell, []⟩).1 ∧
      Lawful reached.2.1 reached.2.2 := by
  have ht : (Tower.mk env []).Stands h := ⟨hdistinct, hallocated, hground⟩
  obtain ⟨t, h', answers, hscopes, ht', hmaps⟩ := ht.run ops
  intro reached
  have hreached : reached = (answers, h', t.scopes) := hscopes
  have hplain : run Tower.perform ops ⟨env.map h.cell, []⟩ = (answers, t.map h'.cell) := hmaps
  rw [hreached, hplain]
  exact ⟨rfl, ht'.lawful⟩

/-- A name is declared again in a child of the root, and twice there; then another child is entered
from the root while the first one stays on the stack. -/
theorem ScopeStack.run_refines_shadowing :
    let h := (Heap.empty.newScope "globals").1
    let ops : List Op := [.declare .root "x" (.int 1), .push .below "block",
      .declare .current "x" (.int 2), .declare .current "x" (.int 3), .lookup .root "x",
      .push (.ground 0) "call", .assign .current "x" (.int 4), .pop, .lookup .current "x",
      .lookup .root "x", .pop, .pop, .assign .root "y" .empty]
    let reached := run perform ops (h, ⟨[0], []⟩)
    reached.1 = [.done, .done, .done, .refused (Heap.alreadyDefined "x"), .value (some (.int 1)),
      .done, .assigned true, .popped (some "call"), .value (some (.int 2)),
      .value (some (.int 4)), .popped (some "block"), .popped none, .assigned false] ∧
    reached.1 = (run Tower.perform ops ⟨[0].map h.cell, []⟩).1 ∧
      Lawful reached.2.1 reached.2.2 := by
  intro h ops
  have hrefines := run_refines h [0] (by decide) (by decide) (by decide) ops
  exact ⟨rfl, hrefines⟩

end Statute
