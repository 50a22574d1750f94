import Statute.Error.Failure
import Statute.Heap

/-!
# Scopes

Names are looked up along a chain of scopes. A declaration always lands in the innermost scope, so
an outer binding of the same name is hidden and not touched; an assignment changes the nearest
binding there is. The scopes of a computation form a stack above a root that is never removed.
-/

namespace Statute

namespace Heap

def local? (h : Heap) (r : ScopeRef) (name : String) : Option Value :=
  (h.scope r).vars.get? name

def binder? (h : Heap) (env : Env) (name : String) : Option ScopeRef :=
  env.find? fun r => (h.local? r name).isSome

def lookup? (h : Heap) (env : Env) (name : String) : Option Value :=
  env.findSome? fun r => h.local? r name

/-- Binds a name in a scope, in place of an earlier binding there. -/
def define (h : Heap) (r : ScopeRef) (name : String) (v : Value) : Heap :=
  { h with scopes := h.scopes.modify r fun s => { s with vars := s.vars.set name v } }

def alreadyDefined (name : String) : Failure :=
  .new .duplicateName ("name '" ++ name ++ "' is already defined in this scope")

/-- Binds a name that a scope does not bind yet. -/
def declare (h : Heap) (r : ScopeRef) (name : String) (v : Value) : Except Failure Heap :=
  if (h.local? r name).isSome then .error (alreadyDefined name) else .ok (h.define r name v)

def assign? (h : Heap) (env : Env) (name : String) (v : Value) : Option Heap :=
  (h.binder? env name).map fun r => h.define r name v

/-- The names visible along a chain: scope by scope from the innermost, in order within a scope,
each name once. -/
def visibleNames (h : Heap) (env : Env) : List String :=
  Text.distinct (env.flatMap fun r => Text.sorted (h.scope r).vars.names)

/-- Binds names in a scope one after the other. -/
def defineAll (h : Heap) (r : ScopeRef) : List (String × Value) → Heap
  | [] => h
  | (name, v) :: rest => (h.define r name v).defineAll r rest

/-- A fresh scope binds nothing. -/
@[simp] theorem local?_newScope (h : Heap) (name : String) (r : ScopeRef) (x : String) :
    (h.newScope name).1.local? r x = h.local? r x := by
  simp only [newScope, local?, scope, Array.getD_eq_getD_getElem?, Array.getElem?_push]
  by_cases hr : r = h.scopes.size
  · simp [hr]
    rfl
  · simp [hr]

theorem local?_newScope_size (h : Heap) (name : String) (x : String) :
    (h.newScope name).1.local? h.scopes.size x = none := by
  rw [local?_newScope]
  simp [local?, scope]
  rfl

theorem scope_newScope_of_lt {h : Heap} {r : ScopeRef} (hr : r < h.scopes.size) (name : String) :
    (h.newScope name).1.scope r = h.scope r := by
  simp [newScope, scope, Array.getElem?_push, Nat.ne_of_lt hr]

@[simp] theorem size_define (h : Heap) (r : ScopeRef) (name : String) (v : Value) :
    (h.define r name v).scopes.size = h.scopes.size := by
  simp [define]

/-- A binding changes one name of one scope. -/
theorem local?_define {h : Heap} {r : ScopeRef} (hr : r < h.scopes.size) (name : String) (v : Value)
    (r' : ScopeRef) (x : String) :
    (h.define r name v).local? r' x = if r' = r ∧ x = name then some v else h.local? r' x := by
  simp only [define, local?, scope, Array.getD_eq_getD_getElem?, Array.getElem?_modify]
  by_cases e : r = r'
  · subst e
    simp [hr, Bindings.get?_set]
  · simp [e, Ne.symm e]

end Heap

/-- The scopes of one computation: the chain it started with, and the chains entered since then,
innermost first. -/
structure ScopeStack where
  root : Env
  inner : List Env
deriving DecidableEq, Repr, Inhabited

namespace ScopeStack

def current (s : ScopeStack) : Env :=
  s.inner.headD s.root

def push (s : ScopeStack) (env : Env) : ScopeStack :=
  { s with inner := env :: s.inner }

/-- Leaves the innermost chain; the root stays. -/
def pop (s : ScopeStack) : ScopeStack :=
  { s with inner := s.inner.tail }

def depth (s : ScopeStack) : Nat :=
  s.inner.length + 1

@[simp] theorem current_push (s : ScopeStack) (env : Env) : (s.push env).current = env := rfl

@[simp] theorem pop_push (s : ScopeStack) (env : Env) : (s.push env).pop = s := rfl

@[simp] theorem depth_push (s : ScopeStack) (env : Env) : (s.push env).depth = s.depth + 1 := rfl

end ScopeStack

end Statute
