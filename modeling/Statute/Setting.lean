import Statute.Config.Basic
import Statute.Registry
import Statute.Scope
import Statute.Value.Text

/-!
# The setting of a computation

What a computation can see and cannot change: the registry, the configuration and the host. A name
is looked up in the scopes first and in the registry after them. An assignment first finds the place
that it stores into and then stores.
-/

namespace Statute

/-- What stays the same while a program runs. -/
structure Setting where
  registry : Registry
  config : Config
  host : Host

namespace Setting

def resolve? (s : Setting) (h : Heap) (env : Env) (name : String) : Option Value :=
  h.lookup? env name <|> s.registry.lookup? name

def undefinedBy (d : String → String → Nat) (s : Setting) (h : Heap) (env : Env) (name : String) :
    Failure :=
  .nameNotDefined name (Text.suggestBy d name (h.visibleNames env ++ s.registry.names))

def undefined (s : Setting) (h : Heap) (env : Env) (name : String) : Failure :=
  s.undefinedBy Text.distance h env name

/-- The value of a name, or the failure that it has none. -/
def resolve (s : Setting) (h : Heap) (env : Env) (name : String) : Except Failure Value :=
  match s.resolve? h env name with
  | some v => .ok v
  | none => .error (s.undefined h env name)

end Setting

/-- Where a value can be stored. -/
inductive Place where
  | binding (scope : ScopeRef) (name : String)
  | field (object : ObjectRef) (name : String)
deriving DecidableEq, Repr, Inhabited

namespace Setting

/-- The place that an assignment stores into. A name has to be bound already; a field may be new,
but only objects have fields that can be set. -/
def place (s : Setting) (h : Heap) (env : Env) (target : Target) : Except Failure Place :=
  match target.field with
  | none =>
      match h.binder? env target.name with
      | some r => .ok (.binding r target.name)
      | none => .error (s.undefined h env target.name)
  | some field =>
      match s.resolve? h env target.name with
      | none => .error (s.undefined h env target.name)
      | some owner =>
          match h.unbox owner with
          | .object r => .ok (.field r field)
          | .record r =>
              let record := h.record r
              .error (.invalidType (record.kind ++ " '" ++ record.name ++ "' is read-only"))
          | other =>
              .error (.invalidType
                ("cannot set field '" ++ field ++ "' on " ++ other.typeName))

end Setting

def Heap.store (h : Heap) (v : Value) : Place → Heap
  | .binding r name => h.define r name v
  | .field r name => h.setField r name v

end Statute
