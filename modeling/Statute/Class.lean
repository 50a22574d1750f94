import Statute.Error.Kind
import Statute.Procedure

/-!
# Classes

A class is known together with its ancestors: it is the list of its levels, its own level first and
then those of its parent, grandparent and so on. Every question about inheritance is then a question
about this list. A level that stands for a kind of error is built in; it has a message in place of a
constructor.
-/

namespace Statute

/-- What one class declares by itself. -/
structure Level where
  name : String
  methods : List (String × Procedure)
  ctor : Option Procedure
  /-- The kind of error that a built-in level stands for. -/
  builtin : Option ErrorKind
deriving Inhabited

/-- A class: its own level, and the levels of its ancestors from the nearest on. -/
structure Class where
  own : Level
  ancestors : List Level
deriving Inhabited

namespace Class

def name (c : Class) : String :=
  c.own.name

def levels (c : Class) : List Level :=
  c.own :: c.ancestors

/-- The parent of a class. -/
def parent? (c : Class) : Option Class :=
  match c.ancestors with
  | [] => none
  | l :: ls => some ⟨l, ls⟩

def ancestry (c : Class) : List String :=
  c.levels.map (·.name)

def isBuiltin (c : Class) : Bool :=
  c.own.builtin.isSome

/-- The kind of error that a class stands for: that of the first built-in level. -/
def errorRoot (c : Class) : Option ErrorKind :=
  c.levels.findSome? (·.builtin)

def isA (c : Class) (name : String) : Bool :=
  c.ancestry.contains name

/-- How many leading arguments the constructors of a list of levels take: the nearest level that
is built in or has a constructor decides. -/
def arityOf : List Level → Nat
  | [] => 0
  | l :: ls =>
      if l.builtin.isSome then 1
      else match l.ctor with
        | some p => p.params.length
        | none => arityOf ls

/-- How many leading arguments the construction of a class takes. -/
def constructorArity (c : Class) : Nat :=
  arityOf c.levels

theorem constructorArity_eq (c : Class) :
    c.constructorArity =
      if c.own.builtin.isSome then 1
      else match c.own.ctor with
        | some p => p.params.length
        | none => arityOf c.ancestors := rfl

/-- The method that a class answers a name with: that of the nearest level declaring it. -/
def method? (c : Class) (name : String) : Option Procedure :=
  c.levels.findSome? fun l => l.methods.lookup name

def methodNames (c : Class) : List String :=
  (c.levels.flatMap fun l => l.methods.map (·.1)).eraseDups

def builtinLevel (k : ErrorKind) : Level :=
  ⟨k.className, [], none, some k⟩

/-- The class that stands for a kind of error; all of them descend from the root kind. -/
def builtin (k : ErrorKind) : Class :=
  ⟨builtinLevel k, if k = .general then [] else [builtinLevel .general]⟩

@[simp] theorem builtin_name (k : ErrorKind) : (builtin k).name = k.className := rfl

@[simp] theorem errorRoot_builtin (k : ErrorKind) : (builtin k).errorRoot = some k := rfl

theorem ancestry_eq (c : Class) : c.ancestry = c.name :: c.ancestors.map (·.name) := rfl

end Class

end Statute
