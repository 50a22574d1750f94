/-!
# Bindings

A finite map from names, kept as a list of pairs in which each name occurs once.
-/

namespace Statute

abbrev Bindings (α : Type) := List (String × α)

namespace Bindings

variable {α : Type}

def get? (bs : Bindings α) (name : String) : Option α :=
  List.lookup name bs

def contains (bs : Bindings α) (name : String) : Bool :=
  (bs.get? name).isSome

/-- The bindings with `name` bound to `a`, in place of what it was bound to before. -/
def set (name : String) (a : α) : Bindings α → Bindings α
  | [] => [(name, a)]
  | (n, b) :: rest => if name = n then (name, a) :: rest else (n, b) :: set name a rest

def names (bs : Bindings α) : List String :=
  bs.map (·.1)

@[simp] theorem get?_nil (name : String) : get? ([] : Bindings α) name = none := rfl

theorem get?_cons (n : String) (b : α) (rest : Bindings α) (name : String) :
    get? ((n, b) :: rest) name = if name = n then some b else get? rest name := by
  by_cases h : name = n
  · simp [get?, h]
  · simp [get?, List.lookup_cons, h, beq_false_of_ne h]

/-- After a binding the name has the new value and every other name keeps its own. -/
theorem get?_set (bs : Bindings α) (name other : String) (a : α) :
    (set name a bs).get? other = if other = name then some a else bs.get? other := by
  induction bs with
  | nil => simp [set, get?_cons]
  | cons b rest ih =>
      obtain ⟨n, v⟩ := b
      by_cases h : name = n
      · subst h
        by_cases ho : other = name <;> simp [set, get?_cons, ho]
      · by_cases ho : other = n
        · subst ho
          have : ¬ other = name := fun e => h e.symm
          simp [set, h, get?_cons, this]
        · simp [set, h, get?_cons, ho, ih]

end Bindings

end Statute
