import Statute.Statement.Basic

/-!
# Procedures

A procedure has parameters and a body. A parameter may have a default expression; the number of
arguments that a call has to supply reaches up to the last parameter without one, so a parameter
with a default that stands before one without has to be supplied as well.
-/

namespace Statute

/-- A parameter, with the expression that stands in for a missing argument. -/
structure Param where
  name : String
  default : Option Expression
deriving DecidableEq, Repr, Inhabited

/-- A procedure, method or constructor. -/
structure Procedure where
  name : String
  params : List Param
  body : Body
deriving Inhabited

namespace Procedure

/-- How many leading parameters have to be supplied, given the parameter list. -/
def requiredOf : List Param → Nat
  | [] => 0
  | p :: rest =>
      let later := requiredOf rest
      if 0 < later || p.default.isNone then later + 1 else 0

/-- How many arguments a call has to supply. -/
def required (p : Procedure) : Nat :=
  requiredOf p.params

/-- The accepted numbers of arguments, as shown in messages. -/
def arityText (p : Procedure) : String :=
  if p.required = p.params.length then toString p.required
  else toString p.required ++ " to " ++ toString p.params.length

/-- The expressions of a procedure: the defaults of its parameters, then its body. -/
def expressions (p : Procedure) : List Expression :=
  p.params.filterMap (·.default) ++ Body.expressions p.body

theorem requiredOf_le_length (ps : List Param) : requiredOf ps ≤ ps.length := by
  induction ps with
  | nil => simp [requiredOf]
  | cons p ps ih =>
      simp only [requiredOf, List.length_cons]
      split <;> omega

/-- Every parameter from the required ones on has a default. -/
theorem isSome_default_of_mem_drop {ps : List Param} {n : Nat} (hn : requiredOf ps ≤ n)
    {p : Param} (hp : p ∈ ps.drop n) : p.default.isSome := by
  induction ps generalizing n with
  | nil => simp at hp
  | cons q ps ih =>
      simp only [requiredOf] at hn
      cases n with
      | zero =>
          split at hn
          · omega
          · next h =>
              simp only [Bool.or_eq_true, decide_eq_true_eq, not_or] at h
              rcases List.mem_cons.mp (by simpa using hp) with rfl | hmem
              · simpa [Option.isSome_iff_ne_none] using h.2
              · exact ih (n := 0) (by omega) (by simpa using hmem)
      | succ n =>
          refine ih (n := n) ?_ (by simpa using hp)
          split at hn
          · omega
          · next h =>
              simp only [Bool.or_eq_true, decide_eq_true_eq, not_or] at h
              omega

end Procedure

end Statute
