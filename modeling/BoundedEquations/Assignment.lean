import BoundedEquations.Problem

/-!
# `BoundedEquations.Assignment`: what it means to be a solution

An assignment gives a number to each name. This module says when an equation, a set, a system or a
case tree holds under an assignment, and when an assignment solves a list of calls. Nothing here
refers to how problems are built or searched, so these are the statements that `Problem.solve` can
be measured against.

* `Equation.Holds`, `EquationSet.Holds`: one equation, and the members of a set.
* `System.Holds`, `CaseTree.Holds`: every domain and every edge, and some leaf.
* `Solves`: a whole history of calls, with the rule for variables that are declared again.
-/

set_option autoImplicit false

namespace BoundedEquations

/-- A number for each name. -/
abbrev Assignment := String → Nat

/-- The number that an operand stands for. -/
def Operand.value (σ : Assignment) : Operand → Nat
  | .number v => v
  | .var x => σ x.name

/-- The two sides have the same number or different numbers, as the equation demands. -/
def Equation.Holds (σ : Assignment) (e : Equation) : Prop :=
  if e.isEquality then σ e.lhs.name = e.rhs.value σ else σ e.lhs.name ≠ e.rhs.value σ

/-- Whether an equation holds is decided by the two values. -/
instance (σ : Assignment) (e : Equation) : Decidable (e.Holds σ) := by
  unfold Equation.Holds
  infer_instance

/-- All members of a conjunction hold, or some member of a disjunction does. A set without members
demands nothing, whatever joins it. -/
def EquationSet.HoldsFor (holds : Equation → Prop) (set : EquationSet) : Prop :=
  match set.connective with
  | .conjunction => ∀ e ∈ set.equations, holds e
  | .disjunction => set.equations = [] ∨ ∃ e ∈ set.equations, holds e

/-- The set holds under an assignment. -/
def EquationSet.Holds (σ : Assignment) (set : EquationSet) : Prop :=
  set.HoldsFor (Equation.Holds σ)

/-- Each variable has a value of its domain, and each edge of the two graphs is respected. -/
structure System.Holds (σ : Assignment) (s : System) : Prop where
  domains : ∀ entry ∈ s.domains.entries, σ entry.1.name ∈ entry.2
  equalities : ∀ x y, s.equalities.hasEdge x y = true → σ x.name = σ y.name
  inequalities : ∀ x y, s.inequalities.hasEdge x y = true → σ x.name ≠ σ y.name

/-- Some leaf holds. -/
def CaseTree.Holds (σ : Assignment) (t : CaseTree) : Prop := ∃ s ∈ t.leaves, s.Holds σ

/-! ### Histories of calls

Declaring a variable again gives it back all values of its new width. Equations between it and a
number that came before are forgotten by that, and equations between two variables are not. -/

/-- The call declares a variable of that name. -/
def Call.declares (name : String) : Call → Bool
  | .declare x => x.name == name
  | _ => false

/-- An equation as it counts in the end, given the calls that come after it. -/
def Equation.HoldsBefore (σ : Assignment) (later : List Call) (e : Equation) : Prop :=
  match e.rhs with
  | .number _ => later.any (Call.declares e.lhs.name) = true ∨ e.Holds σ
  | .var _ => e.Holds σ

/-- What a call demands in the end, given the calls that come after it. -/
def Call.HoldsBefore (σ : Assignment) (later : List Call) : Call → Prop
  | .declare x => later.any (Call.declares x.name) = true ∨ σ x.name ≤ x.maxValue
  | .equation e => e.HoldsBefore σ later
  | .equationSet set => set.HoldsFor (Equation.HoldsBefore σ later)

/-- The assignment meets the demands of all calls. -/
def Solves (σ : Assignment) : List Call → Prop
  | [] => True
  | call :: later => call.HoldsBefore σ later ∧ Solves σ later

/-! ### When a set holds -/

/-- A choice holds when one of its members does. -/
theorem EquationSet.holdsFor_of_isChoice {set : EquationSet} (h : set.IsChoice)
    (holds : Equation → Prop) : set.HoldsFor holds ↔ ∃ e ∈ set.equations, holds e := by
  obtain ⟨hkind, hsize⟩ := h
  have hne : set.equations ≠ [] := fun hnil => by
    rw [EquationSet.size, hnil] at hsize
    exact absurd hsize (by decide)
  simp [EquationSet.HoldsFor, hkind, hne]

/-- Any other set holds when all of its members do. -/
theorem EquationSet.holdsFor_of_not_isChoice {set : EquationSet} (h : ¬set.IsChoice)
    (holds : Equation → Prop) : set.HoldsFor holds ↔ ∀ e ∈ set.equations, holds e := by
  rw [EquationSet.IsChoice, not_and, EquationSet.size] at h
  rw [EquationSet.HoldsFor]
  cases hkind : set.connective with
  | conjunction => rfl
  | disjunction =>
    -- A disjunction that asks for no choice has at most one member.
    have hsize := h hkind
    match hequations : set.equations with
    | [] => simp
    | [e] => simp
    | e :: f :: rest =>
      rw [hequations] at hsize
      exact absurd (show 1 < (e :: f :: rest).length by simp) hsize

end BoundedEquations
