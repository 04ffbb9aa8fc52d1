import BoundedEquations.Proofs.Problem.Meaning
import BoundedEquations.Proofs.System.Search

/-!
# `BoundedEquations.Proofs.Problem.Decision`: solving a problem decides whether it has a solution

The parts come together here. The calls build a tree that holds under their solutions, the tree has
a solution when one of its leaves has one, and solving a leaf decides that. The theorems:

* `CaseTree.solve_decides`: solving a tree decides whether one of its leaves has a solution.
* `tree_run_congr`: the configuration has no part in how a problem is built.
* `solve_run_decides`: solving a problem decides whether its calls have a solution, and the
  configuration makes no difference to the answer.
-/

set_option autoImplicit false

namespace BoundedEquations

namespace CaseTree

mutual

/-- Solving a tree decides whether one of its leaves has a solution. -/
theorem solve_decides (config : Config) : (t : CaseTree) → (∀ s ∈ t.leaves, s.WellFormed) →
    (t.solve config).Decides (∃ s ∈ t.leaves, s.Satisfiable)
  | .leaf s, h => by
    have hsolve := System.solve_decides config (h s List.mem_cons_self)
    exact hsolve.of_iff (by simp [leaves])
  | .anyOf branches, h => solveFirst_decides config branches h

/-- The same for the leaves of several trees. -/
theorem solveFirst_decides (config : Config) : (ts : List CaseTree) →
    (∀ s ∈ leavesOf ts, s.WellFormed) →
    (solveFirst config ts).Decides (∃ s ∈ leavesOf ts, s.Satisfiable)
  | [], _ => ⟨false, rfl, by simp [leavesOf]⟩
  | t :: rest, h => by
    have hfirst := solve_decides config t fun s hs => h s (List.mem_append_left _ hs)
    have hrest := solveFirst_decides config rest fun s hs => h s (List.mem_append_right _ hs)
    rw [solveFirst]
    exact (hfirst.or_else hrest).of_iff (by simp [leavesOf, or_and_right, exists_or])

end

end CaseTree

namespace Problem

open CaseTree

/-- Two problems with the same tree take the same calls in the same way. -/
theorem tree_run_congr {p q : Problem} (h : p.tree = q.tree) (calls : List Call) :
    (p.Accepts calls ↔ q.Accepts calls) ∧ (p.run calls).tree = (q.run calls).tree := by
  induction calls generalizing p q with
  | nil => exact ⟨Iff.rfl, h⟩
  | cons call rest ih =>
    have hfault : (p.apply call).fault = (q.apply call).fault := by
      rw [apply_eq, apply_eq, h]
      rfl
    have htree : (p.apply call).state.tree = (q.apply call).state.tree := by
      rw [apply_eq, apply_eq, h]
      rfl
    obtain ⟨haccepts, hrun⟩ := ih htree
    refine ⟨?_, hrun⟩
    rw [Accepts, Accepts, hfault, haccepts]

/-- **Solving a problem decides whether its calls have a solution.** The answer is the same in each
configuration. -/
theorem solve_run_decides (config : Config) (calls : List Call)
    (h : (new config).Accepts calls) :
    ((new config).run calls).solve.Decides (∃ σ, Solves σ calls) ∧
      ∀ config', ((new config').run calls).solve.result
        = ((new config).run calls).solve.result := by
  have hdecides : ∀ config', (new config').Accepts calls →
      ((new config').run calls).solve.Decides (∃ σ, Solves σ calls) := by
    intro config' haccepts
    have hreachable : Reachable ((new config').run calls) := (Reachable.new config').run calls
    obtain ⟨declared, hsound⟩ := hreachable.sound
    refine (CaseTree.solve_decides _ _ hsound.wellFormed).of_iff ?_
    -- Some leaf has a solution just when some assignment solves the tree.
    have hmeaning : ∀ σ, _ ↔ Solves σ calls := fun σ => holds_run_iff_solves haccepts
    rw [← exists_congr hmeaning]
    simp only [System.Satisfiable, CaseTree.Holds]
    constructor
    · rintro ⟨s, hs, σ, hσ⟩
      exact ⟨σ, s, hs, hσ⟩
    · rintro ⟨σ, s, hs, hσ⟩
      exact ⟨s, hs, σ, hσ⟩
  refine ⟨hdecides config h, fun config' => ?_⟩
  -- Under another configuration the same calls are accepted, and the question stays the same.
  have haccepts := (tree_run_congr (p := new config') (q := new config) rfl calls).1.mpr h
  obtain ⟨b, hb, hiff⟩ := hdecides config h
  obtain ⟨b', hb', hiff'⟩ := hdecides config' haccepts
  rw [hb, hb', Bool.eq_iff_iff.mpr (hiff'.trans hiff.symm)]

/-- With `a = 1` and `b = 0` both choices can be settled. -/
theorem solve_run_twoChoices :
    (new {}).Accepts twoChoices ∧ ((new {}).run twoChoices).solve.result = .ok true := by
  have haccepts : (new {}).Accepts twoChoices := ⟨rfl, rfl, rfl, rfl, rfl, trivial⟩
  obtain ⟨b, hb, hiff⟩ := (solve_run_decides {} twoChoices haccepts).1
  have hsolves : Solves (fun name => if name = "a" then 1 else 0) twoChoices := by
    simp [Solves, twoChoices, Call.HoldsBefore, Call.declares, EquationSet.HoldsFor,
      Equation.HoldsBefore, Equation.Holds, Equation.ofValue, Equation.ofVars, Operand.value,
      Variable.maxValue]
  obtain rfl := hiff.mpr ⟨_, hsolves⟩
  exact ⟨haccepts, hb⟩

end Problem

end BoundedEquations
