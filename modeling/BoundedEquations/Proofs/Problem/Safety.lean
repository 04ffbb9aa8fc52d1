import BoundedEquations.Proofs.Problem.Decision
import BoundedEquations.Proofs.System.Reports

/-!
# `BoundedEquations.Proofs.Problem.Safety`: solving never ends with a fault

Solving checks its own inner conditions as it goes along: that two different variables are
substituted or told apart, that a merge makes no loop, that no equality is left after the last
substitution, that every variable looked up has a domain, that the splits are not nested too deep,
and that a cursor does not run past its last range. Each check that fails is a fault, and a fault is
the end of the computation. So an answer means that every check on the way to it has passed, on
all levels of the search. The theorems:

* `CaseTree.reports_solve`: a tree reports what its leaves report.
* `Event.OfSystem.proper`, `CaseTree.proper_solve`: no variable is taken up with itself.
* `Problem.Reachable.solve_answers`: every problem that can arise is answered.
-/

set_option autoImplicit false

namespace BoundedEquations

/-- An equality or inequality that is taken up has two different sides. -/
def Event.Proper : Event → Prop
  | .equality lhs rhs => lhs ≠ rhs
  | .inequality lhs rhs => lhs ≠ rhs
  | _ => True

/-- Whatever solving a single system reports is proper. -/
theorem Event.OfSystem.proper {event : Event} (h : event.OfSystem) : event.Proper := by
  cases event with
  | equality lhs rhs => exact h
  | inequality lhs rhs => exact h
  | _ => trivial

open Traced

namespace CaseTree

variable {P : Event → Prop} {config : Config}

mutual

/-- Solving a tree reports what solving its leaves reports, and one event for each node above
them. -/
theorem reports_solve (hfork : ∀ branches, P (.solving 0 0 0 branches)) : (t : CaseTree) →
    (∀ s ∈ t.leaves, (s.solve config).Reports P) → (t.solve config).Reports P
  | .leaf s, h => h s List.mem_cons_self
  | .anyOf branches, h => reports_emit_then (hfork _) (reports_solveFirst hfork branches h)

/-- The same for several trees. -/
theorem reports_solveFirst (hfork : ∀ branches, P (.solving 0 0 0 branches)) :
    (ts : List CaseTree) → (∀ s ∈ leavesOf ts, (s.solve config).Reports P) →
      (solveFirst config ts).Reports P
  | [], _ => reports_pure false
  | t :: rest, h => by
    have hfirst := reports_solve hfork t fun s hs => h s (List.mem_append_left _ hs)
    refine hfirst.bind fun answer => ?_
    cases answer with
    | true => exact reports_pure true
    | false => exact reports_solveFirst hfork rest fun s hs => h s (List.mem_append_right _ hs)

end

/-- What solving a tree reports is proper, with or without alternatives. -/
theorem proper_solve (config : Config) (t : CaseTree) : (t.solve config).Reports Event.Proper := by
  refine reports_solve (fun _ => trivial) t fun s _ => ?_
  exact (System.reports_solve s config).mono fun _ h => h.proper

end CaseTree

namespace Problem

/-- **Solving is answered**, whatever calls have been made and refused, and in each configuration.
None of the faults that a failed check would report comes up. On the way to the answer no
variable is ever taken up for an equality or an inequality with itself. -/
theorem Reachable.solve_answers {p : Problem} (h : Reachable p) (config : Config) :
    (∃ answer, (Problem.mk config p.tree).solve.result = .ok answer) ∧
      ∀ event ∈ (Problem.mk config p.tree).solve.events, event.Proper := by
  obtain ⟨declared, hsound⟩ := h.sound
  obtain ⟨answer, hanswer, _⟩ := CaseTree.solve_decides config p.tree hsound.wellFormed
  exact ⟨⟨answer, hanswer⟩, CaseTree.proper_solve config p.tree answer hanswer⟩

/-- A conjunction whose second member mentions a variable that the two choices do not declare. -/
def halfRefused : Call :=
  let b : Variable := ⟨"b", 1, Nat.one_pos⟩
  let c : Variable := ⟨"c", 1, Nat.one_pos⟩
  .equationSet ⟨.conjunction, [.ofValue b 1 true, .ofVars b c false]⟩

/-- The first of six systems takes the first member, and then the call is refused. What it leaves
can be solved all the same. -/
theorem solve_answers_halfRefused :
    (((new {}).run twoChoices).apply halfRefused).fault = some (.undeclared "c") ∧
      Reachable (((new {}).run twoChoices).apply halfRefused).state ∧
      ∃ answer, (((new {}).run twoChoices).apply halfRefused).state.solve.result = .ok answer := by
  have hreachable : Reachable (((new {}).run twoChoices).apply halfRefused).state :=
    ((Reachable.new {}).run twoChoices).apply halfRefused
  refine ⟨rfl, hreachable, ?_⟩
  exact (hreachable.solve_answers {}).1

end Problem

end BoundedEquations
