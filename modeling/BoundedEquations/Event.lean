import BoundedEquations.Domain.Basic
import BoundedEquations.Equation

/-!
# `BoundedEquations.Event`: what is reported along the way

While a problem is built and solved it reports its steps as events. An event is data: variables
are recorded by name, and `Event.message` writes the line that is shown. Each event has a level.
The level `trace` is for the single steps of a pass, the level `debug` for their turning points.

An event list answers which equality was substituted when, which inequality was looked at, which
variable was split on, and which of its values were tried.
-/

set_option autoImplicit false

namespace BoundedEquations

/-- How fine-grained a report is. -/
inductive Level where
  | debug
  | trace
deriving DecidableEq

/-- The level in capitals. -/
def Level.label : Level → String
  | .debug => "DEBUG"
  | .trace => "TRACE"

/-- A step that is reported. -/
inductive Event where
  /-- A choice turns a system into one branch for each member. -/
  | branching (set : EquationSet)
  /-- Solving begins. The numbers count declared variables, edges of the two graphs, branches. -/
  | solving (declared equalities inequalities branches : Nat)
  /-- A variable has no value from the start. -/
  | emptyDomain
  /-- An equality is taken up for substitution. -/
  | equality (lhs rhs : String)
  /-- Two equal variables are also to differ. -/
  | contradiction (lhs rhs : String)
  /-- The variables known to equal `lhs` have no value in common. -/
  | emptyClass (lhs : String)
  /-- An inequality is taken up for propagation. -/
  | inequality (lhs rhs : String)
  /-- Two variables that are to differ are fixed to the same value. -/
  | clash (lhs rhs : String) (domain : Domain)
  /-- A variable has no value left once the fixed value of another is taken out. -/
  | exhausted (name : String) (fixed : Domain)
  /-- The inequalities that are left hold for some assignment without a search. -/
  | roomForAll
  /-- The search splits on a variable. -/
  | split (name : String) (candidates : Domain)
  /-- The search fixes a variable to a value. -/
  | trying (name : String) (value : Nat)

namespace Event

/-- The level of an event. -/
def level : Event → Level
  | .equality .. | .inequality .. | .roomForAll | .trying .. => .trace
  | _ => .debug

/-- The line shown for an event. -/
def message : Event → String
  | .branching set => s!"add_equation_set: splitting into {set.size} branches on {set}"
  | .solving declared equalities inequalities branches =>
    s!"solve(vars = {declared}, eq = {equalities}, ne = {inequalities}, branches = {branches})"
  | .emptyDomain => "solve: empty domain"
  | .equality lhs rhs => s!"handle_equality({lhs} == {rhs})"
  | .contradiction lhs rhs => s!"conflict: {lhs} == {rhs} && {lhs} != {rhs}"
  | .emptyClass lhs => s!"conflict: empty domain for the class of {lhs}"
  | .inequality lhs rhs => s!"handle_inequality({lhs} != {rhs})"
  | .clash lhs rhs domain => s!"conflict: {lhs} != {rhs} with dom = {domain}"
  | .exhausted name fixed => s!"conflict: dom({name}) is empty after excluding {fixed}"
  | .roomForAll => "solve_inequalities: satisfiable without search"
  | .split name candidates => s!"case split on {name} in {candidates}"
  | .trying name value => s!"case split: trying {name} = {value}"

end Event

end BoundedEquations
