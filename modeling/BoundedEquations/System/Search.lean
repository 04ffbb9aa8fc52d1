import BoundedEquations.Domain.Cursor
import BoundedEquations.System.Propagation
import BoundedEquations.System.Quotient

/-!
# `BoundedEquations.System.Search`: whether a system has a solution

`System.solve` first makes equal variables one and then searches. A search step propagates the
inequalities. If each variable then has more values than variables to differ from, values can be
handed out one variable at a time, and the system has a solution. Otherwise the search splits: it
fixes one variable to each of its values in turn, in ascending order, and stops at the first value
for which the rest has a solution.

The pass after a split drops every inequality of the variable that was split on. So splits are
never nested deeper than there are variables with inequalities, and that number bounds the
recursion.
-/

set_option autoImplicit false

namespace BoundedEquations

/-- How a problem is solved. -/
structure Config where
  /-- Answer without a search when every variable has room. -/
  pigeonhole : Bool := true
deriving DecidableEq

/-- Tries the values from a cursor on, up to the first for which the test answers `true`. -/
def Domain.Cursor.anyTraced (test : Nat → Traced Bool) (c : Domain.Cursor) : Traced Bool :=
  match _ : c.next with
  | .error fault => Traced.fail fault
  | .ok none => return false
  | .ok (some (v, c')) => do
    if ← test v then
      return true
    else
      c'.anyTraced test
termination_by c.remaining
decreasing_by exact Domain.Cursor.remaining_next (by assumption)

/-- The first entry of a list with the least number. -/
def firstLeast? {α : Type} : List (α × Nat) → Option (α × Nat)
  | [] => none
  | (a, n) :: rest =>
    match firstLeast? rest with
    | some (b, m) => if m < n then some (b, m) else some (a, n)
    | none => some (a, n)

namespace System

/-- The variables with inequalities, each with the size of its domain. -/
def constrained (s : System) : Except Fault (List (Variable × Nat)) :=
  s.inequalities.vertices.mapM fun x => return (x, (← s.domainOf x).size)

/-- The variable to split on, if a split is needed. A variable is tight if it has no more values
than variables to differ from. The first tight variable of the smallest domain is taken. If none
is tight no split is needed, unless the configuration forbids that shortcut. Then the first of all
constrained variables with the smallest domain is taken. -/
def splitVariable? (config : Config) (s : System) : Except Fault (Option Variable) := do
  let sized ← s.constrained
  match firstLeast? (sized.filter fun (x, size) => size ≤ s.inequalities.degree x) with
  | some (x, _) => return some x
  | none => return if config.pigeonhole then none else (firstLeast? sized).map Prod.fst

/-- What a search step arrives at. -/
inductive Progress where
  /-- The question is answered. -/
  | decided (answer : Bool)
  /-- The values of a variable are to be tried. -/
  | split (s : System) (x : Variable) (candidates : Domain)

/-- A search step: propagates the inequalities and either answers or chooses a variable. -/
def advance (config : Config) (s : System) : Traced Progress := do
  if s.inequalities.isEmpty then
    return .decided true
  else if s.hasEmptyDomain then
    return .decided false
  else
    match ← s.propagate with
    | none => return .decided false
    | some s' =>
      match ← s'.splitVariable? config with
      | none =>
        Traced.emit .roomForAll
        return .decided true
      | some x =>
        let candidates ← s'.domainOf x
        Traced.emit (.split x.name candidates)
        return .split s' x candidates

/-- Whether a system without equalities has a solution. At most `depth` splits are nested. -/
def search (config : Config) : Nat → System → Traced Bool
  | 0, s => do
    match ← s.advance config with
    | .decided answer => return answer
    | .split .. => Traced.fail .splitsExhausted
  | depth + 1, s => do
    match ← s.advance config with
    | .decided answer => return answer
    | .split s' x candidates =>
      candidates.cursor.anyTraced fun v => do
        Traced.emit (.trying x.name v)
        search config depth (s'.setDomain x (.singleton v))

/-- Whether a system has a solution. -/
def solve (config : Config) (s : System) : Traced Bool := do
  Traced.emit (.solving s.domains.size s.equalities.edges.length s.inequalities.edges.length 0)
  if s.hasEmptyDomain then
    Traced.emit .emptyDomain
    return false
  else
    match ← s.quotient with
    | none => return false
    | some s' => s'.search config s'.inequalities.vertices.length

end System

end BoundedEquations
