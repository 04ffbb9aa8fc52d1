import BoundedEquations.System.Basic

/-!
# `BoundedEquations.System.Quotient`: equal variables become one

The equalities of a system sort its variables into classes. `quotient` puts a single variable in
the place of each class: it takes the least edge of the equality graph, narrows the variables at
it to their common values, and contracts the lesser end into the greater one, in both graphs. So
the variable that stays is the one with the greatest name, and it carries the common values.

The answer is `none` when a class has no common value or when two of its members are to differ.
-/

set_option autoImplicit false

namespace BoundedEquations.System

/-- The values that a variable shares with all variables of a list. -/
def commonDomain (s : System) (x : Variable) (others : List Variable) : Except Fault Domain := do
  others.foldlM (fun common y => return common ∩ (← s.domainOf y)) (← s.domainOf x)

/-- Takes the equality between `x` and `y` out of the system by putting `y` in the place of `x`.
All variables next to `x` are narrowed to the common values first. -/
def substitute (s : System) (x y : Variable) : Traced (Option System) := do
  Traced.emit (.equality x.name y.name)
  if x == y then
    Traced.fail (.trivialEquality x y)
  else if s.inequalities.hasEdge x y then
    Traced.emit (.contradiction x.name y.name)
    return none
  else
    let others := s.equalities.neighbours x
    let common ← s.commonDomain x others
    if common.isEmpty then
      Traced.emit (.emptyClass x.name)
      return none
    else
      let equalities ← s.equalities.contract x y
      let inequalities ← s.inequalities.contract x y
      return some
        { domains := (x :: others).foldl (fun ds z => ds.insert z common) s.domains
          equalities
          inequalities }

/-- The system without equalities left, or a fault if there are some. -/
def reduced (s : System) : Except Fault System :=
  if s.equalities.isEmpty then .ok s else .error (.equalitiesLeft s.text)

/-- Substitutes along the least edge of the equality graph, at most so many times. -/
def substituteAll : Nat → System → Traced (Option System)
  | 0, s => return some (← s.reduced)
  | count + 1, s =>
    match s.equalities.firstEdge? with
    | none => return some (← s.reduced)
    | some (x, y) => do
      match ← s.substitute x y with
      | none => return none
      | some s' => substituteAll count s'

/-- The system with one variable for each class of equal ones, or nothing if some class is
contradictory. Each substitution removes a vertex of the equality graph for good, so there are no
more substitutions than vertices. -/
def quotient (s : System) : Traced (Option System) :=
  substituteAll s.equalities.vertices.length s

end BoundedEquations.System
