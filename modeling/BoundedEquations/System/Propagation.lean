import BoundedEquations.System.Basic

/-!
# `BoundedEquations.System.Propagation`: one pass over the inequalities

An inequality between variables without a common value holds already and is dropped. If one of its
sides is fixed to a single value, that value is taken out of the other side, and the inequality is
dropped. All others are kept. Two sides fixed to the same value are a conflict, and the answer is
`none`.

The pass goes once through the edges that the graph had at its beginning, in their order. Domains
that get narrower on the way count at once for the edges after.
-/

set_option autoImplicit false

namespace BoundedEquations.System

/-- The system without the inequality between `x` and `y`. -/
def dropInequality (s : System) (x y : Variable) : System :=
  { s with inequalities := s.inequalities.erase x y }

/-- Takes the fixed value of one side of the inequality between `x` and `y` out of `other`, which
is its other side, and drops the inequality. -/
def exclude (s : System) (x y other : Variable) (fixed : Domain) : Traced (Option System) := do
  let rest := (← s.domainOf other) \ fixed
  if rest.isEmpty then
    Traced.emit (.exhausted other.name fixed)
    return none
  else
    return some ((s.setDomain other rest).dropInequality x y)

/-- Looks at one inequality. -/
def separate (s : System) (x y : Variable) : Traced (Option System) := do
  Traced.emit (.inequality x.name y.name)
  if x == y then
    Traced.fail (.trivialInequality x y)
  else
    let dx ← s.domainOf x
    let dy ← s.domainOf y
    if !dx.overlaps dy then
      return some (s.dropInequality x y)
    else
      match dx.isSingular, dy.isSingular with
      | true, true =>
        Traced.emit (.clash x.name y.name dx)
        return none
      | true, false => s.exclude x y y dx
      | false, true => s.exclude x y x dy
      | false, false => return some s

/-- Looks at the inequalities of a list one after the other, up to the first conflict. -/
def separateAll (s : System) : List (Variable × Variable) → Traced (Option System)
  | [] => return some s
  | (x, y) :: rest => do
    match ← s.separate x y with
    | none => return none
    | some s' => s'.separateAll rest

/-- One pass over all inequalities. -/
def propagate (s : System) : Traced (Option System) := s.separateAll s.inequalities.edges

end BoundedEquations.System
