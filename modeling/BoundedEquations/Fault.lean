import BoundedEquations.Variable.Basic

/-!
# `BoundedEquations.Fault`: why a call is refused

A `Fault` is a cause, kept as data. The sentence shown for it is `Fault.message`. Some faults come
from a comparison of two things that ought to differ. They keep both of them, and `Fault.text` shows
them below the sentence, variables with their widths.

The first five causes lie in the arguments of a call. The others name inner conditions which the
search relies on and checks as it runs.
-/

set_option autoImplicit false

namespace BoundedEquations

/-- The causes for which a call is refused. -/
inductive Fault where
  /-- A variable of no bits at all. -/
  | zeroWidth (width : Nat)
  /-- An interval whose lower end lies above its upper end. -/
  | boundsOutOfOrder (lo hi : Nat)
  /-- An edge from a vertex to itself. -/
  | selfLoop (a b : Variable)
  /-- An equation with the same variable on both sides. -/
  | selfEquation (lhs rhs : Variable)
  /-- A variable that has no domain. -/
  | undeclared (name : String)
  /-- An equality between a variable and itself came up for substitution. -/
  | trivialEquality (lhs rhs : Variable)
  /-- An inequality between a variable and itself came up for propagation. -/
  | trivialInequality (lhs rhs : Variable)
  /-- Equalities are left over after the last substitution, in a system of this text. -/
  | equalitiesLeft (system : String)
  /-- Case splits are nested deeper than there are constrained variables. -/
  | splitsExhausted
  /-- A cursor announces a value but has no range left to take it from. -/
  | cursorPastEnd
deriving DecidableEq

namespace Fault

/-- The sentence that reports a fault. -/
def message : Fault → String
  | .zeroWidth _ => "Variable width must be >= 1"
  | .boundsOutOfOrder lo hi => s!"Range bounds are out of order: [{lo}, {hi}]"
  | .selfLoop a b => s!"Self-loop {a.name} -- {b.name} is not allowed"
  | .selfEquation lhs _ => s!"Equation relates variable {lhs.name} to itself"
  | .undeclared name => s!"Variable {name} has not been declared"
  | .trivialEquality lhs rhs => s!"Unexpected equality {lhs.name} == {rhs.name}"
  | .trivialInequality lhs rhs => s!"Unexpected inequality {lhs.name} != {rhs.name}"
  | .equalitiesLeft system => s!"The set of equalities has not been reduced:\n{system}"
  | .splitsExhausted => "Case splits are nested deeper than there are variables"
  | .cursorPastEnd => "The cursor has run past the last range"

/-- The two sides of the comparison that a fault comes from, if it comes from one. -/
def sides? (printable : Char → Bool) : Fault → Option (String × String)
  | .zeroWidth width => some (toString width, "0")
  | .selfLoop a b => some (a.debugText printable, b.debugText printable)
  | .selfEquation lhs rhs | .trivialEquality lhs rhs | .trivialInequality lhs rhs =>
    some (lhs.debugText printable, rhs.debugText printable)
  | _ => none

/-- All that is shown of a fault: the sentence, and both sides of a comparison that failed. -/
def text (printable : Char → Bool) (fault : Fault) : String :=
  match fault.sides? printable with
  | some (left, right) =>
    "assertion `left != right` failed: " ++ fault.message ++ "\n  left: " ++ left ++
      "\n right: " ++ right
  | none => fault.message

end Fault

end BoundedEquations
