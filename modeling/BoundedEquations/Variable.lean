import BoundedEquations.Fault

/-!
# `BoundedEquations.Variable`: making variables, and their values

A variable is made from a name and a width, and a width of zero is refused. Its values run from
zero to `Variable.maxValue`.
-/

set_option autoImplicit false

namespace BoundedEquations.Variable

/-- The variable of that name and width. A width of zero is refused. -/
def ofWidth (name : String) (width : Nat) : Except Fault Variable :=
  if h : 0 < width then .ok ⟨name, width, h⟩ else .error (.zeroWidth width)

/-- The largest value that fits the width. -/
def maxValue (x : Variable) : Nat := Nat.pow 2 x.width - 1

/-- The variables in name order. Variables of one name keep the order in which they are given. -/
def sort (xs : List Variable) : List Variable :=
  xs.mergeSort fun x y => !decide (y < x)

end BoundedEquations.Variable
