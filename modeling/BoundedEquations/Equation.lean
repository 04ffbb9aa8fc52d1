import BoundedEquations.Variable

/-!
# `BoundedEquations.Equation`: equalities, inequalities and sets of them

An equation compares a variable with a number or with another variable. It is an equality or an
inequality. An equation set joins equations by "and" or by "or".

Equations are compared by the names in them and not by the widths of their variables.
-/

set_option autoImplicit false

namespace BoundedEquations

/-- What a variable is compared with. -/
inductive Operand where
  | number (value : Nat)
  | var (x : Variable)

namespace Operand

/-- Variables in operands are compared by name. -/
instance : BEq Operand where
  beq
    | .number v, .number w => v == w
    | .var x, .var y => x == y
    | _, _ => false

/-- The number, or the name of the variable. -/
def text : Operand → String
  | .number v => toString v
  | .var x => x.name

end Operand

/-- A variable, what it is compared with, and whether the two are to be equal or different. -/
structure Equation where
  lhs : Variable
  rhs : Operand
  isEquality : Bool

namespace Equation

/-- Compares a variable with a number. -/
def ofValue (x : Variable) (value : Nat) (isEquality : Bool) : Equation :=
  ⟨x, .number value, isEquality⟩

/-- Compares two variables. -/
def ofVars (x y : Variable) (isEquality : Bool) : Equation := ⟨x, .var y, isEquality⟩

/-- Equations are compared part by part, and variables in them by name. -/
instance : BEq Equation :=
  ⟨fun e f => e.lhs == f.lhs && e.rhs == f.rhs && e.isEquality == f.isEquality⟩

/-- The two sides with `==` or `!=` between them. -/
def text (e : Equation) : String :=
  e.lhs.name ++ (if e.isEquality then " == " else " != ") ++ e.rhs.text

/-- An equation is written as its two sides. -/
instance : ToString Equation := ⟨text⟩

end Equation

/-- How the members of an equation set are joined. -/
inductive Connective where
  | conjunction
  | disjunction
deriving DecidableEq

/-- The sign between the members of a set. -/
def Connective.sign : Connective → String
  | .conjunction => " && "
  | .disjunction => " || "

/-- Equations that are to hold all together, or of which one is to hold. -/
structure EquationSet where
  connective : Connective
  equations : List Equation

namespace EquationSet

/-- The set without members. -/
def empty (connective : Connective) : EquationSet := ⟨connective, []⟩

/-- The number of members. Repeated ones are counted each time. -/
def size (set : EquationSet) : Nat := set.equations.length

/-- The set has no members. -/
def isEmpty (set : EquationSet) : Bool := set.equations.isEmpty

/-- Adds a member behind the others. -/
def push (set : EquationSet) (e : Equation) : EquationSet :=
  ⟨set.connective, set.equations ++ [e]⟩

/-- Adds members behind the others. -/
def append (set : EquationSet) (es : List Equation) : EquationSet :=
  ⟨set.connective, set.equations ++ es⟩

/-- Sets are compared by connective and member by member, in their order. -/
instance : BEq EquationSet :=
  ⟨fun set other => set.connective == other.connective && set.equations == other.equations⟩

/-- The members in parentheses, joined by the sign of the connective. -/
def text (set : EquationSet) : String :=
  "(" ++ set.connective.sign.intercalate (set.equations.map Equation.text) ++ ")"

/-- A set is written as its members in parentheses. -/
instance : ToString EquationSet := ⟨text⟩

/-- The set asks for a choice among its members: it is a disjunction of at least two. -/
def IsChoice (set : EquationSet) : Prop := set.connective = .disjunction ∧ 1 < set.size

/-- Whether a set asks for a choice is decided by its connective and its size. -/
instance (set : EquationSet) : Decidable set.IsChoice :=
  inferInstanceAs (Decidable (set.connective = .disjunction ∧ 1 < set.size))

end EquationSet

end BoundedEquations
