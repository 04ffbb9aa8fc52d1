import BoundedEquations.Domain.Algebra
import BoundedEquations.Graph
import BoundedEquations.Traced

/-!
# `BoundedEquations.System.Basic`: conjunctions of equations

A system is a conjunction. Equations with a number narrow the domain of their variable at once.
Equations between two variables become edges: equalities in one graph, inequalities in another.

A variable has to be declared before an equation may mention it. Declaring it once more gives it a
full domain again.
-/

set_option autoImplicit false

namespace BoundedEquations

/-- The domains of the declared variables, and which of them are to be equal or to differ. -/
structure System where
  domains : Table Domain
  equalities : Graph
  inequalities : Graph

namespace System

/-- The system without variables. -/
def empty : System := ⟨.empty, .empty, .empty⟩

/-- The system without variables. -/
instance : EmptyCollection System := ⟨empty⟩

/-- The declared variables in name order. -/
def declared (s : System) : List Variable := s.domains.keys

/-- The domain of a variable. A variable that is not declared is a fault. -/
def domainOf (s : System) (x : Variable) : Except Fault Domain :=
  match s.domains.find? x with
  | some d => .ok d
  | none => .error (.undeclared x.name)

/-- Replaces the domain of a variable. -/
def setDomain (s : System) (x : Variable) (d : Domain) : System :=
  { s with domains := s.domains.insert x d }

/-- Some variable has no value. -/
def hasEmptyDomain (s : System) : Bool := s.domains.values.any Domain.isEmpty

/-- Declares a variable, with all values of its width. -/
def declare (s : System) (x : Variable) : System := s.setDomain x (.full x.width)

/-- Adds an equation between a variable and a number. -/
def addValue (s : System) (x : Variable) (value : Nat) (isEquality : Bool) :
    Except Fault System := do
  let d ← s.domainOf x
  let fixed := Domain.singleton value
  return s.setDomain x (if isEquality then d ∩ fixed else d \ fixed)

/-- Adds an equation between two variables. That the two are the same is found out first, then
whether the left one is declared, then the right one. -/
def addVars (s : System) (x y : Variable) (isEquality : Bool) : Except Fault System := do
  if x == y then
    throw (.selfEquation x y)
  let _ ← s.domainOf x
  let _ ← s.domainOf y
  if isEquality then
    return { s with equalities := ← s.equalities.insert x y }
  else
    return { s with inequalities := ← s.inequalities.insert x y }

/-- Adds an equation. -/
def add (s : System) (e : Equation) : Except Fault System :=
  match e.rhs with
  | .number value => s.addValue e.lhs value e.isEquality
  | .var y => s.addVars e.lhs y e.isEquality

/-- Adds equations one after the other, up to the first that is refused. -/
def addAll (s : System) : List Equation → Outcome System
  | [] => ⟨s, none, []⟩
  | e :: rest =>
    match s.add e with
    | .ok s' => s'.addAll rest
    | .error fault => ⟨s, some fault, []⟩

/-- The edges of both graphs, one a line, equalities first. -/
def text (s : System) : String :=
  let line (sign : String) (edge : Variable × Variable) : String :=
    edge.1.name ++ sign ++ edge.2.name ++ "\n"
  "AND \x7b\n" ++ String.join (s.equalities.edges.map (line " == ")) ++
    String.join (s.inequalities.edges.map (line " != ")) ++ "\x7d\n"

end System

end BoundedEquations
