import BoundedEquations.System.Search

/-!
# `BoundedEquations.CaseTree`: alternatives between systems

A disjunction of equations makes a system into several, one for each member. The next one makes
each of these into several again, and so a tree arises. Its leaves are systems, and the tree has a
solution when one of its leaves has.

Every change is made to all leaves from left to right (`update`). If a leaf refuses it, the leaves
to its right are left alone, and the leaves to its left keep the change.
-/

set_option autoImplicit false

namespace BoundedEquations

/-- A system, or a list of alternatives of which one is to hold. -/
inductive CaseTree where
  | leaf (s : System)
  | anyOf (branches : List CaseTree)

namespace CaseTree

mutual

/-- The systems of a tree from left to right. -/
def leaves : CaseTree → List System
  | .leaf s => [s]
  | .anyOf branches => leavesOf branches

/-- The systems of several trees from left to right. -/
def leavesOf : List CaseTree → List System
  | [] => []
  | t :: rest => t.leaves ++ leavesOf rest

end

mutual

/-- Changes the leaves from left to right, up to the first that refuses the change. -/
def update (change : System → Outcome CaseTree) : CaseTree → Outcome CaseTree
  | .leaf s => change s
  | .anyOf branches => (updateEach change branches).map .anyOf

/-- Changes several trees from left to right, up to the first leaf that refuses the change. -/
def updateEach (change : System → Outcome CaseTree) : List CaseTree → Outcome (List CaseTree)
  | [] => ⟨[], none, []⟩
  | t :: rest =>
    let first := t.update change
    match first.fault with
    | some fault => ⟨first.state :: rest, some fault, first.events⟩
    | none =>
      let others := updateEach change rest
      ⟨first.state :: others.state, others.fault, first.events ++ others.events⟩

end

/-- Declares a variable in every leaf. -/
def declare (t : CaseTree) (x : Variable) : Outcome CaseTree :=
  t.update fun s => ⟨.leaf (s.declare x), none, []⟩

/-- Adds an equation to every leaf. -/
def add (t : CaseTree) (e : Equation) : Outcome CaseTree :=
  t.update fun s => (Outcome.ofExcept s (s.add e)).map .leaf

/-- Makes a system into one branch for each member of the set. If a member is refused the system
stays as it is. -/
def branch (s : System) (set : EquationSet) : Outcome CaseTree :=
  match set.equations.mapM s.add with
  | .ok systems => ⟨.anyOf (systems.map .leaf), none, [.branching set]⟩
  | .error fault => ⟨.leaf s, some fault, [.branching set]⟩

/-- Adds an equation set to every leaf. A choice between members branches, and the members of any
other set are added one by one. -/
def addSet (t : CaseTree) (set : EquationSet) : Outcome CaseTree :=
  t.update fun s =>
    if set.IsChoice then branch s set else (s.addAll set.equations).map .leaf

mutual

/-- Whether some leaf has a solution. The leaves are solved from left to right, up to the first
that has one. -/
def solve (config : Config) : CaseTree → Traced Bool
  | .leaf s => s.solve config
  | .anyOf branches => do
    Traced.emit (.solving 0 0 0 branches.length)
    solveFirst config branches

/-- Whether some leaf of several trees has a solution. -/
def solveFirst (config : Config) : List CaseTree → Traced Bool
  | [] => return false
  | t :: rest => do
    if ← t.solve config then
      return true
    else
      solveFirst config rest

end

mutual

/-- The systems of the tree in nested braces. -/
def text : CaseTree → String
  | .leaf s => s.text
  | .anyOf branches => "OR \x7b\n" ++ textOf branches ++ "\x7d\n"

/-- The texts of several trees one after the other. -/
def textOf : List CaseTree → String
  | [] => ""
  | t :: rest => t.text ++ textOf rest

end

end CaseTree

end BoundedEquations
