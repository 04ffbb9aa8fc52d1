import BoundedEquations.CaseTree

/-!
# `BoundedEquations.Problem`: building a problem call by call, and solving it

A problem is built by calls: declarations of variables, equations, and equation sets. It is asked
with `Problem.solve` whether the unknowns can be given values so that everything holds. Solving
reads the problem and leaves it as it is.

A refused call reports a fault. What it did before it was refused stays, as `Outcome` records, and
further calls may follow.
-/

set_option autoImplicit false

namespace BoundedEquations

/-- The alternatives built so far, and how they are to be solved. -/
structure Problem where
  config : Config
  tree : CaseTree

/-- One step in building a problem. -/
inductive Call where
  | declare (x : Variable)
  | equation (e : Equation)
  | equationSet (set : EquationSet)

namespace Problem

/-- The problem without variables. -/
def new (config : Config) : Problem := ⟨config, .leaf .empty⟩

/-- Makes one call. -/
def apply (p : Problem) (call : Call) : Outcome Problem :=
  Outcome.map (fun tree => { p with tree }) <|
    match call with
    | .declare x => p.tree.declare x
    | .equation e => p.tree.add e
    | .equationSet set => p.tree.addSet set

/-- The problem after a list of calls. Refused calls are passed over. -/
def run (p : Problem) (calls : List Call) : Problem :=
  calls.foldl (fun q call => (q.apply call).state) p

/-- The problem consists of alternatives. -/
def isDisjunctive (p : Problem) : Bool :=
  match p.tree with
  | .leaf _ => false
  | .anyOf _ => true

/-- The alternatives, each as a problem of its own. A single system has none. -/
def branches (p : Problem) : List Problem :=
  match p.tree with
  | .leaf _ => []
  | .anyOf trees => trees.map fun tree => { p with tree }

/-- The single systems from left to right, each as a problem of its own. -/
def leaves (p : Problem) : List Problem :=
  p.tree.leaves.map fun s => { p with tree := .leaf s }

/-- The declared variables of a single system, in name order. -/
def declared (p : Problem) : List Variable :=
  match p.tree with
  | .leaf s => s.declared
  | .anyOf _ => []

/-- The domain of a variable in a single system. -/
def domain? (p : Problem) (x : Variable) : Option Domain :=
  match p.tree with
  | .leaf s => s.domains.find? x
  | .anyOf _ => none

/-- Whether the problem has a solution. -/
def solve (p : Problem) : Traced Bool := p.tree.solve p.config

/-- The equations between variables, in nested braces. -/
def text (p : Problem) : String := p.tree.text

/-- A problem is written as the equations between its variables. -/
instance : ToString Problem := ⟨text⟩

end Problem

end BoundedEquations
