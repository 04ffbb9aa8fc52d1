import BoundedEquations.Problem

/-!
# `BoundedEquations.Node`: the nodes of a tree of alternatives

A `Problem` has one configuration for its whole tree, and systems at the leaves alone. A `Node`
keeps everything for itself: a configuration, a system of its own, and its branches. This is the
form in which a problem is stored and changed.

A node without branches takes a call with its own system. A choice gives it branches: each is a copy
of the node, its configuration included, with one member added, and then the system of the node is
cleared. From that on every call is passed on to the branches, from left to right, up to the first
that refuses it.

`Node.problem` leaves out what only nodes with branches hold.
-/

set_option autoImplicit false

namespace BoundedEquations

/-- Takes out all domains, and all edges of both graphs. -/
def System.clear (s : System) : System :=
  { s with domains := .empty, equalities := .empty, inequalities := .empty }

/-- A system and how it is to be solved, or the branches that have taken its place. -/
structure Node where
  config : Config
  own : System
  branches : List Node

namespace Node

/-- The node without variables and without branches. -/
def new (config : Config) : Node := ⟨config, .empty, []⟩

/-- The node has branches. -/
def isDisjunctive (n : Node) : Bool := !n.branches.isEmpty

/-- The variables of the node's own system, in name order. -/
def declared (n : Node) : List Variable := n.own.declared

/-- The domain of a variable in the node's own system. -/
def domain? (n : Node) (x : Variable) : Option Domain := n.own.domains.find? x

/-! ### Changes -/

mutual

/-- Changes the nodes without branches from left to right, up to the first that refuses the change.
-/
def update (change : Node → Outcome Node) : Node → Outcome Node
  | ⟨config, own, branches⟩ =>
    if branches.isEmpty then change ⟨config, own, branches⟩
    else (updateEach change branches).map (Node.mk config own)

/-- Changes several nodes from left to right, up to the first that refuses the change. -/
def updateEach (change : Node → Outcome Node) : List Node → Outcome (List Node)
  | [] => ⟨[], none, []⟩
  | n :: rest =>
    let first := n.update change
    match first.fault with
    | some fault => ⟨first.state :: rest, some fault, first.events⟩
    | none =>
      let others := updateEach change rest
      ⟨first.state :: others.state, others.fault, first.events ++ others.events⟩

end

/-- Adds an equation to the node's own system. -/
def addOwn (n : Node) (e : Equation) : Except Fault Node :=
  return { n with own := ← n.own.add e }

/-- Gives a node one branch for each member of the set: a copy of the node with the member added.
What the node held itself is cleared. If a member is refused the node stays as it is. -/
def branch (n : Node) (set : EquationSet) : Outcome Node :=
  match set.equations.mapM n.addOwn with
  | .ok branches => ⟨{ n with own := n.own.clear, branches }, none, [.branching set]⟩
  | .error fault => ⟨n, some fault, [.branching set]⟩

/-- What a call does to a node without branches. -/
def change (call : Call) (n : Node) : Outcome Node :=
  match call with
  | .declare x => ⟨{ n with own := n.own.declare x }, none, []⟩
  | .equation e => Outcome.ofExcept n (n.addOwn e)
  | .equationSet set =>
    if set.IsChoice then n.branch set
    else (n.own.addAll set.equations).map fun own => { n with own }

/-- Makes one call. -/
def apply (n : Node) (call : Call) : Outcome Node := n.update (change call)

/-- The node after a list of calls. Refused calls are passed over. -/
def run (n : Node) (calls : List Call) : Node :=
  calls.foldl (fun m call => (m.apply call).state) n

/-! ### Queries -/

mutual

/-- Whether the node's own system has a solution, or one of its branches if it has some. They are
solved from left to right, up to the first that has a solution. -/
def solve : Node → Traced Bool
  | ⟨config, own, branches⟩ =>
    if branches.isEmpty then own.solve config
    else do
      Traced.emit (.solving own.domains.size own.equalities.edges.length
        own.inequalities.edges.length branches.length)
      solveFirst branches

/-- Whether one of several nodes has a solution. -/
def solveFirst : List Node → Traced Bool
  | [] => return false
  | n :: rest => do
    if ← n.solve then
      return true
    else
      solveFirst rest

end

mutual

/-- The equations of the node's own system, or of its branches in nested braces. -/
def text : Node → String
  | ⟨_, own, branches⟩ =>
    if branches.isEmpty then own.text else "OR \x7b\n" ++ textOf branches ++ "\x7d\n"

/-- The texts of several nodes one after the other. -/
def textOf : List Node → String
  | [] => ""
  | n :: rest => n.text ++ textOf rest

end

/-- A node is written as the equations in it. -/
instance : ToString Node := ⟨text⟩

/-! ### The problem that a node stands for -/

mutual

/-- The systems of the nodes without branches, in a tree of the same shape. -/
def tree : Node → CaseTree
  | ⟨_, own, branches⟩ => if branches.isEmpty then .leaf own else .anyOf (treesOf branches)

/-- The trees of several nodes. -/
def treesOf : List Node → List CaseTree
  | [] => []
  | n :: rest => n.tree :: treesOf rest

end

/-- The problem with this tree, to be solved as the node is configured. -/
def problem (n : Node) : Problem := ⟨n.config, n.tree⟩

end Node

end BoundedEquations
