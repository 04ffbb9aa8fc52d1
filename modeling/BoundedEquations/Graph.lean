import BoundedEquations.Table

/-!
# `BoundedEquations.Graph`: undirected graphs over variables

A graph keeps for each vertex the set of its neighbours, so each edge is stored at both of its
ends. A variable without neighbours is no vertex, and the entry of a vertex goes away with its
last neighbour. `Graph.IsSimple` states what every operation keeps: edges run both ways, none is
a loop, and no vertex is left without neighbours.

Vertices, neighbours and edges are listed in name order. Two graphs are compared by the names of
their vertices and neighbours.
-/

set_option autoImplicit false

namespace BoundedEquations

/-- An undirected graph, given by the neighbours of each vertex. -/
structure Graph where
  adjacency : Table VariableSet

namespace Graph

/-- The graph without edges. -/
def empty : Graph := ⟨.empty⟩

/-- The graph without edges. -/
instance : EmptyCollection Graph := ⟨empty⟩

/-- The graph has no edges. -/
def isEmpty (g : Graph) : Bool := g.adjacency.isEmpty

/-- There is an edge between the two. -/
def hasEdge (g : Graph) (a b : Variable) : Bool :=
  (g.adjacency.find? a).any fun around => around.contains b

/-- The neighbours of a variable in name order. -/
def neighbours (g : Graph) (a : Variable) : List Variable :=
  ((g.adjacency.find? a).map Table.keys).getD []

/-- The number of neighbours. -/
def degree (g : Graph) (a : Variable) : Nat := (g.neighbours a).length

/-- The variables that have neighbours, in name order. -/
def vertices (g : Graph) : List Variable := g.adjacency.keys

/-- The edges, each listed once with its lesser end first, in name order. -/
def edges (g : Graph) : List (Variable × Variable) :=
  g.adjacency.entries.flatMap fun (a, around) =>
    (around.keys.filter fun b => a < b).map fun b => (a, b)

/-- The least vertex with its least neighbour. -/
def firstEdge? (g : Graph) : Option (Variable × Variable) := do
  let (a, around) ← g.adjacency.entries.head?
  let b ← around.keys.head?
  return (a, b)

/-- Every edge is stored at both ends, none is a loop, and every vertex has a neighbour. -/
structure IsSimple (g : Graph) : Prop where
  symmetric : ∀ a b, g.hasEdge a b = true → g.hasEdge b a = true
  irreflexive : ∀ a, g.hasEdge a a = false
  inhabited : ∀ around ∈ g.adjacency.values, around.isEmpty = false

/-- Records `b` as a neighbour of `a`. -/
def attach (g : Graph) (a b : Variable) : Graph :=
  ⟨g.adjacency.alter a fun around => some ((around.getD .empty).insert b ())⟩

/-- Strikes `b` from the neighbours of `a`, and `a` from the vertices if none are left. -/
def detach (g : Graph) (a b : Variable) : Graph :=
  ⟨g.adjacency.alter a fun around =>
    (around.map fun others => others.erase b).filter fun others => !others.isEmpty⟩

/-- Adds an edge. An edge from a vertex to itself is refused. -/
def insert (g : Graph) (a b : Variable) : Except Fault Graph :=
  if a == b then .error (.selfLoop a b) else .ok ((g.attach a b).attach b a)

/-- Removes an edge, if it is there. -/
def erase (g : Graph) (a b : Variable) : Graph := (g.detach a b).detach b a

/-- Removes a vertex with all its edges. -/
def eraseVertex (g : Graph) (a : Variable) : Graph :=
  (g.neighbours a).foldl (fun g b => g.detach b a) ⟨g.adjacency.erase a⟩

/-- Puts `b` in the place of `a`: every neighbour of `a` other than `b` becomes a neighbour of `b`,
and the edges at `a` are gone. With `b` the same as `a` the graph keeps its edges. -/
def contract (g : Graph) (a b : Variable) : Except Fault Graph :=
  (g.neighbours a).foldlM
    (fun g c => if c == b then .ok (g.detach c a) else (g.detach c a).insert c b)
    ⟨g.adjacency.erase a⟩

/-- The names of the vertices, each with the names of its neighbours. -/
def names (g : Graph) : List (String × List String) :=
  g.adjacency.entries.map fun (a, around) => (a.name, around.keys.map Variable.name)

/-- Graphs are compared by name. -/
instance : BEq Graph := ⟨fun g h => g.names == h.names⟩

/-! ### Edges after a change

`hasEdge` is the view of a graph: each operation is described by what it does to the answers of
`hasEdge`. The two halves of an edge are described first. -/

/-- Nothing is joined in the graph without edges. -/
@[simp] theorem hasEdge_empty (c d : Variable) : empty.hasEdge c d = false := rfl

/-- Whether there is an edge depends on the two names alone. -/
theorem hasEdge_congr (g : Graph) {a b c d : Variable} (hac : a.name = c.name)
    (hbd : b.name = d.name) : g.hasEdge a b = g.hasEdge c d := by
  rw [hasEdge, hasEdge, g.adjacency.find?_congr hac]
  congr 1
  funext around
  rw [Table.contains, Table.contains, around.find?_congr hbd]

/-- Recording a neighbour adds one direction of an edge. -/
theorem hasEdge_attach (g : Graph) (a b c d : Variable) :
    (g.attach a b).hasEdge c d = true ↔
      g.hasEdge c d = true ∨ (c.name = a.name ∧ d.name = b.name) := by
  rw [hasEdge, attach, Table.find?_alter]
  by_cases hc : c.name = a.name
  · have hfind := g.adjacency.find?_congr hc
    rw [if_pos hc, hasEdge, hfind]
    cases g.adjacency.find? a with
    | none =>
      by_cases hd : d.name = b.name <;>
        simp [Table.contains, Table.find?_insert, hc, hd]
    | some around =>
      by_cases hd : d.name = b.name <;>
        simp [Table.contains, Table.find?_insert, hc, hd]
  · rw [if_neg hc]
    simp [hasEdge, hc]

/-- Striking a neighbour takes out one direction of an edge. -/
theorem hasEdge_detach (g : Graph) (a b c d : Variable) :
    (g.detach a b).hasEdge c d = true ↔
      g.hasEdge c d = true ∧ ¬(c.name = a.name ∧ d.name = b.name) := by
  rw [hasEdge, detach, Table.find?_alter]
  by_cases hc : c.name = a.name
  · have hfind := g.adjacency.find?_congr hc
    rw [if_pos hc, hasEdge, hfind]
    cases g.adjacency.find? a with
    | none => simp
    | some around =>
      -- A set that becomes empty is dropped, which answers `false` just as the empty set does.
      have hdrop : ((some (around.erase b)).filter fun others => !others.isEmpty).any
          (fun others => others.contains d) = (around.erase b).contains d := by
        by_cases hempty : (around.erase b).isEmpty = true
        · have hnil : (around.erase b).entries = [] := List.isEmpty_iff.mp hempty
          simp [Option.filter, hempty, Table.contains, Table.find?, hnil]
        · simp [Option.filter, hempty]
      rw [Option.map_some, hdrop]
      by_cases hd : d.name = b.name <;>
        simp [Table.contains, Table.find?_erase, hc, hd]
  · rw [if_neg hc]
    simp [hasEdge, hc]

/-- Unless it is a loop, the new edge joins the old ones. -/
theorem hasEdge_insert {g h : Graph} {a b : Variable} (hgh : g.insert a b = .ok h)
    (c d : Variable) :
    h.hasEdge c d = true ↔ g.hasEdge c d = true ∨ (c.name = a.name ∧ d.name = b.name) ∨
      (c.name = b.name ∧ d.name = a.name) := by
  rw [insert] at hgh
  split at hgh
  · exact nomatch hgh
  · obtain rfl := Except.ok.inj hgh
    rw [hasEdge_attach, hasEdge_attach, or_assoc]

/-- Removing an edge takes it out in both directions, and no other. -/
theorem hasEdge_erase (g : Graph) (a b c d : Variable) :
    (g.erase a b).hasEdge c d = true ↔ g.hasEdge c d = true ∧
      ¬(c.name = a.name ∧ d.name = b.name) ∧ ¬(c.name = b.name ∧ d.name = a.name) := by
  rw [erase, hasEdge_detach, hasEdge_detach, and_assoc]

end Graph

end BoundedEquations
