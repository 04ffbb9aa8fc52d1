import BoundedEquations.Proofs.Node.Problem
import BoundedEquations.Proofs.Problem.Declaration

/-!
# `BoundedEquations.Proofs.Node.Invariant`: the structure of a node throughout its history

`Invariant` says what a node and all nodes below it look like after any list of calls, refused calls
among them. What the nodes hold themselves follows from `Tidy`. What their systems look like follows
from `CaseTree.Sound` and `System.Fits`, through the tree that the node stands for. The theorems:

* `Below.tidy`, `LeafAt.depth_eq`, `LeafAt.mem_leaves`: from the root to the nodes below it.
* `isDisjunctive_run`: branches are there to stay.
* `invariant_run`: the whole invariant.
-/

set_option autoImplicit false

namespace BoundedEquations.Node

open CaseTree

variable {n m : Node} {config : Config} {depth : Nat}

/-- A node, its branches, the branches of these, and so on, each so many levels down. -/
inductive Below : Node → Nat → Node → Prop
  | self (n : Node) : Below n 0 n
  | branch {n k m : Node} {depth : Nat} (hk : k ∈ n.branches) (hm : Below k depth m) :
      Below n (depth + 1) m

/-- A node without branches, so many levels down. -/
def LeafAt (n : Node) (depth : Nat) (m : Node) : Prop := n.Below depth m ∧ m.branches = []

/-- The structure of a node that has come about by some calls. -/
structure Invariant (config : Config) (calls : List Call) (n : Node) : Prop where
  /-- A node has no branches, or it has at least two and then no domains and edges of its own. -/
  nodes : ∀ depth m, n.Below depth m → m.branches = [] ∨
    (2 ≤ m.branches.length ∧ m.own.domains = .empty ∧ m.own.equalities = .empty ∧
      m.own.inequalities = .empty)
  /-- All leaves lie at the same depth. -/
  balanced : ∃ depth, ∀ depth' m, n.LeafAt depth' m → depth' = depth
  /-- All nodes have the configuration that the root was made with. -/
  config : ∀ depth m, n.Below depth m → m.config = config
  /-- All leaves declare the same names, which are those that have been declared. -/
  names : ∃ declared, (∀ name, name ∈ declared ↔ ∃ x, Call.latest? calls name = some x) ∧
    ∀ depth m, n.LeafAt depth m → m.declared.map Variable.name = declared
  /-- Both graphs are symmetric and without loops, and no vertex is without neighbours. -/
  graphs : ∀ depth m, n.LeafAt depth m → m.own.equalities.IsSimple ∧ m.own.inequalities.IsSimple
  /-- Both ends of an edge are declared. -/
  endpoints : ∀ depth m, n.LeafAt depth m → ∀ x y,
    m.own.equalities.hasEdge x y = true ∨ m.own.inequalities.hasEdge x y = true →
      m.own.domains.contains x = true ∧ m.own.domains.contains y = true
  /-- The ranges of a domain ascend, are apart, and fit the width of the latest declaration. -/
  domains : ∀ depth m, n.LeafAt depth m → ∀ x d, m.domain? x = some d →
    d.Canonical ∧ ∃ y, Call.latest? calls x.name = some y ∧ ∀ r ∈ d.ranges, r.hi ≤ y.maxValue
  /-- A node with branches never loses them again. -/
  lasting : ∀ later, n.isDisjunctive = true → (n.run later).isDisjunctive = true

/-! ### From the root to the nodes below it -/

/-- All nodes below a tidy node are tidy. -/
theorem Below.tidy (h : n.Below depth m) (hn : n.Tidy config) : m.Tidy config := by
  induction h with
  | self n => exact hn
  | branch hk _ ih =>
    cases hn with
    | single own => exact nomatch hk
    | split several all => exact ih (all _ hk)

/-- A tidy node has no branches, or it has several and holds nothing itself. -/
theorem Tidy.single_or_several (h : n.Tidy config) : n.branches = [] ∨
    (2 ≤ n.branches.length ∧ n.own.domains = .empty ∧ n.own.equalities = .empty ∧
      n.own.inequalities = .empty) := by
  cases h with
  | single own => exact Or.inl rfl
  | split several all => exact Or.inr ⟨several, rfl, rfl, rfl⟩

/-- In a balanced tree all nodes without branches lie at the depth of the leaves. -/
theorem LeafAt.depth_eq {depth' : Nat} (h : n.LeafAt depth' m) (hn : Balanced depth n.tree) :
    depth' = depth := by
  obtain ⟨hbelow, hleaf⟩ := h
  induction hbelow generalizing depth with
  | self n =>
    rw [tree_of_nil hleaf] at hn
    cases hn
    rfl
  | @branch n k m depth' hk _ ih =>
    rw [tree_of_ne_nil (List.ne_nil_of_mem hk)] at hn
    cases hn with
    | anyOf _ all => rw [ih (all k.tree (List.mem_map_of_mem hk)) hleaf]

/-- The systems of the nodes without branches are the leaves of the tree. -/
theorem LeafAt.mem_leaves (h : n.LeafAt depth m) : m.own ∈ n.tree.leaves := by
  obtain ⟨hbelow, hleaf⟩ := h
  induction hbelow with
  | self n =>
    rw [tree_of_nil hleaf]
    exact List.mem_singleton_self _
  | branch hk _ ih =>
    rw [tree_of_ne_nil (List.ne_nil_of_mem hk)]
    exact mem_leavesOf.mpr ⟨_, List.mem_map_of_mem hk, ih hleaf⟩

/-- No call takes the branches of a node away. -/
theorem isDisjunctive_apply (h : n.isDisjunctive = true) (call : Call) :
    (n.apply call).state.isDisjunctive = true := by
  have hsome : n.branches ≠ [] := by simpa [isDisjunctive] using h
  rw [apply, update_of_ne_nil hsome]
  show (!(updateEach (change call) n.branches).state.isEmpty) = true
  rw [Bool.not_eq_true', List.isEmpty_eq_false_iff, ← List.length_pos_iff, length_updateEach]
  exact List.length_pos_iff.mpr hsome

/-- Branches are there to stay. -/
theorem isDisjunctive_run (h : n.isDisjunctive = true) (calls : List Call) :
    (n.run calls).isDisjunctive = true := by
  induction calls generalizing n with
  | nil => exact h
  | cons call rest ih => exact ih (isDisjunctive_apply h call)

/-- **The structure of a node after any calls.** Refused calls count as calls, and what they did
before they were refused is part of the node. -/
theorem invariant_run (config : Config) (calls : List Call) :
    Invariant config calls ((new config).run calls) := by
  have htidy := tidy_run config calls
  have htree : ((new config).run calls).tree = ((Problem.new config).run calls).tree :=
    congrArg Problem.tree (run_new_problem config calls)
  obtain ⟨declared, hsound⟩ := ((Problem.Reachable.new config).run calls).sound
  have hfits := Problem.fits_run_new config calls
  rw [← htree] at hsound hfits
  generalize (new config).run calls = n at htidy hsound hfits
  obtain ⟨depth, hbalanced⟩ := hsound.balanced
  obtain ⟨s₀, others, hleaves⟩ := List.exists_cons_of_ne_nil hbalanced.leaves_ne_nil
  have hs₀ : s₀ ∈ n.tree.leaves := hleaves ▸ List.mem_cons_self
  exact {
    nodes := fun depth m hm => (hm.tidy htidy).single_or_several
    balanced := ⟨depth, fun depth' m hm => hm.depth_eq hbalanced⟩
    config := fun depth m hm => (hm.tidy htidy).config_eq
    names := by
      refine ⟨declared, ?_, fun depth m hm => hsound.names m.own hm.mem_leaves⟩
      -- The names are the same in all leaves, so those of the first leaf tell all.
      intro name
      have hname := (hfits s₀ hs₀).declared_iff ⟨name, 1, Nat.one_pos⟩
      rw [← Table.mem_names_iff_contains, hsound.names s₀ hs₀] at hname
      exact hname
    graphs := by
      intro depth m hm
      have hwellFormed := hsound.wellFormed m.own hm.mem_leaves
      exact ⟨hwellFormed.equalities_simple, hwellFormed.inequalities_simple⟩
    endpoints := by
      intro depth m hm x y hxy
      have hwellFormed := hsound.wellFormed m.own hm.mem_leaves
      rcases hxy with hxy | hxy
      · exact hwellFormed.equalities_endpoints hxy
      · exact hwellFormed.inequalities_endpoints hxy
    domains := by
      intro depth m hm x d hd
      obtain ⟨y, hy, hbound⟩ := (hfits m.own hm.mem_leaves).bounded x d hd
      refine ⟨(hsound.wellFormed m.own hm.mem_leaves).canonical x d hd, y, hy, ?_⟩
      -- The greatest value of a range is one of the values of the domain.
      intro r hr
      exact hbound r.hi ⟨r, hr, r.lo_le_hi, Nat.le_refl _⟩
    lasting := fun later h => isDisjunctive_run h later }

end BoundedEquations.Node
