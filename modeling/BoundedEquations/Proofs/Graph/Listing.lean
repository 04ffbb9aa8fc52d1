import BoundedEquations.Proofs.Graph.Pairs
import Mathlib.Algebra.GroupWithZero.Nat
import Mathlib.Data.List.Perm.Basic

/-!
# `BoundedEquations.Proofs.Graph.Listing`: the edges of a graph as they are listed

A graph stores each edge from both of its ends. `Graph.darts` lists what is stored, and
`Graph.edges` keeps of it what begins at the lesser end. So the order of the one list is that of the
other, and as edges run both ways and none is a loop, the one is twice as long as the other. The
theorems:

* `pairwise_darts`: vertices are listed in name order, and so are the neighbours of each.
* `length_darts`: the degrees count what is stored.
* `length_darts_eq_two_mul`: half of what is stored begins at the lesser end.
* `firstEdge?_eq_head?_edges`: the least vertex has only greater neighbours, so the shortcut for the
  first edge finds the head of the list.
* `IsSimple.listsEdges`, `edited_lists_edges`: all listings together, for simple graphs and so for
  graphs that have come about by edits.
-/

set_option autoImplicit false

namespace BoundedEquations.Graph

variable {g : Graph} {a b : Variable}

/-- The names of the two ends. -/
def endNames (e : Variable × Variable) : String × String := (e.1.name, e.2.name)

/-- The pair of names without an order. -/
def unordered (e : Variable × Variable) : Sym2 String := s(e.1.name, e.2.name)

/-! ### The order of the listing -/

/-- The darts are in lexicographic order, and none is listed twice. -/
theorem pairwise_darts (g : Graph) :
    (g.darts.map endNames).Pairwise (Prod.Lex (· < ·) (· < ·)) := by
  rw [List.pairwise_map, darts, List.pairwise_flatMap]
  constructor
  · intro entry _
    rw [List.pairwise_map]
    refine (List.pairwise_map.mp entry.2.pairwise_names).imp ?_
    intro b c hlt
    exact Prod.Lex.right _ hlt
  · refine g.adjacency.ascending.imp ?_
    intro entry entry' hlt e he f hf
    obtain ⟨b, _, rfl⟩ := List.mem_map.mp he
    obtain ⟨c, _, rfl⟩ := List.mem_map.mp hf
    exact Prod.Lex.left _ _ hlt

/-- The edges are the darts that begin at the lesser end. -/
theorem endNames_edges (g : Graph) :
    g.edges.map endNames = (g.darts.map endNames).filter fun e => e.1 < e.2 := by
  rw [edges_eq_filter_darts, List.filter_map]
  rfl

/-- The edges are in lexicographic order, and none is listed twice. -/
theorem pairwise_edges (g : Graph) :
    (g.edges.map endNames).Pairwise (Prod.Lex (· < ·) (· < ·)) := by
  rw [endNames_edges]
  exact g.pairwise_darts.filter _

/-- No pair of names comes before itself. -/
theorem nodup_of_pairwise_lex {es : List (String × String)}
    (h : es.Pairwise (Prod.Lex (· < ·) (· < ·))) : es.Nodup := by
  refine List.nodup_iff_pairwise_ne.mpr (h.imp ?_)
  rintro ⟨m, n⟩ _ hlt rfl
  rcases Prod.lex_def.mp hlt with hm | ⟨_, hn⟩
  · exact String.lt_irrefl m hm
  · exact String.lt_irrefl n hn

/-! ### Each edge once -/

/-- An edge is among the darts from either of its ends. -/
theorem mem_darts_iff : (a.name, b.name) ∈ g.darts.map endNames ↔ g.hasEdge a b = true := by
  constructor
  · intro h
    obtain ⟨⟨c, d⟩, hcd, hnames⟩ := List.mem_map.mp h
    obtain ⟨hca, hdb⟩ := Prod.mk.inj hnames
    rw [← g.hasEdge_congr hca hdb]
    exact hasEdge_of_mem_darts hcd
  · intro h
    obtain ⟨c, d, hcd, hca, hdb⟩ := exists_mem_darts h
    exact List.mem_map.mpr ⟨(c, d), hcd, Prod.ext hca hdb⟩

/-- An edge is among the edges, with one of its ends first. -/
theorem mem_edges_iff (hg : g.IsSimple) :
    s(a.name, b.name) ∈ g.edges.map unordered ↔ g.hasEdge a b = true := by
  constructor
  · intro h
    obtain ⟨⟨c, d⟩, hcd, hpair⟩ := List.mem_map.mp h
    exact (mem_pairs hg).mp ⟨c, d, (hasEdge_of_mem_edges hcd).1, hpair⟩
  · intro h
    obtain ⟨c, d, hcd, hnames⟩ := exists_mem_edges_of_isSimple hg h
    exact List.mem_map.mpr ⟨(c, d), hcd, Sym2.eq_iff.mpr hnames⟩

/-- The lesser end comes first, so no edge is listed a second time the other way round. -/
theorem nodup_edges (g : Graph) : (g.edges.map unordered).Nodup := by
  have hpairwise := List.pairwise_map.mp (nodup_of_pairwise_lex g.pairwise_edges)
  refine List.pairwise_map.mpr (hpairwise.imp_of_mem ?_)
  rintro ⟨a, b⟩ ⟨c, d⟩ hab hcd hne hpair
  rcases Sym2.eq_iff.mp hpair with ⟨hac, hbd⟩ | ⟨had, hbc⟩
  · exact hne (Prod.ext hac hbd)
  · have hlt := (hasEdge_of_mem_edges hab).2
    have hlt' := (hasEdge_of_mem_edges hcd).2
    rw [had, hbc] at hlt
    exact String.lt_irrefl _ (String.lt_trans hlt hlt')

/-- The vertices are the ends of the listed edges. -/
theorem mem_vertices_iff (hg : g.IsSimple) {n : String} :
    n ∈ g.vertices.map Variable.name ↔ ∃ e ∈ g.edges, n = e.1.name ∨ n = e.2.name := by
  obtain ⟨a, rfl⟩ := Variable.exists_name_eq n
  have hvertex : a.name ∈ g.vertices.map Variable.name ↔ ∃ b, g.hasEdge a b = true :=
    mem_vertices_names_iff hg
  rw [hvertex]
  constructor
  · rintro ⟨b, hab⟩
    obtain ⟨c, d, hcd, ⟨hca, _⟩ | ⟨_, hda⟩⟩ := exists_mem_edges_of_isSimple hg hab
    · exact ⟨(c, d), hcd, Or.inl hca.symm⟩
    · exact ⟨(c, d), hcd, Or.inr hda.symm⟩
  · rintro ⟨⟨c, d⟩, hcd, hac | had⟩
    · exact ⟨d, g.hasEdge_congr hac rfl ▸ (hasEdge_of_mem_edges hcd).1⟩
    · exact ⟨c, g.hasEdge_congr had rfl ▸ hg.symmetric c d (hasEdge_of_mem_edges hcd).1⟩

/-! ### Counting -/

/-- The degree of a vertex is the size of the set stored for it. -/
theorem length_darts (g : Graph) : g.darts.length = (g.vertices.map g.degree).sum := by
  rw [darts, List.length_flatMap, vertices, Table.keys, List.map_map]
  refine congrArg List.sum (List.map_congr_left fun entry hentry => ?_)
  have hfind : g.adjacency.find? entry.1 = some entry.2 := Table.find?_of_mem_entries hentry
  simp [degree, neighbours, hfind]

/-- Of a list of pairs that has with each pair the reversed one, and none with the same name twice,
half the members begin with the lesser name. -/
theorem length_eq_two_mul_of_symmetric {l : List (String × String)} (hnodup : l.Nodup)
    (hsymm : ∀ m n, (m, n) ∈ l → (n, m) ∈ l) (hirrefl : ∀ n, (n, n) ∉ l) :
    l.length = 2 * (l.filter fun p => p.1 < p.2).length := by
  have hperm : (l.filter fun p => !decide (p.1 < p.2)).Perm
      ((l.filter fun p => p.1 < p.2).map Prod.swap) := by
    refine (List.perm_ext_iff_of_nodup (hnodup.filter _)
      ((hnodup.filter _).map Prod.swap_injective)).mpr ?_
    rintro ⟨m, n⟩
    rw [List.mem_map_swap]
    simp only [List.mem_filter, Bool.not_eq_true', decide_eq_false_iff_not, decide_eq_true_eq]
    constructor
    · rintro ⟨hmem, hnot⟩
      refine ⟨hsymm m n hmem, Classical.byContradiction fun hnot' => ?_⟩
      -- Neither name is the lesser one, so the pair would have the same name twice.
      have heq : m = n := String.le_antisymm (String.not_lt.mp hnot') (String.not_lt.mp hnot)
      exact hirrefl n (heq ▸ hmem)
    · rintro ⟨hmem, hlt⟩
      exact ⟨hsymm n m hmem, fun hlt' => String.lt_irrefl m (String.lt_trans hlt' hlt)⟩
  have hlength := hperm.length_eq
  rw [List.length_map] at hlength
  rw [List.length_eq_length_filter_add fun p => decide (p.1 < p.2), hlength]
  omega

/-- There are twice as many darts as edges. -/
theorem length_darts_eq_two_mul (hg : g.IsSimple) : g.darts.length = 2 * g.edges.length := by
  have hcount := length_eq_two_mul_of_symmetric (nodup_of_pairwise_lex g.pairwise_darts) ?_ ?_
  · rwa [← endNames_edges, List.length_map, List.length_map] at hcount
  · intro m n hmn
    obtain ⟨a, rfl⟩ := Variable.exists_name_eq m
    obtain ⟨b, rfl⟩ := Variable.exists_name_eq n
    rw [mem_darts_iff] at hmn ⊢
    exact hg.symmetric a b hmn
  · intro n
    obtain ⟨a, rfl⟩ := Variable.exists_name_eq n
    rw [mem_darts_iff, hg.irreflexive a]
    exact Bool.false_ne_true

/-! ### The first edge -/

/-- The first edge begins at its lesser end, so it is listed from there. -/
theorem firstEdge?_eq_head?_edges (hg : g.IsSimple) : g.firstEdge? = g.edges.head? := by
  rcases firstEdge?_cases hg with ⟨hempty, hnone⟩ | ⟨a, b, hfirst, _, hlt⟩
  · have hentries : g.adjacency.entries = [] := List.isEmpty_iff.mp hempty
    simp [hnone, edges, hentries]
  · obtain ⟨around, rest, others, hentries, hkeys⟩ := firstEdge?_eq_some_iff.mp hfirst
    have hlt' : a < b := hlt
    simp [hfirst, edges, hentries, hkeys, hlt']

/-- There is no first edge just when there are no edges at all. -/
theorem firstEdge?_eq_none_iff (hg : g.IsSimple) : g.firstEdge? = none ↔ g.isEmpty = true := by
  rcases firstEdge?_cases hg with ⟨hempty, hnone⟩ | ⟨a, b, hfirst, hab, _⟩
  · simp [hempty, hnone]
  · rw [isEmpty_iff hg, hfirst]
    simp only [reduceCtorEq, false_iff, not_forall, Bool.not_eq_false]
    exact ⟨a, b, hab⟩

/-! ### All listings together -/

/-- The lists of vertices and of edges, the degrees and the first edge agree with the edges that the
graph has. -/
structure ListsEdges (g : Graph) : Prop where
  /-- Two names are listed as a pair just when they are joined. -/
  complete : ∀ a b, s(a.name, b.name) ∈ g.edges.map unordered ↔ g.hasEdge a b = true
  /-- No pair comes twice. -/
  once : (g.edges.map unordered).Nodup
  /-- The lesser end comes first. -/
  lesser_first : ∀ e ∈ g.edges, e.1 < e.2
  /-- The list ascends by the first names, and by the second ones where these are the same. -/
  ascending : (g.edges.map endNames).Pairwise (Prod.Lex (· < ·) (· < ·))
  /-- The vertices are the ends of the edges. -/
  mem_vertices : ∀ n, n ∈ g.vertices.map Variable.name ↔ ∃ e ∈ g.edges, n = e.1.name ∨ n = e.2.name
  /-- The vertices are listed in name order as well. -/
  vertices_ascending : (g.vertices.map Variable.name).Pairwise (· < ·)
  /-- The degrees count each edge twice. -/
  sum_degrees : (g.vertices.map g.degree).sum = 2 * g.edges.length
  /-- The first edge is the head of the list. -/
  first : g.firstEdge? = g.edges.head?
  /-- Only a graph without edges has no first edge. -/
  first_none : g.firstEdge? = none ↔ g.isEmpty = true
  /-- The first edge begins at its lesser end. -/
  first_lesser : ∀ e ∈ g.firstEdge?, e.1 < e.2

/-- The listings of a simple graph agree with its edges. -/
theorem IsSimple.listsEdges (hg : g.IsSimple) : g.ListsEdges where
  complete _ _ := mem_edges_iff hg
  once := nodup_edges g
  lesser_first _ he := (hasEdge_of_mem_edges he).2
  ascending := pairwise_edges g
  mem_vertices _ := mem_vertices_iff hg
  vertices_ascending := Table.pairwise_names g.adjacency
  sum_degrees := by rw [← length_darts, length_darts_eq_two_mul hg]
  first := firstEdge?_eq_head?_edges hg
  first_none := firstEdge?_eq_none_iff hg
  first_lesser e he := by
    rw [firstEdge?_eq_head?_edges hg] at he
    exact (hasEdge_of_mem_edges (List.mem_of_mem_head? he)).2

/-- **Whatever edits a graph has been through, its edges are listed once each and in order.** The
vertices and the degrees agree with the list, and the first edge is its head. -/
theorem edited_lists_edges (edits : List Edit) : (empty.edited edits).ListsEdges := by
  have hg : (empty.edited edits).IsSimple := (edited_spec isSimple_empty edits).1
  exact hg.listsEdges

end BoundedEquations.Graph
