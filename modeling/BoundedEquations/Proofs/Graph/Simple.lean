import BoundedEquations.Graph
import BoundedEquations.Proofs.Table
import Mathlib.Data.Finset.Dedup
import Mathlib.Logic.Basic

/-!
# `BoundedEquations.Proofs.Graph.Simple`: what adding and removing edges keeps

`Graph.IsSimple` says that edges run both ways, that none is a loop, and that every vertex has a
neighbour. The first two are about `hasEdge` and follow from the laws beside the definitions. The
third is about the stored sets, so it is followed through the two halves of an edge. The theorems:

* `isSimple_empty`, `isSimple_insert`, `isSimple_erase`: the invariant of every graph that is
  built by adding and removing edges.
* `insert_eq_ok`: an edge between two names is never refused.
* `hasEdge_iff_exists_neighbour` and `isEmpty_iff`: edges as they show in the listings.
* `mem_vertexNames_iff`, `mem_neighbourNames_iff`: vertices and neighbours as sets of names.
* `edges_eq_filter_darts`: of the two ends from which an edge is stored, the lesser one lists it.
* `firstEdge?_cases`, `lt_of_firstEdge?`: the first edge begins at the least vertex.
-/

set_option autoImplicit false

namespace BoundedEquations.Graph

/-- No vertex is kept without neighbours. -/
def NoIsolated (g : Graph) : Prop := ∀ around ∈ g.adjacency.values, around.isEmpty = false

/-- What is kept for a vertex is a set with a member. -/
theorem noIsolated_iff {g : Graph} :
    g.NoIsolated ↔ ∀ x around, g.adjacency.find? x = some around → around.isEmpty = false := by
  constructor
  · intro h x around hx
    exact h around (Table.mem_values_iff.mpr ⟨x, hx⟩)
  · intro h around hv
    obtain ⟨x, hx⟩ := Table.mem_values_iff.mp hv
    exact h x around hx

/-- Changing one set of neighbours keeps the vertices inhabited if the set that results is not
empty. -/
theorem noIsolated_alter {g : Graph} {a : Variable}
    {f : Option VariableSet → Option VariableSet} (h : g.NoIsolated)
    (hf : ∀ around ∈ f (g.adjacency.find? a), around.isEmpty = false) :
    NoIsolated ⟨g.adjacency.alter a f⟩ := by
  rw [noIsolated_iff] at h ⊢
  intro x around hx
  rw [Table.find?_alter] at hx
  split at hx
  · exact hf around hx
  · exact h x around hx

/-- A vertex with a new neighbour is not without neighbours. -/
theorem noIsolated_attach {g : Graph} (a b : Variable) (h : g.NoIsolated) :
    (g.attach a b).NoIsolated := by
  refine noIsolated_alter h fun around haround => ?_
  obtain rfl := Option.some.inj haround
  rw [Bool.eq_false_iff, Ne, Table.isEmpty_iff]
  -- The set is not empty, because `b` has just been recorded in it.
  intro hempty
  have hb := hempty b
  rw [Table.find?_insert, if_pos rfl] at hb
  exact nomatch hb

/-- A vertex goes away with its last neighbour. -/
theorem noIsolated_detach {g : Graph} (a b : Variable) (h : g.NoIsolated) :
    (g.detach a b).NoIsolated := by
  refine noIsolated_alter h fun around haround => ?_
  have hkept := (Option.filter_eq_some_iff.mp haround).2
  simpa using hkept

/-- Without the entry of one vertex the others are as they were. -/
theorem noIsolated_eraseEntry {g : Graph} (a : Variable) (h : g.NoIsolated) :
    NoIsolated ⟨g.adjacency.erase a⟩ :=
  noIsolated_alter h fun _ haround => nomatch haround

/-- Without the entry of a vertex there are no edges that begin at it. -/
theorem hasEdge_eraseEntry (g : Graph) (a c d : Variable) :
    Graph.hasEdge ⟨g.adjacency.erase a⟩ c d = true ↔ g.hasEdge c d = true ∧ c.name ≠ a.name := by
  rw [hasEdge, Table.find?_erase]
  by_cases hc : c.name = a.name
  · simp [hc]
  · simp [hc, hasEdge]

/-! ### Graphs built by adding and removing edges -/

/-- The graph without edges is simple. -/
theorem isSimple_empty : empty.IsSimple where
  symmetric _ _ h := nomatch h
  irreflexive _ := rfl
  inhabited _ h := absurd h List.not_mem_nil

/-- An edge is refused only when it is a loop. -/
theorem insert_eq_ok {g : Graph} {a b : Variable} (hne : a.name ≠ b.name) :
    g.insert a b = .ok ((g.attach a b).attach b a) := by
  rw [insert, if_neg fun heq => hne (Variable.beq_iff.mp heq)]

/-- Adding an edge keeps a graph simple. -/
theorem isSimple_insert {g h : Graph} {a b : Variable} (hg : g.IsSimple)
    (hgh : g.insert a b = .ok h) : h.IsSimple := by
  have hlaw := hasEdge_insert hgh
  have hne : a.name ≠ b.name := by
    intro heq
    rw [insert, if_pos (Variable.beq_iff.mpr heq)] at hgh
    cases hgh
  refine ⟨fun c d hcd => ?_, fun c => ?_, ?_⟩
  · rcases (hlaw c d).mp hcd with hold | ⟨hc, hd⟩ | ⟨hc, hd⟩
    · exact (hlaw d c).mpr (Or.inl (hg.symmetric c d hold))
    · exact (hlaw d c).mpr (Or.inr (Or.inr ⟨hd, hc⟩))
    · exact (hlaw d c).mpr (Or.inr (Or.inl ⟨hd, hc⟩))
  · rw [Bool.eq_false_iff, Ne, hlaw, hg.irreflexive c]
    rintro (hold | ⟨ha, hb⟩ | ⟨hb, ha⟩)
    · cases hold
    · exact hne (ha.symm.trans hb)
    · exact hne (ha.symm.trans hb)
  · rw [insert_eq_ok hne] at hgh
    obtain rfl := Except.ok.inj hgh
    exact noIsolated_attach b a (noIsolated_attach a b hg.inhabited)

/-- Removing an edge keeps a graph simple. -/
theorem isSimple_erase {g : Graph} (a b : Variable) (hg : g.IsSimple) : (g.erase a b).IsSimple where
  symmetric c d hcd := by
    obtain ⟨hold, hab, hba⟩ := (hasEdge_erase g a b c d).mp hcd
    refine (hasEdge_erase g a b d c).mpr ⟨hg.symmetric c d hold, ?_, ?_⟩
    · exact fun hdc => hba ⟨hdc.2, hdc.1⟩
    · exact fun hdc => hab ⟨hdc.2, hdc.1⟩
  irreflexive c := by
    rw [Bool.eq_false_iff, Ne, hasEdge_erase, hg.irreflexive c]
    exact fun h => nomatch h.1
  inhabited := noIsolated_detach b a (noIsolated_detach a b hg.inhabited)

/-- The ends of an edge are different. -/
theorem IsSimple.ne_of_hasEdge {g : Graph} (hg : g.IsSimple) {a b : Variable}
    (hab : g.hasEdge a b = true) : a.name ≠ b.name := by
  intro heq
  have hloop := hg.irreflexive a
  rw [g.hasEdge_congr rfl heq, hab] at hloop
  exact nomatch hloop

/-! ### Edges in the listings of vertices and neighbours -/

/-- An edge leads to one of the listed neighbours. -/
theorem hasEdge_iff_exists_neighbour {g : Graph} {a b : Variable} :
    g.hasEdge a b = true ↔ ∃ c ∈ g.neighbours a, c.name = b.name := by
  rw [hasEdge, neighbours]
  cases g.adjacency.find? a with
  | none => simp
  | some around =>
    rw [Option.any_some, Table.contains_iff_mem_names, List.mem_map]
    rfl

/-- The number of neighbours depends on the name alone. -/
theorem degree_congr (g : Graph) {a b : Variable} (h : a.name = b.name) :
    g.degree a = g.degree b := by
  rw [degree, degree, neighbours, neighbours, g.adjacency.find?_congr h]

/-- The least name with an entry has a neighbour, so a graph without edges has no entries. -/
theorem isEmpty_iff {g : Graph} (hg : g.IsSimple) :
    g.isEmpty = true ↔ ∀ a b, g.hasEdge a b = false := by
  rw [isEmpty, Table.isEmpty_iff]
  constructor
  · intro h a b
    rw [hasEdge, h a]
    rfl
  · intro h a
    cases hfind : g.adjacency.find? a with
    | none => rfl
    | some around =>
      -- An entry without edges would be an empty set, and no such entry is kept.
      have hne := noIsolated_iff.mp hg.inhabited a around hfind
      rw [Bool.eq_false_iff, Ne, Table.isEmpty_iff] at hne
      refine absurd (fun b => ?_) hne
      have hno := h a b
      rw [hasEdge, hfind, Option.any_some, Table.contains] at hno
      exact Option.not_isSome_iff_eq_none.mp (Bool.eq_false_iff.mp hno)

/-- A name is a vertex when it has a neighbour. -/
theorem mem_vertices_names_iff {g : Graph} (hg : g.IsSimple) {a : Variable} :
    a.name ∈ g.adjacency.names ↔ ∃ b, g.hasEdge a b = true := by
  rw [Table.mem_names_iff_contains, Table.contains_iff_exists]
  constructor
  · rintro ⟨around, hfind⟩
    have hne := noIsolated_iff.mp hg.inhabited a around hfind
    -- An entry is never empty, so something is recorded in it.
    rw [Bool.eq_false_iff, Ne, Table.isEmpty_iff, not_forall] at hne
    obtain ⟨b, hb⟩ := hne
    refine ⟨b, ?_⟩
    rw [hasEdge, hfind, Option.any_some, Table.contains]
    exact Option.isSome_iff_ne_none.mpr hb
  · rintro ⟨b, hb⟩
    rw [hasEdge, Option.any_eq_true] at hb
    obtain ⟨around, hfind, _⟩ := hb
    exact ⟨around, hfind⟩

/-- The names of the vertices, as a set. -/
def vertexNames (g : Graph) : Finset String := g.adjacency.names.toFinset

/-- The vertices are the variables at which there is an edge. -/
theorem mem_vertexNames_iff {g : Graph} (hg : g.IsSimple) {a : Variable} :
    a.name ∈ g.vertexNames ↔ ∃ b, g.hasEdge a b = true :=
  List.mem_toFinset.trans (mem_vertices_names_iff hg)

/-- The names of the neighbours, as a set. -/
def neighbourNames (g : Graph) (a : Variable) : Finset String :=
  ((g.neighbours a).map Variable.name).toFinset

/-- The neighbours are the variables to which there is an edge. -/
theorem mem_neighbourNames_iff {g : Graph} {a b : Variable} :
    b.name ∈ g.neighbourNames a ↔ g.hasEdge a b = true := by
  rw [neighbourNames, List.mem_toFinset, List.mem_map, hasEdge_iff_exists_neighbour]

/-! ### Edges in the listing of edges -/

/-- The edges, each listed from both of its ends. -/
def darts (g : Graph) : List (Variable × Variable) :=
  g.adjacency.entries.flatMap fun (a, around) => around.keys.map fun b => (a, b)

/-- What is listed is an edge. -/
theorem hasEdge_of_mem_darts {g : Graph} {a b : Variable} (h : (a, b) ∈ g.darts) :
    g.hasEdge a b = true := by
  rw [darts, List.mem_flatMap] at h
  obtain ⟨⟨k, around⟩, hk, hb⟩ := h
  obtain ⟨c, hc, heq⟩ := List.mem_map.mp hb
  obtain ⟨rfl, rfl⟩ := Prod.mk.inj heq
  rw [hasEdge, Table.find?_of_mem_entries hk, Option.any_some, Table.contains_iff_mem_names]
  exact List.mem_map_of_mem hc

/-- Every edge is listed, with variables of the same names. -/
theorem exists_mem_darts {g : Graph} {a b : Variable} (h : g.hasEdge a b = true) :
    ∃ c d, (c, d) ∈ g.darts ∧ c.name = a.name ∧ d.name = b.name := by
  rw [hasEdge, Option.any_eq_true] at h
  obtain ⟨around, hfind, hcontains⟩ := h
  obtain ⟨c, hc, hca⟩ := Table.find?_eq_some_iff.mp hfind
  obtain ⟨d, hd, hdb⟩ := List.mem_map.mp (Table.contains_iff_mem_names.mp hcontains)
  refine ⟨c, d, ?_, hca, hdb⟩
  rw [darts, List.mem_flatMap]
  exact ⟨(c, around), hc, List.mem_map_of_mem hd⟩

/-- An edge is listed from its lesser end only. -/
theorem edges_eq_filter_darts (g : Graph) : g.edges = g.darts.filter fun e => e.1 < e.2 := by
  simp [edges, darts, List.filter_flatMap, List.filter_map, Function.comp_def]

/-- Every listed edge is an edge, with its lesser end first. -/
theorem hasEdge_of_mem_edges {g : Graph} {a b : Variable} (h : (a, b) ∈ g.edges) :
    g.hasEdge a b = true ∧ a.name < b.name := by
  rw [edges_eq_filter_darts, List.mem_filter] at h
  exact ⟨hasEdge_of_mem_darts h.1, of_decide_eq_true h.2⟩

/-- Every edge is listed from its lesser end. -/
theorem exists_mem_edges {g : Graph} {a b : Variable} (h : g.hasEdge a b = true)
    (hlt : a.name < b.name) : ∃ c d, (c, d) ∈ g.edges ∧ c.name = a.name ∧ d.name = b.name := by
  obtain ⟨c, d, hmem, hca, hdb⟩ := exists_mem_darts h
  refine ⟨c, d, ?_, hca, hdb⟩
  rw [edges_eq_filter_darts, List.mem_filter, decide_eq_true_eq, Variable.lt_iff, hca, hdb]
  exact ⟨hmem, hlt⟩

/-- Every edge is listed from one of its ends. -/
theorem exists_mem_edges_of_isSimple {g : Graph} (hg : g.IsSimple) {a b : Variable}
    (h : g.hasEdge a b = true) : ∃ c d, (c, d) ∈ g.edges ∧
      ((c.name = a.name ∧ d.name = b.name) ∨ (c.name = b.name ∧ d.name = a.name)) := by
  -- The ends have different names, so one of them is the lesser one.
  by_cases hab : a.name < b.name
  · obtain ⟨c, d, hmem, hnames⟩ := exists_mem_edges h hab
    exact ⟨c, d, hmem, Or.inl hnames⟩
  · have hba : b.name < a.name := Classical.byContradiction fun hba =>
      hg.ne_of_hasEdge h (String.le_antisymm (String.not_lt.mp hba) (String.not_lt.mp hab))
    obtain ⟨c, d, hmem, hnames⟩ := exists_mem_edges (hg.symmetric a b h) hba
    exact ⟨c, d, hmem, Or.inr hnames⟩

/-! ### The first edge -/

/-- The first edge is the first neighbour of the first vertex. -/
theorem firstEdge?_eq_some_iff {g : Graph} {a b : Variable} :
    g.firstEdge? = some (a, b) ↔ ∃ around rest others,
      g.adjacency.entries = (a, around) :: rest ∧ around.keys = b :: others := by
  constructor
  · intro h
    obtain ⟨⟨k, around⟩, hhead, hbind⟩ := Option.bind_eq_some_iff.mp h
    obtain ⟨c, hc, hpair⟩ := Option.bind_eq_some_iff.mp hbind
    obtain ⟨rfl, rfl⟩ := Prod.mk.inj (Option.some.inj hpair)
    obtain ⟨rest, hentries⟩ := List.head?_eq_some_iff.mp hhead
    obtain ⟨others, hkeys⟩ := List.head?_eq_some_iff.mp hc
    exact ⟨around, rest, others, hentries, hkeys⟩
  · rintro ⟨around, rest, others, hentries, hkeys⟩
    simp [firstEdge?, hentries, hkeys]

/-- Only a graph without edges has no first edge. The first edge begins at its lesser end. -/
theorem firstEdge?_cases {g : Graph} (hg : g.IsSimple) :
    (g.isEmpty = true ∧ g.firstEdge? = none) ∨
      ∃ a b, g.firstEdge? = some (a, b) ∧ g.hasEdge a b = true ∧ a.name < b.name := by
  cases hentries : g.adjacency.entries with
  | nil =>
    refine Or.inl ⟨List.isEmpty_iff.mpr hentries, ?_⟩
    rw [firstEdge?, hentries]
    rfl
  | cons e rest =>
    obtain ⟨a, around⟩ := e
    have hmem : (a, around) ∈ g.adjacency.entries := hentries ▸ List.mem_cons_self
    have hfind := Table.find?_of_mem_entries hmem
    cases haround : around.keys with
    | nil =>
      -- A set without keys is empty, and an empty set is not kept.
      have hnil : around.entries = [] := List.map_eq_nil_iff.mp haround
      have hne := noIsolated_iff.mp hg.inhabited a around hfind
      rw [Table.isEmpty, hnil] at hne
      exact absurd hne.symm Bool.false_ne_true
    | cons b others =>
      have hab : g.hasEdge a b = true := by
        rw [hasEdge, hfind, Option.any_some, Table.contains_iff_mem_names]
        exact List.mem_map_of_mem (haround ▸ List.mem_cons_self)
      have hfirst := firstEdge?_eq_some_iff.mpr ⟨around, rest, others, hentries, haround⟩
      refine Or.inr ⟨a, b, hfirst, hab, ?_⟩
      -- The edge is stored at its other end as well, so `b` has an entry of its own further on.
      have hb := (mem_vertices_names_iff hg).mpr ⟨a, hg.symmetric a b hab⟩
      obtain ⟨around', hfind'⟩ :=
        Table.contains_iff_exists.mp (Table.mem_names_iff_contains.mp hb)
      obtain ⟨k, hk, hname⟩ := Table.find?_eq_some_iff.mp hfind'
      have hascending := g.adjacency.ascending
      rw [hentries] at hk hascending
      rw [← hname]
      rcases List.mem_cons.mp hk with heq | hk
      · exact absurd ((Prod.mk.inj heq).1 ▸ hname) (hg.ne_of_hasEdge hab)
      · exact List.rel_of_pairwise_cons hascending hk

/-- The first edge begins at the least vertex. -/
theorem lt_of_firstEdge? {g : Graph} {a b : Variable} (h : g.firstEdge? = some (a, b))
    {n : String} (hn : n ∈ g.vertexNames) (hne : n ≠ a.name) : a.name < n := by
  obtain ⟨_, _, _, hentries, _⟩ := firstEdge?_eq_some_iff.mp h
  -- The names ascend, and that of `a` is the first of them.
  have hnames := g.adjacency.pairwise_names
  have hmem := List.mem_toFinset.mp hn
  rw [Table.names, Table.keys, hentries] at hnames hmem
  exact List.rel_of_pairwise_cons hnames ((List.mem_cons.mp hmem).resolve_left hne)

end BoundedEquations.Graph
