import BoundedEquations.Proofs.Graph.Contract
import Mathlib.Data.List.Forall2

/-!
# `BoundedEquations.Proofs.Graph.Alike`: tables and graphs compared by name

Two tables are alike when they list the same names and hold related values under them. The widths of
the stored variables may differ. All changes of a table go through `Table.alter`, so one lemma says
that changes keep tables alike (`Table.Alike.alter`), and the operations on graphs follow from it.
The theorems:

* `Table.Alike.alter`, `Table.Alike.find?`: changes and look-ups.
* `Graph.Alike.attach` to `Graph.Alike.contract`: the operations keep graphs alike.
* `Graph.Alike.edges`, `Graph.Alike.firstEdge?`: the listings go by name.
* `Graph.alike_iff_hasEdge`: simple graphs are alike when they have the same edges.
-/

set_option autoImplicit false

namespace BoundedEquations

/-- The variables have the same name. -/
def Variable.SameName (x y : Variable) : Prop := x.name = y.name

/-- Lists have the same names when their variables do place by place. -/
theorem map_name_eq_iff {xs ys : List Variable} :
    xs.map Variable.name = ys.map Variable.name ↔ List.Forall₂ Variable.SameName xs ys := by
  rw [← List.forall₂_eq_eq_eq, List.forall₂_map_left_iff, List.forall₂_map_right_iff]
  rfl

namespace Table

variable {α β : Type} {R : α → β → Prop}

/-- The tables list the same names, with related values under them. -/
def Alike (R : α → β → Prop) (t : Table α) (u : Table β) : Prop :=
  List.Forall₂ (fun d e => d.1.name = e.1.name ∧ R d.2 e.2) t.entries u.entries

/-- Alike tables list the same names. -/
theorem Alike.names {t : Table α} {u : Table β} (h : t.Alike R u) : t.names = u.names := by
  rw [Table.names, Table.names, map_name_eq_iff, keys, keys, List.forall₂_map_left_iff,
    List.forall₂_map_right_iff]
  exact h.imp fun _ _ hde => hde.1

/-- Tables without entries are alike. -/
theorem alike_empty : (empty : Table α).Alike R (empty : Table β) := .nil

/-- Of alike tables both are empty or neither is. -/
theorem Alike.isEmpty {t : Table α} {u : Table β} (h : t.Alike R u) : t.isEmpty = u.isEmpty := by
  obtain ⟨ds, hds⟩ := t
  obtain ⟨es, hes⟩ := u
  have hentries : List.Forall₂ _ ds es := h
  clear h
  cases hentries <;> rfl

/-- The same change of the values at one name keeps two lists of entries alike. -/
theorem alike_alterEntries {ds : List (Variable × α)} {es : List (Variable × β)}
    {x y : Variable} (hxy : x.name = y.name) {f : Option α → Option α} {g : Option β → Option β}
    (hfg : ∀ a b, Option.Rel R a b → Option.Rel R (f a) (g b))
    (h : List.Forall₂ (fun d e => d.1.name = e.1.name ∧ R d.2 e.2) ds es) :
    List.Forall₂ (fun d e => d.1.name = e.1.name ∧ R d.2 e.2)
      (alterEntries x f ds) (alterEntries y g es) := by
  -- In all cases but one the list gets one new entry at its front, or none.
  have front : ∀ {k l : Variable} {a : Option α} {b : Option β} {ds' : List (Variable × α)}
      {es' : List (Variable × β)}, k.name = l.name → Option.Rel R a b →
      List.Forall₂ (fun d e => d.1.name = e.1.name ∧ R d.2 e.2) ds' es' →
      List.Forall₂ (fun d e => d.1.name = e.1.name ∧ R d.2 e.2)
        ((a.map (k, ·)).toList ++ ds') ((b.map (l, ·)).toList ++ es') := by
    intro k l a b ds' es' hkl hab hrest
    cases hab with
    | some hab => exact .cons ⟨hkl, hab⟩ hrest
    | none => exact hrest
  induction h with
  | nil =>
    have hnew := front hxy (hfg _ _ .none) .nil
    rwa [List.append_nil, List.append_nil] at hnew
  | @cons d e ds' es' hde hrest ih =>
    obtain ⟨k, a⟩ := d
    obtain ⟨l, b⟩ := e
    obtain ⟨hkl, hab⟩ := hde
    simp only [alterEntries, Variable.lt_iff]
    rw [hxy, show k.name = l.name from hkl]
    split
    · exact front hxy (hfg _ _ .none) (.cons ⟨hkl, hab⟩ hrest)
    · split
      · exact .cons ⟨hkl, hab⟩ ih
      · exact front hkl (hfg _ _ (.some hab)) hrest

/-- The same change of the value at one name keeps tables alike. -/
theorem Alike.alter {t : Table α} {u : Table β} (h : t.Alike R u) {x y : Variable}
    (hxy : x.name = y.name) {f : Option α → Option α} {g : Option β → Option β}
    (hfg : ∀ a b, Option.Rel R a b → Option.Rel R (f a) (g b)) :
    (t.alter x f).Alike R (u.alter y g) :=
  alike_alterEntries hxy hfg h

/-- Related values recorded under one name keep tables alike. -/
theorem Alike.insert {t : Table α} {u : Table β} (h : t.Alike R u) {x y : Variable}
    (hxy : x.name = y.name) {a : α} {b : β} (hab : R a b) :
    (t.insert x a).Alike R (u.insert y b) :=
  h.alter hxy fun _ _ _ => .some hab

/-- Striking one name keeps tables alike. -/
theorem Alike.erase {t : Table α} {u : Table β} (h : t.Alike R u) {x y : Variable}
    (hxy : x.name = y.name) : (t.erase x).Alike R (u.erase y) :=
  h.alter hxy fun _ _ _ => .none

/-- Alike tables have related values under one name, or none. -/
theorem Alike.find? {t : Table α} {u : Table β} (h : t.Alike R u) {x y : Variable}
    (hxy : x.name = y.name) : Option.Rel R (t.find? x) (u.find? y) := by
  obtain ⟨ds, hds⟩ := t
  obtain ⟨es, hes⟩ := u
  have hentries : List.Forall₂ (fun d e => d.1.name = e.1.name ∧ R d.2 e.2) ds es := h
  show Option.Rel R ((ds.find? fun d => d.1 == x).map Prod.snd)
    ((es.find? fun e => e.1 == y).map Prod.snd)
  clear hds hes h
  induction hentries with
  | nil => exact .none
  | @cons d e ds' es' hde _ ih =>
    have hbeq : (d.1 == x) = (e.1 == y) := by
      rw [Bool.eq_iff_iff, Variable.beq_iff, Variable.beq_iff, hde.1, hxy]
    rw [List.find?_cons, List.find?_cons, hbeq]
    cases e.1 == y with
    | true => exact .some hde.2
    | false => exact ih

end Table

/-- The sets have the same names. -/
abbrev VariableSet.Alike (xs ys : VariableSet) : Prop := Table.Alike (fun _ _ => True) xs ys

/-- Sets are alike when they have the same names. -/
theorem VariableSet.alike_iff_names_eq {xs ys : VariableSet} :
    xs.Alike ys ↔ xs.names = ys.names := by
  rw [Table.names, Table.names, map_name_eq_iff, Table.keys, Table.keys,
    List.forall₂_map_left_iff, List.forall₂_map_right_iff]
  exact ⟨fun h => h.imp fun _ _ hde => hde.1, fun h => h.imp fun _ _ hde => ⟨hde, trivial⟩⟩

namespace Graph

/-- The graphs have the same names for vertices, with the same names around them. -/
def Alike (g h : Graph) : Prop := g.adjacency.Alike VariableSet.Alike h.adjacency

variable {g h : Graph} {a b c d : Variable}

/-- Graphs are alike when they compare equal. -/
theorem alike_iff_names_eq : g.Alike h ↔ g.names = h.names := by
  rw [names, names, ← List.forall₂_eq_eq_eq, List.forall₂_map_left_iff,
    List.forall₂_map_right_iff]
  refine ⟨fun hgh => hgh.imp fun d e hde => ?_, fun hgh => hgh.imp fun d e hde => ?_⟩
  · exact Prod.ext hde.1 (VariableSet.alike_iff_names_eq.mp hde.2)
  · obtain ⟨hname, haround⟩ := Prod.mk.inj hde
    exact ⟨hname, VariableSet.alike_iff_names_eq.mpr haround⟩

/-! ### Questions about alike graphs -/

/-- Of alike graphs both have edges or neither has. -/
theorem Alike.isEmpty (hgh : g.Alike h) : g.isEmpty = h.isEmpty := Table.Alike.isEmpty hgh

/-- Alike graphs list vertices of the same names. -/
theorem Alike.vertices (hgh : g.Alike h) :
    List.Forall₂ Variable.SameName g.vertices h.vertices :=
  map_name_eq_iff.mp (Table.Alike.names hgh)

/-- Alike graphs list neighbours of the same names. -/
theorem Alike.neighbours (hgh : g.Alike h) (hac : a.name = c.name) :
    List.Forall₂ Variable.SameName (g.neighbours a) (h.neighbours c) := by
  have hfind := Table.Alike.find? hgh hac
  rw [Graph.neighbours, Graph.neighbours]
  generalize g.adjacency.find? a = around, h.adjacency.find? c = around' at hfind
  cases hfind with
  | some haround => exact map_name_eq_iff.mp haround.names
  | none => exact .nil

/-- A variable has as many neighbours in either graph. -/
theorem Alike.degree (hgh : g.Alike h) (hac : a.name = c.name) : g.degree a = h.degree c :=
  (hgh.neighbours hac).length_eq

/-- Alike graphs have edges between the same names. -/
theorem Alike.hasEdge (hgh : g.Alike h) (hac : a.name = c.name) (hbd : b.name = d.name) :
    g.hasEdge a b = h.hasEdge c d := by
  rw [Bool.eq_iff_iff, hasEdge_iff_exists_neighbour, hasEdge_iff_exists_neighbour, hbd]
  have hnames := map_name_eq_iff.mpr (hgh.neighbours hac)
  rw [← List.mem_map, ← List.mem_map, hnames]

/-- Alike graphs list their edges in the same order, with ends of the same names. -/
theorem Alike.edges (hgh : g.Alike h) :
    List.Forall₂ (fun e f => e.1.name = f.1.name ∧ e.2.name = f.2.name) g.edges h.edges := by
  rw [Graph.edges, Graph.edges]
  refine List.rel_flatMap hgh ?_
  rintro ⟨k, around⟩ ⟨l, around'⟩ ⟨hkl, haround⟩
  -- A neighbour is listed when its name lies above that of the vertex.
  have hkeys : List.Forall₂ Variable.SameName around.keys around'.keys :=
    map_name_eq_iff.mp haround.names
  rw [List.forall₂_map_left_iff, List.forall₂_map_right_iff]
  refine (List.rel_filter ?_ hkeys).imp fun _ _ hname => ⟨hkl, hname⟩
  intro x y hxy
  show decide (k.name < x.name) = true ↔ decide (l.name < y.name) = true
  rw [show k.name = l.name from hkl, show x.name = y.name from hxy]

/-- The first edges of alike graphs have ends of the same names. -/
theorem Alike.firstEdge? (hgh : g.Alike h) :
    Option.Rel (fun e f => e.1.name = f.1.name ∧ e.2.name = f.2.name)
      g.firstEdge? h.firstEdge? := by
  have hentries : List.Forall₂ _ g.adjacency.entries h.adjacency.entries := hgh
  rw [Graph.firstEdge?, Graph.firstEdge?]
  generalize g.adjacency.entries = ds, h.adjacency.entries = es at hentries
  cases hentries with
  | nil => exact .none
  | @cons d e _ _ hde _ =>
    have hkeys : List.Forall₂ Variable.SameName d.2.keys e.2.keys :=
      map_name_eq_iff.mp hde.2.names
    show Option.Rel _ (d.2.keys.head?.bind fun b => some (d.1, b))
      (e.2.keys.head?.bind fun b => some (e.1, b))
    generalize d.2.keys = ks, e.2.keys = ls at hkeys
    cases hkeys with
    | nil => exact .none
    | cons hname _ => exact .some ⟨hde.1, hname⟩

/-! ### Changes of alike graphs -/

/-- Recording a neighbour keeps graphs alike. -/
theorem Alike.attach (hgh : g.Alike h) (hac : a.name = c.name) (hbd : b.name = d.name) :
    (g.attach a b).Alike (h.attach c d) := by
  refine Table.Alike.alter hgh hac fun around around' haround => .some ?_
  refine Table.Alike.insert ?_ hbd trivial
  cases haround with
  | some haround => exact haround
  | none => exact Table.alike_empty

/-- Striking a neighbour keeps graphs alike. -/
theorem Alike.detach (hgh : g.Alike h) (hac : a.name = c.name) (hbd : b.name = d.name) :
    (g.detach a b).Alike (h.detach c d) := by
  refine Table.Alike.alter hgh hac fun around around' haround => ?_
  cases haround with
  | none => exact .none
  | @some others others' hothers =>
    have herase : VariableSet.Alike (others.erase b) (others'.erase d) := hothers.erase hbd
    have hempty := herase.isEmpty
    -- A set that has become empty is dropped in both graphs.
    simp only [Option.map_some, Option.filter, hempty]
    split
    · exact .some herase
    · exact .none

/-- Removing an edge keeps graphs alike. -/
theorem Alike.erase (hgh : g.Alike h) (hac : a.name = c.name) (hbd : b.name = d.name) :
    (g.erase a b).Alike (h.erase c d) :=
  (hgh.detach hac hbd).detach hbd hac

/-- A step of a contraction keeps graphs alike. -/
theorem Alike.rewire (hgh : g.Alike h) (hac : a.name = c.name) (hbd : b.name = d.name)
    {x y : Variable} (hxy : x.name = y.name) : (rewire a b g x).Alike (rewire c d h y) := by
  have hdetach := hgh.detach hxy hac
  have hbeq : (x == b) = (y == d) := by
    rw [Bool.eq_iff_iff, Variable.beq_iff, Variable.beq_iff, hxy, hbd]
  rw [Graph.rewire, Graph.rewire, hbeq]
  split
  · exact hdetach
  · exact (hdetach.attach hxy hbd).attach hbd hxy

/-- A contraction is never refused, and it keeps graphs alike. -/
theorem Alike.contract (hgh : g.Alike h) (hac : a.name = c.name) (hbd : b.name = d.name) :
    ∃ g' h', g.contract a b = .ok g' ∧ h.contract c d = .ok h' ∧ g'.Alike h' := by
  refine ⟨_, _, contract_eq_ok g a b, contract_eq_ok h c d, ?_⟩
  have herase : Alike ⟨g.adjacency.erase a⟩ ⟨h.adjacency.erase c⟩ := Table.Alike.erase hgh hac
  exact List.rel_foldl (fun _ _ hgh' _ _ hxy => hgh'.rewire hac hbd hxy) herase
    (hgh.neighbours hac)

/-! ### Simple graphs are known by their edges -/

/-- The names around a variable are determined by the edges. -/
theorem names_neighbours_eq (hedges : ∀ a b, g.hasEdge a b = h.hasEdge a b) (a : Variable) :
    (g.neighbours a).map Variable.name = (h.neighbours a).map Variable.name := by
  have hcontains : ∀ (g : Graph) (b : Variable),
      g.hasEdge a b = ((g.adjacency.find? a).getD Table.empty).contains b := by
    intro g b
    rw [hasEdge]
    cases g.adjacency.find? a <;> rfl
  have hnames : ∀ g : Graph, (g.neighbours a).map Variable.name
      = ((g.adjacency.find? a).getD Table.empty).names := by
    intro g
    rw [neighbours]
    cases g.adjacency.find? a <;> rfl
  rw [hnames, hnames]
  refine Table.names_eq_iff.mpr fun b => ?_
  rw [← hcontains, ← hcontains, hedges]

/-- A graph lists its vertices, each with its neighbours. -/
theorem names_eq_map (g : Graph) : g.names
    = g.adjacency.names.map fun n => (n, (g.neighbours ⟨n, 1, Nat.one_pos⟩).map Variable.name) := by
  rw [names, Table.names, Table.keys, List.map_map, List.map_map]
  refine List.map_congr_left fun e he => ?_
  have hfind : g.adjacency.find? ⟨e.1.name, 1, Nat.one_pos⟩ = some e.2 :=
    Table.find?_eq_some_iff.mpr ⟨e.1, he, rfl⟩
  show (e.1.name, e.2.keys.map Variable.name) = (e.1.name, _)
  rw [neighbours, hfind]
  rfl

/-- Simple graphs are alike when they have the same edges. -/
theorem alike_iff_hasEdge (hg : g.IsSimple) (hh : h.IsSimple) :
    g.Alike h ↔ ∀ a b, g.hasEdge a b = h.hasEdge a b := by
  constructor
  · intro hgh a b
    exact hgh.hasEdge rfl rfl
  · intro hedges
    -- A name is a vertex when it has an edge, because no vertex is left without neighbours.
    have hvertices : g.adjacency.names = h.adjacency.names := by
      refine Table.names_eq_iff.mpr fun a => ?_
      rw [← Table.mem_names_iff_contains, ← Table.mem_names_iff_contains,
        mem_vertices_names_iff hg, mem_vertices_names_iff hh]
      simp only [hedges]
    rw [alike_iff_names_eq, names_eq_map, names_eq_map h, hvertices]
    refine List.map_congr_left fun n _ => ?_
    rw [names_neighbours_eq hedges]

end Graph

end BoundedEquations
