import BoundedEquations.Proofs.Graph.Alike
import BoundedEquations.Traced
import Mathlib.Data.Sym.Sym2

/-!
# `BoundedEquations.Proofs.Graph.Pairs`: a graph as a set of unordered pairs

A graph stores each edge twice and drops a vertex with its last neighbour. Seen from outside it is a
set of unordered pairs of names, `Graph.pairs`. Each operation is described by what it does to this
set, and `Edit` names the operations, so that any sequence of them can be followed on both sides.
The theorems:

* `hasEdge_eraseVertex`, `isSimple_eraseVertex`: removing a vertex, edge by edge.
* `pairs_insert`, `pairs_erase`, `pairs_eraseVertex`, `pairs_contract`: each operation on the pairs.
* `beq_iff_pairs_eq`: graphs compare equal when they have the same pairs.
* `Edit.apply_cases`: an edit is refused, or it does to the pairs what it is meant to do.
* `edited_isSimple_and_pairs`: any sequence of edits.
* `contract_replaces_vertex`: what a contraction leaves, told by pairs, vertices and neighbours.
-/

set_option autoImplicit false

namespace BoundedEquations.Graph

variable {g h : Graph} {a b : Variable}

/-! ### Removing a vertex -/

/-- The walk over the old neighbours of `a` strikes `a` from each of them. -/
theorem hasEdge_foldl_detach (a : Variable) (es : List Variable) (g : Graph) (c d : Variable) :
    (es.foldl (fun g e => g.detach e a) g).hasEdge c d = true ↔
      g.hasEdge c d = true ∧ ¬(d.name = a.name ∧ ∃ e ∈ es, e.name = c.name) := by
  induction es generalizing g with
  | nil => simp
  | cons e rest ih =>
    rw [List.foldl_cons, ih, hasEdge_detach, and_assoc]
    refine and_congr_right fun _ => ?_
    simp only [List.mem_cons, exists_eq_or_imp, and_or_left, not_or]
    refine and_congr_left fun _ => ?_
    rw [and_comm, eq_comm (a := c.name)]

/-- Removing a vertex takes out its edges and no others. -/
theorem hasEdge_eraseVertex (hg : g.IsSimple) (a c d : Variable) :
    (g.eraseVertex a).hasEdge c d = true ↔
      g.hasEdge c d = true ∧ c.name ≠ a.name ∧ d.name ≠ a.name := by
  rw [eraseVertex, hasEdge_foldl_detach, hasEdge_eraseEntry, and_assoc,
    ← hasEdge_iff_exists_neighbour]
  refine and_congr_right fun hcd => and_congr_right fun _ => not_congr (and_iff_left_of_imp ?_)
  -- An edge that ends at `a` begins at one of the neighbours that are visited.
  intro hda
  exact g.hasEdge_congr hda rfl ▸ hg.symmetric c d hcd

/-- Striking one neighbour at several vertices leaves no vertex without neighbours. -/
theorem noIsolated_foldl_detach (a : Variable) (es : List Variable) (hg : g.NoIsolated) :
    (es.foldl (fun g e => g.detach e a) g).NoIsolated := by
  induction es generalizing g with
  | nil => exact hg
  | cons e rest ih => exact ih (noIsolated_detach e a hg)

/-- Removing a vertex keeps a graph simple. -/
theorem isSimple_eraseVertex (hg : g.IsSimple) (a : Variable) : (g.eraseVertex a).IsSimple where
  symmetric c d hcd := by
    rw [hasEdge_eraseVertex hg] at hcd ⊢
    exact ⟨hg.symmetric c d hcd.1, hcd.2.2, hcd.2.1⟩
  irreflexive c := by
    rw [Bool.eq_false_iff, Ne, hasEdge_eraseVertex hg, hg.irreflexive c]
    exact fun hloop => nomatch hloop.1
  inhabited := noIsolated_foldl_detach a _ (noIsolated_eraseEntry a hg.inhabited)

/-! ### Pairs of names -/

/-- The unordered pairs of names that are joined by an edge. -/
def pairs (g : Graph) : Set (Sym2 String) :=
  {p | ∃ a b, g.hasEdge a b = true ∧ s(a.name, b.name) = p}

/-- A pair of names is in the set when there is an edge between the two. -/
theorem mem_pairs (hg : g.IsSimple) : s(a.name, b.name) ∈ g.pairs ↔ g.hasEdge a b = true := by
  constructor
  · rintro ⟨c, d, hcd, hpair⟩
    rcases Sym2.eq_iff.mp hpair with ⟨hca, hdb⟩ | ⟨hcb, hda⟩
    · exact g.hasEdge_congr hca hdb ▸ hcd
    · exact g.hasEdge_congr hda hcb ▸ hg.symmetric c d hcd
  · intro hab
    exact ⟨a, b, hab, rfl⟩

/-- Sets of pairs are equal when they agree on the names of variables. -/
theorem pairs_ext {E F : Set (Sym2 String)}
    (h : ∀ a b : Variable, s(a.name, b.name) ∈ E ↔ s(a.name, b.name) ∈ F) : E = F := by
  refine Set.ext fun p => ?_
  induction p using Sym2.ind with
  | _ m n =>
    obtain ⟨a, rfl⟩ := Variable.exists_name_eq m
    obtain ⟨b, rfl⟩ := Variable.exists_name_eq n
    exact h a b

/-- The graph without edges has no pairs. -/
theorem pairs_empty : empty.pairs = ∅ :=
  pairs_ext fun _ _ => iff_of_false (fun ⟨_, _, hcd, _⟩ => nomatch hcd) id

/-- Adding an edge adds its pair. -/
theorem pairs_insert (hg : g.IsSimple) (hgh : g.insert a b = .ok h) :
    h.pairs = g.pairs ∪ {s(a.name, b.name)} := by
  refine pairs_ext fun c d => ?_
  rw [mem_pairs (isSimple_insert hg hgh), hasEdge_insert hgh, Set.mem_union, mem_pairs hg,
    Set.mem_singleton_iff, Sym2.eq_iff]

/-- Removing an edge takes out its pair. -/
theorem pairs_erase (hg : g.IsSimple) (a b : Variable) :
    (g.erase a b).pairs = g.pairs \ {s(a.name, b.name)} := by
  refine pairs_ext fun c d => ?_
  rw [mem_pairs (isSimple_erase a b hg), hasEdge_erase, Set.mem_sdiff, mem_pairs hg,
    Set.mem_singleton_iff, Sym2.eq_iff, not_or]

/-- Removing a vertex takes out the pairs that it is in. -/
theorem pairs_eraseVertex (hg : g.IsSimple) (a : Variable) :
    (g.eraseVertex a).pairs = {p ∈ g.pairs | a.name ∉ p} := by
  refine pairs_ext fun c d => ?_
  rw [mem_pairs (isSimple_eraseVertex hg a), hasEdge_eraseVertex hg, Set.mem_sep_iff, mem_pairs hg,
    Sym2.mem_iff, not_or, ne_comm, ne_comm (a := d.name)]

/-- The pairs with the name `b` in the place of the name `a`. A pair whose ends become the same is
dropped. -/
def contractPairs (a b : String) (E : Set (Sym2 String)) : Set (Sym2 String) :=
  {p | ¬p.IsDiag ∧ ∃ q ∈ E, q.map (rename a b) = p}

/-- A contraction does to the pairs what it is meant to do. -/
theorem pairs_contract (hg : g.IsSimple) (hgh : g.contract a b = .ok h) :
    h.pairs = contractPairs a.name b.name g.pairs := by
  refine pairs_ext fun c d => ?_
  rw [mem_pairs (isSimple_contract hg hgh), hasEdge_contract_iff_exists hg hgh, contractPairs,
    Set.mem_ofPred_eq, Sym2.mk_isDiag_iff]
  refine and_congr_right fun _ => ?_
  constructor
  · rintro ⟨e, f, hef, hec, hfd⟩
    refine ⟨_, ⟨e, f, hef, rfl⟩, ?_⟩
    rw [Sym2.map_mk, hec, hfd]
  · rintro ⟨_, ⟨e, f, hef, rfl⟩, hpair⟩
    rw [Sym2.map_mk] at hpair
    rcases Sym2.eq_iff.mp hpair with ⟨hec, hfd⟩ | ⟨hed, hfc⟩
    · exact ⟨e, f, hef, hec, hfd⟩
    · exact ⟨f, e, hg.symmetric e f hef, hfc, hed⟩

/-- Graphs compare equal when they have the same pairs. -/
theorem beq_iff_pairs_eq (hg : g.IsSimple) (hh : h.IsSimple) :
    (g == h) = true ↔ g.pairs = h.pairs := by
  have hnames : (g == h) = true ↔ g.names = h.names :=
    show (g.names == h.names) = true ↔ _ from beq_iff_eq
  rw [hnames, ← alike_iff_names_eq, alike_iff_hasEdge hg hh]
  constructor
  · intro hedges
    refine pairs_ext fun a b => ?_
    rw [mem_pairs hg, mem_pairs hh, hedges]
  · intro hpairs a b
    rw [Bool.eq_iff_iff, ← mem_pairs hg, ← mem_pairs hh, hpairs]

/-! ### Sequences of edits -/

/-- The operations that change a graph. -/
inductive Edit where
  | insert (a b : Variable)
  | erase (a b : Variable)
  | contract (a b : Variable)
  | eraseVertex (a : Variable)
  | clear

namespace Edit

/-- The graph after an edit. A refused edit leaves it as it was. -/
def apply (g : Graph) (edit : Edit) : Outcome Graph :=
  Outcome.ofExcept g <|
    match edit with
    | .insert a b => g.insert a b
    | .erase a b => .ok (g.erase a b)
    | .contract a b => g.contract a b
    | .eraseVertex a => .ok (g.eraseVertex a)
    | .clear => .ok .empty

/-- What an edit is meant to do to a set of pairs. A loop is not put in. -/
def onPairs (E : Set (Sym2 String)) : Edit → Set (Sym2 String)
  | .insert a b => if a.name = b.name then E else E ∪ {s(a.name, b.name)}
  | .erase a b => E \ {s(a.name, b.name)}
  | .contract a b => contractPairs a.name b.name E
  | .eraseVertex a => {p ∈ E | a.name ∉ p}
  | .clear => ∅

/-- Why an edit is refused: it would put in a loop. -/
def cause? : Edit → Option Fault
  | .insert a b => if a.name = b.name then some (.selfLoop a b) else none
  | _ => none

/-- An edit that is not refused keeps the graph simple and does to the pairs what it is meant to do.
A refused edit changes nothing. -/
theorem apply_cases (hg : g.IsSimple) (edit : Edit) :
    (edit.apply g).fault = edit.cause? ∧ (edit.apply g).state.IsSimple ∧
      (edit.apply g).state.pairs = edit.onPairs g.pairs ∧
      (edit.cause? ≠ none → (edit.apply g).state = g) := by
  cases edit with
  | insert a b =>
    by_cases hab : a.name = b.name
    · have hloop : g.insert a b = .error (.selfLoop a b) := if_pos (Variable.beq_iff.mpr hab)
      rw [apply, hloop, cause?, onPairs, if_pos hab, if_pos hab]
      exact ⟨rfl, hg, rfl, fun _ => rfl⟩
    · have hinsert := insert_eq_ok (g := g) hab
      rw [apply, hinsert, cause?, onPairs, if_neg hab, if_neg hab]
      exact ⟨rfl, isSimple_insert hg hinsert, pairs_insert hg hinsert, fun hne => absurd rfl hne⟩
  | erase a b =>
    exact ⟨rfl, isSimple_erase a b hg, pairs_erase hg a b, fun hne => absurd rfl hne⟩
  | contract a b =>
    have hcontract := contract_eq_ok g a b
    rw [apply, hcontract]
    exact ⟨rfl, isSimple_contract hg hcontract, pairs_contract hg hcontract,
      fun hne => absurd rfl hne⟩
  | eraseVertex a =>
    exact ⟨rfl, isSimple_eraseVertex hg a, pairs_eraseVertex hg a, fun hne => absurd rfl hne⟩
  | clear => exact ⟨rfl, isSimple_empty, pairs_empty, fun hne => absurd rfl hne⟩

end Edit

/-- The graph that some edits make of another one. Refused edits are passed over. -/
def edited (g : Graph) (edits : List Edit) : Graph :=
  edits.foldl (fun g edit => (edit.apply g).state) g

/-- A sequence of edits does to the graph what it is meant to do to the pairs. -/
theorem edited_spec (hg : g.IsSimple) (edits : List Edit) :
    (g.edited edits).IsSimple ∧ (g.edited edits).pairs = edits.foldl Edit.onPairs g.pairs := by
  induction edits generalizing g with
  | nil => exact ⟨hg, rfl⟩
  | cons edit rest ih =>
    obtain ⟨_, hsimple, hpairs, _⟩ := edit.apply_cases hg
    rw [List.foldl_cons, ← hpairs]
    exact ih hsimple

/-- **A graph is a set of unordered pairs**, whatever edits it has been through. It is simple, it
has the edges that the edits are meant to leave, it compares equal to another one just when these
are the same, and of the edits to come only a loop is refused, without any change. -/
theorem edited_isSimple_and_pairs (edits : List Edit) :
    (empty.edited edits).IsSimple ∧
      (∀ a b, (empty.edited edits).hasEdge a b = true ↔
        s(a.name, b.name) ∈ edits.foldl Edit.onPairs ∅) ∧
      (∀ edits', (empty.edited edits == empty.edited edits') = true ↔
        edits.foldl Edit.onPairs ∅ = edits'.foldl Edit.onPairs ∅) ∧
      ∀ edit : Edit, (edit.apply (empty.edited edits)).fault = edit.cause? ∧
        (edit.cause? ≠ none → (edit.apply (empty.edited edits)).state = empty.edited edits) := by
  have hspec : ∀ edits, (empty.edited edits).IsSimple ∧
      (empty.edited edits).pairs = edits.foldl Edit.onPairs ∅ := by
    intro edits
    rw [← pairs_empty]
    exact edited_spec isSimple_empty edits
  obtain ⟨hsimple, hpairs⟩ := hspec edits
  refine ⟨hsimple, fun a b => ?_, fun edits' => ?_, fun edit => ?_⟩
  · rw [← hpairs, mem_pairs hsimple]
  · obtain ⟨hsimple', hpairs'⟩ := hspec edits'
    rw [beq_iff_pairs_eq hsimple hsimple', hpairs, hpairs']
  · obtain ⟨hfault, _, _, hkept⟩ := edit.apply_cases hsimple
    exact ⟨hfault, hkept⟩

/-! ### One vertex in the place of another -/

/-- The two ends of an edge differ. -/
theorem not_isDiag_of_mem_pairs (hg : g.IsSimple) {p : Sym2 String} (hp : p ∈ g.pairs) :
    ¬p.IsDiag := by
  obtain ⟨c, d, hcd, rfl⟩ := hp
  rw [Sym2.mk_isDiag_iff]
  exact hg.ne_of_hasEdge hcd

/-- A pair without the old name is not changed by the new one. -/
theorem map_rename_of_notMem {m n : String} {p : Sym2 String} (hp : m ∉ p) :
    p.map (rename m n) = p := by
  have hfix : ∀ k ∈ p, rename m n k = id k := by
    intro k hk
    exact rename_of_ne fun hkm => hp (hkm ▸ hk)
  rw [Sym2.map_congr hfix, Sym2.map_id, id]

/-- Pairs away from the old name are kept. -/
theorem mem_contractPairs_of_notMem {m n : String} {E : Set (Sym2 String)} {p : Sym2 String}
    (hp : p ∈ E) (hdiag : ¬p.IsDiag) (hm : m ∉ p) : p ∈ contractPairs m n E :=
  ⟨hdiag, p, hp, map_rename_of_notMem hm⟩

/-- Pairs away from the new name are not new. -/
theorem mem_of_mem_contractPairs {m n : String} {E : Set (Sym2 String)} {p : Sym2 String}
    (hp : p ∈ contractPairs m n E) (hn : n ∉ p) : p ∈ E := by
  obtain ⟨_, q, hq, rfl⟩ := hp
  -- The old name in `q` would have become the new one.
  have hm : m ∉ q := fun hm => hn (Sym2.mem_map.mpr ⟨m, hm, rename_self m n⟩)
  rw [map_rename_of_notMem hm]
  exact hq

/-- A name in its own place changes nothing but pairs of it with itself. -/
theorem contractPairs_same (n : String) (E : Set (Sym2 String)) :
    contractPairs n n E = {p ∈ E | ¬p.IsDiag} := by
  have hrename : Sym2.map (rename n n) = id := by
    rw [show rename n n = id from funext (rename_same n), Sym2.map_id]
  ext p
  simp [contractPairs, hrename, and_comm]

/-- A vertex that is put in its own place keeps its edges. -/
theorem contract_same (hg : g.IsSimple) (hab : a.name = b.name) (hgh : g.contract a b = .ok h) :
    (h == g) = true := by
  rw [beq_iff_pairs_eq (isSimple_contract hg hgh) hg, pairs_contract hg hgh, hab,
    contractPairs_same]
  ext p
  simp only [Set.mem_sep_iff, and_iff_left_iff_imp]
  exact not_isDiag_of_mem_pairs hg

/-- The vertex that stays is next to all that either of the two was next to. -/
theorem neighbourNames_contract (hg : g.IsSimple) (hab : a.name ≠ b.name)
    (hgh : g.contract a b = .ok h) :
    h.neighbourNames b = (g.neighbourNames a ∪ g.neighbourNames b) \ {a.name, b.name} := by
  ext n
  obtain ⟨c, rfl⟩ := Variable.exists_name_eq n
  simp [mem_neighbourNames_iff, hasEdge_contract_right hg hab hgh]

/-- The vertex that is replaced is gone. -/
theorem notMem_vertexNames_contract (hg : g.IsSimple) (hab : a.name ≠ b.name)
    (hgh : g.contract a b = .ok h) : a.name ∉ h.vertexNames := by
  rw [mem_vertexNames_iff (isSimple_contract hg hgh)]
  rintro ⟨d, had⟩
  exact (vertex_of_hasEdge_contract hg hab hgh had).1 rfl

/-- **Contraction puts `b` in the place of `a`,** whether the two are joined, have neighbours in
common, or have no edges at all. It is never refused. Its pairs are the old ones under their new
names, less those whose ends have become the same. So with two names `a` is no vertex any more, `b`
has the neighbours of both but for the two themselves, pairs without `a` are kept, and only pairs
with `b` are new. A vertex in its own place leaves an equal graph, and one without edges the same
graph. -/
theorem contract_replaces_vertex (hg : g.IsSimple) (a b : Variable) :
    ∃ h, g.contract a b = .ok h ∧ h.IsSimple ∧
      h.pairs = contractPairs a.name b.name g.pairs ∧
      (a.name ≠ b.name →
        a.name ∉ h.vertexNames ∧
        h.neighbourNames b = (g.neighbourNames a ∪ g.neighbourNames b) \ {a.name, b.name} ∧
        {p ∈ g.pairs | a.name ∉ p} ⊆ h.pairs ∧ {p ∈ h.pairs | b.name ∉ p} ⊆ g.pairs) ∧
      (a.name = b.name → (h == g) = true) ∧
      (a.name ∉ g.vertexNames → h = g) := by
  obtain ⟨h, hgh⟩ : ∃ h, g.contract a b = .ok h := ⟨_, contract_eq_ok g a b⟩
  have hpairs := pairs_contract hg hgh
  refine ⟨h, hgh, isSimple_contract hg hgh, hpairs, fun hab => ⟨?_, ?_, ?_, ?_⟩, fun hab => ?_,
    fun habsent => ?_⟩
  · exact notMem_vertexNames_contract hg hab hgh
  · exact neighbourNames_contract hg hab hgh
  · rintro p ⟨hp, ha⟩
    rw [hpairs]
    exact mem_contractPairs_of_notMem hp (not_isDiag_of_mem_pairs hg hp) ha
  · rintro p ⟨hp, hb⟩
    rw [hpairs] at hp
    exact mem_of_mem_contractPairs hp hb
  · exact contract_same hg hab hgh
  · have hisolated : ∀ c, g.hasEdge a c = false := by
      simpa [mem_vertexNames_iff hg] using habsent
    rw [contract_of_isolated hg hisolated b] at hgh
    exact (Except.ok.inj hgh).symm

/-- A variable of one bit. -/
def oneBit (name : String) : Variable := ⟨name, 1, Nat.one_pos⟩

/-- The vertices `a` and `b` are joined to each other and to `c`, and `a` is also joined to `d`. -/
def triangleWithTail : Graph :=
  empty.edited [.insert (oneBit "a") (oneBit "b"), .insert (oneBit "b") (oneBit "c"),
    .insert (oneBit "c") (oneBit "a"), .insert (oneBit "a") (oneBit "d")]

/-- With `b` in the place of `a` three vertices are left, and `d` is next to `b`. -/
theorem contract_replaces_vertex_triangleWithTail :
    triangleWithTail.IsSimple ∧
      ∃ h, triangleWithTail.contract (oneBit "a") (oneBit "b") = .ok h ∧
        h.names = [("b", ["c", "d"]), ("c", ["b"]), ("d", ["b"])] ∧
        h.pairs = contractPairs "a" "b" triangleWithTail.pairs ∧
        h.neighbourNames (oneBit "b") =
          (triangleWithTail.neighbourNames (oneBit "a") ∪
            triangleWithTail.neighbourNames (oneBit "b")) \ {"a", "b"} := by
  have hsimple : triangleWithTail.IsSimple := (edited_spec isSimple_empty _).1
  obtain ⟨h, hcontract, _, hpairs, hdistinct, _⟩ :=
    contract_replaces_vertex hsimple (oneBit "a") (oneBit "b")
  have hnames : (triangleWithTail.contract (oneBit "a") (oneBit "b")).toOption.map names =
      some [("b", ["c", "d"]), ("c", ["b"]), ("d", ["b"])] := by
    decide +kernel
  rw [hcontract] at hnames
  exact ⟨hsimple, h, hcontract, Option.some.inj hnames, hpairs, (hdistinct (by decide)).2.1⟩

end BoundedEquations.Graph
