import BoundedEquations.Proofs.Graph.Simple

/-!
# `BoundedEquations.Proofs.Graph.Contract`: one vertex in the place of another

`Graph.contract` takes the entry of `a` away and then visits the old neighbours of `a` one by one.
At each it strikes `a` and puts in an edge to `b`. The theorems:

* `contract_eq_ok`: the walk is never refused, because the neighbour `b` is passed over.
* `contract_of_isolated`: there is no walk when `a` has no neighbours.
* `hasEdge_foldl_rewire`: the edges after any part of the walk.
* `hasEdge_contract`: the edges at the end. Those away from `a` are kept, and `b` is joined to the
  neighbours of `a` other than itself. `hasEdge_contract_right`: those at `b`.
* `hasEdge_contract_iff_exists`: the same in one clause. The old edges get new names, and loops go.
* `eq_of_rename_eq`, `exists_hasEdge_contract`: which edges become loops, and that no others go.
* `vertex_of_hasEdge_contract`: `a` is gone, and no vertex but `b` is new.
* `isSimple_contract`: the representation invariant is kept.
-/

set_option autoImplicit false

namespace BoundedEquations.Graph

/-- One step of the walk over the neighbours of `a`. -/
def rewire (a b : Variable) (g : Graph) (c : Variable) : Graph :=
  if c == b then g.detach c a else ((g.detach c a).attach c b).attach b c

/-- A contraction is never refused. -/
theorem contract_eq_ok (g : Graph) (a b : Variable) :
    g.contract a b = .ok ((g.neighbours a).foldl (rewire a b) ⟨g.adjacency.erase a⟩) := by
  rw [contract]
  generalize Graph.mk (g.adjacency.erase a) = h
  induction g.neighbours a generalizing h with
  | nil => rfl
  | cons c rest ih =>
    rw [List.foldlM_cons, List.foldl_cons]
    have hstep : (if c == b then .ok (h.detach c a) else (h.detach c a).insert c b)
        = Except.ok (ε := Fault) (rewire a b h c) := by
      rw [rewire]
      split
      · rfl
      · rename_i hcb
        exact insert_eq_ok fun heq => hcb (Variable.beq_iff.mpr heq)
    rw [hstep]
    exact ih (rewire a b h c)

/-- Without neighbours to visit the walk ends at once, and there is no entry to take away. -/
theorem contract_of_isolated {g : Graph} (hg : g.IsSimple) {a : Variable}
    (ha : ∀ c, g.hasEdge a c = false) (b : Variable) : g.contract a b = .ok g := by
  have habsent : g.adjacency.contains a = false := by
    rw [← Bool.not_eq_true, ← Table.mem_names_iff_contains, mem_vertices_names_iff hg]
    simp [ha]
  have hnone : g.neighbours a = [] := by
    rw [Table.contains, Option.isSome_eq_false_iff, Option.isNone_iff_eq_none] at habsent
    simp [neighbours, habsent]
  rw [contract_eq_ok, hnone, Table.erase_of_contains_eq_false habsent]
  rfl

/-- A step takes one direction of an edge out, and joins its end to `b` unless it is `b` itself. -/
theorem hasEdge_rewire (a b : Variable) (g : Graph) (e c d : Variable) :
    (rewire a b g e).hasEdge c d = true ↔
      (g.hasEdge c d = true ∧ ¬(c.name = e.name ∧ d.name = a.name)) ∨
        e.name ≠ b.name ∧ ((c.name = e.name ∧ d.name = b.name) ∨
          (c.name = b.name ∧ d.name = e.name)) := by
  rw [rewire]
  by_cases heb : e.name = b.name
  · rw [if_pos (Variable.beq_iff.mpr heb), hasEdge_detach]
    simp [heb]
  · rw [if_neg fun h => heb (Variable.beq_iff.mp h), hasEdge_attach, hasEdge_attach,
      hasEdge_detach, or_assoc]
    simp [heb]

/-- The edges after a part of the walk. An edge that a step puts in may be struck by a later step
only when the two ends `a` and `b` are one name, and then that step puts it in again. -/
theorem hasEdge_foldl_rewire {a b : Variable} {es : List Variable}
    (ha : ∀ e ∈ es, e.name ≠ a.name) (g : Graph) (c d : Variable) :
    (es.foldl (rewire a b) g).hasEdge c d = true ↔
      (g.hasEdge c d = true ∧ ¬(d.name = a.name ∧ ∃ e ∈ es, e.name = c.name)) ∨
        ∃ e ∈ es, e.name ≠ b.name ∧ ((c.name = e.name ∧ d.name = b.name) ∨
          (c.name = b.name ∧ d.name = e.name)) := by
  induction es generalizing g with
  | nil => simp
  | cons e rest ih =>
    have hea := ha e List.mem_cons_self
    rw [List.foldl_cons, ih (fun e' he' => ha e' (List.mem_cons_of_mem _ he')), hasEdge_rewire]
    simp only [List.mem_cons, exists_eq_or_imp]
    constructor
    · rintro (⟨⟨hold, hnot⟩ | hnew, hrest⟩ | hlater)
      · refine Or.inl ⟨hold, ?_⟩
        rintro ⟨hda, hec | hmem⟩
        · exact hnot ⟨hec.symm, hda⟩
        · exact hrest ⟨hda, hmem⟩
      · exact Or.inr (Or.inl hnew)
      · exact Or.inr (Or.inr hlater)
    · rintro (⟨hold, hnot⟩ | ⟨heb, hnew⟩ | hlater)
      · refine Or.inl ⟨Or.inl ⟨hold, fun h => hnot ⟨h.2, Or.inl h.1.symm⟩⟩, ?_⟩
        exact fun h => hnot ⟨h.1, Or.inr h.2⟩
      · -- The edge that this step puts in is still there, unless a later step strikes it.
        by_cases hstruck : d.name = a.name ∧ ∃ e' ∈ rest, e'.name = c.name
        · obtain ⟨hda, e', he', hname⟩ := hstruck
          rcases hnew with ⟨hce, hdb⟩ | ⟨_, hde⟩
          · exact Or.inr ⟨e', he', by rw [hname, hce]; exact heb, Or.inl ⟨hname.symm, hdb⟩⟩
          · exact absurd (hde.symm.trans hda) hea
        · exact Or.inl ⟨Or.inr ⟨heb, hnew⟩, hstruck⟩
      · exact Or.inr hlater

/-- Away from `a` the edges are kept. The name `b` is joined to each neighbour of `a` but itself. -/
theorem hasEdge_contract {g h : Graph} {a b : Variable} (hg : g.IsSimple)
    (hgh : g.contract a b = .ok h) (c d : Variable) :
    h.hasEdge c d = true ↔
      (g.hasEdge c d = true ∧ c.name ≠ a.name ∧ d.name ≠ a.name) ∨
        (d.name = b.name ∧ c.name ≠ b.name ∧ g.hasEdge a c = true) ∨
          (c.name = b.name ∧ d.name ≠ b.name ∧ g.hasEdge a d = true) := by
  rw [contract_eq_ok] at hgh
  obtain rfl := Except.ok.inj hgh
  -- No variable is its own neighbour, so the walk never comes to `a`.
  have ha : ∀ e ∈ g.neighbours a, e.name ≠ a.name := by
    intro e he
    exact (hg.ne_of_hasEdge (hasEdge_iff_exists_neighbour.mpr ⟨e, he, rfl⟩)).symm
  rw [hasEdge_foldl_rewire ha, hasEdge_eraseEntry, ← hasEdge_iff_exists_neighbour]
  constructor
  · rintro (⟨⟨hold, hca⟩, hnot⟩ | ⟨e, he, heb, ⟨hce, hdb⟩ | ⟨hcb, hde⟩⟩)
    · -- An edge that was not struck does not end at `a`, because its other end was visited.
      refine Or.inl ⟨hold, hca, fun hda => hnot ⟨hda, ?_⟩⟩
      rw [← g.hasEdge_congr (hda : d.name = a.name) (rfl : c.name = c.name)]
      exact hg.symmetric c d hold
    · have hac := hasEdge_iff_exists_neighbour.mpr ⟨e, he, hce.symm⟩
      exact Or.inr (Or.inl ⟨hdb, hce ▸ heb, hac⟩)
    · have had := hasEdge_iff_exists_neighbour.mpr ⟨e, he, hde.symm⟩
      exact Or.inr (Or.inr ⟨hcb, hde ▸ heb, had⟩)
  · rintro (⟨hold, hca, hda⟩ | ⟨hdb, hcb, hac⟩ | ⟨hcb, hdb, had⟩)
    · exact Or.inl ⟨⟨hold, hca⟩, fun h => hda h.1⟩
    · obtain ⟨e, he, hname⟩ := hasEdge_iff_exists_neighbour.mp hac
      exact Or.inr ⟨e, he, hname ▸ hcb, Or.inl ⟨hname.symm, hdb⟩⟩
    · obtain ⟨e, he, hname⟩ := hasEdge_iff_exists_neighbour.mp had
      exact Or.inr ⟨e, he, hname ▸ hdb, Or.inr ⟨hcb, hname.symm⟩⟩

/-- The new neighbours of `b` are the old ones of `a` and of `b`, but for these two themselves. -/
theorem hasEdge_contract_right {g h : Graph} {a b : Variable} (hg : g.IsSimple)
    (hab : a.name ≠ b.name) (hgh : g.contract a b = .ok h) (c : Variable) :
    h.hasEdge b c = true ↔
      (g.hasEdge a c = true ∨ g.hasEdge b c = true) ∧ c.name ≠ a.name ∧ c.name ≠ b.name := by
  rw [hasEdge_contract hg hgh]
  constructor
  · rintro (⟨hbc, _, hca⟩ | ⟨_, hbb, _⟩ | ⟨_, hcb, hac⟩)
    · exact ⟨Or.inr hbc, hca, (hg.ne_of_hasEdge hbc).symm⟩
    · exact absurd rfl hbb
    · exact ⟨Or.inl hac, (hg.ne_of_hasEdge hac).symm, hcb⟩
  · rintro ⟨hac | hbc, hca, hcb⟩
    · exact Or.inr (Or.inr ⟨rfl, hcb, hac⟩)
    · exact Or.inl ⟨hbc, hab.symm, hca⟩

/-- The name `b` in the place of the name `a`. -/
def rename (a b n : String) : String := if n = a then b else n

/-- The name that is replaced. -/
theorem rename_self (a b : String) : rename a b a = b := if_pos rfl

/-- A name that is put in its own place changes no name. -/
theorem rename_same (a n : String) : rename a a n = n := by
  by_cases hn : n = a
  · rw [hn, rename_self]
  · exact if_neg hn

/-- Other names stay. -/
theorem rename_of_ne {a b n : String} (h : n ≠ a) : rename a b n = n := if_neg h

/-- The old name is not in use any more. -/
theorem rename_ne {a b : String} (hab : a ≠ b) (n : String) : rename a b n ≠ a := by
  by_cases hn : n = a
  · rw [hn, rename_self]
    exact hab.symm
  · rw [rename_of_ne hn]
    exact hn

/-- Two names become one only if they are the old name and the new one. -/
theorem eq_of_rename_eq {a b m n : String} (h : rename a b m = rename a b n) (hmn : m ≠ n) :
    (m = a ∧ n = b) ∨ (m = b ∧ n = a) := by
  by_cases hm : m = a
  · have hn : n ≠ a := fun hn => hmn (hm.trans hn.symm)
    rw [hm, rename_self, rename_of_ne hn] at h
    exact Or.inl ⟨hm, h.symm⟩
  · by_cases hn : n = a
    · rw [rename_of_ne hm, hn, rename_self] at h
      exact Or.inr ⟨h, hn⟩
    · rw [rename_of_ne hm, rename_of_ne hn] at h
      exact absurd h hmn

/-- The edges after a contraction are the old ones under their new names, except for loops. -/
theorem hasEdge_contract_iff_exists {g h : Graph} {a b : Variable} (hg : g.IsSimple)
    (hgh : g.contract a b = .ok h) (c d : Variable) :
    h.hasEdge c d = true ↔ c.name ≠ d.name ∧ ∃ e f, g.hasEdge e f = true ∧
      rename a.name b.name e.name = c.name ∧ rename a.name b.name f.name = d.name := by
  rw [hasEdge_contract hg hgh]
  constructor
  · rintro (⟨hold, hca, hda⟩ | ⟨hdb, hcb, hac⟩ | ⟨hcb, hdb, had⟩)
    · exact ⟨hg.ne_of_hasEdge hold, c, d, hold, rename_of_ne hca, rename_of_ne hda⟩
    · have hca := (hg.ne_of_hasEdge hac).symm
      refine ⟨fun hcd => hcb (hcd.trans hdb), c, a, hg.symmetric a c hac, rename_of_ne hca, ?_⟩
      rw [rename_self, hdb]
    · have hda := (hg.ne_of_hasEdge had).symm
      refine ⟨fun hcd => hdb (hcd.symm.trans hcb), a, d, had, ?_, rename_of_ne hda⟩
      rw [rename_self, hcb]
  · rintro ⟨hcd, e, f, hef, hec, hfd⟩
    -- Of the two ends of an old edge at most one is `a`.
    by_cases hea : e.name = a.name
    · have hfa : f.name ≠ a.name := fun hfa => hg.ne_of_hasEdge hef (hea.trans hfa.symm)
      rw [hea, rename_self] at hec
      rw [rename_of_ne hfa] at hfd
      refine Or.inr (Or.inr ⟨hec.symm, fun hdb => hcd (hec.symm.trans hdb.symm), ?_⟩)
      exact g.hasEdge_congr hea hfd ▸ hef
    · rw [rename_of_ne hea] at hec
      by_cases hfa : f.name = a.name
      · rw [hfa, rename_self] at hfd
        refine Or.inr (Or.inl ⟨hfd.symm, fun hcb => hcd (hcb.trans hfd), ?_⟩)
        exact g.hasEdge_congr hfa hec ▸ hg.symmetric e f hef
      · rw [rename_of_ne hfa] at hfd
        exact Or.inl ⟨g.hasEdge_congr hec hfd ▸ hef, hec ▸ hea, hfd ▸ hfa⟩

/-- An old edge is there under the new names of its ends, unless these are the same. -/
theorem exists_hasEdge_contract {g h : Graph} {a b : Variable} (hg : g.IsSimple)
    (hgh : g.contract a b = .ok h) {e f : Variable} (hef : g.hasEdge e f = true)
    (hne : rename a.name b.name e.name ≠ rename a.name b.name f.name) :
    ∃ c d, h.hasEdge c d = true ∧
      c.name = rename a.name b.name e.name ∧ d.name = rename a.name b.name f.name := by
  obtain ⟨c, hc⟩ := Variable.exists_name_eq (rename a.name b.name e.name)
  obtain ⟨d, hd⟩ := Variable.exists_name_eq (rename a.name b.name f.name)
  rw [← hc, ← hd] at hne
  exact ⟨c, d, (hasEdge_contract_iff_exists hg hgh c d).mpr ⟨hne, e, f, hef, hc.symm, hd.symm⟩,
    hc, hd⟩

/-- An edge after a contraction begins at `b` or at an old vertex, and never at `a`. -/
theorem vertex_of_hasEdge_contract {g h : Graph} {a b : Variable} (hg : g.IsSimple)
    (hab : a.name ≠ b.name) (hgh : g.contract a b = .ok h) {c d : Variable}
    (hcd : h.hasEdge c d = true) :
    c.name ≠ a.name ∧ (c.name = b.name ∨ ∃ e, g.hasEdge c e = true) := by
  rcases (hasEdge_contract hg hgh c d).mp hcd with ⟨hold, hca, _⟩ | ⟨_, _, hac⟩ | ⟨hcb, _, _⟩
  · exact ⟨hca, Or.inr ⟨d, hold⟩⟩
  · exact ⟨(hg.ne_of_hasEdge hac).symm, Or.inr ⟨a, hg.symmetric a c hac⟩⟩
  · exact ⟨fun hca => hab (hca.symm.trans hcb), Or.inl hcb⟩

/-- The steps of a contraction leave no vertex without neighbours. -/
theorem noIsolated_foldl_rewire (a b : Variable) (es : List Variable) {g : Graph}
    (hg : g.NoIsolated) : (es.foldl (rewire a b) g).NoIsolated := by
  induction es generalizing g with
  | nil => exact hg
  | cons e rest ih =>
    refine ih ?_
    have hdetach := noIsolated_detach e a hg
    rw [rewire]
    split
    · exact hdetach
    · exact noIsolated_attach b e (noIsolated_attach e b hdetach)

/-- A contraction keeps a graph simple. -/
theorem isSimple_contract {g h : Graph} {a b : Variable} (hg : g.IsSimple)
    (hgh : g.contract a b = .ok h) : h.IsSimple := by
  have hlaw := hasEdge_contract hg hgh
  refine ⟨fun c d hcd => ?_, fun c => ?_, ?_⟩
  · rw [hlaw] at hcd ⊢
    rcases hcd with ⟨hold, hca, hda⟩ | ⟨hdb, hcb, hac⟩ | ⟨hcb, hdb, had⟩
    · exact Or.inl ⟨hg.symmetric c d hold, hda, hca⟩
    · exact Or.inr (Or.inr ⟨hdb, hcb, hac⟩)
    · exact Or.inr (Or.inl ⟨hcb, hdb, had⟩)
  · rw [Bool.eq_false_iff, Ne, hlaw, hg.irreflexive c]
    rintro (⟨hloop, _⟩ | ⟨hdb, hcb, _⟩ | ⟨hcb, hdb, _⟩)
    · exact nomatch hloop
    · exact hcb hdb
    · exact hdb hcb
  · rw [contract_eq_ok] at hgh
    obtain rfl := Except.ok.inj hgh
    exact noIsolated_foldl_rewire a b _ (noIsolated_eraseEntry a hg.inhabited)

end BoundedEquations.Graph
