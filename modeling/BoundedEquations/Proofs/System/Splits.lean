import BoundedEquations.Proofs.System.Search

/-!
# `BoundedEquations.Proofs.System.Splits`: how deep the splits of a search are nested

A split fixes a variable and keeps its inequalities. It is the pass at the beginning of the next
search step that drops them, because it never takes a value out of a fixed variable. So the variable
is no vertex any more when the next split comes, however large the domains are. `Nested` counts the
splits on a way into the search. What carries the bound is the number of variables at inequalities
that are not fixed: each split needs two of them and fixes one. The theorems:

* `split_of_advance`: a search step does not split where a domain is empty.
* `Split.inner`: the next split has lost the variable of this one.
* `Nested.settled`: what holds after some nested splits, and how many there can be.
* `Ready.trial`, `Nested.ready`: no split leaves a domain empty.
* `Nested.trials`: the course of the search from any split on.
* `nested_splits_bounded`: the number of nested splits, and the depth that the search needs.
-/

set_option autoImplicit false

namespace BoundedEquations

namespace System

variable {s s' : System} {x : Variable} {d : Domain} {config : Config}

/-- Where a domain is empty, a search step answers at once. -/
theorem advance_of_hasEmptyDomain (h : s.hasEmptyDomain = true) (config : Config) :
    ∃ b, (s.advance config).result = .ok (.decided b) := by
  rw [advance]
  cases s.inequalities.isEmpty with
  | true => exact ⟨true, rfl⟩
  | false =>
    rw [if_neg Bool.false_ne_true, if_pos h]
    exact ⟨false, rfl⟩

/-- Without equalities the search can begin, unless some domain is empty. -/
theorem ready_of_hasEmptyDomain_eq_false (hs : s.WellFormed)
    (hreduced : s.equalities.isEmpty = true) (h : s.hasEmptyDomain = false) : s.Ready :=
  ⟨hs, (Graph.isEmpty_iff hs.equalities_simple).mp hreduced, hasEmptyDomain_eq_false_iff.mp h⟩

/-- A search step that splits has found no domain empty. -/
theorem split_of_advance (hs : s.WellFormed) (hreduced : s.equalities.isEmpty = true)
    (h : (s.advance config).result = .ok (.split s' x d)) : Split s s' x d := by
  cases hempty : s.hasEmptyDomain with
  | true =>
    obtain ⟨b, hb⟩ := advance_of_hasEmptyDomain hempty config
    exact nomatch (Except.ok.inj (hb.symm.trans h))
  | false =>
    have hready := ready_of_hasEmptyDomain_eq_false hs hreduced hempty
    rcases advance_cases hready config with ⟨b, hb, _⟩ | ⟨t, y, e, hresult, hsplit⟩
    · exact nomatch (Except.ok.inj (hb.symm.trans h))
    · obtain ⟨rfl, rfl, rfl⟩ := Progress.split.inj (Except.ok.inj (hresult.symm.trans h))
      exact hsplit

/-- Where the search can begin, no equalities are left. -/
theorem Ready.isEmpty_equalities (hs : s.Ready) : s.equalities.isEmpty = true :=
  (Graph.isEmpty_iff hs.wellFormed.equalities_simple).mpr hs.reduced

/-- Whichever value is tried at a split, the next search can begin. -/
theorem Ready.trial (hs : s.Ready) (h : (s.advance config).result = .ok (.split s' x d)) (v : Nat) :
    (s'.setDomain x (.singleton v)).Ready :=
  (split_of_advance hs.wellFormed hs.isEmpty_equalities h).ready.setDomain

/-! ### The next split -/

/-- At the next split the variable of this one has no inequality left, and no variable has got one
that had none. -/
theorem Split.inner (h : Split s s' x d) {v : Nat} {t : System} {y : Variable} {e : Domain}
    (h' : Split (s'.setDomain x (.singleton v)) t y e) :
    (∀ z, t.inequalities.hasEdge x z = false) ∧
      t.inequalities.vertexNames ⊂ s'.inequalities.vertexNames := by
  have hsimple := h.ready.wellFormed.inequalities_simple
  have hsimple' := h'.ready.wellFormed.inequalities_simple
  have hfixed : (s'.setDomain x (.singleton v)).Fixed x :=
    ⟨v, (find?_setDomain s' x _ x).trans (if_pos rfl)⟩
  have hgone : ∀ z, t.inequalities.hasEdge x z = false := fun z =>
    Bool.eq_false_iff.mpr fun hxz => h'.not_fixed x z hxz hfixed
  refine ⟨hgone, Finset.ssubset_iff_of_subset (fun n hn => ?_) |>.mpr ⟨x.name, ?_, ?_⟩⟩
  · obtain ⟨a, rfl⟩ := Variable.exists_name_eq n
    obtain ⟨b, hab⟩ := (Graph.mem_vertexNames_iff hsimple').mp hn
    exact (Graph.mem_vertexNames_iff hsimple).mpr ⟨b, h'.hasEdge_of_hasEdge a b hab⟩
  · exact (Graph.mem_vertexNames_iff hsimple).mpr h.exists_hasEdge
  · rw [Graph.mem_vertexNames_iff hsimple']
    rintro ⟨z, hxz⟩
    exact nomatch hxz.symm.trans (hgone z)

/-! ### All splits on a way into the search -/

/-- From the search of `s` the search of `t` is come to through so many splits, one within the
other. Each of them fixes a variable to a value of its domain. -/
inductive Nested (config : Config) (s : System) : Nat → System → Prop
  | start : Nested config s 0 s
  | split {count : Nat} {t t' : System} {x : Variable} {d : Domain} {v : Nat}
      (outer : Nested config s count t)
      (hresult : (t.advance config).result = .ok (.split t' x d)) (hv : v ∈ d) :
      Nested config s (count + 1) (t'.setDomain x (.singleton v))

/-- What holds where so many splits have been made since the search of `s` began. -/
structure Settled (s : System) (count : Nat) (t : System) : Prop where
  wellFormed : t.WellFormed
  reduced : t.equalities.isEmpty = true
  count_le : count ≤ s.inequalities.vertices.length - 1
  freeAtMost : t.FreeAtMost (s.inequalities.vertices.length - count)

/-- One more split. -/
theorem Settled.split {count : Nat} {t t' : System} (h : s.Settled count t)
    (hresult : (t.advance config).result = .ok (.split t' x d)) (v : Nat) :
    s.Settled (count + 1) (t'.setDomain x (.singleton v)) := by
  have hsplit := split_of_advance h.wellFormed h.reduced hresult
  obtain ⟨htwo, hfree⟩ := hsplit.freeAtMost h.freeAtMost v
  have hready : (t'.setDomain x (.singleton v)).Ready := hsplit.ready.setDomain
  refine ⟨hready.wellFormed, hready.isEmpty_equalities, by omega, ?_⟩
  rw [← Nat.sub_sub]
  exact hfree

/-- What holds where the search begins holds at all nested splits. -/
theorem Nested.settled (hs : s.WellFormed) (hreduced : s.equalities.isEmpty = true) {count : Nat}
    {t : System} (h : Nested config s count t) : s.Settled count t := by
  induction h with
  | start => exact ⟨hs, hreduced, Nat.zero_le _, hs.freeAtMost⟩
  | split _ hresult _ ih => exact ih.split hresult _

/-- Whatever splits have been made, the search can go on. -/
theorem Nested.ready (hs : s.Ready) {count : Nat} {t : System} (h : Nested config s count t) :
    t.Ready := by
  induction h with
  | start => exact hs
  | split _ hresult _ ih => exact ih.trial hresult _

/-- From any split on, the values are tried in order. The depth that is left at that point is the
number of vertices at the beginning, less one for each split. -/
theorem Nested.trials (hs : s.WellFormed) (hreduced : s.equalities.isEmpty = true) {count : Nat}
    {t t' : System} (h : Nested config s count t)
    (hresult : (t.advance config).result = .ok (.split t' x d)) :
    ∃ depth vs, count + (depth + 1) = s.inequalities.vertices.length ∧
      Trials config depth t t' x d vs := by
  have hsettled := h.settled hs hreduced
  have hsplit := split_of_advance hsettled.wellFormed hsettled.reduced hresult
  have htwo := (hsplit.freeAtMost hsettled.freeAtMost 0).1
  obtain ⟨depth, hdepth⟩ : ∃ depth, s.inequalities.vertices.length - count = depth + 1 :=
    ⟨s.inequalities.vertices.length - count - 1, by omega⟩
  have hbranch : ∀ v, (search config depth (t'.setDomain x (.singleton v))).Decides
      (t'.setDomain x (.singleton v)).Satisfiable := fun v => by
    refine search_decides config hsplit.ready.setDomain ?_
    have hfree := (hsplit.freeAtMost hsettled.freeAtMost v).2
    exact hfree.mono (by omega)
  obtain ⟨vs, htrials⟩ := search_trials hresult hsplit hbranch
  exact ⟨depth, vs, by omega, htrials⟩

/-- A search ends with an answer if as many splits may be nested as there are vertices, less one. -/
theorem exists_answer_of_depth (hs : s.WellFormed) (hreduced : s.equalities.isEmpty = true)
    {depth : Nat} (hdepth : s.inequalities.vertices.length - 1 ≤ depth) (config : Config) :
    ∃ answer, (search config depth s).result = .ok answer := by
  cases hempty : s.hasEmptyDomain with
  | true =>
    obtain ⟨b, hb⟩ := advance_of_hasEmptyDomain hempty config
    exact ⟨b, search_of_decided depth hb⟩
  | false =>
    have hready := ready_of_hasEmptyDomain_eq_false hs hreduced hempty
    have hfree : s.FreeAtMost (depth + 1) := hs.freeAtMost.mono (by omega)
    obtain ⟨b, hb, _⟩ := search_decides config hready hfree
    exact ⟨b, hb⟩

/-- **Splits are never nested deeper than there are vertices, less one.** If a search splits on `x`
and splits again within a trial of one of its values, then `x` has no inequality any more at the
inner split, and the vertices there are some of those at the outer split, but not all. So on any way
into the search the splits, the last one included, are fewer than the vertices at the beginning. As
many levels as vertices, less one, are enough for the search to end with an answer. -/
theorem nested_splits_bounded (hs : s.WellFormed) (hreduced : s.equalities.isEmpty = true)
    (config : Config) :
    (∀ s' x d, (s.advance config).result = .ok (.split s' x d) → ∀ v ∈ d, ∀ t y e,
      ((s'.setDomain x (.singleton v)).advance config).result = .ok (.split t y e) →
        (∀ z, t.inequalities.hasEdge x z = false) ∧
          t.inequalities.vertexNames ⊂ s'.inequalities.vertexNames) ∧
    (∀ count t t' x d, Nested config s count t →
      (t.advance config).result = .ok (.split t' x d) →
        count + 1 ≤ s.inequalities.vertices.length - 1) ∧
    ∀ depth, s.inequalities.vertices.length - 1 ≤ depth →
      ∃ answer, (search config depth s).result = .ok answer := by
  refine ⟨fun s' x d hresult v _ t y e hresult' => ?_, fun count t t' x d h hresult => ?_,
    fun depth hdepth => ?_⟩
  · have hsplit := split_of_advance hs hreduced hresult
    have hready : (s'.setDomain x (.singleton v)).Ready := hsplit.ready.setDomain
    exact hsplit.inner (split_of_advance hready.wellFormed hready.isEmpty_equalities hresult')
  · exact ((h.settled hs hreduced).split hresult 0).count_le
  · exact exists_answer_of_depth hs hreduced hdepth config

/-- Three variables of two bits that are to differ from each other. -/
def triangle : System :=
  let a : Variable := ⟨"a", 2, Nat.two_pos⟩
  let b : Variable := ⟨"b", 2, Nat.two_pos⟩
  let c : Variable := ⟨"c", 2, Nat.two_pos⟩
  ((((empty.declare a).declare b).declare c).addAll
    [.ofVars a b false, .ofVars b c false, .ofVars a c false]).state

/-- Without the shortcut a triangle takes as many splits as the bound allows. -/
theorem nested_splits_bounded_triangle :
    triangle.WellFormed ∧ triangle.equalities.isEmpty = true ∧
      (∀ count t t' x d, Nested { pigeonhole := false } triangle count t →
        (t.advance { pigeonhole := false }).result = .ok (.split t' x d) → count + 1 ≤ 2) ∧
      (∃ answer, (search { pigeonhole := false } 2 triangle).result = .ok answer) ∧
      (search { pigeonhole := false } 1 triangle).result = .error .splitsExhausted := by
  have hs : triangle.WellFormed := (((wellFormed_empty.declare _).declare _).declare _).addAll _
  have hreduced : triangle.equalities.isEmpty = true := by decide +kernel
  have hvertices : triangle.inequalities.vertices.length = 3 := by decide +kernel
  obtain ⟨_, hnested, hanswer⟩ := nested_splits_bounded hs hreduced { pigeonhole := false }
  rw [hvertices] at hnested hanswer
  exact ⟨hs, hreduced, hnested, hanswer 2 (Nat.le_refl 2), by decide +kernel⟩

end System

end BoundedEquations
