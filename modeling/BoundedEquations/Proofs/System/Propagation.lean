import BoundedEquations.Proofs.Domain.Canonical
import BoundedEquations.Proofs.System.Quotient
import BoundedEquations.System.Propagation

/-!
# `BoundedEquations.Proofs.System.Propagation`: a pass over the inequalities keeps the solutions

The pass goes through a list of edges that was made at its beginning, while domains and edges
change on the way. What holds throughout is about solutions: whatever solves the present system
respects every edge of the list. `Separated` is the inversion of `separate`, with one case for each
way to deal with an inequality, and `Passing` lists the states that a pass comes to. The theorems:

* `Pending.separate_cases`: an inequality is a conflict of two fixed sides, or is dealt with in one
  of these ways.
* `holds_apart`, `holds_exclude`: two of these ways demand just what the inequality demands.
* `Separated.narrowed`, `Separated.wellFormed`, `Separated.live`: what one step keeps.
* `Passing.pending`, `separateAll_eq_none_iff`: what holds within a pass, and when it stops.
* `separateAll_cases`, `propagate_propagated`: what the pass keeps.
* `propagate_cases`: the pass leaves no inequality at a variable that was fixed at its beginning.
* `propagate_narrowed`: the pass keeps the solutions, and what else it leaves as it was.
-/

set_option autoImplicit false

namespace BoundedEquations.System

variable {s s' : System} {x y : Variable} {σ : Assignment}

/-- The variable has a single value left. -/
def Fixed (s : System) (x : Variable) : Prop := ∃ v, s.domains.find? x = some (.singleton v)

/-- A variable with several values is not fixed. -/
theorem not_fixed {d : Domain} (hd : s.domains.find? x = some d)
    (hsingular : d.isSingular = false) : ¬s.Fixed x := by
  rintro ⟨v, hv⟩
  obtain rfl := Option.some.inj (hd.symm.trans hv)
  exact nomatch hsingular.symm.trans (Domain.isSingular_singleton v)

/-! ### Dropping an inequality, and narrowing one of its sides -/

/-- The edges that are left are those between other names. -/
theorem hasEdge_dropInequality (c d : Variable) :
    (s.dropInequality x y).inequalities.hasEdge c d = true ↔ s.inequalities.hasEdge c d = true ∧
      ¬(c.name = x.name ∧ d.name = y.name) ∧ ¬(c.name = y.name ∧ d.name = x.name) :=
  Graph.hasEdge_erase _ _ _ _ _

/-- An inequality that holds anyway can be dropped. -/
theorem holds_dropInequality (h : σ x.name ≠ σ y.name) :
    (s.dropInequality x y).Holds σ ↔ s.Holds σ := by
  rw [holds_iff, holds_iff]
  refine and_congr_right fun _ => and_congr_right fun _ => ?_
  constructor
  · intro hall c d hcd
    -- An edge is still there, or it is the dropped one in one of its two directions.
    by_cases hsame : c.name = x.name ∧ d.name = y.name
    · rw [hsame.1, hsame.2]
      exact h
    · by_cases hswapped : c.name = y.name ∧ d.name = x.name
      · rw [hswapped.1, hswapped.2]
        exact h.symm
      · exact hall c d ((hasEdge_dropInequality c d).mpr ⟨hcd, hsame, hswapped⟩)
  · intro hall c d hcd
    exact hall c d ((hasEdge_dropInequality c d).mp hcd).1

/-- Dropping an inequality keeps a system well-formed. -/
theorem WellFormed.dropInequality (hs : s.WellFormed) (x y : Variable) :
    (s.dropInequality x y).WellFormed where
  equalities_simple := hs.equalities_simple
  inequalities_simple := Graph.isSimple_erase x y hs.inequalities_simple
  equalities_declared := hs.equalities_declared
  inequalities_declared c d hcd :=
    hs.inequalities_declared c d ((hasEdge_dropInequality c d).mp hcd).1
  canonical := hs.canonical

/-- A domain with values leaves no variable without values. -/
theorem Live.setDomain (hs : s.Live) {x : Variable} {d : Domain} (hd : ∃ v, v ∈ d) :
    (s.setDomain x d).Live := by
  intro z e he
  rw [find?_setDomain] at he
  split at he
  · obtain rfl := Option.some.inj he
    exact hd
  · exact hs z e he

/-- Narrowing a domain adds the demand that the value is not one of those taken out. -/
theorem holds_setDomain {d d' : Domain} (hd : s.domains.find? x = some d) {P : Prop}
    (hd' : σ x.name ∈ d' ↔ σ x.name ∈ d ∧ P) :
    (s.setDomain x d').Holds σ ↔ s.Holds σ ∧ P := by
  rw [← holdsBefore_nil, holdsBefore_setDomain hd hd', holdsBefore_nil, List.any_nil]
  simp only [Bool.false_eq_true, false_or]

/-! ### One inequality -/

/-- The ways to deal with an inequality that is not contradictory. -/
inductive Separated (s : System) (x y : Variable) : System → Prop
  /-- The sides have no common value, so the inequality is dropped. -/
  | apart {dx dy : Domain} (hdx : s.domains.find? x = some dx) (hdy : s.domains.find? y = some dy)
      (h : ∀ v, v ∈ dx → v ∉ dy) : Separated s x y (s.dropInequality x y)
  /-- One side is fixed, so its value is taken out of the other, and the inequality is dropped. -/
  | exclude {z w : Variable} {d : Domain} {v : Nat}
      (hzw : (z = x ∧ w = y) ∨ (z = y ∧ w = x)) (hz : s.domains.find? z = some d)
      (hsingular : d.isSingular = false) (hw : s.domains.find? w = some (.singleton v))
      (hne : ∃ u, u ∈ d \ .singleton v) :
      Separated s x y ((s.setDomain z (d \ .singleton v)).dropInequality x y)
  /-- Neither side is fixed, so the inequality is kept. -/
  | keep (hx : ¬s.Fixed x) (hy : ¬s.Fixed y) : Separated s x y s

/-- If something is left of a side without the value of the other one, the inequality is dropped. -/
theorem exclude_eq {z : Variable} {d fixed : Domain} (hz : s.domains.find? z = some d)
    (hleft : ∃ u, u ∈ d \ fixed) :
    s.exclude x y z fixed = pure (some ((s.setDomain z (d \ fixed)).dropInequality x y)) := by
  rw [exclude, domainOf_eq_ok_iff.mpr hz, Traced.lift_ok_bind]
  dsimp only
  rw [Domain.isEmpty_eq_false_iff.mpr hleft, if_neg Bool.false_ne_true]

/-- What holds whenever some inequalities are still to be looked at. -/
structure Pending (s : System) (edges : List (Variable × Variable)) : Prop where
  wellFormed : s.WellFormed
  live : s.Live
  ends : ∀ x y, (x, y) ∈ edges →
    s.domains.contains x = true ∧ s.domains.contains y = true ∧ x.name ≠ y.name

/-- The next inequality is reported. Then both of its sides turn out to be fixed to the same value,
which is a conflict, or it is dealt with in one of the three ways. -/
theorem Pending.separate_cases {rest : List (Variable × Variable)}
    (h : s.Pending ((x, y) :: rest)) :
    (∃ v, s.domains.find? x = some (.singleton v) ∧ s.domains.find? y = some (.singleton v) ∧
      s.separate x y =
        ⟨.ok none, [.inequality x.name y.name, .clash x.name y.name (.singleton v)]⟩) ∨
      ∃ s', s.separate x y = ⟨.ok (some s'), [.inequality x.name y.name]⟩ ∧ Separated s x y s' := by
  obtain ⟨hx, hy, hne⟩ := h.ends x y List.mem_cons_self
  obtain ⟨dx, hdx⟩ := Table.contains_iff_exists.mp hx
  obtain ⟨dy, hdy⟩ := Table.contains_iff_exists.mp hy
  have hcx := h.wellFormed.canonical x dx hdx
  have hcy := h.wellFormed.canonical y dy hdy
  have hoverlap := Domain.overlaps_iff_exists_mem hcx hcy
  rw [separate, if_neg fun heq => hne (Variable.beq_iff.mp heq), domainOf_eq_ok_iff.mpr hdx,
    domainOf_eq_ok_iff.mpr hdy, Traced.lift_ok_bind, Traced.lift_ok_bind]
  cases hshared : dx.overlaps dy with
  | false =>
    rw [hshared] at hoverlap
    -- The sides have no common value.
    refine Or.inr ⟨_, rfl, .apart hdx hdy fun v hvx hvy => ?_⟩
    exact nomatch hoverlap.mpr ⟨v, hvx, hvy⟩
  | true =>
    obtain ⟨u, hux, huy⟩ := hoverlap.mp hshared
    cases hsx : dx.isSingular with
    | true =>
      obtain ⟨v, rfl⟩ := Domain.isSingular_iff.mp hsx
      obtain rfl := Domain.mem_singleton.mp hux
      cases hsy : dy.isSingular with
      | true =>
        -- Both sides are fixed, and the value that they share is the value of both.
        obtain ⟨w, rfl⟩ := Domain.isSingular_iff.mp hsy
        obtain rfl := Domain.mem_singleton.mp huy
        exact Or.inl ⟨u, hdx, hdy, rfl⟩
      | false =>
        have hleft := Domain.exists_mem_sdiff_singleton hcy huy hsy
        refine Or.inr ⟨_, ?_, .exclude (Or.inr ⟨rfl, rfl⟩) hdy hsy hdx hleft⟩
        exact congrArg (fun rest => Traced.emit _ >>= fun _ => rest) (exclude_eq hdy hleft)
    | false =>
      cases hsy : dy.isSingular with
      | true =>
        obtain ⟨w, rfl⟩ := Domain.isSingular_iff.mp hsy
        obtain rfl := Domain.mem_singleton.mp huy
        have hleft := Domain.exists_mem_sdiff_singleton hcx hux hsx
        refine Or.inr ⟨_, ?_, .exclude (Or.inl ⟨rfl, rfl⟩) hdx hsx hdy hleft⟩
        exact congrArg (fun rest => Traced.emit _ >>= fun _ => rest) (exclude_eq hdx hleft)
      | false => exact Or.inr ⟨s, rfl, .keep (not_fixed hdx hsx) (not_fixed hdy hsy)⟩

/-- Where two variables that are to differ are fixed to the same value, there is no solution. -/
theorem not_satisfiable_of_fixed (hedge : ∀ σ, s.Holds σ → σ x.name ≠ σ y.name) {v : Nat}
    (hx : s.domains.find? x = some (.singleton v))
    (hy : s.domains.find? y = some (.singleton v)) : ¬s.Satisfiable := by
  rintro ⟨σ, hσ⟩
  have hdomains := (holds_iff.mp hσ).1
  have hvx := Domain.mem_singleton.mp (hdomains x _ hx)
  have hvy := Domain.mem_singleton.mp (hdomains y _ hy)
  exact hedge σ hσ (hvx.trans hvy.symm)

/-- Sides without a common value differ, so the inequality can be dropped. -/
theorem holds_apart {dx dy : Domain} (hdx : s.domains.find? x = some dx)
    (hdy : s.domains.find? y = some dy) (h : ∀ v, v ∈ dx → v ∉ dy) :
    (s.dropInequality x y).Holds σ ↔ s.Holds σ ∧ σ x.name ≠ σ y.name := by
  constructor
  · intro hσ
    have hdomains := (holds_iff.mp hσ).1
    have hdiffer : σ x.name ≠ σ y.name := by
      intro heq
      exact h _ (hdomains x dx hdx) (heq ▸ hdomains y dy hdy)
    exact ⟨(holds_dropInequality hdiffer).mp hσ, hdiffer⟩
  · rintro ⟨hσ, hdiffer⟩
    exact (holds_dropInequality hdiffer).mpr hσ

/-- Taking the value of the fixed side out of the other one demands what the inequality demands. -/
theorem holds_exclude {z w : Variable} {d : Domain} {v : Nat} (hne : x.name ≠ y.name)
    (hzw : (z = x ∧ w = y) ∨ (z = y ∧ w = x)) (hz : s.domains.find? z = some d)
    (hw : s.domains.find? w = some (.singleton v)) :
    ((s.setDomain z (d \ .singleton v)).dropInequality x y).Holds σ ↔
      s.Holds σ ∧ σ x.name ≠ σ y.name := by
  have hwz : w.name ≠ z.name := by
    rcases hzw with ⟨rfl, rfl⟩ | ⟨rfl, rfl⟩
    · exact hne.symm
    · exact hne
  have hnarrow : σ z.name ∈ d \ Domain.singleton v ↔ σ z.name ∈ d ∧ σ z.name ≠ v := by
    rw [Domain.mem_sdiff, Domain.mem_singleton]
  -- Given the value of `w`, the two sides differ just when `z` does not have that value.
  have hsides : σ w.name = v → (σ x.name ≠ σ y.name ↔ σ z.name ≠ v) := by
    rintro rfl
    rcases hzw with ⟨rfl, rfl⟩ | ⟨rfl, rfl⟩
    · exact Iff.rfl
    · exact ne_comm
  constructor
  · intro hσ
    have hdomains := (holds_iff.mp hσ).1
    have hzmem := hdomains z _ ((find?_setDomain s z _ z).trans (if_pos rfl))
    have hwmem := hdomains w _ ((find?_setDomain s z _ w).trans ((if_neg hwz).trans hw))
    have hdiffer := (hsides (Domain.mem_singleton.mp hwmem)).mpr (hnarrow.mp hzmem).2
    exact ⟨((holds_setDomain hz hnarrow).mp ((holds_dropInequality hdiffer).mp hσ)).1, hdiffer⟩
  · rintro ⟨hσ, hdiffer⟩
    have hwmem := (holds_iff.mp hσ).1 w _ hw
    have hzv := (hsides (Domain.mem_singleton.mp hwmem)).mp hdiffer
    exact (holds_dropInequality hdiffer).mpr ((holds_setDomain hz hnarrow).mpr ⟨hσ, hzv⟩)

/-- The system `s'` has the solutions of `s`, perhaps with fewer inequalities and narrower domains.
All else is as in `s`. -/
structure Narrowed (s s' : System) : Prop where
  holds_iff : ∀ σ, s'.Holds σ ↔ s.Holds σ
  equalities_eq : s'.equalities = s.equalities
  hasEdge_of_hasEdge : ∀ c d, s'.inequalities.hasEdge c d = true →
    s.inequalities.hasEdge c d = true
  keys_eq : s'.domains.keys = s.domains.keys
  exists_narrower : ∀ z d, s.domains.find? z = some d →
    ∃ d', s'.domains.find? z = some d' ∧ ∀ v, v ∈ d' → v ∈ d

namespace Narrowed

/-- A system is narrowed to itself. -/
theorem refl (s : System) : s.Narrowed s :=
  ⟨fun _ => Iff.rfl, rfl, fun _ _ hcd => hcd, rfl, fun _ d hd => ⟨d, hd, fun _ hv => hv⟩⟩

/-- Narrowing twice is narrowing. -/
theorem trans {t : System} (h : s.Narrowed t) (h' : t.Narrowed s') : s.Narrowed s' where
  holds_iff σ := (h'.holds_iff σ).trans (h.holds_iff σ)
  equalities_eq := h'.equalities_eq.trans h.equalities_eq
  hasEdge_of_hasEdge c d hcd := h.hasEdge_of_hasEdge c d (h'.hasEdge_of_hasEdge c d hcd)
  keys_eq := h'.keys_eq.trans h.keys_eq
  exists_narrower z d hd := by
    obtain ⟨e, he, hnarrower⟩ := h.exists_narrower z d hd
    obtain ⟨d', hd', hnarrower'⟩ := h'.exists_narrower z e he
    exact ⟨d', hd', fun v hv => hnarrower v (hnarrower' v hv)⟩

end Narrowed

namespace Separated

/-- Dealing with an inequality keeps a system well-formed. -/
theorem wellFormed (hs : s.WellFormed) (h : Separated s x y s') : s'.WellFormed := by
  cases h with
  | apart _ _ _ => exact hs.dropInequality x y
  | exclude _ hz _ _ _ =>
    exact (hs.setDomain (Domain.canonical_sdiff _ (hs.canonical _ _ hz))).dropInequality x y
  | keep _ _ => exact hs

/-- Dealing with an inequality leaves no variable without values. -/
theorem live (hs : s.Live) (h : Separated s x y s') : s'.Live := by
  cases h with
  | apart _ _ _ => exact hs
  | exclude _ _ _ _ hne => exact hs.setDomain hne
  | keep _ _ => exact hs

/-- The declared variables stay the same. -/
theorem keys_eq (h : Separated s x y s') : s'.domains.keys = s.domains.keys := by
  cases h with
  | apart _ _ _ => rfl
  | exclude _ hz _ _ _ =>
    exact Table.keys_insert_of_contains (Table.contains_iff_exists.mpr ⟨_, hz⟩) _
  | keep _ _ => rfl

/-- Dealing with an inequality that all solutions respect narrows the system. -/
theorem narrowed (hne : x.name ≠ y.name) (hedge : ∀ σ, s.Holds σ → σ x.name ≠ σ y.name)
    (h : Separated s x y s') : s.Narrowed s' := by
  have hkeys := h.keys_eq
  cases h with
  | apart hdx hdy h =>
    refine ⟨fun σ => (holds_apart hdx hdy h).trans (and_iff_left_of_imp (hedge σ)), rfl,
      fun c d hcd => ?_, hkeys, fun _ e he => ⟨e, he, fun _ hv => hv⟩⟩
    exact ((hasEdge_dropInequality c d).mp hcd).1
  | @exclude z w d v hzw hz _ hw _ =>
    refine ⟨fun σ => (holds_exclude hne hzw hz hw).trans (and_iff_left_of_imp (hedge σ)), rfl,
      fun c d hcd => ?_, hkeys, fun c e hc => ?_⟩
    · exact ((hasEdge_dropInequality c d).mp hcd).1
    · by_cases hname : c.name = z.name
      · -- This is the narrowed side.
        rw [s.domains.find?_congr hname, hz] at hc
        obtain rfl := Option.some.inj hc
        refine ⟨d \ .singleton v, (find?_setDomain s z _ c).trans (if_pos hname), fun u hu => ?_⟩
        exact (Domain.mem_sdiff.mp hu).1
      · exact ⟨e, (find?_setDomain s z _ c).trans ((if_neg hname).trans hc), fun _ hu => hu⟩
  | keep _ _ => exact .refl s

/-- Only the two sides of the inequality can get narrower. -/
theorem find?_eq_of_ne (h : Separated s x y s') {c : Variable} (hx : c.name ≠ x.name)
    (hy : c.name ≠ y.name) : s'.domains.find? c = s.domains.find? c := by
  cases h with
  | apart _ _ _ => rfl
  | @exclude z w d v hzw _ _ _ _ =>
    have hname : c.name ≠ z.name := by
      rcases hzw with ⟨rfl, _⟩ | ⟨rfl, _⟩
      · exact hx
      · exact hy
    exact (find?_setDomain s z _ c).trans (if_neg hname)
  | keep _ _ => rfl

/-- The value of a fixed variable is never taken out. -/
theorem fixed (h : Separated s x y s') {c : Variable} (hc : s.Fixed c) : s'.Fixed c := by
  cases h with
  | apart _ _ _ => exact hc
  | @exclude z w d v _ hz hsingular _ _ =>
    -- The narrowed variable had more than one value, so it is not this one.
    have hname : c.name ≠ z.name := by
      intro hname
      exact not_fixed ((s.domains.find?_congr hname).trans hz) hsingular hc
    obtain ⟨u, hu⟩ := hc
    exact ⟨u, (find?_setDomain s z _ c).trans ((if_neg hname).trans hu)⟩
  | keep _ _ => exact hc

/-- An inequality with a fixed side is gone afterwards. -/
theorem hasEdge_of_fixed (h : Separated s x y s') (hfixed : s.Fixed x ∨ s.Fixed y) :
    s'.inequalities.hasEdge x y = false := by
  have hdropped : ∀ t : System, (t.dropInequality x y).inequalities.hasEdge x y = false := fun t =>
    Bool.eq_false_iff.mpr fun hxy => ((hasEdge_dropInequality x y).mp hxy).2.1 ⟨rfl, rfl⟩
  cases h with
  | apart _ _ _ => exact hdropped s
  | exclude _ _ _ _ _ => exact hdropped _
  | keep hx hy => exact absurd hfixed (not_or.mpr ⟨hx, hy⟩)

end Separated

/-! ### The steps of a pass -/

/-- The pass over `edges` that begins in `s` has come to `t`, and the inequalities in `rest` are
still to be looked at. -/
inductive Passing (s : System) (edges : List (Variable × Variable)) :
    System → List (Variable × Variable) → Prop
  | start : Passing s edges s edges
  | step {t t' : System} {x y : Variable} {rest : List (Variable × Variable)}
      (h : Passing s edges t ((x, y) :: rest))
      (hresult : (t.separate x y).result = .ok (some t')) : Passing s edges t' rest

section Steps

variable {t : System} {edges rest : List (Variable × Variable)}

/-- The invariant of the pass, from one inequality to the next. -/
theorem Pending.step (h : s.Pending ((x, y) :: rest)) (hstep : Separated s x y s') :
    s'.Pending rest where
  wellFormed := hstep.wellFormed h.wellFormed
  live := hstep.live h.live
  ends c d hmem := by
    simp only [Table.contains_iff_mem_names, hstep.keys_eq]
    simp only [← Table.contains_iff_mem_names]
    exact h.ends c d (List.mem_cons_of_mem _ hmem)

/-- Every domain has a value throughout a pass, if this is so at its beginning. -/
theorem Passing.pending (hs : s.Pending edges) (h : Passing s edges t rest) : t.Pending rest := by
  induction h with
  | start => exact hs
  | step _ hresult ih =>
    rcases ih.separate_cases with ⟨v, _, _, hnone⟩ | ⟨t', hsome, hstep⟩
    · rw [hnone] at hresult
      exact nomatch hresult
    · rw [hsome] at hresult
      obtain rfl := Option.some.inj (Except.ok.inj hresult)
      exact ih.step hstep

/-- The next inequality is a conflict just when its sides are fixed to the same value. -/
theorem Pending.separate_eq_none_iff (h : s.Pending ((x, y) :: rest)) :
    (s.separate x y).result = .ok none ↔
      ∃ v, s.domains.find? x = some (.singleton v) ∧ s.domains.find? y = some (.singleton v) := by
  rcases h.separate_cases with ⟨v, hvx, hvy, hnone⟩ | ⟨s', hsome, hstep⟩
  · rw [hnone]
    exact iff_of_true rfl ⟨v, hvx, hvy⟩
  · rw [hsome]
    refine iff_of_false (fun h => nomatch h) ?_
    rintro ⟨v, hvx, hvy⟩
    cases hstep with
    | apart hdx hdy hapart =>
      obtain rfl := Option.some.inj (hdx.symm.trans hvx)
      obtain rfl := Option.some.inj (hdy.symm.trans hvy)
      exact hapart v (Domain.mem_singleton.mpr rfl) (Domain.mem_singleton.mpr rfl)
    | exclude hzw hz hsingular _ _ =>
      -- The side that is narrowed was not fixed.
      rcases hzw with ⟨rfl, _⟩ | ⟨rfl, _⟩
      · exact not_fixed hz hsingular ⟨v, hvx⟩
      · exact not_fixed hz hsingular ⟨v, hvy⟩
    | keep hx _ => exact hx ⟨v, hvx⟩

/-- From wherever a pass has come to, it goes on to its own end. -/
theorem Passing.result_separateAll (h : Passing s edges t rest) :
    (s.separateAll edges).result = (t.separateAll rest).result := by
  induction h with
  | start => rfl
  | step _ hresult ih => rw [ih, separateAll, Traced.result_bind_of_ok hresult]

/-- A pass that ends with a conflict comes to the inequality that is the conflict. -/
theorem Passing.exists_conflict (h : Passing s edges t rest)
    (hnone : (t.separateAll rest).result = .ok none) :
    ∃ u x y rest', Passing s edges u ((x, y) :: rest') ∧ (u.separate x y).result = .ok none := by
  induction rest generalizing t with
  | nil => exact nomatch hnone
  | cons edge rest ih =>
    obtain ⟨x, y⟩ := edge
    rw [separateAll, Traced.bind_result_eq_ok] at hnone
    obtain ⟨step, hresult, hrest⟩ := hnone
    cases step with
    | none => exact ⟨t, x, y, rest, h, hresult⟩
    | some t' => exact ih (h.step hresult) hrest

/-- A pass finds a conflict just when one of its steps does. -/
theorem separateAll_eq_none_iff : (s.separateAll edges).result = .ok none ↔
    ∃ t x y rest, Passing s edges t ((x, y) :: rest) ∧ (t.separate x y).result = .ok none := by
  constructor
  · exact Passing.start.exists_conflict
  · rintro ⟨t, x, y, rest, h, hnone⟩
    rw [h.result_separateAll, separateAll, Traced.result_bind_of_ok hnone]
    rfl

end Steps

/-! ### The whole pass -/

/-- What a pass over some edges does to a system if it finds no contradiction. -/
structure Propagated (s : System) (edges : List (Variable × Variable)) (s' : System) : Prop
    extends Narrowed s s' where
  wellFormed : s'.WellFormed
  live : s'.Live
  hasEdge_of_fixed : ∀ x y, (x, y) ∈ edges → s.Fixed x ∨ s.Fixed y →
    s'.inequalities.hasEdge x y = false
  find?_eq_of_ne : ∀ z : Variable, (∀ x y, (x, y) ∈ edges → z.name ≠ x.name ∧ z.name ≠ y.name) →
    s'.domains.find? z = s.domains.find? z

/-- One step before a pass is a longer pass. -/
theorem Propagated.cons {t : System} {rest : List (Variable × Variable)}
    (hstep : Separated s x y t) (hnarrowed : s.Narrowed t) (h : Propagated t rest s') :
    Propagated s ((x, y) :: rest) s' where
  toNarrowed := hnarrowed.trans h.toNarrowed
  wellFormed := h.wellFormed
  live := h.live
  hasEdge_of_fixed c d hmem hfixed := by
    rcases List.mem_cons.mp hmem with heq | hmem
    · -- The edge is gone after its own step, and no later step brings it back.
      obtain ⟨rfl, rfl⟩ := Prod.mk.inj heq
      have hgone := hstep.hasEdge_of_fixed hfixed
      rw [Bool.eq_false_iff] at hgone ⊢
      intro hcd
      exact hgone (h.hasEdge_of_hasEdge c d hcd)
    · exact h.hasEdge_of_fixed c d hmem (hfixed.imp hstep.fixed hstep.fixed)
  find?_eq_of_ne z hz := by
    obtain ⟨hx, hy⟩ := hz x y List.mem_cons_self
    rw [h.find?_eq_of_ne z fun c d hmem => hz c d (List.mem_cons_of_mem _ hmem)]
    exact hstep.find?_eq_of_ne hx hy

/-- A pass over edges that all solutions respect finds a contradiction or keeps the solutions. -/
theorem separateAll_cases {edges : List (Variable × Variable)} (hs : s.Pending edges)
    (hedges : ∀ σ, s.Holds σ → ∀ x y, (x, y) ∈ edges → σ x.name ≠ σ y.name) :
    ((s.separateAll edges).result = .ok none ∧ ¬s.Satisfiable) ∨
      ∃ s', (s.separateAll edges).result = .ok (some s') ∧ Propagated s edges s' := by
  induction edges generalizing s with
  | nil =>
    refine Or.inr ⟨s, rfl, .refl s, hs.wellFormed, hs.live, fun c d hmem => ?_, fun _ _ => rfl⟩
    exact absurd hmem List.not_mem_nil
  | cons edge rest ih =>
    obtain ⟨x, y⟩ := edge
    have hne := (hs.ends x y List.mem_cons_self).2.2
    have hedge : ∀ σ, s.Holds σ → σ x.name ≠ σ y.name := by
      intro σ hσ
      exact hedges σ hσ x y List.mem_cons_self
    rw [separateAll]
    rcases hs.separate_cases with ⟨v, hvx, hvy, hnone⟩ | ⟨t, hsome, hstep⟩
    · rw [hnone]
      exact Or.inl ⟨rfl, not_satisfiable_of_fixed hedge hvx hvy⟩
    · -- The step keeps the solutions, so they respect the edges of the list from here on too.
      have hnarrowed := hstep.narrowed hne hedge
      have hedges' : ∀ σ, t.Holds σ → ∀ c d, (c, d) ∈ rest → σ c.name ≠ σ d.name := by
        intro σ hσ c d hmem
        exact hedges σ ((hnarrowed.holds_iff σ).mp hσ) c d (List.mem_cons_of_mem _ hmem)
      rw [Traced.result_bind_of_ok (congrArg Traced.result hsome)]
      rcases ih (hs.step hstep) hedges' with ⟨hnone, hunsat⟩ | ⟨s', hsome', h⟩
      · refine Or.inl ⟨hnone, ?_⟩
        rintro ⟨σ, hσ⟩
        exact hunsat ⟨σ, (hnarrowed.holds_iff σ).mpr hσ⟩
      · exact Or.inr ⟨s', hsome', .cons hstep hnarrowed h⟩

/-- A pass over all inequalities of a system can begin when the system is ready for a search. -/
theorem Ready.pending (hs : s.Ready) : s.Pending s.inequalities.edges where
  wellFormed := hs.wellFormed
  live := hs.live
  ends x y hmem := by
    have hxy := (Graph.hasEdge_of_mem_edges hmem).1
    obtain ⟨hx, hy⟩ := hs.wellFormed.inequalities_endpoints hxy
    exact ⟨hx, hy, hs.wellFormed.inequalities_simple.ne_of_hasEdge hxy⟩

/-- The pass goes through inequalities that all solutions respect, so the claim about such passes
can be used. -/
theorem propagate_propagated (hs : s.Ready) :
    (s.propagate.result = .ok none ∧ ¬s.Satisfiable) ∨
      ∃ s', s.propagate.result = .ok (some s') ∧ Propagated s s.inequalities.edges s' := by
  refine separateAll_cases hs.pending fun σ hσ x y hmem => ?_
  exact hσ.inequalities x y (Graph.hasEdge_of_mem_edges hmem).1

/-- After a pass the search can go on. -/
theorem Propagated.ready {edges : List (Variable × Variable)} (hs : s.Ready)
    (h : Propagated s edges s') : s'.Ready where
  wellFormed := h.wellFormed
  reduced x y := by
    rw [h.equalities_eq]
    exact hs.reduced x y
  live := h.live

/-- The pass finds a contradiction or keeps the solutions. It keeps no inequality at a variable that
was fixed when it began. -/
theorem propagate_cases (hs : s.Ready) :
    (s.propagate.result = .ok none ∧ ¬s.Satisfiable) ∨
      ∃ s', s.propagate.result = .ok (some s') ∧ s'.Ready ∧ (∀ σ, s'.Holds σ ↔ s.Holds σ) ∧
        ∀ c d, s'.inequalities.hasEdge c d = true →
          s.inequalities.hasEdge c d = true ∧ ¬s.Fixed c := by
  have hsimple := hs.wellFormed.inequalities_simple
  rcases propagate_propagated hs with hnone | ⟨s', hsome, h⟩
  · exact Or.inl hnone
  · refine Or.inr ⟨s', hsome, h.ready hs, h.holds_iff,
      fun c d hcd => ⟨h.hasEdge_of_hasEdge c d hcd, fun hfixed => ?_⟩⟩
    have hcongr : ∀ {a : Variable}, a.name = c.name → s.Fixed a := by
      intro a hname
      obtain ⟨v, hv⟩ := hfixed
      exact ⟨v, (s.domains.find?_congr hname).trans hv⟩
    -- The list holds each edge in one direction, and the fixed variable may be at either end.
    obtain ⟨a, b, hmem, ⟨hac, hbd⟩ | ⟨had, hbc⟩⟩ :=
      Graph.exists_mem_edges_of_isSimple hsimple (h.hasEdge_of_hasEdge c d hcd)
    · have hgone := h.hasEdge_of_fixed a b hmem (Or.inl (hcongr hac))
      rw [Graph.hasEdge_congr _ hac hbd] at hgone
      exact nomatch hcd.symm.trans hgone
    · have hgone := h.hasEdge_of_fixed a b hmem (Or.inr (hcongr hbc))
      have hdc := h.wellFormed.inequalities_simple.symmetric c d hcd
      rw [Graph.hasEdge_congr _ had hbc] at hgone
      exact nomatch hdc.symm.trans hgone

/-- **A pass over the inequalities keeps the solutions.** It always has an outcome. A conflict is
found only where there is no solution. Otherwise every assignment solves the system afterwards just
when it solved it before, and all that has changed is that some inequalities are gone and that some
domains are narrower. A variable that has no inequality keeps its domain. The settings of a search
are not part of a system, and a pass does not read them. -/
theorem propagate_narrowed (hs : s.Ready) :
    (s.propagate.result = .ok none ∧ ∀ σ, ¬s.Holds σ) ∨
      ∃ s', s.propagate.result = .ok (some s') ∧ s'.Ready ∧ s.Narrowed s' ∧
        ∀ z, (∀ w, s.inequalities.hasEdge z w = false) →
          s'.domains.find? z = s.domains.find? z := by
  rcases propagate_propagated hs with ⟨hnone, hunsat⟩ | ⟨s', hsome, h⟩
  · exact Or.inl ⟨hnone, fun σ hσ => hunsat ⟨σ, hσ⟩⟩
  · refine Or.inr ⟨s', hsome, h.ready hs, h.toNarrowed, fun z hz => ?_⟩
    refine h.find?_eq_of_ne z fun x y hmem => ?_
    have hxy := (Graph.hasEdge_of_mem_edges hmem).1
    have hyx := hs.wellFormed.inequalities_simple.symmetric x y hxy
    -- A variable without inequalities is at no end of a listed one.
    refine ⟨fun hname => ?_, fun hname => ?_⟩
    · exact nomatch ((s.inequalities.hasEdge_congr hname rfl).trans hxy).symm.trans (hz y)
    · exact nomatch ((s.inequalities.hasEdge_congr hname rfl).trans hyx).symm.trans (hz x)

/-- The variable `a` is fixed by an equation, and `b` gets fixed when its value is taken out. -/
def fixedInTurn : System :=
  let a : Variable := ⟨"a", 2, Nat.two_pos⟩
  let b : Variable := ⟨"b", 1, Nat.one_pos⟩
  let c : Variable := ⟨"c", 2, Nat.two_pos⟩
  ((((empty.declare a).declare b).declare c).addAll
    [.ofVars c b false, .ofVars b a false, .ofValue a 1 true]).state

/-- The pass drops both inequalities, the second one after it has fixed `b`. -/
theorem propagate_narrowed_fixedInTurn : fixedInTurn.Ready ∧
    ∃ s', fixedInTurn.propagate.result = .ok (some s') ∧ fixedInTurn.Narrowed s' := by
  have hs : fixedInTurn.WellFormed :=
    (((wellFormed_empty.declare _).declare _).declare _).addAll _
  have hready : fixedInTurn.Ready :=
    ⟨hs, (Graph.isEmpty_iff hs.equalities_simple).mp rfl,
      hasEmptyDomain_eq_false_iff.mp (by decide +kernel)⟩
  have hsome : fixedInTurn.propagate.result.toOption.any Option.isSome = true := by decide +kernel
  rcases propagate_narrowed hready with ⟨hnone, _⟩ | ⟨s', hresult, _, hnarrowed, _⟩
  · rw [hnone] at hsome
    exact absurd hsome Bool.false_ne_true
  · exact ⟨hready, s', hresult, hnarrowed⟩

end BoundedEquations.System
