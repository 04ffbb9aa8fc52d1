import BoundedEquations.Proofs.Graph.Contract
import BoundedEquations.Proofs.System.Meaning
import BoundedEquations.System.Quotient

/-!
# `BoundedEquations.Proofs.System.Quotient`: substitution keeps solvability

A substitution along an equality `x == y` narrows all variables next to `x` to their common values
and then puts `y` in the place of `x`. `Substituted` describes the outcome, and `substitute_cases`
is the inversion of `substitute`. A solution from before still holds afterwards, because it gives
the same value to `x` and `y`. A solution from afterwards says nothing about `x`, which has no
edges left, so `x` can be given the value of `y`. The theorems:

* `substitute_cases`: a substitution finds a contradiction, or its outcome is as described.
* `Substituted.satisfiable_iff`: the step keeps solvability.
* `Substituted.vertex_of_hasEdge`: the step removes a vertex, so the bound on the steps suffices.
* `quotient_reduces`: the quotient always has an outcome, and `Reduces` says which one.
* `quotient_cases`: the quotient keeps solvability.
* `ready_of_quotient`: a search can begin in the quotient.
-/

set_option autoImplicit false

namespace BoundedEquations.System

variable {s s' : System} {x y : Variable} {σ : Assignment}

/-- The system has a solution. -/
def Satisfiable (s : System) : Prop := ∃ σ, s.Holds σ

/-- No variable has run out of values. -/
def Live (s : System) : Prop := ∀ x d, s.domains.find? x = some d → ∃ v, v ∈ d

/-- No domain is found empty just when all variables have values. -/
theorem hasEmptyDomain_eq_false_iff : s.hasEmptyDomain = false ↔ s.Live := by
  rw [hasEmptyDomain, List.any_eq_false]
  constructor
  · intro h x d hd
    have hne := h d (Table.mem_values_iff.mpr ⟨x, hd⟩)
    exact Domain.isEmpty_eq_false_iff.mp (Bool.eq_false_iff.mpr hne)
  · intro h d hd
    obtain ⟨x, hx⟩ := Table.mem_values_iff.mp hd
    exact Bool.eq_false_iff.mp (Domain.isEmpty_eq_false_iff.mpr (h x d hx))

/-- A variable without values rules out all solutions. -/
theorem not_satisfiable_of_hasEmptyDomain (h : s.hasEmptyDomain = true) : ¬s.Satisfiable := by
  rintro ⟨σ, hσ⟩
  have hlive : s.Live := fun x d hd => ⟨_, (holds_iff.mp hσ).1 x d hd⟩
  rw [hasEmptyDomain_eq_false_iff.mpr hlive] at h
  exact nomatch h

/-! ### The values common to a class -/

/-- The variable itself, or one that is to be equal to it. -/
def Near (s : System) (x z : Variable) : Prop :=
  z.name = x.name ∨ s.equalities.hasEdge x z = true

/-- Whether one variable is near another is decided by the names and the edges. -/
instance (s : System) (x z : Variable) : Decidable (s.Near x z) :=
  inferInstanceAs (Decidable (_ ∨ _))

/-- The variables near `x` are those that a substitution narrows. -/
theorem near_iff_exists_mem {z : Variable} :
    s.Near x z ↔ ∃ w ∈ x :: s.equalities.neighbours x, w.name = z.name := by
  rw [Near, Graph.hasEdge_iff_exists_neighbour, eq_comm]
  simp only [List.mem_cons, exists_eq_or_imp]

/-- Narrowing by one variable after the other ends with the values common to all. -/
theorem commonDomain_fold (hs : s.WellFormed) {others : List Variable}
    (hothers : ∀ z ∈ others, s.domains.contains z = true) {d : Domain} (hd : d.Canonical) :
    ∃ common, others.foldlM (fun common z => return common ∩ (← s.domainOf z)) d
        = Except.ok (ε := Fault) common ∧
      common.Canonical ∧
      ∀ v, v ∈ common ↔ v ∈ d ∧ ∀ z ∈ others, ∀ e, s.domains.find? z = some e → v ∈ e := by
  induction others generalizing d with
  | nil => exact ⟨d, rfl, hd, fun v => by simp⟩
  | cons z rest ih =>
    obtain ⟨e, he⟩ := Table.contains_iff_exists.mp (hothers z List.mem_cons_self)
    have hcanonical := hs.canonical z e he
    -- The rest narrows what `z` has already narrowed, so the claim is used for that domain.
    obtain ⟨common, hfold, hcommon, hmem⟩ :=
      ih (fun w hw => hothers w (List.mem_cons_of_mem _ hw)) (Domain.canonical_inter hd hcanonical)
    refine ⟨common, ?_, hcommon, fun v => ?_⟩
    · rw [List.foldlM_cons, domainOf_eq_ok_iff.mpr he]
      exact hfold
    · rw [hmem, Domain.mem_inter hd hcanonical, and_assoc, List.forall_mem_cons]
      simp [he]

/-- There are common values to be found, and they are those of all variables near `x`. -/
theorem exists_commonDomain (hs : s.WellFormed) (hxy : s.equalities.hasEdge x y = true) :
    ∃ common, s.commonDomain x (s.equalities.neighbours x) = .ok common ∧ common.Canonical ∧
      ∀ v, v ∈ common ↔ ∀ z, s.Near x z → ∀ d, s.domains.find? z = some d → v ∈ d := by
  obtain ⟨d, hd⟩ := Table.contains_iff_exists.mp (hs.equalities_declared x y hxy)
  have hothers : ∀ z ∈ s.equalities.neighbours x, s.domains.contains z = true := by
    intro z hz
    exact (hs.equalities_endpoints (Graph.hasEdge_iff_exists_neighbour.mpr ⟨z, hz, rfl⟩)).2
  obtain ⟨common, hfold, hcommon, hmem⟩ := commonDomain_fold hs hothers (hs.canonical x d hd)
  refine ⟨common, ?_, hcommon, fun v => ?_⟩
  · rw [commonDomain, domainOf_eq_ok_iff.mpr hd]
    exact hfold
  · rw [hmem]
    constructor
    · rintro ⟨hv, hrest⟩ z hnear e he
      obtain ⟨w, hw, hname⟩ := near_iff_exists_mem.mp hnear
      rw [← s.domains.find?_congr hname] at he
      rcases List.mem_cons.mp hw with rfl | hw
      · obtain rfl := Option.some.inj (hd.symm.trans he)
        exact hv
      · exact hrest w hw e he
    · intro h
      refine ⟨h x (Or.inl rfl) d hd, fun z hz e he => ?_⟩
      exact h z (near_iff_exists_mem.mpr ⟨z, List.mem_cons_of_mem _ hz, rfl⟩) e he

/-! ### One substitution -/

/-- What a substitution of `y` for `x` does to a system. -/
structure Substituted (s : System) (x y : Variable) (s' : System) : Prop where
  equalities : s.equalities.contract x y = .ok s'.equalities
  inequalities : s.inequalities.contract x y = .ok s'.inequalities
  separate : s.inequalities.hasEdge x y = false
  domains : ∃ common : Domain, common.Canonical ∧ (∃ v, v ∈ common) ∧
    (∀ v, v ∈ common ↔ ∀ z, s.Near x z → ∀ d, s.domains.find? z = some d → v ∈ d) ∧
    ∀ z, s'.domains.find? z = if s.Near x z then some common else s.domains.find? z

/-- The equality of `x` and `y` cannot be kept: the two are to differ, or the variables at `x` have
no value in common. -/
def Contradictory (s : System) (x y : Variable) : Prop :=
  s.inequalities.hasEdge x y = true ∨
    ¬∃ v, ∀ z, s.Near x z → ∀ d, s.domains.find? z = some d → v ∈ d

/-- A solution gives one value to a variable and to all variables that are to be equal to it. -/
theorem eq_of_near {z : Variable}
    (hedges : ∀ a b, s.equalities.hasEdge a b = true → σ a.name = σ b.name)
    (hnear : s.Near x z) : σ z.name = σ x.name := by
  rcases hnear with hname | hedge
  · rw [hname]
  · exact (hedges x z hedge).symm

/-- The value of `x` would be shared by all variables at it. -/
theorem Contradictory.not_satisfiable (hxy : s.equalities.hasEdge x y = true)
    (h : s.Contradictory x y) : ¬s.Satisfiable := by
  rintro ⟨σ, hσ⟩
  rcases h with hdiffer | hcommon
  · exact hσ.inequalities x y hdiffer (hσ.equalities x y hxy)
  · refine hcommon ⟨σ x.name, fun z hnear d hd => ?_⟩
    rw [← eq_of_near hσ.equalities hnear]
    exact (holds_iff.mp hσ).1 z d hd

/-- Between variables that are not to differ, a substitution comes down to the common values. -/
theorem result_substitute {common : Domain} (hne : x.name ≠ y.name)
    (hseparate : s.inequalities.hasEdge x y = false)
    (hcommon : s.commonDomain x (s.equalities.neighbours x) = .ok common) :
    ∃ equalities inequalities, s.equalities.contract x y = .ok equalities ∧
      s.inequalities.contract x y = .ok inequalities ∧
      (s.substitute x y).result = .ok (if common.isEmpty then none else some
        { domains := (x :: s.equalities.neighbours x).foldl (fun ds z => ds.insert z common)
            s.domains
          equalities
          inequalities }) := by
  refine ⟨_, _, Graph.contract_eq_ok s.equalities x y, Graph.contract_eq_ok s.inequalities x y, ?_⟩
  rw [substitute, if_neg fun heq => hne (Variable.beq_iff.mp heq),
    if_neg (Bool.eq_false_iff.mp hseparate)]
  dsimp only
  rw [hcommon, Graph.contract_eq_ok, Graph.contract_eq_ok]
  show (if common.isEmpty = true then _ else _ : Traced (Option System)).result = _
  split <;> rfl

/-- A substitution along an edge finds a contradiction or is carried out. -/
theorem substitute_cases (hs : s.WellFormed) (hxy : s.equalities.hasEdge x y = true) :
    ((s.substitute x y).result = .ok none ∧ s.Contradictory x y) ∨
      ∃ s', (s.substitute x y).result = .ok (some s') ∧ Substituted s x y s' := by
  have hne := hs.equalities_simple.ne_of_hasEdge hxy
  cases hseparate : s.inequalities.hasEdge x y with
  | true =>
    refine Or.inl ⟨?_, Or.inl hseparate⟩
    rw [substitute, if_neg fun heq => hne (Variable.beq_iff.mp heq), if_pos hseparate]
    rfl
  | false =>
    obtain ⟨common, hcommon, hcanonical, hmem⟩ := exists_commonDomain hs hxy
    obtain ⟨equalities, inequalities, hequalities, hinequalities, hresult⟩ :=
      result_substitute hne hseparate hcommon
    rw [hresult]
    cases hempty : common.isEmpty with
    | true =>
      refine Or.inl ⟨rfl, Or.inr ?_⟩
      rintro ⟨v, hv⟩
      exact Domain.isEmpty_iff.mp hempty v ((hmem v).mpr hv)
    | false =>
      refine Or.inr ⟨_, rfl, hequalities, hinequalities, hseparate, common, hcanonical,
        Domain.isEmpty_eq_false_iff.mp hempty, hmem, ?_⟩
      intro z
      show (List.foldl _ _ _ : Table Domain).find? z = _
      rw [Table.find?_foldl_insert]
      simp only [near_iff_exists_mem]

namespace Substituted

/-- The declared variables stay the same. -/
theorem contains_iff (hs : s.WellFormed) (hxy : s.equalities.hasEdge x y = true)
    (h : Substituted s x y s') (z : Variable) :
    s'.domains.contains z = true ↔ s.domains.contains z = true := by
  obtain ⟨common, _, _, _, hfind⟩ := h.domains
  rw [Table.contains, Table.contains, hfind]
  by_cases hnear : s.Near x z
  · rw [if_pos hnear]
    -- The class gets the common values, and all of its members had a domain before.
    refine iff_of_true rfl ?_
    rcases hnear with hname | hedge
    · rw [s.domains.find?_congr hname]
      exact hs.equalities_declared x y hxy
    · exact (hs.equalities_endpoints hedge).2
  · rw [if_neg hnear]

/-- A substitution keeps a system well-formed. -/
theorem wellFormed (hs : s.WellFormed) (hxy : s.equalities.hasEdge x y = true)
    (h : Substituted s x y s') : s'.WellFormed := by
  have hne := hs.equalities_simple.ne_of_hasEdge hxy
  have hy := (hs.equalities_endpoints hxy).2
  -- A vertex of the contracted graph was a vertex before, or it is `y`, which is declared anyway.
  have hdeclared : ∀ {g g' : Graph}, g.IsSimple → g.contract x y = .ok g' →
      (∀ a b, g.hasEdge a b = true → s.domains.contains a = true) →
      ∀ c d, g'.hasEdge c d = true → s'.domains.contains c = true := by
    intro g g' hg hgg' hall c d hcd
    rw [contains_iff hs hxy h]
    rcases (Graph.vertex_of_hasEdge_contract hg hne hgg' hcd).2 with hcy | ⟨e, hce⟩
    · rw [s.domains.contains_congr hcy]
      exact hy
    · exact hall c e hce
  refine ⟨Graph.isSimple_contract hs.equalities_simple h.equalities,
    Graph.isSimple_contract hs.inequalities_simple h.inequalities,
    hdeclared hs.equalities_simple h.equalities hs.equalities_declared,
    hdeclared hs.inequalities_simple h.inequalities hs.inequalities_declared, fun z d hd => ?_⟩
  obtain ⟨common, hcanonical, _, _, hfind⟩ := h.domains
  rw [hfind] at hd
  split at hd
  · obtain rfl := Option.some.inj hd
    exact hcanonical
  · exact hs.canonical z d hd

/-- A substitution leaves no variable without values. -/
theorem live (hs : s.Live) (h : Substituted s x y s') : s'.Live := by
  intro z d hd
  obtain ⟨common, _, hne, _, hfind⟩ := h.domains
  rw [hfind] at hd
  split at hd
  · obtain rfl := Option.some.inj hd
    exact hne
  · exact hs z d hd

/-- No edge of the equality graph is left at `x`, and no vertex is new. -/
theorem vertex_of_hasEdge (hs : s.WellFormed) (hxy : s.equalities.hasEdge x y = true)
    (h : Substituted s x y s') {c d : Variable} (hcd : s'.equalities.hasEdge c d = true) :
    c.name ≠ x.name ∧ ∃ e, s.equalities.hasEdge c e = true := by
  have hne := hs.equalities_simple.ne_of_hasEdge hxy
  obtain ⟨hcx, hcy | hvertex⟩ :=
    Graph.vertex_of_hasEdge_contract hs.equalities_simple hne h.equalities hcd
  · refine ⟨hcx, x, ?_⟩
    rw [s.equalities.hasEdge_congr hcy rfl]
    exact hs.equalities_simple.symmetric x y hxy
  · exact ⟨hcx, hvertex⟩

/-! ### Solutions before and after -/

/-- Where `x` and `y` have one value, a contraction does not change what the edges demand. -/
theorem forall_hasEdge_contract {g h : Graph} (hg : g.IsSimple) (hgh : g.contract x y = .ok h)
    {R : Nat → Nat → Prop} (hR : ∀ m n, R m n → R n m) (hsame : σ x.name = σ y.name)
    (hxy : g.hasEdge x y = true → R (σ x.name) (σ y.name)) :
    (∀ c d, h.hasEdge c d = true → R (σ c.name) (σ d.name)) ↔
      ∀ c d, g.hasEdge c d = true → R (σ c.name) (σ d.name) := by
  -- The name that stands for another one has the same value.
  have hvalue : ∀ n, σ (Graph.rename x.name y.name n) = σ n := by
    intro n
    by_cases hn : n = x.name
    · rw [hn, Graph.rename_self, hsame]
    · rw [Graph.rename_of_ne hn]
  constructor
  · intro hall e f hef
    by_cases hloop : Graph.rename x.name y.name e.name = Graph.rename x.name y.name f.name
    · -- An edge is dropped only if it is the one between the two.
      rcases Graph.eq_of_rename_eq hloop (hg.ne_of_hasEdge hef) with ⟨hex, hfy⟩ | ⟨hey, hfx⟩
      · rw [hex, hfy]
        exact hxy (g.hasEdge_congr hex hfy ▸ hef)
      · rw [hey, hfx]
        exact hR _ _ (hxy (g.hasEdge_congr hfx hey ▸ hg.symmetric e f hef))
    · obtain ⟨c, d, hcd, hce, hdf⟩ := Graph.exists_hasEdge_contract hg hgh hef hloop
      have hnew := hall c d hcd
      rwa [hce, hdf, hvalue, hvalue] at hnew
  · intro hall c d hcd
    obtain ⟨_, e, f, hef, hec, hfd⟩ := (Graph.hasEdge_contract_iff_exists hg hgh c d).mp hcd
    rw [← hec, ← hfd, hvalue, hvalue]
    exact hall e f hef

/-- An assignment that gives `x` and `y` one value holds before just when it holds after. -/
theorem holds_iff_of_eq (hs : s.WellFormed) (h : Substituted s x y s')
    (hsame : σ x.name = σ y.name) : s'.Holds σ ↔ s.Holds σ := by
  have hequalities := forall_hasEdge_contract hs.equalities_simple h.equalities
    (R := (· = ·)) (fun _ _ hmn => hmn.symm) hsame fun _ => hsame
  have hinequalities := forall_hasEdge_contract hs.inequalities_simple h.inequalities
    (R := (· ≠ ·)) (fun _ _ hmn => hmn.symm) hsame
    fun hedge => nomatch hedge.symm.trans h.separate
  rw [System.holds_iff, System.holds_iff, hequalities, hinequalities]
  -- What is left to compare are the domains, and the edges of `s` may be used for it.
  refine and_congr_left fun ⟨hedges, _⟩ => ?_
  obtain ⟨common, _, _, hmem, hfind⟩ := h.domains
  constructor
  · intro hall z d hd
    by_cases hnear : s.Near x z
    · exact (hmem _).mp (hall z common (by rw [hfind, if_pos hnear])) z hnear d hd
    · exact hall z d (by rw [hfind, if_neg hnear]; exact hd)
  · intro hall z d hd
    rw [hfind] at hd
    split at hd
    · rename_i hnear
      obtain rfl := Option.some.inj hd
      rw [hmem, eq_of_near hedges hnear]
      intro w hw e he
      rw [← eq_of_near hedges hw]
      exact hall w e he
    · exact hall z d hd

/-- Nothing but its domain is left to be said about `x`, so it can be given the value of `y`. -/
theorem holds_update (hs : s.WellFormed) (hxy : s.equalities.hasEdge x y = true)
    (h : Substituted s x y s') (hσ : s'.Holds σ) :
    s'.Holds fun name => if name = x.name then σ y.name else σ name := by
  have hne := hs.equalities_simple.ne_of_hasEdge hxy
  -- No edge of either graph has an end at `x` any more.
  have hgone : ∀ {g g' : Graph}, g.IsSimple → g.contract x y = .ok g' →
      ∀ c d, g'.hasEdge c d = true → c.name ≠ x.name ∧ d.name ≠ x.name := by
    intro g g' hg hgg' c d hcd
    have hdc := (Graph.isSimple_contract hg hgg').symmetric c d hcd
    exact ⟨(Graph.vertex_of_hasEdge_contract hg hne hgg' hcd).1,
      (Graph.vertex_of_hasEdge_contract hg hne hgg' hdc).1⟩
  rw [System.holds_iff] at hσ ⊢
  refine ⟨fun z d hd => ?_, fun c d hcd => ?_, fun c d hcd => ?_⟩
  · by_cases hz : z.name = x.name
    · -- The variables `x` and `y` have got the same domain.
      obtain ⟨common, _, _, _, hfind⟩ := h.domains
      rw [hfind, if_pos (show s.Near x z from Or.inl hz)] at hd
      rw [if_pos hz]
      exact hσ.1 y d (by rw [hfind, if_pos (show s.Near x y from Or.inr hxy)]; exact hd)
    · rw [if_neg hz]
      exact hσ.1 z d hd
  · obtain ⟨hc, hd⟩ := hgone hs.equalities_simple h.equalities c d hcd
    rw [if_neg hc, if_neg hd]
    exact hσ.2.1 c d hcd
  · obtain ⟨hc, hd⟩ := hgone hs.inequalities_simple h.inequalities c d hcd
    rw [if_neg hc, if_neg hd]
    exact hσ.2.2 c d hcd

/-- A substitution neither adds nor loses the last solution. -/
theorem satisfiable_iff (hs : s.WellFormed) (hxy : s.equalities.hasEdge x y = true)
    (h : Substituted s x y s') : s.Satisfiable ↔ s'.Satisfiable := by
  constructor
  · rintro ⟨σ, hσ⟩
    exact ⟨σ, (h.holds_iff_of_eq hs (hσ.equalities x y hxy)).mpr hσ⟩
  · rintro ⟨σ, hσ⟩
    have hne := hs.equalities_simple.ne_of_hasEdge hxy
    refine ⟨_, (h.holds_iff_of_eq hs ?_).mp (h.holds_update hs hxy hσ)⟩
    show (if x.name = x.name then _ else _) = if y.name = x.name then _ else _
    rw [if_pos rfl, if_neg (Ne.symm hne)]

end Substituted

/-! ### All substitutions -/

/-- The course of the substitutions, until no equality is left or one of them cannot be kept. -/
inductive Reduces : System → Option System → Prop
  /-- No equality is left. -/
  | done {s : System} (hempty : s.equalities.isEmpty = true) : Reduces s (some s)
  /-- The next equality cannot be kept. -/
  | stuck {s : System} {x y : Variable} (hxy : s.equalities.hasEdge x y = true)
      (h : s.Contradictory x y) : Reduces s none
  /-- The lesser end of the next equality gives way to the greater one. -/
  | step {s s' : System} {x y : Variable} {o : Option System}
      (hxy : s.equalities.hasEdge x y = true) (hlt : x.name < y.name)
      (h : Substituted s x y s') (rest : Reduces s' o) : Reduces s o

/-- A substitution that cannot be made is the end. -/
theorem result_substituteAll_of_none {count : Nat} (hfirst : s.equalities.firstEdge? = some (x, y))
    (h : (s.substitute x y).result = .ok none) :
    (substituteAll (count + 1) s).result = .ok none := by
  rw [substituteAll, hfirst]
  exact Traced.result_bind_of_ok h _

/-- A substitution that is made is followed by the others. -/
theorem result_substituteAll_of_some {count : Nat} (hfirst : s.equalities.firstEdge? = some (x, y))
    (h : (s.substitute x y).result = .ok (some s')) :
    (substituteAll (count + 1) s).result = (substituteAll count s').result := by
  rw [substituteAll, hfirst]
  exact Traced.result_bind_of_ok h _

/-- With a step for each vertex the substitutions come to an end. -/
theorem substituteAll_reduces {count : Nat} (hs : s.WellFormed)
    (vertices : List String) (hcount : vertices.length ≤ count)
    (hvertices : ∀ x y, s.equalities.hasEdge x y = true → x.name ∈ vertices) :
    ∃ o, (substituteAll count s).result = .ok o ∧ s.Reduces o := by
  induction count generalizing s vertices with
  | zero =>
    -- No vertex is left, so there is no edge to substitute along.
    obtain rfl := List.length_eq_zero_iff.mp (Nat.le_zero.mp hcount)
    have hempty : s.equalities.isEmpty = true := (Graph.isEmpty_iff hs.equalities_simple).mpr
      fun x y => Bool.eq_false_iff.mpr fun hxy => absurd (hvertices x y hxy) List.not_mem_nil
    have hreduced : s.reduced = .ok s := if_pos hempty
    refine ⟨some s, ?_, .done hempty⟩
    rw [substituteAll, hreduced]
    rfl
  | succ count ih =>
    rcases Graph.firstEdge?_cases hs.equalities_simple with
      ⟨hempty, hfirst⟩ | ⟨x, y, hfirst, hxy, hlt⟩
    · have hreduced : s.reduced = .ok s := if_pos hempty
      refine ⟨some s, ?_, .done hempty⟩
      rw [substituteAll, hfirst, hreduced]
      rfl
    · rcases substitute_cases hs hxy with ⟨hnone, hcontradictory⟩ | ⟨s', hsome, h⟩
      · exact ⟨none, result_substituteAll_of_none hfirst hnone, .stuck hxy hcontradictory⟩
      · -- The vertex `x` is gone for good, so there is one name less to go through.
        have hx : x.name ∈ vertices := hvertices x y hxy
        have hlength := List.length_erase_of_mem hx
        have hpos := List.length_pos_of_mem hx
        have hrest : ∀ c d, s'.equalities.hasEdge c d = true → c.name ∈ vertices.erase x.name := by
          intro c d hcd
          obtain ⟨hcx, e, hce⟩ := h.vertex_of_hasEdge hs hxy hcd
          exact (List.mem_erase_of_ne hcx).mpr (hvertices c e hce)
        obtain ⟨o, hresult, hreduces⟩ :=
          ih (h.wellFormed hs hxy) (vertices.erase x.name) (by omega) hrest
        refine ⟨o, ?_, .step hxy hlt h hreduces⟩
        rw [result_substituteAll_of_some hfirst hsome]
        exact hresult

/-- The quotient is always found or refuted. -/
theorem quotient_reduces (hs : s.WellFormed) : ∃ o, s.quotient.result = .ok o ∧ s.Reduces o := by
  refine substituteAll_reduces hs s.equalities.adjacency.names ?_ fun x y hxy => ?_
  · rw [Table.length_names]
    exact Nat.le_refl _
  · exact (Graph.mem_vertices_names_iff hs.equalities_simple).mpr ⟨y, hxy⟩

/-! ### Solvability of the quotient -/

/-- A system in which the search can begin: no equalities are left, and each variable has values. -/
structure Ready (s : System) : Prop where
  wellFormed : s.WellFormed
  reduced : ∀ x y, s.equalities.hasEdge x y = false
  live : s.Live

/-- The substitutions keep solvability. -/
theorem Reduces.satisfiable_cases {o : Option System} (h : s.Reduces o) (hs : s.WellFormed)
    (hlive : s.Live) : (o = none ∧ ¬s.Satisfiable) ∨
      ∃ s', o = some s' ∧ s'.Ready ∧ (s.Satisfiable ↔ s'.Satisfiable) := by
  induction h with
  | @done s hempty =>
    exact Or.inr ⟨s, rfl, ⟨hs, (Graph.isEmpty_iff hs.equalities_simple).mp hempty, hlive⟩, Iff.rfl⟩
  | stuck hxy h => exact Or.inl ⟨rfl, h.not_satisfiable hxy⟩
  | step hxy _ h _ ih =>
    rw [h.satisfiable_iff hs hxy]
    exact ih (h.wellFormed hs hxy) (h.live hlive)

/-- The quotient is always found or refuted. It has a solution just when the system has one. -/
theorem quotient_cases (hs : s.WellFormed) (hlive : s.Live) :
    (s.quotient.result = .ok none ∧ ¬s.Satisfiable) ∨
      ∃ s', s.quotient.result = .ok (some s') ∧ s'.Ready ∧ (s.Satisfiable ↔ s'.Satisfiable) := by
  obtain ⟨o, hresult, hreduces⟩ := quotient_reduces hs
  rw [hresult]
  rcases hreduces.satisfiable_cases hs hlive with ⟨rfl, hunsat⟩ | ⟨s', rfl, hready⟩
  · exact Or.inl ⟨rfl, hunsat⟩
  · exact Or.inr ⟨s', rfl, hready⟩

/-- In the quotient the search can begin, unless some domain was empty from the start. -/
theorem ready_of_quotient (hs : s.WellFormed) (hlive : s.hasEmptyDomain = false)
    (h : s.quotient.result = .ok (some s')) : s'.Ready := by
  rcases quotient_cases hs (hasEmptyDomain_eq_false_iff.mp hlive) with
    ⟨hnone, _⟩ | ⟨q, hsome, hready, _⟩
  · exact nomatch (Except.ok.inj (hnone.symm.trans h))
  · obtain rfl := Option.some.inj (Except.ok.inj (hsome.symm.trans h))
    exact hready

end BoundedEquations.System
