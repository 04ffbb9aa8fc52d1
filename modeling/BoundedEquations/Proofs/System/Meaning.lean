import BoundedEquations.Assignment
import BoundedEquations.Proofs.System.Building

/-!
# `BoundedEquations.Proofs.System.Meaning`: the assignments that satisfy a system

While a system is built, some of its domains do not count for the outcome: a later declaration will
replace them. `HoldsBefore σ later` is the meaning of a system on its way. It exempts the domains
that the later calls replace. With it each step adds one demand, and takes none away. The theorems:

* `holds_iff`: the meaning of a system by look-ups in its tables.
* `holdsBefore_declare`, `holdsBefore_added`, `holdsBefore_addAll`: the demands that a step adds.
-/

set_option autoImplicit false

namespace BoundedEquations.System

variable {σ : Assignment} {later : List Call}

/-- A system holds when each declared variable has a value of its domain and each edge is
respected. -/
theorem holds_iff {s : System} :
    s.Holds σ ↔ (∀ x d, s.domains.find? x = some d → σ x.name ∈ d) ∧
      (∀ x y, s.equalities.hasEdge x y = true → σ x.name = σ y.name) ∧
      ∀ x y, s.inequalities.hasEdge x y = true → σ x.name ≠ σ y.name := by
  constructor
  · intro h
    refine ⟨fun x d hd => ?_, h.equalities, h.inequalities⟩
    obtain ⟨k, hk, hname⟩ := Table.find?_eq_some_iff.mp hd
    rw [← hname]
    exact h.domains (k, d) hk
  · intro h
    refine ⟨fun entry hentry => ?_, h.2.1, h.2.2⟩
    exact h.1 entry.1 entry.2 (Table.find?_of_mem_entries hentry)

/-- The system holds, apart from domains that later calls replace. -/
def HoldsBefore (σ : Assignment) (later : List Call) (s : System) : Prop :=
  (∀ x d, s.domains.find? x = some d →
    later.any (Call.declares x.name) = true ∨ σ x.name ∈ d) ∧
  (∀ x y, s.equalities.hasEdge x y = true → σ x.name = σ y.name) ∧
  ∀ x y, s.inequalities.hasEdge x y = true → σ x.name ≠ σ y.name

/-- With no calls to come, all domains count. -/
theorem holdsBefore_nil {s : System} : s.HoldsBefore σ [] ↔ s.Holds σ := by
  rw [holds_iff, HoldsBefore]
  simp only [List.any_nil, Bool.false_eq_true, false_or]

/-- The system without variables holds under every assignment. -/
theorem holdsBefore_empty : empty.HoldsBefore σ later :=
  ⟨fun _ _ h => (nomatch h), fun _ _ h => (nomatch h), fun _ _ h => (nomatch h)⟩

/-- Only the declarations among the later calls matter. -/
theorem holdsBefore_congr {later later' : List Call}
    (h : ∀ name, later.any (Call.declares name) = later'.any (Call.declares name)) {s : System} :
    s.HoldsBefore σ later ↔ s.HoldsBefore σ later' := by
  simp only [HoldsBefore, h]

/-- A declaration replaces one domain, and demands that the value fits the width. -/
theorem holdsBefore_declare {s : System} (x : Variable) :
    (s.declare x).HoldsBefore σ later ↔ s.HoldsBefore σ (.declare x :: later) ∧
      (Call.declare x).HoldsBefore σ later := by
  have hfull : σ x.name ∈ Domain.full x.width ↔ σ x.name ≤ x.maxValue := by
    have hpos : 0 < Nat.pow 2 x.width := Nat.two_pow_pos x.width
    rw [Domain.mem_full, Variable.maxValue]
    omega
  have hdeclares : ∀ y : Variable, (Call.declare x :: later).any (Call.declares y.name) = true ↔
      y.name = x.name ∨ later.any (Call.declares y.name) = true := by
    intro y
    rw [List.any_cons, Bool.or_eq_true]
    show (x.name == y.name) = true ∨ _ ↔ _
    rw [beq_iff_eq, eq_comm]
  simp only [HoldsBefore, Call.HoldsBefore, find?_declare, hdeclares, ← hfull]
  -- The edges are the same before and after, which leaves the domains to be compared.
  show (_ ∧ (∀ a b, s.equalities.hasEdge a b = true → _) ∧
    ∀ a b, s.inequalities.hasEdge a b = true → _) ↔ _
  rw [and_right_comm]
  refine and_congr_left fun _ => ?_
  constructor
  · intro h
    -- Before the declaration the domain of `x` does not count, because it is to be replaced.
    refine ⟨fun y d hd => ?_, h x _ (if_pos rfl)⟩
    by_cases hname : y.name = x.name
    · exact Or.inl (Or.inl hname)
    · rcases h y d ((if_neg hname).trans hd) with hlater | hmem
      · exact Or.inl (Or.inr hlater)
      · exact Or.inr hmem
  · intro h y d hd
    by_cases hname : y.name = x.name
    · rw [if_pos hname] at hd
      obtain rfl := Option.some.inj hd
      rw [hname]
      exact h.2
    · rw [if_neg hname] at hd
      rcases h.1 y d hd with (hsame | hlater) | hmem
      · exact absurd hsame hname
      · exact Or.inl hlater
      · exact Or.inr hmem

/-- Narrowing one domain adds one demand on one variable. -/
theorem holdsBefore_setDomain {s : System} {x : Variable} {d d' : Domain}
    (hd : s.domains.find? x = some d) {P : Prop}
    (hd' : σ x.name ∈ d' ↔ σ x.name ∈ d ∧ P) :
    (s.setDomain x d').HoldsBefore σ later ↔ s.HoldsBefore σ later ∧
      (later.any (Call.declares x.name) = true ∨ P) := by
  simp only [HoldsBefore, find?_setDomain]
  -- Here too the edges are the same, and only the domain of `x` is another.
  show (_ ∧ (∀ a b, s.equalities.hasEdge a b = true → _) ∧
    ∀ a b, s.inequalities.hasEdge a b = true → _) ↔ _
  rw [and_right_comm]
  refine and_congr_left fun _ => ?_
  constructor
  · intro h
    have hx := h x d' (if_pos rfl)
    rw [hd'] at hx
    refine ⟨fun y e he => ?_, hx.imp_right And.right⟩
    by_cases hname : y.name = x.name
    · rw [s.domains.find?_congr hname, hd] at he
      obtain rfl := Option.some.inj he
      rw [hname]
      exact hx.imp_right And.left
    · exact h y e ((if_neg hname).trans he)
  · intro h y e he
    by_cases hname : y.name = x.name
    · rw [if_pos hname] at he
      obtain rfl := Option.some.inj he
      rw [hname, hd']
      rcases h.1 x d hd with hlater | hmem
      · exact Or.inl hlater
      · exact h.2.imp_right fun hP => ⟨hmem, hP⟩
    · rw [if_neg hname] at he
      exact h.1 y e he

/-- A new edge adds one demand on the values at its ends. -/
theorem forall_hasEdge_insert {g h : Graph} {x y : Variable} (hgh : g.insert x y = .ok h)
    {R : Nat → Nat → Prop} (hR : ∀ m n, R m n → R n m) :
    (∀ a b, h.hasEdge a b = true → R (σ a.name) (σ b.name)) ↔
      (∀ a b, g.hasEdge a b = true → R (σ a.name) (σ b.name)) ∧ R (σ x.name) (σ y.name) := by
  simp only [Graph.hasEdge_insert hgh]
  constructor
  · intro hall
    exact ⟨fun a b hab => hall a b (Or.inl hab), hall x y (Or.inr (Or.inl ⟨rfl, rfl⟩))⟩
  · intro hall a b hab
    rcases hab with hold | ⟨ha, hb⟩ | ⟨ha, hb⟩
    · exact hall.1 a b hold
    · rw [ha, hb]
      exact hall.2
    · rw [ha, hb]
      exact hR _ _ hall.2

/-- Taking an equation adds the demand of that equation. -/
theorem holdsBefore_added {s s' : System} {e : Equation} (hs : s.WellFormed) (h : Added s e s') :
    s'.HoldsBefore σ later ↔ s.HoldsBefore σ later ∧ e.HoldsBefore σ later := by
  cases h with
  | @value x v isEquality d hd =>
    exact holdsBefore_setDomain hd (mem_narrowed (hs.canonical x d hd) v isEquality)
  | @equality x y g _ _ hg =>
    have hedge := forall_hasEdge_insert (σ := σ) hg (R := (· = ·)) fun _ _ hmn => hmn.symm
    show (_ ∧ _ ∧ _) ↔ (_ ∧ _ ∧ _) ∧ σ x.name = σ y.name
    rw [hedge]
    constructor
    · rintro ⟨hdomains, ⟨hedges, hnew⟩, hother⟩
      exact ⟨⟨hdomains, hedges, hother⟩, hnew⟩
    · rintro ⟨⟨hdomains, hedges, hother⟩, hnew⟩
      exact ⟨hdomains, ⟨hedges, hnew⟩, hother⟩
  | @inequality x y g _ _ hg =>
    have hedge := forall_hasEdge_insert (σ := σ) hg (R := (· ≠ ·)) fun _ _ hmn => hmn.symm
    show (_ ∧ _ ∧ _) ↔ (_ ∧ _ ∧ _) ∧ σ x.name ≠ σ y.name
    rw [hedge, and_assoc, and_assoc]

/-- A list of equations adds the demands of all of them, if none is refused. -/
theorem holdsBefore_addAll {s : System} {es : List Equation} (hs : s.WellFormed)
    (h : es.findSome? (Equation.cause? s.domains.names) = none) :
    (s.addAll es).state.HoldsBefore σ later ↔
      s.HoldsBefore σ later ∧ ∀ e ∈ es, e.HoldsBefore σ later := by
  induction es generalizing s with
  | nil => simp [addAll]
  | cons e rest ih =>
    rw [List.findSome?_eq_none_iff] at h
    obtain ⟨s', hok, hadded⟩ := added_of_cause?_eq_none (h e List.mem_cons_self)
    -- What could be said against the others goes by the names, and these stay the same.
    have hrest : rest.findSome? (Equation.cause? s'.domains.names) = none := by
      rw [List.findSome?_eq_none_iff, names_of_added hadded]
      exact fun e' he' => h e' (List.mem_cons_of_mem _ he')
    rw [addAll_cons_of_ok hok, ih (hs.add hadded) hrest, holdsBefore_added hs hadded, and_assoc,
      List.forall_mem_cons]

end BoundedEquations.System
