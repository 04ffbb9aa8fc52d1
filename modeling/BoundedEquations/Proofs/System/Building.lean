import BoundedEquations.Proofs.Domain.Algebra
import BoundedEquations.Proofs.Graph.Simple
import BoundedEquations.System.Basic

/-!
# `BoundedEquations.Proofs.System.Building`: which equations a system takes, and what it keeps

Whether an equation is taken depends on the declared names alone. `Equation.cause?` says why one is
refused, from these names and nothing else. `Added` is the inversion of `System.add`: it lists what
taking an equation can do, so no later proof opens `System.add` again. The theorems:

* `cause?_cases`: what can be said against an equation, in the order in which it is looked for.
* `add_of_cause?` and `added_of_cause?_eq_none`: an equation is refused just when there is a cause,
  and with that cause.
* `fault_addAll` and `addAll_eq_takeWhile`: a list of equations is added up to the first that is
  refused.
* `WellFormed.declare`, `WellFormed.add`: the invariant of a system, step by step.
* `names_of_added`: taking an equation declares nothing and forgets nothing.
-/

set_option autoImplicit false

namespace BoundedEquations

namespace Equation

/-- The names in an equation, the left one first. -/
def names (e : Equation) : List String :=
  match e.rhs with
  | .number _ => [e.lhs.name]
  | .var y => [e.lhs.name, y.name]

/-- The equation relates a variable to itself. -/
def IsReflexive (e : Equation) : Prop :=
  match e.rhs with
  | .number _ => False
  | .var y => e.lhs.name = y.name

/-- Whether an equation is reflexive is decided by its two names. -/
instance : (e : Equation) → Decidable e.IsReflexive
  | ⟨_, .number _, _⟩ => isFalse id
  | ⟨x, .var y, _⟩ => inferInstanceAs (Decidable (x.name = y.name))

/-- The equation is not fit for a system that declares these names. -/
def IsBad (declared : List String) (e : Equation) : Prop :=
  e.IsReflexive ∨ ∃ name ∈ e.names, name ∉ declared

/-- The fault of an equation between a variable and itself. It keeps both sides. -/
def reflexive? (e : Equation) : Option Fault :=
  match e.rhs with
  | .number _ => none
  | .var y => if e.lhs.name = y.name then some (.selfEquation e.lhs y) else none

/-- Why an equation is refused where only these names are declared. That both sides are the same
comes first, then the first name that is not declared. -/
def cause? (declared : List String) (e : Equation) : Option Fault :=
  e.reflexive?.or ((e.names.find? fun name => !declared.contains name).map .undeclared)

/-- The reflexive fault is that of a reflexive equation, and it keeps the two sides. -/
theorem reflexive?_eq_some_iff {e : Equation} {fault : Fault} :
    e.reflexive? = some fault ↔
      e.IsReflexive ∧ ∃ y, e.rhs = .var y ∧ fault = .selfEquation e.lhs y := by
  obtain ⟨x, rhs, isEquality⟩ := e
  cases rhs with
  | number v => exact iff_of_false (fun h => nomatch h) fun h => h.1
  | var y =>
    show (if x.name = y.name then _ else _) = _ ↔ x.name = y.name ∧ _
    split
    · rename_i hxy
      simp [hxy, eq_comm]
    · rename_i hxy
      simp [hxy]

/-- An equation without a reflexive fault is not reflexive. -/
theorem reflexive?_eq_none_iff {e : Equation} : e.reflexive? = none ↔ ¬e.IsReflexive := by
  rw [Option.eq_none_iff_forall_ne_some]
  constructor
  · intro h hreflexive
    obtain ⟨x, rhs, isEquality⟩ := e
    cases rhs with
    | number v => exact hreflexive
    | var y => exact h _ (reflexive?_eq_some_iff.mpr ⟨hreflexive, y, rfl, rfl⟩)
  · intro hreflexive fault hfault
    exact hreflexive (reflexive?_eq_some_iff.mp hfault).1

/-- Nothing speaks against an equation just when it is not bad. -/
theorem cause?_eq_none_iff {declared : List String} {e : Equation} :
    e.cause? declared = none ↔ ¬e.IsBad declared := by
  rw [cause?, IsBad, Option.or_eq_none_iff, reflexive?_eq_none_iff]
  simp

/-- The cause is the reflexive one, or else it is about the first name that is not declared. -/
theorem cause?_cases {declared : List String} {e : Equation} {fault : Fault}
    (h : e.cause? declared = some fault) :
    (e.IsReflexive ∧ ∃ y, e.rhs = .var y ∧ fault = .selfEquation e.lhs y) ∨
      (¬e.IsReflexive ∧ e.lhs.name ∉ declared ∧ fault = .undeclared e.lhs.name) ∨
      (¬e.IsReflexive ∧ e.lhs.name ∈ declared ∧
        ∃ y, e.rhs = .var y ∧ y.name ∉ declared ∧ fault = .undeclared y.name) := by
  rw [cause?, Option.or_eq_some_iff] at h
  rcases h with hfault | ⟨hnone, h⟩
  · exact Or.inl (reflexive?_eq_some_iff.mp hfault)
  · have hreflexive := reflexive?_eq_none_iff.mp hnone
    obtain ⟨name, hname, rfl⟩ := Option.map_eq_some_iff.mp h
    have hundeclared : name ∉ declared := by
      have hsome := List.find?_some hname
      simpa using hsome
    -- The left name comes first, so it is found unless it is declared.
    obtain ⟨rest, hnames⟩ : ∃ rest, e.names = e.lhs.name :: rest := by
      obtain ⟨x, rhs, isEquality⟩ := e
      cases rhs <;> exact ⟨_, rfl⟩
    by_cases hlhs : e.lhs.name ∈ declared
    · refine Or.inr (Or.inr ⟨hreflexive, hlhs, ?_⟩)
      have hmem := List.mem_of_find?_eq_some hname
      obtain ⟨x, rhs, isEquality⟩ := e
      cases rhs with
      | number v =>
        obtain rfl := List.mem_singleton.mp hmem
        exact absurd hlhs hundeclared
      | var y =>
        rcases List.mem_cons.mp hmem with rfl | hy
        · exact absurd hlhs hundeclared
        · obtain rfl := List.mem_singleton.mp hy
          exact ⟨y, rfl, hundeclared, rfl⟩
    · have hnot : (!declared.contains e.lhs.name) = true := by simpa using hlhs
      rw [hnames, List.find?_cons_of_pos (by exact hnot)] at hname
      obtain rfl := Option.some.inj hname
      exact Or.inr (Or.inl ⟨hreflexive, hlhs, rfl⟩)

/-- There is a cause against an equation just when it is bad. -/
theorem cause?_ne_none_iff {declared : List String} {e : Equation} :
    e.cause? declared ≠ none ↔ e.IsBad declared := by
  rw [Ne, cause?_eq_none_iff, Classical.not_not]

end Equation

/-- A list of computations none of which is refused. -/
theorem mapM_eq_ok {α β : Type} {f : α → Except Fault β} {g : α → β} {as : List α}
    (h : ∀ a ∈ as, f a = .ok (g a)) : as.mapM f = .ok (as.map g) := by
  induction as with
  | nil => rfl
  | cons a rest ih =>
    rw [List.mapM_cons, h a List.mem_cons_self, ih fun b hb => h b (List.mem_cons_of_mem _ hb)]
    rfl

namespace System

/-- Both graphs are simple and only relate declared variables, and the domains are canonical. -/
structure WellFormed (s : System) : Prop where
  equalities_simple : s.equalities.IsSimple
  inequalities_simple : s.inequalities.IsSimple
  equalities_declared : ∀ x y, s.equalities.hasEdge x y = true → s.domains.contains x = true
  inequalities_declared : ∀ x y, s.inequalities.hasEdge x y = true → s.domains.contains x = true
  canonical : ∀ x d, s.domains.find? x = some d → d.Canonical

/-- A domain is found just when it is recorded. -/
theorem domainOf_eq_ok_iff {s : System} {x : Variable} {d : Domain} :
    s.domainOf x = .ok d ↔ s.domains.find? x = some d := by
  rw [domainOf]
  cases s.domains.find? x with
  | none => exact iff_of_false (fun h => nomatch h) (fun h => nomatch h)
  | some c => rw [Except.ok.injEq, Option.some.injEq]

/-- The look-up of a name that is not declared is a fault. -/
theorem domainOf_of_notMem {s : System} {x : Variable} (h : x.name ∉ s.domains.names) :
    s.domainOf x = .error (.undeclared x.name) := by
  rw [Table.mem_names_iff_contains, Table.contains_iff_exists, not_exists] at h
  rw [domainOf, Option.eq_none_iff_forall_ne_some.mpr h]

/-- The look-up of a declared name succeeds. -/
theorem exists_domainOf {s : System} {x : Variable} (h : x.name ∈ s.domains.names) :
    ∃ d, s.domains.find? x = some d ∧ s.domainOf x = .ok d := by
  obtain ⟨d, hd⟩ := Table.contains_iff_exists.mp (Table.mem_names_iff_contains.mp h)
  exact ⟨d, hd, domainOf_eq_ok_iff.mpr hd⟩

/-- The left end of an equality is declared, and so is the right one. -/
theorem WellFormed.equalities_endpoints {s : System} (hs : s.WellFormed) {x y : Variable}
    (hxy : s.equalities.hasEdge x y = true) :
    s.domains.contains x = true ∧ s.domains.contains y = true :=
  ⟨hs.equalities_declared x y hxy,
    hs.equalities_declared y x (hs.equalities_simple.symmetric x y hxy)⟩

/-- The left end of an inequality is declared, and so is the right one. -/
theorem WellFormed.inequalities_endpoints {s : System} (hs : s.WellFormed) {x y : Variable}
    (hxy : s.inequalities.hasEdge x y = true) :
    s.domains.contains x = true ∧ s.domains.contains y = true :=
  ⟨hs.inequalities_declared x y hxy,
    hs.inequalities_declared y x (hs.inequalities_simple.symmetric x y hxy)⟩

/-! ### Replacing a domain -/

/-- A replaced domain is found under its name, and the others are as they were. -/
theorem find?_setDomain (s : System) (x : Variable) (d : Domain) (y : Variable) :
    (s.setDomain x d).domains.find? y = if y.name = x.name then some d else s.domains.find? y :=
  Table.find?_insert _ _ _ _

/-- Another domain for a variable keeps the invariant, if that domain is canonical. -/
theorem WellFormed.setDomain {s : System} (hs : s.WellFormed) {x : Variable} {d : Domain}
    (hd : d.Canonical) : (s.setDomain x d).WellFormed where
  equalities_simple := hs.equalities_simple
  inequalities_simple := hs.inequalities_simple
  equalities_declared a b hab := Table.contains_insert.mpr (Or.inr (hs.equalities_declared a b hab))
  inequalities_declared a b hab :=
    Table.contains_insert.mpr (Or.inr (hs.inequalities_declared a b hab))
  canonical y e he := by
    rw [find?_setDomain] at he
    split at he
    · obtain rfl := Option.some.inj he
      exact hd
    · exact hs.canonical y e he

/-- A declared variable has a full domain, and the others are as they were. -/
theorem find?_declare (s : System) (x y : Variable) :
    (s.declare x).domains.find? y
      = if y.name = x.name then some (.full x.width) else s.domains.find? y :=
  find?_setDomain _ _ _ _

/-- A declaration keeps a system well-formed. -/
theorem WellFormed.declare {s : System} (hs : s.WellFormed) (x : Variable) :
    (s.declare x).WellFormed :=
  hs.setDomain (Domain.canonical_full _)

/-! ### Taking one equation -/

/-- What taking an equation can do. -/
inductive Added (s : System) : Equation → System → Prop
  | value {x : Variable} {v : Nat} {isEquality : Bool} {d : Domain}
      (hd : s.domains.find? x = some d) :
      Added s ⟨x, .number v, isEquality⟩
        (s.setDomain x (if isEquality then d ∩ .singleton v else d \ .singleton v))
  | equality {x y : Variable} {g : Graph} (hx : s.domains.contains x = true)
      (hy : s.domains.contains y = true) (hg : s.equalities.insert x y = .ok g) :
      Added s ⟨x, .var y, true⟩ { s with equalities := g }
  | inequality {x y : Variable} {g : Graph} (hx : s.domains.contains x = true)
      (hy : s.domains.contains y = true) (hg : s.inequalities.insert x y = .ok g) :
      Added s ⟨x, .var y, false⟩ { s with inequalities := g }

/-- An equation with a cause against it is refused for that cause. -/
theorem add_of_cause? {s : System} {e : Equation} {fault : Fault}
    (h : e.cause? s.domains.names = some fault) : s.add e = .error fault := by
  obtain ⟨x, rhs, isEquality⟩ := e
  rcases Equation.cause?_cases h with
    ⟨hreflexive, y, rfl, rfl⟩ | ⟨hreflexive, hx, rfl⟩ | ⟨hreflexive, hx, y, hy, hundeclared, rfl⟩
  · -- The two sides are compared before anything is looked up.
    show s.addVars x y isEquality = _
    rw [addVars, if_pos (Variable.beq_iff.mpr hreflexive)]
    rfl
  · cases rhs with
    | number v =>
      show s.addValue x v isEquality = _
      rw [addValue, domainOf_of_notMem hx]
      rfl
    | var y =>
      show s.addVars x y isEquality = _
      rw [addVars, if_neg fun heq => hreflexive (Variable.beq_iff.mp heq), domainOf_of_notMem hx]
      rfl
  · -- The left name is declared, so it is the look-up of the right one that fails.
    obtain rfl : rhs = .var y := hy
    obtain ⟨d, _, hd⟩ := exists_domainOf hx
    show s.addVars x y isEquality = _
    rw [addVars, if_neg fun heq => hreflexive (Variable.beq_iff.mp heq), hd,
      domainOf_of_notMem hundeclared]
    rfl

/-- An equation without a cause against it is taken. -/
theorem added_of_cause?_eq_none {s : System} {e : Equation}
    (h : e.cause? s.domains.names = none) : ∃ s', s.add e = .ok s' ∧ Added s e s' := by
  have hgood := Equation.cause?_eq_none_iff.mp h
  rw [Equation.IsBad, not_or, not_exists] at hgood
  obtain ⟨hreflexive, hdeclared⟩ := hgood
  have hnames : ∀ name ∈ e.names, name ∈ s.domains.names := fun name hname =>
    Classical.not_not.mp fun hnot => hdeclared name ⟨hname, hnot⟩
  obtain ⟨x, rhs, isEquality⟩ := e
  cases rhs with
  | number v =>
    obtain ⟨d, hfind, hd⟩ := exists_domainOf (hnames x.name List.mem_cons_self)
    refine ⟨_, ?_, .value hfind⟩
    show s.addValue x v isEquality = _
    rw [addValue, hd]
    rfl
  | var y =>
    have hxmem := hnames x.name List.mem_cons_self
    have hymem := hnames y.name (List.mem_cons_of_mem _ List.mem_cons_self)
    obtain ⟨dx, hfindx, hdx⟩ := exists_domainOf hxmem
    obtain ⟨dy, hfindy, hdy⟩ := exists_domainOf hymem
    have hx := Table.mem_names_iff_contains.mp hxmem
    have hy := Table.mem_names_iff_contains.mp hymem
    -- All look-ups succeed, and what is left to do is to add an edge to one of the graphs.
    have hadd : s.add ⟨x, .var y, isEquality⟩
        = if isEquality then return { s with equalities := ← s.equalities.insert x y }
          else return { s with inequalities := ← s.inequalities.insert x y } := by
      show s.addVars x y isEquality = _
      rw [addVars, if_neg fun heq => hreflexive (Variable.beq_iff.mp heq), hdx, hdy]
      rfl
    rw [hadd]
    cases isEquality with
    | true =>
      have hg := Graph.insert_eq_ok (g := s.equalities) hreflexive
      refine ⟨_, ?_, .equality hx hy hg⟩
      rw [if_pos rfl, hg]
      rfl
    | false =>
      have hg := Graph.insert_eq_ok (g := s.inequalities) hreflexive
      refine ⟨_, ?_, .inequality hx hy hg⟩
      rw [if_neg Bool.false_ne_true, hg]
      rfl

/-- Every equation that is taken does one of these things. -/
theorem added_of_add {s s' : System} {e : Equation} (h : s.add e = .ok s') : Added s e s' := by
  cases hcause : e.cause? s.domains.names with
  | some fault => exact nomatch h.symm.trans (add_of_cause? hcause)
  | none =>
    obtain ⟨s'', hok, hadded⟩ := added_of_cause?_eq_none hcause
    obtain rfl := Except.ok.inj (h.symm.trans hok)
    exact hadded

/-- Taking an equation declares nothing and forgets nothing. -/
theorem names_of_added {s s' : System} {e : Equation} (h : Added s e s') :
    s'.domains.names = s.domains.names := by
  cases h with
  | value hd => exact Table.names_insert_of_contains (Table.contains_iff_exists.mpr ⟨_, hd⟩) _
  | equality _ _ _ => rfl
  | inequality _ _ _ => rfl

/-- An equation with a number keeps the values that it allows. -/
theorem mem_narrowed {d : Domain} (hd : d.Canonical) (w : Nat) (isEquality : Bool) {v : Nat} :
    v ∈ (if isEquality then d ∩ .singleton w else d \ .singleton w) ↔
      v ∈ d ∧ if isEquality then v = w else v ≠ w := by
  cases isEquality with
  | true =>
    show v ∈ d ∩ Domain.singleton w ↔ v ∈ d ∧ v = w
    rw [Domain.mem_inter hd (Domain.canonical_singleton w), Domain.mem_singleton]
  | false =>
    show v ∈ d \ Domain.singleton w ↔ v ∈ d ∧ v ≠ w
    rw [Domain.mem_sdiff, Domain.mem_singleton]

/-- A domain that an equation narrows stays canonical. -/
theorem canonical_narrowed {d : Domain} (hd : d.Canonical) (w : Nat) (isEquality : Bool) :
    (if isEquality then d ∩ .singleton w else d \ .singleton w).Canonical := by
  cases isEquality with
  | true => exact Domain.canonical_inter hd (Domain.canonical_singleton w)
  | false => exact Domain.canonical_sdiff _ hd

/-- Taking an equation never gives a variable a value that it did not have. -/
theorem mem_of_added {s s' : System} {e : Equation} (hs : s.WellFormed) (h : Added s e s')
    {x : Variable} {d' : Domain} (hd' : s'.domains.find? x = some d') :
    ∃ d, s.domains.find? x = some d ∧ ∀ v ∈ d', v ∈ d := by
  cases h with
  | @value y w isEquality d hd =>
    rw [find?_setDomain] at hd'
    split at hd'
    · rename_i hname
      obtain rfl := Option.some.inj hd'
      -- This is the variable that the equation is about, and its domain has been narrowed.
      refine ⟨d, (s.domains.find?_congr hname).trans hd, ?_⟩
      intro v hv
      exact ((mem_narrowed (hs.canonical y d hd) w isEquality).mp hv).1
    · exact ⟨d', hd', fun v hv => hv⟩
  | equality _ _ _ => exact ⟨d', hd', fun v hv => hv⟩
  | inequality _ _ _ => exact ⟨d', hd', fun v hv => hv⟩

/-- The ends of a new edge are declared, and so are those of the old edges. -/
theorem contains_of_hasEdge_insert {t : Table Domain} {g h : Graph} {x y : Variable}
    (hx : t.contains x = true) (hy : t.contains y = true)
    (hg : ∀ a b, g.hasEdge a b = true → t.contains a = true) (hgh : g.insert x y = .ok h)
    (a b : Variable) (hab : h.hasEdge a b = true) : t.contains a = true := by
  rcases (Graph.hasEdge_insert hgh a b).mp hab with hold | ⟨ha, _⟩ | ⟨ha, _⟩
  · exact hg a b hold
  · rw [t.contains_congr ha]
    exact hx
  · rw [t.contains_congr ha]
    exact hy

/-- Taking an equation keeps a system well-formed. -/
theorem WellFormed.add {s s' : System} {e : Equation} (hs : s.WellFormed) (h : Added s e s') :
    s'.WellFormed := by
  cases h with
  | @value x v isEquality d hd =>
    exact hs.setDomain (canonical_narrowed (hs.canonical x d hd) v isEquality)
  | equality hx hy hg =>
    exact ⟨Graph.isSimple_insert hs.equalities_simple hg, hs.inequalities_simple,
      contains_of_hasEdge_insert hx hy hs.equalities_declared hg, hs.inequalities_declared,
      hs.canonical⟩
  | inequality hx hy hg =>
    exact ⟨hs.equalities_simple, Graph.isSimple_insert hs.inequalities_simple hg,
      hs.equalities_declared, contains_of_hasEdge_insert hx hy hs.inequalities_declared hg,
      hs.canonical⟩

/-- The system without variables is well-formed. -/
theorem wellFormed_empty : empty.WellFormed where
  equalities_simple := Graph.isSimple_empty
  inequalities_simple := Graph.isSimple_empty
  equalities_declared _ _ h := nomatch h
  inequalities_declared _ _ h := nomatch h
  canonical _ _ h := nomatch h

/-! ### Adding a list of equations -/

/-- An equation that is taken is followed by the rest of the list. -/
theorem addAll_cons_of_ok {s s' : System} {e : Equation} (h : s.add e = .ok s')
    (es : List Equation) : s.addAll (e :: es) = s'.addAll es := by
  rw [addAll, h]

/-- An equation that is refused is the end of the list. -/
theorem addAll_cons_of_error {s : System} {e : Equation} {fault : Fault}
    (h : s.add e = .error fault) (es : List Equation) :
    s.addAll (e :: es) = ⟨s, some fault, []⟩ := by
  rw [addAll, h]

/-- What every taken equation keeps is kept by a list of equations, also when one is refused. -/
theorem addAll_induction {P : System → Prop}
    (hstep : ∀ s s' e, P s → Added s e s' → P s') (es : List Equation) {s : System} (hs : P s) :
    P (s.addAll es).state := by
  induction es generalizing s with
  | nil => exact hs
  | cons e rest ih =>
    cases hadd : s.add e with
    | ok s' =>
      rw [addAll_cons_of_ok hadd]
      exact ih (hstep s s' e hs (added_of_add hadd))
    | error fault =>
      -- The refused equation ends the list, and the system is as it was before it.
      rw [addAll_cons_of_error hadd]
      exact hs

/-- Adding equations declares nothing and forgets nothing. -/
theorem names_addAll (s : System) (es : List Equation) :
    (s.addAll es).state.domains.names = s.domains.names :=
  addAll_induction (P := fun t => t.domains.names = s.domains.names)
    (fun _ _ _ hs h => (names_of_added h).trans hs) es rfl

/-- Adding equations keeps a system well-formed, also if one of them is refused. -/
theorem WellFormed.addAll {s : System} (hs : s.WellFormed) (es : List Equation) :
    (s.addAll es).state.WellFormed :=
  addAll_induction (fun _ _ _ hs h => hs.add h) es hs

/-- A list of equations is refused for the first cause among its members. -/
theorem fault_addAll (s : System) (es : List Equation) :
    (s.addAll es).fault = es.findSome? (Equation.cause? s.domains.names) := by
  induction es generalizing s with
  | nil => rfl
  | cons e rest ih =>
    cases hcause : e.cause? s.domains.names with
    | some fault =>
      rw [addAll_cons_of_error (add_of_cause? hcause),
        List.findSome?_cons_of_isSome (by rw [hcause]; rfl), hcause]
    | none =>
      obtain ⟨s', hok, hadded⟩ := added_of_cause?_eq_none hcause
      -- The names are the same for the rest, so the causes against it are the same too.
      rw [addAll_cons_of_ok hok, List.findSome?_cons_of_isNone (by rw [hcause]; rfl),
        ← names_of_added hadded]
      exact ih s'

/-- After a refusal the members before the refused one have been added, and no others. -/
theorem addAll_eq_takeWhile (s : System) (es : List Equation) :
    (s.addAll es).state
      = (s.addAll (es.takeWhile fun e => (e.cause? s.domains.names).isNone)).state := by
  induction es generalizing s with
  | nil => rfl
  | cons e rest ih =>
    cases hcause : e.cause? s.domains.names with
    | some fault =>
      rw [List.takeWhile_cons_of_neg (by rw [hcause]; exact Bool.false_ne_true),
        addAll_cons_of_error (add_of_cause? hcause)]
      rfl
    | none =>
      obtain ⟨s', hok, hadded⟩ := added_of_cause?_eq_none hcause
      rw [List.takeWhile_cons_of_pos (by rw [hcause]; rfl), addAll_cons_of_ok hok,
        addAll_cons_of_ok hok, ← names_of_added hadded]
      exact ih s'

end System

end BoundedEquations
