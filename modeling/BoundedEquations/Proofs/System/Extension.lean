import BoundedEquations.Proofs.System.Building

/-!
# `BoundedEquations.Proofs.System.Extension`: what a list of equations adds to a system

An equation with a number allows some values of its variable, and an equation between variables
links them. What a system becomes by a list of equations is described by these two notions alone:
`Extends` says which values are left and which edges there are, and it does not mention the order
of the equations. The theorems:

* `Added.extends`: what one equation adds.
* `Extends.trans`: lists of equations add up.
* `extends_addAll`: what a list of equations adds, if none of them is refused.
-/

set_option autoImplicit false

namespace BoundedEquations

namespace Equation

/-- The equation allows `x` the value `v`: where it compares `x` with a number, it holds for `v`. -/
def Allows (x : Variable) (v : Nat) (e : Equation) : Prop :=
  match e.rhs with
  | .number w => e.lhs.name = x.name → (e.isEquality = true ↔ v = w)
  | .var _ => True

/-- The equation relates the two variables, whichever of them comes first, by an equality or by an
inequality. -/
def Links (isEquality : Bool) (x y : Variable) (e : Equation) : Prop :=
  match e.rhs with
  | .number _ => False
  | .var z => e.isEquality = isEquality ∧
      ((e.lhs.name = x.name ∧ z.name = y.name) ∨ (e.lhs.name = y.name ∧ z.name = x.name))

end Equation

namespace System

/-- The graph of the equalities, or that of the inequalities. -/
def graph (s : System) (isEquality : Bool) : Graph :=
  if isEquality then s.equalities else s.inequalities

/-- The system `t` is what some equations make of `s`, in whatever order they come. -/
structure Extends (s : System) (es : List Equation) (t : System) : Prop where
  keys : t.domains.keys = s.domains.keys
  domains : ∀ x d, s.domains.find? x = some d → ∃ d', t.domains.find? x = some d' ∧
    ∀ v, v ∈ d' ↔ v ∈ d ∧ ∀ e ∈ es, e.Allows x v
  edges : ∀ isEquality x y, (t.graph isEquality).hasEdge x y = true ↔
    (s.graph isEquality).hasEdge x y = true ∨ ∃ e ∈ es, e.Links isEquality x y

variable {s t u : System} {es fs : List Equation}

/-- Without equations a system is as it was. -/
theorem extends_nil (s : System) : s.Extends [] s where
  keys := rfl
  domains x d hd := ⟨d, hd, fun v => by simp⟩
  edges isEquality x y := by simp

/-- First some equations and then some others. -/
theorem Extends.trans (hst : s.Extends es t) (htu : t.Extends fs u) : s.Extends (es ++ fs) u where
  keys := htu.keys.trans hst.keys
  domains x d hd := by
    obtain ⟨d', hd', hmem⟩ := hst.domains x d hd
    obtain ⟨d'', hd'', hmem'⟩ := htu.domains x d' hd'
    refine ⟨d'', hd'', fun v => ?_⟩
    rw [hmem' v, hmem v, and_assoc, List.forall_mem_append]
  edges isEquality x y := by
    rw [htu.edges, hst.edges, or_assoc]
    simp only [List.mem_append, or_and_right, exists_or]

/-- A new edge links its two ends. -/
theorem hasEdge_insert_iff_links {g h : Graph} {x y : Variable} (isEquality : Bool)
    (hgh : g.insert x y = .ok h) (a b : Variable) :
    h.hasEdge a b = true ↔
      g.hasEdge a b = true ∨ (Equation.ofVars x y isEquality).Links isEquality a b := by
  rw [Graph.hasEdge_insert hgh, Equation.Links, Equation.ofVars]
  simp only [true_and, eq_comm, and_comm]

/-- What one equation adds. -/
theorem Added.extends {e : Equation} (hs : s.WellFormed) (h : Added s e t) :
    s.Extends [e] t := by
  cases h with
  | @value x w isEquality d hd =>
    refine ⟨Table.keys_insert_of_contains (Table.contains_iff_exists.mpr ⟨d, hd⟩) _,
      fun y c hc => ?_, fun kind a b => ?_⟩
    · rw [find?_setDomain]
      by_cases hname : y.name = x.name
      · rw [s.domains.find?_congr hname, hd] at hc
        obtain rfl := Option.some.inj hc
        refine ⟨_, if_pos hname, fun v => ?_⟩
        rw [mem_narrowed (hs.canonical x d hd)]
        cases isEquality <;> simp [Equation.Allows, hname]
      · exact ⟨c, (if_neg hname).trans hc, fun v => by simp [Equation.Allows, Ne.symm hname]⟩
    · show (s.graph kind).hasEdge a b = true ↔ _
      simp [Equation.Links]
  | @equality x y g _ _ hg =>
    refine ⟨rfl, fun z d hd => ⟨d, hd, fun v => by simp [Equation.Allows]⟩, fun kind a b => ?_⟩
    cases kind with
    | true =>
      show g.hasEdge a b = true ↔ s.equalities.hasEdge a b = true ∨ _
      rw [hasEdge_insert_iff_links true hg]
      simp [Equation.ofVars]
    | false =>
      show s.inequalities.hasEdge a b = true ↔ _
      simp [Equation.Links, graph]
  | @inequality x y g _ _ hg =>
    refine ⟨rfl, fun z d hd => ⟨d, hd, fun v => by simp [Equation.Allows]⟩, fun kind a b => ?_⟩
    cases kind with
    | false =>
      show g.hasEdge a b = true ↔ s.inequalities.hasEdge a b = true ∨ _
      rw [hasEdge_insert_iff_links false hg]
      simp [Equation.ofVars]
    | true =>
      show s.equalities.hasEdge a b = true ↔ _
      simp [Equation.Links, graph]

/-- What a list of equations adds, if there is nothing to be said against any of them. -/
theorem extends_addAll (hs : s.WellFormed)
    (h : ∀ e ∈ es, e.cause? s.domains.names = none) : s.Extends es (s.addAll es).state := by
  induction es generalizing s with
  | nil => exact extends_nil s
  | cons e rest ih =>
    obtain ⟨s', hok, hadded⟩ := added_of_cause?_eq_none (h e List.mem_cons_self)
    -- What could be said against the others goes by the names, and these stay the same.
    have hrest : ∀ e' ∈ rest, e'.cause? s'.domains.names = none := by
      rw [names_of_added hadded]
      exact fun e' he' => h e' (List.mem_cons_of_mem _ he')
    rw [addAll_cons_of_ok hok]
    exact (hadded.extends hs).trans (ih (hs.add hadded) hrest)

end System

end BoundedEquations
