import BoundedEquations.Proofs.Problem.Alternatives

/-!
# `BoundedEquations.Proofs.Problem.Refusal`: which calls are refused, and what they leave behind

A call is refused for the first bad equation that it mentions. All leaves declare the same names, so
the first leaf refuses whatever any leaf would refuse. It follows that no other leaf has changed by
then. The theorems:

* `complaint_of_cause?`: what is said of a bad equation.
* `fault_apply`, `fault_apply_ne_none_iff`: whether a problem refuses a call, and with which fault.
* `state_apply_of_leftover_eq`: a call that leaves each single system alone leaves the tree alone.
* `leaves_apply_of_refused`, `apply_of_first_bad`: a refused call can only have changed the first
  leaf, and it has done so up to the first bad member.
* `Reachable.refusal`: all of this for every problem that can arise.
-/

set_option autoImplicit false

namespace BoundedEquations

namespace Equation

/-- What is said of a bad equation. That both sides are the same is reported first, and both sides
are kept with the widths they have in the equation. Then comes the left name, then the right one. -/
def Complaint (declared : List String) (e : Equation) (fault : Fault) : Prop :=
  (e.IsReflexive ∧ fault.message = s!"Equation relates variable {e.lhs.name} to itself" ∧
      ∃ y, e.rhs = .var y ∧ fault = .selfEquation e.lhs y) ∨
    (¬e.IsReflexive ∧ e.lhs.name ∉ declared ∧ fault = .undeclared e.lhs.name ∧
      fault.message = s!"Variable {e.lhs.name} has not been declared") ∨
    (¬e.IsReflexive ∧ e.lhs.name ∈ declared ∧ ∃ y, e.rhs = .var y ∧ y.name ∉ declared ∧
      fault = .undeclared y.name ∧ fault.message = s!"Variable {y.name} has not been declared")

/-- The cause against an equation is what is said of it. -/
theorem complaint_of_cause? {declared : List String} {e : Equation} {fault : Fault}
    (h : e.cause? declared = some fault) : e.Complaint declared fault := by
  rcases cause?_cases h with ⟨hreflexive, y, hy, rfl⟩ | ⟨hreflexive, hlhs, rfl⟩ |
    ⟨hreflexive, hlhs, y, hy, hundeclared, rfl⟩
  · exact Or.inl ⟨hreflexive, rfl, y, hy, rfl⟩
  · exact Or.inr (Or.inl ⟨hreflexive, hlhs, rfl, rfl⟩)
  · exact Or.inr (Or.inr ⟨hreflexive, hlhs, y, hy, hundeclared, rfl, rfl⟩)

end Equation

namespace System

/-- Good equations are taken one by one, which is the same as adding them all. -/
theorem takes_equations {s : System} {es : List Equation}
    (h : ∀ e ∈ es, e.cause? s.domains.names = none) :
    s.Takes (es.map .equation) ∧ (es.map .equation).foldl step s = (s.addAll es).state := by
  induction es generalizing s with
  | nil => exact ⟨trivial, rfl⟩
  | cons e rest ih =>
    have he := h e List.mem_cons_self
    obtain ⟨s', hok, hadded⟩ := added_of_cause?_eq_none he
    have hstep : s.step (.equation e) = s' := by
      show (s.addAll [e]).state = s'
      rw [addAll_cons_of_ok hok]
      rfl
    -- The system after the first equation declares the same names, so the rest stays good.
    obtain ⟨htakes, hfold⟩ := ih (s := s') fun e' he' => by
      rw [names_of_added hadded]
      exact h e' (List.mem_cons_of_mem _ he')
    refine ⟨⟨id, ?_, ?_⟩, ?_⟩
    · show [e].findSome? (Equation.cause? s.domains.names) = none
      rw [List.findSome?_singleton, he]
    · rw [hstep]
      exact htakes
    · rw [List.map_cons, List.foldl_cons, hstep, addAll_cons_of_ok hok]
      exact hfold

/-- The members from the first bad one on make no difference. -/
theorem addAll_append_of_bad {s : System} {before : List Equation} {e : Equation}
    (hbefore : ∀ e' ∈ before, e'.cause? s.domains.names = none)
    (he : e.cause? s.domains.names ≠ none) (after : List Equation) :
    (s.addAll (before ++ e :: after)).state = (s.addAll before).state := by
  have hgood : ∀ e' ∈ before, (e'.cause? s.domains.names).isNone = true := by
    intro e' he'
    rw [hbefore e' he']
    rfl
  have hstop : ¬(e.cause? s.domains.names).isNone = true := by
    rw [Option.isNone_iff_eq_none]
    exact he
  rw [addAll_eq_takeWhile, List.takeWhile_append_of_pos hgood,
    List.takeWhile_cons_of_neg (by exact hstop), List.append_nil]

/-- A single equation is added or not, and nothing is left of it if it is not. -/
theorem leftover_equation {s : System} {e : Equation} (he : e.cause? s.domains.names ≠ none) :
    s.leftover (.equation e) = s := by
  show (s.addAll ([] ++ e :: [])).state = (s.addAll []).state
  exact addAll_append_of_bad (fun _ h => absurd h List.not_mem_nil) he []

end System

namespace Problem

open CaseTree

variable {p : Problem} {declared : List String}

/-! ### Refusals by a tree -/

/-- A problem refuses a call for the first cause among its equations. -/
theorem fault_apply (h : p.tree.Sound declared) (call : Call) :
    (p.apply call).fault = call.cause? declared := by
  rcases Sound.apply_cases h call with ⟨hcause, hfault, _⟩ | ⟨fault, hcause, hfault, _⟩
  · rw [hfault, hcause]
  · rw [hfault, hcause]

/-- A call is refused just when it mentions a bad equation. -/
theorem fault_apply_ne_none_iff (h : p.tree.Sound declared) (call : Call) :
    (p.apply call).fault ≠ none ↔ ∃ e ∈ call.equations, e.IsBad declared := by
  rw [fault_apply h, Call.cause?, Ne, List.findSome?_eq_none_iff]
  simp only [← Equation.cause?_ne_none_iff, Classical.not_forall, exists_prop, Ne]

/-- A refused call can only have changed the first leaf. -/
theorem tree_apply_of_refused (h : p.tree.Sound declared) {call : Call}
    (hrefused : (p.apply call).fault ≠ none) :
    (p.apply call).state.tree = p.tree.graftFirst fun s => .leaf (s.leftover call) := by
  rcases Sound.apply_cases h call with ⟨_, hfault, _⟩ | ⟨_, _, _, htree⟩
  · exact absurd hfault hrefused
  · exact htree

/-- A refused call that leaves each single system as it is leaves the whole problem as it is. -/
theorem state_apply_of_leftover_eq (h : p.tree.Sound declared) {call : Call}
    (hrefused : (p.apply call).fault ≠ none) (hsame : ∀ s ∈ p.tree.leaves, s.leftover call = s) :
    (p.apply call).state = p := by
  have htree := tree_apply_of_refused h hrefused
  obtain ⟨depth, hbalanced⟩ := h.balanced
  obtain ⟨s, others, hleaves⟩ := List.exists_cons_of_ne_nil hbalanced.leaves_ne_nil
  have hs : CaseTree.leaf (s.leftover call) = .leaf s := by
    rw [hsame s (hleaves ▸ List.mem_cons_self)]
  rw [hbalanced.graftFirst_congr hleaves hs, graftFirst_leaf] at htree
  have hconfig : (p.apply call).state.config = p.config := config_run p [call]
  -- Tree and configuration are the whole problem.
  generalize (p.apply call).state = q at htree hconfig
  obtain ⟨c, t⟩ := p
  obtain ⟨c', t'⟩ := q
  obtain rfl : t' = t := htree
  obtain rfl : c' = c := hconfig
  rfl

/-- A refused call changes the first leaf at most, and keeps the shape of the tree. -/
theorem leaves_apply_of_refused (h : p.tree.Sound declared) {call : Call}
    (hrefused : (p.apply call).fault ≠ none) :
    (p.apply call).state.tree.shape = p.tree.shape ∧
      ∃ s others, p.tree.leaves = s :: others ∧
        (p.apply call).state.tree.leaves = s.leftover call :: others := by
  rw [tree_apply_of_refused h hrefused]
  obtain ⟨depth, hbalanced⟩ := h.balanced
  obtain ⟨s, others, hleaves⟩ := List.exists_cons_of_ne_nil hbalanced.leaves_ne_nil
  exact ⟨shape_graftFirst _ _, s, others, hleaves,
    hbalanced.leaves_graftFirst hleaves fun s => s.leftover call⟩

/-- Up to the first bad member, adding the members of a set is a list of accepted calls. -/
theorem leftover_of_first_bad {s : System} {set : EquationSet} (hset : ¬set.IsChoice)
    {before after : List Equation} {e : Equation} (heq : set.equations = before ++ e :: after)
    (hbefore : ∀ e' ∈ before, ¬e'.IsBad s.domains.names) (he : e.IsBad s.domains.names) :
    s.Takes (before.map .equation) ∧
      s.leftover (.equationSet set) = (before.map .equation).foldl System.step s := by
  have hgood : ∀ e' ∈ before, e'.cause? s.domains.names = none := fun e' he' =>
    Equation.cause?_eq_none_iff.mpr (hbefore e' he')
  obtain ⟨htakes, hfold⟩ := System.takes_equations hgood
  refine ⟨htakes, ?_⟩
  rw [System.leftover, if_neg (show ¬(Call.equationSet set).IsChoice from hset), hfold]
  show (s.addAll set.equations).state = _
  rw [heq]
  exact System.addAll_append_of_bad hgood (Equation.cause?_ne_none_iff.mpr he) after

/-- A set that asks for no choice changes the first leaf up to the first bad member, and nothing
else. -/
theorem apply_of_first_bad (h : p.tree.Sound declared) {set : EquationSet} (hset : ¬set.IsChoice)
    {before after : List Equation} {e : Equation} (heq : set.equations = before ++ e :: after)
    (hbefore : ∀ e' ∈ before, ¬e'.IsBad declared) (he : e.IsBad declared) :
    (p.apply (.equationSet set)).state.tree.shape = p.tree.shape ∧
      (p.apply (.equationSet set)).state.config = p.config ∧
      ∃ first others, p.leaves = first :: others ∧ first.Accepts (before.map .equation) ∧
        (p.apply (.equationSet set)).state.leaves
          = first.run (before.map .equation) :: others := by
  have hmem : e ∈ (Call.equationSet set).equations := by
    show e ∈ set.equations
    rw [heq]
    exact List.mem_append_right _ List.mem_cons_self
  obtain ⟨hshape, s, others, hleaves, hafter⟩ :=
    leaves_apply_of_refused h ((fault_apply_ne_none_iff h _).mpr ⟨e, hmem, he⟩)
  have hconfig : (p.apply (.equationSet set)).state.config = p.config :=
    config_run p [.equationSet set]
  rw [← h.names s (hleaves ▸ List.mem_cons_self)] at hbefore he
  obtain ⟨htakes, hleftover⟩ := leftover_of_first_bad hset heq hbefore he
  -- As a problem of its own, the first leaf would have taken the good members one by one.
  obtain ⟨haccepts, hrun⟩ := run_of_takes p.config htakes
  refine ⟨hshape, hconfig, ⟨p.config, .leaf s⟩, others.map fun s => ⟨p.config, .leaf s⟩,
    ?_, haccepts, ?_⟩
  · rw [leaves, hleaves]
    rfl
  · rw [leaves, hafter, hleftover, hrun, hconfig]
    rfl

/-- The calls that a problem refuses, and what they leave behind. The names are those that are
declared in each leaf. -/
structure Refusal (p : Problem) (declared : List String) : Prop where
  /-- There are leaves, and each of them declares these names. -/
  names : p.leaves ≠ [] ∧ ∀ q ∈ p.leaves, q.declared.map Variable.name = declared
  /-- An equation is refused just when it is bad, and then nothing changes. -/
  equation : ∀ e, ((p.apply (.equation e)).fault ≠ none ↔ e.IsBad declared) ∧
    ((p.apply (.equation e)).fault ≠ none → (p.apply (.equation e)).state = p)
  /-- A choice is refused just when some member is bad, and then nothing changes. -/
  choice : ∀ set : EquationSet, set.IsChoice →
    ((p.apply (.equationSet set)).fault ≠ none ↔ ∃ e ∈ set.equations, e.IsBad declared) ∧
    ((p.apply (.equationSet set)).fault ≠ none → (p.apply (.equationSet set)).state = p)
  /-- Any other set is refused just when some member is bad. Then the members before the first bad
  one have been added to the first leaf, and nothing else has changed. -/
  other : ∀ set : EquationSet, ¬set.IsChoice →
    ((p.apply (.equationSet set)).fault ≠ none ↔ ∃ e ∈ set.equations, e.IsBad declared) ∧
    ∀ before e after, set.equations = before ++ e :: after →
      (∀ e' ∈ before, ¬e'.IsBad declared) → e.IsBad declared →
      (p.apply (.equationSet set)).state.tree.shape = p.tree.shape ∧
      (p.apply (.equationSet set)).state.config = p.config ∧
      ∃ first others, p.leaves = first :: others ∧ first.Accepts (before.map .equation) ∧
        (p.apply (.equationSet set)).state.leaves
          = first.run (before.map .equation) :: others
  /-- The message is that of the first bad equation. -/
  message : ∀ (call : Call) (before : List Equation) (e : Equation) (after : List Equation),
    call.equations = before ++ e :: after → (∀ e' ∈ before, ¬e'.IsBad declared) →
    e.IsBad declared →
    ∃ fault, (p.apply call).fault = some fault ∧ e.Complaint declared fault

/-- **Refusals are exact.** Every problem that can arise, also after refused calls, refuses just the
calls that mention a bad equation, and changes no more than the first leaf by it. -/
theorem Reachable.refusal (hp : Reachable p) : ∃ declared, Refusal p declared := by
  obtain ⟨declared, h⟩ := hp.sound
  refine ⟨declared, {
    names := ?_
    equation := ?_
    choice := ?_
    other := ?_
    message := ?_ }⟩
  · -- The names are those of the leaves, of which a balanced tree has at least one.
    obtain ⟨depth, hbalanced⟩ := h.balanced
    refine ⟨?_, ?_⟩
    · rw [leaves, Ne, List.map_eq_nil_iff]
      exact hbalanced.leaves_ne_nil
    · intro q hq
      obtain ⟨s, hs, rfl⟩ := List.mem_map.mp hq
      exact h.names s hs
  · intro e
    have hbad : (∃ e' ∈ (Call.equation e).equations, e'.IsBad declared) ↔ e.IsBad declared := by
      simp [Call.equations]
    refine ⟨(fault_apply_ne_none_iff h _).trans hbad, ?_⟩
    intro hrefused
    -- An equation by itself leaves nothing behind when it is refused.
    refine state_apply_of_leftover_eq h hrefused fun s hs => System.leftover_equation ?_
    rw [h.names s hs, Equation.cause?_ne_none_iff]
    exact hbad.mp ((fault_apply_ne_none_iff h _).mp hrefused)
  · intro set hset
    refine ⟨fault_apply_ne_none_iff h _, ?_⟩
    intro hrefused
    -- A choice is made from copies, so the systems themselves have not changed.
    refine state_apply_of_leftover_eq h hrefused fun s _ => ?_
    exact if_pos (show (Call.equationSet set).IsChoice from hset)
  · intro set hset
    refine ⟨fault_apply_ne_none_iff h _, ?_⟩
    intro before e after heq hbefore he
    exact apply_of_first_bad h hset heq hbefore he
  · intro call before e after heq hbefore he
    obtain ⟨fault, hfault⟩ := Option.ne_none_iff_exists'.mp (Equation.cause?_ne_none_iff.mpr he)
    refine ⟨fault, ?_, Equation.complaint_of_cause? hfault⟩
    -- Nothing speaks against the equations before the first bad one.
    have hgood : before.findSome? (Equation.cause? declared) = none := by
      rw [List.findSome?_eq_none_iff]
      intro e' he'
      exact Equation.cause?_eq_none_iff.mpr (hbefore e' he')
    rw [fault_apply h, Call.cause?, heq, List.findSome?_append, hgood, Option.none_or,
      List.findSome?_cons_of_isSome (by rw [hfault]; rfl), hfault]

/-- Six systems refuse an equation between a variable and itself, and none of them changes. -/
theorem refusal_run_twoChoices :
    Reachable ((new {}).run twoChoices) ∧
      ∀ x, (((new {}).run twoChoices).apply (.equation (.ofVars x x true))).fault ≠ none ∧
        (((new {}).run twoChoices).apply (.equation (.ofVars x x true))).state
          = (new {}).run twoChoices := by
  have hreachable : Reachable ((new {}).run twoChoices) := (Reachable.new {}).run twoChoices
  refine ⟨hreachable, fun x => ?_⟩
  obtain ⟨declared, hrefusal⟩ := hreachable.refusal
  obtain ⟨hrefused, hstate⟩ := hrefusal.equation (.ofVars x x true)
  have hbad : (Equation.ofVars x x true).IsBad declared := Or.inl rfl
  exact ⟨hrefused.mpr hbad, hstate (hrefused.mpr hbad)⟩

end Problem

end BoundedEquations
