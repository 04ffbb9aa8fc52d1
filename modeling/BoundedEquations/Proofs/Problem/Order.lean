import BoundedEquations.Proofs.Problem.History
import BoundedEquations.Proofs.Problem.Observation
import BoundedEquations.Proofs.Problem.Refusal

/-!
# `BoundedEquations.Proofs.Problem.Order`: neither order nor repetition of equations matters

What equations make of a system is described without their order by `System.Extends`. Two systems
that extend the same one by the same equations are alike: domains are equal because their form is
canonical, and graphs are alike because simple graphs are known by their edges. This is carried over
to the leaves of a tree. The theorems:

* `System.Extends.alike`: the same equations make alike systems.
* `Problem.Sound.run_of_plain`: a list of calls that only add equations, at every leaf.
* `Problem.Sound.agree_of_choice`: such a call before or after a choice.
* `Problem.Reachable.reordered`: calls that add the same equations make alike problems, and an
  equation may be added before or after a choice.
-/

set_option autoImplicit false

namespace BoundedEquations

namespace System

variable {s t u : System} {es fs : List Equation}

/-- Equations declare nothing. -/
theorem Extends.find?_eq_none (h : s.Extends es t) {x : Variable}
    (hx : s.domains.find? x = none) : t.domains.find? x = none := by
  have hcontains : t.domains.contains x = s.domains.contains x := by
    rw [Bool.eq_iff_iff, Table.contains_iff_mem_names, Table.contains_iff_mem_names, h.keys]
  rw [Table.contains, Table.contains, hx] at hcontains
  exact Option.isNone_iff_eq_none.mp (by simpa using hcontains)

/-- Systems that extend the same system by the same equations are alike. -/
theorem Extends.alike (hst : s.Extends es t) (ht : t.WellFormed) (hu : u.WellFormed)
    (hsu : s.Extends fs u) (hsame : ∀ e, e ∈ es ↔ e ∈ fs) : t.Alike u := by
  have hedges : ∀ isEquality x y, (t.graph isEquality).hasEdge x y
      = (u.graph isEquality).hasEdge x y := by
    intro isEquality x y
    rw [Bool.eq_iff_iff, hst.edges, hsu.edges]
    simp only [hsame]
  refine ⟨Table.eq_of_find?_eq (hst.keys.trans hsu.keys.symm) fun x => ?_, ?_, ?_⟩
  · cases hx : s.domains.find? x with
    | none => rw [hst.find?_eq_none hx, hsu.find?_eq_none hx]
    | some d =>
      -- Both domains hold the same values of the old one, and their form is canonical.
      obtain ⟨dt, hdt, hmemt⟩ := hst.domains x d hx
      obtain ⟨du, hdu, hmemu⟩ := hsu.domains x d hx
      have hvalues : ∀ v, v ∈ dt ↔ v ∈ du := by
        intro v
        rw [hmemt, hmemu]
        simp only [hsame]
      rw [hdt, hdu, Domain.eq_of_mem_iff (ht.canonical x dt hdt) (hu.canonical x du hdu) hvalues]
  · exact (Graph.alike_iff_hasEdge ht.equalities_simple hu.equalities_simple).mpr (hedges true)
  · exact (Graph.alike_iff_hasEdge ht.inequalities_simple hu.inequalities_simple).mpr (hedges false)

end System

/-- The call adds its equations to each single system, without declaration and choice. -/
def Call.IsPlain (call : Call) : Prop := ¬call.IsChoice ∧ ∀ x, call ≠ .declare x

namespace Call

/-- An equation by itself is plain. -/
theorem isPlain_equation (e : Equation) : (equation e).IsPlain := ⟨id, fun _ h => nomatch h⟩

/-- A choice is no declaration. -/
theorem IsChoice.ne_declare {call : Call} (h : call.IsChoice) (x : Variable) :
    call ≠ .declare x := by
  rintro rfl
  exact h

/-- What stands for a choice is an equation. -/
theorem isPlain_of_mem_alternatives {call c : Call} (h : call.IsChoice)
    (hc : c ∈ call.alternatives) : c.IsPlain := by
  rw [alternatives, if_pos h] at hc
  obtain ⟨e, _, rfl⟩ := List.mem_map.mp hc
  exact isPlain_equation e

end Call

namespace System

variable {s : System} {calls : List Call}

/-- A plain call leaves the declared names as they are. -/
theorem names_step_of_isPlain {call : Call} (hplain : call.IsPlain) (s : System) :
    (s.step call).domains.names = s.domains.names := by
  cases call with
  | declare x => exact absurd rfl (hplain.2 x)
  | equation e => exact names_addAll s [e]
  | equationSet set => exact names_addAll s set.equations

/-- Calls that only add equations extend a system by all of these. -/
theorem extends_foldl_step (hs : s.WellFormed) (hplain : ∀ call ∈ calls, call.IsPlain)
    (hcause : ∀ call ∈ calls, call.cause? s.domains.names = none) :
    s.Extends (calls.flatMap Call.equations) (calls.foldl step s) := by
  induction calls generalizing s with
  | nil => exact extends_nil s
  | cons call rest ih =>
    have hcall := hplain call List.mem_cons_self
    have hstep := extends_step hs (hcause call List.mem_cons_self) hcall.2
    rw [List.flatMap_cons]
    refine hstep.trans (ih (hs.step call) (fun c hc => hplain c (List.mem_cons_of_mem _ hc)) ?_)
    -- What could be said against the others goes by the names, and these stay the same.
    rw [names_step_of_isPlain hcall]
    exact fun c hc => hcause c (List.mem_cons_of_mem _ hc)

/-- Calls that add the same equations make alike systems. -/
theorem alike_foldl_step (hs : s.WellFormed) {calls' : List Call}
    (hplain : ∀ call ∈ calls ++ calls', call.IsPlain)
    (hcause : ∀ call ∈ calls ++ calls', call.cause? s.domains.names = none)
    (hsame : ∀ e, e ∈ calls.flatMap Call.equations ↔ e ∈ calls'.flatMap Call.equations) :
    (calls.foldl step s).Alike (calls'.foldl step s) := by
  rw [List.forall_mem_append] at hplain hcause
  exact (extends_foldl_step hs hplain.1 hcause.1).alike (hs.foldl_step calls)
    (hs.foldl_step calls') (extends_foldl_step hs hplain.2 hcause.2) hsame

end System

namespace Problem

open CaseTree

variable {p : Problem} {declared : List String}

/-- A call that declares nothing leaves the declared names as they are. -/
theorem Sound.apply_of_not_declare (h : p.tree.Sound declared) {call : Call}
    (hdeclare : ∀ x, call ≠ .declare x) : (p.apply call).state.tree.Sound declared where
  balanced := Sound.balanced_apply h call
  wellFormed := Sound.wellFormed_apply h call
  names s' hs' := by
    obtain ⟨s, hs, ⟨x, hcall, _⟩ | ⟨_, es, rfl⟩⟩ := leaves_apply h hs'
    · exact absurd hcall (hdeclare x)
    · exact (System.names_addAll s es).trans (h.names s hs)

/-- A call against which there is nothing to be said is made at every leaf. -/
theorem Sound.state_apply (h : p.tree.Sound declared) {call : Call}
    (hcause : call.cause? declared = none) :
    (p.apply call).state = ⟨p.config, p.tree.graft fun s => (call.change s).state⟩ := by
  rcases Sound.apply_cases h call with ⟨_, _, htree⟩ | ⟨fault, hfault, _⟩
  · rw [apply_eq] at htree ⊢
    exact congrArg (Problem.mk p.config) htree
  · rw [hcause] at hfault
    cases hfault

/-- Plain calls are made at every leaf, one after the other. -/
theorem Sound.run_of_plain (h : p.tree.Sound declared) {calls : List Call}
    (hplain : ∀ call ∈ calls, call.IsPlain)
    (hcause : ∀ call ∈ calls, call.cause? declared = none) :
    p.Accepts calls ∧
      p.run calls = ⟨p.config, p.tree.graft fun s => .leaf (calls.foldl System.step s)⟩ := by
  induction calls generalizing p with
  | nil =>
    refine ⟨trivial, ?_⟩
    show p = ⟨p.config, p.tree.graft .leaf⟩
    rw [graft_leaf]
  | cons call rest ih =>
    have hcall := hplain call List.mem_cons_self
    have hnone := hcause call List.mem_cons_self
    obtain ⟨haccepts, hrun⟩ := ih (Sound.apply_of_not_declare h hcall.2)
      (fun c hc => hplain c (List.mem_cons_of_mem _ hc))
      (fun c hc => hcause c (List.mem_cons_of_mem _ hc))
    refine ⟨⟨(fault_apply h call).trans hnone, haccepts⟩, ?_⟩
    have hstep : (fun s => (call.change s).state) = fun s => .leaf (s.step call) :=
      funext fun s => (System.change_of_not_isChoice s hcall.1).1
    show (p.apply call).state.run rest = _
    rw [hrun, Sound.state_apply h hnone, hstep, graft_graft]
    rfl

/-- Both lists of calls are accepted, and they make the same of a problem: trees of one shape with
the same domains and the same graphs in their leaves, where variables are compared by name. -/
structure Agree (p : Problem) (calls calls' : List Call) : Prop where
  accepts : p.Accepts calls
  accepts' : p.Accepts calls'
  alike : (p.run calls).Alike (p.run calls')
  text : (p.run calls).text = (p.run calls').text
  solve : (p.run calls).solve = (p.run calls').solve

/-- Accepted calls that lead to alike problems agree. -/
theorem Agree.of_alike (hp : Reachable p) {calls calls' : List Call} (h : p.Accepts calls)
    (h' : p.Accepts calls') (halike : (p.run calls).Alike (p.run calls')) : p.Agree calls calls' :=
  ⟨h, h', halike, halike.text, halike.solve (hp.run calls)⟩

/-- Plain calls that add the same equations agree. -/
theorem Sound.agree_of_plain (hp : Reachable p) (h : p.tree.Sound declared)
    {calls calls' : List Call} (hplain : ∀ call ∈ calls ++ calls', call.IsPlain)
    (hcause : ∀ call ∈ calls ++ calls', call.cause? declared = none)
    (hsame : ∀ e, e ∈ calls.flatMap Call.equations ↔ e ∈ calls'.flatMap Call.equations) :
    p.Agree calls calls' := by
  have hboth := List.forall_mem_append.mp hplain
  have hnone := List.forall_mem_append.mp hcause
  obtain ⟨haccepts, hrun⟩ := Sound.run_of_plain h hboth.1 hnone.1
  obtain ⟨haccepts', hrun'⟩ := Sound.run_of_plain h hboth.2 hnone.2
  refine Agree.of_alike hp haccepts haccepts' ?_
  rw [hrun, hrun']
  refine ⟨rfl, alike_graft p.tree fun s hs => ?_⟩
  rw [← h.names s hs] at hcause
  exact System.alike_foldl_step (h.wellFormed s hs) hplain hcause hsame

/-- At a single system a plain call may be made before a choice or at each of its branches. -/
theorem alike_change_of_choice {s : System} (hs : s.WellFormed) {call choice : Call}
    (hplain : call.IsPlain) (hchoice : choice.IsChoice)
    (hcall : call.cause? s.domains.names = none) (hmembers : choice.cause? s.domains.names = none) :
    ((call.change s).state.graft fun t => (choice.change t).state).Alike
      ((choice.change s).state.graft fun t => (call.change t).state) := by
  have hadd : ∀ t, (call.change t).state = .leaf (t.step call) :=
    fun t => (System.change_of_not_isChoice t hplain.1).1
  have hlater : choice.cause? (s.step call).domains.names = none := by
    rw [System.names_step_of_isPlain hplain s]
    exact hmembers
  -- On both sides there is one branch for each member of the choice.
  simp only [hadd]
  rw [System.state_change_of_cause?_eq_none hmembers, if_pos hchoice, graft, graft,
    System.state_change_of_cause?_eq_none hlater, if_pos hchoice, graftEach_map_leaf]
  refine alikeEach_iff_forall₂.mpr ?_
  rw [List.forall₂_map_left_iff, List.forall₂_map_right_iff, List.forall₂_same]
  intro c hc
  have hmember := Call.cause?_of_mem_alternatives hmembers hc
  have hcplain := Call.isPlain_of_mem_alternatives hchoice hc
  show ([call, c].foldl System.step s).Alike ([c, call].foldl System.step s)
  refine System.alike_foldl_step hs ?_ ?_ fun e => ?_
  · simp [hplain, hcplain]
  · simp [hcall, hmember]
  · simp [or_comm]

/-- A plain call may be made before or after a choice. -/
theorem Sound.agree_of_choice (hp : Reachable p) (h : p.tree.Sound declared) {call choice : Call}
    (hplain : call.IsPlain) (hchoice : choice.IsChoice) (hcall : call.cause? declared = none)
    (hmembers : choice.cause? declared = none) : p.Agree [call, choice] [choice, call] := by
  have hfirst := Sound.apply_of_not_declare h hplain.2
  have hsecond := Sound.apply_of_not_declare h hchoice.ne_declare
  have haccepts : p.Accepts [call, choice] :=
    ⟨(fault_apply h _).trans hcall, (fault_apply hfirst _).trans hmembers, trivial⟩
  have haccepts' : p.Accepts [choice, call] :=
    ⟨(fault_apply h _).trans hmembers, (fault_apply hsecond _).trans hcall, trivial⟩
  refine Agree.of_alike hp haccepts haccepts' ?_
  show ((p.apply call).state.apply choice).state.Alike ((p.apply choice).state.apply call).state
  rw [Sound.state_apply hfirst hmembers, Sound.state_apply hsecond hcall, Sound.state_apply h hcall,
    Sound.state_apply h hmembers, graft_graft, graft_graft]
  refine ⟨rfl, alike_graft p.tree fun s hs => ?_⟩
  rw [← h.names s hs] at hcall hmembers
  exact alike_change_of_choice (h.wellFormed s hs) hplain hchoice hcall hmembers

/-- **The order of equations does not matter, nor does repeating them.** Equations that a problem
would take one by one may be added in any order, any number of times, and by themselves or in
conjunctions, and an equation may be added before or after a choice. -/
theorem Reachable.reordered (h : Reachable p) :
    (∀ calls calls' : List Call, (∀ call ∈ calls ++ calls', call.IsPlain) →
      (∀ e, e ∈ calls.flatMap Call.equations ↔ e ∈ calls'.flatMap Call.equations) →
      (∀ e ∈ calls.flatMap Call.equations, (p.apply (.equation e)).fault = none) →
      p.Agree calls calls') ∧
    ∀ (e : Equation) (set : EquationSet), set.IsChoice → (p.apply (.equation e)).fault = none →
      (p.apply (.equationSet set)).fault = none →
      p.Agree [.equation e, .equationSet set] [.equationSet set, .equation e] := by
  obtain ⟨declared, hsound⟩ := h.sound
  have hcause : ∀ call, (p.apply call).fault = none → call.cause? declared = none :=
    fun call hcall => (fault_apply hsound call).symm.trans hcall
  constructor
  · intro calls calls' hplain hsame hgood
    refine Sound.agree_of_plain h hsound hplain ?_ hsame
    -- A call is taken when there is nothing to be said against any of its equations.
    intro call hcall
    refine List.findSome?_eq_none_iff.mpr fun e he => ?_
    have hmem : e ∈ calls.flatMap Call.equations := by
      rcases List.mem_append.mp hcall with hcall | hcall
      · exact List.mem_flatMap_of_mem hcall he
      · exact (hsame e).mpr (List.mem_flatMap_of_mem hcall he)
    have hequation := hcause _ (hgood e hmem)
    exact List.findSome?_eq_none_iff.mp hequation e List.mem_cons_self
  · intro e set hset he hmembers
    exact Sound.agree_of_choice h hsound (Call.isPlain_equation e) hset (hcause _ he)
      (hcause _ hmembers)

/-- The first variable of the two choices is not three. -/
def notThree : Equation := .ofValue ⟨"a", 2, Nat.two_pos⟩ 3 false

/-- The variables of the two choices differ. -/
def apart : Equation := .ofVars ⟨"a", 2, Nat.two_pos⟩ ⟨"b", 1, Nat.one_pos⟩ false

/-- Six systems take two equations in either order, one of them twice, or a third choice before or
after one of them. -/
theorem reordered_run_twoChoices :
    Reachable ((new {}).run twoChoices) ∧
      ((new {}).run twoChoices).Agree [.equation notThree, .equation apart, .equation notThree]
        [.equationSet ⟨.conjunction, [apart, notThree]⟩] ∧
      ((new {}).run twoChoices).Agree
        [.equation notThree, .equationSet ⟨.disjunction, [apart, notThree]⟩]
        [.equationSet ⟨.disjunction, [apart, notThree]⟩, .equation notThree] := by
  have hreachable : Reachable ((new {}).run twoChoices) := (Reachable.new {}).run twoChoices
  obtain ⟨hplain, hchoice⟩ := hreachable.reordered
  have hnotThree : (((new {}).run twoChoices).apply (.equation notThree)).fault = none := rfl
  have hapart : (((new {}).run twoChoices).apply (.equation apart)).fault = none := rfl
  refine ⟨hreachable, hplain _ _ ?_ ?_ ?_, hchoice notThree _ (by decide) hnotThree rfl⟩
  · simp [Call.IsPlain, Call.IsChoice, EquationSet.IsChoice]
  · simp [Call.equations, or_comm]
  · simp [Call.equations, hnotThree, hapart]

end Problem

end BoundedEquations
