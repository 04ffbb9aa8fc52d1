import BoundedEquations.Problem
import BoundedEquations.Proofs.CaseTree.Grafting
import BoundedEquations.Proofs.System.Building
import Mathlib.Data.List.Basic

/-!
# `BoundedEquations.Proofs.Problem.Calls`: what one call does

A call is a change of single systems (`Call.change`) that is made to the leaves of the tree.
Whether a system refuses it depends on the declared names alone (`Call.cause?`). Since all leaves
declare the same names, either all of them take the call or the first one refuses it. The theorems:

* `fault_change`, `state_change_of_cause?_eq_none`, `state_change_of_cause?`: a call at one system.
* `CaseTree.Sound`: the invariant of a tree, which every call keeps (`Sound.apply`).
* `Sound.apply_cases`: the two ways in which a call can end.
* `leaves_apply`: where the leaves after a call come from, also after a refusal.
* `Reachable.sound`: the invariant of every problem that can arise.
-/

set_option autoImplicit false

namespace BoundedEquations

namespace Call

/-- What a call does to a single system. -/
def change : Call → System → Outcome CaseTree
  | .declare x, s => ⟨.leaf (s.declare x), none, []⟩
  | .equation e, s => (Outcome.ofExcept s (s.add e)).map .leaf
  | .equationSet set, s =>
    if set.IsChoice then CaseTree.branch s set else (s.addAll set.equations).map .leaf

/-- The equations that a call mentions. -/
def equations : Call → List Equation
  | .declare _ => []
  | .equation e => [e]
  | .equationSet set => set.equations

/-- The call asks for a choice. -/
def IsChoice : Call → Prop
  | .equationSet set => set.IsChoice
  | _ => False

/-- Only an equation set can ask for a choice. -/
instance : (call : Call) → Decidable call.IsChoice
  | .declare _ => isFalse id
  | .equation _ => isFalse id
  | .equationSet set => inferInstanceAs (Decidable set.IsChoice)

/-- Why a call is refused where these names are declared: the cause of its first bad equation. -/
def cause? (declared : List String) (call : Call) : Option Fault :=
  call.equations.findSome? (Equation.cause? declared)

/-- The calls without choice that stand for a call: one for each member of a choice. -/
def alternatives (call : Call) : List Call :=
  if call.IsChoice then call.equations.map .equation else [call]

/-- A choice has at least two alternatives. -/
theorem IsChoice.two_le {call : Call} (h : call.IsChoice) : 2 ≤ call.alternatives.length := by
  cases call with
  | declare x => exact absurd h id
  | equation e => exact absurd h id
  | equationSet set =>
    have hset : set.IsChoice := h
    rw [alternatives, if_pos h, List.length_map]
    exact hset.2

end Call

namespace System

/-- The system after a call that asks for no choice. -/
def step (s : System) : Call → System
  | .declare x => s.declare x
  | .equation e => (s.addAll [e]).state
  | .equationSet set => (s.addAll set.equations).state

/-- What is left of a system that has refused a call. A refused choice leaves no trace. -/
def leftover (s : System) (call : Call) : System :=
  if call.IsChoice then s else (s.addAll call.equations).state

/-! ### A call at one system -/

/-- Adding one equation is adding a list of one. -/
theorem add_eq_addAll (s : System) (e : Equation) :
    Outcome.ofExcept s (s.add e) = s.addAll [e] := by
  cases hadd : s.add e with
  | ok s' => rw [addAll_cons_of_ok hadd]; rfl
  | error fault => rw [addAll_cons_of_error hadd]; rfl

/-- Each member of a choice is added to the system as it is before the choice. -/
theorem mapM_add_of_cause?_eq_none {s : System} {es : List Equation}
    (h : es.findSome? (Equation.cause? s.domains.names) = none) :
    es.mapM s.add = .ok (es.map fun e => s.step (.equation e)) := by
  refine mapM_eq_ok fun e he => ?_
  obtain ⟨s', hok, _⟩ := added_of_cause?_eq_none (List.findSome?_eq_none_iff.mp h e he)
  rw [step, addAll_cons_of_ok hok, hok]
  rfl

/-- The first bad member of a choice refuses it. -/
theorem mapM_add_of_cause? {s : System} {es : List Equation} {fault : Fault}
    (h : es.findSome? (Equation.cause? s.domains.names) = some fault) :
    es.mapM s.add = .error fault := by
  induction es with
  | nil => exact nomatch h
  | cons e rest ih =>
    rw [List.mapM_cons]
    cases hcause : e.cause? s.domains.names with
    | some fault' =>
      rw [List.findSome?_cons_of_isSome (by rw [hcause]; rfl), hcause] at h
      obtain rfl := Option.some.inj h
      rw [add_of_cause? hcause]
      rfl
    | none =>
      rw [List.findSome?_cons_of_isNone (by rw [hcause]; rfl)] at h
      obtain ⟨s', hok, _⟩ := added_of_cause?_eq_none hcause
      -- Every member is added to the same system, so the others are refused just as before.
      rw [hok, ih h]
      rfl

/-- A choice without bad members makes one branch for each member. -/
theorem branch_of_cause?_eq_none {s : System} {set : EquationSet}
    (h : (Call.equationSet set).cause? s.domains.names = none) :
    CaseTree.branch s set =
      ⟨.anyOf (set.equations.map fun e => .leaf (s.step (.equation e))), none,
        [.branching set]⟩ := by
  have hmap : set.equations.mapM s.add = _ := mapM_add_of_cause?_eq_none h
  rw [CaseTree.branch, hmap]
  simp only [List.map_map]
  rfl

/-- A choice with a bad member leaves the system as it is. -/
theorem branch_of_cause? {s : System} {set : EquationSet} {fault : Fault}
    (h : (Call.equationSet set).cause? s.domains.names = some fault) :
    CaseTree.branch s set = ⟨.leaf s, some fault, [.branching set]⟩ := by
  have hmap : set.equations.mapM s.add = _ := mapM_add_of_cause? h
  rw [CaseTree.branch, hmap]

/-- A call that asks for no choice leaves a single system. -/
theorem change_of_not_isChoice (s : System) {call : Call} (h : ¬call.IsChoice) :
    (call.change s).state = .leaf (s.step call) ∧
      (call.change s).fault = call.cause? s.domains.names := by
  cases call with
  | declare x => exact ⟨rfl, rfl⟩
  | equation e =>
    have hfault := fault_addAll s [e]
    rw [← add_eq_addAll] at hfault
    refine ⟨?_, hfault⟩
    show CaseTree.leaf (Outcome.ofExcept s (s.add e)).state = _
    rw [add_eq_addAll]
    rfl
  | equationSet set =>
    have hset : ¬set.IsChoice := h
    rw [Call.change, if_neg hset]
    exact ⟨rfl, fault_addAll s set.equations⟩

/-- A system refuses a call just when there is a cause, and with that cause. -/
theorem fault_change (s : System) (call : Call) :
    (call.change s).fault = call.cause? s.domains.names := by
  by_cases h : call.IsChoice
  · cases call with
    | declare x => exact absurd h id
    | equation e => exact absurd h id
    | equationSet set =>
      have hset : set.IsChoice := h
      rw [Call.change, if_pos hset]
      cases hcause : (Call.equationSet set).cause? s.domains.names with
      | some fault => rw [branch_of_cause? hcause]
      | none => rw [branch_of_cause?_eq_none hcause]
  · exact (change_of_not_isChoice s h).2

/-- A call that is taken leaves a single system, or one for each member of a choice. -/
theorem state_change_of_cause?_eq_none {s : System} {call : Call}
    (h : call.cause? s.domains.names = none) :
    (call.change s).state =
      if call.IsChoice then .anyOf (call.alternatives.map fun c => .leaf (s.step c))
      else .leaf (s.step call) := by
  by_cases hchoice : call.IsChoice
  · rw [if_pos hchoice, Call.alternatives, if_pos hchoice]
    cases call with
    | declare x => exact absurd hchoice id
    | equation e => exact absurd hchoice id
    | equationSet set =>
      have hset : set.IsChoice := hchoice
      rw [Call.change, if_pos hset, branch_of_cause?_eq_none h, List.map_map]
      rfl
  · rw [if_neg hchoice]
    exact (change_of_not_isChoice s hchoice).1

/-- A call that is refused leaves a single system. -/
theorem state_change_of_cause? {s : System} {call : Call} {fault : Fault}
    (h : call.cause? s.domains.names = some fault) :
    (call.change s).state = .leaf (s.leftover call) := by
  cases call with
  | declare x => exact nomatch h
  | equation e =>
    have hplain : ¬(Call.equation e).IsChoice := id
    rw [(change_of_not_isChoice s hplain).1, leftover, if_neg hplain]
    rfl
  | equationSet set =>
    rw [leftover]
    by_cases hset : set.IsChoice
    · rw [if_pos (show (Call.equationSet set).IsChoice from hset), Call.change, if_pos hset,
        branch_of_cause? h]
    · have hplain : ¬(Call.equationSet set).IsChoice := hset
      rw [(change_of_not_isChoice s hplain).1, if_neg hplain]
      rfl

/-- A call that is taken makes one leaf for each of its alternatives. -/
theorem leaves_change_of_cause?_eq_none {s : System} {call : Call}
    (h : call.cause? s.domains.names = none) :
    (call.change s).state.leaves = call.alternatives.map s.step := by
  rw [state_change_of_cause?_eq_none h]
  by_cases hchoice : call.IsChoice
  · rw [if_pos hchoice]
    show CaseTree.leavesOf _ = _
    induction call.alternatives with
    | nil => rfl
    | cons c rest ih =>
      rw [List.map_cons, CaseTree.leavesOf, ih]
      rfl
  · rw [if_neg hchoice, Call.alternatives, if_neg hchoice]
    rfl

/-! ### Names, and the invariant of single systems -/

/-- Systems that declare the same names do so after one more declaration. -/
theorem names_declare_congr {s u : System} (h : s.domains.names = u.domains.names)
    (x : Variable) : (s.declare x).domains.names = (u.declare x).domains.names := by
  rw [Table.names_eq_iff] at h ⊢
  intro y
  show (s.domains.insert x _).contains y = true ↔ (u.domains.insert x _).contains y = true
  rw [Table.contains_insert, Table.contains_insert, h y]

/-- A call that asks for no choice keeps a system well-formed. -/
theorem WellFormed.step {s : System} (hs : s.WellFormed) (call : Call) :
    (s.step call).WellFormed := by
  cases call with
  | declare x => exact hs.declare x
  | equation e => exact hs.addAll [e]
  | equationSet set => exact hs.addAll set.equations

end System

/-! ### A call at a tree -/

/-- All systems of a tree are well-formed and declare the same names, and they lie at one depth. -/
structure CaseTree.Sound (declared : List String) (t : CaseTree) : Prop where
  balanced : ∃ depth, CaseTree.Balanced depth t
  names : ∀ s ∈ t.leaves, s.domains.names = declared
  wellFormed : ∀ s ∈ t.leaves, s.WellFormed

namespace Problem

open CaseTree

/-- A call is a change of the tree. -/
theorem apply_eq (p : Problem) (call : Call) :
    p.apply call = (p.tree.update call.change).map fun tree => { p with tree } := by
  cases call <;> rfl

/-- No call of the list is refused. -/
def Accepts (p : Problem) : List Call → Prop
  | [] => True
  | call :: rest => (p.apply call).fault = none ∧ (p.apply call).state.Accepts rest

/-- No call changes the configuration. -/
theorem config_run (p : Problem) (calls : List Call) : (p.run calls).config = p.config := by
  induction calls generalizing p with
  | nil => rfl
  | cons call rest ih => exact ih (p.apply call).state

/-- A call that is not refused is taken by every system, and each of them makes way for its
alternatives. -/
theorem leaves_apply_of_fault_eq_none {p : Problem} {call : Call}
    (h : (p.apply call).fault = none) :
    (p.apply call).state.tree.leaves
        = (p.tree.leaves.flatMap fun s => call.alternatives.map s.step) ∧
      ∀ s ∈ p.tree.leaves, call.cause? s.domains.names = none := by
  rw [apply_eq] at h ⊢
  have hforall := forall_of_update p.tree h
  have hcause : ∀ s ∈ p.tree.leaves, call.cause? s.domains.names = none := fun s hs =>
    (System.fault_change s call).symm.trans (hforall s hs)
  refine ⟨?_, hcause⟩
  show (p.tree.update call.change).state.leaves = _
  rw [(update_of_forall p.tree hforall).2, leaves_graft]
  exact List.flatMap_congr fun s hs => System.leaves_change_of_cause?_eq_none (hcause s hs)

/-- A call is taken by all systems, or refused by the first one, which alone can have changed. -/
theorem Sound.apply_cases {p : Problem} {declared : List String}
    (h : p.tree.Sound declared) (call : Call) :
    (call.cause? declared = none ∧ (p.apply call).fault = none ∧
        (p.apply call).state.tree = p.tree.graft fun s => (call.change s).state) ∨
      ∃ fault, call.cause? declared = some fault ∧ (p.apply call).fault = some fault ∧
        (p.apply call).state.tree = p.tree.graftFirst fun s => .leaf (s.leftover call) := by
  have hcause : ∀ s ∈ p.tree.leaves, (call.change s).fault = call.cause? declared := by
    intro s hs
    rw [System.fault_change, h.names s hs]
  rw [apply_eq]
  cases hc : call.cause? declared with
  | none =>
    exact Or.inl ⟨rfl, update_of_forall p.tree fun s hs => (hcause s hs).trans hc⟩
  | some fault =>
    obtain ⟨depth, hbalanced⟩ := h.balanced
    obtain ⟨s, others, hleaves⟩ := List.exists_cons_of_ne_nil hbalanced.leaves_ne_nil
    have hs : s ∈ p.tree.leaves := hleaves ▸ List.mem_cons_self
    obtain ⟨hfault, hstate⟩ :=
      hbalanced.update_of_head hleaves ((hcause s hs).trans hc)
    -- The two replacements agree on the first leaf, which is the only one they are made at.
    refine Or.inr ⟨fault, rfl, hfault, hstate.trans (hbalanced.graftFirst_congr hleaves ?_)⟩
    exact System.state_change_of_cause? ((congrArg call.cause? (h.names s hs)).trans hc)

/-- A leaf after a call is a leaf from before it, with a variable declared or with equations
added. This holds for refused calls too. -/
theorem leaves_apply {p : Problem} {declared : List String} (h : p.tree.Sound declared)
    {call : Call} {s' : System} (hs' : s' ∈ (p.apply call).state.tree.leaves) :
    ∃ s ∈ p.tree.leaves, (∃ x, call = .declare x ∧ s' = s.declare x) ∨
      ((∀ x, call ≠ .declare x) ∧ ∃ es, s' = (s.addAll es).state) := by
  rcases Sound.apply_cases h call with ⟨hcause, _, htree⟩ | ⟨fault, hcause, _, htree⟩
  · -- The call has been taken, and the leaf is one of the alternatives at its place.
    rw [htree, leaves_graft, List.mem_flatMap] at hs'
    obtain ⟨s, hs, hmem⟩ := hs'
    rw [System.leaves_change_of_cause?_eq_none
      ((congrArg call.cause? (h.names s hs)).trans hcause)] at hmem
    obtain ⟨c, hc, rfl⟩ := List.mem_map.mp hmem
    refine ⟨s, hs, ?_⟩
    rw [Call.alternatives] at hc
    split at hc
    · rename_i hchoice
      obtain ⟨e, _, rfl⟩ := List.mem_map.mp hc
      refine Or.inr ⟨fun x hx => ?_, [e], rfl⟩
      rw [hx] at hchoice
      exact hchoice
    · obtain rfl := List.mem_singleton.mp hc
      cases c with
      | declare x => exact Or.inl ⟨x, rfl, rfl⟩
      | equation e => exact Or.inr ⟨fun _ hx => (nomatch hx), [e], rfl⟩
      | equationSet set => exact Or.inr ⟨fun _ hx => (nomatch hx), set.equations, rfl⟩
  · have hdeclare : ∀ x, call ≠ .declare x := by
      rintro x rfl
      exact nomatch hcause
    obtain ⟨depth, hbalanced⟩ := h.balanced
    obtain ⟨s, others, hleaves⟩ := List.exists_cons_of_ne_nil hbalanced.leaves_ne_nil
    -- The call has been refused, so the leaf is what is left of the first one, or another one.
    rw [htree, hbalanced.leaves_graftFirst hleaves (fun s => s.leftover call)] at hs'
    rcases List.mem_cons.mp hs' with rfl | hother
    · refine ⟨s, hleaves ▸ List.mem_cons_self, Or.inr ⟨hdeclare, ?_⟩⟩
      rw [System.leftover]
      split
      · exact ⟨[], rfl⟩
      · exact ⟨call.equations, rfl⟩
    · exact ⟨s', hleaves ▸ List.mem_cons_of_mem _ hother, Or.inr ⟨hdeclare, [], rfl⟩⟩

/-- All leaves are well-formed after a call. -/
theorem Sound.wellFormed_apply {p : Problem} {declared : List String}
    (h : p.tree.Sound declared) (call : Call) :
    ∀ s' ∈ (p.apply call).state.tree.leaves, s'.WellFormed := by
  intro s' hs'
  obtain ⟨s, hs, ⟨x, _, rfl⟩ | ⟨_, es, rfl⟩⟩ := leaves_apply h hs'
  · exact (h.wellFormed s hs).declare x
  · exact (h.wellFormed s hs).addAll es

/-- A choice makes the tree one level deeper everywhere. No other call changes its shape. -/
theorem Sound.balanced_apply {p : Problem} {declared : List String}
    (h : p.tree.Sound declared) (call : Call) :
    ∃ depth, Balanced depth (p.apply call).state.tree := by
  obtain ⟨depth, hdepth⟩ := h.balanced
  rcases Sound.apply_cases h call with ⟨hcause, _, htree⟩ | ⟨fault, _, _, htree⟩
  · rw [htree]
    have hnone : ∀ s ∈ p.tree.leaves, call.cause? s.domains.names = none := by
      intro s hs
      rw [h.names s hs]
      exact hcause
    by_cases hchoice : call.IsChoice
    · refine ⟨depth + 1, hdepth.graft fun s hs => ?_⟩
      rw [System.state_change_of_cause?_eq_none (hnone s hs), if_pos hchoice]
      refine .anyOf (by rw [List.length_map]; exact hchoice.two_le) ?_
      intro t ht
      obtain ⟨c, _, rfl⟩ := List.mem_map.mp ht
      exact .leaf _
    · refine ⟨depth + 0, hdepth.graft fun s hs => ?_⟩
      rw [System.state_change_of_cause?_eq_none (hnone s hs), if_neg hchoice]
      exact .leaf _
  · rw [htree]
    exact ⟨depth, hdepth.graftFirst _⟩

/-- All leaves declared the same names before the call, and they do so after it. -/
theorem Sound.names_apply {p : Problem} {declared : List String}
    (h : p.tree.Sound declared) (call : Call) :
    ∃ declared', ∀ s' ∈ (p.apply call).state.tree.leaves, s'.domains.names = declared' := by
  obtain ⟨depth, hdepth⟩ := h.balanced
  obtain ⟨s₀, others, hleaves⟩ := List.exists_cons_of_ne_nil hdepth.leaves_ne_nil
  have hs₀ : s₀ ∈ p.tree.leaves := hleaves ▸ List.mem_cons_self
  by_cases hdeclare : ∃ x, call = .declare x
  · -- A declaration adds one name to the same names, so the first leaf tells for all.
    obtain ⟨x, rfl⟩ := hdeclare
    refine ⟨(s₀.declare x).domains.names, ?_⟩
    intro s' hs'
    obtain ⟨s, hs, ⟨y, heq, rfl⟩ | ⟨hne, _⟩⟩ := leaves_apply h hs'
    · obtain rfl := Call.declare.inj heq
      exact System.names_declare_congr ((h.names s hs).trans (h.names s₀ hs₀).symm) x
    · exact absurd rfl (hne x)
  · -- Every other call only adds equations, and these keep the names.
    refine ⟨declared, ?_⟩
    intro s' hs'
    obtain ⟨s, hs, ⟨y, heq, rfl⟩ | ⟨_, es, rfl⟩⟩ := leaves_apply h hs'
    · exact absurd ⟨y, heq⟩ hdeclare
    · exact (System.names_addAll s es).trans (h.names s hs)

/-- Every call keeps the invariant, whether it is taken or refused. -/
theorem Sound.apply {p : Problem} {declared : List String} (h : p.tree.Sound declared)
    (call : Call) : ∃ declared', (p.apply call).state.tree.Sound declared' := by
  obtain ⟨declared', hnames⟩ := Sound.names_apply h call
  exact ⟨declared', Sound.balanced_apply h call, hnames, Sound.wellFormed_apply h call⟩

/-- The problem without variables satisfies the invariant. -/
theorem sound_new (config : Config) : (new config).tree.Sound [] where
  balanced := ⟨0, .leaf _⟩
  names s hs := by
    obtain rfl := List.mem_singleton.mp hs
    rfl
  wellFormed s hs := by
    obtain rfl := List.mem_singleton.mp hs
    exact System.wellFormed_empty

/-! ### Problems that can arise -/

/-- The problems that calls can lead to, refused ones included, and the alternatives of such a
problem taken by themselves. -/
inductive Reachable : Problem → Prop
  | new (config : Config) : Reachable (new config)
  | apply {p : Problem} (h : Reachable p) (call : Call) : Reachable (p.apply call).state
  | branch {p q : Problem} (h : Reachable p) (hq : q ∈ p.branches) : Reachable q

/-- What calls make of a problem that can arise can arise too. -/
theorem Reachable.run {p : Problem} (h : Reachable p) (calls : List Call) :
    Reachable (p.run calls) := by
  induction calls generalizing p with
  | nil => exact h
  | cons call rest ih => exact ih (h.apply call)

/-- Every problem that can arise satisfies the invariant. -/
theorem Reachable.sound {p : Problem} (h : Reachable p) :
    ∃ declared, p.tree.Sound declared := by
  induction h with
  | new config => exact ⟨[], sound_new config⟩
  | apply _ call ih =>
    obtain ⟨declared, hsound⟩ := ih
    exact Sound.apply hsound call
  | @branch p q _ hq ih =>
    -- The leaves of a branch are among the leaves of the whole tree.
    obtain ⟨declared, ⟨depth, hbalanced⟩, hnames, hwellFormed⟩ := ih
    obtain ⟨config, tree⟩ := p
    cases hbalanced with
    | leaf s => exact nomatch hq
    | anyOf several all =>
      obtain ⟨t, ht, rfl⟩ := List.mem_map.mp hq
      have hleaves : ∀ s ∈ t.leaves, s ∈ leavesOf _ := fun s hs => mem_leavesOf.mpr ⟨t, ht, hs⟩
      exact ⟨declared, ⟨_, all t ht⟩, fun s hs => hnames s (hleaves s hs),
        fun s hs => hwellFormed s (hleaves s hs)⟩

end Problem

end BoundedEquations
