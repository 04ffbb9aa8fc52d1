import BoundedEquations.Proofs.Problem.Calls
import Mathlib.Data.List.Forall2

/-!
# `BoundedEquations.Proofs.Problem.Alternatives`: a leaf for each way to choose

A problem with choices is a tree, and its leaves are the problems without choice that result when
every choice is settled in advance. A way to settle the choices of a list of calls is a list of
indices, one for each choice in the order of the calls (`Call.resolve`). The theorems:

* `pairwise_picks`, `mem_picks_iff`, `length_picks`: the enumeration of all such lists of indices is
  lexicographic, complete and as long as the product of the sizes.
* `leaves_run`: the leaves after a run, from the leaves before it.
* `leaves_run_eq_map_resolve`: from the empty problem, the leaves are the replays with the choices
  settled, in lexicographic order.
-/

set_option autoImplicit false

namespace BoundedEquations

namespace Call

/-- The choices among some calls, in their order. -/
def choices : List Call → List EquationSet
  | [] => []
  | .equationSet set :: rest => if set.IsChoice then set :: choices rest else choices rest
  | _ :: rest => choices rest

/-- The calls with the equation at its index in the place of each choice. -/
def resolve : List Call → List Nat → List Call
  | [], _ => []
  | .equationSet set :: rest, indices =>
    if set.IsChoice then
      (set.equations[indices.headD 0]?.map .equation).toList ++ resolve rest indices.tail
    else
      .equationSet set :: resolve rest indices
  | call :: rest, indices => call :: resolve rest indices

/-- All lists of indices below some bounds, counted up with the last index running fastest. -/
def picks : List Nat → List (List Nat)
  | [] => [[]]
  | bound :: rest => (List.range bound).flatMap fun i => (picks rest).map (i :: ·)

/-- The ways to settle all choices, step by step along the calls. -/
def resolutions : List Call → List (List Call)
  | [] => [[]]
  | call :: rest => call.alternatives.flatMap fun c => (resolutions rest).map (c :: ·)

/-! ### Lists of indices -/

/-- Each bound is above its index, and all such lists of indices are counted. -/
theorem mem_picks_iff {bounds indices : List Nat} :
    indices ∈ picks bounds ↔ List.Forall₂ (· < ·) indices bounds := by
  induction bounds generalizing indices with
  | nil =>
    rw [picks, List.mem_singleton]
    constructor
    · rintro rfl
      exact .nil
    · rintro ⟨⟩
      rfl
  | cons bound rest ih =>
    rw [picks, List.mem_flatMap]
    constructor
    · rintro ⟨i, hi, hmem⟩
      obtain ⟨later, hlater, rfl⟩ := List.mem_map.mp hmem
      exact .cons (List.mem_range.mp hi) (ih.mp hlater)
    · rintro ⟨⟩
      rename_i i later hi hlater
      exact ⟨i, List.mem_range.mpr hi, List.mem_map.mpr ⟨later, ih.mpr hlater, rfl⟩⟩

/-- The enumeration ascends: lists with a lesser first index come first, and lists with the same
first index are ordered by what follows it. -/
theorem pairwise_picks (bounds : List Nat) : (picks bounds).Pairwise (List.Lex (· < ·)) := by
  induction bounds with
  | nil => exact List.pairwise_singleton _ _
  | cons bound rest ih =>
    rw [picks, List.pairwise_flatMap]
    refine ⟨fun i _ => List.pairwise_map.mpr (ih.imp fun h => .cons h), ?_⟩
    -- Lists with different first indices are ordered by these alone.
    refine List.pairwise_lt_range.imp fun {i j} hij p hp q hq => ?_
    obtain ⟨p', _, rfl⟩ := List.mem_map.mp hp
    obtain ⟨q', _, rfl⟩ := List.mem_map.mp hq
    exact .rel hij

/-- There are as many lists of indices as the product of the bounds. -/
theorem length_picks (bounds : List Nat) :
    (picks bounds).length = bounds.foldr (· * ·) 1 := by
  induction bounds with
  | nil => rfl
  | cons bound rest ih =>
    rw [picks, List.foldr_cons, ← ih]
    -- Each first index is followed by all lists of the remaining indices.
    induction bound with
    | zero => rw [Nat.zero_mul]; rfl
    | succ n ihn =>
      rw [List.range_succ, List.flatMap_append, List.length_append, ihn, List.flatMap_singleton,
        List.length_map, Nat.succ_mul]

/-- A list can be read off by index. -/
theorem flatMap_range_getElem? {α β : Type} (f : α → List β) (as : List α) :
    ((List.range as.length).flatMap fun i => as[i]?.toList.flatMap f) = as.flatMap f := by
  induction as with
  | nil => rfl
  | cons a rest ih =>
    rw [List.length_cons, List.range_succ_eq_map, List.flatMap_cons, List.flatMap_cons,
      List.flatMap_map]
    show [a].flatMap f ++ _ = _
    rw [List.flatMap_singleton]
    exact congrArg (f a ++ ·) ih

/-- Settling the choices step by step gives the same lists as settling them by index. -/
theorem resolutions_eq_map_resolve (calls : List Call) :
    resolutions calls = (picks ((choices calls).map EquationSet.size)).map (resolve calls) := by
  induction calls with
  | nil => rfl
  | cons call rest ih =>
    rw [resolutions, ih]
    -- A call that asks for no choice stays in its place and takes no index.
    have hplain : ∀ (hchoice : ¬call.IsChoice) (hchoices : choices (call :: rest) = choices rest)
        (hresolve : ∀ indices, resolve (call :: rest) indices = call :: resolve rest indices),
        (call.alternatives.flatMap fun c => List.map (c :: ·)
            ((picks ((choices rest).map EquationSet.size)).map (resolve rest)))
          = (picks ((choices (call :: rest)).map EquationSet.size)).map
              (resolve (call :: rest)) := by
      intro hchoice hchoices hresolve
      rw [alternatives, if_neg hchoice, List.flatMap_singleton, List.map_map, hchoices]
      exact List.map_congr_left fun indices _ => (hresolve indices).symm
    cases call with
    | declare x => exact hplain id rfl fun _ => rfl
    | equation e => exact hplain id rfl fun _ => rfl
    | equationSet set =>
      by_cases hset : set.IsChoice
      · -- A choice takes the first index, and the member at that index stands for it.
        rw [alternatives, if_pos (show (Call.equationSet set).IsChoice from hset), choices,
          if_pos hset, List.map_cons, picks, List.map_flatMap, List.flatMap_map]
        refine (flatMap_range_getElem? _ set.equations).symm.trans ?_
        refine List.flatMap_congr fun i hi => ?_
        obtain ⟨e, he⟩ : ∃ e, set.equations[i]? = some e :=
          ⟨_, List.getElem?_eq_getElem (List.mem_range.mp hi)⟩
        rw [he, Option.toList_some, List.flatMap_singleton, List.map_map, List.map_map]
        refine List.map_congr_left fun indices _ => ?_
        show Call.equation e :: resolve rest indices
          = resolve (.equationSet set :: rest) (i :: indices)
        rw [resolve, if_pos hset, List.headD_cons, he]
        rfl
      · exact hplain hset (by rw [choices, if_neg hset]) fun indices => by
          rw [resolve, if_neg hset]

/-- A way to settle the choices asks for no choice itself. -/
theorem not_isChoice_of_mem_alternatives {call c : Call} (h : c ∈ call.alternatives) :
    ¬c.IsChoice := by
  rw [alternatives] at h
  split at h
  · obtain ⟨e, _, rfl⟩ := List.mem_map.mp h
    exact id
  · obtain rfl := List.mem_singleton.mp h
    assumption

/-- An alternative mentions equations of the call, so nothing speaks against it that does not
speak against the call. -/
theorem cause?_of_mem_alternatives {declared : List String} {call c : Call}
    (h : call.cause? declared = none) (hc : c ∈ call.alternatives) : c.cause? declared = none := by
  rw [alternatives] at hc
  split at hc
  · obtain ⟨e, he, rfl⟩ := List.mem_map.mp hc
    have hnone := List.findSome?_eq_none_iff.mp h e he
    exact List.findSome?_eq_none_iff.mpr fun e' he' => List.mem_singleton.mp he' ▸ hnone
  · obtain rfl := List.mem_singleton.mp hc
    exact h

end Call

/-- A single system takes all calls of a list, none of which asks for a choice. -/
def System.Takes (s : System) : List Call → Prop
  | [] => True
  | call :: rest =>
    ¬call.IsChoice ∧ call.cause? s.domains.names = none ∧ (s.step call).Takes rest

namespace Problem

open Call

/-! ### Runs -/

/-- Every leaf from before a run makes way for its own replays, side by side. -/
theorem leaves_run {p : Problem} {calls : List Call} (h : p.Accepts calls) :
    (p.run calls).tree.leaves = p.tree.leaves.flatMap fun s =>
      (resolutions calls).map fun replay => replay.foldl System.step s := by
  induction calls generalizing p with
  | nil =>
    show p.tree.leaves = p.tree.leaves.flatMap fun s => [s]
    rw [List.flatMap_singleton']
  | cons call rest ih =>
    obtain ⟨hfault, hrest⟩ := h
    show ((p.apply call).state.run rest).tree.leaves = _
    -- The leaves after the first call are multiplied in turn by the rest of the run.
    rw [ih hrest, (leaves_apply_of_fault_eq_none hfault).1, List.flatMap_assoc]
    refine List.flatMap_congr fun s _ => ?_
    rw [resolutions, List.map_flatMap, List.flatMap_map]
    refine List.flatMap_congr fun c _ => ?_
    rw [List.map_map]
    rfl

/-- The replays of an accepted run are taken by every system of the tree. -/
theorem takes_of_mem_resolutions {p : Problem} {calls : List Call} (h : p.Accepts calls)
    {s : System} (hs : s ∈ p.tree.leaves) {replay : List Call}
    (hreplay : replay ∈ resolutions calls) : s.Takes replay := by
  induction calls generalizing p s replay with
  | nil =>
    obtain rfl := List.mem_singleton.mp hreplay
    exact trivial
  | cons call rest ih =>
    obtain ⟨hfault, hrest⟩ := h
    obtain ⟨hleaves, hcause⟩ := leaves_apply_of_fault_eq_none hfault
    obtain ⟨c, hc, hmem⟩ := List.mem_flatMap.mp hreplay
    obtain ⟨replay', hreplay', rfl⟩ := List.mem_map.mp hmem
    -- One step along the replay is a leaf after the call, so the rest of the run takes over.
    have hstep : s.step c ∈ (p.apply call).state.tree.leaves := by
      rw [hleaves]
      exact List.mem_flatMap.mpr ⟨s, hs, List.mem_map_of_mem hc⟩
    exact ⟨not_isChoice_of_mem_alternatives hc, cause?_of_mem_alternatives (hcause s hs) hc,
      ih hrest hstep hreplay'⟩

/-- Calls without choice that a system takes are accepted, and what they leave is one system. -/
theorem run_of_takes (config : Config) {s : System} {calls : List Call} (h : s.Takes calls) :
    (Problem.mk config (.leaf s)).Accepts calls ∧
      (Problem.mk config (.leaf s)).run calls = ⟨config, .leaf (calls.foldl System.step s)⟩ := by
  induction calls generalizing s with
  | nil => exact ⟨trivial, rfl⟩
  | cons call rest ih =>
    obtain ⟨hchoice, hcause, hrest⟩ := h
    obtain ⟨hstate, hfault⟩ := System.change_of_not_isChoice s hchoice
    have happly : ((Problem.mk config (.leaf s)).apply call).state
        = ⟨config, .leaf (s.step call)⟩ := by
      rw [apply_eq]
      exact congrArg (Problem.mk config) hstate
    obtain ⟨haccepts, hrun⟩ := ih hrest
    refine ⟨⟨?_, ?_⟩, ?_⟩
    · rw [apply_eq]
      exact hfault.trans hcause
    · rw [happly]
      exact haccepts
    · show ((Problem.mk config (.leaf s)).apply call).state.run rest = _
      rw [happly]
      exact hrun

/-- **The leaves of a problem are its replays with the choices settled.** The lists of indices are
enumerated in strictly ascending lexicographic order, so the earliest choice is the most
significant one. Each replay is accepted and is a single system. -/
theorem leaves_run_eq_map_resolve (config : Config) (calls : List Call)
    (h : (new config).Accepts calls) :
    ∃ settled : List (List Nat),
      settled.Pairwise (List.Lex (· < ·)) ∧
      (∀ indices, indices ∈ settled ↔
        List.Forall₂ (fun i (set : EquationSet) => i < set.size) indices (choices calls)) ∧
      ((new config).run calls).leaves
        = settled.map (fun indices => (new config).run (resolve calls indices)) ∧
      ((new config).run calls).leaves.length
        = (choices calls).foldr (fun set n => set.size * n) 1 ∧
      ∀ indices ∈ settled, (new config).Accepts (resolve calls indices) ∧
        ((new config).run (resolve calls indices)).isDisjunctive = false := by
  have hreplay : ∀ replay ∈ resolutions calls,
      (new config).Accepts replay ∧
        (new config).run replay = ⟨config, .leaf (replay.foldl System.step .empty)⟩ := by
    intro replay hmem
    exact run_of_takes config (takes_of_mem_resolutions h List.mem_cons_self hmem)
  -- The run starts from a single system, which makes way for all of its replays.
  have hleaves : ((new config).run calls).leaves = (resolutions calls).map (new config).run := by
    rw [leaves, leaves_run h]
    show List.map _ ([System.empty].flatMap _) = _
    rw [List.flatMap_singleton, List.map_map]
    refine List.map_congr_left fun replay hmem => ?_
    show Problem.mk ((new config).run calls).config _ = _
    rw [config_run, (hreplay replay hmem).2]
    rfl
  rw [resolutions_eq_map_resolve] at hreplay hleaves
  refine ⟨picks ((choices calls).map EquationSet.size), pairwise_picks _, fun indices => ?_,
    hleaves.trans (List.map_map ..), ?_, fun indices hmem => ?_⟩
  · rw [mem_picks_iff, List.forall₂_map_right_iff]
  · rw [hleaves, List.length_map, List.length_map, length_picks, List.foldr_map]
  · obtain ⟨haccepts, hrun⟩ := hreplay _ (List.mem_map_of_mem hmem)
    rw [hrun]
    exact ⟨haccepts, rfl⟩

/-- Two choices, with a declaration between them and an equation after them. -/
def twoChoices : List Call :=
  let a : Variable := ⟨"a", 2, by decide⟩
  let b : Variable := ⟨"b", 1, by decide⟩
  [.declare a, .equationSet ⟨.disjunction, [.ofValue a 1 true, .ofValue a 2 false]⟩,
    .declare b, .equationSet ⟨.disjunction,
      [.ofVars a b true, .ofVars a b false, .ofValue b 0 true]⟩,
    .equation (.ofValue b 1 false)]

/-- A choice of two and a choice of three make six systems. -/
theorem length_leaves_run_twoChoices :
    (new {}).Accepts twoChoices ∧ ((new {}).run twoChoices).leaves.length = 6 := by
  have haccepts : (new {}).Accepts twoChoices := ⟨rfl, rfl, rfl, rfl, rfl, trivial⟩
  obtain ⟨_, _, _, _, hlength, _⟩ := leaves_run_eq_map_resolve {} twoChoices haccepts
  exact ⟨haccepts, hlength⟩

end Problem

end BoundedEquations
