import BoundedEquations.Proofs.Problem.Alternatives
import BoundedEquations.Proofs.System.Meaning

/-!
# `BoundedEquations.Proofs.Problem.Meaning`: a problem means what its calls say

`Solves` reads the meaning of a list of calls off the calls alone. The tree that the calls build has
a meaning of its own, and the two agree. The proof settles the choices first. A list of calls is
solved when one of its resolutions is, and a resolution builds a single system, whose meaning is
followed call by call. The theorems:

* `holdsBefore_iff_exists_alternative`, `solves_iff_exists_resolution`: settling the choices does
  not change the meaning.
* `holdsBefore_step`, `holds_foldl_step`: the demands that the calls at a single system add up to.
* `holds_run_iff_solves`: the tree after accepted calls holds under their solutions.
-/

set_option autoImplicit false

namespace BoundedEquations

variable {σ : Assignment}

namespace Call

/-- Only the declarations among the later calls matter for what a call demands. -/
theorem holdsBefore_congr {later later' : List Call}
    (h : ∀ name, later.any (declares name) = later'.any (declares name)) (call : Call) :
    call.HoldsBefore σ later ↔ call.HoldsBefore σ later' := by
  have hequation : Equation.HoldsBefore σ later = Equation.HoldsBefore σ later' :=
    funext fun e => by rw [Equation.HoldsBefore, Equation.HoldsBefore, h]
  cases call with
  | declare x => rw [HoldsBefore, HoldsBefore, h]
  | equation e => rw [HoldsBefore, HoldsBefore, hequation]
  | equationSet set => rw [HoldsBefore, HoldsBefore, hequation]

/-- What stands for a call declares the same. -/
theorem declares_of_mem_alternatives {call c : Call} (h : c ∈ call.alternatives) (name : String) :
    c.declares name = call.declares name := by
  rw [alternatives] at h
  split at h
  · rename_i hchoice
    obtain ⟨e, _, rfl⟩ := List.mem_map.mp h
    cases call with
    | declare x => exact absurd hchoice id
    | equation e' => rfl
    | equationSet set => rfl
  · obtain rfl := List.mem_singleton.mp h
    rfl

/-- Settling choices keeps all declarations. -/
theorem any_declares_of_mem_resolutions {calls replay : List Call}
    (h : replay ∈ resolutions calls) (name : String) :
    replay.any (declares name) = calls.any (declares name) := by
  induction calls generalizing replay with
  | nil =>
    obtain rfl := List.mem_singleton.mp h
    rfl
  | cons call rest ih =>
    obtain ⟨c, hc, hmem⟩ := List.mem_flatMap.mp h
    obtain ⟨replay', hreplay', rfl⟩ := List.mem_map.mp hmem
    rw [List.any_cons, List.any_cons, ih hreplay', declares_of_mem_alternatives hc]

/-- A call demands that one of its alternatives holds. -/
theorem holdsBefore_iff_exists_alternative {later : List Call} (call : Call) :
    call.HoldsBefore σ later ↔ ∃ c ∈ call.alternatives, c.HoldsBefore σ later := by
  rw [alternatives]
  split
  · rename_i hchoice
    cases call with
    | declare x => exact absurd hchoice id
    | equation e => exact absurd hchoice id
    | equationSet set =>
      rw [HoldsBefore, EquationSet.holdsFor_of_isChoice hchoice]
      simp [HoldsBefore, equations]
  · simp

/-- A list of calls is solved when one way to settle its choices is. -/
theorem solves_iff_exists_resolution (calls : List Call) :
    Solves σ calls ↔ ∃ replay ∈ resolutions calls, Solves σ replay := by
  induction calls with
  | nil => simp [resolutions, Solves]
  | cons call rest ih =>
    rw [Solves, holdsBefore_iff_exists_alternative, ih]
    -- The later calls declare what their replay declares, so either may stand behind the first.
    constructor
    · rintro ⟨⟨c, hc, hholds⟩, replay, hreplay, hsolves⟩
      refine ⟨c :: replay, List.mem_flatMap.mpr ⟨c, hc, List.mem_map_of_mem hreplay⟩, ?_, hsolves⟩
      exact (holdsBefore_congr (any_declares_of_mem_resolutions hreplay) c).mpr hholds
    · rintro ⟨_, hmem, hsolves⟩
      obtain ⟨c, hc, hmap⟩ := List.mem_flatMap.mp hmem
      obtain ⟨replay, hreplay, rfl⟩ := List.mem_map.mp hmap
      refine ⟨⟨c, hc, ?_⟩, replay, hreplay, hsolves.2⟩
      exact (holdsBefore_congr (any_declares_of_mem_resolutions hreplay) c).mp hsolves.1

end Call

namespace System

/-- A call at a single system adds its demand to those of the system. -/
theorem holdsBefore_step {s : System} (hs : s.WellFormed) {call : Call} {later : List Call}
    (hchoice : ¬call.IsChoice) (hcause : call.cause? s.domains.names = none) :
    (s.step call).HoldsBefore σ later ↔
      s.HoldsBefore σ (call :: later) ∧ call.HoldsBefore σ later := by
  have hsame : ∀ (hplain : ∀ name, call.declares name = false),
      (s.HoldsBefore σ later ↔ s.HoldsBefore σ (call :: later)) := fun hplain =>
    holdsBefore_congr fun name => by rw [List.any_cons, hplain, Bool.false_or]
  -- A declaration changes which domains count, and equations do not.
  cases call with
  | declare x => exact holdsBefore_declare x
  | equation e =>
    have hadd : (s.addAll [e]).state.HoldsBefore σ later ↔ _ ∧ ∀ e' ∈ [e], _ :=
      holdsBefore_addAll hs hcause
    rw [step, hadd, hsame fun _ => rfl, List.forall_mem_singleton]
    rfl
  | equationSet set =>
    have hadd : (s.addAll set.equations).state.HoldsBefore σ later ↔ _ :=
      holdsBefore_addAll hs hcause
    rw [step, hadd, hsame fun _ => rfl, Call.HoldsBefore,
      EquationSet.holdsFor_of_not_isChoice hchoice]

/-- Calls at a single system, one after the other, add up their demands. -/
theorem holds_foldl_step {s : System} {calls : List Call} (hs : s.WellFormed)
    (h : s.Takes calls) :
    (calls.foldl step s).Holds σ ↔ s.HoldsBefore σ calls ∧ Solves σ calls := by
  induction calls generalizing s with
  | nil => rw [Solves, and_true, holdsBefore_nil, List.foldl_nil]
  | cons call rest ih =>
    obtain ⟨hchoice, hcause, hrest⟩ := h
    rw [List.foldl_cons, ih (hs.step call) hrest, holdsBefore_step hs hchoice hcause, and_assoc]
    rfl

end System

namespace Problem

open Call

/-- **The tree that accepted calls build holds under the solutions of the calls.** -/
theorem holds_run_iff_solves {config : Config} {calls : List Call}
    (h : (new config).Accepts calls) :
    ((new config).run calls).tree.Holds σ ↔ Solves σ calls := by
  have hreplay : ∀ replay ∈ resolutions calls,
      ((replay.foldl System.step .empty).Holds σ ↔ Solves σ replay) := by
    intro replay hmem
    have htakes := takes_of_mem_resolutions h List.mem_cons_self hmem
    rw [System.holds_foldl_step System.wellFormed_empty htakes]
    exact and_iff_right System.holdsBefore_empty
  rw [CaseTree.Holds, leaves_run h, solves_iff_exists_resolution]
  show (∃ s : System, s ∈ [System.empty].flatMap _ ∧ s.Holds σ) ↔ _
  rw [List.flatMap_singleton]
  constructor
  · rintro ⟨_, hmem, hholds⟩
    obtain ⟨replay, hresolves, rfl⟩ := List.mem_map.mp hmem
    exact ⟨replay, hresolves, (hreplay replay hresolves).mp hholds⟩
  · rintro ⟨replay, hmem, hsolves⟩
    exact ⟨_, List.mem_map_of_mem hmem, (hreplay replay hmem).mpr hsolves⟩

end Problem

end BoundedEquations
