import BoundedEquations.Proofs.Domain.Counting
import BoundedEquations.Proofs.System.Propagation

/-!
# `BoundedEquations.Proofs.System.Room`: when every variable has room, there is a solution

A variable has room when it has more values than variables to differ from. If every variable has
room, values can be handed out one name after the other. Whatever the others have got by then, one
value is left, because a list of values that is as long as the list of neighbours is too short to
hold the whole domain. The theorems:

* `exists_value`, `HoldsOn.cons`: there is always a value left for one more variable, which can be
  served with it.
* `exists_holdsOn`: any list of names can be served.
* `satisfiable_of_room`: so the whole system has a solution.
-/

set_option autoImplicit false

namespace BoundedEquations.System

variable {s : System} {σ : Assignment}

/-- Every variable at an inequality has more values than variables to differ from. -/
def Roomy (s : System) : Prop :=
  ∀ x y, s.inequalities.hasEdge x y = true →
    ∀ d, s.domains.find? x = some d → s.inequalities.degree x < d.size

/-- The variables of some names have values of their domains, and respect the inequalities among
them. -/
def HoldsOn (σ : Assignment) (names : List String) (s : System) : Prop :=
  (∀ x d, x.name ∈ names → s.domains.find? x = some d → σ x.name ∈ d) ∧
    ∀ x y, x.name ∈ names → y.name ∈ names → s.inequalities.hasEdge x y = true →
      σ x.name ≠ σ y.name

/-- Some value of a variable is different from those of all variables that it is to differ from. A
variable that is not declared is at no inequality, and any value will do for it. -/
theorem exists_value (hs : s.Ready) (hroom : s.Roomy) (σ : Assignment) (x : Variable) :
    ∃ v, (∀ d, s.domains.find? x = some d → v ∈ d) ∧
      ∀ y, s.inequalities.hasEdge x y = true → v ≠ σ y.name := by
  by_cases hvertex : ∃ y, s.inequalities.hasEdge x y = true
  · obtain ⟨y, hxy⟩ := hvertex
    obtain ⟨d, hd⟩ := Table.contains_iff_exists.mp (hs.wellFormed.inequalities_declared x y hxy)
    -- The values that are taken already, one for each neighbour.
    have hlength : ((s.inequalities.neighbours x).map fun z => σ z.name).length < d.size := by
      rw [List.length_map]
      exact hroom x y hxy d hd
    obtain ⟨v, hv, hfree⟩ :=
      Domain.exists_mem_notMem_of_length_lt (hs.wellFormed.canonical x d hd) hlength
    refine ⟨v, ?_, ?_⟩
    · intro e he
      obtain rfl := Option.some.inj (hd.symm.trans he)
      exact hv
    · intro z hxz hvalue
      refine hfree ?_
      obtain ⟨c, hc, hname⟩ := Graph.hasEdge_iff_exists_neighbour.mp hxz
      rw [hvalue, ← hname]
      exact List.mem_map_of_mem hc
  · have hnone : ∀ (v : Nat) (y : Variable), s.inequalities.hasEdge x y = true → v ≠ σ y.name :=
      fun v y hxy => absurd ⟨y, hxy⟩ hvertex
    cases hfind : s.domains.find? x with
    | some d =>
      obtain ⟨v, hv⟩ := hs.live x d hfind
      exact ⟨v, fun e he => Option.some.inj he ▸ hv, hnone v⟩
    | none => exact ⟨0, fun e he => absurd he.symm (Option.some_ne_none e), hnone 0⟩

/-- One more name can be served, with a value that none of its neighbours has. -/
theorem HoldsOn.cons {names : List String} {x : Variable} {v : Nat} (hs : s.WellFormed)
    (h : s.HoldsOn σ names) (hv : ∀ d, s.domains.find? x = some d → v ∈ d)
    (hfree : ∀ y, s.inequalities.hasEdge x y = true → v ≠ σ y.name) :
    s.HoldsOn (fun name => if name = x.name then v else σ name) (x.name :: names) := by
  have hsimple := hs.inequalities_simple
  have hfree' : ∀ a b, a.name = x.name → s.inequalities.hasEdge a b = true → v ≠ σ b.name := by
    intro a b ha hab
    rw [s.inequalities.hasEdge_congr ha rfl] at hab
    exact hfree b hab
  constructor
  · intro a d ha hd
    show (if a.name = x.name then v else σ a.name) ∈ d
    by_cases hax : a.name = x.name
    · rw [if_pos hax]
      exact hv d ((s.domains.find?_congr hax.symm).trans hd)
    · rw [if_neg hax]
      exact h.1 a d ((List.mem_cons.mp ha).resolve_left hax) hd
  · intro a b ha hb hab
    show (if a.name = x.name then v else σ a.name) ≠ if b.name = x.name then v else σ b.name
    by_cases hax : a.name = x.name
    · -- The other end keeps its value, because no inequality is between a variable and itself.
      have hbx : b.name ≠ x.name := fun hbx => hsimple.ne_of_hasEdge hab (hax.trans hbx.symm)
      rw [if_pos hax, if_neg hbx]
      exact hfree' a b hax hab
    · rw [if_neg hax]
      by_cases hbx : b.name = x.name
      · rw [if_pos hbx]
        exact (hfree' b a hbx (hsimple.symmetric a b hab)).symm
      · rw [if_neg hbx]
        exact h.2 a b ((List.mem_cons.mp ha).resolve_left hax)
          ((List.mem_cons.mp hb).resolve_left hbx) hab

/-- Values can be handed out to any list of names, one after the other. -/
theorem exists_holdsOn (hs : s.Ready) (hroom : s.Roomy) (names : List String) :
    ∃ σ, s.HoldsOn σ names := by
  induction names with
  | nil => exact ⟨fun _ => 0, fun _ _ h => absurd h List.not_mem_nil,
      fun _ _ h => absurd h List.not_mem_nil⟩
  | cons name rest ih =>
    obtain ⟨σ, hrest⟩ := ih
    -- The tables go by names, so a variable of any width will do to look the name up.
    obtain ⟨v, hv, hfree⟩ := exists_value hs hroom σ ⟨name, 1, Nat.one_pos⟩
    exact ⟨_, hrest.cons hs.wellFormed hv hfree⟩

/-- **If every variable has room, the system has a solution.** -/
theorem satisfiable_of_room (hs : s.Ready) (hroom : s.Roomy) : s.Satisfiable := by
  obtain ⟨σ, hdomains, hedges⟩ := exists_holdsOn hs hroom s.domains.names
  refine ⟨σ, holds_iff.mpr ⟨fun x d hd => ?_, fun x y hxy => ?_, fun x y hxy => ?_⟩⟩
  · exact hdomains x d (Table.mem_names_iff_contains.mpr (Table.contains_iff_exists.mpr ⟨d, hd⟩)) hd
  · exact nomatch (hs.reduced x y).symm.trans hxy
  · obtain ⟨hx, hy⟩ := hs.wellFormed.inequalities_endpoints hxy
    exact hedges x y (Table.mem_names_iff_contains.mpr hx) (Table.mem_names_iff_contains.mpr hy) hxy

end BoundedEquations.System
