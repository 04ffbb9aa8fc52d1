import BoundedEquations.Proofs.Domain.Insertion

/-!
# `BoundedEquations.Proofs.Domain.SetAlgebra`: the operations are those of sets

From outside a domain is known by the answers of `Domain.contains`. This module says what the
operations do to these answers. A canonical domain is determined by its values, so laws of sets hold
as equations between domains, range by range: the order of the two sides of an intersection makes no
difference, and neither does the order in which intervals are inserted. The theorems:

* `contains_insert`, `contains_union`, `contains_inter`: the values afterwards.
* `mem_ofList`, `ofList_congr`: the union of the intervals of a list.
* `inter_comm`, `overlaps_iff_inter`: the sweep for common pieces, and the one that stops early.
* `contains_sdiff`, `covers_iff_sdiff_eq_empty`: the difference, and the test for a subset.
* `insert_adds_values`, `inter_agrees_with_overlaps`, `sdiff_agrees_with_lookups`: the laws of
  union, of intersection and of difference.
-/

set_option autoImplicit false

namespace BoundedEquations.Domain

variable {d e : Domain} {v : Nat}

/-! ### Union -/

/-- Looking up a value after an insertion. -/
theorem contains_insert (hd : d.Canonical) (r : Interval) :
    (d.insert r).contains v = true ↔ d.contains v = true ∨ v ∈ r := by
  rw [contains_iff_mem (canonical_insert hd r), contains_iff_mem hd, mem_insert]

/-- Looking up a value in a union. -/
theorem contains_union (hd : d.Canonical) (he : e.Canonical) :
    (d ∪ e).contains v = true ↔ d.contains v = true ∨ e.contains v = true := by
  rw [contains_iff_mem (canonical_union hd e), contains_iff_mem hd, contains_iff_mem he, mem_union]

/-- A domain made from a list of intervals is canonical. -/
theorem canonical_ofList (rs : List Interval) : (ofList rs).Canonical :=
  canonical_foldl_insert canonical_empty rs

/-- A domain made from a list of intervals has the values of these. -/
theorem mem_ofList {rs : List Interval} : v ∈ ofList rs ↔ ∃ r ∈ rs, v ∈ r := by
  rw [ofList, mem_foldl_insert, or_iff_right_iff_imp]
  intro hv
  simp [mem_iff, empty] at hv

/-- Intervals that cover the same values make up the same domain, in whatever order they come and
however often. -/
theorem ofList_congr {rs rs' : List Interval}
    (h : ∀ v, (∃ r ∈ rs', v ∈ r) ↔ ∃ r ∈ rs, v ∈ r) : ofList rs' = ofList rs := by
  refine eq_of_mem_iff (canonical_ofList rs') (canonical_ofList rs) fun v => ?_
  rw [mem_ofList, mem_ofList, h]

/-- **Insertion is union.** To a canonical domain it adds the values of the interval and no others,
and it keeps the canonical form. So does the union with another domain. Intervals that are inserted
into the empty domain make up their union, and a list with the same members, in another order or
with repetitions, makes up the same domain. -/
theorem insert_adds_values (hd : d.Canonical) :
    (∀ r, (d.insert r).Canonical ∧
      ∀ v, (d.insert r).contains v = true ↔ d.contains v = true ∨ v ∈ r) ∧
    (∀ e : Domain, e.Canonical → (d ∪ e).Canonical ∧
      ∀ v, (d ∪ e).contains v = true ↔ d.contains v = true ∨ e.contains v = true) ∧
    ∀ rs, (ofList rs).Canonical ∧
      (∀ v, (ofList rs).contains v = true ↔ ∃ r ∈ rs, v ∈ r) ∧
      ∀ rs', (∀ r, r ∈ rs' ↔ r ∈ rs) → ofList rs' = ofList rs := by
  refine ⟨fun r => ⟨canonical_insert hd r, fun v => contains_insert hd r⟩, fun e he =>
    ⟨canonical_union hd e, fun v => contains_union hd he⟩, fun rs =>
    ⟨canonical_ofList rs, fun v => ?_, fun rs' h => ofList_congr fun v => ?_⟩⟩
  · rw [contains_iff_mem (canonical_ofList rs), mem_ofList]
  · simp only [h]

/-- Three ranges with gaps between them. -/
def threeRanges : Domain :=
  ⟨#[⟨0, 1, by decide⟩, ⟨4, 5, by decide⟩, ⟨9, 9, by decide⟩]⟩

/-- An interval that reaches from the first gap to the last one touches all three ranges. The ranges
are also put together backwards, and then once more. -/
theorem insert_adds_values_threeRanges :
    threeRanges.Canonical ∧ threeRanges.insert ⟨2, 8, by decide⟩ = ofInterval ⟨0, 9, by decide⟩ ∧
      (∀ v, (threeRanges.insert ⟨2, 8, by decide⟩).contains v = true ↔
        threeRanges.contains v = true ∨ v ∈ (⟨2, 8, by decide⟩ : Interval)) ∧
      (∀ v, (threeRanges ∪ full 3).contains v = true ↔
        threeRanges.contains v = true ∨ (full 3).contains v = true) ∧
      ofList (threeRanges.ranges.toList.reverse ++ threeRanges.ranges.toList) =
        ofList threeRanges.ranges.toList := by
  have hcanonical : threeRanges.Canonical := by decide
  obtain ⟨hinsert, hunion, hlist⟩ := insert_adds_values hcanonical
  exact ⟨hcanonical, by cbv, (hinsert _).2, (hunion _ (canonical_full 3)).2,
    (hlist _).2.2 _ (by simp)⟩

/-! ### Intersection -/

/-- Looking up a value in an intersection. -/
theorem contains_inter (hd : d.Canonical) (he : e.Canonical) :
    (d ∩ e).contains v = true ↔ d.contains v = true ∧ e.contains v = true := by
  rw [contains_iff_mem (canonical_inter hd he), contains_iff_mem hd, contains_iff_mem he,
    mem_inter hd he]

/-- The two domains of an intersection may be exchanged. -/
theorem inter_comm (hd : d.Canonical) (he : e.Canonical) : d ∩ e = e ∩ d := by
  refine eq_of_mem_iff (canonical_inter hd he) (canonical_inter he hd) fun v => ?_
  rw [mem_inter hd he, mem_inter he hd, and_comm]

/-- The two sweeps agree: one finds an overlap just when the other finds a piece. -/
theorem overlaps_iff_inter (hd : d.Canonical) (he : e.Canonical) :
    d.overlaps e = true ↔ (d ∩ e).isEmpty = false := by
  rw [overlaps_iff_exists_mem hd he, isEmpty_eq_false_iff]
  simp only [mem_inter hd he]

/-- **The sweep for common pieces computes the intersection, and the sweep that stops early tells
whether it has a value.** The result of the first is canonical, and neither depends on the order of
the two sides. -/
theorem inter_agrees_with_overlaps (hd : d.Canonical) (he : e.Canonical) :
    (d ∩ e).Canonical ∧
      (∀ v, (d ∩ e).contains v = true ↔ d.contains v = true ∧ e.contains v = true) ∧
      (d.overlaps e = true ↔ (d ∩ e).isEmpty = false) ∧
      d ∩ e = e ∩ d ∧ d.overlaps e = e.overlaps d := by
  refine ⟨canonical_inter hd he, fun v => contains_inter hd he, overlaps_iff_inter hd he,
    inter_comm hd he, ?_⟩
  rw [Bool.eq_iff_iff, overlaps_iff_inter hd he, overlaps_iff_inter he hd, inter_comm hd he]

/-- The second range ends together with the last of the others, and the first one lies in a gap. -/
theorem inter_agrees_with_overlaps_threeRanges :
    threeRanges.Canonical ∧ (ofList [⟨2, 3, by decide⟩, ⟨5, 9, by decide⟩]).Canonical ∧
      threeRanges ∩ ofList [⟨2, 3, by decide⟩, ⟨5, 9, by decide⟩] =
        ofList [⟨5, 5, by decide⟩, ⟨9, 9, by decide⟩] ∧
      (threeRanges.overlaps (ofList [⟨2, 3, by decide⟩, ⟨5, 9, by decide⟩]) = true ↔
        (threeRanges ∩ ofList [⟨2, 3, by decide⟩, ⟨5, 9, by decide⟩]).isEmpty = false) ∧
      threeRanges ∩ ofList [⟨2, 3, by decide⟩, ⟨5, 9, by decide⟩] =
        ofList [⟨2, 3, by decide⟩, ⟨5, 9, by decide⟩] ∩ threeRanges := by
  have hcanonical : threeRanges.Canonical := by decide
  obtain ⟨_, _, hoverlaps, hcomm, _⟩ :=
    inter_agrees_with_overlaps hcanonical (canonical_ofList [⟨2, 3, by decide⟩, ⟨5, 9, by decide⟩])
  exact ⟨hcanonical, canonical_ofList _, by cbv, hoverlaps, hcomm⟩

/-! ### Difference -/

/-- A look-up that finds nothing means that the value is not there. -/
theorem contains_eq_false_iff (hd : d.Canonical) : d.contains v = false ↔ v ∉ d := by
  rw [← Bool.not_eq_true, contains_iff_mem hd]

/-- Looking up a value in a difference. -/
theorem contains_sdiff (hd : d.Canonical) (he : e.Canonical) :
    (d \ e).contains v = true ↔ d.contains v = true ∧ e.contains v = false := by
  rw [contains_iff_mem (canonical_sdiff e hd), contains_iff_mem hd, contains_eq_false_iff he,
    mem_sdiff]

/-- A set covers another one just when nothing is left of that one without it. -/
theorem covers_iff_sdiff_eq_empty (he : e.Canonical) : e.covers d = true ↔ d \ e = empty := by
  rw [covers_iff he, eq_empty_iff]
  simp only [mem_sdiff, not_and, not_not]

/-- **Taking ranges out one by one computes the set difference, and the look-ups by bisection agree
with it.** A value is found just when it lies in some range. The difference is canonical and has the
values of the first set that are not found in the second. It is empty just when for each range of
the first set the second one has a range around it, which is looked for at the lower end only. -/
theorem sdiff_agrees_with_lookups (hd : d.Canonical) (he : e.Canonical) :
    (∀ v, e.contains v = true ↔ ∃ r ∈ e.ranges, r.lo ≤ v ∧ v ≤ r.hi) ∧
      (d \ e).Canonical ∧
      (∀ v, (d \ e).contains v = true ↔ d.contains v = true ∧ e.contains v = false) ∧
      (e.covers d = true ↔ d \ e = empty) :=
  ⟨fun _ => contains_iff_mem he, canonical_sdiff e hd, fun _ => contains_sdiff hd he,
    covers_iff_sdiff_eq_empty he⟩

/-- What is taken out reaches from the first range into the second one and ends with the third. Both
ends of the gap between the first two ranges are covered, but not the gap. -/
theorem sdiff_agrees_with_lookups_threeRanges :
    threeRanges.Canonical ∧ (ofList [⟨1, 4, by decide⟩, ⟨9, 9, by decide⟩]).Canonical ∧
      threeRanges \ ofList [⟨1, 4, by decide⟩, ⟨9, 9, by decide⟩] =
        ofList [⟨0, 0, by decide⟩, ⟨5, 5, by decide⟩] ∧
      (∀ v, (threeRanges \ ofList [⟨1, 4, by decide⟩, ⟨9, 9, by decide⟩]).contains v = true ↔
        threeRanges.contains v = true ∧
          (ofList [⟨1, 4, by decide⟩, ⟨9, 9, by decide⟩]).contains v = false) ∧
      threeRanges.covers (ofList [⟨1, 4, by decide⟩, ⟨9, 9, by decide⟩]) = false ∧
      ofList [⟨1, 4, by decide⟩, ⟨9, 9, by decide⟩] \ threeRanges ≠ empty := by
  have hcanonical : threeRanges.Canonical := by decide
  have hother := canonical_ofList [⟨1, 4, by decide⟩, ⟨9, 9, by decide⟩]
  have hcovers : threeRanges.covers (ofList [⟨1, 4, by decide⟩, ⟨9, 9, by decide⟩]) = false := by
    cbv
  refine ⟨hcanonical, hother, by cbv, (sdiff_agrees_with_lookups hcanonical hother).2.2.1,
    hcovers, fun hempty => ?_⟩
  rw [(sdiff_agrees_with_lookups hother hcanonical).2.2.2.mpr hempty] at hcovers
  exact Bool.false_ne_true hcovers.symm

end BoundedEquations.Domain
