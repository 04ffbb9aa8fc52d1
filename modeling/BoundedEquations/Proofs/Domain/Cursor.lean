import BoundedEquations.Domain.Cursor
import BoundedEquations.Proofs.Domain.Algebra

/-!
# `BoundedEquations.Proofs.Domain.Cursor`: which values a cursor visits

A cursor is valid when the value that it announces lies in the first of its ranges. Every step keeps
this, so a walk never runs past its last range. The theorems:

* `next_cases`: a step ends the walk, or it takes one value and leaves all others to come.
* `Valid.not_yields_of_next`, `Valid.of_next`: the same, told from what the step has answered.
* `next_ascending`: the value that a step takes lies below all others to come.
* `valid_cursor`, `yields_cursor_iff`: the walk over a domain begins validly and visits its values.
-/

set_option autoImplicit false

namespace BoundedEquations.Domain.Cursor

/-- The announced value lies in the first range. -/
def Valid : Cursor → Prop
  | ⟨none, _⟩ => True
  | ⟨some _, []⟩ => False
  | ⟨some w, r :: _⟩ => w ∈ r

/-- The value is still to come. -/
def Yields (v : Nat) : Cursor → Prop
  | ⟨none, _⟩ => False
  | ⟨some _, []⟩ => False
  | ⟨some w, r :: rest⟩ => (w ≤ v ∧ v ≤ r.hi) ∨ ∃ s ∈ rest, v ∈ s

/-- Before the first value of some ranges all of their values are to come. -/
theorem start_cases (rs : List Interval) :
    Valid ⟨rs.head?.map Interval.lo, rs⟩ ∧
      ∀ v, Yields v ⟨rs.head?.map Interval.lo, rs⟩ ↔ ∃ r ∈ rs, v ∈ r := by
  cases rs with
  | nil => exact ⟨trivial, fun v => by simp [Yields]⟩
  | cons r rest =>
    refine ⟨r.lo_mem, fun v => ?_⟩
    show (r.lo ≤ v ∧ v ≤ r.hi) ∨ _ ↔ _
    simp only [List.mem_cons, exists_eq_or_imp, Interval.mem_iff]

/-- A cursor before the first value announces the least value of its first range. -/
theorem valid_cursor (d : Domain) : d.cursor.Valid := (start_cases _).1

/-- A cursor before the first value still has all values of the domain to come. -/
theorem yields_cursor_iff {d : Domain} {v : Nat} : Yields v d.cursor ↔ v ∈ d :=
  ((start_cases _).2 v).trans mem_iff_exists_toList.symm

/-- A step of a valid cursor takes one of the values to come, or there are none. -/
theorem next_cases {c : Cursor} (hc : c.Valid) :
    (c.next = .ok none ∧ ∀ v, ¬Yields v c) ∨
      ∃ w c', c.next = .ok (some (w, c')) ∧ c'.Valid ∧ ∀ v, Yields v c ↔ v = w ∨ Yields v c' := by
  match c, hc with
  | ⟨none, _⟩, _ => exact Or.inl ⟨rfl, fun _ => id⟩
  | ⟨some w, r :: rest⟩, hc =>
    have hw : r.lo ≤ w ∧ w ≤ r.hi := hc
    by_cases hlt : w < r.hi
    · -- The cursor stays in its range and announces the next value.
      refine Or.inr ⟨w, ⟨some (w + 1), r :: rest⟩, if_pos hlt, ⟨?_, ?_⟩, fun v => ?_⟩
      · show r.lo ≤ w + 1
        omega
      · show w + 1 ≤ r.hi
        omega
      · show (w ≤ v ∧ v ≤ r.hi) ∨ _ ↔ v = w ∨ (w + 1 ≤ v ∧ v ≤ r.hi) ∨ _
        rw [← or_assoc]
        refine or_congr_left ?_
        omega
    · -- The announced value is the last one of its range, so the next range is taken up.
      obtain ⟨hvalid, hyields⟩ := start_cases rest
      refine Or.inr ⟨w, ⟨rest.head?.map Interval.lo, rest⟩, if_neg hlt, hvalid, fun v => ?_⟩
      rw [hyields]
      show (w ≤ v ∧ v ≤ r.hi) ∨ _ ↔ v = w ∨ _
      refine or_congr_left ?_
      omega

/-- When a valid walk ends, nothing is left to come. -/
theorem Valid.not_yields_of_next {c : Cursor} (hc : c.Valid) (h : c.next = .ok none) (v : Nat) :
    ¬Yields v c := by
  rcases next_cases hc with ⟨_, hnone⟩ | ⟨w, c', hsome, _, _⟩
  · exact hnone v
  · rw [hsome] at h
    exact nomatch Except.ok.inj h

/-- A step of a valid walk takes one of the values to come and leaves the others. -/
theorem Valid.of_next {c c' : Cursor} {w : Nat} (hc : c.Valid) (h : c.next = .ok (some (w, c'))) :
    c'.Valid ∧ ∀ v, Yields v c ↔ v = w ∨ Yields v c' := by
  rcases next_cases hc with ⟨hnone, _⟩ | ⟨u, c'', hsome, hvalid, hyields⟩
  · rw [hnone] at h
    exact nomatch Except.ok.inj h
  · rw [hsome] at h
    obtain ⟨rfl, rfl⟩ := Prod.mk.inj (Option.some.inj (Except.ok.inj h))
    exact ⟨hvalid, hyields⟩

/-- Over ranges in order a step takes the least of the values to come. -/
theorem next_ascending {c c' : Cursor} {w : Nat} (hc : c.Valid) (horder : c.ranges.Pairwise Apart)
    (h : c.next = .ok (some (w, c'))) : c'.ranges.Pairwise Apart ∧ ∀ v, Yields v c' → w < v := by
  match c, hc with
  | ⟨some u, r :: rest⟩, hc =>
    have hu : r.lo ≤ u ∧ u ≤ r.hi := hc
    have habove : ∀ v, (∃ s ∈ rest, v ∈ s) → u < v := by
      intro v hv
      have := lt_of_mem_tail horder hv
      omega
    rw [next] at h
    split at h
    · obtain ⟨rfl, rfl⟩ := Prod.mk.inj (Option.some.inj (Except.ok.inj h))
      refine ⟨horder, fun v hv => ?_⟩
      rcases (hv : (u + 1 ≤ v ∧ v ≤ r.hi) ∨ _) with ⟨hlt, _⟩ | hrest
      · exact hlt
      · exact habove v hrest
    · obtain ⟨rfl, rfl⟩ := Prod.mk.inj (Option.some.inj (Except.ok.inj h))
      refine ⟨(List.pairwise_cons.mp horder).2, fun v hv => ?_⟩
      exact habove v (((start_cases rest).2 v).mp hv)

end BoundedEquations.Domain.Cursor
