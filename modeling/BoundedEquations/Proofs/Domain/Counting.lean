import BoundedEquations.Proofs.Domain.Algebra
import Mathlib.Order.Interval.Finset.Nat

/-!
# `BoundedEquations.Proofs.Domain.Counting`: the size of a domain counts its values

The size of a domain is computed from the ends of its ranges. The theorems:

* `card_values`: it is the number of values, when no value lies in two ranges.
* `exists_mem_notMem_of_length_lt`: a set of more values than a list is long has a value outside
  the list. With this a value can be found that differs from those of all neighbours.
-/

set_option autoImplicit false

namespace BoundedEquations.Domain

/-- The values as a finite set. -/
def values (d : Domain) : Finset Nat :=
  d.ranges.toList.foldr (fun r vs => Finset.Icc r.lo r.hi ∪ vs) ∅

/-- The listed values are those of the domain. -/
theorem mem_values {d : Domain} {v : Nat} : v ∈ d.values ↔ v ∈ d := by
  rw [values, mem_iff_exists_toList]
  generalize d.ranges.toList = rs
  induction rs with
  | nil => simp
  | cons r rs ih =>
    rw [List.foldr_cons, Finset.mem_union, ih, Finset.mem_Icc, ← Interval.mem_iff]
    simp only [List.mem_cons, exists_eq_or_imp]

/-- The ranges of a canonical set share no values, so their sizes add up. -/
theorem card_values {d : Domain} (hd : d.Canonical) : d.values.card = d.size := by
  rw [Canonical] at hd
  rw [values, size]
  -- The induction is on the list of ranges, of which only the order matters.
  generalize hrs : d.ranges.toList = rs at hd
  clear hrs
  induction rs with
  | nil => rfl
  | cons r rs ih =>
    have hdisjoint : Disjoint (Finset.Icc r.lo r.hi)
        (rs.foldr (fun r vs => Finset.Icc r.lo r.hi ∪ vs) ∅) := by
      rw [Finset.disjoint_left]
      intro v hv hrest
      have hmem : v ∈ (⟨rs.toArray⟩ : Domain) := mem_values.mp hrest
      have habove := lt_of_mem_tail hd (mem_iff_exists_toList.mp hmem)
      have hle := (Finset.mem_Icc.mp hv).2
      omega
    have hr := r.lo_le_hi
    rw [List.foldr_cons, Finset.card_union_of_disjoint hdisjoint,
      ih (List.pairwise_cons.mp hd).2, Interval.totalSize_cons, Nat.card_Icc, Interval.size]
    omega

/-- A list is too short to hold all values of a set that is larger. -/
theorem exists_mem_notMem_of_length_lt {d : Domain} (hd : d.Canonical) {vs : List Nat}
    (h : vs.length < d.size) : ∃ v, v ∈ d ∧ v ∉ vs := by
  have hcard : vs.toFinset.card < d.values.card := by
    rw [card_values hd]
    exact Nat.lt_of_le_of_lt (List.toFinset_card_le vs) h
  obtain ⟨v, hv, hnot⟩ := Finset.exists_mem_notMem_of_card_lt_card hcard
  exact ⟨v, mem_values.mp hv, fun hvs => hnot (List.mem_toFinset.mpr hvs)⟩

end BoundedEquations.Domain
