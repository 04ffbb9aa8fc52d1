import BoundedEquations.Proofs.Domain.Canonical

/-!
# `BoundedEquations.Proofs.Domain.Insertion`: adding the values of an interval

`Domain.insert` cuts the list of ranges in two at the first range that touches the new one or lies
above it. The ranges before the cut are left alone. From the cut on, `Domain.absorb` joins to the
new range what it touches, and stops at the first range that it does not reach. The theorems:

* `firstMeeting_law`: the ranges before the cut are those that lie apart below the new one.
* `mem_absorb`, `mem_insert`: the values afterwards are the old ones and the new ones.
* `pairwise_absorb`, `canonical_insert`: ranges that have come to touch are joined, so the canonical
  form is kept.
* `mem_foldl_insert`, `mem_union`, `canonical_union`: the same for many intervals in succession.
-/

set_option autoImplicit false

namespace BoundedEquations.Domain

/-! ### Joining what is touched -/

/-- The ranges of the result hold the values of all ranges that went into it. -/
theorem mem_absorb (r : Interval) (rs : List Interval) (v : Nat) :
    (∃ c ∈ absorb r rs, v ∈ c) ↔ v ∈ r ∨ ∃ s ∈ rs, v ∈ s := by
  fun_induction absorb r rs with
  | case1 r => simp
  | case2 r s rest joined hjoined ih =>
    rw [ih, Interval.mem_union? hjoined, or_assoc]
    simp only [List.mem_cons, exists_eq_or_imp]
  | case3 r s rest _ => simp only [List.mem_cons, exists_eq_or_imp]

/-- A range that is not joined lies apart above the new one, if it does not lie apart below. -/
theorem apart_of_union?_eq_none {r s : Interval} (h : r.union? s = none)
    (hreach : ¬Apart s r) : Apart r s :=
  (Interval.union?_eq_none_iff.mp h).resolve_right hreach

/-- The result ascends, and no two of its ranges touch. The walk may stop at the first range that is
not reached, because the ranges behind it lie further up. -/
theorem pairwise_absorb {r : Interval} {rs : List Interval} (hrs : rs.Pairwise Apart)
    (hreach : ∀ s ∈ rs, ¬Apart s r) : (absorb r rs).Pairwise Apart := by
  fun_induction absorb r rs with
  | case1 r => exact List.pairwise_singleton _ _
  | case2 r s rest joined hjoined ih =>
    obtain ⟨hs, hrest⟩ := List.pairwise_cons.mp hrs
    refine ih hrest fun t ht hbelow => ?_
    -- The joined range begins no higher than `s`, which lies below all that follow.
    have hmem : s.lo ∈ joined := (Interval.mem_union? hjoined).mpr (Or.inr s.lo_mem)
    have hlo : joined.lo ≤ s.lo := hmem.1
    have hst : s.hi + 1 < t.lo := hs t ht
    have hbelow' : t.hi + 1 < joined.lo := hbelow
    have := s.lo_le_hi
    have := t.lo_le_hi
    omega
  | case3 r s rest hnone =>
    have hrs' := apart_of_union?_eq_none hnone (hreach s List.mem_cons_self)
    refine List.pairwise_cons.mpr ⟨fun t ht => ?_, hrs⟩
    rcases List.mem_cons.mp ht with rfl | ht
    · exact hrs'
    · have hst : s.hi + 1 < t.lo := (List.pairwise_cons.mp hrs).1 t ht
      have hrs'' : r.hi + 1 < s.lo := hrs'
      have := s.lo_le_hi
      show r.hi + 1 < t.lo
      omega

/-! ### The place of the new range -/

/-- The ranges before the cut are those that lie apart below the new one. -/
theorem firstMeeting_law {d : Domain} (hd : d.Canonical) (r : Interval) {i : Nat} {s : Interval}
    (hs : d.ranges[i]? = some s) : i < d.firstMeeting r ↔ Apart s r := by
  -- A range that ends below the new one touches it just when no value is missing in between.
  have htest : ∀ s : Interval, (!decide (s.Touches r) && decide (s.hi < r.lo)) = true ↔
      s.hi + 1 < r.lo := by
    intro s
    have := s.lo_le_hi
    have := r.lo_le_hi
    rw [Bool.and_eq_true, Bool.not_eq_true', decide_eq_false_iff_not, decide_eq_true_eq]
    show ¬(s.lo ≤ r.hi + 1 ∧ r.lo ≤ s.hi + 1) ∧ s.hi < r.lo ↔ s.hi + 1 < r.lo
    omega
  refine (firstFailure_ranges_law hd ?_ hs).trans (htest s)
  intro s t hst ht
  have hst' : s.hi + 1 < t.lo := hst
  have := t.lo_le_hi
  have := (htest t).mp ht
  exact (htest s).mpr (by omega)

/-- The ranges before the place of insertion end well below the new one. -/
theorem apart_of_mem_take {d : Domain} (hd : d.Canonical) (r : Interval) {s : Interval}
    (hs : s ∈ d.ranges.toList.take (d.firstMeeting r)) : Apart s r := by
  obtain ⟨i, hi⟩ := List.getElem?_of_mem hs
  rw [List.getElem?_take, Array.getElem?_toList] at hi
  split at hi
  · rename_i hlt
    exact (firstMeeting_law hd r hi).mp hlt
  · exact nomatch hi

/-- The ranges from the place of insertion on do not end well below the new one. -/
theorem not_apart_of_mem_drop {d : Domain} (hd : d.Canonical) (r : Interval) {s : Interval}
    (hs : s ∈ d.ranges.toList.drop (d.firstMeeting r)) : ¬Apart s r := by
  obtain ⟨i, hi⟩ := List.getElem?_of_mem hs
  rw [List.getElem?_drop, Array.getElem?_toList] at hi
  intro hapart
  have := (firstMeeting_law hd r hi).mpr hapart
  omega

/-! ### Insertion and union -/

/-- Insertion adds the values of the interval, wherever the list is cut. -/
theorem mem_insert {d : Domain} {r : Interval} {v : Nat} :
    v ∈ d.insert r ↔ v ∈ d ∨ v ∈ r := by
  rw [mem_iff_exists_toList, mem_iff_exists_toList]
  show (∃ c ∈ d.ranges.toList.take _ ++ absorb r (d.ranges.toList.drop _), v ∈ c) ↔ _
  simp only [List.mem_append, or_and_right, exists_or, mem_absorb]
  rw [or_left_comm, or_comm]
  refine or_congr_left ?_
  -- The two parts of the cut list are put together again.
  rw [← exists_or]
  simp only [← or_and_right, ← List.mem_append, List.take_append_drop]

/-- Inserting an interval keeps a domain canonical. -/
theorem canonical_insert {d : Domain} (hd : d.Canonical) (r : Interval) :
    (d.insert r).Canonical := by
  have hcut := hd
  rw [Canonical, ← List.take_append_drop (d.firstMeeting r) d.ranges.toList] at hcut
  obtain ⟨htake, hdrop, hcross⟩ := List.pairwise_append.mp hcut
  refine List.pairwise_append.mpr ⟨htake, pairwise_absorb hdrop fun s hs =>
    not_apart_of_mem_drop hd r hs, fun p hp c hc => ?_⟩
  -- A range of the second part begins where the new range or an old one of that part begins.
  show p.hi + 1 < c.lo
  rcases (mem_absorb r _ c.lo).mp ⟨c, hc, c.lo_mem⟩ with hcr | ⟨s, hs, hcs⟩
  · have hpr : p.hi + 1 < r.lo := apart_of_mem_take hd r hp
    exact Nat.lt_of_lt_of_le hpr hcr.1
  · have hps : p.hi + 1 < s.lo := hcross p hp s hs
    exact Nat.lt_of_lt_of_le hps hcs.1

/-- Inserting the intervals of a list one by one adds the values of all of them. -/
theorem mem_foldl_insert (rs : List Interval) {d : Domain} {v : Nat} :
    v ∈ rs.foldl insert d ↔ v ∈ d ∨ ∃ r ∈ rs, v ∈ r := by
  induction rs generalizing d with
  | nil => simp
  | cons r rs ih =>
    rw [List.foldl_cons, ih, mem_insert, or_assoc]
    simp only [List.mem_cons, exists_eq_or_imp]

/-- Inserting several intervals keeps a domain canonical. -/
theorem canonical_foldl_insert {d : Domain} (hd : d.Canonical) (rs : List Interval) :
    (rs.foldl insert d).Canonical := by
  induction rs generalizing d with
  | nil => exact hd
  | cons r rs ih => exact ih (canonical_insert hd r)

/-- A union is made by inserting the ranges of the second domain one by one. -/
theorem union_eq_foldl (d e : Domain) : d ∪ e = e.ranges.toList.foldl insert d := by
  show e.ranges.foldl insert d = _
  rw [Array.foldl_toList]

/-- The union has just the values of either domain. -/
theorem mem_union {d e : Domain} {v : Nat} : v ∈ d ∪ e ↔ v ∈ d ∨ v ∈ e := by
  rw [union_eq_foldl, mem_foldl_insert, ← mem_iff_exists_toList]

/-- The union is canonical if the first domain is. -/
theorem canonical_union {d : Domain} (hd : d.Canonical) (e : Domain) : (d ∪ e).Canonical := by
  rw [union_eq_foldl]
  exact canonical_foldl_insert hd _

end BoundedEquations.Domain
