import BoundedEquations.Proofs.Domain.Algebra

/-!
# `BoundedEquations.Proofs.Domain.Canonical`: what the canonical form is good for

In a canonical domain the ranges ascend and never touch. So a value can be looked up by bisection,
and a set of values has one list of ranges only. The theorems:

* `firstFailure_ranges_law`, `firstReaching_law`: the index that bisection arrives at.
* `rangeOf?_eq_some_iff`, `contains_iff_mem`: looking a value up by bisection decides membership.
* `subset_of_forall_mem`, `covers_iff`: a range that lies in the domain lies within one of its
  ranges.
* `bounds_of_forall_mem`: where the first range begins and ends is determined by the values.
* `eq_of_pairwise_apart`, `eq_of_mem_iff`: canonical domains with the same values are equal.
* `isSingular_iff_forall_eq`, `exists_mem_sdiff_singleton`: the test for a single value is exact.
-/

set_option autoImplicit false

namespace BoundedEquations.Domain

/-! ### Looking a value up -/

/-- A later range begins above an earlier one, with at least one value missing in between. -/
theorem hi_lt_lo_of_lt {d : Domain} (hd : d.Canonical) {i j : Nat} {r s : Interval} (hij : i < j)
    (hr : d.ranges[i]? = some r) (hs : d.ranges[j]? = some s) : r.hi + 1 < s.lo := by
  rw [← Array.getElem?_toList] at hr hs
  obtain ⟨hi, rfl⟩ := List.getElem?_eq_some_iff.mp hr
  obtain ⟨hj, rfl⟩ := List.getElem?_eq_some_iff.mp hs
  exact List.pairwise_iff_getElem.mp hd i j hi hj hij

/-- Bisection over the ranges, for a test that passes below every range that passes it: the ranges
before the index pass, and the others do not. -/
theorem firstFailure_ranges_law {d : Domain} (hd : d.Canonical) {p : Interval → Bool}
    (hp : ∀ r s, Apart r s → p s = true → p r = true) {i : Nat} {r : Interval}
    (hr : d.ranges[i]? = some r) :
    i < Bisection.firstFailure (fun i => d.ranges[i]?.any p) d.ranges.size ↔ p r = true := by
  obtain ⟨hbelow, habove⟩ := Bisection.firstFailure_law (n := d.ranges.size)
    (p := fun i => d.ranges[i]?.any p) (by
      intro i j hij hj hpj
      obtain ⟨s, hs⟩ : ∃ s, d.ranges[j]? = some s := ⟨_, Array.getElem?_eq_getElem hj⟩
      obtain ⟨r, hr⟩ : ∃ r, d.ranges[i]? = some r :=
        ⟨_, Array.getElem?_eq_getElem (Nat.lt_of_le_of_lt hij hj)⟩
      simp only [hs, hr, Option.any_some] at hpj ⊢
      rcases Nat.eq_or_lt_of_le hij with rfl | hlt
      · rwa [Option.some.inj (hr.symm.trans hs)]
      · exact hp r s (hi_lt_lo_of_lt hd hlt hr hs) hpj)
  have hsize : i < d.ranges.size := (Array.getElem?_eq_some_iff.mp hr).1
  constructor
  · intro hlt
    simpa [hr] using hbelow i hlt
  · intro hpr
    refine Nat.lt_of_not_le fun hge => ?_
    simpa [hr, hpr] using habove i hge hsize

/-- The ranges before the index end below the value, and the others do not. -/
theorem firstReaching_law {d : Domain} (hd : d.Canonical) (v : Nat) {i : Nat} {r : Interval}
    (hr : d.ranges[i]? = some r) : i < d.firstReaching v ↔ r.hi < v := by
  have hlaw := firstFailure_ranges_law hd (p := fun r => decide (r.hi < v)) (by
    intro r s hrs hs
    have hapart : r.hi + 1 < s.lo := hrs
    have := s.lo_le_hi
    have := of_decide_eq_true hs
    exact decide_eq_true (by omega)) hr
  exact hlaw.trans decide_eq_true_iff

/-- Bisection finds the range that holds a value, if there is one. -/
theorem rangeOf?_eq_some_iff {d : Domain} (hd : d.Canonical) {v : Nat} {r : Interval} :
    d.rangeOf? v = some r ↔ r ∈ d.ranges ∧ v ∈ r := by
  rw [rangeOf?, Option.filter_eq_some_iff, decide_eq_true_iff]
  refine and_congr_left fun hv => ⟨Array.mem_of_getElem?, fun hmem => ?_⟩
  obtain ⟨j, hj⟩ := Array.getElem?_of_mem hmem
  have hge : d.firstReaching v ≤ j := Nat.not_lt.mp fun hlt => by
    have := (firstReaching_law hd v hj).mp hlt
    have := hv.2
    omega
  -- The range at the index exists, and no range of the value comes after it.
  obtain ⟨s, hs⟩ : ∃ s, d.ranges[d.firstReaching v]? = some s := by
    have hsize := (Array.getElem?_eq_some_iff.mp hj).1
    exact ⟨_, Array.getElem?_eq_getElem (Nat.lt_of_le_of_lt hge hsize)⟩
  rcases Nat.eq_or_lt_of_le hge with heq | hlt
  · rw [heq, hj]
  · have hreach : ¬s.hi < v :=
      (firstReaching_law hd v hs).not.mp (Nat.lt_irrefl _)
    have := hi_lt_lo_of_lt hd hlt hs hj
    have := hv.1
    omega

/-- Looking a value up by bisection decides membership. -/
theorem contains_iff_mem {d : Domain} (hd : d.Canonical) {v : Nat} :
    d.contains v = true ↔ v ∈ d := by
  rw [contains, Option.isSome_iff_exists, mem_iff]
  exact exists_congr fun r => rangeOf?_eq_some_iff hd

/-! ### Ranges that lie in a domain -/

/-- The value behind the end of a range is missing, because no range touches another one. -/
theorem succ_hi_notMem {d : Domain} (hd : d.Canonical) {r : Interval} (hr : r ∈ d.ranges) :
    r.hi + 1 ∉ d := by
  rintro ⟨s, hs, hlo, hhi⟩
  obtain ⟨i, hi⟩ := Array.getElem?_of_mem hr
  obtain ⟨j, hj⟩ := Array.getElem?_of_mem hs
  rcases Nat.lt_trichotomy i j with hij | rfl | hji
  · have := hi_lt_lo_of_lt hd hij hi hj
    omega
  · obtain rfl := Option.some.inj (hi.symm.trans hj)
    omega
  · have := hi_lt_lo_of_lt hd hji hj hi
    have := r.lo_le_hi
    omega

/-- A range whose values all lie in a canonical domain lies within one of its ranges: the one that
holds its lower end. -/
theorem subset_of_forall_mem {d : Domain} (hd : d.Canonical) {r s : Interval}
    (h : ∀ v ∈ r, v ∈ d) (hs : s ∈ d.ranges) (hlo : r.lo ∈ s) : r ⊆ s := by
  refine ⟨hlo.1, Nat.le_of_not_lt fun hlt => ?_⟩
  have hend : r.lo ≤ s.hi := hlo.2
  exact succ_hi_notMem hd hs (h (s.hi + 1) ⟨by omega, hlt⟩)

/-- One look-up for each range decides whether a domain covers another one. -/
theorem covers_iff {d e : Domain} (hd : d.Canonical) : d.covers e = true ↔ ∀ v ∈ e, v ∈ d := by
  simp only [covers, Array.all_eq_true', Option.any_eq_true, rangeOf?_eq_some_iff hd,
    decide_eq_true_eq]
  constructor
  · rintro h v ⟨r, hr, hv⟩
    obtain ⟨s, ⟨hs, _⟩, hsub⟩ := h r hr
    exact ⟨s, hs, Interval.subset_iff.mp hsub v hv⟩
  · intro h r hr
    have hmem : ∀ v ∈ r, v ∈ d := fun v hv => h v ⟨r, hr, hv⟩
    obtain ⟨s, hs, hlo⟩ := hmem r.lo r.lo_mem
    exact ⟨s, ⟨hs, hlo⟩, subset_of_forall_mem hd hmem hs hlo⟩

/-! ### Equal values, equal ranges -/

/-- If the values of a first list lie in a second one, then the second list begins no later. If both
begin with the same value, the first range of the second list reaches as far. -/
theorem bounds_of_forall_mem {a b : Interval} {as bs : List Interval}
    (hb : (b :: bs).Pairwise Apart)
    (h : ∀ v, (∃ r ∈ a :: as, v ∈ r) → ∃ r ∈ b :: bs, v ∈ r) :
    b.lo ≤ a.lo ∧ (a.lo = b.lo → a.hi ≤ b.hi) := by
  have hble := b.lo_le_hi
  have hfirst : ∀ v, v ∈ a → v ∈ b ∨ b.hi + 1 < v := by
    intro v hv
    obtain ⟨r, hr, hvr⟩ := h v ⟨a, List.mem_cons_self, hv⟩
    rcases List.mem_cons.mp hr with rfl | hr
    · exact Or.inl hvr
    · exact Or.inr (lt_of_mem_tail hb ⟨r, hr, hvr⟩)
  simp only [Interval.mem_iff] at hfirst
  constructor
  · have := hfirst a.lo ⟨Nat.le_refl _, a.lo_le_hi⟩
    omega
  · -- The value behind the end of `b` lies in no range of the second list.
    intro hlo
    have := hfirst (b.hi + 1)
    omega

/-- Behind the same first range, values of the first list lie in the second one. -/
theorem forall_mem_tail {a : Interval} {as bs : List Interval} (ha : (a :: as).Pairwise Apart)
    (h : ∀ v, (∃ r ∈ a :: as, v ∈ r) → ∃ r ∈ a :: bs, v ∈ r) (v : Nat)
    (hv : ∃ r ∈ as, v ∈ r) : ∃ r ∈ bs, v ∈ r := by
  have habove := lt_of_mem_tail ha hv
  obtain ⟨s, hs, hvs⟩ := hv
  obtain ⟨r, hr, hvr⟩ := h v ⟨s, List.mem_cons_of_mem _ hs, hvs⟩
  rcases List.mem_cons.mp hr with rfl | hr
  · have := hvr.2
    omega
  · exact ⟨r, hr, hvr⟩

/-- Ascending lists of ranges that hold the same values are the same list. -/
theorem eq_of_pairwise_apart {as bs : List Interval} (ha : as.Pairwise Apart)
    (hb : bs.Pairwise Apart) (h : ∀ v, (∃ a ∈ as, v ∈ a) ↔ ∃ b ∈ bs, v ∈ b) : as = bs := by
  induction as generalizing bs with
  | nil =>
    cases bs with
    | nil => rfl
    | cons b bs =>
      obtain ⟨a, hmem, _⟩ := (h b.lo).mpr ⟨b, List.mem_cons_self, b.lo_mem⟩
      exact absurd hmem List.not_mem_nil
  | cons a as ih =>
    cases bs with
    | nil =>
      obtain ⟨b, hmem, _⟩ := (h a.lo).mp ⟨a, List.mem_cons_self, a.lo_mem⟩
      exact absurd hmem List.not_mem_nil
    | cons b bs =>
      obtain ⟨hlo, hhi⟩ := bounds_of_forall_mem hb fun v => (h v).mp
      obtain ⟨hlo', hhi'⟩ := bounds_of_forall_mem ha fun v => (h v).mpr
      have hloeq : a.lo = b.lo := Nat.le_antisymm hlo' hlo
      have hhieq : a.hi = b.hi := Nat.le_antisymm (hhi hloeq) (hhi' hloeq.symm)
      obtain rfl : a = b := Interval.eq_of_ends_eq hloeq hhieq
      have htail := ih (List.pairwise_cons.mp ha).2 (List.pairwise_cons.mp hb).2 fun v =>
        ⟨forall_mem_tail ha (fun w => (h w).mp) v, forall_mem_tail hb (fun w => (h w).mpr) v⟩
      rw [htail]

/-- Canonical domains with the same values are equal. -/
theorem eq_of_mem_iff {d e : Domain} (hd : d.Canonical) (he : e.Canonical)
    (h : ∀ v, v ∈ d ↔ v ∈ e) : d = e := by
  simp only [mem_iff_exists_toList] at h
  have hlist := eq_of_pairwise_apart hd he h
  cases d
  cases e
  exact congrArg Domain.mk (Array.toList_inj.mp hlist)

/-- A canonical domain with a value has no other just when it is a single range of that value. -/
theorem isSingular_iff_forall_eq {d : Domain} (hd : d.Canonical) {v : Nat} (hv : v ∈ d) :
    d.isSingular = true ↔ ∀ u ∈ d, u = v := by
  rw [isSingular_iff]
  constructor
  · rintro ⟨w, rfl⟩ u hu
    rw [mem_singleton] at hu hv
    rw [hu, hv]
  · intro h
    refine ⟨v, eq_of_mem_iff hd (canonical_singleton v) fun u => ?_⟩
    rw [mem_singleton]
    exact ⟨h u, fun hu => hu ▸ hv⟩

/-- Something is left of a canonical domain when one of its values is taken out, unless it has no
other. -/
theorem exists_mem_sdiff_singleton {d : Domain} (hd : d.Canonical) {v : Nat} (hv : v ∈ d)
    (hsingular : d.isSingular = false) : ∃ u, u ∈ d \ singleton v := by
  rw [← Bool.not_eq_true, isSingular_iff_forall_eq hd hv] at hsingular
  simpa only [mem_sdiff, mem_singleton, not_forall, exists_prop] using hsingular

end BoundedEquations.Domain
