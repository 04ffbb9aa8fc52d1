import BoundedEquations.Interval.CommonParts
import Mathlib.Data.List.Pairwise
import Mathlib.Data.List.Sort

/-!
# `BoundedEquations.Proofs.Interval.CommonParts`: no other parts are larger

An interval begins at a cut, and the value behind its end is a cut as well. No cut lies inside a
part, so a part that meets an interval of the list lies within it. The parts of any other division
keep clear of the cuts too, because each of them lies within an interval that it meets. This is why
none of them reaches beyond a common part. The theorems:

* `bounds_of_mem_zip_tail`, `exists_mem_zip_tail`: neighbours in an ascending list.
* `bounds_of_mem_commonParts`: a part lies between two cuts with no cut in between.
* `exists_mem_commonParts_iff`: the parts cover what the intervals cover.
* `Divides.le_or_le_of_mem_cuts`: no cut lies inside a part of a division.
* `commonParts_coarsest`: the common parts are a division, and every other one is as fine or finer.
-/

set_option autoImplicit false

namespace BoundedEquations.Interval

/-! ### Neighbours in an ascending list -/

section Neighbours

variable {cs : List Nat} {a b : Nat}

/-- Two neighbours in an ascending list are members of it, and no member lies between them. -/
theorem bounds_of_mem_zip_tail (h : cs.Pairwise (· < ·)) (hab : (a, b) ∈ cs.zip cs.tail) :
    a ∈ cs ∧ b ∈ cs ∧ ∀ k ∈ cs, k ≤ a ∨ b ≤ k := by
  induction cs with
  | nil => simp at hab
  | cons c rest ih =>
    obtain ⟨hc, hrest⟩ := List.pairwise_cons.mp h
    cases rest with
    | nil => simp at hab
    | cons d rest =>
      have hd := (List.pairwise_cons.mp hrest).1
      simp only [List.tail_cons, List.zip_cons_cons, List.mem_cons, Prod.mk.injEq] at hab
      rcases hab with ⟨rfl, rfl⟩ | hab
      · refine ⟨by simp, by simp, fun k hk => ?_⟩
        simp only [List.mem_cons] at hk
        rcases hk with rfl | rfl | hk
        · omega
        · omega
        · have := hd k hk
          omega
      · obtain ⟨ha, hb, hbetween⟩ := ih hrest hab
        refine ⟨by simp [ha], by simp [hb], fun k hk => ?_⟩
        rcases List.mem_cons.mp hk with rfl | hk
        · have := hc a ha
          omega
        · exact hbetween k hk

/-- The second of two neighbours in an ascending list is greater than the first. -/
theorem lt_of_mem_zip_tail (h : cs.Pairwise (· < ·)) (hab : (a, b) ∈ cs.zip cs.tail) : a < b := by
  obtain ⟨i, hi, heq⟩ := List.mem_iff_getElem.mp hab
  simp only [List.getElem_zip, List.getElem_tail, Prod.mk.injEq] at heq
  obtain ⟨rfl, rfl⟩ := heq
  exact List.pairwise_iff_getElem.mp h i (i + 1) _ _ (Nat.lt_succ_self i)

/-- A place with members on both sides lies between two neighbours. -/
theorem exists_mem_zip_tail (h : cs.Pairwise (· < ·)) {v : Nat} (ha : a ∈ cs) (hav : a ≤ v)
    (hb : b ∈ cs) (hvb : v < b) : ∃ p ∈ cs.zip cs.tail, p.1 ≤ v ∧ v < p.2 := by
  induction cs generalizing a with
  | nil => simp at ha
  | cons c rest ih =>
    obtain ⟨hc, hrest⟩ := List.pairwise_cons.mp h
    have hcv : c ≤ v := by
      rcases List.mem_cons.mp ha with rfl | ha
      · exact hav
      · have := hc a ha
        omega
    have hb' : b ∈ rest := by
      rcases List.mem_cons.mp hb with rfl | hb
      · omega
      · exact hb
    cases rest with
    | nil => simp at hb'
    | cons d rest =>
      by_cases hdv : d ≤ v
      · obtain ⟨p, hp, hpv⟩ := ih hrest (a := d) (by simp) hdv hb'
        exact ⟨p, List.mem_cons_of_mem _ hp, hpv⟩
      · exact ⟨(c, d), by simp, hcv, by omega⟩

/-- One pair of neighbours ends where the next pair begins, or below. -/
theorem pairwise_zip_tail (h : cs.Pairwise (· < ·)) :
    (cs.zip cs.tail).Pairwise fun p q => p.2 ≤ q.1 := by
  induction cs with
  | nil => simp
  | cons c rest ih =>
    have hrest := (List.pairwise_cons.mp h).2
    cases rest with
    | nil => simp
    | cons d rest =>
      refine List.pairwise_cons.mpr ⟨fun q hq => ?_, ih hrest⟩
      -- Later pairs are made of members from the second one on.
      have hq' := (bounds_of_mem_zip_tail hrest hq).1
      rcases List.mem_cons.mp hq' with heq | hq'
      · exact Nat.le_of_eq heq.symm
      · exact Nat.le_of_lt ((List.pairwise_cons.mp hrest).1 q.1 hq')

end Neighbours

/-! ### The common parts -/

variable {rs ps : List Interval} {r c : Interval} {v : Nat}

/-- What lies between two cuts is an interval just when the first one is less. -/
theorem upTo?_eq_some_iff {start stop : Nat} :
    upTo? start stop = some c ↔ c.lo = start ∧ c.hi + 1 = stop := by
  have := c.lo_le_hi
  unfold upTo?
  split
  · cases c
    simp only [Option.some.injEq, Interval.mk.injEq]
    omega
  · simp only [reduceCtorEq, false_iff]
    omega

/-- A part is what lies between two neighbouring cuts, if it lies within an interval of the list. -/
theorem mem_commonParts : c ∈ commonParts rs ↔
    (c.lo, c.hi + 1) ∈ (cuts rs).zip (cuts rs).tail ∧ ∃ r ∈ rs, c ⊆ r := by
  simp only [commonParts, List.mem_filterMap, Prod.exists, Option.filter_eq_some_iff,
    upTo?_eq_some_iff, List.any_eq_true, decide_eq_true_eq]
  constructor
  · rintro ⟨start, stop, hmem, ⟨rfl, rfl⟩, hr⟩
    exact ⟨hmem, hr⟩
  · rintro ⟨hmem, hr⟩
    exact ⟨c.lo, c.hi + 1, hmem, ⟨rfl, rfl⟩, hr⟩

/-- A part begins at a cut, ends before the next one, and lies within an interval of the list. -/
theorem bounds_of_mem_commonParts (h : c ∈ commonParts rs) :
    c.lo ∈ cuts rs ∧ c.hi + 1 ∈ cuts rs ∧ (∀ k ∈ cuts rs, k ≤ c.lo ∨ c.hi + 1 ≤ k) ∧
      ∃ r ∈ rs, c ⊆ r := by
  obtain ⟨hmem, hr⟩ := mem_commonParts.mp h
  obtain ⟨hlo, hhi, hbetween⟩ := bounds_of_mem_zip_tail (pairwise_cuts rs) hmem
  exact ⟨hlo, hhi, hbetween, hr⟩

/-- The parts ascend and share no values. -/
theorem pairwise_commonParts (rs : List Interval) :
    (commonParts rs).Pairwise fun a b => a.hi < b.lo := by
  refine List.pairwise_filterMap.mpr ((pairwise_zip_tail (pairwise_cuts rs)).imp ?_)
  rintro ⟨start, stop⟩ ⟨start', stop'⟩ hle a ha b hb
  simp only [Option.filter_eq_some_iff, upTo?_eq_some_iff] at ha hb hle
  omega

/-- There is a cut where an interval begins. -/
theorem lo_mem_cuts (hr : r ∈ rs) : r.lo ∈ cuts rs := mem_cuts.mpr ⟨r, hr, Or.inl rfl⟩

/-- There is a cut behind the end of an interval. -/
theorem succ_hi_mem_cuts (hr : r ∈ rs) : r.hi + 1 ∈ cuts rs := mem_cuts.mpr ⟨r, hr, Or.inr rfl⟩

/-- A part that meets an interval of the list lies within it. -/
theorem subset_of_mem_commonParts (hr : r ∈ rs) (hc : c ∈ commonParts rs) (hv : v ∈ c)
    (hvr : v ∈ r) : c ⊆ r := by
  obtain ⟨_, _, hbetween, _⟩ := bounds_of_mem_commonParts hc
  have hlo := hbetween _ (lo_mem_cuts hr)
  have hhi := hbetween _ (succ_hi_mem_cuts hr)
  simp only [mem_iff] at hv hvr
  exact ⟨by omega, by omega⟩

/-- Each value of an interval of the list lies in a part. -/
theorem exists_mem_commonParts (hr : r ∈ rs) (hv : v ∈ r) : ∃ c ∈ commonParts rs, v ∈ c := by
  have hcuts := pairwise_cuts rs
  have hv' : r.lo ≤ v ∧ v ≤ r.hi := hv
  obtain ⟨⟨start, stop⟩, hp, hstart, hstop⟩ := exists_mem_zip_tail hcuts (lo_mem_cuts hr) hv'.1
    (succ_hi_mem_cuts hr) (Nat.lt_succ_of_le hv'.2)
  dsimp only at hstart hstop
  -- No cut lies inside the part around the value, so it does not reach beyond the interval.
  obtain ⟨_, _, hbetween⟩ := bounds_of_mem_zip_tail hcuts hp
  have hlo := hbetween _ (lo_mem_cuts hr)
  have hhi := hbetween _ (succ_hi_mem_cuts hr)
  have hstop' : stop - 1 + 1 = stop := by omega
  refine ⟨⟨start, stop - 1, by omega⟩, mem_commonParts.mpr ⟨?_, r, hr, ?_⟩, ?_⟩
  · rw [hstop']
    exact hp
  · exact ⟨by dsimp only; omega, by dsimp only; omega⟩
  · exact ⟨hstart, by dsimp only; omega⟩

/-- The parts cover what the intervals cover. -/
theorem exists_mem_commonParts_iff :
    (∃ c ∈ commonParts rs, v ∈ c) ↔ ∃ r ∈ rs, v ∈ r := by
  constructor
  · rintro ⟨c, hc, hv⟩
    obtain ⟨_, _, _, r, hr, hcr⟩ := bounds_of_mem_commonParts hc
    exact ⟨r, hr, subset_iff.mp hcr v hv⟩
  · rintro ⟨r, hr, hv⟩
    exact exists_mem_commonParts hr hv

/-! ### Divisions -/

/-- The values of the interval are those of some members of the list. -/
def IsUnionOf (r : Interval) (ps : List Interval) : Prop :=
  ∃ qs, qs ⊆ ps ∧ ∀ v, v ∈ r ↔ ∃ q ∈ qs, v ∈ q

/-- The members of `ps` share no values, and each interval of `rs` is a union of some of them. -/
structure Divides (ps rs : List Interval) : Prop where
  disjoint : ps.Pairwise fun p q => ¬p.Overlaps q
  isUnionOf : ∀ r ∈ rs, r.IsUnionOf ps

/-- An interval is a union of members if its values lie in members within it. -/
theorem isUnionOf_iff : r.IsUnionOf ps ↔ ∀ v ∈ r, ∃ p ∈ ps, v ∈ p ∧ p ⊆ r := by
  constructor
  · rintro ⟨qs, hqs, hmem⟩ v hv
    obtain ⟨q, hq, hvq⟩ := (hmem v).mp hv
    exact ⟨q, hqs hq, hvq, subset_iff.mpr fun w hw => (hmem w).mpr ⟨q, hq, hw⟩⟩
  · intro h
    refine ⟨ps.filter (· ⊆ r), by simp, fun v => ?_⟩
    simp only [List.mem_filter, decide_eq_true_eq]
    constructor
    · intro hv
      obtain ⟨p, hp, hvp, hpr⟩ := h v hv
      exact ⟨p, ⟨hp, hpr⟩, hvp⟩
    · rintro ⟨p, ⟨_, hpr⟩, hvp⟩
      exact subset_iff.mp hpr v hvp

/-- The common parts are a division. -/
theorem divides_commonParts (rs : List Interval) : Divides (commonParts rs) rs where
  disjoint := (pairwise_commonParts rs).imp fun hlt hoverlap => by
    obtain ⟨_, _⟩ := hoverlap
    omega
  isUnionOf r hr := by
    refine isUnionOf_iff.mpr fun v hv => ?_
    obtain ⟨c, hc, hvc⟩ := exists_mem_commonParts hr hv
    exact ⟨c, hc, hvc, subset_of_mem_commonParts hr hc hvc hv⟩

namespace Divides

variable {p q : Interval}

/-- Two members with a common value are the same. -/
theorem eq_of_mem (h : Divides ps rs) (hp : p ∈ ps) (hq : q ∈ ps) (hvp : v ∈ p) (hvq : v ∈ q) :
    p = q := by
  by_contra hne
  have hsymm : Std.Symm fun p q : Interval => ¬p.Overlaps q := ⟨fun _ _ h h' => h h'.symm⟩
  exact h.disjoint.forall hp hq hne (overlaps_iff.mpr ⟨v, hvp, hvq⟩)

/-- A member that meets an interval of the list lies within it. -/
theorem subset_of_mem (h : Divides ps rs) (hp : p ∈ ps) (hr : r ∈ rs) (hvp : v ∈ p)
    (hvr : v ∈ r) : p ⊆ r := by
  obtain ⟨q, hq, hvq, hqr⟩ := isUnionOf_iff.mp (h.isUnionOf r hr) v hvr
  obtain rfl := h.eq_of_mem hp hq hvp hvq
  exact hqr

/-- No cut lies inside a member. Otherwise the member would meet the interval that begins or has
ended there, and would not lie within it. -/
theorem le_or_le_of_mem_cuts (h : Divides ps rs) (hp : p ∈ ps) {k : Nat} (hk : k ∈ cuts rs) :
    k ≤ p.lo ∨ p.hi + 1 ≤ k := by
  obtain ⟨r, hr, hkr⟩ := mem_cuts.mp hk
  by_cases hoverlap : p.Overlaps r
  · obtain ⟨v, hvp, hvr⟩ := overlaps_iff.mp hoverlap
    obtain ⟨_, _⟩ := h.subset_of_mem hp hr hvp hvr
    omega
  · have hapart : ¬(p.lo ≤ r.hi ∧ r.lo ≤ p.hi) := hoverlap
    have := r.lo_le_hi
    omega

/-- A common part is a union of members, because a member that meets it does not reach beyond the
cuts at which it begins and ends. -/
theorem isUnionOf_of_mem_commonParts (h : Divides ps rs) (hc : c ∈ commonParts rs) :
    c.IsUnionOf ps := by
  obtain ⟨hlo, hhi, _, r, hr, hcr⟩ := bounds_of_mem_commonParts hc
  refine isUnionOf_iff.mpr fun v hv => ?_
  obtain ⟨p, hp, hvp, _⟩ := isUnionOf_iff.mp (h.isUnionOf r hr) v (subset_iff.mp hcr v hv)
  have hplo := h.le_or_le_of_mem_cuts hp hlo
  have hphi := h.le_or_le_of_mem_cuts hp hhi
  simp only [mem_iff] at hv hvp
  exact ⟨p, hp, hvp, by omega, by omega⟩

end Divides

/-- The cuts of a list are known from its members. -/
theorem cuts_congr {rs' : List Interval} (h : ∀ r, r ∈ rs' ↔ r ∈ rs) : cuts rs' = cuts rs := by
  refine (pairwise_cuts rs').eq_of_mem_iff (pairwise_cuts rs) fun k => ?_
  simp only [mem_cuts, h]

/-- The parts are known from the members of the list. -/
theorem commonParts_congr {rs' : List Interval} (h : ∀ r, r ∈ rs' ↔ r ∈ rs) :
    commonParts rs' = commonParts rs := by
  have hany : ∀ part : Interval, (rs'.any fun r => part ⊆ r) = rs.any fun r => part ⊆ r := by
    intro part
    refine Bool.eq_iff_iff.mpr ?_
    simp only [List.any_eq_true, h]
  simp only [commonParts, cuts_congr h, hany]

/-- **The common parts are the coarsest division.** They ascend and share no values, they cover what
the intervals of the list cover and no more, and each of these intervals is a union of parts. Of any
other division into disjoint members, each part is a union of members. The order of the list and
repetitions in it make no difference. -/
theorem commonParts_coarsest (rs : List Interval) :
    ((commonParts rs).Pairwise fun a b => a.hi < b.lo) ∧
      (∀ v, (∃ c ∈ commonParts rs, v ∈ c) ↔ ∃ r ∈ rs, v ∈ r) ∧
      Divides (commonParts rs) rs ∧
      (∀ ps, Divides ps rs → ∀ c ∈ commonParts rs, c.IsUnionOf ps) ∧
      ∀ rs', (∀ r, r ∈ rs' ↔ r ∈ rs) → commonParts rs' = commonParts rs :=
  ⟨pairwise_commonParts rs, fun _ => exists_mem_commonParts_iff, divides_commonParts rs,
    fun _ h _ hc => h.isUnionOf_of_mem_commonParts hc, fun _ h => commonParts_congr h⟩

/-- Two intervals meet, and a third one lies apart below them. The gap in between is no part. -/
example : commonParts [⟨11, 20, by decide⟩, ⟨10, 12, by decide⟩, ⟨0, 3, by decide⟩] =
    [⟨0, 3, by decide⟩, ⟨10, 10, by decide⟩, ⟨11, 12, by decide⟩, ⟨13, 20, by decide⟩] := by
  decide

end BoundedEquations.Interval
