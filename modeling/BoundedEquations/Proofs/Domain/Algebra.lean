import BoundedEquations.Domain.Algebra
import Mathlib.Logic.Basic

/-!
# `BoundedEquations.Proofs.Domain.Algebra`: what the operations do to the values

`Domain.inter` and `Domain.overlaps` sweep over two lists of ranges and drop at each step the range
that ends first, or that lies below. This is right because the ranges ascend: a value of the first
range lies below all values of the ranges behind it. The theorems:

* `Interval.union?_eq_none_iff`: two intervals have no union just when they lie apart.
* `mem_inter`, `mem_sdiff`: the values of an intersection and of a difference.
* `canonical_inter`, `canonical_sdiff`: both keep the canonical form.
* `overlaps_iff_exists_mem`: the sweep that stops early finds a common value if there is one.
* `isEmpty_iff`, `eq_empty_iff`, `isSingular_iff`: what the list of ranges says about the values.
-/

set_option autoImplicit false

namespace BoundedEquations

namespace Interval

/-- The lower end of an interval is one of its values. -/
theorem lo_mem (r : Interval) : r.lo ∈ r := ⟨Nat.le_refl _, r.lo_le_hi⟩

/-- Intervals with the same ends are equal. -/
theorem eq_of_ends_eq {a b : Interval} (hlo : a.lo = b.lo) (hhi : a.hi = b.hi) : a = b := by
  cases a
  cases b
  simp_all

/-- Intervals that do not touch lie apart, one of them above the other. -/
theorem not_touches_iff {a b : Interval} : ¬a.Touches b ↔ Domain.Apart a b ∨ Domain.Apart b a := by
  show ¬(a.lo ≤ b.hi + 1 ∧ b.lo ≤ a.hi + 1) ↔ a.hi + 1 < b.lo ∨ b.hi + 1 < a.lo
  omega

/-- Two intervals are not joined just when there is a gap between them. -/
theorem union?_eq_none_iff {a b : Interval} :
    a.union? b = none ↔ Domain.Apart a b ∨ Domain.Apart b a := by
  rw [← not_touches_iff, union?, ite_eq_right_iff]
  exact forall_congr' fun _ => iff_of_false (fun h => nomatch h) id

/-- A piece of a difference lies within the interval it is cut from. -/
theorem bounds_of_mem_sdiff {a b c : Interval} (h : c ∈ a.sdiff b) :
    a.lo ≤ c.lo ∧ c.hi ≤ a.hi := by
  have hsub : ∀ v ∈ c, v ∈ a := fun v hv => (mem_sdiff.mp ⟨c, h, hv⟩).1
  exact subset_iff.mpr hsub

/-- The two pieces of a difference are apart, because what is taken out lies between them. -/
theorem pairwise_apart_sdiff (a b : Interval) : (a.sdiff b).Pairwise Domain.Apart := by
  have hb := b.lo_le_hi
  unfold sdiff
  split
  · by_cases hlo : a.lo < b.lo
    · by_cases hhi : b.hi < a.hi
      · rw [dif_pos hlo, dif_pos hhi]
        refine List.pairwise_pair.mpr ?_
        show b.lo - 1 + 1 < b.hi + 1
        omega
      · rw [dif_pos hlo, dif_neg hhi]
        exact List.pairwise_singleton _ _
    · rw [dif_neg hlo, List.nil_append]
      by_cases hhi : b.hi < a.hi
      · rw [dif_pos hhi]
        exact List.pairwise_singleton _ _
      · rw [dif_neg hhi]
        exact List.Pairwise.nil
  · exact List.pairwise_singleton _ _

end Interval

namespace Domain

open BoundedEquations.Interval

/-- In an ascending list the values behind the first range lie above it, with at least one value
missing in between. -/
theorem lt_of_mem_tail {r : Interval} {rs : List Interval} {v : Nat}
    (h : (r :: rs).Pairwise Apart) (hv : ∃ s ∈ rs, v ∈ s) : r.hi + 1 < v := by
  obtain ⟨s, hs, hvs⟩ := hv
  have hapart : r.hi + 1 < s.lo := (List.pairwise_cons.mp h).1 s hs
  exact Nat.lt_of_lt_of_le hapart hvs.1

/-- The ranges may be looked through as a list. -/
theorem mem_iff_exists_toList {d : Domain} {v : Nat} :
    v ∈ d ↔ ∃ r ∈ d.ranges.toList, v ∈ r := by
  simp only [mem_iff, Array.mem_toList_iff]

/-! ### The sweep for common values -/

/-- The sweep finds the values that lie in a range of each list. The range that is dropped ends
first, so none of its values lies in a later range of the other list. -/
theorem mem_commonPieces {as bs : List Interval} {v : Nat} (ha : as.Pairwise Apart)
    (hb : bs.Pairwise Apart) :
    (∃ c ∈ commonPieces as bs, v ∈ c) ↔ (∃ a ∈ as, v ∈ a) ∧ ∃ b ∈ bs, v ∈ b := by
  fun_induction commonPieces as bs with
  | case1 a as b bs ihleft ihright =>
    have hfirst : (∃ c ∈ (a.inter? b).toList, v ∈ c) ↔ v ∈ a ∧ v ∈ b := by
      simp only [Option.mem_toList]
      exact mem_inter?
    have hamem : v ∈ a → v ≤ a.hi := And.right
    have hbmem : v ∈ b → v ≤ b.hi := And.right
    have haboveA := lt_of_mem_tail (v := v) ha
    have haboveB := lt_of_mem_tail (v := v) hb
    simp only [List.mem_append, or_and_right, exists_or, hfirst, List.mem_cons, exists_eq_left]
    split
    · rename_i hle
      -- The first range of the first list is dropped. It ends before later ranges of the second.
      have ih := ihleft (List.pairwise_cons.mp ha).2 hb
      simp only [List.mem_cons, or_and_right, exists_or, exists_eq_left] at ih
      rw [ih]
      by_cases hva : v ∈ a
      · have hnot : ¬∃ s ∈ bs, v ∈ s := fun hvb => by
          have := hamem hva
          have := haboveB hvb
          omega
        simp [hva, hnot]
      · simp [hva]
    · -- The other way round, with the first range of the second list.
      have ih := ihright ha (List.pairwise_cons.mp hb).2
      simp only [List.mem_cons, or_and_right, exists_or, exists_eq_left] at ih
      rw [ih]
      by_cases hvb : v ∈ b
      · have hnot : ¬∃ s ∈ as, v ∈ s := fun hva => by
          have := hbmem hvb
          have := haboveA hva
          omega
        by_cases hva : v ∈ a <;> simp [hva, hvb, hnot]
      · simp [hvb]
  | case2 as bs hnil =>
    -- One of the lists has come to its end.
    cases as with
    | nil => simp
    | cons a as =>
      cases bs with
      | nil => simp
      | cons b bs => exact absurd rfl (hnil a as b bs rfl)

/-- The pieces that the sweep finds ascend and are apart, because each later piece lies in a later
range of one of the lists. -/
theorem pairwise_commonPieces {as bs : List Interval} (ha : as.Pairwise Apart)
    (hb : bs.Pairwise Apart) : (commonPieces as bs).Pairwise Apart := by
  fun_induction commonPieces as bs with
  | case1 a as b bs ihleft ihright =>
    have hatail := (List.pairwise_cons.mp ha).2
    have hbtail := (List.pairwise_cons.mp hb).2
    -- The first piece ends no later than either range it comes from.
    have hend : ∀ c ∈ (a.inter? b).toList, c.hi ≤ a.hi ∧ c.hi ≤ b.hi := by
      intro c hc
      have hboth := mem_inter?.mp ⟨c, Option.mem_toList.mp hc, c.lo_le_hi, Nat.le_refl _⟩
      exact ⟨hboth.1.2, hboth.2.2⟩
    have hsingle : (a.inter? b).toList.Pairwise Apart := by
      cases a.inter? b with
      | none => exact List.Pairwise.nil
      | some c => exact List.pairwise_singleton _ _
    refine List.pairwise_append.mpr ⟨hsingle, ?_, fun c hc c' hc' => ?_⟩
    · split
      · exact ihleft hatail hb
      · exact ihright ha hbtail
    · -- A later piece begins within a later range of the list that the sweep has moved on in.
      show c.hi + 1 < c'.lo
      have hcend := hend c hc
      split at hc'
      · have hmem := (mem_commonPieces hatail hb).mp ⟨c', hc', c'.lo_mem⟩
        have := lt_of_mem_tail ha hmem.1
        omega
      · have hmem := (mem_commonPieces ha hbtail).mp ⟨c', hc', c'.lo_mem⟩
        have := lt_of_mem_tail hb hmem.2
        omega
  | case2 as bs _ => exact List.Pairwise.nil

/-- The intersection has just the values of both domains. -/
theorem mem_inter {d e : Domain} {v : Nat} (hd : d.Canonical) (he : e.Canonical) :
    v ∈ d ∩ e ↔ v ∈ d ∧ v ∈ e := by
  rw [mem_iff_exists_toList, mem_iff_exists_toList, mem_iff_exists_toList]
  exact mem_commonPieces hd he

/-- The intersection of canonical domains is canonical. -/
theorem canonical_inter {d e : Domain} (hd : d.Canonical) (he : e.Canonical) :
    (d ∩ e).Canonical :=
  pairwise_commonPieces hd he

/-- The sweep that only asks for some common value moves on when one range lies below the other. A
range that lies below another one lies below all that follow. -/
theorem anyOverlap_iff {as bs : List Interval} (ha : as.Pairwise Apart) (hb : bs.Pairwise Apart) :
    anyOverlap as bs = true ↔ ∃ v, (∃ a ∈ as, v ∈ a) ∧ ∃ b ∈ bs, v ∈ b := by
  fun_induction anyOverlap as bs with
  | case1 a as b bs hoverlap =>
    obtain ⟨v, hva, hvb⟩ := overlaps_iff.mp hoverlap
    exact iff_of_true rfl ⟨v, ⟨a, List.mem_cons_self, hva⟩, b, List.mem_cons_self, hvb⟩
  | case2 a as b bs _ hbelow ih =>
    rw [ih (List.pairwise_cons.mp ha).2 hb]
    refine exists_congr fun v => and_congr_left fun hvb => ?_
    have hnot : v ∉ a := by
      intro hva
      obtain ⟨s, hs, hvs⟩ := hvb
      have hva' : v ≤ a.hi := hva.2
      rcases List.mem_cons.mp hs with rfl | hs
      · have : s.lo ≤ v := hvs.1
        omega
      · have := lt_of_mem_tail hb ⟨s, hs, hvs⟩
        have := b.lo_le_hi
        omega
    simp [hnot]
  | case3 a as b bs hoverlap hbelow ih =>
    rw [ih ha (List.pairwise_cons.mp hb).2]
    refine exists_congr fun v => and_congr_right fun hva => ?_
    -- The two ranges share no value and the first is not below, so the second one is.
    have hbelow' : b.hi < a.lo := by
      have hor : ¬(a.lo ≤ b.hi ∧ b.lo ≤ a.hi) := hoverlap
      omega
    have hnot : v ∉ b := by
      intro hvb
      obtain ⟨s, hs, hvs⟩ := hva
      have hvb' : v ≤ b.hi := hvb.2
      rcases List.mem_cons.mp hs with rfl | hs
      · have : s.lo ≤ v := hvs.1
        omega
      · have := lt_of_mem_tail ha ⟨s, hs, hvs⟩
        have := a.lo_le_hi
        omega
    simp [hnot]
  | case4 as bs hnil =>
    refine iff_of_false Bool.false_ne_true ?_
    rintro ⟨v, ⟨a, ha, _⟩, b, hb, _⟩
    obtain ⟨a', as', rfl⟩ := List.exists_cons_of_ne_nil (List.ne_nil_of_mem ha)
    obtain ⟨b', bs', rfl⟩ := List.exists_cons_of_ne_nil (List.ne_nil_of_mem hb)
    exact hnil a' as' b' bs' rfl rfl

/-- Canonical domains overlap just when they have a value in common. -/
theorem overlaps_iff_exists_mem {d e : Domain} (hd : d.Canonical) (he : e.Canonical) :
    d.overlaps e = true ↔ ∃ v, v ∈ d ∧ v ∈ e := by
  simp only [mem_iff_exists_toList]
  exact anyOverlap_iff hd he

/-! ### Sets without values and sets of one value -/

/-- Ranges are never empty, so a set without values is one without ranges. -/
theorem isEmpty_iff {d : Domain} : d.isEmpty = true ↔ ∀ v, v ∉ d := by
  rw [isEmpty, Array.isEmpty_iff]
  constructor
  · intro h v hv
    rw [mem_iff, h] at hv
    obtain ⟨r, hr, _⟩ := hv
    exact Array.not_mem_empty r hr
  · intro h
    exact Array.eq_empty_iff_forall_not_mem.mpr fun r hr => h r.lo ⟨r, hr, r.lo_mem⟩

/-- A domain that is not empty has a value. -/
theorem isEmpty_eq_false_iff {d : Domain} : d.isEmpty = false ↔ ∃ v, v ∈ d := by
  rw [← Bool.not_eq_true, isEmpty_iff, not_forall]
  simp only [not_not]

/-- The empty domain is the one without values. -/
theorem eq_empty_iff {d : Domain} : d = empty ↔ ∀ v, v ∉ d := by
  rw [← isEmpty_iff, isEmpty, Array.isEmpty_iff]
  constructor
  · rintro rfl
    rfl
  · intro h
    exact congrArg Domain.mk h

/-- The set has a single range of a single value just when it is the set of one value. -/
theorem isSingular_iff {d : Domain} : d.isSingular = true ↔ ∃ v, d = singleton v := by
  constructor
  · intro h
    unfold isSingular at h
    split at h
    · rename_i r hr
      have hr' : r.lo = r.hi := beq_iff_eq.mp h
      refine ⟨r.lo, ?_⟩
      obtain ⟨ranges⟩ := d
      obtain ⟨lo, hi, hle⟩ := r
      obtain rfl : lo = hi := hr'
      show Domain.mk ranges = Domain.mk #[⟨lo, lo, _⟩]
      have hranges : ranges.toList.toArray = ranges := Array.toArray_toList
      rw [← hranges, hr]
    · exact absurd h Bool.false_ne_true
  · rintro ⟨v, rfl⟩
    exact beq_iff_eq.mpr rfl

/-- A domain of one value is recognised as such. -/
theorem isSingular_singleton (v : Nat) : (singleton v).isSingular = true :=
  isSingular_iff.mpr ⟨v, rfl⟩

/-- A domain of one value is canonical. -/
theorem canonical_singleton (v : Nat) : (singleton v).Canonical := canonical_ofInterval _

/-- A full domain is canonical. -/
theorem canonical_full (width : Nat) : (full width).Canonical := canonical_ofInterval _

/-! ### Taking values out -/

/-- Erasing an interval keeps a domain canonical. -/
theorem canonical_erase {d : Domain} (r : Interval) (hd : d.Canonical) :
    (d.erase r).Canonical := by
  show (d.ranges.toList.flatMap fun s => s.sdiff r).Pairwise Apart
  refine List.pairwise_flatMap.mpr ⟨fun s _ => pairwise_apart_sdiff s r, ?_⟩
  refine List.Pairwise.imp (fun {s t} hst c hc c' hc' => ?_) hd
  have hst' : s.hi + 1 < t.lo := hst
  have hcs := bounds_of_mem_sdiff hc
  have hct := bounds_of_mem_sdiff hc'
  show c.hi + 1 < c'.lo
  omega

/-- What is left lies in none of the intervals. The walk may stop at the empty set, which has no
values to lose. -/
theorem mem_eraseEach {rs : List Interval} {d : Domain} {v : Nat} :
    v ∈ d.eraseEach rs ↔ v ∈ d ∧ ¬∃ r ∈ rs, v ∈ r := by
  induction rs generalizing d with
  | nil => simp [eraseEach]
  | cons r rest ih =>
    rw [eraseEach]
    split
    · rename_i hempty
      have hv := isEmpty_iff.mp hempty v
      exact iff_of_false hv fun h => hv h.1
    · rw [ih, mem_erase]
      simp only [List.mem_cons, exists_eq_or_imp, not_or, and_assoc]

/-- Erasing several intervals keeps a domain canonical. -/
theorem canonical_eraseEach (rs : List Interval) {d : Domain} (hd : d.Canonical) :
    (d.eraseEach rs).Canonical := by
  induction rs generalizing d with
  | nil => exact hd
  | cons r rest ih =>
    rw [eraseEach]
    split
    · exact hd
    · exact ih (canonical_erase r hd)

/-- The difference has just the values of the first domain that the second one lacks. -/
theorem mem_sdiff {d e : Domain} {v : Nat} : v ∈ d \ e ↔ v ∈ d ∧ v ∉ e := by
  rw [mem_iff_exists_toList (d := e)]
  exact mem_eraseEach

/-- The difference is canonical, whatever the second domain looks like. -/
theorem canonical_sdiff {d : Domain} (e : Domain) (hd : d.Canonical) : (d \ e).Canonical :=
  canonical_eraseEach _ hd

end Domain

end BoundedEquations
