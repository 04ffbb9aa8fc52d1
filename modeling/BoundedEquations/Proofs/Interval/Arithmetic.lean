import BoundedEquations.Proofs.Domain.Algebra
import BoundedEquations.Proofs.Interval.CommonParts
import Mathlib.Data.Nat.PSub
import Mathlib.Order.Interval.Set.OrdConnected

/-!
# `BoundedEquations.Proofs.Interval.Arithmetic`: the ends of intervals are computed exactly

The operations on intervals compute ends from ends. Two things could go wrong there without a
trace: a difference of natural numbers stops at zero, and an interval is built from ends that
nobody has compared. `Interval.Checked` has the operations once more with both made visible. Its
subtraction is `Nat.psub`, which has no result below zero, and it builds every interval through
`Interval.ofBounds`, which refuses ends out of order. The theorems:

* `touches_iff_ordConnected`: two intervals touch just when no gap is left in their union.
* `inter?_eq_some_iff`, `union?_eq_some_iff`: an answer is the interval of the wanted values.
* `Checked.size_eq_some`, `Checked.inter_eq_some`, `Checked.union_eq_some`, `Checked.sdiff_eq_some`,
  `Checked.commonParts_eq_some`: no check ever fails, and the results are those without checks.
* `arithmetic_exact`: all of this together.
-/

set_option autoImplicit false

namespace BoundedEquations.Interval

variable {a b c d : Interval}

/-! ### The answers are determined by their values -/

/-- An interval is known from its values. -/
theorem eq_of_mem_iff (h : ∀ v, v ∈ c ↔ v ∈ d) : c = d := by
  obtain ⟨hlo, hhi⟩ := subset_iff.mpr fun v => (h v).mp
  obtain ⟨hlo', hhi'⟩ := subset_iff.mpr fun v => (h v).mpr
  exact eq_of_ends_eq (Nat.le_antisymm hlo' hlo) (Nat.le_antisymm hhi hhi')

/-- The common values are found whenever they are those of an interval. No interval is empty, so
then there is an answer. -/
theorem inter?_eq_some_iff : a.inter? b = some c ↔ ∀ v, v ∈ c ↔ v ∈ a ∧ v ∈ b := by
  constructor
  · intro h v
    rw [← mem_inter?, h]
    simp
  · intro h
    obtain ⟨d, hd, _⟩ := mem_inter?.mpr ((h c.lo).mp c.lo_mem)
    have hdc : d = c := eq_of_mem_iff fun v => by
      rw [h v, ← mem_inter?, Option.mem_def.mp hd]
      simp
    rw [Option.mem_def.mp hd, hdc]

/-- There is an intersection just when the intervals overlap. -/
theorem isSome_inter?_iff : (a.inter? b).isSome ↔ a.Overlaps b := by
  unfold inter?
  split <;> simp_all

/-- Where a gap is left, the value behind the end of the lower interval lies between values of the
two and in neither. -/
theorem not_ordConnected_of_apart (h : Domain.Apart a b) :
    ¬Set.OrdConnected {v | v ∈ a ∨ v ∈ b} := by
  intro hconnected
  have hgap : a.hi + 1 < b.lo := h
  have hbetween : a.hi + 1 ∈ Set.Icc a.lo b.lo := ⟨by have := a.lo_le_hi; omega, by omega⟩
  rcases hconnected.out (Or.inl a.lo_mem) (Or.inr b.lo_mem) hbetween with hmem | hmem
  · have := hmem.2
    omega
  · have := hmem.1
    omega

/-- Two intervals touch just when every value between two values of theirs is one of theirs. -/
theorem touches_iff_ordConnected : a.Touches b ↔ Set.OrdConnected {v | v ∈ a ∨ v ∈ b} := by
  constructor
  · rintro ⟨_, _⟩
    refine ⟨fun u hu w hw v hv => ?_⟩
    have huw : u ≤ v ∧ v ≤ w := hv
    have hu' : u ∈ a ∨ u ∈ b := hu
    have hw' : w ∈ a ∨ w ∈ b := hw
    show v ∈ a ∨ v ∈ b
    simp only [mem_iff] at hu' hw' ⊢
    omega
  · intro hconnected
    by_contra htouch
    rcases not_touches_iff.mp htouch with hgap | hgap
    · exact not_ordConnected_of_apart hgap hconnected
    · have hswap : {v | v ∈ b ∨ v ∈ a} = {v | v ∈ a ∨ v ∈ b} := Set.ext fun _ => or_comm
      exact not_ordConnected_of_apart hgap (hswap ▸ hconnected)

/-- There is a union just when the intervals touch. -/
theorem isSome_union?_iff : (a.union? b).isSome ↔ a.Touches b := by
  rw [Option.isSome_iff_ne_none, ne_eq, union?_eq_none_iff, ← not_touches_iff, not_not]

/-- The union is found just when it is an interval. -/
theorem union?_eq_some_iff : a.union? b = some c ↔ ∀ v, v ∈ c ↔ v ∈ a ∨ v ∈ b := by
  constructor
  · exact fun h v => mem_union? h
  · intro h
    have hconnected : Set.OrdConnected {v | v ∈ a ∨ v ∈ b} := by
      have hset : {v | v ∈ a ∨ v ∈ b} = Set.Icc c.lo c.hi := Set.ext fun v => (h v).symm
      exact hset ▸ Set.ordConnected_Icc
    obtain ⟨d, hd⟩ := Option.isSome_iff_exists.mp
      (isSome_union?_iff.mpr (touches_iff_ordConnected.mpr hconnected))
    have hdc : d = c := eq_of_mem_iff fun v => (mem_union? hd).trans (h v).symm
    rw [hd, hdc]

/-! ### The operations with checks -/

/-- If a function has a result for every member of a list, collecting them leaves none out. -/
theorem mapM_eq_filterMap {α β : Type} {f : α → Option β} {xs : List α}
    (h : ∀ x ∈ xs, (f x).isSome) : xs.mapM f = some (xs.filterMap f) := by
  induction xs with
  | nil => rfl
  | cons x xs ih =>
    obtain ⟨y, hy⟩ := Option.isSome_iff_exists.mp (h x List.mem_cons_self)
    rw [List.mapM_cons, hy, ih fun x' hx' => h x' (List.mem_cons_of_mem _ hx'),
      List.filterMap_cons_some hy]
    rfl

namespace Checked

/-- The interval with these ends, or nothing if they are out of order. -/
def interval (lo hi : Nat) : Option Interval := (ofBounds lo hi).toOption

/-- The values from `start` up to, but not including, `stop`. -/
def upTo (start stop : Nat) : Option Interval := do
  let hi ← stop.psub 1
  interval start hi

/-- The number of values. -/
def size (r : Interval) : Option Nat := do
  let distance ← r.hi.psub r.lo
  return distance + 1

/-- The common values, if there are any. -/
def inter (a b : Interval) : Option (Option Interval) :=
  if a.Overlaps b then
    some <$> interval (max a.lo b.lo) (min a.hi b.hi)
  else
    some none

/-- The values of both, if the two touch. -/
def union (a b : Interval) : Option (Option Interval) :=
  if a.Touches b then
    some <$> interval (min a.lo b.lo) (max a.hi b.hi)
  else
    some none

/-- What is left of the first interval without the second. -/
def sdiff (a b : Interval) : Option (List Interval) :=
  if a.Overlaps b then
    ((if a.lo < b.lo then [upTo a.lo b.lo] else []) ++
      (if b.hi < a.hi then [interval (b.hi + 1) a.hi] else [])).mapM id
  else
    some [a]

/-- The parts common to a list of intervals. Between every two neighbouring cuts an interval is
built, also where it turns out to be a gap. -/
def commonParts (rs : List Interval) : Option (List Interval) := do
  let parts ← ((cuts rs).zip (cuts rs).tail).mapM fun (start, stop) => upTo start stop
  return parts.filter fun part => rs.any fun r => part ⊆ r

/-- Ends in order make an interval. -/
theorem interval_of_le {lo hi : Nat} (h : lo ≤ hi) : interval lo hi = some ⟨lo, hi, h⟩ := by
  rw [interval, ofBounds, dif_pos h]
  rfl

/-- The size of an interval is found without going below zero. -/
theorem size_eq_some (r : Interval) : size r = some r.size := by
  rw [size, Nat.psub_eq_sub r.lo_le_hi]
  rfl

/-- The common values are found without ends out of order. -/
theorem inter_eq_some (a b : Interval) : inter a b = some (a.inter? b) := by
  have := a.lo_le_hi
  have := b.lo_le_hi
  unfold inter inter?
  split
  · rename_i h
    obtain ⟨_, _⟩ := h
    rw [interval_of_le (by omega)]
    rfl
  · rfl

/-- The joined values are found without ends out of order. -/
theorem union_eq_some (a b : Interval) : union a b = some (a.union? b) := by
  have := a.lo_le_hi
  unfold union union?
  split
  · rw [interval_of_le (by omega)]
    rfl
  · rfl

/-- A number that is greater than another one is not zero, and what lies below it does not end
before the other one. -/
theorem upTo_of_lt {start stop : Nat} (h : start < stop) :
    upTo start stop = some ⟨start, stop - 1, Nat.le_sub_one_of_lt h⟩ := by
  have hone : 1 ≤ stop := by omega
  rw [upTo, Nat.psub_eq_sub hone]
  exact interval_of_le _

/-- The checks refuse what the comparison of the two places refuses. -/
theorem upTo_eq_upTo? (start stop : Nat) : upTo start stop = upTo? start stop := by
  unfold upTo?
  split
  · rename_i h
    exact upTo_of_lt h
  · rename_i h
    cases stop with
    | zero => rfl
    | succ hi =>
      have hnot : ¬start ≤ hi := by omega
      show (ofBounds start hi).toOption = none
      rw [ofBounds, dif_neg hnot]
      rfl

/-- What is subtracted from begins above a value of the first interval, so it is not zero. -/
theorem sdiff_eq_some (a b : Interval) : sdiff a b = some (a.sdiff b) := by
  unfold sdiff Interval.sdiff
  split
  · have hbelow (h : a.lo < b.lo) :
        upTo a.lo b.lo = some ⟨a.lo, b.lo - 1, Nat.le_sub_one_of_lt h⟩ :=
      upTo_of_lt h
    have habove (h : b.hi < a.hi) : interval (b.hi + 1) a.hi = some ⟨b.hi + 1, a.hi, h⟩ :=
      interval_of_le h
    by_cases hlo : a.lo < b.lo <;> by_cases hhi : b.hi < a.hi <;> simp [hlo, hhi, hbelow, habove]
  · rfl

/-- Cuts ascend strictly. So between two neighbours there is a value, and the second is not zero. -/
theorem commonParts_eq_some (rs : List Interval) :
    commonParts rs = some (Interval.commonParts rs) := by
  have hparts : ∀ p ∈ (cuts rs).zip (cuts rs).tail, (upTo p.1 p.2).isSome := by
    rintro ⟨start, stop⟩ hp
    rw [upTo_of_lt (lt_of_mem_zip_tail (pairwise_cuts rs) hp)]
    rfl
  rw [commonParts, mapM_eq_filterMap hparts]
  simp only [upTo_eq_upTo?, Interval.commonParts, ← List.filter_filterMap]
  rfl

end Checked

/-- **Intervals are computed exactly.** Two of them overlap just when they share a value, and then
the common values are found. Their union is found just when it is an interval. What is left of one
without the other comes in ascending order with gaps in between, and it is all that is left. On the
way no difference falls below zero, and no interval is built from ends out of order, not even one
that is dropped again: with both checked, every operation gives the same result as without. -/
theorem arithmetic_exact (a b : Interval) (rs : List Interval) :
    (a.Overlaps b ↔ ∃ v, v ∈ a ∧ v ∈ b) ∧
      ((a.inter? b).isSome ↔ a.Overlaps b) ∧
      (∀ c, a.inter? b = some c ↔ ∀ v, v ∈ c ↔ v ∈ a ∧ v ∈ b) ∧
      ((a.union? b).isSome ↔ Set.OrdConnected {v | v ∈ a ∨ v ∈ b}) ∧
      (∀ c, a.union? b = some c ↔ ∀ v, v ∈ c ↔ v ∈ a ∨ v ∈ b) ∧
      ((a.sdiff b).Pairwise Domain.Apart ∧ ∀ v, (∃ c ∈ a.sdiff b, v ∈ c) ↔ v ∈ a ∧ v ∉ b) ∧
      Checked.size a = some a.size ∧
      Checked.inter a b = some (a.inter? b) ∧
      Checked.union a b = some (a.union? b) ∧
      Checked.sdiff a b = some (a.sdiff b) ∧
      Checked.commonParts rs = some (commonParts rs) :=
  ⟨overlaps_iff, isSome_inter?_iff, fun _ => inter?_eq_some_iff,
    isSome_union?_iff.trans touches_iff_ordConnected, fun _ => union?_eq_some_iff,
    ⟨pairwise_apart_sdiff a b, fun _ => mem_sdiff⟩, Checked.size_eq_some a,
    Checked.inter_eq_some a b, Checked.union_eq_some a b, Checked.sdiff_eq_some a b,
    Checked.commonParts_eq_some rs⟩

/-- The checks refuse a place below zero and ends out of order. Of an interval that begins at zero
no such place is asked for. -/
example : Checked.upTo 0 0 = none ∧ Checked.interval 3 2 = none ∧
    Checked.sdiff ⟨0, 9, by decide⟩ ⟨0, 5, by decide⟩ = some [⟨6, 9, by decide⟩] := by
  decide

end BoundedEquations.Interval
