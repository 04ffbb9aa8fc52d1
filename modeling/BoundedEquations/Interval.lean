import BoundedEquations.Fault

/-!
# `BoundedEquations.Interval`: closed intervals of natural numbers

An interval holds the values from `lo` to `hi`, both ends included, and is never empty. Two
intervals overlap when they share a value. They touch when no value lies strictly between them,
so that their union is again an interval.

`inter?` and `union?` answer with an interval or with nothing, and `sdiff` with the zero, one or
two pieces that are left.
-/

set_option autoImplicit false

namespace BoundedEquations

/-- The natural numbers from `lo` to `hi`, both included. -/
structure Interval where
  lo : Nat
  hi : Nat
  lo_le_hi : lo ≤ hi := by omega
deriving DecidableEq, Hashable

namespace Interval

/-- The interval with these ends. Ends out of order are refused. -/
def ofBounds (lo hi : Nat) : Except Fault Interval :=
  if h : lo ≤ hi then .ok ⟨lo, hi, h⟩ else .error (.boundsOutOfOrder lo hi)

/-- The interval of one value. -/
def singleton (v : Nat) : Interval := ⟨v, v, Nat.le_refl v⟩

/-- The values of an interval are those from its lower to its upper end. -/
instance : Membership Nat Interval := ⟨fun r v => r.lo ≤ v ∧ v ≤ r.hi⟩

/-- A value of an interval lies between its ends, both included. -/
theorem mem_iff {r : Interval} {v : Nat} : v ∈ r ↔ r.lo ≤ v ∧ v ≤ r.hi := Iff.rfl

/-- Membership is decided by two comparisons. -/
instance (r : Interval) (v : Nat) : Decidable (v ∈ r) :=
  inferInstanceAs (Decidable (r.lo ≤ v ∧ v ≤ r.hi))

/-- The number of values. -/
def size (r : Interval) : Nat := r.hi - r.lo + 1

/-- The sizes of all intervals of a list, added up. -/
def totalSize (rs : List Interval) : Nat := rs.foldr (fun r total => r.size + total) 0

/-- The sizes of a list are added from its first member on. -/
theorem totalSize_cons (r : Interval) (rs : List Interval) :
    totalSize (r :: rs) = r.size + totalSize rs := rfl

/-- The interval holds one value only. -/
def isSingular (r : Interval) : Bool := r.lo == r.hi

/-- The two intervals share a value. -/
def Overlaps (a b : Interval) : Prop := a.lo ≤ b.hi ∧ b.lo ≤ a.hi

/-- Whether two intervals overlap is decided by their ends. -/
instance (a b : Interval) : Decidable (a.Overlaps b) :=
  inferInstanceAs (Decidable (a.lo ≤ b.hi ∧ b.lo ≤ a.hi))

/-- No value lies strictly between the two intervals. -/
def Touches (a b : Interval) : Prop := a.lo ≤ b.hi + 1 ∧ b.lo ≤ a.hi + 1

/-- Whether two intervals touch is decided by their ends. -/
instance (a b : Interval) : Decidable (a.Touches b) :=
  inferInstanceAs (Decidable (a.lo ≤ b.hi + 1 ∧ b.lo ≤ a.hi + 1))

/-- Every value of the first interval lies in the second. -/
instance : HasSubset Interval := ⟨fun a b => b.lo ≤ a.lo ∧ a.hi ≤ b.hi⟩

/-- Whether one interval lies in another is decided by their ends. -/
instance (a b : Interval) : Decidable (a ⊆ b) :=
  inferInstanceAs (Decidable (b.lo ≤ a.lo ∧ a.hi ≤ b.hi))

/-- The common values, if there are any. -/
def inter? (a b : Interval) : Option Interval :=
  if h : a.Overlaps b then
    some ⟨max a.lo b.lo, min a.hi b.hi, by
      have := a.lo_le_hi
      have := b.lo_le_hi
      obtain ⟨_, _⟩ := h
      omega⟩
  else
    none

/-- The values of both, if the two touch. -/
def union? (a b : Interval) : Option Interval :=
  if a.Touches b then
    some ⟨min a.lo b.lo, max a.hi b.hi, by
      have := a.lo_le_hi
      omega⟩
  else
    none

/-- What is left of the first interval without the second, in ascending order. -/
def sdiff (a b : Interval) : List Interval :=
  if a.Overlaps b then
    (if h : a.lo < b.lo then [⟨a.lo, b.lo - 1, by omega⟩] else []) ++
      (if h : b.hi < a.hi then [⟨b.hi + 1, a.hi, by omega⟩] else [])
  else
    [a]

/-- The ends in brackets, as in `[3, 7]`. -/
def text (r : Interval) : String := s!"[{r.lo}, {r.hi}]"

/-- An interval is written as its ends in brackets. -/
instance : ToString Interval := ⟨text⟩

/-- An interval of one value has this value and no other. -/
theorem mem_singleton {v w : Nat} : w ∈ singleton v ↔ w = v := by
  simp only [mem_iff, singleton]
  omega

/-- Overlapping intervals are those with a common value. -/
theorem overlaps_iff {a b : Interval} : a.Overlaps b ↔ ∃ v, v ∈ a ∧ v ∈ b := by
  have := a.lo_le_hi
  have := b.lo_le_hi
  constructor
  · rintro ⟨_, _⟩
    exact ⟨max a.lo b.lo, by simp only [mem_iff]; omega, by simp only [mem_iff]; omega⟩
  · rintro ⟨v, hva, hvb⟩
    simp only [mem_iff] at hva hvb
    exact ⟨by omega, by omega⟩

/-- An interval lies within another when all of its values do. -/
theorem subset_iff {a b : Interval} : a ⊆ b ↔ ∀ v ∈ a, v ∈ b := by
  have := a.lo_le_hi
  constructor
  · rintro ⟨_, _⟩ v hv
    simp only [mem_iff] at hv ⊢
    omega
  · intro h
    have hlo := h a.lo ⟨by omega, by omega⟩
    have hhi := h a.hi ⟨by omega, by omega⟩
    exact ⟨hlo.1, hhi.2⟩

/-- Every value of `inter?` is a common value, and every common value is reached. -/
theorem mem_inter? {a b : Interval} {v : Nat} :
    (∃ c ∈ a.inter? b, v ∈ c) ↔ v ∈ a ∧ v ∈ b := by
  unfold inter?
  split
  · simp only [Option.mem_some_iff, exists_eq_left', mem_iff]
    omega
  · rename_i h
    simp only [Option.not_mem_none, false_and, exists_false, false_iff]
    exact fun hv => h (overlaps_iff.mpr ⟨v, hv⟩)

/-- Where the union exists it holds the values of both intervals and no others. -/
theorem mem_union? {a b c : Interval} {v : Nat} (h : a.union? b = some c) :
    v ∈ c ↔ v ∈ a ∨ v ∈ b := by
  unfold union? at h
  split at h
  · rename_i ht
    obtain ⟨_, _⟩ := ht
    obtain rfl := Option.some.inj h
    have := a.lo_le_hi
    have := b.lo_le_hi
    simp only [mem_iff]
    omega
  · exact nomatch h

/-- What is left of an interval are its values outside the other one. -/
theorem mem_sdiff {a b : Interval} {v : Nat} :
    (∃ c ∈ a.sdiff b, v ∈ c) ↔ v ∈ a ∧ v ∉ b := by
  have := a.lo_le_hi
  have := b.lo_le_hi
  unfold sdiff
  split
  · rename_i h
    obtain ⟨_, _⟩ := h
    by_cases hlo : a.lo < b.lo <;> by_cases hhi : b.hi < a.hi <;>
      simp [hlo, hhi, mem_iff] <;> omega
  · rename_i h
    simp only [List.mem_singleton, exists_eq_left]
    exact ⟨fun hv => ⟨hv, fun hb => h (overlaps_iff.mpr ⟨v, hv, hb⟩)⟩, And.left⟩

end Interval

end BoundedEquations
