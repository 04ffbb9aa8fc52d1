import BoundedEquations.Bisection
import BoundedEquations.Interval

/-!
# `BoundedEquations.Domain.Basic`: finite sets of natural numbers as lists of ranges

A domain is the set of values that a variable may still take. It is kept as an ascending array of
intervals, its ranges, so that a set of `2 ^ 64` values costs no more than a set of two.

The operations expect and keep the canonical form (`Domain.Canonical`): between one range and the
next at least one value is missing. In that form equal sets have equal ranges, and a value can be
looked up by bisection.

Membership `v ∈ d` means that `v` lies in some range. `Domain.contains` decides it by bisection.
-/

set_option autoImplicit false

namespace BoundedEquations

/-- A set of natural numbers, given by its ranges in ascending order. -/
structure Domain where
  ranges : Array Interval
deriving DecidableEq

namespace Domain

/-- The set without values. -/
def empty : Domain := ⟨#[]⟩

/-- The values of one interval. -/
def ofInterval (r : Interval) : Domain := ⟨#[r]⟩

/-- The values of `width` bits, from `0` to `2 ^ width - 1`. -/
def full (width : Nat) : Domain := ofInterval ⟨0, Nat.pow 2 width - 1, Nat.zero_le _⟩

/-- The set of one value. -/
def singleton (v : Nat) : Domain := ofInterval (.singleton v)

/-- The domain without values. -/
instance : EmptyCollection Domain := ⟨empty⟩

/-- The values of a domain are those of its ranges. -/
instance : Membership Nat Domain := ⟨fun d v => ∃ r ∈ d.ranges, v ∈ r⟩

/-- A value of a domain lies in one of its ranges. -/
theorem mem_iff {d : Domain} {v : Nat} : v ∈ d ↔ ∃ r ∈ d.ranges, v ∈ r := Iff.rfl

/-- The first range ends at least one value before the second begins. -/
def Apart (a b : Interval) : Prop := a.hi + 1 < b.lo

/-- Whether there is a gap is a comparison of two ends. -/
instance (a b : Interval) : Decidable (Apart a b) := inferInstanceAs (Decidable (a.hi + 1 < b.lo))

/-- The ranges ascend, and no two of them touch. -/
def Canonical (d : Domain) : Prop := d.ranges.toList.Pairwise Apart

/-- Whether a list of ranges is canonical can be decided. -/
instance (d : Domain) : Decidable d.Canonical :=
  inferInstanceAs (Decidable (d.ranges.toList.Pairwise Apart))

/-- The number of values. -/
def size (d : Domain) : Nat := Interval.totalSize d.ranges.toList

/-- The set has no values. -/
def isEmpty (d : Domain) : Bool := d.ranges.isEmpty

/-- The set has exactly one value. -/
def isSingular (d : Domain) : Bool :=
  match d.ranges.toList with
  | [r] => r.isSingular
  | _ => false

/-- The least value. -/
def min? (d : Domain) : Option Nat := d.ranges.toList.head?.map Interval.lo

/-- The greatest value. -/
def max? (d : Domain) : Option Nat := d.ranges.toList.getLast?.map Interval.hi

/-- The index of the first range that does not end below `v`. -/
def firstReaching (d : Domain) (v : Nat) : Nat :=
  Bisection.firstFailure (fun i => d.ranges[i]?.any fun r => r.hi < v) d.ranges.size

/-- The range that holds `v`. -/
def rangeOf? (d : Domain) (v : Nat) : Option Interval :=
  d.ranges[d.firstReaching v]?.filter fun r => v ∈ r

/-- The value lies in the set. -/
def contains (d : Domain) (v : Nat) : Bool := (d.rangeOf? v).isSome

/-- Every value of `other` lies in the set. The ranges of a canonical set do not touch, so each
range of `other` has to lie in a single one of them. -/
def covers (d other : Domain) : Bool :=
  other.ranges.all fun r => (d.rangeOf? r.lo).any fun s => r ⊆ s

/-- The ranges in braces, separated by commas. -/
def text (d : Domain) : String :=
  "\x7b" ++ ", ".intercalate (d.ranges.toList.map Interval.text) ++ "\x7d"

/-- A domain is written as its ranges in braces. -/
instance : ToString Domain := ⟨text⟩

/-- Without ranges there is nothing to be out of order. -/
theorem canonical_empty : empty.Canonical := List.Pairwise.nil

/-- A single range is in order. -/
theorem canonical_ofInterval (r : Interval) : (ofInterval r).Canonical :=
  List.pairwise_singleton _ _

/-- A domain of one range has the values of that range. -/
theorem mem_ofInterval {r : Interval} {v : Nat} : v ∈ ofInterval r ↔ v ∈ r := by
  simp [mem_iff, ofInterval]

/-- A domain of one value has this value and no other. -/
theorem mem_singleton {v w : Nat} : w ∈ singleton v ↔ w = v :=
  mem_ofInterval.trans Interval.mem_singleton

/-- A full domain has the values that fit its width. -/
theorem mem_full {width v : Nat} : v ∈ full width ↔ v < Nat.pow 2 width := by
  have : 0 < Nat.pow 2 width := Nat.two_pow_pos width
  rw [full, mem_ofInterval]
  show 0 ≤ v ∧ v ≤ Nat.pow 2 width - 1 ↔ v < Nat.pow 2 width
  omega

end Domain

end BoundedEquations
