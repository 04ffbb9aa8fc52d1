import BoundedEquations.Domain.Basic

/-!
# `BoundedEquations.Domain.Algebra`: union, intersection and difference of domains

`overlaps` and `inter` sweep over the ranges of both sets at once and move on in the set whose
current range cannot meet anything further. `insert` finds the place of the new range by
bisection and joins to it the ranges it touches. `sdiff` takes the ranges of the second set out
of the first, one by one, and stops when nothing is left.
-/

set_option autoImplicit false

namespace BoundedEquations.Domain

/-- Some range of the first list overlaps some range of the second. Both lists ascend. -/
def anyOverlap : List Interval → List Interval → Bool
  | a :: as, b :: bs =>
    if a.Overlaps b then true
    else if a.hi < b.lo then anyOverlap as (b :: bs)
    else anyOverlap (a :: as) bs
  | _, _ => false
termination_by as bs => as.length + bs.length

/-- The sets share a value. -/
def overlaps (d other : Domain) : Bool := anyOverlap d.ranges.toList other.ranges.toList

/-- The common pieces of two ascending lists of ranges. -/
def commonPieces : List Interval → List Interval → List Interval
  | a :: as, b :: bs =>
    (a.inter? b).toList ++
      if a.hi ≤ b.hi then commonPieces as (b :: bs) else commonPieces (a :: as) bs
  | _, _ => []
termination_by as bs => as.length + bs.length

/-- The values of both sets. -/
def inter (d other : Domain) : Domain :=
  ⟨(commonPieces d.ranges.toList other.ranges.toList).toArray⟩

/-- The common values of two domains. -/
instance : Inter Domain := ⟨inter⟩

/-- Joins to `r` the ranges of an ascending list that it touches, as far as they reach. The ranges
after them are kept. -/
def absorb (r : Interval) : List Interval → List Interval
  | [] => [r]
  | s :: rest =>
    match r.union? s with
    | some joined => absorb joined rest
    | none => r :: s :: rest

/-- The index of the first range that touches `r` or lies above it. -/
def firstMeeting (d : Domain) (r : Interval) : Nat :=
  Bisection.firstFailure
    (fun i => d.ranges[i]?.any fun s => !decide (s.Touches r) && s.hi < r.lo) d.ranges.size

/-- Adds the values of an interval. -/
def insert (d : Domain) (r : Interval) : Domain :=
  ⟨(d.ranges.toList.take (d.firstMeeting r) ++
    absorb r (d.ranges.toList.drop (d.firstMeeting r))).toArray⟩

/-- The union of the intervals of a list. -/
def ofList (rs : List Interval) : Domain := rs.foldl insert empty

/-- The values of either set. -/
def union (d other : Domain) : Domain := other.ranges.foldl insert d

/-- The values of both domains. -/
instance : Union Domain := ⟨union⟩

/-- Takes out the values of an interval. -/
def erase (d : Domain) (r : Interval) : Domain :=
  ⟨(d.ranges.toList.flatMap fun s => s.sdiff r).toArray⟩

/-- Takes out the values of the intervals of a list, one interval after the other. Once nothing is
left, the rest of the list is not looked at. -/
def eraseEach (d : Domain) : List Interval → Domain
  | [] => d
  | r :: rest => if d.isEmpty then d else (d.erase r).eraseEach rest

/-- The values of the first set that are not in the second. -/
def sdiff (d other : Domain) : Domain := d.eraseEach other.ranges.toList

/-- The values of the first domain without those of the second. -/
instance : SDiff Domain := ⟨sdiff⟩

/-- Erasing an interval takes out just its values. -/
theorem mem_erase {d : Domain} {r : Interval} {v : Nat} : v ∈ d.erase r ↔ v ∈ d ∧ v ∉ r := by
  simp only [mem_iff, erase, List.mem_toArray, List.mem_flatMap, Array.mem_toList_iff]
  constructor
  · rintro ⟨c, ⟨s, hs, hc⟩, hv⟩
    obtain ⟨hvs, hvr⟩ := Interval.mem_sdiff.mp ⟨c, hc, hv⟩
    exact ⟨⟨s, hs, hvs⟩, hvr⟩
  · rintro ⟨⟨s, hs, hvs⟩, hvr⟩
    obtain ⟨c, hc, hv⟩ := Interval.mem_sdiff.mpr ⟨hvs, hvr⟩
    exact ⟨c, ⟨s, hs, hc⟩, hv⟩

end BoundedEquations.Domain
