import BoundedEquations.Interval

/-!
# `BoundedEquations.Interval.CommonParts`: the parts common to a list of intervals

`commonParts` cuts a list of intervals into disjoint parts such that each interval of the list is
a union of parts. The parts are as large as this allows.

A part can begin only where an interval of the list begins or where one has just ended. These
places are the cuts. Two neighbouring cuts bound a part or a gap, and it is a part when some
interval of the list covers it.
-/

set_option autoImplicit false

namespace BoundedEquations.Interval

/-- Adds a value to a strictly ascending list, unless it is there already. -/
def insertCut (v : Nat) : List Nat → List Nat
  | [] => [v]
  | w :: rest =>
    if v < w then v :: w :: rest
    else if w < v then w :: insertCut v rest
    else w :: rest

/-- The places where an interval begins or has just ended, strictly ascending. -/
def cuts : List Interval → List Nat
  | [] => []
  | r :: rest => insertCut r.lo (insertCut (r.hi + 1) (cuts rest))

/-- The values from `start` up to, but not including, `stop`. -/
def upTo? (start stop : Nat) : Option Interval :=
  if h : start < stop then some ⟨start, stop - 1, by omega⟩ else none

/-- The parts common to a list of intervals, in ascending order. -/
def commonParts (rs : List Interval) : List Interval :=
  ((cuts rs).zip (cuts rs).tail).filterMap fun (start, stop) =>
    (upTo? start stop).filter fun part => rs.any fun r => part ⊆ r

/-- Inserting a cut adds it to the others. -/
theorem mem_insertCut {v w : Nat} {cs : List Nat} : w ∈ insertCut v cs ↔ w = v ∨ w ∈ cs := by
  induction cs with
  | nil => simp [insertCut]
  | cons c rest ih =>
    unfold insertCut
    split
    · simp
    · split
      · simp only [List.mem_cons, ih]
        exact or_left_comm
      · have : v = c := by omega
        simp [this]

/-- Inserting keeps a list of cuts strictly ascending. -/
theorem pairwise_insertCut {v : Nat} {cs : List Nat} (h : cs.Pairwise (· < ·)) :
    (insertCut v cs).Pairwise (· < ·) := by
  induction cs with
  | nil => simp [insertCut]
  | cons c rest ih =>
    obtain ⟨hc, hrest⟩ := List.pairwise_cons.mp h
    unfold insertCut
    split
    · rename_i hv
      refine List.pairwise_cons.mpr ⟨fun w hw => ?_, h⟩
      rcases List.mem_cons.mp hw with rfl | hw
      · exact hv
      · exact Nat.lt_trans hv (hc w hw)
    · split
      · rename_i hv
        refine List.pairwise_cons.mpr ⟨fun w hw => ?_, ih hrest⟩
        rcases mem_insertCut.mp hw with rfl | hw
        · exact hv
        · exact hc w hw
      · exact h

/-- The cuts ascend, and none is listed twice. -/
theorem pairwise_cuts (rs : List Interval) : (cuts rs).Pairwise (· < ·) := by
  induction rs with
  | nil => exact List.Pairwise.nil
  | cons r rest ih => exact pairwise_insertCut (pairwise_insertCut ih)

/-- There is a cut where an interval begins and behind the end of each. -/
theorem mem_cuts {rs : List Interval} {v : Nat} :
    v ∈ cuts rs ↔ ∃ r ∈ rs, v = r.lo ∨ v = r.hi + 1 := by
  induction rs with
  | nil => simp [cuts]
  | cons r rest ih => simp [cuts, mem_insertCut, ih, or_assoc]

end BoundedEquations.Interval
