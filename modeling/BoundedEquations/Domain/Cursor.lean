import BoundedEquations.Domain.Basic

/-!
# `BoundedEquations.Domain.Cursor`: the values of a domain, one at a time

A cursor walks over the values of a domain in ascending order. It announces the value to come and
keeps the ranges from which it and all later values are taken, so a walk over `2 ^ 64` values
costs nothing before its first step.

`Cursor.remaining` counts the values that are still to come. Every step makes it smaller.
-/

set_option autoImplicit false

namespace BoundedEquations.Domain

/-- A place in the ascending enumeration of a domain. The announced value, if there is one, lies
in the first of the ranges. -/
structure Cursor where
  upcoming : Option Nat
  ranges : List Interval
deriving DecidableEq

/-- The cursor before the first value. -/
def cursor (d : Domain) : Cursor := ⟨d.min?, d.ranges.toList⟩

namespace Cursor

/-- How many values are still to come. -/
def remaining : Cursor → Nat
  | ⟨none, _⟩ => 0
  | ⟨some _, []⟩ => 1
  | ⟨some v, r :: rest⟩ => r.hi - v + 1 + Interval.totalSize rest

/-- The announced value together with the cursor behind it, or nothing at the end. -/
def next : Cursor → Except Fault (Option (Nat × Cursor))
  | ⟨none, _⟩ => .ok none
  | ⟨some _, []⟩ => .error .cursorPastEnd
  | ⟨some v, r :: rest⟩ =>
    if v < r.hi then .ok (some (v, ⟨some (v + 1), r :: rest⟩))
    else .ok (some (v, ⟨rest.head?.map Interval.lo, rest⟩))

/-- A step leaves fewer values to come. -/
theorem remaining_next {c c' : Cursor} {v : Nat} (h : c.next = .ok (some (v, c'))) :
    c'.remaining < c.remaining := by
  match c with
  | ⟨none, _⟩ => simp [next] at h
  | ⟨some _, []⟩ => simp [next] at h
  | ⟨some w, r :: rest⟩ =>
    simp only [next] at h
    split at h
    · simp only [Except.ok.injEq, Option.some.injEq, Prod.mk.injEq] at h
      obtain ⟨_, rfl⟩ := h
      simp only [remaining]
      omega
    · simp only [Except.ok.injEq, Option.some.injEq, Prod.mk.injEq] at h
      obtain ⟨_, rfl⟩ := h
      match rest with
      | [] =>
        simp only [remaining, List.head?_nil, Option.map_none]
        omega
      | s :: rest =>
        simp only [remaining, List.head?_cons, Option.map_some, Interval.totalSize_cons,
          Interval.size]
        omega

/-- The next `count` values, or all that are left. -/
def take : Nat → Cursor → Except Fault (List Nat)
  | 0, _ => .ok []
  | count + 1, c => do
    match ← c.next with
    | none => .ok []
    | some (v, c') => .ok (v :: (← c'.take count))

/-- The answers of `count` calls of `next`, which at the end are `none` over and over. -/
def steps : Nat → Cursor → Except Fault (List (Option Nat))
  | 0, _ => .ok []
  | count + 1, c => do
    match ← c.next with
    | none => .ok (none :: (← c.steps count))
    | some (v, c') => .ok (some v :: (← c'.steps count))

end Cursor

end BoundedEquations.Domain
