import BoundedEquations.Proofs.Domain.Insertion

/-!
# `BoundedEquations.Proofs.Domain.Construction`: one form for each set of values

A `Construction` records how a domain has come about: from which domains it started, and what was
put in or taken out on the way. `Construction.build` carries it out with the operations on domains.
`Construction.Denotes` says with plain logic which values the result is to have. The theorems:

* `canonical_build`: every domain that can be built is canonical.
* `mem_build`: it has the values that its construction denotes.
* `normal_form_build`: so two constructions that denote the same values build the same domain, range
  by range.
-/

set_option autoImplicit false

namespace BoundedEquations.Domain

/-- The ways to come by a domain. -/
inductive Construction where
  | empty
  | full (width : Nat)
  | singleton (v : Nat)
  | ofInterval (r : Interval)
  /-- Gives the first domain the content of the second. -/
  | replace (target source : Construction)
  | insert (target : Construction) (r : Interval)
  | union (target other : Construction)
  | inter (target other : Construction)
  | sdiff (target other : Construction)

namespace Construction

/-- The domain that comes about. -/
def build : Construction → Domain
  | .empty => .empty
  | .full width => .full width
  | .singleton v => .singleton v
  | .ofInterval r => .ofInterval r
  | .replace _ source => source.build
  | .insert target r => target.build.insert r
  | .union target other => target.build ∪ other.build
  | .inter target other => target.build ∩ other.build
  | .sdiff target other => target.build \ other.build

/-- The value is one of those that are meant. -/
def Denotes (v : Nat) : Construction → Prop
  | .empty => False
  | .full width => v < Nat.pow 2 width
  | .singleton w => v = w
  | .ofInterval r => r.lo ≤ v ∧ v ≤ r.hi
  | .replace _ source => source.Denotes v
  | .insert target r => target.Denotes v ∨ (r.lo ≤ v ∧ v ≤ r.hi)
  | .union target other => target.Denotes v ∨ other.Denotes v
  | .inter target other => target.Denotes v ∧ other.Denotes v
  | .sdiff target other => target.Denotes v ∧ ¬other.Denotes v

/-- Each operation gives a canonical domain when it is given canonical ones. -/
theorem canonical_build (c : Construction) : c.build.Canonical := by
  induction c with
  | empty => exact canonical_empty
  | full width => exact canonical_full width
  | singleton v => exact canonical_singleton v
  | ofInterval r => exact canonical_ofInterval r
  | replace _ source _ ihsource => exact ihsource
  | insert target r ih => exact canonical_insert ih r
  | union target other ih _ => exact canonical_union ih other.build
  | inter target other ih ihother => exact canonical_inter ih ihother
  | sdiff target other ih _ => exact canonical_sdiff other.build ih

/-- The sweep for common values relies on the order of the ranges, which is known by now. -/
theorem mem_build (c : Construction) (v : Nat) : v ∈ c.build ↔ c.Denotes v := by
  induction c with
  | empty => exact iff_of_false (fun ⟨r, hr, _⟩ => Array.not_mem_empty r hr) id
  | full width => exact mem_full
  | singleton w => exact mem_singleton
  | ofInterval r => exact mem_ofInterval
  | replace _ source _ ihsource => exact ihsource
  | insert target r ih => exact mem_insert.trans (or_congr_left ih)
  | union target other ih ihother => exact mem_union.trans (or_congr ih ihother)
  | inter target other ih ihother =>
    have hmem := mem_inter (v := v) target.canonical_build other.canonical_build
    exact hmem.trans (and_congr ih ihother)
  | sdiff target other ih ihother => exact mem_sdiff.trans (and_congr ih (not_congr ihother))

/-- **Every domain that can be built is in normal form.** Its ranges are not empty, ascend, and
leave out a value between one and the next. Looking a value up in it answers whether the value is
meant. It has no ranges just when nothing is found in it, and two of them are equal just when the
same values are found in both. -/
theorem normal_form_build (c : Construction) :
    ((∀ r ∈ c.build.ranges, r.lo ≤ r.hi) ∧ c.build.Canonical) ∧
      (∀ v, c.build.contains v = true ↔ c.Denotes v) ∧
      (c.build.isEmpty = true ↔ ∀ v, c.build.contains v = false) ∧
      ∀ c' : Construction,
        c.build = c'.build ↔ ∀ v, c.build.contains v = c'.build.contains v := by
  have hfound : ∀ (c : Construction) (v : Nat), c.build.contains v = true ↔ v ∈ c.build :=
    fun c v => contains_iff_mem c.canonical_build
  refine ⟨⟨fun r _ => r.lo_le_hi, c.canonical_build⟩,
    fun v => (hfound c v).trans (c.mem_build v), ?_, fun c' => ⟨fun h v => by rw [h], fun h => ?_⟩⟩
  · rw [isEmpty_iff]
    refine forall_congr' fun v => ?_
    rw [← hfound c v, Bool.not_eq_true]
  · refine eq_of_mem_iff c.canonical_build c'.canonical_build fun v => ?_
    rw [← hfound c v, ← hfound c' v, h v]

/-- Ranges that come to touch are joined, so a set put together from parts in two orders has one
range in the end. -/
example :
    (Construction.insert (.union (.ofInterval ⟨0, 1, by decide⟩) (.singleton 4))
        ⟨2, 3, by decide⟩).build = Domain.ofInterval ⟨0, 4, by decide⟩ := by
  cbv

end Construction

end BoundedEquations.Domain
