import BoundedEquations.Proofs.Domain.Counting
import BoundedEquations.Proofs.Domain.Cursor
import BoundedEquations.Proofs.Domain.SetAlgebra
import Mathlib.Data.List.Pairwise

/-!
# `BoundedEquations.Proofs.Domain.Enumeration`: the values of a domain from first to last

A walk is a run of a cursor: each step takes a value, until a step finds none. What one step does is
known from `Cursor.next_cases` and `Cursor.next_ascending`. Here it is followed to the end, and the
values taken on the way are compared with what a domain tells of itself without a walk, which are
its size, its least and its greatest value, and the test for a single value. The theorems:

* `exists_walk`: a valid cursor comes to its end without a fault.
* `Walk.mem_iff`, `Walk.pairwise_lt`: the walk takes the values to come, the lesser ones first.
* `Walk.steps_eq`, `Walk.take_eq`: what any number of calls answers, also past the end.
* `max?_cases`, `isSingular_iff_size`: the greatest value and the single value, read off the ranges.
* `cursor_enumerates_values`: the enumeration of a domain agrees with all of these.
-/

set_option autoImplicit false

namespace BoundedEquations.Domain

namespace Cursor

/-! ### Walks -/

/-- The cursor takes these values, one with each step, and then is at the end. -/
inductive Walk : Cursor → List Nat → Prop where
  | done {c : Cursor} : c.next = .ok none → Walk c []
  | step {c c' : Cursor} {v : Nat} {vs : List Nat} :
    c.next = .ok (some (v, c')) → Walk c' vs → Walk c (v :: vs)

/-- A valid cursor comes to its end, because each step leaves fewer values to come. -/
theorem exists_walk {c : Cursor} (hc : c.Valid) : ∃ vs, Walk c vs := by
  induction hcount : c.remaining using Nat.strongRecOn generalizing c with
  | ind count ih =>
    rcases next_cases hc with ⟨hend, _⟩ | ⟨v, c', hnext, hc', _⟩
    · exact ⟨[], .done hend⟩
    · have hless : c'.remaining < count := hcount ▸ remaining_next hnext
      obtain ⟨vs, hvs⟩ := ih c'.remaining hless hc' rfl
      exact ⟨v :: vs, .step hnext hvs⟩

/-- The walk takes the values to come and no others. -/
theorem Walk.mem_iff {c : Cursor} {vs : List Nat} (h : Walk c vs) (hc : c.Valid) (v : Nat) :
    v ∈ vs ↔ Yields v c := by
  induction h with
  | done hend =>
    have hnone := hc.not_yields_of_next hend v
    simp [hnone]
  | step hnext _ ih =>
    obtain ⟨hc', hyields⟩ := hc.of_next hnext
    rw [List.mem_cons, ih hc', hyields]

/-- Over ranges in order each step takes a value that lies below all later ones. -/
theorem Walk.pairwise_lt {c : Cursor} {vs : List Nat} (h : Walk c vs) (hc : c.Valid)
    (horder : c.ranges.Pairwise Apart) : vs.Pairwise (· < ·) := by
  induction h with
  | done _ => exact List.Pairwise.nil
  | step hnext hrest ih =>
    have hc' := (hc.of_next hnext).1
    obtain ⟨horder', habove⟩ := next_ascending hc horder hnext
    refine List.pairwise_cons.mpr ⟨?_, ih hc' horder'⟩
    intro u hu
    exact habove u ((hrest.mem_iff hc' u).mp hu)

/-- The announced value is the one that the next step takes. -/
theorem upcoming_of_next {c : Cursor} {answer : Option (Nat × Cursor)} (h : c.next = .ok answer) :
    c.upcoming = answer.map Prod.fst := by
  match c with
  | ⟨none, _⟩ =>
    obtain rfl := Except.ok.inj h
    rfl
  | ⟨some _, []⟩ => exact nomatch h
  | ⟨some v, r :: rest⟩ =>
    rw [next] at h
    split at h
    · obtain rfl := Except.ok.inj h
      rfl
    · obtain rfl := Except.ok.inj h
      rfl

/-- The announced value is the first one of the walk. -/
theorem Walk.upcoming_eq {c : Cursor} {vs : List Nat} (h : Walk c vs) : c.upcoming = vs.head? := by
  cases h with
  | done hend => exact upcoming_of_next hend
  | step hnext _ => exact upcoming_of_next hnext

/-- Each call answers the value whose turn it is. Past the end there is none, however often the
cursor is asked. -/
theorem Walk.steps_eq {c : Cursor} {vs : List Nat} (h : Walk c vs) (count : Nat) :
    c.steps count = .ok ((List.range count).map fun i => vs[i]?) := by
  induction count generalizing c vs with
  | zero => rfl
  | succ count ih =>
    rw [List.range_succ_eq_map, List.map_cons, List.map_map]
    cases h with
    | done hend =>
      have hrest := ih (.done hend)
      simp [steps, hend, hrest, Function.comp_def, bind, Except.bind]
    | step hnext hwalk =>
      have hrest := ih hwalk
      simp [steps, hnext, hrest, Function.comp_def, bind, Except.bind]

/-- The first values can be had without the others. -/
theorem Walk.take_eq {c : Cursor} {vs : List Nat} (h : Walk c vs) (count : Nat) :
    c.take count = .ok (vs.take count) := by
  induction count generalizing c vs with
  | zero => rfl
  | succ count ih =>
    cases h with
    | done hend => simp [take, hend, bind, Except.bind]
    | step hnext hwalk =>
      have hrest := ih hwalk
      simp [take, hnext, hrest, bind, Except.bind]

/-- Three of `2 ^ 64` values. -/
example : (full 64).cursor.take 3 = .ok [0, 1, 2] := rfl

end Cursor

/-! ### What the ranges tell without a walk -/

/-- The end of the last range is the greatest value, because the ranges ascend. -/
theorem max?_cases {d : Domain} (hd : d.Canonical) :
    (d.max? = none ∧ ∀ v, v ∉ d) ∨ ∃ m, d.max? = some m ∧ m ∈ d ∧ ∀ v ∈ d, v ≤ m := by
  simp only [mem_iff_exists_toList, max?]
  rw [Canonical] at hd
  generalize d.ranges.toList = rs at hd
  cases hlast : rs.getLast? with
  | none =>
    have hnil : rs = [] := List.getLast?_eq_none_iff.mp hlast
    simp [hnil]
  | some r =>
    obtain ⟨before, rfl⟩ := List.getLast?_eq_some_iff.mp hlast
    refine Or.inr ⟨r.hi, rfl, ⟨r, by simp, r.lo_le_hi, Nat.le_refl _⟩, ?_⟩
    rintro v ⟨s, hs, hv⟩
    rcases List.mem_append.mp hs with hs | hs
    · have hapart : s.hi + 1 < r.lo := (List.pairwise_append.mp hd).2.2 s hs r (by simp)
      have := r.lo_le_hi
      have := hv.2
      omega
    · obtain rfl := List.mem_singleton.mp hs
      exact hv.2

/-- In a strictly ascending list the greatest member comes last. -/
theorem getLast?_eq_some_of_forall_le {vs : List Nat} (hvs : vs.Pairwise (· < ·)) {m : Nat}
    (hm : m ∈ vs) (hle : ∀ v ∈ vs, v ≤ m) : vs.getLast? = some m := by
  have hne := List.ne_nil_of_mem hm
  have hlast : m ≤ vs.getLast hne := (hvs.imp Nat.le_of_lt).rel_getLast hm
  rw [List.getLast?_eq_some_getLast hne, Nat.le_antisymm (hle _ (List.getLast_mem hne)) hlast]

/-- A canonical domain is a single range of a single value just when its size is one. -/
theorem isSingular_iff_size {d : Domain} (hd : d.Canonical) : d.isSingular = true ↔ d.size = 1 := by
  rw [isSingular_iff, ← card_values hd, Finset.card_eq_one]
  refine exists_congr fun v => ?_
  constructor
  · rintro rfl
    ext u
    rw [mem_values, mem_singleton, Finset.mem_singleton]
  · intro hvalues
    refine eq_of_mem_iff hd (canonical_singleton v) fun u => ?_
    rw [← mem_values, hvalues, Finset.mem_singleton, mem_singleton]

/-! ### The enumeration of a domain -/

/-- A list of the values of a domain, each once, is as long as the domain is large. -/
theorem length_eq_size {d : Domain} (hd : d.Canonical) {vs : List Nat} (hnodup : vs.Nodup)
    (hmem : ∀ v, v ∈ vs ↔ v ∈ d) : vs.length = d.size := by
  rw [← card_values hd, ← List.toFinset_card_of_nodup hnodup]
  congr 1
  ext v
  rw [List.mem_toFinset, hmem, mem_values]

/-- The greatest value ends a list of the values in order. -/
theorem max?_eq_getLast? {d : Domain} (hd : d.Canonical) {vs : List Nat}
    (hvs : vs.Pairwise (· < ·)) (hmem : ∀ v, v ∈ vs ↔ v ∈ d) : d.max? = vs.getLast? := by
  rcases max?_cases hd with ⟨hmax, hnone⟩ | ⟨m, hmax, hm, hle⟩
  · have hnil : vs = [] :=
      List.eq_nil_iff_forall_not_mem.mpr fun v hv => hnone v ((hmem v).mp hv)
    rw [hmax, hnil, List.getLast?_nil]
  · rw [hmax, getLast?_eq_some_of_forall_le hvs ((hmem m).mpr hm)]
    intro v hv
    exact hle v ((hmem v).mp hv)

/-- **A cursor enumerates its domain.** Asked again and again it answers the values, each once and
the lesser ones first, and nothing after the last one. The first few can be had alone. There are as
many as the size of the domain says. The least and the greatest value are the first and the last
one, and there are none of these just when there are no values. The domain is found to have a single
value just when one is answered. -/
theorem cursor_enumerates_values {d : Domain} (hd : d.Canonical) :
    ∃ vs : List Nat,
      (∀ count, d.cursor.steps count = .ok ((List.range count).map fun i => vs[i]?)) ∧
      (∀ count, d.cursor.take count = .ok (vs.take count)) ∧
      (∀ v, v ∈ vs ↔ d.contains v = true) ∧
      vs.Pairwise (· < ·) ∧
      vs.length = d.size ∧
      (d.min? = vs.head? ∧ (d.min? = none ↔ vs = [])) ∧
      (d.max? = vs.getLast? ∧ (d.max? = none ↔ vs = [])) ∧
      (d.isSingular = true ↔ vs.length = 1) := by
  obtain ⟨vs, hwalk⟩ := Cursor.exists_walk (Cursor.valid_cursor d)
  have hmem : ∀ v, v ∈ vs ↔ v ∈ d := by
    intro v
    rw [hwalk.mem_iff (Cursor.valid_cursor d), Cursor.yields_cursor_iff]
  have hascending := hwalk.pairwise_lt (Cursor.valid_cursor d) hd
  have hlength := length_eq_size hd hascending.nodup hmem
  have hmin : d.min? = vs.head? := hwalk.upcoming_eq
  have hmax := max?_eq_getLast? hd hascending hmem
  refine ⟨vs, hwalk.steps_eq, hwalk.take_eq, fun v => ?_, hascending, hlength, ⟨hmin, ?_⟩,
    ⟨hmax, ?_⟩, ?_⟩
  · rw [hmem, contains_iff_mem hd]
  · rw [hmin, List.head?_eq_none_iff]
  · rw [hmax, List.getLast?_eq_none_iff]
  · rw [isSingular_iff_size hd, hlength]

/-- Five values in three ranges, the last of which holds one value only. The sixth call and the
seventh answer nothing. -/
theorem cursor_enumerates_values_threeRanges :
    threeRanges.Canonical ∧
      threeRanges.cursor.steps 7 =
        .ok [some 0, some 1, some 4, some 5, some 9, none, none] ∧
      ∃ vs : List Nat,
        (∀ count, threeRanges.cursor.steps count = .ok ((List.range count).map fun i => vs[i]?)) ∧
        vs.length = 5 ∧ vs.head? = some 0 ∧ vs.getLast? = some 9 := by
  have hcanonical : threeRanges.Canonical := by decide
  obtain ⟨vs, hsteps, _, _, _, hlength, ⟨hmin, _⟩, ⟨hmax, _⟩, _⟩ :=
    cursor_enumerates_values hcanonical
  exact ⟨hcanonical, rfl, vs, hsteps, hlength, hmin.symm, hmax.symm⟩

end BoundedEquations.Domain
