import BoundedEquations.Proofs.Domain.Cursor
import BoundedEquations.Proofs.System.Choice

/-!
# `BoundedEquations.Proofs.System.Search`: the search decides whether a system has a solution

`Traced.Decides` says that a computation ends with the right answer to a question. It is the shape
of all results here, so that an answer and the absence of a fault are proved together. What a search
step leaves when it splits is described by `Split`. From there on the values of one variable are
tried, and `Trials` says which, in what order, and with what reports. The theorems:

* `Traced.tries_found`, `Traced.Tries.next`: trying the least of some numbers first.
* `anyTraced_tries`: trying the values of a domain in turn decides whether one of them passes, and
  the values tried are those up to the first that does.
* `advance_cases`: a search step answers, or it splits on a variable that was not fixed before.
* `Split.freeAtMost`: a split needs two variables that are not fixed, and fixes one of them.
* `search_trials`: the course of a search from a split on.
* `search_decides`: the search comes to an end, with a split for all but one of the variables that
  are not fixed.
* `solve_decides`: substitutions and search together decide whether a system has a solution.
-/

set_option autoImplicit false

namespace BoundedEquations

/-- The computation ends without a fault and answers the question whether `P` holds. -/
def Traced.Decides (t : Traced Bool) (P : Prop) : Prop := ∃ b, t.result = .ok b ∧ (b = true ↔ P)

/-- An answer to one question is one to an equivalent question. -/
theorem Traced.Decides.of_iff {t : Traced Bool} {P Q : Prop} (h : t.Decides P) (hPQ : P ↔ Q) :
    t.Decides Q := by
  obtain ⟨b, hb, hiff⟩ := h
  exact ⟨b, hb, hiff.trans hPQ⟩

/-- After a first question the second is only put if the first is answered with no. -/
theorem Traced.Decides.or_else {first second : Traced Bool} {P Q : Prop}
    (hfirst : first.Decides P) (hsecond : second.Decides Q) :
    Traced.Decides (do if ← first then return true else second) (P ∨ Q) := by
  obtain ⟨b, hb, hP⟩ := hfirst
  obtain ⟨c, hc, hQ⟩ := hsecond
  rw [Traced.Decides, Traced.result_bind_of_ok hb]
  cases b with
  | true => exact ⟨true, rfl, iff_of_true rfl (Or.inl (hP.mp rfl))⟩
  | false =>
    have hnot : ¬P := fun h => Bool.false_ne_true (hP.mpr h)
    exact ⟨c, hc, hQ.trans (or_iff_right hnot).symm⟩

/-- The numbers with `Q` are tried in ascending order, up to the first that has `P` as well. Those
that are tried are `vs`. -/
structure Traced.Tries (t : Traced Bool) (test : Nat → Traced Bool) (Q P : Nat → Prop)
    (vs : List Nat) : Prop where
  ascending : vs.Pairwise (· < ·)
  mem_iff : ∀ v, v ∈ vs ↔ Q v ∧ ∀ w, Q w → w < v → ¬P w
  events : t.events = vs.flatMap fun v => (test v).events
  decides : t.Decides (∃ v, Q v ∧ P v)

section Tries

variable {test : Nat → Traced Bool} {rest : Traced Bool} {Q R P : Nat → Prop} {vs : List Nat}
  {w : Nat}

/-- There is nothing to try. -/
theorem Traced.tries_none (hQ : ∀ v, ¬Q v) : (pure false : Traced Bool).Tries test Q P [] where
  ascending := .nil
  mem_iff v := iff_of_false List.not_mem_nil fun h => hQ v h.1
  events := rfl
  decides := ⟨false, rfl, iff_of_false Bool.false_ne_true fun ⟨v, hv, _⟩ => hQ v hv⟩

/-- The least number passes the test, and nothing else is tried. -/
theorem Traced.tries_found (hQ : ∀ v, Q v ↔ v = w ∨ R v) (hlt : ∀ v, R v → w < v) (hw : P w)
    (htest : (test w).result = .ok true) :
    Traced.Tries (do if ← test w then return true else rest) test Q P [w] := by
  have hQw : Q w := (hQ w).mpr (Or.inl rfl)
  rw [Traced.bind_of_ok htest]
  refine ⟨List.pairwise_singleton _ _, fun v => ?_, ?_, true, rfl, iff_of_true rfl ⟨w, hQw, hw⟩⟩
  · rw [List.mem_singleton]
    constructor
    · rintro rfl
      refine ⟨hQw, fun u hu huv => ?_⟩
      rcases (hQ u).mp hu with rfl | hu
      · exact absurd huv (Nat.lt_irrefl u)
      · exact absurd huv (Nat.lt_asymm (hlt u hu))
    · rintro ⟨hv, hfailed⟩
      exact ((hQ v).mp hv).resolve_right fun hlater => hfailed w hQw (hlt v hlater) hw
  · rw [List.flatMap_singleton]
    exact List.append_nil _

/-- The least number does not pass the test, and the others are tried after it. -/
theorem Traced.Tries.next (h : rest.Tries test R P vs) (hQ : ∀ v, Q v ↔ v = w ∨ R v)
    (hlt : ∀ v, R v → w < v) (hw : ¬P w) (htest : (test w).result = .ok false) :
    Traced.Tries (do if ← test w then return true else rest) test Q P (w :: vs) := by
  rw [Traced.bind_of_ok htest]
  refine ⟨List.pairwise_cons.mpr ⟨fun v hv => hlt v ((h.mem_iff v).mp hv).1, h.ascending⟩,
    fun v => ?_, ?_, ?_⟩
  · rw [List.mem_cons, h.mem_iff]
    constructor
    · rintro (rfl | ⟨hv, hfailed⟩)
      · refine ⟨(hQ v).mpr (Or.inl rfl), fun u hu huv => ?_⟩
        rcases (hQ u).mp hu with rfl | hu
        · exact hw
        · exact absurd huv (Nat.lt_asymm (hlt u hu))
      · refine ⟨(hQ v).mpr (Or.inr hv), fun u hu huv => ?_⟩
        rcases (hQ u).mp hu with rfl | hu
        · exact hw
        · exact hfailed u hu huv
    · rintro ⟨hv, hfailed⟩
      refine ((hQ v).mp hv).imp_right fun hlater => ⟨hlater, fun u hu huv => ?_⟩
      exact hfailed u ((hQ u).mpr (Or.inr hu)) huv
  · rw [List.flatMap_cons, ← h.events]
    rfl
  · refine Traced.Decides.of_iff h.decides ?_
    simp only [hQ, or_and_right, exists_or, exists_eq_left, hw, false_or]

end Tries

/-- The walk of a cursor tries the values to come in ascending order, up to the first that passes
the test. -/
theorem anyTraced_tries {test : Nat → Traced Bool} {c : Domain.Cursor} {P : Nat → Prop}
    (hc : c.Valid) (horder : c.ranges.Pairwise Domain.Apart)
    (htest : ∀ v, c.Yields v → (test v).Decides (P v)) :
    ∃ vs, (c.anyTraced test).Tries test (c.Yields ·) P vs := by
  fun_induction Domain.Cursor.anyTraced test c with
  | case1 c fault hnext =>
    -- A valid cursor takes its steps without a fault.
    rcases Domain.Cursor.next_cases hc with ⟨hnone, _⟩ | ⟨w, c', hsome, _, _⟩
    · exact nomatch hnext.symm.trans hnone
    · exact nomatch hnext.symm.trans hsome
  | case2 c hnext => exact ⟨[], Traced.tries_none (hc.not_yields_of_next hnext)⟩
  | case3 c w c' hnext ih =>
    obtain ⟨hvalid, hyields⟩ := hc.of_next hnext
    obtain ⟨horder', habove⟩ := Domain.Cursor.next_ascending hc horder hnext
    obtain ⟨b, hb, hP⟩ := htest w ((hyields w).mpr (Or.inl rfl))
    cases b with
    | true => exact ⟨[w], Traced.tries_found hyields habove (hP.mp rfl) hb⟩
    | false =>
      have hnot : ¬P w := fun h => Bool.false_ne_true (hP.mpr h)
      obtain ⟨vs, h⟩ := ih hvalid horder' fun u hu => htest u ((hyields u).mpr (Or.inr hu))
      exact ⟨w :: vs, h.next hyields habove hnot hb⟩

namespace System

variable {s : System} {σ : Assignment}

/-! ### One search step -/

/-- What a search step leaves when it splits on `x`, a variable with the domain `d`. No variable at
an inequality that the step has kept was fixed before. -/
structure Split (s s' : System) (x : Variable) (d : Domain) : Prop where
  ready : s'.Ready
  satisfiable_iff : s'.Satisfiable ↔ s.Satisfiable
  find?_eq : s'.domains.find? x = some d
  exists_hasEdge : ∃ y, s'.inequalities.hasEdge x y = true
  hasEdge_of_hasEdge : ∀ a b, s'.inequalities.hasEdge a b = true →
    s.inequalities.hasEdge a b = true
  not_fixed : ∀ a b, s'.inequalities.hasEdge a b = true → ¬s.Fixed a

/-- A search step answers the question, or it splits on a variable. -/
theorem advance_cases (hs : s.Ready) (config : Config) :
    (∃ b, (s.advance config).result = .ok (.decided b) ∧ (b = true ↔ s.Satisfiable)) ∨
      ∃ s' x d, (s.advance config).result = .ok (.split s' x d) ∧ Split s s' x d := by
  have hsimple := hs.wellFormed.inequalities_simple
  rw [advance]
  cases hempty : s.inequalities.isEmpty with
  | true =>
    -- Without inequalities every variable has room.
    refine Or.inl ⟨true, rfl, iff_of_true rfl (satisfiable_of_room hs fun x y hxy => ?_)⟩
    exact nomatch ((Graph.isEmpty_iff hsimple).mp hempty x y).symm.trans hxy
  | false =>
    rw [if_neg Bool.false_ne_true, hasEmptyDomain_eq_false_iff.mpr hs.live,
      if_neg Bool.false_ne_true]
    rcases propagate_cases hs with ⟨hnone, hunsat⟩ | ⟨s', hsome, hready, hholds, hedges⟩
    · rw [Traced.result_bind_of_ok hnone]
      exact Or.inl ⟨false, rfl, iff_of_false Bool.false_ne_true hunsat⟩
    · have hsat : s'.Satisfiable ↔ s.Satisfiable := exists_congr hholds
      rw [Traced.result_bind_of_ok hsome]
      dsimp only
      -- The pass has kept the solutions. It remains to see whether a split is needed.
      rcases splitVariable?_cases hready.wellFormed config with
        ⟨hsplit, hroom, _⟩ | ⟨x, hx, hsplit, _⟩
      · rw [hsplit]
        exact Or.inl ⟨true, rfl, iff_of_true rfl (hsat.mp (satisfiable_of_room hready hroom))⟩
      · obtain ⟨y, hxy⟩ := exists_hasEdge_of_mem_vertices hready.wellFormed hx
        obtain ⟨d, hd⟩ :=
          Table.contains_iff_exists.mp (hready.wellFormed.inequalities_declared x y hxy)
        refine Or.inr ⟨s', x, d, ?_, hready, hsat, hd, ⟨y, hxy⟩, fun a b hab => (hedges a b hab).1,
          fun a b hab => (hedges a b hab).2⟩
        rw [hsplit]
        show (do let candidates ← s'.domainOf x; _ : Traced Progress).result = _
        rw [domainOf_eq_ok_iff.mpr hd]
        rfl

/-- At most so many variables at inequalities are not fixed. -/
def FreeAtMost (s : System) (count : Nat) : Prop :=
  ∃ names : List String, names.length ≤ count ∧
    ∀ x y, s.inequalities.hasEdge x y = true → ¬s.Fixed x → x.name ∈ names

/-- A bound may be raised. -/
theorem FreeAtMost.mono {m n : Nat} (h : s.FreeAtMost m) (hmn : m ≤ n) : s.FreeAtMost n := by
  obtain ⟨names, hlength, hnames⟩ := h
  exact ⟨names, Nat.le_trans hlength hmn, hnames⟩

/-- No more variables are free than there are constrained ones. -/
theorem WellFormed.freeAtMost (hs : s.WellFormed) :
    s.FreeAtMost s.inequalities.vertices.length := by
  refine ⟨s.inequalities.adjacency.names, ?_, fun x y hxy _ => ?_⟩
  · rw [Table.length_names]
    exact Nat.le_refl _
  · exact (Graph.mem_vertices_names_iff hs.inequalities_simple).mpr ⟨y, hxy⟩

/-- Neither end of an inequality at the variable of a split was fixed before. In each branch one of
them is, and no variable that was fixed is at an inequality any more. -/
theorem Split.freeAtMost {s' : System} {x : Variable} {d : Domain} (h : Split s s' x d) {n : Nat}
    (hn : s.FreeAtMost n) (v : Nat) :
    2 ≤ n ∧ (s'.setDomain x (.singleton v)).FreeAtMost (n - 1) := by
  obtain ⟨names, hlength, hnames⟩ := hn
  have hmem : ∀ a b, s'.inequalities.hasEdge a b = true → a.name ∈ names := fun a b hab =>
    hnames a b (h.hasEdge_of_hasEdge a b hab) (h.not_fixed a b hab)
  have hsimple := h.ready.wellFormed.inequalities_simple
  obtain ⟨y, hxy⟩ := h.exists_hasEdge
  have hx := hmem x y hxy
  have hy := hmem y x (hsimple.symmetric x y hxy)
  have herase := List.length_erase_of_mem hx
  constructor
  · -- The other end is still in the list without `x`.
    have hpos := List.length_pos_of_mem
      ((List.mem_erase_of_ne (hsimple.ne_of_hasEdge hxy).symm).mpr hy)
    omega
  · refine ⟨names.erase x.name, by omega, fun a b hab hfree => ?_⟩
    have hne : a.name ≠ x.name := fun hname =>
      hfree ⟨v, (find?_setDomain s' x _ a).trans (if_pos hname)⟩
    exact (List.mem_erase_of_ne hne).mpr (hmem a b hab)

/-! ### The whole search -/

/-- Some solution gives this value to the variable. -/
def Admits (s : System) (x : Variable) (v : Nat) : Prop := ∃ σ, s.Holds σ ∧ σ x.name = v

/-- There is a solution just when some value is admitted. -/
theorem satisfiable_iff_exists_admits {x : Variable} :
    s.Satisfiable ↔ ∃ v, s.Admits x v :=
  ⟨fun ⟨σ, hσ⟩ => ⟨σ x.name, σ, hσ, rfl⟩, fun ⟨_, σ, hσ, _⟩ => ⟨σ, hσ⟩⟩

/-- A value is taken by some solution just when it is in the domain, and the system with that value
in place of the domain has a solution. -/
theorem admits_iff {x : Variable} {d : Domain} (hd : s.domains.find? x = some d) {v : Nat} :
    s.Admits x v ↔ v ∈ d ∧ (s.setDomain x (.singleton v)).Satisfiable := by
  have hfix : ∀ σ, v ∈ d →
      ((s.setDomain x (.singleton v)).Holds σ ↔ s.Holds σ ∧ σ x.name = v) := by
    intro σ hv
    refine holds_setDomain hd ?_
    rw [Domain.mem_singleton]
    exact ⟨fun h => ⟨h ▸ hv, h⟩, And.right⟩
  constructor
  · rintro ⟨σ, hσ, rfl⟩
    have hv := (holds_iff.mp hσ).1 x d hd
    exact ⟨hv, σ, (hfix σ hv).mpr ⟨hσ, rfl⟩⟩
  · rintro ⟨hv, σ, hσ⟩
    exact ⟨σ, (hfix σ hv).mp hσ⟩

/-- Where a variable is fixed to a value, the search can begin. -/
theorem Ready.setDomain (hs : s.Ready) {x : Variable} {v : Nat} :
    (s.setDomain x (.singleton v)).Ready where
  wellFormed := hs.wellFormed.setDomain (Domain.canonical_singleton v)
  reduced := hs.reduced
  live := hs.live.setDomain ⟨v, Domain.mem_singleton.mpr rfl⟩

/-- A search step that answers the question is the whole search. -/
theorem search_of_decided {config : Config} {answer : Bool} (depth : Nat)
    (h : (s.advance config).result = .ok (.decided answer)) :
    (search config depth s).result = .ok answer := by
  cases depth with
  | zero =>
    rw [search]
    exact Traced.result_bind_of_ok h _
  | succ depth =>
    rw [search]
    exact Traced.result_bind_of_ok h _

/-- The course of a search in `s` that splits on `x` and goes on in `s'`. Below it `depth` further
splits may be nested. The values that are tried are `vs`. -/
structure Trials (config : Config) (depth : Nat) (s s' : System) (x : Variable) (d : Domain)
    (vs : List Nat) : Prop where
  /-- Each value is tried once, and in ascending order. -/
  ascending : vs.Pairwise (· < ·)
  /-- The values are those of the domain, up to the first one that is taken by some solution. -/
  mem_iff : ∀ v, v ∈ vs ↔ v ∈ d ∧ ∀ w < v, ¬s'.Admits x w
  /-- Each trial searches the same system, with the value in place of the domain. -/
  events : (search config (depth + 1) s).events = (s.advance config).events ++
    vs.flatMap fun v =>
      .trying x.name v :: (search config depth (s'.setDomain x (.singleton v))).events
  /-- A trial finds out whether its value is taken by some solution. -/
  each : ∀ v ∈ vs, (search config depth (s'.setDomain x (.singleton v))).Decides (s'.Admits x v)
  /-- The answer is whether some value is. -/
  decides : (search config (depth + 1) s).Decides (∃ v, s'.Admits x v)

/-- After a split the values of the domain are tried in turn, one level deeper. -/
theorem search_trials {config : Config} {depth : Nat} {s' : System} {x : Variable} {d : Domain}
    (hresult : (s.advance config).result = .ok (.split s' x d)) (h : Split s s' x d)
    (hbranch : ∀ v, (search config depth (s'.setDomain x (.singleton v))).Decides
      (s'.setDomain x (.singleton v)).Satisfiable) :
    ∃ vs, Trials config depth s s' x d vs := by
  have htest : ∀ v, Traced.Decides
      (do Traced.emit (.trying x.name v); search config depth (s'.setDomain x (.singleton v)))
      (s'.setDomain x (.singleton v)).Satisfiable := hbranch
  have hcanonical := h.ready.wellFormed.canonical x d h.find?_eq
  have hadmits : ∀ v, s'.Admits x v ↔ _ := fun v => admits_iff h.find?_eq
  obtain ⟨vs, htries⟩ :=
    anyTraced_tries (Domain.Cursor.valid_cursor d) hcanonical fun v _ => htest v
  have hsearch : search config (depth + 1) s = ⟨_, (s.advance config).events ++ _⟩ :=
    Traced.bind_of_ok hresult _
  have hmem : ∀ v, v ∈ vs ↔ v ∈ d ∧ ∀ w < v, ¬s'.Admits x w := by
    intro v
    rw [htries.mem_iff, Domain.Cursor.yields_cursor_iff]
    refine and_congr_right fun _ => forall_congr' fun w => ?_
    rw [Domain.Cursor.yields_cursor_iff, hadmits, not_and]
    exact ⟨fun h hlt hw => h hw hlt, fun h hw hlt => h hlt hw⟩
  refine ⟨vs, htries.ascending, hmem, ?_, fun v hv => ?_, ?_⟩
  · rw [hsearch]
    exact congrArg _ htries.events
  · refine (hbranch v).of_iff ?_
    rw [hadmits]
    exact (and_iff_right ((hmem v).mp hv).1).symm
  · rw [hsearch]
    refine Traced.Decides.of_iff htries.decides (exists_congr fun v => ?_)
    rw [Domain.Cursor.yields_cursor_iff, hadmits]

/-- **The search decides whether a system has a solution**, if at most `depth + 1` variables at
inequalities are not fixed. A split fixes one more, and it needs two. -/
theorem search_decides (config : Config) {depth : Nat} (hs : s.Ready)
    (hfree : s.FreeAtMost (depth + 1)) : (search config depth s).Decides s.Satisfiable := by
  induction depth generalizing s with
  | zero =>
    rcases advance_cases hs config with ⟨b, hb, hiff⟩ | ⟨s', x, d, _, h⟩
    · exact ⟨b, search_of_decided 0 hb, hiff⟩
    · have htwo := (h.freeAtMost hfree 0).1
      exact absurd htwo (by decide)
  | succ depth ih =>
    rcases advance_cases hs config with ⟨b, hb, hiff⟩ | ⟨s', x, d, hresult, h⟩
    · exact ⟨b, search_of_decided (depth + 1) hb, hiff⟩
    · obtain ⟨vs, htrials⟩ := search_trials hresult h fun v =>
        ih h.ready.setDomain (h.freeAtMost hfree v).2
      refine htrials.decides.of_iff ?_
      rw [← satisfiable_iff_exists_admits, h.satisfiable_iff]

/-- **Solving a system decides whether it has a solution.** -/
theorem solve_decides (config : Config) (hs : s.WellFormed) :
    (s.solve config).Decides s.Satisfiable := by
  rw [solve]
  cases hempty : s.hasEmptyDomain with
  | true =>
    exact ⟨false, rfl, iff_of_false Bool.false_ne_true (not_satisfiable_of_hasEmptyDomain hempty)⟩
  | false =>
    rw [if_neg Bool.false_ne_true, Traced.Decides,
      Traced.result_bind_of_ok (rfl : (Traced.emit _).result = .ok ())]
    rcases quotient_cases hs (hasEmptyDomain_eq_false_iff.mp hempty) with
      ⟨hnone, hunsat⟩ | ⟨s', hsome, hready, hsat⟩
    · rw [Traced.result_bind_of_ok hnone]
      exact ⟨false, rfl, iff_of_false Bool.false_ne_true hunsat⟩
    · rw [Traced.result_bind_of_ok hsome, hsat]
      exact search_decides config hready (hready.wellFormed.freeAtMost.mono (Nat.le_succ _))

end System

end BoundedEquations
