import BoundedEquations.Proofs.Problem.Safety
import BoundedEquations.Proofs.System.Splits

/-!
# `BoundedEquations.Proofs.Problem.Exhaustion`: no variable runs out of values in a search

An inequality takes a value out of a domain only if the other side is fixed to that value, and only
if the domain is not singular. A canonical domain of that kind has another value, so it does not get
empty (`Domain.exists_mem_sdiff_singleton`). The quotient has no empty domain either, and a split
leaves a single value. So the search asks in vain whether a domain is empty, each time that it asks.
What stops a pass is a clash of two fixed variables. The theorems:

* `Ready.neverEmpty`: what this means for one step of a search.
* `reports_solve_ordinary`: solving a system never reports that a variable has run out of values.
* `Problem.Reachable.never_exhausted`: both, for all searches of a problem that can arise.
-/

set_option autoImplicit false

namespace BoundedEquations

/-- No ordinary event says that a variable has lost its last value. -/
theorem Event.Ordinary.ne_exhausted {event : Event} (h : event.Ordinary) (name : String)
    (fixed : Domain) : event ≠ .exhausted name fixed := by
  rintro rfl
  exact h

open Traced

namespace System

variable {s : System} {x y : Variable} {rest : List (Variable × Variable)} {config : Config}

/-- No domain is empty when the search of `s` begins or at any point of the pass that follows. -/
structure NeverEmpty (s : System) : Prop where
  /-- The check at the beginning finds nothing. -/
  atEntry : s.hasEmptyDomain = false
  /-- No inequality leaves a domain empty, unless it is a conflict and so the last one. -/
  inPass : ∀ t rest, Passing s s.inequalities.edges t rest → t.hasEmptyDomain = false
  /-- The pass ends with a conflict just when it comes to an inequality whose sides are fixed to the
  same value. -/
  conflict_iff : s.propagate.result = .ok none ↔
    ∃ t x y rest v, Passing s s.inequalities.edges t ((x, y) :: rest) ∧
      t.domains.find? x = some (.singleton v) ∧ t.domains.find? y = some (.singleton v)

/-- Where the search can begin, no domain is empty or gets empty. -/
theorem Ready.neverEmpty (hs : s.Ready) : s.NeverEmpty where
  atEntry := hasEmptyDomain_eq_false_iff.mpr hs.live
  inPass _ _ h := hasEmptyDomain_eq_false_iff.mpr (h.pending hs.pending).live
  conflict_iff := by
    rw [propagate, separateAll_eq_none_iff]
    constructor
    · rintro ⟨t, x, y, rest, h, hnone⟩
      obtain ⟨v, hx, hy⟩ := (h.pending hs.pending).separate_eq_none_iff.mp hnone
      exact ⟨t, x, y, rest, v, h, hx, hy⟩
    · rintro ⟨t, x, y, rest, v, h, hx, hy⟩
      exact ⟨t, x, y, rest, h, (h.pending hs.pending).separate_eq_none_iff.mpr ⟨v, hx, hy⟩⟩

/-! ### What is reported -/

/-- What is reported for an inequality is that it is taken up, and then at most a clash. -/
theorem Pending.reports_separate (h : s.Pending ((x, y) :: rest)) :
    (s.separate x y).Reports Event.Ordinary := by
  have hne := (h.ends x y List.mem_cons_self).2.2
  rcases h.separate_cases with ⟨v, _, _, hclash⟩ | ⟨s', hsome, _⟩
  · refine reports_of_result_eq_ok hclash ?_
    exact List.forall_mem_cons.mpr ⟨hne, List.forall_mem_singleton.mpr trivial⟩
  · exact reports_of_result_eq_ok hsome (List.forall_mem_singleton.mpr hne)

/-- The pass at the beginning of a search step reports ordinary events. -/
theorem Ready.reports_propagate (hs : s.Ready) : s.propagate.Reports Event.Ordinary :=
  Passing.start.reports fun _ _ _ _ h => (h.pending hs.pending).reports_separate

/-- Each search begins in a system that is ready for it, so its passes report nothing else. -/
theorem reports_solve_ordinary (hs : s.WellFormed) (config : Config) :
    (s.solve config).Reports Event.Ordinary := by
  refine reports_solve_of_search (fun _ h => h) fun q hlive hquotient => ?_
  exact reports_search (fun _ h => h) (fun t ht => ht.reports_propagate)
    (fun t t' x d v ht hresult => ht.trial hresult v) _ (ready_of_quotient hs hlive hquotient)

end System

namespace Problem

/-- **No variable runs out of values in a search.** Take a system of the problem and its quotient,
and go through any number of nested splits to the search of `t`. The check for an empty domain finds
nothing in `t`. In the pass that follows no inequality leaves a domain empty, and only one whose
sides are fixed to the same value is a conflict. So solving the problem never reports that a domain
is empty after a value was taken out. -/
theorem Reachable.never_exhausted {p : Problem} (h : Reachable p) :
    (∀ s ∈ p.tree.leaves, s.hasEmptyDomain = false → ∀ q, s.quotient.result = .ok (some q) →
      ∀ count t, System.Nested p.config q count t → t.NeverEmpty) ∧
    ∀ name fixed, Event.exhausted name fixed ∉ p.solve.events := by
  obtain ⟨declared, hsound⟩ := h.sound
  constructor
  · intro s hs hlive q hquotient count t hnested
    have hq := System.ready_of_quotient (hsound.wellFormed s hs) hlive hquotient
    exact (hnested.ready hq).neverEmpty
  · obtain ⟨answer, hanswer, _⟩ := CaseTree.solve_decides p.config p.tree hsound.wellFormed
    have hreports : p.solve.Reports fun event => ∀ name fixed, event ≠ .exhausted name fixed := by
      refine CaseTree.reports_solve (fun _ _ _ => nofun) p.tree fun s hs => ?_
      exact (System.reports_solve_ordinary (hsound.wellFormed s hs) p.config).mono
        fun _ hevent => hevent.ne_exhausted
    intro name fixed hmem
    exact hreports answer hanswer _ hmem name fixed rfl

/-- Three variables of one bit are to differ from each other. -/
def threeBits : List Call :=
  let a : Variable := ⟨"a", 1, Nat.one_pos⟩
  let b : Variable := ⟨"b", 1, Nat.one_pos⟩
  let c : Variable := ⟨"c", 1, Nat.one_pos⟩
  [.declare a, .declare b, .declare c,
    .equationSet ⟨.conjunction, [.ofVars a b false, .ofVars b c false, .ofVars a c false]⟩]

/-- The search splits on `a`. As soon as `a` has the value 0 the others have to be 1, which is a
clash. -/
theorem never_exhausted_threeBits :
    Reachable ((new {}).run threeBits) ∧
      (∃ s ∈ ((new {}).run threeBits).tree.leaves, ∃ t, System.Nested {} s 1 t ∧
        t.NeverEmpty ∧ t.propagate.result = .ok none ∧
        ∃ u x y rest v, System.Passing t t.inequalities.edges u ((x, y) :: rest) ∧
          u.domains.find? x = some (.singleton v) ∧ u.domains.find? y = some (.singleton v)) ∧
      ∀ name fixed, Event.exhausted name fixed ∉ ((new {}).run threeBits).solve.events := by
  have hreachable : Reachable ((new {}).run threeBits) := (Reachable.new {}).run threeBits
  obtain ⟨hnever, hevents⟩ := hreachable.never_exhausted
  refine ⟨hreachable, ?_, hevents⟩
  -- The system has no equalities, so the search begins in the system itself.
  obtain ⟨s, hs, hlive, hquotient, hadvance⟩ : ∃ s ∈ ((new {}).run threeBits).tree.leaves,
      s.hasEmptyDomain = false ∧ s.quotient.result = .ok (some s) ∧
        (match (s.advance {}).result with
          | .ok (.split t x d) => d == .full 1 &&
            match (t.setDomain x (.singleton 0)).propagate.result with
            | .ok none => true
            | _ => false
          | _ => false) = true :=
    ⟨((new {}).run threeBits).tree.leaves.get ⟨0, by decide +kernel⟩, List.get_mem _ _,
      by decide +kernel, rfl, by decide +kernel⟩
  split at hadvance
  · rename_i t x d hresult
    obtain ⟨hfull, hpass⟩ := Bool.and_eq_true_iff.mp hadvance
    obtain rfl := eq_of_beq hfull
    have hnested : System.Nested {} s 1 (t.setDomain x (.singleton 0)) :=
      .split .start hresult (Domain.mem_full.mpr Nat.two_pos)
    have hnonempty := hnever s hs hlive s hquotient 1 _ hnested
    split at hpass
    · rename_i hclash
      exact ⟨s, hs, _, hnested, hnonempty, hclash, hnonempty.conflict_iff.mp hclash⟩
    · exact nomatch hpass
  · exact nomatch hadvance

end Problem

end BoundedEquations
