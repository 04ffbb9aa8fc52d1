import BoundedEquations.Proofs.Problem.Decision
import BoundedEquations.Proofs.System.Reports
import BoundedEquations.Proofs.System.Splits

/-!
# `BoundedEquations.Proofs.Problem.Trials`: what is tried, and in which order

Alternatives come up at two places. A problem with choices has several systems, and a search that
splits has several values. Both are tried in order, and the first that has a solution is the last
that is tried. `UpToFirst` says so of a list, and `System.Trials` of the values of a variable. Which
systems were solved can be read off the reports: apart from the events of the nodes above them,
there is nothing but what each of these systems reports by itself. The theorems:

* `UpToFirst.append_of_exists`, `UpToFirst.append_of_forall`: trying two lists in succession.
* `System.Reached.trials`: the values tried at a split, wherever in a search it comes.
* `System.Reached.isInfix`: the reports of such a search, among those of solving.
* `CaseTree.Runs.or_else`, `CaseTree.solve_runs`: the systems of a tree that are solved.
* `Problem.Reachable.tried_in_order`: both, for a problem that can arise.
-/

set_option autoImplicit false

namespace BoundedEquations

/-! ### Trying the members of a list -/

/-- The members of the first list are tried in order, up to the first that has the property. Those
that are tried make the second list. -/
inductive UpToFirst {α : Type} (P : α → Prop) : List α → List α → Prop
  | none : UpToFirst P [] []
  | found {a : α} (ha : P a) (rest : List α) : UpToFirst P (a :: rest) [a]
  | next {a : α} {rest tried : List α} (ha : ¬P a) (h : UpToFirst P rest tried) :
      UpToFirst P (a :: rest) (a :: tried)

namespace UpToFirst

variable {α : Type} {P : α → Prop} {as bs tried tried' : List α}

/-- A list of one is tried as a whole, whether or not its member has the property. -/
theorem singleton (P : α → Prop) (a : α) : UpToFirst P [a] [a] := by
  by_cases ha : P a
  · exact .found ha []
  · exact .next ha .none

/-- What comes after a member with the property is not tried. -/
theorem append_of_exists (h : UpToFirst P as tried) (hex : ∃ a ∈ as, P a) (bs : List α) :
    UpToFirst P (as ++ bs) tried := by
  induction h with
  | none =>
    obtain ⟨a, ha, _⟩ := hex
    exact nomatch ha
  | found ha rest => exact .found ha (rest ++ bs)
  | next ha _ ih =>
    obtain ⟨b, hb, hPb⟩ := hex
    rcases List.mem_cons.mp hb with rfl | hb
    · exact absurd hPb ha
    · exact .next ha (ih ⟨b, hb, hPb⟩)

/-- If no member has the property, it is the turn of the next list. -/
theorem append_of_forall (h : UpToFirst P as tried) (hall : ∀ a ∈ as, ¬P a)
    (h' : UpToFirst P bs tried') : UpToFirst P (as ++ bs) (tried ++ tried') := by
  induction h with
  | none => exact h'
  | found ha rest => exact absurd ha (hall _ List.mem_cons_self)
  | next ha _ ih => exact .next ha (ih fun b hb => hall b (List.mem_cons_of_mem _ hb))

end UpToFirst

/-! ### The values of a split -/

namespace System

/-- Solving `s` comes to a search of `t`, in which at most `depth` splits may be nested. The first
search is that of the quotient, and each of the others is a trial of a value. A value is tried if
no solution gives a lesser one. -/
inductive Reached (config : Config) (s : System) : Nat → System → Prop
  | start {q : System} (hlive : s.hasEmptyDomain = false)
      (hquotient : s.quotient.result = .ok (some q)) :
      Reached config s q.inequalities.vertices.length q
  | trial {depth : Nat} {t t' : System} {x : Variable} {d : Domain} {v : Nat}
      (h : Reached config s (depth + 1) t)
      (hresult : (t.advance config).result = .ok (.split t' x d)) (hv : v ∈ d)
      (hfirst : ∀ w < v, ¬t'.Admits x w) :
      Reached config s depth (t'.setDomain x (.singleton v))

variable {config : Config} {s t t' : System} {x : Variable} {d : Domain} {depth : Nat}

/-- The splits that have been made and those that are still possible make up the number of vertices
of the quotient. -/
theorem Reached.nested (hs : s.WellFormed) (h : Reached config s depth t) :
    ∃ q count, q.Ready ∧ Nested config q count t ∧
      count + depth = q.inequalities.vertices.length := by
  induction h with
  | @start q hlive hquotient =>
    exact ⟨q, 0, ready_of_quotient hs hlive hquotient, .start, Nat.zero_add _⟩
  | trial _ hresult hv _ ih =>
    obtain ⟨q, count, hready, hnested, hcount⟩ := ih
    exact ⟨q, count + 1, hready, hnested.split hresult hv, by omega⟩

/-- Wherever a search splits, the values are tried in order, and the depth allows for it. -/
theorem Reached.trials (hs : s.WellFormed) (h : Reached config s depth t)
    (hresult : (t.advance config).result = .ok (.split t' x d)) :
    ∃ below vs, depth = below + 1 ∧ Trials config below t t' x d vs := by
  obtain ⟨q, count, hready, hnested, hcount⟩ := h.nested hs
  obtain ⟨below, vs, hbelow, htrials⟩ :=
    hnested.trials hready.wellFormed hready.isEmpty_equalities hresult
  exact ⟨below, vs, by omega, htrials⟩

/-- What a search that is come to reports is a part of what solving reports. -/
theorem Reached.isInfix (hs : s.WellFormed) (h : Reached config s depth t) :
    (search config depth t).events <:+: (s.solve config).events := by
  induction h with
  | @start q hlive hquotient =>
    rw [solve, hlive, if_neg Bool.false_ne_true,
      Traced.bind_of_ok (rfl : (Traced.emit _).result = .ok ()), Traced.bind_of_ok hquotient]
    exact ((List.suffix_append _ _).trans (List.suffix_append _ _)).isInfix
  | @trial depth t t' x d v h hresult hv hfirst ih =>
    obtain ⟨below, vs, hdepth, htrials⟩ := h.trials hs hresult
    obtain rfl : depth = below := Nat.succ.inj hdepth
    -- The value is one of those that are tried, so its search stands between two others.
    obtain ⟨before, after, rfl⟩ := List.append_of_mem ((htrials.mem_iff v).mpr ⟨hv, hfirst⟩)
    refine List.IsInfix.trans ?_ ih
    rw [htrials.events, List.flatMap_append, List.flatMap_cons]
    refine List.IsInfix.trans ?_ (List.suffix_append _ _).isInfix
    refine List.IsInfix.trans ?_ (List.suffix_append _ _).isInfix
    exact (List.suffix_cons _ _).isInfix.trans (List.prefix_append _ _).isInfix

end System

/-! ### The systems of a tree -/

/-- The event is that of a node above the single systems. -/
def Event.isFork : Event → Bool
  | .solving _ _ _ branches => branches != 0
  | _ => false

/-- What a single system reports is not of a node above it. -/
theorem Event.OfSystem.isFork_eq_false {event : Event} (h : event.OfSystem) :
    event.isFork = false := by
  cases event with
  | solving _ _ _ branches =>
    obtain rfl : branches = 0 := h
    rfl
  | _ => rfl

namespace CaseTree

/-- Of some systems those in `tried` are solved, one after the other, up to the first that has a
solution. -/
structure Runs (config : Config) (t : Traced Bool) (systems tried : List System) : Prop where
  upToFirst : UpToFirst System.Satisfiable systems tried
  events : (t.events.filter fun event => !event.isFork)
    = tried.flatMap fun s => (s.solve config).events
  decides : t.Decides (∃ s ∈ systems, s.Satisfiable)

variable {config : Config} {as bs tried tried' : List System}

/-- A single system is solved, whatever comes of it. -/
theorem runs_solve_leaf {s : System} (hs : s.WellFormed) :
    Runs config (s.solve config) [s] [s] := by
  have hdecides := System.solve_decides config hs
  obtain ⟨b, hb, _⟩ := id hdecides
  refine ⟨.singleton _ s, ?_, hdecides.of_iff (by simp)⟩
  rw [List.flatMap_singleton, List.filter_eq_self]
  intro event hevent
  rw [(System.reports_solve s config b hb event hevent).isFork_eq_false]
  rfl

/-- The second list is only looked at if no system of the first has a solution. -/
theorem Runs.or_else {first second : Traced Bool} (hfirst : Runs config first as tried)
    (hsecond : Runs config second bs tried') :
    ∃ all, Runs config (do if ← first then return true else second) (as ++ bs) all := by
  have hdecides := (hfirst.decides.or_else hsecond.decides).of_iff
    (Q := ∃ s ∈ as ++ bs, s.Satisfiable) (by simp [or_and_right, exists_or])
  obtain ⟨b, hb, hP⟩ := hfirst.decides
  rw [Traced.bind_of_ok hb] at hdecides ⊢
  cases b with
  | true =>
    refine ⟨tried, hfirst.upToFirst.append_of_exists (hP.mp rfl) bs, ?_, hdecides⟩
    show List.filter _ (first.events ++ []) = _
    rw [List.append_nil]
    exact hfirst.events
  | false =>
    have hnone : ∀ s ∈ as, ¬s.Satisfiable := fun s hs hsat =>
      Bool.false_ne_true (hP.mpr ⟨s, hs, hsat⟩)
    refine ⟨tried ++ tried', hfirst.upToFirst.append_of_forall hnone hsecond.upToFirst, ?_,
      hdecides⟩
    show List.filter _ (first.events ++ second.events) = _
    rw [List.filter_append, List.flatMap_append, hfirst.events, hsecond.events]

mutual

/-- The leaves of a tree are solved from left to right, up to the first that has a solution. -/
theorem solve_runs (config : Config) {depth : Nat} : (t : CaseTree) → Balanced depth t →
    (∀ s ∈ t.leaves, s.WellFormed) → ∃ tried, Runs config (t.solve config) t.leaves tried
  | .leaf s, _, h => ⟨[s], runs_solve_leaf (h s List.mem_cons_self)⟩
  | .anyOf branches, .anyOf several all, h => by
    obtain ⟨tried, hruns⟩ := solveFirst_runs config branches all h
    -- The node itself has branches, so its own event is left out.
    have hfork : (Event.solving 0 0 0 branches.length).isFork = true :=
      bne_iff_ne.mpr (by omega)
    refine ⟨tried, hruns.upToFirst, ?_, hruns.decides⟩
    show List.filter _ (.solving 0 0 0 branches.length :: (solveFirst config branches).events) = _
    rw [List.filter_cons_of_neg (by simp [hfork])]
    exact hruns.events

/-- The same for the leaves of several trees. -/
theorem solveFirst_runs (config : Config) {depth : Nat} : (ts : List CaseTree) →
    (∀ t ∈ ts, Balanced depth t) → (∀ s ∈ leavesOf ts, s.WellFormed) →
    ∃ tried, Runs config (solveFirst config ts) (leavesOf ts) tried
  | [], _, _ => ⟨[], .none, rfl, false, rfl, by simp [leavesOf]⟩
  | t :: rest, all, h => by
    obtain ⟨tried, hfirst⟩ := solve_runs config t (all t List.mem_cons_self) fun s hs =>
      h s (List.mem_append_left _ hs)
    obtain ⟨tried', hrest⟩ := solveFirst_runs config rest
      (fun u hu => all u (List.mem_cons_of_mem _ hu)) fun s hs => h s (List.mem_append_right _ hs)
    rw [solveFirst]
    exact hfirst.or_else hrest

end

end CaseTree

namespace Problem

/-- **Alternatives are tried in order, up to the first that has a solution.** Whenever solving a
system of the problem splits on a variable, the values of its domain are tried in ascending order,
up to the least that some solution of the system at that point gives to it, or all if there is none.
The reports of the trials are a part of those of solving. And the systems themselves are solved from
left to right, up to the first that has a solution. -/
theorem Reachable.tried_in_order {p : Problem} (h : Reachable p) :
    (∀ s ∈ p.tree.leaves, ∀ depth t, System.Reached p.config s depth t →
      (System.search p.config depth t).events <:+: (s.solve p.config).events ∧
        ∀ t' x d, (t.advance p.config).result = .ok (.split t' x d) →
          ∃ below vs, depth = below + 1 ∧ System.Trials p.config below t t' x d vs) ∧
    ∃ tried, UpToFirst System.Satisfiable p.tree.leaves tried ∧
      (p.solve.events.filter fun event => !event.isFork)
        = tried.flatMap fun s => (s.solve p.config).events := by
  obtain ⟨declared, hsound⟩ := h.sound
  constructor
  · intro s hs depth t hreached
    have hwellFormed := hsound.wellFormed s hs
    exact ⟨hreached.isInfix hwellFormed, fun t' x d hresult => hreached.trials hwellFormed hresult⟩
  · obtain ⟨depth, hbalanced⟩ := hsound.balanced
    obtain ⟨tried, hruns⟩ := CaseTree.solve_runs p.config p.tree hbalanced hsound.wellFormed
    exact ⟨tried, hruns.upToFirst, hruns.events⟩

/-- Four variables of two bits are to differ from each other. Three of them have the values 0, 1
and 2 only, so the fourth has to be 3, and then there are three choices for it. -/
def lastValue : List Call :=
  let a : Variable := ⟨"a", 2, Nat.two_pos⟩
  let b : Variable := ⟨"b", 2, Nat.two_pos⟩
  let c : Variable := ⟨"c", 2, Nat.two_pos⟩
  let d : Variable := ⟨"d", 2, Nat.two_pos⟩
  [.declare a, .declare b, .declare c, .declare d,
    .equationSet ⟨.conjunction, [.ofVars a b false, .ofVars a c false, .ofVars a d false,
      .ofVars b c false, .ofVars b d false, .ofVars c d false]⟩,
    .equationSet ⟨.conjunction, [.ofValue b 3 false, .ofValue c 3 false, .ofValue d 3 false]⟩,
    .equationSet ⟨.disjunction, [.ofValue a 1 true, .ofValue a 0 false, .ofValue a 1 false]⟩]

/-- The second of the three systems splits on `a` first. -/
theorem tried_in_order_lastValue :
    Reachable ((new {}).run lastValue) ∧
      (∃ s ∈ ((new {}).run lastValue).tree.leaves, ∃ depth t t' x d below vs,
        System.Reached {} s depth t ∧ (t.advance {}).result = .ok (.split t' x d) ∧
          x.name = "a" ∧ System.Trials {} below t t' x d vs) ∧
      ∃ tried, UpToFirst System.Satisfiable ((new {}).run lastValue).tree.leaves tried ∧
        (((new {}).run lastValue).solve.events.filter fun event => !event.isFork)
          = tried.flatMap fun s => (s.solve {}).events := by
  have hreachable : Reachable ((new {}).run lastValue) := (Reachable.new {}).run lastValue
  obtain ⟨htrials, htried⟩ := hreachable.tried_in_order
  refine ⟨hreachable, ?_, htried⟩
  -- The system has no equalities, so the search begins in the system itself.
  obtain ⟨s, hs, hlive, hquotient, hadvance⟩ : ∃ s ∈ ((new {}).run lastValue).tree.leaves,
      s.hasEmptyDomain = false ∧ s.quotient.result = .ok (some s) ∧
        (match (s.advance {}).result with
          | .ok (.split _ x _) => x.name == "a"
          | _ => false) = true :=
    ⟨((new {}).run lastValue).tree.leaves.get ⟨1, by decide +kernel⟩, List.get_mem _ _,
      by decide +kernel, rfl, by decide +kernel⟩
  split at hadvance
  · rename_i t' x d hresult
    have hreached : System.Reached {} s s.inequalities.vertices.length s :=
      .start hlive hquotient
    obtain ⟨below, vs, _, h⟩ := (htrials s hs _ s hreached).2 t' x d hresult
    exact ⟨s, hs, _, s, t', x, d, below, vs, hreached, hresult, eq_of_beq hadvance, h⟩
  · exact nomatch hadvance

end Problem

end BoundedEquations
