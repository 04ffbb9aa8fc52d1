import BoundedEquations.Proofs.System.Room
import BoundedEquations.System.Search

/-!
# `BoundedEquations.Proofs.System.Choice`: which variable a search splits on

A variable at an inequality is tight when it has no more values than variables to differ from. The
choice goes through the list of constrained variables, which is in name order, and keeps the first
of the least. So what is chosen is said by a comparison alone: no other variable of its kind has a
smaller domain, and those with a domain of the same size have a greater name. The theorems:

* `firstLeast?_cases`: the choice from a list in order.
* `exists_constrained`, `mem_filter_le_degree_iff`: the list of the candidates, and the tight ones.
* `roomy_iff_forall_not_tight`: every variable has room just when none is tight.
* `splitVariable?_cases`: what is chosen, and when nothing is.
* `splitVariable?_choice`: where nothing is chosen, there is a solution.
-/

set_option autoImplicit false

namespace BoundedEquations

/-- The list is empty, or the choice falls on the first of the least entries. In a list with order
`R`, the other ones with the same number come after it. -/
theorem firstLeast?_cases {α : Type} {R : α → α → Prop} (hR : ∀ a, R a a) {as : List (α × Nat)}
    (has : as.Pairwise fun p q => R p.1 q.1) :
    (as = [] ∧ firstLeast? as = none) ∨
      ∃ a ∈ as, firstLeast? as = some a ∧
        ∀ b ∈ as, a.2 < b.2 ∨ (a.2 = b.2 ∧ R a.1 b.1) := by
  induction as with
  | nil => exact Or.inl ⟨rfl, rfl⟩
  | cons a rest ih =>
    obtain ⟨ha, hrest⟩ := List.pairwise_cons.mp has
    refine Or.inr ?_
    rcases ih hrest with ⟨rfl, hnone⟩ | ⟨b, hb, hsome, hleast⟩
    · refine ⟨a, List.mem_cons_self, by rw [firstLeast?, hnone], fun c hc => ?_⟩
      obtain rfl := List.mem_singleton.mp hc
      exact Or.inr ⟨rfl, hR c.1⟩
    · rw [firstLeast?, hsome]
      by_cases hlt : b.2 < a.2
      · refine ⟨b, List.mem_cons_of_mem _ hb, if_pos hlt, fun c hc => ?_⟩
        rcases List.mem_cons.mp hc with rfl | hc
        · exact Or.inl hlt
        · exact hleast c hc
      · -- The first entry is kept in a tie as well, and it comes before all others.
        refine ⟨a, List.mem_cons_self, if_neg hlt, fun c hc => ?_⟩
        rcases List.mem_cons.mp hc with rfl | hc
        · exact Or.inr ⟨rfl, hR c.1⟩
        · rcases hleast c hc with hbc | ⟨hbc, _⟩
          · exact Or.inl (by omega)
          · rcases Nat.lt_or_ge a.2 c.2 with hac | hca
            · exact Or.inl hac
            · exact Or.inr ⟨by omega, ha c hc⟩

namespace System

variable {s : System} {x : Variable}

/-- The variable has a domain of so many values. -/
def HasSize (s : System) (x : Variable) (n : Nat) : Prop :=
  ∃ d, s.domains.find? x = some d ∧ d.size = n

/-- The variable is at an inequality, and it has no more values than variables to differ from. -/
def Tight (s : System) (x : Variable) : Prop :=
  x ∈ s.inequalities.vertices ∧ ∃ n, s.HasSize x n ∧ n ≤ s.inequalities.degree x

/-- Of all variables of a kind, `x` has the smallest domain. Where several have, it is the first of
them in name order. -/
def FirstSmallest (s : System) (kind : Variable → Prop) (x : Variable) : Prop :=
  kind x ∧ ∃ n, s.HasSize x n ∧
    ∀ z m, kind z → s.HasSize z m → n < m ∨ (n = m ∧ x.name ≤ z.name)

/-- The number of values of a variable, and 0 if it is not declared. -/
def valueCount (s : System) (x : Variable) : Nat :=
  ((s.domains.find? x).map Domain.size).getD 0

/-- A domain of so many values is counted as such. -/
theorem HasSize.valueCount_eq {n : Nat} (h : s.HasSize x n) : s.valueCount x = n := by
  obtain ⟨d, hd, rfl⟩ := h
  rw [valueCount, hd]
  rfl

/-- A variable has no two sizes. -/
theorem HasSize.unique {m n : Nat} (hm : s.HasSize x m) (hn : s.HasSize x n) : m = n :=
  hm.valueCount_eq.symm.trans hn.valueCount_eq

/-- A constrained variable is at some inequality. -/
theorem exists_hasEdge_of_mem_vertices (hs : s.WellFormed) (hx : x ∈ s.inequalities.vertices) :
    ∃ y, s.inequalities.hasEdge x y = true :=
  (Graph.mem_vertices_names_iff hs.inequalities_simple).mp (List.mem_map_of_mem hx)

/-- A vertex has an inequality, so it has a domain. -/
theorem exists_hasSize_of_mem_vertices (hs : s.WellFormed) (hx : x ∈ s.inequalities.vertices) :
    ∃ n, s.HasSize x n := by
  obtain ⟨y, hxy⟩ := exists_hasEdge_of_mem_vertices hs hx
  obtain ⟨d, hd⟩ := Table.contains_iff_exists.mp (hs.inequalities_declared x y hxy)
  exact ⟨d.size, d, hd, rfl⟩

/-- The constrained variables are in name order. -/
theorem pairwise_vertices (s : System) :
    s.inequalities.vertices.Pairwise fun x y => x.name ≤ y.name := by
  refine (List.pairwise_map.mp s.inequalities.adjacency.pairwise_names).imp fun hlt => ?_
  exact String.not_lt.mp (String.lt_asymm hlt)

/-- Having room is the opposite of being tight. -/
theorem roomy_iff_forall_not_tight (hs : s.WellFormed) : s.Roomy ↔ ∀ x, ¬s.Tight x := by
  constructor
  · rintro hroom x ⟨hx, n, ⟨d, hd, rfl⟩, hle⟩
    obtain ⟨y, hxy⟩ := exists_hasEdge_of_mem_vertices hs hx
    exact Nat.not_le.mpr (hroom x y hxy d hd) hle
  · intro hnone x y hxy d hd
    -- The stored vertex may have another width than `x`, and goes by the same name.
    obtain ⟨k, hk, hname⟩ :=
      List.mem_map.mp ((Graph.mem_vertices_names_iff hs.inequalities_simple).mpr ⟨y, hxy⟩)
    rw [← s.domains.find?_congr hname] at hd
    rw [← Graph.degree_congr _ hname]
    exact Nat.not_le.mp fun hle => hnone k ⟨hk, d.size, ⟨d, hd, rfl⟩, hle⟩

/-! ### The list of candidates -/

/-- The variables to choose from are the vertices, each with the size of its domain. -/
theorem exists_constrained (hs : s.WellFormed) :
    ∃ sized, s.constrained = .ok sized ∧ (sized.Pairwise fun p q => p.1.name ≤ q.1.name) ∧
      ∀ x n, (x, n) ∈ sized ↔ x ∈ s.inequalities.vertices ∧ s.HasSize x n := by
  refine ⟨s.inequalities.vertices.map fun x => (x, s.valueCount x), ?_, ?_, fun x n => ?_⟩
  · refine mapM_eq_ok fun x hx => ?_
    obtain ⟨n, hn⟩ := exists_hasSize_of_mem_vertices hs hx
    rw [hn.valueCount_eq]
    obtain ⟨d, hd, rfl⟩ := hn
    rw [domainOf_eq_ok_iff.mpr hd]
    rfl
  · exact List.pairwise_map.mpr (pairwise_vertices s)
  · rw [List.mem_map]
    constructor
    · rintro ⟨y, hy, heq⟩
      obtain ⟨rfl, rfl⟩ := Prod.mk.inj heq
      obtain ⟨n, hn⟩ := exists_hasSize_of_mem_vertices hs hy
      exact ⟨hy, hn.valueCount_eq.symm ▸ hn⟩
    · rintro ⟨hx, hn⟩
      exact ⟨x, hx, by rw [hn.valueCount_eq]⟩

/-- The tight ones among the candidates are found by comparing. -/
theorem mem_filter_le_degree_iff {sized : List (Variable × Nat)}
    (hall : ∀ x n, (x, n) ∈ sized ↔ x ∈ s.inequalities.vertices ∧ s.HasSize x n) (x : Variable)
    (n : Nat) : (x, n) ∈ sized.filter (fun e => e.2 ≤ s.inequalities.degree e.1) ↔
      s.Tight x ∧ s.HasSize x n := by
  rw [List.mem_filter, hall, decide_eq_true_eq]
  constructor
  · rintro ⟨⟨hx, hn⟩, hle⟩
    exact ⟨⟨hx, n, hn, hle⟩, hn⟩
  · rintro ⟨⟨hx, m, hm, hle⟩, hn⟩
    exact ⟨⟨hx, hn⟩, hn.unique hm ▸ hle⟩

/-- The choice from a part of the candidates. The part is empty, or the first of its variables with
the smallest domain is chosen. -/
theorem firstLeast?_candidates {part : List (Variable × Nat)} {kind : Variable → Prop}
    (hsorted : part.Pairwise fun p q => p.1.name ≤ q.1.name)
    (hkind : ∀ x n, (x, n) ∈ part ↔ kind x ∧ s.HasSize x n) :
    ((∀ x n, ¬(kind x ∧ s.HasSize x n)) ∧ firstLeast? part = none) ∨
      ∃ e, firstLeast? part = some e ∧ s.FirstSmallest kind e.1 := by
  rcases firstLeast?_cases (R := fun x y : Variable => x.name ≤ y.name)
    (fun x => String.le_refl x.name) hsorted with ⟨rfl, hnone⟩ | ⟨e, he, hsome, hleast⟩
  · refine Or.inl ⟨fun x n h => ?_, hnone⟩
    exact absurd ((hkind x n).mpr h) List.not_mem_nil
  · obtain ⟨hx, hn⟩ := (hkind e.1 e.2).mp he
    refine Or.inr ⟨e, hsome, hx, e.2, hn, fun z m hz hm => ?_⟩
    exact hleast (z, m) ((hkind z m).mpr ⟨hz, hm⟩)

/-! ### The choice -/

/-- A tight variable is chosen, or else, where the shortcut is forbidden, any variable. -/
theorem splitVariable?_eq {sized : List (Variable × Nat)} (h : s.constrained = .ok sized)
    (config : Config) :
    s.splitVariable? config
      = .ok (((firstLeast? (sized.filter fun e => e.2 ≤ s.inequalities.degree e.1)).map Prod.fst).or
        (if config.pigeonhole then none else (firstLeast? sized).map Prod.fst)) := by
  rw [splitVariable?, h]
  dsimp only [bind, Except.bind]
  generalize firstLeast? (sized.filter _) = tight
  cases tight <;> rfl

/-- Nothing is chosen only if every variable has room, and then only if there is none or the
shortcut is allowed. Otherwise the first tight variable of the smallest domain is chosen, or the
first of all variables of the smallest domain if none is tight. -/
theorem splitVariable?_cases (hs : s.WellFormed) (config : Config) :
    (s.splitVariable? config = .ok none ∧ s.Roomy ∧
      (s.inequalities.isEmpty = true ∨ config.pigeonhole = true)) ∨
      ∃ x ∈ s.inequalities.vertices, s.splitVariable? config = .ok (some x) ∧
        (s.FirstSmallest s.Tight x ∨
          (config.pigeonhole = false ∧ s.Roomy ∧
            s.FirstSmallest (· ∈ s.inequalities.vertices) x)) := by
  obtain ⟨sized, hsized, hsorted, hall⟩ := exists_constrained hs
  have htight := mem_filter_le_degree_iff hall
  rw [splitVariable?_eq hsized]
  rcases firstLeast?_candidates (hsorted.filter _) htight with ⟨hnone, hchoice⟩ | ⟨e, hchoice, he⟩
  · -- No variable is tight, so each has room.
    have hroom : s.Roomy := (roomy_iff_forall_not_tight hs).mpr fun x hx => by
      obtain ⟨_, n, hn, _⟩ := id hx
      exact hnone x n ⟨hx, hn⟩
    rw [hchoice, Option.map_none, Option.none_or]
    cases config.pigeonhole with
    | true => exact Or.inl ⟨rfl, hroom, Or.inr rfl⟩
    | false =>
      rcases firstLeast?_candidates hsorted hall with ⟨hnone', hchoice'⟩ | ⟨e, hchoice', he⟩
      · -- There is no vertex at all, because each vertex has a domain of some size.
        have hnil : s.inequalities.vertices = [] := by
          refine List.eq_nil_iff_forall_not_mem.mpr fun x hx => ?_
          obtain ⟨n, hn⟩ := exists_hasSize_of_mem_vertices hs hx
          exact hnone' x n ⟨hx, hn⟩
        refine Or.inl ⟨by rw [hchoice']; rfl, hroom, Or.inl ?_⟩
        exact List.isEmpty_iff.mpr (List.map_eq_nil_iff.mp hnil)
      · exact Or.inr ⟨e.1, he.1, by rw [hchoice']; rfl, Or.inr ⟨rfl, hroom, he⟩⟩
  · exact Or.inr ⟨e.1, he.1.1, by rw [hchoice]; rfl, Or.inl he⟩

/-- **Which variable a search splits on.** Nothing is chosen if there are no inequalities, or if the
shortcut is allowed and every variable has more values than variables to differ from. In both cases
there is a solution. Otherwise a vertex is chosen. If some are tight, it is the first tight one with
the smallest domain. If none is, the shortcut is not allowed, and it is the first of all with the
smallest domain. -/
theorem splitVariable?_choice (hs : s.Ready) (config : Config) :
    (s.splitVariable? config = .ok none ∧ s.Satisfiable ∧
      (s.inequalities.isEmpty = true ∨ (config.pigeonhole = true ∧ s.Roomy))) ∨
      ∃ x ∈ s.inequalities.vertices, s.splitVariable? config = .ok (some x) ∧
        (s.FirstSmallest s.Tight x ∨
          (config.pigeonhole = false ∧ s.Roomy ∧
            s.FirstSmallest (· ∈ s.inequalities.vertices) x)) := by
  rcases splitVariable?_cases hs.wellFormed config with ⟨hnone, hroom, hwhy⟩ | hsome
  · -- Every variable has room, so values can be handed out one variable at a time.
    exact Or.inl ⟨hnone, satisfiable_of_room hs hroom, hwhy.imp_right fun h => ⟨h, hroom⟩⟩
  · exact Or.inr hsome

/-- Three variables that are to differ from each other. Two of them are tight, with domains of one
size, and the third one has room. -/
def crowded : System :=
  let x : Variable := ⟨"x", 1, Nat.one_pos⟩
  let y : Variable := ⟨"y", 1, Nat.one_pos⟩
  let z : Variable := ⟨"z", 4, by decide⟩
  ((((empty.declare x).declare y).declare z).addAll
    [.ofVars x y false, .ofVars x z false, .ofVars y z false]).state

/-- The search splits on `x`, which is the first of the tight variables. -/
theorem splitVariable?_choice_crowded : crowded.Ready ∧
    ∃ x, x.name = "x" ∧ crowded.splitVariable? {} = .ok (some x) ∧
      crowded.FirstSmallest crowded.Tight x := by
  have hs : crowded.WellFormed :=
    (((wellFormed_empty.declare _).declare _).declare _).addAll _
  have hready : crowded.Ready :=
    ⟨hs, (Graph.isEmpty_iff hs.equalities_simple).mp rfl,
      hasEmptyDomain_eq_false_iff.mp (by decide +kernel)⟩
  have hname : (crowded.splitVariable? {}).toOption.map (Option.map Variable.name)
      = some (some "x") := by decide +kernel
  rcases splitVariable?_choice hready {} with
    ⟨hnone, _⟩ | ⟨x, _, hsome, htight | ⟨hforbidden, _⟩⟩
  · rw [hnone] at hname
    exact nomatch hname
  · rw [hsome] at hname
    exact ⟨hready, x, Option.some.inj (Option.some.inj hname), hsome, htight⟩
  · exact nomatch hforbidden

end System

end BoundedEquations
