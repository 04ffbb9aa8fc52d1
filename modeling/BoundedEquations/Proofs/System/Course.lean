import BoundedEquations.Proofs.System.Classes
import Mathlib.Data.Set.Card

/-!
# `BoundedEquations.Proofs.System.Course`: the order of the substitutions

Each substitution takes the least vertex out of the equality graph and joins its neighbours to a
greater one. The graph gets new edges by this, but no new vertices. So the vertices that are taken
ascend, and none comes back. `Course` is the part of the way up to some system, and `Eliminates` the
whole way to the end. Both list the names of the pairs, and `Event.equality?` reads the same list
off the reports. The theorems:

* `Step.vertexNames_subset`: what one step does to the vertices.
* `Eliminates.ascending`, `Course.notMem_vertexNames`: the vertices that are taken.
* `Course.isPrefix`: the way up to a system is a part of the whole.
* `substituteAll_eliminates`: the way is the one that the quotient reports.
* `Eliminates.mem_iff`: all names of a class are taken but the greatest.
* `card_add_ncard_components`: the number of steps.
* `substitutions_in_order`: all of it for the quotient.
-/

set_option autoImplicit false

namespace BoundedEquations

/-- The names of an equality that is taken up for substitution. -/
def Event.equality? : Event → Option (String × String)
  | .equality lhs rhs => some (lhs, rhs)
  | _ => none

namespace System

open BoundedEquations.Graph (rename rename_of_ne)

variable {s s' t : System} {x y : Variable} {o : Option System}
  {steps done : List (String × String)}

/-! ### One step -/

/-- The first equality is that of `x` and `y`, and substituting `y` for `x` is carried out. -/
structure Step (s : System) (x y : Variable) (s' : System) : Prop where
  first : s.equalities.firstEdge? = some (x, y)
  result : (s.substitute x y).result = .ok (some s')

/-- The first equality is one, and its lesser end comes first. -/
theorem hasEdge_of_firstEdge? (hs : s.WellFormed)
    (hfirst : s.equalities.firstEdge? = some (x, y)) :
    s.equalities.hasEdge x y = true ∧ x.name < y.name := by
  rcases Graph.firstEdge?_cases hs.equalities_simple with ⟨_, hnone⟩ | ⟨a, b, hab, hedge, hlt⟩
  · exact nomatch hnone.symm.trans hfirst
  · obtain ⟨rfl, rfl⟩ := Prod.mk.inj (Option.some.inj (hab.symm.trans hfirst))
    exact ⟨hedge, hlt⟩

/-- The first edge begins at a vertex. -/
theorem mem_vertexNames_of_firstEdge? (hs : s.WellFormed)
    (hfirst : s.equalities.firstEdge? = some (x, y)) : x.name ∈ s.equalities.vertexNames :=
  (Graph.mem_vertexNames_iff hs.equalities_simple).mpr
    ⟨y, (hasEdge_of_firstEdge? hs hfirst).1⟩

namespace Step

/-- What a step does to a system. -/
theorem substituted (hs : s.WellFormed) (h : Step s x y s') : Substituted s x y s' := by
  rcases substitute_cases hs (hasEdge_of_firstEdge? hs h.first).1 with ⟨hnone, _⟩ | ⟨t, hsome, ht⟩
  · exact nomatch (Except.ok.inj (hnone.symm.trans h.result))
  · obtain rfl := Option.some.inj (Except.ok.inj (hsome.symm.trans h.result))
    exact ht

/-- A step keeps a system well-formed. -/
theorem wellFormed (hs : s.WellFormed) (h : Step s x y s') : s'.WellFormed :=
  (h.substituted hs).wellFormed hs (hasEdge_of_firstEdge? hs h.first).1

/-- The least vertex is gone, and no vertex is new. -/
theorem vertexNames_subset (hs : s.WellFormed) (h : Step s x y s') :
    s'.equalities.vertexNames ⊆ s.equalities.vertexNames.erase x.name := by
  intro n hn
  obtain ⟨a, rfl⟩ := Variable.exists_name_eq n
  obtain ⟨b, hab⟩ := (Graph.mem_vertexNames_iff (h.wellFormed hs).equalities_simple).mp hn
  obtain ⟨hne, hvertex⟩ :=
    (h.substituted hs).vertex_of_hasEdge hs (hasEdge_of_firstEdge? hs h.first).1 hab
  exact Finset.mem_erase.mpr
    ⟨hne, (Graph.mem_vertexNames_iff hs.equalities_simple).mpr hvertex⟩

/-- What is a vertex after the step comes after the one that is taken. -/
theorem lt_of_mem (hs : s.WellFormed) (h : Step s x y s') {n : String}
    (hn : n ∈ s'.equalities.vertexNames) : x.name < n := by
  obtain ⟨hne, hmem⟩ := Finset.mem_erase.mp (h.vertexNames_subset hs hn)
  exact Graph.lt_of_firstEdge? h.first hmem hne

end Step

/-! ### The whole way -/

/-- The pairs of names on the way from one system to another, one substitution after the other. -/
inductive Course : System → List (String × String) → System → Prop
  | start {s : System} : Course s [] s
  | step {s s' t : System} {x y : Variable} {done : List (String × String)} (h : Step s x y s')
      (rest : Course s' done t) : Course s ((x.name, y.name) :: done) t

/-- The pairs of names along the whole way, and how it ends. A pair that is refused is the last. -/
inductive Eliminates : System → List (String × String) → Option System → Prop
  | done {s : System} (hempty : s.equalities.isEmpty = true) : Eliminates s [] (some s)
  | stuck {s : System} {x y : Variable} (hfirst : s.equalities.firstEdge? = some (x, y))
      (hnone : (s.substitute x y).result = .ok none) : Eliminates s [(x.name, y.name)] none
  | step {s s' : System} {x y : Variable} {steps : List (String × String)} {o : Option System}
      (h : Step s x y s') (rest : Eliminates s' steps o) :
      Eliminates s ((x.name, y.name) :: steps) o

/-- Each step is determined by the system before it. -/
theorem Course.isPrefix (h : Course s done t) (hs : s.WellFormed) (hall : Eliminates s steps o) :
    done <+: steps := by
  induction h generalizing steps with
  | start => exact List.nil_prefix
  | @step s s' t x y done h _ ih =>
    cases hall with
    | done hempty =>
      have hxy := (hasEdge_of_firstEdge? hs h.first).1
      exact nomatch ((Graph.isEmpty_iff hs.equalities_simple).mp hempty x y).symm.trans hxy
    | stuck hfirst hnone =>
      obtain ⟨rfl, rfl⟩ := Prod.mk.inj (Option.some.inj (hfirst.symm.trans h.first))
      exact nomatch (Except.ok.inj (hnone.symm.trans h.result))
    | step h' hrest =>
      obtain ⟨rfl, rfl⟩ := Prod.mk.inj (Option.some.inj (h'.first.symm.trans h.first))
      obtain rfl := Option.some.inj (Except.ok.inj (h'.result.symm.trans h.result))
      exact List.cons_prefix_cons.mpr ⟨rfl, ih (h.wellFormed hs) hrest⟩

/-- No vertex is added on the way. -/
theorem Course.vertexNames_subset (hs : s.WellFormed) (h : Course s done t) :
    t.equalities.vertexNames ⊆ s.equalities.vertexNames := by
  induction h with
  | start => exact Finset.Subset.refl _
  | step h _ ih =>
    exact (ih (h.wellFormed hs)).trans
      ((h.vertexNames_subset hs).trans (Finset.erase_subset _ _))

/-- What has been taken does not come back. -/
theorem Course.notMem_vertexNames (hs : s.WellFormed) (h : Course s done t) :
    ∀ p ∈ done, p.1 ∉ t.equalities.vertexNames := by
  induction h with
  | start => exact fun p hp => absurd hp List.not_mem_nil
  | step h hrest ih =>
    intro p hp
    rcases List.mem_cons.mp hp with rfl | hp
    · intro hmem
      have hmem' := hrest.vertexNames_subset (h.wellFormed hs) hmem
      exact (Finset.mem_erase.mp (h.vertexNames_subset hs hmem')).1 rfl
    · exact ih (h.wellFormed hs) p hp

namespace Eliminates

/-- Only vertices are taken. -/
theorem mem_vertexNames (hs : s.WellFormed) (h : Eliminates s steps o) :
    ∀ p ∈ steps, p.1 ∈ s.equalities.vertexNames := by
  induction h with
  | done _ => exact fun p hp => absurd hp List.not_mem_nil
  | stuck hfirst _ =>
    intro p hp
    obtain rfl := List.mem_singleton.mp hp
    exact mem_vertexNames_of_firstEdge? hs hfirst
  | step h _ ih =>
    intro p hp
    rcases List.mem_cons.mp hp with rfl | hp
    · exact mem_vertexNames_of_firstEdge? hs h.first
    · have hmem := h.vertexNames_subset hs (ih (h.wellFormed hs) p hp)
      exact Finset.mem_of_mem_erase hmem

/-- The lesser name is taken, and the greater one stays. -/
theorem lt (hs : s.WellFormed) (h : Eliminates s steps o) : ∀ p ∈ steps, p.1 < p.2 := by
  induction h with
  | done _ => exact fun p hp => absurd hp List.not_mem_nil
  | stuck hfirst _ =>
    intro p hp
    obtain rfl := List.mem_singleton.mp hp
    exact (hasEdge_of_firstEdge? hs hfirst).2
  | step h _ ih =>
    exact List.forall_mem_cons.mpr
      ⟨(hasEdge_of_firstEdge? hs h.first).2, ih (h.wellFormed hs)⟩

/-- The vertices that are taken ascend, because each step takes the least. -/
theorem ascending (hs : s.WellFormed) (h : Eliminates s steps o) :
    (steps.map Prod.fst).Pairwise (· < ·) := by
  induction h with
  | done _ => exact .nil
  | stuck _ _ => exact List.pairwise_singleton _ _
  | step h hrest ih =>
    refine List.pairwise_cons.mpr ⟨fun n hn => ?_, ih (h.wellFormed hs)⟩
    obtain ⟨p, hp, rfl⟩ := List.mem_map.mp hn
    exact h.lt_of_mem hs (hrest.mem_vertexNames (h.wellFormed hs) p hp)

/-- No name is taken twice. -/
theorem nodup (hs : s.WellFormed) (h : Eliminates s steps o) : (steps.map Prod.fst).Nodup := by
  refine (h.ascending hs).imp fun hlt => ?_
  rintro rfl
  exact String.lt_irrefl _ hlt

/-- If the way comes to its end, a name is taken just when it is not the greatest of its class. -/
theorem mem_iff (hs : s.WellFormed) (h : Eliminates s steps o) (ho : o.isSome = true)
    (n : String) : n ∈ steps.map Prod.fst ↔ ∃ m, s.SameClass n m ∧ n < m := by
  induction h with
  | @done s hempty =>
    have hnone := (Graph.isEmpty_iff hs.equalities_simple).mp hempty
    refine iff_of_false List.not_mem_nil ?_
    rintro ⟨m, hclass, hlt⟩
    have halone := sameClass_iff_eq (n := n) fun a b hab => nomatch hab.symm.trans (hnone a b)
    exact String.lt_irrefl n (((halone m).mp hclass) ▸ hlt)
  | stuck _ _ => exact nomatch ho
  | @step s s' x y steps o h _ ih =>
    obtain ⟨hxy, hlt⟩ := hasEdge_of_firstEdge? hs h.first
    rw [List.map_cons, List.mem_cons, ih (h.wellFormed hs) ho]
    by_cases hn : n = x.name
    · exact iff_of_true (Or.inl hn) ⟨y.name, hn ▸ sameClass_of_hasEdge hxy, hn ▸ hlt⟩
    · -- The other members of the class of `n` are the same as before, and `x` is not needed.
      have hclass := (h.substituted hs).sameClass_iff hs hxy n
      rw [rename_of_ne hn] at hclass
      rw [or_iff_right hn]
      constructor
      · rintro ⟨m, hm, hnm⟩
        exact ⟨m, ((hclass m).mp hm).1, hnm⟩
      · rintro ⟨m, hm, hnm⟩
        by_cases hmx : m = x.name
        · subst hmx
          have hy := hm.trans (sameClass_of_hasEdge hxy)
          have hyx := (hs.equalities_simple.ne_of_hasEdge hxy).symm
          exact ⟨y.name, (hclass y.name).mpr ⟨hy, hyx⟩, String.lt_trans hnm hlt⟩
        · exact ⟨m, (hclass m).mpr ⟨hm, hmx⟩, hnm⟩

end Eliminates

/-! ### What is reported -/

/-- A substitution reports its equality and no other. -/
theorem equalities_substitute (hs : s.WellFormed) (hxy : s.equalities.hasEdge x y = true) :
    (s.substitute x y).events.filterMap Event.equality? = [(x.name, y.name)] := by
  have hne := hs.equalities_simple.ne_of_hasEdge hxy
  rw [substitute, if_neg fun heq => hne (Variable.beq_iff.mp heq)]
  cases s.inequalities.hasEdge x y with
  | true => rfl
  | false =>
    obtain ⟨common, hcommon, _⟩ := exists_commonDomain hs hxy
    rw [if_neg Bool.false_ne_true]
    dsimp only
    rw [hcommon, Graph.contract_eq_ok, Graph.contract_eq_ok]
    show ((Traced.emit _ >>= fun _ => if common.isEmpty = true then _ else _ :
      Traced (Option System)).events.filterMap _) = _
    split <;> rfl

/-- The end of the way, if no equality is left. -/
theorem eliminates_reduced (hresult : (do return some (← s.reduced) : Traced _).result = .ok o) :
    Eliminates s
      ((do return some (← s.reduced) : Traced _).events.filterMap Event.equality?) o := by
  cases hempty : s.equalities.isEmpty with
  | false =>
    have hreduced : s.reduced = .error (.equalitiesLeft s.text) :=
      if_neg (Bool.eq_false_iff.mp hempty)
    rw [hreduced] at hresult
    exact nomatch hresult
  | true =>
    have hreduced : s.reduced = .ok s := if_pos hempty
    rw [hreduced] at hresult ⊢
    exact Except.ok.inj hresult ▸ .done hempty

/-- Substitutions that come to an end report their way. -/
theorem substituteAll_eliminates {count : Nat} (hs : s.WellFormed)
    (hresult : (substituteAll count s).result = .ok o) :
    Eliminates s ((substituteAll count s).events.filterMap Event.equality?) o := by
  induction count generalizing s with
  | zero =>
    rw [substituteAll] at hresult ⊢
    exact eliminates_reduced hresult
  | succ count ih =>
    rcases Graph.firstEdge?_cases hs.equalities_simple with ⟨_, hfirst⟩ | ⟨x, y, hfirst, hxy, _⟩
    · rw [substituteAll, hfirst] at hresult ⊢
      exact eliminates_reduced hresult
    · have hreport := equalities_substitute hs hxy
      rcases substitute_cases hs hxy with ⟨hnone, _⟩ | ⟨s', hsome, h⟩
      · obtain rfl := Except.ok.inj ((result_substituteAll_of_none hfirst hnone).symm.trans hresult)
        rw [substituteAll, hfirst]
        dsimp only
        rw [Traced.bind_of_ok hnone, List.filterMap_append, hreport]
        exact .stuck hfirst hnone
      · rw [result_substituteAll_of_some hfirst hsome] at hresult
        rw [substituteAll, hfirst]
        dsimp only
        rw [Traced.bind_of_ok hsome, List.filterMap_append, hreport]
        exact .step ⟨hfirst, hsome⟩ (ih (h.wellFormed hs hxy) hresult)

/-! ### The number of steps -/

/-- The names in the class of a name. -/
def classOf (s : System) (n : String) : Set String := {m | s.SameClass n m}

/-- The classes of the variables that have equalities. -/
def components (s : System) : Set (Set String) := s.classOf '' s.equalities.vertexNames

/-- Two names have one class just when they are in the same class. -/
theorem classOf_eq_iff (hs : s.WellFormed) {m n : String} :
    s.classOf m = s.classOf n ↔ s.SameClass m n := by
  constructor
  · intro h
    show n ∈ s.classOf m
    rw [h]
    exact Relation.ReflTransGen.refl
  · intro h
    exact Set.ext fun k => ⟨fun hk => (h.symm hs).trans hk, fun hk => h.trans hk⟩

/-- A name with others in its class is a vertex. -/
theorem mem_vertexNames_of_sameClass (hs : s.WellFormed) {m n : String} (h : s.SameClass n m)
    (hne : m ≠ n) : n ∈ s.equalities.vertexNames := by
  by_contra hn
  refine hne ((sameClass_iff_eq (fun a b hab => ?_) m).mp h)
  rintro rfl
  exact hn ((Graph.mem_vertexNames_iff hs.equalities_simple).mpr ⟨b, hab⟩)

/-- Every class has one vertex that is not taken, and that is its greatest name. -/
theorem components_eq_image (hs : s.WellFormed) {taken : Finset String}
    (htaken : ∀ n, n ∈ taken ↔ ∃ m, s.SameClass n m ∧ n < m)
    (hrepresentative : ∀ n, ∃ r, s.IsRepresentative n r) :
    s.components = s.classOf '' ↑(s.equalities.vertexNames \ taken) := by
  refine Set.Subset.antisymm ?_ (Set.image_mono (Finset.coe_subset.mpr Finset.sdiff_subset))
  rintro _ ⟨n, hn, rfl⟩
  obtain ⟨r, hclass, hgreatest⟩ := hrepresentative n
  refine ⟨r, Finset.mem_coe.mpr (Finset.mem_sdiff.mpr ⟨?_, ?_⟩), ?_⟩
  · by_cases hrn : r = n
    · exact hrn ▸ hn
    · exact mem_vertexNames_of_sameClass hs (hclass.symm hs) (Ne.symm hrn)
  · rw [htaken]
    rintro ⟨m, hm, hlt⟩
    exact String.not_lt.mpr (hgreatest m (hclass.trans hm)) hlt
  · exact (classOf_eq_iff hs).mpr (hclass.symm hs)

/-- The vertices that are taken and the classes are as many as there are vertices. -/
theorem card_add_ncard_components (hs : s.WellFormed) {taken : Finset String}
    (htaken : ∀ n, n ∈ taken ↔ ∃ m, s.SameClass n m ∧ n < m)
    (hrepresentative : ∀ n, ∃ r, s.IsRepresentative n r) :
    taken.card + s.components.ncard = s.equalities.vertexNames.card := by
  -- Of two names in one class the lesser is taken, so no class has two that are not.
  have hgreatest : ∀ {m n : String}, m ∈ s.equalities.vertexNames \ taken →
      s.SameClass m n → n ≤ m := fun hm hclass =>
    String.not_lt.mp fun hlt => (Finset.mem_sdiff.mp hm).2 ((htaken _).mpr ⟨_, hclass, hlt⟩)
  have hinjective : Set.InjOn s.classOf ↑(s.equalities.vertexNames \ taken) := by
    intro m hm n hn hmn
    have hclass := (classOf_eq_iff hs).mp hmn
    exact String.le_antisymm (hgreatest hn (hclass.symm hs)) (hgreatest hm hclass)
  have hsubset : taken ⊆ s.equalities.vertexNames := by
    intro n hn
    obtain ⟨m, hm, hlt⟩ := (htaken n).mp hn
    exact mem_vertexNames_of_sameClass hs hm fun h => String.lt_irrefl n (h ▸ hlt)
  rw [components_eq_image hs htaken hrepresentative, hinjective.ncard_image,
    Set.ncard_coe_finset, Nat.add_comm]
  exact Finset.card_sdiff_add_card_eq_card hsubset

/-- **The substitutions take the vertices in ascending order, and none twice.** The quotient reports
pairs with the lesser name first. Their first names ascend, and after a substitution its first name
has no equality any more. If the quotient exists, the first names are all members of the classes but
the greatest ones. So there is one step for each vertex, less one for each class. -/
theorem substitutions_in_order (hs : s.WellFormed) :
    ∃ o taken, s.quotient.result = .ok o ∧
      s.quotient.events.filterMap Event.equality? = taken ∧
      (∀ p ∈ taken, p.1 < p.2) ∧ (taken.map Prod.fst).Pairwise (· < ·) ∧
      (∀ done t, Course s done t →
        done <+: taken ∧ ∀ p ∈ done, p.1 ∉ t.equalities.vertexNames) ∧
      (o.isSome = true →
        (∀ n, n ∈ taken.map Prod.fst ↔ ∃ m, s.SameClass n m ∧ n < m) ∧
          taken.length + s.components.ncard = s.equalities.vertices.length) := by
  obtain ⟨o, hresult, _, hcollapsed⟩ := quotient_classes hs
  have h := substituteAll_eliminates hs hresult
  refine ⟨o, _, hresult, rfl, h.lt hs, h.ascending hs,
    fun done t hdone => ⟨hdone.isPrefix hs h, hdone.notMem_vertexNames hs⟩, fun ho => ?_⟩
  have hmem := h.mem_iff hs ho
  refine ⟨hmem, ?_⟩
  obtain ⟨t, ht⟩ := Option.isSome_iff_exists.mp ho
  have hcard := card_add_ncard_components hs
    (fun n => List.mem_toFinset.trans (hmem n))
    fun n => ((hcollapsed t ht).representative n).exists
  rw [List.toFinset_card_of_nodup (h.nodup hs), List.length_map, Graph.vertexNames,
    List.toFinset_card_of_nodup s.equalities.adjacency.nodup_names, Table.length_names] at hcard
  exact hcard

/-- In `joinedThree` the names `a` and `b` give way one after the other, and `c` is left. -/
theorem substitutions_in_order_joinedThree : joinedThree.WellFormed ∧
    joinedThree.quotient.events.filterMap Event.equality? = [("a", "c"), ("b", "c")] ∧
      joinedThree.components.ncard = 1 := by
  have hs : joinedThree.WellFormed :=
    ((((wellFormed_empty.declare _).declare _).declare _).declare _).addAll _
  obtain ⟨o, taken, hresult, htaken, _, _, _, hend⟩ := substitutions_in_order hs
  have hsome : joinedThree.quotient.result.toOption.any Option.isSome = true := by decide +kernel
  have hpairs : joinedThree.quotient.events.filterMap Event.equality? = [("a", "c"), ("b", "c")] :=
    by decide +kernel
  have hvertices : joinedThree.equalities.vertices.length = 3 := by decide +kernel
  rw [hresult] at hsome
  obtain ⟨_, hcount⟩ := hend hsome
  rw [← htaken, hpairs, hvertices] at hcount
  exact ⟨hs, hpairs, Nat.add_left_cancel hcount⟩

end System

end BoundedEquations
