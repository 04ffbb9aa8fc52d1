import BoundedEquations.Proofs.Graph.Alike
import BoundedEquations.Proofs.System.Choice
import BoundedEquations.Proofs.Traced

/-!
# `BoundedEquations.Proofs.System.Alike`: alike systems are built and solved alike

Two systems are alike when they have the same domains and alike graphs. The widths of the variables
that the graphs store may differ, and the theorems say that nothing ever depends on these:

* `Alike.add`: the same equation keeps systems alike, or is refused by both.
* `Alike.substitute`, `Alike.separate`, `Alike.splitVariable?`: the steps of the search.
* `Alike.solve`: alike systems are solved with the same answer and the same events.
* `Alike.text`: they have the same text.
-/

set_option autoImplicit false

namespace BoundedEquations

/-- Comparison reads the names alone. -/
theorem Variable.beq_congr {x x' y y' : Variable} (hx : x.name = x'.name)
    (hy : y.name = y'.name) : (x == y) = (x' == y') := by
  rw [Bool.eq_iff_iff, beq_iff, beq_iff, hx, hy]

/-- The equations are the same but for the widths of the variables in them. -/
inductive Equation.Same : Equation → Equation → Prop
  | number {x y : Variable} (value : Nat) (isEquality : Bool) (hxy : x.name = y.name) :
      Same ⟨x, .number value, isEquality⟩ ⟨y, .number value, isEquality⟩
  | var {x y x' y' : Variable} (isEquality : Bool) (hx : x.name = x'.name)
      (hy : y.name = y'.name) : Same ⟨x, .var y, isEquality⟩ ⟨x', .var y', isEquality⟩

/-- The same edge keeps graphs alike, or is refused by both. -/
theorem Graph.Alike.insert {g h : Graph} {a b c d : Variable} (hgh : g.Alike h)
    (hac : a.name = c.name) (hbd : b.name = d.name) :
    Likewise Graph.Alike (g.insert a b) (h.insert c d) := by
  rw [Graph.insert, Graph.insert, Variable.beq_congr hac hbd]
  split
  · exact .error (.selfLoop hac hbd)
  · exact .ok ((hgh.attach hac hbd).attach hbd hac)

/-- The same contraction keeps graphs alike, and it has a result. -/
theorem Graph.Alike.contract_likewise {g h : Graph} {a b c d : Variable} (hgh : g.Alike h)
    (hac : a.name = c.name) (hbd : b.name = d.name) :
    Likewise Graph.Alike (g.contract a b) (h.contract c d) := by
  obtain ⟨g', h', hg, hh, halike⟩ := hgh.contract hac hbd
  rw [hg, hh]
  exact .ok halike

/-- The same value may be recorded under other variables of the same names, if these names are
there. -/
theorem Table.foldl_insert_congr {α : Type} {t : Table α} {xs ys : List Variable}
    (hxs : List.Forall₂ Variable.SameName xs ys) (h : ∀ x ∈ xs, t.contains x = true) (a : α) :
    xs.foldl (fun t x => t.insert x a) t = ys.foldl (fun t y => t.insert y a) t := by
  induction hxs generalizing t with
  | nil => rfl
  | @cons x y xs ys hxy _ ih =>
    rw [List.foldl_cons, List.foldl_cons, ← insert_congr hxy (h x List.mem_cons_self)]
    exact ih fun z hz => contains_insert.mpr (Or.inr (h z (List.mem_cons_of_mem _ hz)))

namespace System

/-- The systems have the same domains and alike graphs. -/
structure Alike (s t : System) : Prop where
  domains : s.domains = t.domains
  equalities : s.equalities.Alike t.equalities
  inequalities : s.inequalities.Alike t.inequalities

variable {s t : System} {x y x' y' : Variable}

/-! ### Building -/

/-- Look-ups go by name, and a name that is found is there. -/
theorem Alike.domainOf (h : s.Alike t) (hx : x.name = x'.name) :
    Likewise (fun d e => d = e ∧ s.domains.contains x = true) (s.domainOf x) (t.domainOf x') := by
  rw [System.domainOf, System.domainOf, ← h.domains, ← s.domains.find?_congr hx, hx]
  cases hfind : s.domains.find? x with
  | none => exact .error (.refl _)
  | some d => exact .ok ⟨rfl, Table.contains_iff_exists.mpr ⟨d, hfind⟩⟩

/-- The same domain for a variable that is there keeps systems alike. -/
theorem Alike.setDomain (h : s.Alike t) (hx : x.name = x'.name)
    (hmem : s.domains.contains x = true) (d : Domain) :
    (s.setDomain x d).Alike (t.setDomain x' d) where
  domains := by
    show s.domains.insert x d = t.domains.insert x' d
    rw [← h.domains, Table.insert_congr hx hmem]
  equalities := h.equalities
  inequalities := h.inequalities

/-- A declaration keeps systems alike. -/
theorem Alike.declare (h : s.Alike t) (x : Variable) : (s.declare x).Alike (t.declare x) where
  domains := congrArg (fun ds : Table Domain => ds.insert x (.full x.width)) h.domains
  equalities := h.equalities
  inequalities := h.inequalities

/-- The same equation keeps systems alike, or is refused by both. -/
theorem Alike.add (h : s.Alike t) {e f : Equation} (hef : e.Same f) :
    Likewise System.Alike (s.add e) (t.add f) := by
  cases hef with
  | number value isEquality hx =>
    refine (h.domainOf hx).bind ?_
    rintro d _ ⟨rfl, hmem⟩
    exact .ok (h.setDomain hx hmem _)
  | var isEquality hx hy =>
    show Likewise System.Alike (s.addVars _ _ _) (t.addVars _ _ _)
    rw [addVars, addVars, Variable.beq_congr hx hy]
    split
    · exact .error (.selfEquation hx hy)
    · refine (h.domainOf hx).bind fun _ _ _ => (h.domainOf hy).bind fun _ _ _ => ?_
      cases isEquality with
      | true =>
        exact (h.equalities.insert hx hy).bind fun _ _ hg =>
          .ok ⟨h.domains, hg, h.inequalities⟩
      | false =>
        exact (h.inequalities.insert hx hy).bind fun _ _ hg =>
          .ok ⟨h.domains, h.equalities, hg⟩

/-- Lists of the same equations keep systems alike, up to the first equation that is refused. -/
theorem Alike.addAll (h : s.Alike t) {es fs : List Equation}
    (hes : List.Forall₂ Equation.Same es fs) :
    Outcome.Alike System.Alike (s.addAll es) (t.addAll fs) := by
  induction hes generalizing s t with
  | nil => exact ⟨h, .none, rfl⟩
  | @cons e f es fs hef _ ih =>
    have hadd := h.add hef
    rw [System.addAll, System.addAll]
    generalize s.add e = added, t.add f = added' at hadd
    cases hadd with
    | ok h' => exact ih h'
    | error hfault => exact ⟨h, .some hfault, rfl⟩

/-- The edges are written by name. -/
theorem Alike.text (h : s.Alike t) : s.text = t.text := by
  have hlines : ∀ {g k : Graph} (sign : String), g.Alike k →
      g.edges.map (fun e => e.1.name ++ sign ++ e.2.name ++ "\n")
        = k.edges.map (fun e => e.1.name ++ sign ++ e.2.name ++ "\n") := by
    intro g k sign hgk
    rw [← List.forall₂_eq_eq_eq, List.forall₂_map_left_iff, List.forall₂_map_right_iff]
    refine hgk.edges.imp fun e f hef => ?_
    rw [hef.1, hef.2]
  rw [System.text, System.text]
  dsimp only
  rw [hlines _ h.equalities, hlines _ h.inequalities]

/-! ### Substitution -/

/-- Of alike systems both have an empty domain or neither has. -/
theorem Alike.hasEmptyDomain (h : s.Alike t) : s.hasEmptyDomain = t.hasEmptyDomain := by
  rw [System.hasEmptyDomain, System.hasEmptyDomain, h.domains]

/-- A list of look-ups succeeds only if every name is there. -/
theorem contains_of_commonDomain {others : List Variable} {d common : Domain}
    (h : others.foldlM (fun common z => return common ∩ (← s.domainOf z)) d = .ok common) :
    ∀ z ∈ others, s.domains.contains z = true := by
  induction others generalizing d with
  | nil => exact fun z hz => nomatch hz
  | cons z rest ih =>
    rw [List.foldlM_cons] at h
    cases hz : s.domainOf z with
    | error fault =>
      rw [hz] at h
      exact nomatch h
    | ok dz =>
      rw [hz] at h
      intro w hw
      rcases List.mem_cons.mp hw with rfl | hw
      · exact Table.contains_iff_exists.mpr ⟨dz, domainOf_eq_ok_iff.mp hz⟩
      · exact ih h w hw

/-- Alike systems find the same common values, and all names that are looked up are there. -/
theorem Alike.commonDomain (h : s.Alike t) (hx : x.name = x'.name) {others others' : List Variable}
    (hothers : List.Forall₂ Variable.SameName others others') :
    Likewise (fun c d => c = d ∧ ∀ z ∈ x :: others, s.domains.contains z = true)
      (s.commonDomain x others) (t.commonDomain x' others') := by
  refine (h.domainOf hx).bind ?_
  rintro d _ ⟨rfl, hmem⟩
  have hfold : Likewise Eq (others.foldlM (fun common z => return common ∩ (← s.domainOf z)) d)
      (others'.foldlM (fun common z => return common ∩ (← t.domainOf z)) d) := by
    refine Likewise.foldlM (fun b b' z z' hb hz => ?_) hothers rfl
    refine (h.domainOf hz).bind fun dz dz' hdz => ?_
    rw [hb, hdz.1]
    exact .ok rfl
  exact hfold.and_of_ok fun c hc => List.forall_mem_cons.mpr ⟨hmem, contains_of_commonDomain hc⟩

/-- The same substitution keeps systems alike, or is contradictory in both. -/
theorem Alike.substitute (h : s.Alike t) (hx : x.name = x'.name) (hy : y.name = y'.name) :
    Traced.Alike (Option.Rel System.Alike) (s.substitute x y) (t.substitute x' y') := by
  refine Traced.Alike.emit_bind (by rw [hx, hy]) ?_
  rw [Variable.beq_congr hx hy, h.inequalities.hasEdge hx hy, hx]
  split
  · exact Traced.alike_fail (.trivialEquality hx hy)
  · split
    · exact Traced.Alike.emit_bind (by rw [hy]) (Traced.alike_pure .none)
    · have hothers := h.equalities.neighbours hx
      refine (Traced.alike_ofExcept (h.commonDomain hx hothers)).bind ?_
      rintro common _ ⟨rfl, hmem⟩
      split
      · exact Traced.Alike.emit_bind rfl (Traced.alike_pure .none)
      · refine (Traced.alike_ofExcept (h.equalities.contract_likewise hx hy)).bind fun g g' hg => ?_
        refine (Traced.alike_ofExcept (h.inequalities.contract_likewise hx hy)).bind
          fun k k' hk => Traced.alike_pure (.some ⟨?_, hg, hk⟩)
        -- All variables that are narrowed have been looked up before.
        show (x :: _).foldl _ s.domains = (x' :: _).foldl _ t.domains
        rw [← h.domains]
        exact Table.foldl_insert_congr (.cons hx hothers) hmem common

/-- Of alike systems both have equalities left or neither has. -/
theorem Alike.reduced (h : s.Alike t) : Likewise System.Alike s.reduced t.reduced := by
  rw [System.reduced, System.reduced, h.equalities.isEmpty, h.text]
  split
  · exact .ok h
  · exact .error (.refl _)

/-- Alike systems go through the same substitutions. -/
theorem Alike.substituteAll (h : s.Alike t) (count : Nat) :
    Traced.Alike (Option.Rel System.Alike) (substituteAll count s) (substituteAll count t) := by
  have hreduced := Traced.alike_ofExcept h.reduced
  induction count generalizing s t with
  | zero => exact hreduced.bind fun _ _ h' => Traced.alike_pure (.some h')
  | succ count ih =>
    have hfirst := h.equalities.firstEdge?
    rw [System.substituteAll, System.substituteAll]
    generalize s.equalities.firstEdge? = e, t.equalities.firstEdge? = e' at hfirst
    cases hfirst with
    | none => exact hreduced.bind fun _ _ h' => Traced.alike_pure (.some h')
    | some hedge =>
      refine (h.substitute hedge.1 hedge.2).bind fun step step' hstep => ?_
      cases hstep with
      | none => exact Traced.alike_pure .none
      | some h' => exact ih h' (Traced.alike_ofExcept h'.reduced)

/-- The quotients of alike systems are alike. -/
theorem Alike.quotient (h : s.Alike t) :
    Traced.Alike (Option.Rel System.Alike) s.quotient t.quotient := by
  rw [System.quotient, System.quotient, h.equalities.vertices.length_eq]
  exact h.substituteAll _

/-! ### Propagation -/

/-- Dropping the same inequality keeps systems alike. -/
theorem Alike.dropInequality (h : s.Alike t) (hx : x.name = x'.name) (hy : y.name = y'.name) :
    (s.dropInequality x y).Alike (t.dropInequality x' y') :=
  ⟨h.domains, h.equalities, h.inequalities.erase hx hy⟩

/-- Taking a value out of the same variable keeps systems alike, or empties it in both. -/
theorem Alike.exclude (h : s.Alike t) (hx : x.name = x'.name) (hy : y.name = y'.name)
    {z z' : Variable} (hz : z.name = z'.name) (fixed : Domain) :
    Traced.Alike (Option.Rel System.Alike) (s.exclude x y z fixed) (t.exclude x' y' z' fixed) := by
  refine (Traced.alike_ofExcept (h.domainOf hz)).bind ?_
  rintro d _ ⟨rfl, hmem⟩
  dsimp only
  split
  · exact Traced.Alike.emit_bind (by rw [hz]) (Traced.alike_pure .none)
  · exact Traced.alike_pure (.some ((h.setDomain hz hmem _).dropInequality hx hy))

/-- Alike systems deal with the same inequality in the same way. -/
theorem Alike.separate (h : s.Alike t) (hx : x.name = x'.name) (hy : y.name = y'.name) :
    Traced.Alike (Option.Rel System.Alike) (s.separate x y) (t.separate x' y') := by
  refine Traced.Alike.emit_bind (by rw [hx, hy]) ?_
  rw [Variable.beq_congr hx hy, hx]
  split
  · exact Traced.alike_fail (.trivialInequality hx hy)
  · refine (Traced.alike_ofExcept (h.domainOf hx)).bind ?_
    rintro dx _ ⟨rfl, _⟩
    refine (Traced.alike_ofExcept (h.domainOf hy)).bind ?_
    rintro dy _ ⟨rfl, _⟩
    split
    · exact Traced.alike_pure (.some (h.dropInequality hx hy))
    · split
      · exact Traced.Alike.emit_bind (by rw [hy]) (Traced.alike_pure .none)
      · exact h.exclude hx hy hy dx
      · exact h.exclude hx hy hx dy
      · exact Traced.alike_pure (.some h)

/-- Alike systems deal with the same inequalities in the same way. -/
theorem Alike.separateAll (h : s.Alike t) {edges edges' : List (Variable × Variable)}
    (hedges : List.Forall₂ (fun e f => e.1.name = f.1.name ∧ e.2.name = f.2.name) edges edges') :
    Traced.Alike (Option.Rel System.Alike) (s.separateAll edges) (t.separateAll edges') := by
  induction hedges generalizing s t with
  | nil => exact Traced.alike_pure (.some h)
  | cons hedge _ ih =>
    refine (h.separate hedge.1 hedge.2).bind fun step step' hstep => ?_
    cases hstep with
    | none => exact Traced.alike_pure .none
    | some h' => exact ih h'

/-- Alike systems are alike after a pass, or both come to a conflict. -/
theorem Alike.propagate (h : s.Alike t) :
    Traced.Alike (Option.Rel System.Alike) s.propagate t.propagate :=
  h.separateAll h.inequalities.edges

/-! ### Search -/

/-- Two variables of one name, each with the same number. -/
def SizedAlike (p q : Variable × Nat) : Prop := p.1.name = q.1.name ∧ p.2 = q.2

/-- The first least entry is found at the same place of two lists. -/
theorem firstLeast?_rel {ps qs : List (Variable × Nat)} (h : List.Forall₂ SizedAlike ps qs) :
    Option.Rel SizedAlike (firstLeast? ps) (firstLeast? qs) := by
  induction h with
  | nil => exact .none
  | @cons p q ps qs hpq _ ih =>
    obtain ⟨x, m⟩ := p
    obtain ⟨x', n⟩ := q
    obtain ⟨hx, rfl⟩ : x.name = x'.name ∧ m = n := hpq
    rw [firstLeast?, firstLeast?]
    generalize firstLeast? ps = least, firstLeast? qs = least' at ih
    cases ih with
    | none => exact .some ⟨hx, rfl⟩
    | @some l l' hleast =>
      obtain ⟨y, k⟩ := l
      obtain ⟨y', j⟩ := l'
      obtain ⟨hy, rfl⟩ : y.name = y'.name ∧ k = j := hleast
      dsimp only
      split
      · exact .some ⟨hy, rfl⟩
      · exact .some ⟨hx, rfl⟩

/-- Alike systems have constrained variables of the same names and sizes. -/
theorem Alike.constrained (h : s.Alike t) :
    Likewise (List.Forall₂ SizedAlike) s.constrained t.constrained := by
  refine Likewise.mapM (fun x x' hx => ?_) h.inequalities.vertices
  refine (h.domainOf hx).bind ?_
  rintro d _ ⟨rfl, _⟩
  exact .ok ⟨hx, rfl⟩

/-- Alike systems choose variables of the same name. -/
theorem Alike.splitVariable? (h : s.Alike t) (config : Config) :
    Likewise (Option.Rel Variable.SameName) (s.splitVariable? config)
      (t.splitVariable? config) := by
  have hconstrained := h.constrained
  generalize hs : s.constrained = sized, ht : t.constrained = sized' at hconstrained
  cases hconstrained with
  | error hfault =>
    rw [System.splitVariable?, System.splitVariable?, hs, ht]
    exact .error hfault
  | @ok sized sized' hsized =>
    have hall := firstLeast?_rel hsized
    have htight : List.Forall₂ SizedAlike
        (sized.filter fun p => p.2 ≤ s.inequalities.degree p.1)
        (sized'.filter fun q => q.2 ≤ t.inequalities.degree q.1) := by
      refine List.rel_filter (fun p q hpq => ?_) hsized
      show decide (p.2 ≤ s.inequalities.degree p.1) = true ↔
        decide (q.2 ≤ t.inequalities.degree q.1) = true
      rw [h.inequalities.degree hpq.1, hpq.2]
    have hleast := firstLeast?_rel htight
    rw [splitVariable?_eq hs, splitVariable?_eq ht]
    refine .ok ?_
    generalize firstLeast? (sized.filter _) = x, firstLeast? (sized'.filter _) = x' at hleast
    cases hleast with
    | some hx => exact .some hx.1
    | none =>
      -- No variable is tight, so the configuration decides whether there is a split.
      show Option.Rel _ (if config.pigeonhole then none else _)
        (if config.pigeonhole then none else _)
      split
      · exact .none
      · generalize firstLeast? sized = x, firstLeast? sized' = x' at hall
        cases hall with
        | none => exact .none
        | some hx => exact .some hx.1

/-- The question is answered alike, or alike variables are to be split on. -/
inductive Progress.Alike : Progress → Progress → Prop
  | decided (answer : Bool) : Alike (.decided answer) (.decided answer)
  | split {s t : System} {x x' : Variable} (d : Domain) (h : s.Alike t) (hx : x.name = x'.name)
      (hmem : s.domains.contains x = true) : Alike (.split s x d) (.split t x' d)

/-- A search step does the same at alike systems. -/
theorem Alike.advance (h : s.Alike t) (config : Config) :
    Traced.Alike Progress.Alike (s.advance config) (t.advance config) := by
  rw [System.advance, System.advance, h.inequalities.isEmpty, h.hasEmptyDomain]
  split
  · exact Traced.alike_pure (.decided true)
  · split
    · exact Traced.alike_pure (.decided false)
    · refine h.propagate.bind fun step step' hstep => ?_
      cases hstep with
      | none => exact Traced.alike_pure (.decided false)
      | some h' =>
        refine (Traced.alike_ofExcept (h'.splitVariable? config)).bind fun x? x?' hx? => ?_
        cases hx? with
        | none => exact Traced.Alike.emit_bind rfl (Traced.alike_pure (.decided true))
        | some hx =>
          refine (Traced.alike_ofExcept (h'.domainOf hx)).bind ?_
          rintro d _ ⟨rfl, hmem⟩
          exact Traced.Alike.emit_bind (by rw [show _ = _ from hx])
            (Traced.alike_pure (.split d h' hx hmem))

/-- The values of a domain are tried in the same order, with tests that go alike. -/
theorem anyTraced_alike {test test' : Nat → Traced Bool}
    (h : ∀ v, Traced.Alike Eq (test v) (test' v)) (c : Domain.Cursor) :
    Traced.Alike Eq (c.anyTraced test) (c.anyTraced test') := by
  induction hn : c.remaining using Nat.strong_induction_on generalizing c with
  | _ n ih =>
    rw [Domain.Cursor.anyTraced, Domain.Cursor.anyTraced]
    split
    · exact Traced.alike_fail (.refl _)
    · exact Traced.alike_pure rfl
    · rename_i v c' hnext
      refine (h v).bind ?_
      rintro b _ rfl
      split
      · exact Traced.alike_pure rfl
      · exact ih _ (hn ▸ Domain.Cursor.remaining_next hnext) c' rfl

/-- The search takes the same splits and tries the same values. -/
theorem Alike.search (h : s.Alike t) (config : Config) (depth : Nat) :
    Traced.Alike Eq (search config depth s) (search config depth t) := by
  induction depth generalizing s t with
  | zero =>
    refine (h.advance config).bind fun progress progress' hprogress => ?_
    cases hprogress with
    | decided answer => exact Traced.alike_pure rfl
    | split _ _ _ _ => exact Traced.alike_fail (.refl _)
  | succ depth ih =>
    refine (h.advance config).bind fun progress progress' hprogress => ?_
    cases hprogress with
    | decided answer => exact Traced.alike_pure rfl
    | split d h' hx hmem =>
      refine anyTraced_alike (fun v => ?_) d.cursor
      exact Traced.Alike.emit_bind (by rw [hx]) (ih (h'.setDomain hx hmem _))

/-- **Alike systems are solved alike**, step by step. -/
theorem Alike.solve (h : s.Alike t) (config : Config) :
    Traced.Alike Eq (s.solve config) (t.solve config) := by
  have hevent : Event.solving s.domains.size s.equalities.edges.length
      s.inequalities.edges.length 0 = .solving t.domains.size t.equalities.edges.length
      t.inequalities.edges.length 0 := by
    rw [h.domains, h.equalities.edges.length_eq, h.inequalities.edges.length_eq]
  refine Traced.Alike.emit_bind hevent ?_
  rw [h.hasEmptyDomain]
  split
  · exact Traced.alike_refl _
  · refine h.quotient.bind fun step step' hstep => ?_
    cases hstep with
    | none => exact Traced.alike_pure rfl
    | some h' =>
      show Traced.Alike Eq (System.search config _ _) (System.search config _ _)
      rw [h'.inequalities.vertices.length_eq]
      exact h'.search config _

end System

end BoundedEquations
