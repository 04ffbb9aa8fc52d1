import BoundedEquations.Proofs.System.Quotient
import Mathlib.Logic.Relation

/-!
# `BoundedEquations.Proofs.System.Classes`: the quotient by the classes of equal variables

The equalities of a system join names into classes, and `SameClass` is the reflexive and transitive
closure of being joined by one. A substitution only sees one edge and the variables next to it. It
takes one name out of its class and leaves all other names where they are, so the classes before are
the classes after, read through `Graph.rename`. The same holds for what is said about classes: which
name is the greatest, which values are shared, and which classes are to differ. `Collapsed` is the
quotient in these terms, and the substitutions reach it because each step hands it on. The theorems:

* `Substituted.sameClass_iff`: the classes before and after one substitution.
* `Substituted.isRepresentative_iff`, `Substituted.shared_iff`: their greatest names and the values
  that their members share.
* `Substituted.hasEdge_inequalities_iff`: the inequalities after one substitution.
* `Substituted.consistent_iff`, `Collapsed.of_substituted`: what one step hands on.
* `quotient_classes`: the quotient exists for consistent classes only, and it has one variable for
  each of them.
-/

set_option autoImplicit false

namespace BoundedEquations.System

open BoundedEquations.Graph (rename rename_self rename_of_ne rename_ne)
open Relation (ReflTransGen)

variable {s s' : System} {x y : Variable}

/-! ### Classes of names -/

/-- An equality joins the two names. -/
def Linked (s : System) (m n : String) : Prop :=
  ∃ x y, s.equalities.hasEdge x y = true ∧ x.name = m ∧ y.name = n

/-- A chain of equalities joins the two names. -/
def SameClass (s : System) : String → String → Prop := ReflTransGen s.Linked

/-- The greatest name of a class. -/
structure IsRepresentative (s : System) (n r : String) : Prop where
  sameClass : s.SameClass n r
  greatest : ∀ m, s.SameClass n m → m ≤ r

/-- The value belongs to the domains of all members of the class. -/
def Shared (s : System) (n : String) (v : Nat) : Prop :=
  ∀ z d, s.SameClass n z.name → s.domains.find? z = some d → v ∈ d

/-- The members of each class of at least two share a value, and no two of them are to differ. -/
def Consistent (s : System) : Prop :=
  ∀ a b : Variable, a.name ≠ b.name → s.SameClass a.name b.name →
    (∃ v, s.Shared a.name v) ∧ s.inequalities.hasEdge a b = false

/-- The two sides of an equality are in one class. -/
theorem sameClass_of_hasEdge (hxy : s.equalities.hasEdge x y = true) :
    s.SameClass x.name y.name :=
  ReflTransGen.single ⟨x, y, hxy, rfl, rfl⟩

/-- Being in one class goes both ways. -/
theorem SameClass.symm (hs : s.WellFormed) {m n : String} (h : s.SameClass m n) :
    s.SameClass n m := by
  have hsymm : Std.Symm s.Linked := by
    refine ⟨?_⟩
    rintro _ _ ⟨x, y, hxy, rfl, rfl⟩
    exact ⟨y, x, hs.equalities_simple.symmetric x y hxy, rfl, rfl⟩
  exact ReflTransGen.stdSymm.symm m n h

/-- A variable next to `x` is in its class. -/
theorem sameClass_of_near {z : Variable} (h : s.Near x z) : s.SameClass x.name z.name := by
  rcases h with hname | hedge
  · rw [hname]
    exact ReflTransGen.refl
  · exact sameClass_of_hasEdge hedge

/-- A name without equalities is alone in its class. -/
theorem sameClass_iff_eq {n : String} (h : ∀ a b, s.equalities.hasEdge a b = true → a.name ≠ n)
    (m : String) : s.SameClass n m ↔ m = n := by
  refine Relation.reflTransGen_iff_eq ?_
  rintro _ ⟨a, b, hab, rfl, _⟩
  exact h a b hab rfl

/-- The members of one class share the same values. -/
theorem Shared.congr (hs : s.WellFormed) {m n : String} (hmn : s.SameClass m n) {v : Nat} :
    s.Shared m v ↔ s.Shared n v :=
  ⟨fun h z d hz => h z d (hmn.trans hz), fun h z d hz => h z d ((hmn.symm hs).trans hz)⟩

/-- Where the classes are consistent, a variable with a value shares one with its class. -/
theorem Consistent.exists_shared (h : s.Consistent) {z : Variable} {d : Domain}
    (hd : s.domains.find? z = some d) (hne : ∃ v, v ∈ d) : ∃ v, s.Shared z.name v := by
  by_cases hother : ∃ w : Variable, z.name ≠ w.name ∧ s.SameClass z.name w.name
  · obtain ⟨w, hzw, hclass⟩ := hother
    exact (h z w hzw hclass).1
  · -- A variable that is alone shares what is in its own domain.
    obtain ⟨v, hv⟩ := hne
    refine ⟨v, fun w e hclass he => ?_⟩
    have hname : z.name = w.name :=
      Classical.byContradiction fun hzw => hother ⟨w, hzw, hclass⟩
    rw [← s.domains.find?_congr hname, hd] at he
    exact Option.some.inj he ▸ hv

/-- What rules a substitution out rules out that the classes are consistent. -/
theorem Contradictory.not_consistent (hs : s.WellFormed) (hxy : s.equalities.hasEdge x y = true)
    (h : s.Contradictory x y) : ¬s.Consistent := by
  intro hconsistent
  obtain ⟨⟨v, hv⟩, hseparate⟩ :=
    hconsistent x y (hs.equalities_simple.ne_of_hasEdge hxy) (sameClass_of_hasEdge hxy)
  rcases h with hdiffer | hcommon
  · exact nomatch hdiffer.symm.trans hseparate
  · exact hcommon ⟨v, fun z hnear d hd => hv z d (sameClass_of_near hnear) hd⟩

/-! ### Classes before and after a substitution -/

namespace Substituted

/-- A name and the one that stands for it after the substitution are in one class. -/
theorem sameClass_rename (hxy : s.equalities.hasEdge x y = true) (n : String) :
    s.SameClass n (rename x.name y.name n) := by
  by_cases hn : n = x.name
  · rw [hn, rename_self]
    exact sameClass_of_hasEdge hxy
  · rw [rename_of_ne hn]
    exact ReflTransGen.refl

/-- Classes do not grow. -/
theorem sameClass_of_sameClass (hs : s.WellFormed) (hxy : s.equalities.hasEdge x y = true)
    (h : Substituted s x y s') {m n : String} (hmn : s'.SameClass m n) : s.SameClass m n := by
  refine Relation.reflTransGen_closed ?_ m n hmn
  rintro _ _ ⟨c, d, hcd, rfl, rfl⟩
  obtain ⟨_, e, f, hef, hec, hfd⟩ :=
    (Graph.hasEdge_contract_iff_exists hs.equalities_simple h.equalities c d).mp hcd
  have hce := (sameClass_rename hxy e.name).symm hs
  have hdf := sameClass_rename hxy f.name
  rw [hec] at hce
  rw [hfd] at hdf
  exact (hce.trans (sameClass_of_hasEdge hef)).trans hdf

/-- Joined names are still in one class under the names that stand for them. -/
theorem sameClass_rename_of_sameClass (hs : s.WellFormed) (h : Substituted s x y s')
    {m n : String} (hmn : s.SameClass m n) :
    s'.SameClass (rename x.name y.name m) (rename x.name y.name n) := by
  refine ReflTransGen.lift' (rename x.name y.name) ?_ m n hmn
  rintro _ _ ⟨e, f, hef, rfl, rfl⟩
  show s'.SameClass _ _
  by_cases hloop : rename x.name y.name e.name = rename x.name y.name f.name
  · rw [hloop]
    exact ReflTransGen.refl
  · obtain ⟨c, d, hcd, hce, hdf⟩ :=
      Graph.exists_hasEdge_contract hs.equalities_simple h.equalities hef hloop
    rw [← hce, ← hdf]
    exact sameClass_of_hasEdge hcd

/-- After the substitution a class has the members that it had before, except for `x`. -/
theorem sameClass_iff (hs : s.WellFormed) (hxy : s.equalities.hasEdge x y = true)
    (h : Substituted s x y s') (m n : String) :
    s'.SameClass (rename x.name y.name m) n ↔ s.SameClass m n ∧ n ≠ x.name := by
  have hne := hs.equalities_simple.ne_of_hasEdge hxy
  constructor
  · intro hmn
    refine ⟨(sameClass_rename hxy m).trans (h.sameClass_of_sameClass hs hxy hmn), ?_⟩
    rintro rfl
    -- The name `x` has no edges any more, so nothing but itself is in its class.
    have halone := sameClass_iff_eq fun c d hcd => (h.vertex_of_hasEdge hs hxy hcd).1
    exact rename_ne hne m ((halone _).mp (hmn.symm (h.wellFormed hs hxy)))
  · rintro ⟨hmn, hn⟩
    have hrenamed := h.sameClass_rename_of_sameClass hs hmn
    rwa [rename_of_ne hn] at hrenamed

/-- The greatest name of a class stays the greatest, because `x` has a greater one beside it. -/
theorem isRepresentative_iff (hs : s.WellFormed) (hxy : s.equalities.hasEdge x y = true)
    (hlt : x.name < y.name) (h : Substituted s x y s') (n r : String) :
    s'.IsRepresentative (rename x.name y.name n) r ↔ s.IsRepresentative n r := by
  have hyx : y.name ≠ x.name := (hs.equalities_simple.ne_of_hasEdge hxy).symm
  constructor
  · rintro ⟨hclass, hgreatest⟩
    refine ⟨((h.sameClass_iff hs hxy n r).mp hclass).1, fun m hm => ?_⟩
    by_cases hmx : m = x.name
    · subst hmx
      have hy := hm.trans (sameClass_of_hasEdge hxy)
      have hyr := hgreatest y.name ((h.sameClass_iff hs hxy n y.name).mpr ⟨hy, hyx⟩)
      exact String.le_trans (String.not_lt.mp (String.lt_asymm hlt)) hyr
    · exact hgreatest m ((h.sameClass_iff hs hxy n m).mpr ⟨hm, hmx⟩)
  · rintro ⟨hclass, hgreatest⟩
    refine ⟨(h.sameClass_iff hs hxy n r).mpr ⟨hclass, ?_⟩, fun m hm => ?_⟩
    · rintro rfl
      exact String.not_lt.mpr (hgreatest y.name (hclass.trans (sameClass_of_hasEdge hxy))) hlt
    · exact hgreatest m ((h.sameClass_iff hs hxy n m).mp hm).1

/-! ### Domains and inequalities -/

/-- A variable keeps its domain, or it is narrowed to the values that are common to the variables
at `x`. -/
theorem find?_cases (h : Substituted s x y s') (z : Variable) :
    (¬s.Near x z ∧ s'.domains.find? z = s.domains.find? z) ∨
      s.Near x z ∧ ∃ common, s'.domains.find? z = some common ∧ (∃ v, v ∈ common) ∧
        ∀ v, v ∈ common ↔ ∀ w, s.Near x w → ∀ d, s.domains.find? w = some d → v ∈ d := by
  obtain ⟨common, _, hne, hmem, hfind⟩ := h.domains
  rw [hfind]
  by_cases hnear : s.Near x z
  · exact Or.inr ⟨hnear, common, if_pos hnear, hne, hmem⟩
  · exact Or.inl ⟨hnear, if_neg hnear⟩

/-- Domains only get narrower. -/
theorem exists_narrower (h : Substituted s x y s') {z : Variable} {d : Domain}
    (hd : s.domains.find? z = some d) :
    ∃ d', s'.domains.find? z = some d' ∧ ∀ v, v ∈ d' → v ∈ d := by
  rcases h.find?_cases z with ⟨_, hfind⟩ | ⟨hnear, common, hfind, _, hmem⟩
  · exact ⟨d, hfind.trans hd, fun _ hv => hv⟩
  · exact ⟨common, hfind, fun v hv => (hmem v).mp hv z hnear d hd⟩

/-- No value that a class shares is lost. -/
theorem shared_of_shared (hs : s.WellFormed) (hxy : s.equalities.hasEdge x y = true)
    (h : Substituted s x y s') {n : String} {v : Nat} (hv : s.Shared n v) : s'.Shared n v := by
  intro z d' hclass hd'
  have hz := h.sameClass_of_sameClass hs hxy hclass
  rcases h.find?_cases z with ⟨_, hfind⟩ | ⟨hnear, common, hfind, _, hmem⟩
  · exact hv z d' hz (hfind.symm.trans hd')
  · obtain rfl := Option.some.inj (hfind.symm.trans hd')
    -- All variables at `x` are in the class of `z`.
    refine (hmem v).mpr fun w hw e he => hv w e ?_ he
    exact (hz.trans ((sameClass_of_near hnear).symm hs)).trans (sameClass_of_near hw)

/-- A class shares the values that it shared before, under the name that stands for it. -/
theorem shared_iff (hs : s.WellFormed) (hxy : s.equalities.hasEdge x y = true)
    (h : Substituted s x y s') (n : String) (v : Nat) :
    s'.Shared (rename x.name y.name n) v ↔ s.Shared n v := by
  have hyx : y.name ≠ x.name := (hs.equalities_simple.ne_of_hasEdge hxy).symm
  constructor
  · intro hv z d hclass hd
    by_cases hzx : z.name = x.name
    · -- The domain of `x` holds the common values, and these are all that is left to `y`.
      have hy := (hzx ▸ hclass).trans (sameClass_of_hasEdge hxy)
      rcases h.find?_cases y with ⟨hnot, _⟩ | ⟨_, common, hfind, _, hmem⟩
      · exact absurd (Or.inr hxy) hnot
      · have hcommon := hv y common ((h.sameClass_iff hs hxy n y.name).mpr ⟨hy, hyx⟩) hfind
        exact (hmem v).mp hcommon z (Or.inl hzx) d hd
    · obtain ⟨d', hd', hnarrower⟩ := h.exists_narrower hd
      exact hnarrower v (hv z d' ((h.sameClass_iff hs hxy n z.name).mpr ⟨hclass, hzx⟩) hd')
  · intro hv
    exact h.shared_of_shared hs hxy ((Shared.congr hs (sameClass_rename hxy n)).mp hv)

/-- The inequalities are the old ones under the names that stand for their ends. None of them has
become a loop. -/
theorem hasEdge_inequalities_iff (hs : s.WellFormed) (h : Substituted s x y s') (c d : Variable) :
    s'.inequalities.hasEdge c d = true ↔ ∃ e f, s.inequalities.hasEdge e f = true ∧
      rename x.name y.name e.name = c.name ∧ rename x.name y.name f.name = d.name := by
  rw [Graph.hasEdge_contract_iff_exists hs.inequalities_simple h.inequalities]
  refine and_iff_right_of_imp ?_
  rintro ⟨e, f, hef, hec, hfd⟩ hcd
  rw [← hec, ← hfd] at hcd
  have hnot := Bool.eq_false_iff.mp h.separate
  -- The two ends would be `x` and `y`, and these are not to differ.
  rcases Graph.eq_of_rename_eq hcd (hs.inequalities_simple.ne_of_hasEdge hef) with
    ⟨hex, hfy⟩ | ⟨hey, hfx⟩
  · exact hnot (s.inequalities.hasEdge_congr hex hfy ▸ hef)
  · have hfe := hs.inequalities_simple.symmetric e f hef
    exact hnot (s.inequalities.hasEdge_congr hfx hey ▸ hfe)

/-- An old inequality is there under the names that stand for its ends. -/
theorem exists_hasEdge_inequalities (hs : s.WellFormed) (h : Substituted s x y s')
    {e f : Variable} (hef : s.inequalities.hasEdge e f = true) :
    ∃ c d, s'.inequalities.hasEdge c d = true ∧
      c.name = rename x.name y.name e.name ∧ d.name = rename x.name y.name f.name := by
  obtain ⟨c, hc⟩ := Variable.exists_name_eq (rename x.name y.name e.name)
  obtain ⟨d, hd⟩ := Variable.exists_name_eq (rename x.name y.name f.name)
  exact ⟨c, d, (h.hasEdge_inequalities_iff hs c d).mpr ⟨e, f, hef, hc.symm, hd.symm⟩, hc, hd⟩

/-! ### Consistency -/

/-- A substitution makes no contradiction. -/
theorem consistent (hs : s.WellFormed) (hxy : s.equalities.hasEdge x y = true)
    (h : Substituted s x y s') (hconsistent : s.Consistent) : s'.Consistent := by
  intro c d hcd hclass
  have hold := h.sameClass_of_sameClass hs hxy hclass
  obtain ⟨⟨v, hv⟩, _⟩ := hconsistent c d hcd hold
  refine ⟨⟨v, h.shared_of_shared hs hxy hv⟩, Bool.eq_false_iff.mpr fun hdiffer => ?_⟩
  -- The ends of the old inequality are in the classes of `c` and `d`, which is one class.
  obtain ⟨e, f, hef, hec, hfd⟩ := (h.hasEdge_inequalities_iff hs c d).mp hdiffer
  have hce := sameClass_rename hxy e.name
  have hdf := (sameClass_rename hxy f.name).symm hs
  rw [hec] at hce
  rw [hfd] at hdf
  have hne := hs.inequalities_simple.ne_of_hasEdge hef
  exact nomatch hef.symm.trans (hconsistent e f hne ((hce.trans hold).trans hdf)).2

/-- A class of two or more shares a value if the classes are consistent after the substitution. -/
theorem exists_shared (hs : s.WellFormed) (hxy : s.equalities.hasEdge x y = true)
    (h : Substituted s x y s') (hconsistent : s'.Consistent) {a b : Variable}
    (hab : a.name ≠ b.name) (hclass : s.SameClass a.name b.name) : ∃ v, s.Shared a.name v := by
  obtain ⟨v, hv⟩ : ∃ v, s'.Shared (rename x.name y.name a.name) v := by
    by_cases hsame : rename x.name y.name a.name = rename x.name y.name b.name
    · -- The two are `x` and `y`, and the values at `x` are in the domain of `y`.
      have hay : rename x.name y.name a.name = y.name := by
        rcases Graph.eq_of_rename_eq hsame hab with ⟨hax, _⟩ | ⟨_, hbx⟩
        · rw [hax, rename_self]
        · rw [hsame, hbx, rename_self]
      rw [hay]
      rcases h.find?_cases y with ⟨hnot, _⟩ | ⟨_, common, hfind, hne, _⟩
      · exact absurd (Or.inr hxy) hnot
      · exact hconsistent.exists_shared hfind hne
    · have hrenamed := h.sameClass_rename_of_sameClass hs hclass
      obtain ⟨c, hc⟩ := Variable.exists_name_eq (rename x.name y.name a.name)
      obtain ⟨d, hd⟩ := Variable.exists_name_eq (rename x.name y.name b.name)
      rw [← hc, ← hd] at hsame hrenamed
      rw [← hc]
      exact (hconsistent c d hsame hrenamed).1
  exact ⟨v, (h.shared_iff hs hxy a.name v).mp hv⟩

/-- A substitution neither makes a contradiction nor takes one away. -/
theorem consistent_iff (hs : s.WellFormed) (hxy : s.equalities.hasEdge x y = true)
    (h : Substituted s x y s') : s'.Consistent ↔ s.Consistent := by
  refine ⟨fun hconsistent a b hab hclass => ?_, h.consistent hs hxy⟩
  refine ⟨h.exists_shared hs hxy hconsistent hab hclass, Bool.eq_false_iff.mpr fun hdiffer => ?_⟩
  -- The ends of the inequality would be in one class after the substitution too.
  obtain ⟨c, d, hcd, hca, hdb⟩ := h.exists_hasEdge_inequalities hs hdiffer
  have hrenamed := h.sameClass_rename_of_sameClass hs hclass
  rw [← hca, ← hdb] at hrenamed
  have hne := (h.wellFormed hs hxy).inequalities_simple.ne_of_hasEdge hcd
  exact nomatch hcd.symm.trans (hconsistent c d hne hrenamed).2

end Substituted

/-! ### One variable for each class -/

/-- In the system `s'` the representatives stand for the classes of `s`. -/
structure Collapsed (s s' : System) : Prop where
  wellFormed : s'.WellFormed
  reduced : s'.equalities.isEmpty = true
  names_eq : s'.domains.names = s.domains.names
  /-- Every class has a representative, and only one. -/
  representative : ∀ n, ∃! r, s.IsRepresentative n r
  /-- The inequalities are between the representatives of the old ends. -/
  inequalities : ∀ c d, s'.inequalities.hasEdge c d = true ↔
    ∃ a b, s.inequalities.hasEdge a b = true ∧
      s.IsRepresentative a.name c.name ∧ s.IsRepresentative b.name d.name
  /-- A representative has the values that its class shares. -/
  shared : ∀ z d', s.IsRepresentative z.name z.name → s'.domains.find? z = some d' →
    ∀ v, v ∈ d' ↔ s.Shared z.name v
  /-- No variable gets a new value, and none loses a value that its class shares. -/
  between : ∀ z d, s.domains.find? z = some d → ∃ d', s'.domains.find? z = some d' ∧
    (∀ v, s.Shared z.name v → v ∈ d') ∧ ∀ v, v ∈ d' → v ∈ d
  /-- A variable without equalities keeps its domain. -/
  unchanged : ∀ z, (∀ w, s.equalities.hasEdge z w = false) →
    s'.domains.find? z = s.domains.find? z

/-- A system without equalities stands for itself. -/
theorem collapsed_self (hs : s.WellFormed) (hempty : s.equalities.isEmpty = true) :
    s.Collapsed s := by
  have hnone := (Graph.isEmpty_iff hs.equalities_simple).mp hempty
  have halone : ∀ n m, s.SameClass n m ↔ m = n := fun n =>
    sameClass_iff_eq fun a b hab => nomatch hab.symm.trans (hnone a b)
  have hrep : ∀ n r, s.IsRepresentative n r ↔ r = n := by
    refine fun n r => ⟨fun h => (halone n r).mp h.sameClass, ?_⟩
    rintro rfl
    exact ⟨ReflTransGen.refl, fun m hm => (halone r m).mp hm ▸ String.le_refl m⟩
  have hshared : ∀ z d, s.domains.find? z = some d → ∀ v, s.Shared z.name v ↔ v ∈ d := by
    refine fun z d hd v => ⟨fun h => h z d ReflTransGen.refl hd, fun hv w e hclass he => ?_⟩
    rw [s.domains.find?_congr ((halone z.name w.name).mp hclass), hd] at he
    exact Option.some.inj he ▸ hv
  refine ⟨hs, hempty, rfl, fun n => ⟨n, (hrep n n).mpr rfl, fun r hr => (hrep n r).mp hr⟩,
    fun c d => ?_, fun z d _ hd v => (hshared z d hd v).symm,
    fun z d hd => ⟨d, hd, fun v => (hshared z d hd v).mp, fun _ hv => hv⟩, fun _ _ => rfl⟩
  constructor
  · intro hcd
    exact ⟨c, d, hcd, (hrep _ _).mpr rfl, (hrep _ _).mpr rfl⟩
  · rintro ⟨a, b, hab, hac, hbd⟩
    rw [s.inequalities.hasEdge_congr ((hrep _ _).mp hac) ((hrep _ _).mp hbd)]
    exact hab

/-- What stands for the classes after a substitution stands for the classes before it. -/
theorem Collapsed.of_substituted {t : System} (hs : s.WellFormed)
    (hxy : s.equalities.hasEdge x y = true) (hlt : x.name < y.name) (h : Substituted s x y s')
    (h' : s'.Collapsed t) : s.Collapsed t where
  wellFormed := h'.wellFormed
  reduced := h'.reduced
  names_eq := h'.names_eq.trans (Table.names_eq_iff.mpr (h.contains_iff hs hxy))
  representative n := by
    have hunique := h'.representative (rename x.name y.name n)
    simpa only [h.isRepresentative_iff hs hxy hlt] using hunique
  inequalities c d := by
    rw [h'.inequalities]
    constructor
    · rintro ⟨a, b, hab, hac, hbd⟩
      obtain ⟨e, f, hef, hea, hfb⟩ := (h.hasEdge_inequalities_iff hs a b).mp hab
      rw [← hea, h.isRepresentative_iff hs hxy hlt] at hac
      rw [← hfb, h.isRepresentative_iff hs hxy hlt] at hbd
      exact ⟨e, f, hef, hac, hbd⟩
    · rintro ⟨e, f, hef, hec, hfd⟩
      obtain ⟨a, b, hab, hea, hfb⟩ := h.exists_hasEdge_inequalities hs hef
      rw [← h.isRepresentative_iff hs hxy hlt, ← hea] at hec
      rw [← h.isRepresentative_iff hs hxy hlt, ← hfb] at hfd
      exact ⟨a, b, hab, hec, hfd⟩
  shared z d' hz hd' v := by
    rw [← h.isRepresentative_iff hs hxy hlt] at hz
    -- A representative is not `x`, so it goes by the same name before and after.
    have hzx := ((h.sameClass_iff hs hxy z.name z.name).mp hz.sameClass).2
    rw [rename_of_ne hzx] at hz
    rw [h'.shared z d' hz hd' v, ← h.shared_iff hs hxy z.name v, rename_of_ne hzx]
  between z d hd := by
    obtain ⟨e, he, hnarrower⟩ := h.exists_narrower hd
    obtain ⟨d', hd', hshared, hnarrower'⟩ := h'.between z e he
    exact ⟨d', hd', fun v hv => hshared v (h.shared_of_shared hs hxy hv),
      fun v hv => hnarrower v (hnarrower' v hv)⟩
  unchanged z hz := by
    have hnot : ¬∃ w, s.equalities.hasEdge z w = true := fun ⟨w, hzw⟩ =>
      nomatch hzw.symm.trans (hz w)
    have hz' : ∀ w, s'.equalities.hasEdge z w = false := fun w =>
      Bool.eq_false_iff.mpr fun hzw => hnot (h.vertex_of_hasEdge hs hxy hzw).2
    rw [h'.unchanged z hz']
    rcases h.find?_cases z with ⟨_, hfind⟩ | ⟨hname | hxz, _⟩
    · exact hfind
    · exact absurd ⟨y, s.equalities.hasEdge_congr hname rfl ▸ hxy⟩ hnot
    · exact absurd ⟨x, hs.equalities_simple.symmetric x z hxz⟩ hnot

/-- All substitutions together collapse the classes, unless there is a contradiction. -/
theorem Reduces.collapsed {o : Option System} (h : s.Reduces o) (hs : s.WellFormed) :
    (o.isSome = true ↔ s.Consistent) ∧ ∀ s', o = some s' → s.Collapsed s' := by
  induction h with
  | @done s hempty =>
    have hnone := (Graph.isEmpty_iff hs.equalities_simple).mp hempty
    refine ⟨iff_of_true rfl fun a b hab hclass => ?_, fun s' hs' => ?_⟩
    · have halone := sameClass_iff_eq (n := a.name)
        fun c d hcd => nomatch hcd.symm.trans (hnone c d)
      exact absurd ((halone b.name).mp hclass).symm hab
    · exact Option.some.inj hs' ▸ collapsed_self hs hempty
  | stuck hxy h =>
    exact ⟨iff_of_false Bool.false_ne_true (h.not_consistent hs hxy), fun _ hnone => nomatch hnone⟩
  | step hxy hlt h _ ih =>
    obtain ⟨hsome, hcollapsed⟩ := ih (h.wellFormed hs hxy)
    exact ⟨hsome.trans (h.consistent_iff hs hxy),
      fun t ht => .of_substituted hs hxy hlt h (hcollapsed t ht)⟩

/-- **The quotient has one variable for each class of equal ones.** It always has an outcome. It
exists just when the members of each class of at least two share a value and no two of them are to
differ. Then no equality is left, and the inequalities are the old ones between the representatives,
which are the greatest names of their classes. A representative has the values that its class
shares. The domains of the other members lie between these values and what they were before, and
variables without equalities keep their domains. -/
theorem quotient_classes (hs : s.WellFormed) :
    ∃ o, s.quotient.result = .ok o ∧ (o.isSome = true ↔ s.Consistent) ∧
      ∀ s', o = some s' → s.Collapsed s' := by
  obtain ⟨o, hresult, hreduces⟩ := quotient_reduces hs
  exact ⟨o, hresult, hreduces.collapsed hs⟩

/-- The variable `c` joins `a` to `b`, and `d` is to differ from `a`. -/
def joinedThree : System :=
  let a : Variable := ⟨"a", 2, Nat.two_pos⟩
  let b : Variable := ⟨"b", 2, Nat.two_pos⟩
  let c : Variable := ⟨"c", 2, Nat.two_pos⟩
  let d : Variable := ⟨"d", 2, Nat.two_pos⟩
  (((((empty.declare a).declare b).declare c).declare d).addAll
    [.ofVars a c true, .ofVars c b true, .ofVars d a false, .ofValue b 3 false]).state

/-- The three variables become one, with the only value that they share. -/
theorem quotient_classes_joinedThree : joinedThree.WellFormed ∧
    ∃ s', joinedThree.quotient.result = .ok (some s') ∧ joinedThree.Collapsed s' := by
  have hs : joinedThree.WellFormed :=
    ((((wellFormed_empty.declare _).declare _).declare _).declare _).addAll _
  obtain ⟨o, hresult, _, hcollapsed⟩ := quotient_classes hs
  have hsome : joinedThree.quotient.result.toOption.any Option.isSome = true := by decide +kernel
  rw [hresult] at hsome
  obtain ⟨s', rfl⟩ := Option.isSome_iff_exists.mp (show o.isSome = true from hsome)
  exact ⟨hs, s', hresult, hcollapsed s' rfl⟩

end BoundedEquations.System
