import BoundedEquations.Proofs.CaseTree.Grafting
import BoundedEquations.Proofs.System.Alike

/-!
# `BoundedEquations.Proofs.CaseTree.Alike`: trees of alike systems

Two trees are alike when they have the same shape and alike systems in the same places. The
theorems:

* `Alike.solve`, `Alike.text`: alike trees are solved alike and have the same text.
* `Alike.update`: changes that go alike at alike systems go alike at alike trees.
* `alike_graft`: a tree stays alike when each leaf makes way for trees that are alike.
-/

set_option autoImplicit false

namespace BoundedEquations.CaseTree

mutual

/-- The trees have the same shape, with alike systems in their leaves. -/
def Alike : CaseTree → CaseTree → Prop
  | .leaf s, .leaf t => s.Alike t
  | .anyOf ts, .anyOf us => AlikeEach ts us
  | _, _ => False

/-- There are as many trees in both lists, and those in the same places are alike. -/
def AlikeEach : List CaseTree → List CaseTree → Prop
  | [], [] => True
  | t :: ts, u :: us => t.Alike u ∧ AlikeEach ts us
  | _, _ => False

end

/-- Lists of trees are alike when they are so place by place. -/
theorem alikeEach_iff_forall₂ {ts us : List CaseTree} :
    AlikeEach ts us ↔ List.Forall₂ Alike ts us := by
  induction ts generalizing us with
  | nil => cases us <;> simp [AlikeEach]
  | cons t ts ih => cases us <;> simp [AlikeEach, ih]

mutual

/-- Alike trees are solved alike, step by step. -/
theorem Alike.solve (config : Config) : {t u : CaseTree} → t.Alike u →
    Traced.Alike Eq (t.solve config) (u.solve config)
  | .leaf _, .leaf _, h => System.Alike.solve h config
  | .anyOf ts, .anyOf us, h => by
    rw [CaseTree.solve, CaseTree.solve, (alikeEach_iff_forall₂.mp h).length_eq]
    exact Traced.Alike.emit_bind rfl (AlikeEach.solveFirst config h)

/-- Alike lists of trees are solved alike, up to the first tree that has a solution. -/
theorem AlikeEach.solveFirst (config : Config) : {ts us : List CaseTree} → AlikeEach ts us →
    Traced.Alike Eq (CaseTree.solveFirst config ts) (CaseTree.solveFirst config us)
  | [], [], _ => Traced.alike_refl _
  | t :: ts, u :: us, h => by
    rw [CaseTree.solveFirst, CaseTree.solveFirst]
    refine (Alike.solve config h.1).bind ?_
    rintro b _ rfl
    split
    · exact Traced.alike_pure rfl
    · exact AlikeEach.solveFirst config h.2

end

mutual

/-- Alike trees have the same text. -/
theorem Alike.text : {t u : CaseTree} → t.Alike u → t.text = u.text
  | .leaf _, .leaf _, h => System.Alike.text h
  | .anyOf ts, .anyOf us, h => by rw [CaseTree.text, CaseTree.text, AlikeEach.textOf h]

/-- Alike lists of trees have the same text. -/
theorem AlikeEach.textOf : {ts us : List CaseTree} → AlikeEach ts us →
    CaseTree.textOf ts = CaseTree.textOf us
  | [], [], _ => rfl
  | t :: ts, u :: us, h => by
    rw [CaseTree.textOf, CaseTree.textOf, Alike.text h.1, AlikeEach.textOf h.2]

end

/-! ### Changes -/

section Update

variable {change change' : System → Outcome CaseTree}

mutual

/-- A change that goes alike at alike systems goes alike at alike trees, and if it is refused it is
refused at the same leaf. -/
theorem Alike.update
    (hchange : ∀ s s', s.Alike s' → Outcome.Alike Alike (change s) (change' s')) :
    {t u : CaseTree} → t.Alike u → Outcome.Alike Alike (t.update change) (u.update change')
  | .leaf _, .leaf _, h => hchange _ _ h
  | .anyOf _, .anyOf _, h => (AlikeEach.updateEach hchange h).map fun _ _ h' => h'

/-- The same for lists of trees, up to the first leaf that refuses the change. -/
theorem AlikeEach.updateEach
    (hchange : ∀ s s', s.Alike s' → Outcome.Alike Alike (change s) (change' s')) :
    {ts us : List CaseTree} → AlikeEach ts us →
      Outcome.Alike AlikeEach (CaseTree.updateEach change ts) (CaseTree.updateEach change' us)
  | [], [], _ => ⟨trivial, .none, rfl⟩
  | t :: ts, u :: us, h => by
    obtain ⟨hstate, hfault, hlines⟩ := Alike.update hchange h.1
    rw [CaseTree.updateEach, CaseTree.updateEach]
    generalize (t.update change).fault = fault, (u.update change').fault = fault' at hfault
    cases hfault with
    | some hsame => exact ⟨⟨hstate, h.2⟩, .some hsame, hlines⟩
    | none =>
      obtain ⟨hstates, hfaults, hlines'⟩ := AlikeEach.updateEach hchange h.2
      refine ⟨⟨hstate, hstates⟩, hfaults, ?_⟩
      rw [List.map_append, List.map_append, hlines, hlines']

end

end Update

mutual

/-- Each leaf of a tree may make way for either of two trees that are alike. -/
theorem alike_graft {f g : System → CaseTree} :
    (t : CaseTree) → (∀ s ∈ t.leaves, (f s).Alike (g s)) → (t.graft f).Alike (t.graft g)
  | .leaf s, h => h s List.mem_cons_self
  | .anyOf branches, h => alikeEach_graftEach branches h

/-- The same for the leaves of several trees. -/
theorem alikeEach_graftEach {f g : System → CaseTree} : (ts : List CaseTree) →
    (∀ s ∈ leavesOf ts, (f s).Alike (g s)) → AlikeEach (graftEach f ts) (graftEach g ts)
  | [], _ => trivial
  | t :: rest, h =>
    ⟨alike_graft t fun s hs => h s (List.mem_append_left _ hs),
      alikeEach_graftEach rest fun s hs => h s (List.mem_append_right _ hs)⟩

end

end BoundedEquations.CaseTree
