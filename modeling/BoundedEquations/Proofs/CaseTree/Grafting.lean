import BoundedEquations.CaseTree

/-!
# `BoundedEquations.Proofs.CaseTree.Grafting`: changing all leaves, or the first one

`CaseTree.update` goes through the leaves from left to right and stops at the first one that
refuses. Its result is one of two trees. If no leaf refuses, each leaf is replaced by what the
change makes of it (`graft`). If the first leaf refuses, only that leaf is replaced (`graftFirst`).
The theorems:

* `update_of_forall`, `forall_of_update`: no leaf refuses just when the whole change is not refused,
  and then the tree is grafted.
* `update_of_head`: what happens when the first leaf refuses.
* `leaves_graft`, `leaves_graftFirst`: the leaves of the two results.
* `graft_graft`: grafting twice is grafting once.
* `Balanced.graft`, `Balanced.graftFirst`: a tree whose leaves all lie at one depth, with at least
  two branches above them, stays one.
-/

set_option autoImplicit false

namespace BoundedEquations.CaseTree

mutual

/-- Puts a tree in the place of each leaf. -/
def graft (f : System → CaseTree) : CaseTree → CaseTree
  | .leaf s => f s
  | .anyOf branches => .anyOf (graftEach f branches)

/-- Puts a tree in the place of each leaf of several trees. -/
def graftEach (f : System → CaseTree) : List CaseTree → List CaseTree
  | [] => []
  | t :: rest => t.graft f :: graftEach f rest

end

mutual

/-- Puts a tree in the place of the leftmost leaf. -/
def graftFirst (f : System → CaseTree) : CaseTree → CaseTree
  | .leaf s => f s
  | .anyOf branches => .anyOf (graftFirstOf f branches)

/-- Puts a tree in the place of the leftmost leaf of the first tree. -/
def graftFirstOf (f : System → CaseTree) : List CaseTree → List CaseTree
  | [] => []
  | t :: rest => t.graftFirst f :: rest

end

/-- The tree with all systems blanked out. -/
def shape (t : CaseTree) : CaseTree := t.graft fun _ => .leaf .empty

/-- All leaves lie at the same depth, and every inner node has at least two branches. -/
inductive Balanced : Nat → CaseTree → Prop
  | leaf (s : System) : Balanced 0 (.leaf s)
  | anyOf {depth : Nat} {branches : List CaseTree} (several : 2 ≤ branches.length)
      (all : ∀ t ∈ branches, Balanced depth t) : Balanced (depth + 1) (.anyOf branches)

/-! ### Changes that no leaf refuses -/

variable {change : System → Outcome CaseTree}

/-- Where the first tree takes the change, the others are changed as well. -/
theorem updateEach_cons_of_none {t : CaseTree} (h : (t.update change).fault = none)
    (rest : List CaseTree) :
    (updateEach change (t :: rest)).fault = (updateEach change rest).fault ∧
      (updateEach change (t :: rest)).state
        = (t.update change).state :: (updateEach change rest).state := by
  rw [updateEach, h]
  exact ⟨rfl, rfl⟩

/-- Where the first tree refuses the change, the others are left alone. -/
theorem updateEach_cons_of_some {t : CaseTree} {fault : Fault}
    (h : (t.update change).fault = some fault) (rest : List CaseTree) :
    (updateEach change (t :: rest)).fault = some fault ∧
      (updateEach change (t :: rest)).state = (t.update change).state :: rest := by
  rw [updateEach, h]
  exact ⟨rfl, rfl⟩

mutual

/-- A change that no leaf refuses is made to every leaf. -/
theorem update_of_forall : (t : CaseTree) → (∀ s ∈ t.leaves, (change s).fault = none) →
    (t.update change).fault = none ∧
      (t.update change).state = t.graft fun s => (change s).state
  | .leaf s, h => ⟨h s List.mem_cons_self, rfl⟩
  | .anyOf branches, h => by
    obtain ⟨hfault, hstate⟩ := updateEach_of_forall branches h
    refine ⟨hfault, ?_⟩
    show CaseTree.anyOf (updateEach change branches).state = _
    rw [hstate]
    rfl

/-- The same for the leaves of several trees. -/
theorem updateEach_of_forall : (ts : List CaseTree) →
    (∀ s ∈ leavesOf ts, (change s).fault = none) →
    (updateEach change ts).fault = none ∧
      (updateEach change ts).state = graftEach (fun s => (change s).state) ts
  | [], _ => ⟨rfl, rfl⟩
  | t :: rest, h => by
    obtain ⟨hfault, hstate⟩ :=
      update_of_forall t fun s hs => h s (List.mem_append_left _ hs)
    obtain ⟨hfaults, hstates⟩ :=
      updateEach_of_forall rest fun s hs => h s (List.mem_append_right _ hs)
    obtain ⟨hrest, hcons⟩ := updateEach_cons_of_none hfault rest
    exact ⟨hrest.trans hfaults, by rw [hcons, hstate, hstates, graftEach]⟩

end

mutual

/-- A change is refused when some leaf refuses it. -/
theorem forall_of_update : (t : CaseTree) → (t.update change).fault = none →
    ∀ s ∈ t.leaves, (change s).fault = none
  | .leaf s, h, s', hs' => by
    obtain rfl := List.mem_singleton.mp hs'
    exact h
  | .anyOf branches, h, s', hs' => forall_of_updateEach branches h s' hs'

/-- The same for the leaves of several trees. -/
theorem forall_of_updateEach : (ts : List CaseTree) → (updateEach change ts).fault = none →
    ∀ s ∈ leavesOf ts, (change s).fault = none
  | [], _, _, hs' => nomatch hs'
  | t :: rest, h, s', hs' => by
    cases hfault : (t.update change).fault with
    | some fault => exact nomatch h.symm.trans (updateEach_cons_of_some hfault rest).1
    | none =>
      rw [(updateEach_cons_of_none hfault rest).1] at h
      rcases List.mem_append.mp hs' with hs' | hs'
      · exact forall_of_update t hfault s' hs'
      · exact forall_of_updateEach rest h s' hs'

end

/-! ### Leaves and shapes -/

mutual

/-- The leaves after grafting are those of the trees that are put in, in their order. -/
theorem leaves_graft (f : System → CaseTree) :
    (t : CaseTree) → (t.graft f).leaves = t.leaves.flatMap fun s => (f s).leaves
  | .leaf s => by
    show (f s).leaves = [s].flatMap _
    rw [List.flatMap_singleton]
  | .anyOf branches => leavesOf_graftEach f branches

/-- The same for the leaves of several trees. -/
theorem leavesOf_graftEach (f : System → CaseTree) : (ts : List CaseTree) →
    leavesOf (graftEach f ts) = (leavesOf ts).flatMap fun s => (f s).leaves
  | [] => rfl
  | t :: rest => by
    rw [graftEach, leavesOf, leavesOf, List.flatMap_append, leaves_graft f t,
      leavesOf_graftEach f rest]

end

mutual

/-- Putting each leaf in its own place changes nothing. -/
theorem graft_leaf : (t : CaseTree) → t.graft .leaf = t
  | .leaf _ => rfl
  | .anyOf branches => by rw [graft, graftEach_leaf branches]

/-- The same for several trees. -/
theorem graftEach_leaf : (ts : List CaseTree) → graftEach .leaf ts = ts
  | [] => rfl
  | t :: rest => by rw [graftEach, graft_leaf t, graftEach_leaf rest]

end

mutual

/-- Grafting twice is grafting once, with trees that have been grafted before. -/
theorem graft_graft (f g : System → CaseTree) :
    (t : CaseTree) → (t.graft f).graft g = t.graft fun s => (f s).graft g
  | .leaf _ => rfl
  | .anyOf branches => congrArg CaseTree.anyOf (graftEach_graftEach f g branches)

/-- The same for several trees. -/
theorem graftEach_graftEach (f g : System → CaseTree) : (ts : List CaseTree) →
    graftEach g (graftEach f ts) = graftEach (fun s => (f s).graft g) ts
  | [] => rfl
  | t :: rest => by
    rw [graftEach, graftEach, graftEach, graft_graft f g t, graftEach_graftEach f g rest]

end

/-- Of a list of single systems each makes way for its own tree. -/
theorem graftEach_map_leaf {α : Type} (f : System → CaseTree) (g : α → System) (as : List α) :
    graftEach f (as.map fun a => .leaf (g a)) = as.map fun a => f (g a) := by
  induction as with
  | nil => rfl
  | cons a rest ih =>
    rw [List.map_cons, List.map_cons, graftEach, ih]
    rfl

mutual

/-- Putting the first leaf in its own place changes nothing. -/
theorem graftFirst_leaf : (t : CaseTree) → t.graftFirst .leaf = t
  | .leaf _ => rfl
  | .anyOf branches => by rw [graftFirst, graftFirstOf_leaf branches]

/-- The same for several trees. -/
theorem graftFirstOf_leaf : (ts : List CaseTree) → graftFirstOf .leaf ts = ts
  | [] => rfl
  | t :: rest => by rw [graftFirstOf, graftFirst_leaf t]

end

mutual

/-- Another system in the first leaf leaves the shape of the tree alone. -/
theorem shape_graftFirst (f : System → System) :
    (t : CaseTree) → (t.graftFirst fun s => .leaf (f s)).shape = t.shape
  | .leaf _ => rfl
  | .anyOf branches => congrArg CaseTree.anyOf (shapes_graftFirstOf f branches)

/-- The same for several trees. -/
theorem shapes_graftFirstOf (f : System → System) : (ts : List CaseTree) →
    graftEach (fun _ => .leaf .empty) (graftFirstOf (fun s => .leaf (f s)) ts)
      = graftEach (fun _ => .leaf .empty) ts
  | [] => rfl
  | t :: rest => by
    have hfirst := shape_graftFirst f t
    rw [shape, shape] at hfirst
    rw [graftFirstOf, graftEach, graftEach, hfirst]

end

/-- A balanced tree has a leaf. -/
theorem Balanced.leaves_ne_nil {depth : Nat} {t : CaseTree} (h : Balanced depth t) :
    t.leaves ≠ [] := by
  induction h with
  | leaf s => exact List.cons_ne_nil _ _
  | @anyOf depth branches several _ ih =>
    obtain ⟨b, rest, rfl⟩ := List.exists_cons_of_ne_nil (l := branches) fun hnil => by
      rw [hnil] at several
      exact absurd several (by decide)
    have hb := ih b List.mem_cons_self
    show b.leaves ++ leavesOf rest ≠ []
    exact List.append_ne_nil_of_left_ne_nil hb _

/-- An inner node of a balanced tree begins with a branch that has leaves. -/
theorem Balanced.exists_first {depth : Nat} {branches : List CaseTree}
    (several : 2 ≤ branches.length) (all : ∀ t ∈ branches, Balanced depth t) :
    ∃ b rest s others, branches = b :: rest ∧ b.leaves = s :: others := by
  obtain ⟨b, rest, rfl⟩ := List.exists_cons_of_ne_nil (l := branches) fun hnil => by
    rw [hnil] at several
    exact absurd several (by decide)
  obtain ⟨s, others, hs⟩ := List.exists_cons_of_ne_nil (all b List.mem_cons_self).leaves_ne_nil
  exact ⟨b, rest, s, others, rfl, hs⟩

/-- If the first leaf refuses, the change ends there, with what the first leaf has become. -/
theorem Balanced.update_of_head {depth : Nat} {t : CaseTree} (h : Balanced depth t) {s : System}
    {others : List System} {fault : Fault} (hleaves : t.leaves = s :: others)
    (hs : (change s).fault = some fault) :
    (t.update change).fault = some fault ∧
      (t.update change).state = t.graftFirst fun s => (change s).state := by
  induction h generalizing others with
  | leaf s' =>
    obtain ⟨rfl, _⟩ := List.cons.inj hleaves
    exact ⟨hs, rfl⟩
  | anyOf several all ih =>
    -- The first leaf of the tree is the first leaf of its first branch.
    obtain ⟨b, rest, s', others', rfl, hb⟩ := exists_first several all
    have hcons : b.leaves ++ leavesOf rest = s :: others := hleaves
    rw [hb] at hcons
    obtain ⟨rfl, _⟩ := List.cons.inj hcons
    obtain ⟨hfault, hstate⟩ := ih b List.mem_cons_self hb
    obtain ⟨hfaults, hstates⟩ := updateEach_cons_of_some hfault rest
    refine ⟨hfaults, ?_⟩
    show CaseTree.anyOf (updateEach change (b :: rest)).state = _
    rw [hstates, hstate]
    rfl

/-- A change of the first leaf leaves the others as they are. -/
theorem Balanced.leaves_graftFirst {depth : Nat} {t : CaseTree} (h : Balanced depth t)
    {s : System} {others : List System} (hleaves : t.leaves = s :: others)
    (f : System → System) :
    (t.graftFirst fun s => .leaf (f s)).leaves = f s :: others := by
  induction h generalizing others with
  | leaf s' =>
    obtain ⟨rfl, rfl⟩ := List.cons.inj hleaves
    rfl
  | anyOf several all ih =>
    obtain ⟨b, rest, s', others', rfl, hb⟩ := exists_first several all
    have hcons : b.leaves ++ leavesOf rest = s :: others := hleaves
    rw [hb] at hcons
    obtain ⟨rfl, rfl⟩ := List.cons.inj hcons
    show (b.graftFirst fun s => .leaf (f s)).leaves ++ leavesOf rest = _
    rw [ih b List.mem_cons_self hb]
    rfl

/-- Only what a change makes of the first leaf matters. -/
theorem Balanced.graftFirst_congr {depth : Nat} {t : CaseTree} (h : Balanced depth t)
    {s : System} {others : List System} (hleaves : t.leaves = s :: others)
    {f g : System → CaseTree} (hfg : f s = g s) : t.graftFirst f = t.graftFirst g := by
  induction h generalizing others with
  | leaf s' =>
    obtain ⟨rfl, _⟩ := List.cons.inj hleaves
    exact hfg
  | anyOf several all ih =>
    obtain ⟨b, rest, s', others', rfl, hb⟩ := exists_first several all
    have hcons : b.leaves ++ leavesOf rest = s :: others := hleaves
    rw [hb] at hcons
    obtain ⟨rfl, _⟩ := List.cons.inj hcons
    show CaseTree.anyOf (b.graftFirst f :: rest) = CaseTree.anyOf (b.graftFirst g :: rest)
    rw [ih b List.mem_cons_self hb]

/-- The trees after grafting come from those before it. -/
theorem mem_graftEach {f : System → CaseTree} {u : CaseTree} {ts : List CaseTree} :
    u ∈ graftEach f ts ↔ ∃ t ∈ ts, t.graft f = u := by
  induction ts with
  | nil => simp [graftEach]
  | cons t rest ih =>
    rw [graftEach, List.mem_cons, ih, eq_comm]
    simp only [List.mem_cons, or_and_right, exists_or, exists_eq_left]

/-- Grafting makes as many trees as there were. -/
theorem length_graftEach (f : System → CaseTree) (ts : List CaseTree) :
    (graftEach f ts).length = ts.length := by
  induction ts with
  | nil => rfl
  | cons t rest ih => rw [graftEach, List.length_cons, List.length_cons, ih]

/-- A leaf of several trees is a leaf of one of them. -/
theorem mem_leavesOf {s : System} {ts : List CaseTree} :
    s ∈ leavesOf ts ↔ ∃ t ∈ ts, s ∈ t.leaves := by
  induction ts with
  | nil => simp [leavesOf]
  | cons t rest ih =>
    rw [leavesOf, List.mem_append, ih]
    simp only [List.mem_cons, exists_eq_or_imp]

/-- Trees of one depth in the place of the leaves leave the tree balanced. -/
theorem Balanced.graft {depth extra : Nat} {t : CaseTree} {f : System → CaseTree}
    (h : Balanced depth t) (hf : ∀ s ∈ t.leaves, Balanced extra (f s)) :
    Balanced (depth + extra) (t.graft f) := by
  induction h with
  | leaf s =>
    rw [Nat.zero_add]
    exact hf s List.mem_cons_self
  | @anyOf depth branches several _ ih =>
    -- The number of branches stays the same at every inner node.
    rw [Nat.add_right_comm]
    refine .anyOf (by rw [length_graftEach]; exact several) fun u hu => ?_
    obtain ⟨t, ht, rfl⟩ := mem_graftEach.mp hu
    exact ih t ht fun s hs => hf s (mem_leavesOf.mpr ⟨t, ht, hs⟩)

/-- A change of the first leaf keeps the tree balanced. -/
theorem Balanced.graftFirst {depth : Nat} {t : CaseTree} (h : Balanced depth t)
    (f : System → System) : Balanced depth (t.graftFirst fun s => .leaf (f s)) := by
  induction h with
  | leaf s => exact .leaf (f s)
  | anyOf several all ih =>
    obtain ⟨b, rest, _, _, rfl, _⟩ := exists_first several all
    refine .anyOf several fun u hu => ?_
    rcases List.mem_cons.mp hu with rfl | hu
    · exact ih b List.mem_cons_self
    · exact all u (List.mem_cons_of_mem _ hu)

end BoundedEquations.CaseTree
