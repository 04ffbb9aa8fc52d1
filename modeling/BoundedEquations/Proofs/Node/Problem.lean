import BoundedEquations.Node
import BoundedEquations.Proofs.Problem.Observation

/-!
# `BoundedEquations.Proofs.Node.Problem`: a node and the problem that it stands for

Nodes are what is stored and changed, and a `Problem` is the shorter form in which calls are
reasoned about. Here the two are shown to agree. Calls do the same to both, whatever the node looks
like. The queries give the same answers if the node is `Tidy`: nodes with branches hold nothing of
their own, and all nodes have one configuration. Every node that calls can lead to is tidy. The
theorems:

* `change_tree`: a call at a node without branches.
* `update_tree`: a change of all of these goes the same way in the tree.
* `apply_problem`, `run_problem`: calls lead to the same problems, with the same faults and events.
* `tidy_run`: the nodes that calls lead to are tidy.
* `Tidy.branches_problem`: the branches of a tidy node stand for the alternatives.
* `Tidy.view_problem`, `view_run`: a tidy node gives the same answers as its problem, and so the
  same calls lead to the same answers.
-/

set_option autoImplicit false

namespace BoundedEquations.Node

open CaseTree

variable {n : Node} {config : Config}

/-! ### The tree of a node -/

/-- A node without branches stands for its own system. -/
theorem tree_of_nil (h : n.branches = []) : n.tree = .leaf n.own := by
  obtain ⟨config, own, branches⟩ := n
  obtain rfl : branches = [] := h
  rfl

/-- The trees of several nodes are taken one by one. -/
theorem treesOf_eq_map (ns : List Node) : treesOf ns = ns.map tree := by
  induction ns with
  | nil => rfl
  | cons n rest ih => rw [treesOf, ih, List.map_cons]

/-- Two branches are more than none. -/
theorem ne_nil_of_two_le {ns : List Node} (h : 2 ≤ ns.length) : ns ≠ [] :=
  List.ne_nil_of_length_pos (Nat.zero_lt_of_lt h)

/-- A node with branches stands for the alternatives between them. -/
theorem tree_of_ne_nil (h : n.branches ≠ []) : n.tree = .anyOf (n.branches.map tree) := by
  obtain ⟨config, own, branches⟩ := n
  rw [tree, if_neg (by rwa [List.isEmpty_iff]), treesOf_eq_map]

/-! ### One node -/

/-- The branches of a choice are made as the systems in them are. -/
theorem mapM_addOwn (n : Node) (es : List Equation) :
    es.mapM n.addOwn = (es.mapM n.own.add).map (List.map fun own => { n with own }) := by
  induction es with
  | nil => rfl
  | cons e rest ih =>
    rw [List.mapM_cons, List.mapM_cons, ih, addOwn]
    cases n.own.add e with
    | error fault => rfl
    | ok own =>
      cases rest.mapM n.own.add with
      | error fault => rfl
      | ok owns => rfl

/-- A list that is taken member by member, with none refused, gives one result for each. -/
theorem length_of_mapM_eq_ok {α β : Type} {f : α → Except Fault β} {as : List α} {bs : List β}
    (h : as.mapM f = .ok bs) : bs.length = as.length := by
  induction as generalizing bs with
  | nil =>
    obtain rfl := Except.ok.inj h
    rfl
  | cons a rest ih =>
    rw [List.mapM_cons] at h
    cases ha : f a with
    | error fault =>
      rw [ha] at h
      exact nomatch h
    | ok b =>
      cases hrest : rest.mapM f with
      | error fault =>
        rw [ha, hrest] at h
        exact nomatch h
      | ok bs' =>
        rw [ha, hrest] at h
        obtain rfl := Except.ok.inj h
        rw [List.length_cons, List.length_cons, ih hrest]

/-- A choice makes several branches if none of its members is refused. -/
theorem two_le_length_of_isChoice {set : EquationSet} (hchoice : set.IsChoice) {n : Node}
    {branches : List Node} (h : set.equations.mapM n.addOwn = .ok branches) :
    2 ≤ branches.length := by
  have hlength : branches.length = set.size := length_of_mapM_eq_ok h
  rw [hlength]
  exact hchoice.2

/-- A call does to a node without branches what it does to its system. -/
theorem change_tree (h : n.branches = []) (call : Call) :
    (n.change call).map tree = call.change n.own := by
  obtain ⟨config, own, branches⟩ := n
  obtain rfl : branches = [] := h
  cases call with
  | declare x => rfl
  | equation e =>
    show (Outcome.ofExcept _ (addOwn ⟨config, own, []⟩ e)).map tree =
      (Outcome.ofExcept own (own.add e)).map .leaf
    rw [addOwn]
    cases own.add e with
    | ok own' => rfl
    | error fault => rfl
  | equationSet set =>
    rw [change, Call.change]
    by_cases hchoice : set.IsChoice
    · have hmembers := mapM_addOwn ⟨config, own, []⟩ set.equations
      rw [if_pos hchoice, if_pos hchoice, branch, CaseTree.branch]
      cases hmap : set.equations.mapM own.add with
      | error fault =>
        rw [hmembers, hmap]
        rfl
      | ok owns =>
        rw [hmap] at hmembers
        -- A choice has members, so there are branches and the tree is not a leaf.
        have hsome := ne_nil_of_two_le (two_le_length_of_isChoice hchoice hmembers)
        rw [hmembers]
        show Outcome.mk (tree ⟨config, own.clear, owns.map _⟩) none [.branching set] = _
        rw [tree_of_ne_nil hsome, List.map_map]
        rfl
    · rw [if_neg hchoice, if_neg hchoice]
      rfl

/-! ### All nodes without branches -/

section Update

variable {change : Node → Outcome Node}

/-- A change makes no branches and takes none away where there are some. -/
theorem length_updateEach (ns : List Node) :
    (updateEach change ns).state.length = ns.length := by
  induction ns with
  | nil => rfl
  | cons n rest ih =>
    rw [updateEach]
    cases (n.update change).fault with
    | some fault => rfl
    | none => exact congrArg (· + 1) ih

/-- A change at a node with branches is made at these. -/
theorem update_of_ne_nil (h : n.branches ≠ []) : n.update change =
    (updateEach change n.branches).map fun branches => { n with branches } := by
  obtain ⟨config, own, branches⟩ := n
  rw [update, if_neg (by rwa [List.isEmpty_iff])]

/-- A change at a node without branches is made at the node itself. -/
theorem update_of_nil (h : n.branches = []) : n.update change = change n := by
  obtain ⟨config, own, branches⟩ := n
  obtain rfl : branches = [] := h
  rfl

variable {change' : System → Outcome CaseTree}

mutual

/-- A change goes the same way at the nodes without branches and at the leaves of the tree. -/
theorem update_tree (hchange : ∀ n, n.branches = [] → (change n).map tree = change' n.own) :
    (n : Node) → (n.update change).map tree = n.tree.update change'
  | ⟨_, _, []⟩ => hchange _ rfl
  | ⟨config, own, m :: rest⟩ => by
    have hsome : (updateEach change (m :: rest)).state ≠ [] := by
      refine List.ne_nil_of_length_pos ?_
      rw [length_updateEach]
      exact Nat.succ_pos _
    have heach := updateEach_treesOf hchange (m :: rest)
    show Outcome.mk (tree ⟨config, own, (updateEach change (m :: rest)).state⟩) _ _
      = (CaseTree.updateEach change' (treesOf (m :: rest))).map .anyOf
    rw [← heach, tree_of_ne_nil hsome, ← treesOf_eq_map]
    rfl

/-- The same for several nodes and their trees. -/
theorem updateEach_treesOf
    (hchange : ∀ n, n.branches = [] → (change n).map tree = change' n.own) :
    (ns : List Node) →
      (updateEach change ns).map treesOf = CaseTree.updateEach change' (treesOf ns)
  | [] => rfl
  | n :: rest => by
    have hfirst := update_tree hchange n
    have hrest := updateEach_treesOf hchange rest
    rw [treesOf, updateEach, CaseTree.updateEach, ← hfirst, ← hrest]
    show Outcome.map _ (match (n.update change).fault with | some _ => _ | none => _) =
      match (n.update change).fault with | some _ => _ | none => _
    cases (n.update change).fault with
    | some fault => rfl
    | none => rfl

end

end Update

/-! ### Calls -/

/-- A call does to a node what it does to the problem that the node stands for. -/
theorem apply_tree (n : Node) (call : Call) :
    (n.apply call).map tree = n.tree.update call.change :=
  update_tree (fun _ h => change_tree h call) n

/-- No call changes the configuration of a node. -/
theorem config_apply (n : Node) (call : Call) : (n.apply call).state.config = n.config := by
  by_cases h : n.branches = []
  · rw [apply, update_of_nil h]
    cases call with
    | declare x => rfl
    | equation e =>
      rw [change, addOwn]
      cases n.own.add e with
      | ok own => rfl
      | error fault => rfl
    | equationSet set =>
      rw [change]
      split
      · rw [branch]
        split
        · rfl
        · rfl
      · rfl
  · rw [apply, update_of_ne_nil h]
    rfl

/-- A call leads to the same problem, with the same fault and the same events. -/
theorem apply_problem (n : Node) (call : Call) :
    (n.apply call).map problem = n.problem.apply call := by
  rw [Problem.apply_eq]
  show Outcome.mk (Problem.mk (n.apply call).state.config _) _ _ = (n.tree.update call.change).map _
  rw [← apply_tree, config_apply]
  rfl

/-- Calls lead to the same problem, whether they are taken or refused. -/
theorem run_problem (n : Node) (calls : List Call) :
    (n.run calls).problem = n.problem.run calls := by
  induction calls generalizing n with
  | nil => rfl
  | cons call rest ih =>
    have hstate : (n.apply call).state.problem = (n.problem.apply call).state :=
      congrArg Outcome.state (apply_problem n call)
    show ((n.apply call).state.run rest).problem = (n.problem.apply call).state.run rest
    rw [ih, hstate]

/-- The same calls lead from nothing to the same problem. -/
theorem run_new_problem (config : Config) (calls : List Call) :
    ((new config).run calls).problem = (Problem.new config).run calls :=
  run_problem (new config) calls

/-! ### What a node holds -/

/-- All nodes have this configuration. A node has no branches, or it has at least two and holds
nothing of its own. -/
inductive Tidy (config : Config) : Node → Prop
  | single (own : System) : Tidy config ⟨config, own, []⟩
  | split {branches : List Node} (several : 2 ≤ branches.length)
      (all : ∀ m ∈ branches, Tidy config m) : Tidy config ⟨config, .empty, branches⟩

/-- A call leaves a node without branches tidy. -/
theorem tidy_change (own : System) (call : Call) :
    Tidy config (change call ⟨config, own, []⟩).state := by
  cases call with
  | declare x => exact .single _
  | equation e =>
    rw [change, addOwn]
    cases own.add e with
    | ok own' => exact .single own'
    | error fault => exact .single own
  | equationSet set =>
    rw [change]
    by_cases hchoice : set.IsChoice
    · have hmembers := mapM_addOwn ⟨config, own, []⟩ set.equations
      rw [if_pos hchoice, branch]
      cases hmap : set.equations.mapM own.add with
      | error fault =>
        rw [hmembers, hmap]
        exact .single own
      | ok owns =>
        rw [hmap] at hmembers
        rw [hmembers]
        refine .split (two_le_length_of_isChoice hchoice hmembers) ?_
        intro m hm
        obtain ⟨own', _, rfl⟩ := List.mem_map.mp hm
        exact .single own'
    · rw [if_neg hchoice]
      exact .single _

/-- What holds of all nodes, changed or not, holds of them after a change that stops half-way. -/
theorem forall_mem_updateEach {change : Node → Outcome Node} {P : Node → Prop} {ns : List Node}
    (h : ∀ m ∈ ns, P m) (hupdate : ∀ m ∈ ns, P (m.update change).state) :
    ∀ m ∈ (updateEach change ns).state, P m := by
  induction ns with
  | nil => exact h
  | cons n rest ih =>
    rw [List.forall_mem_cons] at h hupdate
    rw [updateEach]
    cases (n.update change).fault with
    | some fault => exact List.forall_mem_cons.mpr ⟨hupdate.1, h.2⟩
    | none => exact List.forall_mem_cons.mpr ⟨hupdate.1, ih h.2 hupdate.2⟩

/-- A change that leaves nodes without branches tidy leaves all nodes tidy. -/
theorem Tidy.update {change : Node → Outcome Node}
    (hchange : ∀ own, Tidy config (change ⟨config, own, []⟩).state) (h : n.Tidy config) :
    (n.update change).state.Tidy config := by
  induction h with
  | single own => exact hchange own
  | @split branches several all ih =>
    rw [update_of_ne_nil (n := ⟨config, .empty, branches⟩) (ne_nil_of_two_le several)]
    exact .split (by rwa [length_updateEach]) (forall_mem_updateEach all ih)

/-- Calls keep nodes tidy, whether they are taken or refused. -/
theorem Tidy.run (h : n.Tidy config) (calls : List Call) : (n.run calls).Tidy config := by
  induction calls generalizing n with
  | nil => exact h
  | cons call rest ih => exact ih (h.update fun own => tidy_change own call)

/-- Every node that calls lead to is tidy. -/
theorem tidy_run (config : Config) (calls : List Call) : ((new config).run calls).Tidy config :=
  Tidy.run (.single .empty) calls

/-- The configuration of a tidy node. -/
theorem Tidy.config_eq (h : n.Tidy config) : n.config = config := by
  cases h with
  | single own => rfl
  | split several all => rfl

/-! ### Queries -/

/-- A node has branches just when its problem has alternatives. -/
theorem isDisjunctive_problem (n : Node) : n.problem.isDisjunctive = n.isDisjunctive := by
  obtain ⟨config, own, branches⟩ := n
  cases branches with
  | nil => rfl
  | cons m rest => rfl

mutual

/-- The text shows no more than the tree does. -/
theorem text_tree : (n : Node) → n.tree.text = n.text
  | ⟨_, _, []⟩ => rfl
  | ⟨_, _, m :: rest⟩ =>
    congrArg (fun inner => "OR \x7b\n" ++ inner ++ "\x7d\n") (textOf_treesOf (m :: rest))

/-- The same for several nodes and their trees. -/
theorem textOf_treesOf : (ns : List Node) → CaseTree.textOf (treesOf ns) = textOf ns
  | [] => rfl
  | n :: rest => by rw [treesOf, CaseTree.textOf, textOf, text_tree n, textOf_treesOf rest]

end

/-- Nodes are tried one after the other, as their trees are. -/
theorem solveFirst_treesOf {ns : List Node} (h : ∀ m ∈ ns, m.tree.solve config = m.solve) :
    CaseTree.solveFirst config (treesOf ns) = solveFirst ns := by
  induction ns with
  | nil => rfl
  | cons n rest ih =>
    rw [List.forall_mem_cons] at h
    rw [treesOf, CaseTree.solveFirst, solveFirst, h.1, ih h.2]

/-- A tidy node is solved in the same way as its tree, with the same events. -/
theorem Tidy.solve_tree (h : n.Tidy config) : n.tree.solve config = n.solve := by
  induction h with
  | single own => rfl
  | @split branches several all ih =>
    have hsome := ne_nil_of_two_le several
    rw [tree_of_ne_nil (n := ⟨config, .empty, branches⟩) hsome, CaseTree.solve, solve,
      if_neg (by rwa [List.isEmpty_iff]), ← treesOf_eq_map, solveFirst_treesOf ih, treesOf_eq_map,
      List.length_map]
    rfl

/-- The branches of a tidy node stand for the alternatives of its problem. -/
theorem Tidy.branches_problem (h : n.Tidy config) :
    n.problem.branches = n.branches.map problem := by
  cases h with
  | single own => rfl
  | @split branches several all =>
    have hsome := ne_nil_of_two_le several
    rw [Problem.branches, problem, tree_of_ne_nil (n := ⟨config, .empty, branches⟩) hsome]
    show (branches.map tree).map (Problem.mk config) = branches.map problem
    rw [List.map_map]
    refine List.map_congr_left fun m hm => ?_
    rw [problem, (all m hm).config_eq]
    rfl

/-- A tidy node with branches declares nothing itself, just as its problem. -/
theorem Tidy.own_problem (h : n.Tidy config) :
    n.problem.declared = n.declared ∧ n.problem.domain? = n.domain? := by
  cases h with
  | single own => exact ⟨rfl, rfl⟩
  | @split branches several all =>
    cases branches with
    | nil => exact ⟨rfl, rfl⟩
    | cons m rest => exact ⟨rfl, rfl⟩

/-- All that can be asked of a node, with its answers. -/
def view (n : Node) : View :=
  ⟨n.config, n.branches.length, n.text, n.declared, n.domain?, n.solve⟩

/-- **A tidy node looks like the problem that it stands for**, and it is solved in the same way. -/
theorem Tidy.view_problem (h : n.Tidy config) : n.problem.view = n.view := by
  have hsolve : n.problem.solve = n.solve := by
    rw [← h.solve_tree, ← h.config_eq]
    rfl
  rw [Problem.view, view, h.branches_problem, List.length_map, h.own_problem.1, h.own_problem.2,
    hsolve, show n.problem.text = n.text from text_tree n]
  rfl

/-- **Nodes and problems cannot be told apart.** After the same calls they give the same answers. -/
theorem view_run (config : Config) (calls : List Call) :
    ((new config).run calls).view = ((Problem.new config).run calls).view := by
  rw [← run_new_problem, (tidy_run config calls).view_problem]

end BoundedEquations.Node
