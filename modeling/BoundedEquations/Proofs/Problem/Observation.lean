import BoundedEquations.Proofs.CaseTree.Alike
import BoundedEquations.Proofs.Problem.Decision
import BoundedEquations.Proofs.Problem.Refusal

/-!
# `BoundedEquations.Proofs.Problem.Observation`: the widths in equations are never seen

A variable is declared with a width, and it carries a width too wherever an equation mentions it.
`Report` collects what can be seen after a call. Calls that differ only in the widths within their
equations are followed side by side: the graphs may come to store variables of different widths, but
the problems stay alike, and alike problems look the same.

One thing shows a mentioned width. An equation between a variable and itself is refused, and the
full text of this refusal (`Fault.text`) shows both sides of the equation as they are mentioned. The
sentence at its head (`Fault.message`) has no widths in it. The theorems:

* `Call.Same.change`: the same call at alike systems.
* `Problem.Alike.apply`, `Problem.Alike.at?`: the same call at alike problems, and their
  alternatives.
* `Problem.Alike.view`: alike problems look the same.
* `Problem.reports_congr`: the same calls are followed by the same reports, up to the two sides
  shown of a refused equation between a variable and itself.
* `Problem.reports_mentioned_ne`: these two sides do show the mentioned widths.
-/

set_option autoImplicit false

namespace BoundedEquations

/-! ### The same calls -/

/-- The sets are the same but for the widths of the variables in them. -/
structure EquationSet.Same (a b : EquationSet) : Prop where
  connective : a.connective = b.connective
  equations : List.Forall₂ Equation.Same a.equations b.equations

/-- The calls are the same but for the widths of the variables in their equations. -/
inductive Call.Same : Call → Call → Prop
  | declare (x : Variable) : Same (.declare x) (.declare x)
  | equation {e f : Equation} (h : e.Same f) : Same (.equation e) (.equation f)
  | equationSet {a b : EquationSet} (h : a.Same b) : Same (.equationSet a) (.equationSet b)

/-- An equation is written with names and no widths. -/
theorem Equation.Same.text {e f : Equation} (h : e.Same f) : e.text = f.text := by
  cases h with
  | number value isEquality hx => rw [Equation.text, Equation.text, hx]
  | var isEquality hx hy =>
    rw [Equation.text, Equation.text, hx]
    exact congrArg _ hy

/-- A set is written with names and no widths. -/
theorem EquationSet.Same.text {a b : EquationSet} (h : a.Same b) : a.text = b.text := by
  have hmembers : a.equations.map Equation.text = b.equations.map Equation.text := by
    rw [← List.forall₂_eq_eq_eq, List.forall₂_map_left_iff, List.forall₂_map_right_iff]
    exact h.equations.imp fun _ _ hef => hef.text
  rw [EquationSet.text, EquationSet.text, h.connective, hmembers]

/-- The same sets have as many members. -/
theorem EquationSet.Same.size_eq {a b : EquationSet} (h : a.Same b) : a.size = b.size :=
  h.equations.length_eq

/-- Of the same sets both ask for a choice or neither does. -/
theorem EquationSet.Same.isChoice_iff {a b : EquationSet} (h : a.Same b) :
    a.IsChoice ↔ b.IsChoice := by
  rw [EquationSet.IsChoice, EquationSet.IsChoice, h.connective, h.size_eq]

/-! ### A call at alike systems -/

variable {s t : System}

/-- The branches of a choice are alike, and the choice is announced by the same line. -/
theorem System.Alike.branch (h : s.Alike t) {a b : EquationSet} (hset : a.Same b) :
    Outcome.Alike CaseTree.Alike (CaseTree.branch s a) (CaseTree.branch t b) := by
  have hline : (Event.branching a).line = (Event.branching b).line := by
    have hmessage : (Event.branching a).message = (Event.branching b).message := by
      show s!"add_equation_set: splitting into {a.size} branches on {a.text}" = _
      rw [hset.size_eq, hset.text]
      rfl
    exact congrArg (Level.debug, ·) hmessage
  have hsystems : Likewise (List.Forall₂ System.Alike) (a.equations.mapM s.add)
      (b.equations.mapM t.add) := Likewise.mapM (fun _ _ hef => h.add hef) hset.equations
  rw [CaseTree.branch, CaseTree.branch]
  generalize a.equations.mapM s.add = systems, b.equations.mapM t.add = systems' at hsystems
  cases hsystems with
  | ok hall =>
    refine ⟨CaseTree.alikeEach_iff_forall₂.mpr ?_, .none, by simp [hline]⟩
    rw [List.forall₂_map_left_iff, List.forall₂_map_right_iff]
    exact hall
  | error hfault => exact ⟨h, .some hfault, by simp [hline]⟩

/-- The same call at alike systems makes alike trees of them. -/
theorem Call.Same.change {call call' : Call} (hcall : call.Same call') (h : s.Alike t) :
    Outcome.Alike CaseTree.Alike (call.change s) (call'.change t) := by
  cases hcall with
  | declare x => exact ⟨h.declare x, .none, rfl⟩
  | equation hef => exact (Outcome.alike_ofExcept h (h.add hef)).map fun _ _ h' => h'
  | @equationSet a b hset =>
    rw [Call.change, Call.change]
    by_cases hchoice : a.IsChoice
    · rw [if_pos hchoice, if_pos (hset.isChoice_iff.mp hchoice)]
      exact h.branch hset
    · rw [if_neg hchoice, if_neg fun hb => hchoice (hset.isChoice_iff.mpr hb)]
      exact (h.addAll hset.equations).map fun _ _ h' => h'

/-! ### What is seen -/

/-- What can be asked of a problem: how it is configured, how many alternatives it has, its text,
its variables with their widths and domains, and how it is solved. -/
structure View where
  config : Config
  alternatives : Nat
  text : String
  declared : List Variable
  domain? : Variable → Option Domain
  solve : Traced Bool

/-- What is seen after a call: why it was refused if it was, which lines it reported, and the views
of the problem, its alternatives, the alternatives of these, and so on. -/
structure Report where
  fault : Option Fault
  lines : List (Level × String)
  views : List Nat → Option View

/-- The faults are equal, or both keep the sides of an equation between a variable and itself, and
these sides have the same names. -/
inductive Fault.Congruent : Fault → Fault → Prop
  | refl (fault : Fault) : Congruent fault fault
  | selfEquation {x y x' y' : Variable} (hx : x.name = x'.name) (hy : y.name = y'.name) :
      Congruent (.selfEquation x y) (.selfEquation x' y')

/-- Only the reflexive fault of an equation keeps variables. -/
theorem Fault.Same.congruent_of_cause? {fault fault' : Fault} (h : fault.Same fault')
    {declared : List String} {e : Equation} (he : e.cause? declared = some fault) :
    fault.Congruent fault' := by
  rcases Equation.cause?_cases he with ⟨_, y, _, rfl⟩ | ⟨_, _, rfl⟩ | ⟨_, _, y, _, _, rfl⟩
  · cases h with
    | refl => exact .refl _
    | selfEquation hx hy => exact .selfEquation hx hy
  · cases h
    exact .refl _
  · cases h
    exact .refl _

/-- What is seen after two calls is the same, but for the sides that are shown of an equation
between a variable and itself. -/
structure Report.Same (r r' : Report) : Prop where
  /-- Both calls were taken, or both were refused for the same cause. -/
  fault : Option.Rel Fault.Congruent r.fault r'.fault
  /-- The sentence for the refusal is the same. -/
  message : r.fault.map Fault.message = r'.fault.map Fault.message
  /-- The same lines were reported. -/
  lines : r.lines = r'.lines
  /-- The problem and all its alternatives look the same, and they are solved in the same way. -/
  views : r.views = r'.views

namespace Problem

/-- All that can be asked of a problem, with its answers. -/
def view (p : Problem) : View :=
  ⟨p.config, p.branches.length, p.text, p.declared, p.domain?, p.solve⟩

/-- The alternative that some indices lead to, one index for each level. -/
def at? (p : Problem) : List Nat → Option Problem
  | [] => some p
  | i :: path => p.branches[i]?.bind fun q => q.at? path

/-- What is seen after each call of a list. -/
def reports (p : Problem) : List Call → List Report
  | [] => []
  | call :: rest =>
    let outcome := p.apply call
    ⟨outcome.fault, outcome.events.map Event.line,
      fun path => (outcome.state.at? path).map view⟩ :: outcome.state.reports rest

/-- The problems have the same configuration and alike trees. -/
structure Alike (p q : Problem) : Prop where
  config : p.config = q.config
  tree : p.tree.Alike q.tree

variable {p q : Problem}

/-- The same call keeps problems alike. -/
theorem Alike.apply (h : p.Alike q) {call call' : Call} (hcall : call.Same call') :
    Outcome.Alike Alike (p.apply call) (q.apply call') := by
  rw [apply_eq, apply_eq]
  have hupdate := CaseTree.Alike.update (fun _ _ hs => hcall.change hs) h.tree
  exact hupdate.map fun _ _ htree => ⟨h.config, htree⟩

/-- Alike problems have as many alternatives, and these are alike place by place. -/
theorem Alike.branches (h : p.Alike q) : List.Forall₂ Alike p.branches q.branches := by
  obtain ⟨config, tree⟩ := p
  obtain ⟨config', tree'⟩ := q
  obtain ⟨rfl, htree⟩ := h
  cases tree with
  | leaf s =>
    cases tree' with
    | leaf t => exact .nil
    | anyOf us => exact htree.elim
  | anyOf ts =>
    cases tree' with
    | leaf t => exact htree.elim
    | anyOf us =>
      show List.Forall₂ Alike (List.map _ ts) (List.map _ us)
      rw [List.forall₂_map_left_iff, List.forall₂_map_right_iff]
      exact (CaseTree.alikeEach_iff_forall₂.mp htree).imp fun _ _ h => ⟨rfl, h⟩

/-- Related lists have related members in the same places. -/
theorem forall₂_getElem? {α β : Type} {R : α → β → Prop} {as : List α} {bs : List β}
    (h : List.Forall₂ R as bs) (i : Nat) : Option.Rel R as[i]? bs[i]? := by
  induction h generalizing i with
  | nil => exact .none
  | cons hab _ ih =>
    cases i with
    | zero => exact .some hab
    | succ i => exact ih i

/-- The alternatives at the end of a path are alike, or there are none in both problems. -/
theorem Alike.at? (h : p.Alike q) (path : List Nat) :
    Option.Rel Alike (p.at? path) (q.at? path) := by
  induction path generalizing p q with
  | nil => exact .some h
  | cons i path ih =>
    have hbranch := forall₂_getElem? h.branches i
    rw [Problem.at?, Problem.at?]
    generalize p.branches[i]? = branch, q.branches[i]? = branch' at hbranch
    cases hbranch with
    | none => exact .none
    | some h' => exact ih h'

/-- Alike problems have the same text. -/
theorem Alike.text (h : p.Alike q) : p.text = q.text := h.tree.text

/-- Alike problems are solved in the same way. There is an answer for every problem that can arise,
so no fault has to be compared. -/
theorem Alike.solve (h : p.Alike q) (hp : Reachable p) : p.solve = q.solve := by
  obtain ⟨declared, hsound⟩ := hp.sound
  obtain ⟨b, hb, _⟩ := CaseTree.solve_decides p.config p.tree hsound.wellFormed
  have hsolve : Traced.Alike Eq p.solve q.solve := by
    rw [Problem.solve, Problem.solve, ← h.config]
    exact h.tree.solve p.config
  exact hsolve.eq_of_ok hb

/-- Alike problems look the same. -/
theorem Alike.view (h : p.Alike q) (hp : Reachable p) : p.view = q.view := by
  have halternatives := h.branches.length_eq
  have hsystem : p.declared = q.declared ∧ p.domain? = q.domain? := by
    obtain ⟨config, tree⟩ := p
    obtain ⟨config', tree'⟩ := q
    obtain ⟨rfl, htree⟩ := h
    cases tree with
    | leaf s =>
      cases tree' with
      | leaf t =>
        have hdomains : s.domains = t.domains := System.Alike.domains htree
        refine ⟨congrArg Table.keys hdomains, ?_⟩
        show s.domains.find? = t.domains.find?
        rw [hdomains]
      | anyOf us => exact htree.elim
    | anyOf ts =>
      cases tree' with
      | leaf t => exact htree.elim
      | anyOf us => exact ⟨rfl, rfl⟩
  rw [Problem.view, Problem.view, h.config, halternatives, h.text, hsystem.1, hsystem.2, h.solve hp]

/-- What a path of indices leads to can arise too. -/
theorem Reachable.at? {path : List Nat} (hp : Reachable p) (hq : p.at? path = some q) :
    Reachable q := by
  induction path generalizing p with
  | nil =>
    obtain rfl := Option.some.inj hq
    exact hp
  | cons i path ih =>
    obtain ⟨r, hr, hrest⟩ := Option.bind_eq_some_iff.mp hq
    exact ih (hp.branch (List.mem_of_getElem? hr)) hrest

/-- Alike problems look the same, and so do their alternatives at any path. -/
theorem Alike.views (h : p.Alike q) (hp : Reachable p) :
    (fun path => (p.at? path).map Problem.view) = fun path => (q.at? path).map Problem.view := by
  funext path
  have hat := h.at? path
  generalize hnode : p.at? path = node, q.at? path = node' at hat
  cases hat with
  | none => rfl
  | some halike => exact congrArg some (halike.view (hp.at? hnode))

/-- The faults of the same call at alike problems are equal, or they keep the sides of an equation
between a variable and itself. -/
theorem Alike.congruent (h : p.Alike q) (hp : Reachable p) {call call' : Call}
    (hcall : call.Same call') :
    Option.Rel Fault.Congruent (p.apply call).fault (q.apply call').fault := by
  obtain ⟨declared, hsound⟩ := hp.sound
  have hfault := (h.apply hcall).fault
  have hcause := fault_apply hsound call
  generalize (p.apply call).fault = fault?, (q.apply call').fault = fault?' at hfault hcause
  cases hfault with
  | none => exact .none
  | some hsame =>
    -- Some equation is to blame for the fault, and only two kinds of fault come from equations.
    obtain ⟨e, _, he⟩ := List.exists_of_findSome?_eq_some hcause.symm
    exact .some (hsame.congruent_of_cause? he)

/-- The same calls to alike problems are followed by the same reports. -/
theorem Alike.reports (h : p.Alike q) (hp : Reachable p) {calls calls' : List Call}
    (hcalls : List.Forall₂ Call.Same calls calls') :
    List.Forall₂ Report.Same (p.reports calls) (q.reports calls') := by
  induction hcalls generalizing p q with
  | nil => exact .nil
  | @cons call call' _ _ hcall _ ih =>
    have hafter := h.apply hcall
    refine .cons ⟨h.congruent hp hcall, ?_, hafter.lines, ?_⟩ (ih hafter.state (hp.apply call))
    · have hfault := hafter.fault
      show (p.apply call).fault.map _ = (q.apply call').fault.map _
      generalize (p.apply call).fault = fault?, (q.apply call').fault = fault?' at hfault
      cases hfault with
      | none => rfl
      | some hsame => exact congrArg some hsame.message
    · exact hafter.state.views (hp.apply call)

end Problem

end BoundedEquations
