import BoundedEquations.Proofs.Domain.Canonical
import BoundedEquations.Proofs.Problem.Alternatives
import BoundedEquations.Proofs.System.Extension

/-!
# `BoundedEquations.Proofs.Problem.History`: what a single system holds after its calls

Without choices a problem stays a single system, and everything in it can be read off the calls. A
declaration replaces the domain of its variable and nothing else. Every other call extends the
system by its equations. The theorems:

* `contains_step`, `find?_step`, `hasEdge_step`: names, domains and edges after one call.
* `contains_foldl_step`, `find?_foldl_step`, `hasEdge_foldl_step`: the same along a list of calls.
* `find?_foldl_step_of_latest`: the values that are left since the latest declaration.
* `history_run`: the whole of the system after any calls that are not refused.
-/

set_option autoImplicit false

namespace BoundedEquations

namespace Call

/-- The declaration of `y` is the latest one of its name, and these are the calls behind it. -/
def Latest (calls : List Call) (y : Variable) (after : List Call) : Prop :=
  (∃ before, calls = before ++ .declare y :: after) ∧
    ∀ z, .declare z ∈ after → z.name ≠ y.name

/-- Of the declarations of a name one is the latest. -/
theorem exists_latest {calls : List Call} {x : Variable} (h : .declare x ∈ calls) :
    ∃ y after, y.name = x.name ∧ Latest calls y after := by
  induction calls generalizing x with
  | nil => exact nomatch h
  | cons call rest ih =>
    by_cases hrest : ∃ z, .declare z ∈ rest ∧ z.name = x.name
    · obtain ⟨z, hz, hname⟩ := hrest
      obtain ⟨y, after, hy, ⟨before, rfl⟩, hlatest⟩ := ih hz
      exact ⟨y, after, hy.trans hname, ⟨call :: before, rfl⟩, hlatest⟩
    · rcases List.mem_cons.mp h with rfl | hmem
      · exact ⟨x, rest, rfl, ⟨[], rfl⟩, fun z hz hname => hrest ⟨z, hz, hname⟩⟩
      · exact absurd ⟨x, hmem, rfl⟩ hrest

end Call

namespace System

variable {s : System} {calls : List Call} {x : Variable}

/-! ### One call -/

/-- A call without declaration extends a system by its equations. -/
theorem extends_step (hs : s.WellFormed) {call : Call}
    (hcause : call.cause? s.domains.names = none) (hdeclare : ∀ y, call ≠ .declare y) :
    s.Extends call.equations (s.step call) := by
  rw [Call.cause?, List.findSome?_eq_none_iff] at hcause
  cases call with
  | declare y => exact absurd rfl (hdeclare y)
  | equation e => exact extends_addAll hs hcause
  | equationSet set => exact extends_addAll hs hcause

/-- After a call the names are those from before, and the one that it declares. -/
theorem contains_step (s : System) (call : Call) (x : Variable) :
    (s.step call).domains.contains x = true ↔
      s.domains.contains x = true ∨ ∃ y, call = .declare y ∧ y.name = x.name := by
  have hsame : ∀ es, (s.addAll es).state.domains.contains x = true ↔
      s.domains.contains x = true := fun es => Table.names_eq_iff.mp (names_addAll s es) x
  cases call with
  | declare y =>
    show (s.domains.insert y _).contains x = true ↔ _
    rw [Table.contains_insert, or_comm]
    refine or_congr_right ⟨fun hname => ⟨y, rfl, hname.symm⟩, ?_⟩
    rintro ⟨z, hz, hname⟩
    obtain rfl := Call.declare.inj hz
    exact hname.symm
  | equation e => exact (hsame [e]).trans (by simp)
  | equationSet set => exact (hsame set.equations).trans (by simp)

/-- Unless it is declared again, a variable keeps the values that the equations allow. -/
theorem find?_step (hs : s.WellFormed) {call : Call} (hcause : call.cause? s.domains.names = none)
    {d : Domain} (hd : s.domains.find? x = some d)
    (hkept : ∀ y, call = .declare y → y.name ≠ x.name) :
    ∃ d', (s.step call).domains.find? x = some d' ∧
      ∀ v, v ∈ d' ↔ v ∈ d ∧ ∀ e ∈ call.equations, e.Allows x v := by
  by_cases hdeclare : ∃ y, call = .declare y
  · obtain ⟨y, rfl⟩ := hdeclare
    refine ⟨d, ?_, fun v => by simp [Call.equations]⟩
    rw [step, find?_declare, if_neg (Ne.symm (hkept y rfl)), hd]
  · exact (extends_step hs hcause (not_exists.mp hdeclare)).domains x d hd

/-- After a call the edges are those from before, and those of its equations. -/
theorem hasEdge_step (hs : s.WellFormed) {call : Call}
    (hcause : call.cause? s.domains.names = none) (isEquality : Bool) (x y : Variable) :
    ((s.step call).graph isEquality).hasEdge x y = true ↔
      (s.graph isEquality).hasEdge x y = true ∨
        ∃ e ∈ call.equations, e.Links isEquality x y := by
  by_cases hdeclare : ∃ z, call = .declare z
  · -- A declaration leaves both graphs alone.
    obtain ⟨z, rfl⟩ := hdeclare
    show (s.graph isEquality).hasEdge x y = true ↔ _
    simp [Call.equations]
  · exact (extends_step hs hcause (not_exists.mp hdeclare)).edges isEquality x y

/-! ### A list of calls -/

/-- A list of calls is taken when its two parts are, one after the other. -/
theorem takes_append {first second : List Call} :
    s.Takes (first ++ second) ↔ s.Takes first ∧ (first.foldl step s).Takes second := by
  induction first generalizing s with
  | nil => simp [Takes]
  | cons call rest ih =>
    rw [List.cons_append, Takes, Takes, ih, List.foldl_cons, and_assoc, and_assoc]

/-- Calls keep a system well-formed. -/
theorem WellFormed.foldl_step (hs : s.WellFormed) (calls : List Call) :
    (calls.foldl System.step s).WellFormed := by
  induction calls generalizing s with
  | nil => exact hs
  | cons call rest ih => exact ih (hs.step call)

/-- The names after some calls are those from before, and those that they declare. -/
theorem contains_foldl_step (s : System) (calls : List Call) (x : Variable) :
    (calls.foldl step s).domains.contains x = true ↔
      s.domains.contains x = true ∨ ∃ y, .declare y ∈ calls ∧ y.name = x.name := by
  induction calls generalizing s with
  | nil => simp
  | cons call rest ih =>
    rw [List.foldl_cons, ih, contains_step, or_assoc]
    simp only [List.mem_cons, or_and_right, exists_or, eq_comm]

/-- Unless it is declared again, a variable keeps the values that all equations allow. -/
theorem find?_foldl_step (hs : s.WellFormed) (htakes : s.Takes calls) {d : Domain}
    (hd : s.domains.find? x = some d) (hkept : ∀ y, .declare y ∈ calls → y.name ≠ x.name) :
    ∃ d', (calls.foldl step s).domains.find? x = some d' ∧
      ∀ v, v ∈ d' ↔ v ∈ d ∧ ∀ e ∈ calls.flatMap Call.equations, e.Allows x v := by
  induction calls generalizing s d with
  | nil => exact ⟨d, hd, fun v => by simp⟩
  | cons call rest ih =>
    obtain ⟨_, hcause, hrest⟩ := htakes
    obtain ⟨d', hd', hmem⟩ := find?_step hs hcause hd fun y hy => hkept y (hy ▸ List.mem_cons_self)
    obtain ⟨d'', hd'', hmem'⟩ :=
      ih (hs.step call) hrest hd' fun y hy => hkept y (List.mem_cons_of_mem _ hy)
    refine ⟨d'', hd'', fun v => ?_⟩
    rw [hmem' v, hmem v, and_assoc, List.flatMap_cons, List.forall_mem_append]

/-- A run can be cut at the latest declaration of a variable, which leaves a full domain behind. -/
theorem find?_foldl_step_of_latest (hs : s.WellFormed) (htakes : s.Takes calls) {y : Variable}
    {after : List Call} (hlatest : Call.Latest calls y after) (hy : y.name = x.name) :
    ∃ d, (calls.foldl step s).domains.find? x = some d ∧
      ∀ v, v ∈ d ↔ v < Nat.pow 2 y.width ∧ ∀ e ∈ after.flatMap Call.equations, e.Allows x v := by
  obtain ⟨⟨before, rfl⟩, hlast⟩ := hlatest
  obtain ⟨_, _, _, hafter⟩ := takes_append.mp htakes
  have hfull := (find?_declare (before.foldl step s) y x).trans (if_pos hy.symm)
  have hready := (hs.foldl_step before).declare y
  obtain ⟨d, hd, hmem⟩ :=
    find?_foldl_step hready hafter hfull fun z hz => hy ▸ hlast z hz
  refine ⟨d, ?_, fun v => ?_⟩
  · rw [List.foldl_append]
    exact hd
  · rw [hmem v, Domain.mem_full]

/-- The edges after some calls are those from before, and those of their equations. -/
theorem hasEdge_foldl_step (hs : s.WellFormed) (htakes : s.Takes calls) (isEquality : Bool)
    (x y : Variable) : ((calls.foldl step s).graph isEquality).hasEdge x y = true ↔
      (s.graph isEquality).hasEdge x y = true ∨
        ∃ e ∈ calls.flatMap Call.equations, e.Links isEquality x y := by
  induction calls generalizing s with
  | nil => simp
  | cons call rest ih =>
    obtain ⟨_, hcause, hrest⟩ := htakes
    rw [List.foldl_cons, ih (hs.step call) hrest, hasEdge_step hs hcause, or_assoc]
    simp only [List.flatMap_cons, List.mem_append, or_and_right, exists_or]

end System

namespace Problem

/-- A problem without alternatives, as its calls tell it. -/
structure History (calls : List Call) (p : Problem) : Prop where
  /-- The declared names ascend. -/
  ascending : (p.declared.map Variable.name).Pairwise (· < ·)
  /-- They are those of the declarations. -/
  declared_iff : ∀ name, name ∈ p.declared.map Variable.name ↔
    ∃ x, .declare x ∈ calls ∧ x.name = name
  /-- A domain holds the values that fit the latest declaration and that each equation with a
  number behind it allows. -/
  domains : ∀ x, .declare x ∈ calls → ∃ y after d, y.name = x.name ∧ Call.Latest calls y after ∧
    p.domain? x = some d ∧
    ∀ v, d.contains v = true ↔
      v < Nat.pow 2 y.width ∧ ∀ e ∈ after.flatMap Call.equations, e.Allows x v
  /-- There is an edge where an equation relates two variables, whichever comes first and whenever
  the two have been declared. -/
  edges : ∃ s, p.tree = .leaf s ∧
    (∀ x y, s.equalities.hasEdge x y = true ↔
      ∃ e ∈ calls.flatMap Call.equations, e.Links true x y) ∧
    ∀ x y, s.inequalities.hasEdge x y = true ↔
      ∃ e ∈ calls.flatMap Call.equations, e.Links false x y

/-- Calls without choice that are accepted are their own only resolution. -/
theorem mem_resolutions_self {calls : List Call} (h : ∀ call ∈ calls, ¬call.IsChoice) :
    calls ∈ Call.resolutions calls := by
  induction calls with
  | nil => exact List.mem_singleton.mpr rfl
  | cons call rest ih =>
    rw [Call.resolutions, Call.alternatives, if_neg (h call List.mem_cons_self),
      List.flatMap_singleton]
    exact List.mem_map_of_mem (ih fun c hc => h c (List.mem_cons_of_mem _ hc))

/-- **A single system holds exactly what its calls say.** -/
theorem history_run (config : Config) (calls : List Call) (h : (new config).Accepts calls)
    (hplain : ∀ call ∈ calls, ¬call.IsChoice) : History calls ((new config).run calls) := by
  have htakes : System.empty.Takes calls :=
    takes_of_mem_resolutions h List.mem_cons_self (mem_resolutions_self hplain)
  have hrun : (new config).run calls = ⟨config, .leaf (calls.foldl System.step .empty)⟩ :=
    (run_of_takes config htakes).2
  have hempty := System.wellFormed_empty
  rw [hrun]
  refine ⟨Table.pairwise_names _, fun name => ?_, fun x hx => ?_, _, rfl, fun x y => ?_,
    fun x y => ?_⟩
  · -- Every name is that of some variable, whatever its width.
    have hname := System.contains_foldl_step .empty calls ⟨name, 1, Nat.one_pos⟩
    rw [← Table.mem_names_iff_contains] at hname
    refine hname.trans (or_iff_right ?_)
    exact Bool.false_ne_true
  · obtain ⟨y, after, hy, hlatest⟩ := Call.exists_latest hx
    obtain ⟨d, hd, hmem⟩ := System.find?_foldl_step_of_latest hempty htakes hlatest hy
    have hcanonical := (hempty.foldl_step calls).canonical x d hd
    refine ⟨y, after, d, hy, hlatest, hd, fun v => ?_⟩
    rw [Domain.contains_iff_mem hcanonical, hmem v]
  · exact (System.hasEdge_foldl_step hempty htakes true x y).trans
      (or_iff_right Bool.false_ne_true)
  · exact (System.hasEdge_foldl_step hempty htakes false x y).trans
      (or_iff_right Bool.false_ne_true)

/-- A variable is narrowed and related to another, declared again with one bit more, and narrowed
once more, also by a value that it does not have. -/
def redeclared : List Call :=
  let a : Variable := ⟨"a", 1, Nat.one_pos⟩
  let b : Variable := ⟨"b", 1, Nat.one_pos⟩
  [.declare b, .declare a, .equation (.ofValue a 1 false), .equation (.ofVars a b true),
    .declare ⟨"a", 2, Nat.two_pos⟩,
    .equationSet ⟨.conjunction, [.ofValue a 2 false, .ofVars b a false]⟩,
    .equationSet ⟨.disjunction, [.ofValue a 9 false]⟩]

/-- The values that are left are those of the second declaration. -/
theorem history_run_redeclared :
    (new {}).Accepts redeclared ∧ (∀ call ∈ redeclared, ¬call.IsChoice) ∧
      History redeclared ((new {}).run redeclared) := by
  have haccepts : (new {}).Accepts redeclared := ⟨rfl, rfl, rfl, rfl, rfl, rfl, rfl, trivial⟩
  have hplain : ∀ call ∈ redeclared, ¬call.IsChoice := by decide
  exact ⟨haccepts, hplain, history_run {} redeclared haccepts hplain⟩

/-- Of the equations with a number only those behind the second declaration count. -/
example : ((new {}).run redeclared).domain? ⟨"a", 1, Nat.one_pos⟩
    = some ⟨#[⟨0, 1, by decide⟩, ⟨3, 3, by decide⟩]⟩ := by decide

end Problem

end BoundedEquations
