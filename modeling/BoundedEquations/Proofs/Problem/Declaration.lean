import BoundedEquations.Proofs.Problem.Calls

/-!
# `BoundedEquations.Proofs.Problem.Declaration`: domains fit the latest declarations

A variable may be declared more than once, and each declaration gives it all values of its width
anew. So what its domain is bound to depends on the history: `Call.latest?` finds the latest
declaration of a name. The theorems:

* `fits_declare`, `fits_addAll`: the bound, step by step.
* `fits_run`, `fits_run_new`: the bound along a run.
-/

set_option autoImplicit false

namespace BoundedEquations

namespace Call

/-- The variable that a call declares under a name. -/
def declared? (name : String) : Call → Option Variable
  | .declare x => if x.name = name then some x else none
  | _ => none

/-- The variable that was declared last under a name. -/
def latest? (calls : List Call) (name : String) : Option Variable :=
  calls.reverse.findSome? (declared? name)

/-- A later declaration comes before that of the first call. -/
theorem latest?_cons (call : Call) (rest : List Call) (name : String) :
    latest? (call :: rest) name = (latest? rest name).or (call.declared? name) := by
  rw [latest?, List.reverse_cons, List.findSome?_append, List.findSome?_singleton]
  rfl

/-- A call that is no declaration declares nothing. -/
theorem declared?_eq_none {call : Call} (h : ∀ x, call ≠ .declare x) (name : String) :
    call.declared? name = none := by
  cases call with
  | declare x => exact absurd rfl (h x)
  | equation e => rfl
  | equationSet set => rfl

end Call

namespace System

/-- The declared names are those with a latest declaration, and each variable has only values that
fit it. -/
structure Fits (latest : String → Option Variable) (s : System) : Prop where
  declared_iff : ∀ x, s.domains.contains x = true ↔ ∃ y, latest x.name = some y
  bounded : ∀ x d, s.domains.find? x = some d →
    ∃ y, latest x.name = some y ∧ ∀ v ∈ d, v ≤ y.maxValue

/-- Before the first call nothing is declared. -/
theorem fits_empty : empty.Fits fun _ => none where
  declared_iff _ := iff_of_false Bool.false_ne_true fun ⟨_, h⟩ => nomatch h
  bounded _ _ h := nomatch h

/-- A declaration gives a variable the full domain of its width. -/
theorem fits_declare {latest : String → Option Variable} {s : System} (h : s.Fits latest)
    (x : Variable) :
    (s.declare x).Fits fun name => ((Call.declare x).declared? name).or (latest name) where
  declared_iff y := by
    show (s.domains.insert x _).contains y = true ↔ _
    rw [Table.contains_insert, h.declared_iff y, Call.declared?]
    by_cases hname : y.name = x.name
    · simp [hname]
    · simp [hname, Ne.symm hname]
  bounded y d hd := by
    rw [find?_declare] at hd
    rw [Call.declared?]
    by_cases hname : y.name = x.name
    · rw [if_pos hname] at hd
      obtain rfl := Option.some.inj hd
      refine ⟨x, by rw [if_pos hname.symm]; rfl, fun v hv => ?_⟩
      have hlt := Domain.mem_full.mp hv
      rw [Variable.maxValue]
      omega
    · rw [if_neg hname] at hd
      rw [if_neg (Ne.symm hname)]
      exact h.bounded y d hd

/-- Equations only narrow domains. -/
theorem fits_addAll {latest : String → Option Variable} {s : System} (hs : s.WellFormed)
    (h : s.Fits latest) (es : List Equation) : (s.addAll es).state.Fits latest := by
  -- What an equation does to the domains is known for well-formed systems, so both go together.
  refine (addAll_induction (P := fun t => t.WellFormed ∧ t.Fits latest) ?_ es ⟨hs, h⟩).2
  rintro t t' e ⟨ht, hfits⟩ hadded
  refine ⟨ht.add hadded, ⟨fun x => ?_, fun x d' hd' => ?_⟩⟩
  · rw [← hfits.declared_iff x]
    exact Table.names_eq_iff.mp (names_of_added hadded) x
  · obtain ⟨d, hd, hsub⟩ := mem_of_added ht hadded hd'
    obtain ⟨y, hy, hbound⟩ := hfits.bounded x d hd
    exact ⟨y, hy, fun v hv => hbound v (hsub v hv)⟩

end System

namespace Problem

open CaseTree

/-- Along a run the bound follows the declarations. -/
theorem fits_run {p : Problem} (hp : Reachable p) {latest : String → Option Variable}
    (h : ∀ s ∈ p.tree.leaves, s.Fits latest) (calls : List Call) :
    ∀ s ∈ (p.run calls).tree.leaves,
      s.Fits fun name => (Call.latest? calls name).or (latest name) := by
  induction calls generalizing p latest with
  | nil => exact h
  | cons call rest ih =>
    obtain ⟨declared, hsound⟩ := hp.sound
    -- After the first call its own declaration comes before all earlier ones.
    have hstep : ∀ s' ∈ (p.apply call).state.tree.leaves,
        s'.Fits fun name => (call.declared? name).or (latest name) := by
      intro s' hs'
      obtain ⟨s, hs, ⟨x, rfl, rfl⟩ | ⟨hcall, es, rfl⟩⟩ := leaves_apply hsound hs'
      · exact System.fits_declare (h s hs) x
      · have hsame : (fun name => (call.declared? name).or (latest name)) = latest :=
          funext fun name => by rw [Call.declared?_eq_none hcall name, Option.none_or]
        rw [hsame]
        exact System.fits_addAll (hsound.wellFormed s hs) (h s hs) es
    intro s hs
    have hrest := ih (hp.apply call) hstep s hs
    -- Later declarations come first, whichever way the run is cut.
    have hcons : (fun name => (Call.latest? (call :: rest) name).or (latest name))
        = fun name => (Call.latest? rest name).or ((call.declared? name).or (latest name)) :=
      funext fun name => by rw [Call.latest?_cons, Option.or_assoc]
    rw [hcons]
    exact hrest

/-- After any calls a variable has only values that fit its latest declaration. -/
theorem fits_run_new (config : Config) (calls : List Call) :
    ∀ s ∈ ((new config).run calls).tree.leaves, s.Fits (Call.latest? calls) := by
  intro s hs
  have hempty : ∀ s ∈ (new config).tree.leaves, s.Fits fun _ => none := by
    intro s hs
    obtain rfl := List.mem_singleton.mp hs
    exact System.fits_empty
  have hrun := fits_run (Reachable.new config) hempty calls s hs
  simpa only [Option.or_none] using hrun

end Problem

end BoundedEquations
