import BoundedEquations.Proofs.System.Propagation
import BoundedEquations.System.Search

/-!
# `BoundedEquations.Proofs.System.Reports`: what solving one system can report

`Traced.Reports` says that everything reported on the way to a result has some property. It is put
together from the parts of a computation, and a part that ends with a fault has nothing to show. For
a system the property is `Event.OfSystem`. It is `Event.Ordinary` where no pass takes the last value
of a variable, so the lemmas on the search are about any property that ordinary events have. The
theorems:

* `Reports.bind_of_ok`: what is reported before a result, put together from the parts.
* `System.reports_substitute`, `System.reports_separate`: the steps that compare their variables.
* `System.Passing.reports`: a pass reports what its steps report.
* `System.reports_search`, `System.reports_solve`: a whole search, on all of its levels.
-/

set_option autoImplicit false

namespace BoundedEquations

/-- What solving a single system can report. A system has no branches, and an equality or inequality
that is taken up has two different sides. -/
def Event.OfSystem : Event → Prop
  | .branching _ => False
  | .solving _ _ _ branches => branches = 0
  | .equality lhs rhs => lhs ≠ rhs
  | .inequality lhs rhs => lhs ≠ rhs
  | _ => True

/-- What solving a single system reports as long as no pass takes the last value of a variable. -/
def Event.Ordinary : Event → Prop
  | .exhausted .. => False
  | event => event.OfSystem

/-- What is ordinary is reported by a single system. -/
theorem Event.Ordinary.ofSystem {event : Event} (h : event.Ordinary) : event.OfSystem := by
  cases event with
  | exhausted name fixed => exact h.elim
  | _ => exact h

namespace Traced

variable {α β : Type} {P Q : Event → Prop}

/-- Everything reported on the way to a result has the property. -/
def Reports (P : Event → Prop) (t : Traced α) : Prop :=
  ∀ a, t.result = .ok a → ∀ event ∈ t.events, P event

/-- A property that follows from another one may take its place. -/
theorem Reports.mono {t : Traced α} (h : t.Reports P) (hPQ : ∀ event, P event → Q event) :
    t.Reports Q := by
  intro a ha event hevent
  exact hPQ event (h a ha event hevent)

/-- What is reported is seen from the events. -/
theorem reports_of_result_eq_ok {t : Traced α} {a : α} {events : List Event}
    (h : t = ⟨.ok a, events⟩) (hevents : ∀ event ∈ events, P event) : t.Reports P := by
  subst h
  exact fun _ _ => hevents

/-- Nothing is reported where there are no events. -/
theorem reports_of_events_eq_nil {t : Traced α} (h : t.events = []) : t.Reports P := by
  intro a _ event hevent
  rw [h] at hevent
  exact nomatch hevent

/-- A result by itself reports nothing. -/
theorem reports_pure (a : α) : (pure a : Traced α).Reports P := reports_of_events_eq_nil rfl

/-- A fault by itself reports nothing. -/
theorem reports_fail (fault : Fault) : (fail fault : Traced α).Reports P :=
  reports_of_events_eq_nil rfl

/-- A computation without events reports nothing. -/
theorem reports_ofExcept (x : Except Fault α) : (ofExcept x).Reports P :=
  reports_of_events_eq_nil rfl

/-- A single event is reported. -/
theorem reports_emit {event : Event} (h : P event) : (emit event).Reports P := by
  intro _ _ event' hevent'
  obtain rfl := List.mem_singleton.mp hevent'
  exact h

/-- The second part goes on from the result of the first one. -/
theorem Reports.bind_of_ok {x : Traced α} {f : α → Traced β} (hx : x.Reports P)
    (hf : ∀ a, x.result = .ok a → (f a).Reports P) : (x >>= f).Reports P := by
  intro b hb event hevent
  obtain ⟨a, ha, hfa⟩ := bind_result_eq_ok.mp hb
  rcases mem_events_bind.mp hevent with hevent | ⟨a', ha', hevent⟩
  · exact hx a ha event hevent
  · obtain rfl := Except.ok.inj (ha.symm.trans ha')
    exact hf a ha b hfa event hevent

/-- Two parts that report what has the property, one after the other. -/
theorem Reports.bind {x : Traced α} {f : α → Traced β} (hx : x.Reports P)
    (hf : ∀ a, (f a).Reports P) : (x >>= f).Reports P :=
  hx.bind_of_ok fun a _ => hf a

/-- An event with the property, and then what has it. -/
theorem reports_emit_then {event : Event} {f : Unit → Traced α} (hevent : P event)
    (hf : (f ()).Reports P) : (emit event >>= f).Reports P :=
  (reports_emit hevent).bind fun _ => hf

/-- After two variables are reported, they are compared at once. If they are the same, that is the
end. -/
theorem reports_emit_compare {event : Event} {x y : Variable} {fault : Fault} {rest : Traced α}
    (hevent : x.name ≠ y.name → P event) (hrest : rest.Reports P) :
    Reports P (do emit event; if x == y then fail fault else rest) := by
  by_cases hxy : x.name = y.name
  · rw [if_pos (Variable.beq_iff.mpr hxy)]
    intro a ha
    exact nomatch ha
  · rw [if_neg fun h => hxy (Variable.beq_iff.mp h)]
    exact reports_emit_then (hevent hxy) hrest

end Traced

open Traced

namespace System

/-- What is reported when a value is taken out. -/
theorem reports_exclude (s : System) (x y other : Variable) (fixed : Domain) :
    (s.exclude x y other fixed).Reports Event.OfSystem := by
  refine (reports_ofExcept _).bind fun d => ?_
  dsimp only
  split
  · exact reports_emit_then trivial (reports_pure _)
  · exact reports_pure _

/-- What is reported for one inequality. -/
theorem reports_separate (s : System) (x y : Variable) :
    (s.separate x y).Reports Event.OfSystem := by
  refine reports_emit_compare id ?_
  refine (reports_ofExcept _).bind fun dx => (reports_ofExcept _).bind fun dy => ?_
  split
  · exact reports_pure _
  · split
    · exact reports_emit_then trivial (reports_pure _)
    · exact reports_exclude s x y y dx
    · exact reports_exclude s x y x dy
    · exact reports_pure _

/-- A pass reports what its steps report. -/
theorem Passing.reports {P : Event → Prop} {s t : System} {edges rest : List (Variable × Variable)}
    (hstep : ∀ u x y rest, Passing s edges u ((x, y) :: rest) → (u.separate x y).Reports P)
    (h : Passing s edges t rest) : (t.separateAll rest).Reports P := by
  induction rest generalizing t with
  | nil => exact reports_pure _
  | cons edge rest ih =>
    obtain ⟨x, y⟩ := edge
    refine (hstep t x y rest h).bind_of_ok fun step hresult => ?_
    cases step with
    | none => exact reports_pure _
    | some t' => exact ih (h.step hresult)

/-- What is reported for one substitution. -/
theorem reports_substitute (s : System) (x y : Variable) :
    (s.substitute x y).Reports Event.Ordinary := by
  refine reports_emit_compare id ?_
  split
  · exact reports_emit_then trivial (reports_pure _)
  · refine (reports_ofExcept _).bind fun common => ?_
    split
    · exact reports_emit_then trivial (reports_pure _)
    · exact (reports_ofExcept _).bind fun _ => (reports_ofExcept _).bind fun _ => reports_pure _

/-- What is reported for all substitutions. -/
theorem reports_substituteAll (s : System) (count : Nat) :
    (substituteAll count s).Reports Event.Ordinary := by
  induction count generalizing s with
  | zero => exact (reports_ofExcept _).bind fun _ => reports_pure _
  | succ count ih =>
    rw [substituteAll]
    split
    · exact (reports_ofExcept _).bind fun _ => reports_pure _
    · rename_i x y _
      refine (reports_substitute s x y).bind fun step => ?_
      cases step with
      | none => exact reports_pure _
      | some s' => exact ih s'

/-- What is reported while values are tried is what the tests report. -/
theorem reports_anyTraced {P : Event → Prop} {test : Nat → Traced Bool} (c : Domain.Cursor)
    (htest : ∀ v, (test v).Reports P) : (c.anyTraced test).Reports P := by
  fun_induction Domain.Cursor.anyTraced test c with
  | case1 c fault _ => exact reports_fail fault
  | case2 c _ => exact reports_pure false
  | case3 c v c' _ ih =>
    refine (htest v).bind fun passed => ?_
    cases passed with
    | true => exact reports_pure true
    | false => exact ih

section Search

variable {P : Event → Prop} (hP : ∀ event, event.Ordinary → P event) {config : Config} {s : System}

include hP

/-- What is reported in a search step, given what its pass reports. -/
theorem reports_advance (hpass : s.propagate.Reports P) : (s.advance config).Reports P := by
  rw [advance]
  split
  · exact reports_pure _
  · split
    · exact reports_pure _
    · refine hpass.bind fun step => ?_
      cases step with
      | none => exact reports_pure _
      | some s' =>
        refine (reports_ofExcept _).bind fun x? => ?_
        cases x? with
        | none => exact reports_emit_then (hP _ trivial) (reports_pure _)
        | some x =>
          exact (reports_ofExcept _).bind fun d =>
            reports_emit_then (hP _ trivial) (reports_pure _)

/-- A search reports what its passes report. The systems `I` are those that it may come to. -/
theorem reports_search {I : System → Prop} (hpass : ∀ s, I s → s.propagate.Reports P)
    (hsplit : ∀ s s' x d v, I s → (s.advance config).result = .ok (.split s' x d) →
      I (s'.setDomain x (.singleton v)))
    (depth : Nat) (hs : I s) : (search config depth s).Reports P := by
  induction depth generalizing s with
  | zero =>
    refine (reports_advance hP (hpass s hs)).bind fun progress => ?_
    cases progress with
    | decided answer => exact reports_pure answer
    | split _ _ _ => exact reports_fail _
  | succ depth ih =>
    refine (reports_advance hP (hpass s hs)).bind_of_ok fun progress hresult => ?_
    cases progress with
    | decided answer => exact reports_pure answer
    | split s' x d =>
      exact reports_anyTraced d.cursor fun v =>
        reports_emit_then (hP _ trivial) (ih (hsplit s s' x d v hs hresult))

/-- Solving a system reports what the search in its quotient reports. -/
theorem reports_solve_of_search
    (hsearch : ∀ q, s.hasEmptyDomain = false → s.quotient.result = .ok (some q) →
      (search config q.inequalities.vertices.length q).Reports P) :
    (s.solve config).Reports P := by
  refine reports_emit_then (hP _ rfl) ?_
  split
  · exact reports_emit_then (hP _ trivial) (reports_pure _)
  · rename_i hlive
    refine ((reports_substituteAll s _).mono hP).bind_of_ok fun step hresult => ?_
    cases step with
    | none => exact reports_pure false
    | some q => exact hsearch q (Bool.eq_false_iff.mpr hlive) hresult

end Search

/-- Whatever the system is, one pass or another may come upon any event of a system. -/
theorem reports_solve (s : System) (config : Config) :
    (s.solve config).Reports Event.OfSystem := by
  have hP : ∀ event : Event, event.Ordinary → event.OfSystem := fun _ h => h.ofSystem
  refine reports_solve_of_search hP fun q _ _ => ?_
  refine reports_search hP (I := fun _ => True) (fun s _ => ?_) (fun _ _ _ _ _ _ _ => trivial) _
    trivial
  exact Passing.start.reports fun u x y _ _ => reports_separate u x y

end System

end BoundedEquations
