import BoundedEquations.Traced
import Mathlib.Data.List.Forall2

/-!
# `BoundedEquations.Proofs.Traced`: two computations that go alike

Two computations go alike when they report the same events and then both stop with the same fault or
both succeed, with results that are related. `Likewise` is the part about results, and
`Traced.Alike` the whole. Related results may differ, but an observer sees no difference as long as
the relation hides it. Faults are the same here (`Fault.Same`) when at most the widths of the
variables that they keep differ: the sentence is the same then, and only `Fault.text` tells them
apart. The theorems:

* `Fault.Same.message`: the same faults are reported by the same sentence.
* `Likewise.bind`, `Traced.Alike.bind`: computations that go alike step by step go alike.
* `Likewise.foldlM`, `Likewise.mapM`: the same along two lists with related members.
* `Outcome.Alike.map`: changes that go alike, at a part of a larger state.
* `Traced.Alike.eq_of_ok`: with an answer, computations that go alike are equal.
-/

set_option autoImplicit false

namespace BoundedEquations

namespace Fault

/-- The faults are the same but for the widths of the variables that they keep. -/
inductive Same : Fault → Fault → Prop
  | refl (fault : Fault) : Same fault fault
  | selfLoop {a b a' b' : Variable} (ha : a.name = a'.name) (hb : b.name = b'.name) :
      Same (.selfLoop a b) (.selfLoop a' b')
  | selfEquation {x y x' y' : Variable} (hx : x.name = x'.name) (hy : y.name = y'.name) :
      Same (.selfEquation x y) (.selfEquation x' y')
  | trivialEquality {x y x' y' : Variable} (hx : x.name = x'.name) (hy : y.name = y'.name) :
      Same (.trivialEquality x y) (.trivialEquality x' y')
  | trivialInequality {x y x' y' : Variable} (hx : x.name = x'.name) (hy : y.name = y'.name) :
      Same (.trivialInequality x y) (.trivialInequality x' y')

/-- The sentence for a fault shows names and no widths. -/
theorem Same.message {fault fault' : Fault} (h : fault.Same fault') :
    fault.message = fault'.message := by
  unfold Fault.message
  cases h with
  | refl => rfl
  | selfLoop ha hb => simp only [ha, hb]
  | selfEquation hx _ => simp only [hx]
  | trivialEquality hx hy => simp only [hx, hy]
  | trivialInequality hx hy => simp only [hx, hy]

end Fault

variable {α β α' β' : Type} {R : α → α' → Prop} {S : β → β' → Prop}

/-- Both computations succeed with related results, or both are refused for the same cause. -/
inductive Likewise (R : α → α' → Prop) : Except Fault α → Except Fault α' → Prop
  | ok {a : α} {a' : α'} (h : R a a') : Likewise R (.ok a) (.ok a')
  | error {fault fault' : Fault} (h : fault.Same fault') :
      Likewise R (.error fault) (.error fault')

/-- What is known about the result of one computation may be added to the relation. -/
theorem Likewise.and_of_ok {x : Except Fault α} {x' : Except Fault α'} {P : α → Prop}
    (h : Likewise R x x') (hP : ∀ a, x = .ok a → P a) :
    Likewise (fun a a' => R a a' ∧ P a) x x' := by
  cases h with
  | ok h => exact .ok ⟨h, hP _ rfl⟩
  | error h => exact .error h

/-- Steps that go likewise, one after the other. -/
theorem Likewise.bind {x : Except Fault α} {x' : Except Fault α'} {f : α → Except Fault β}
    {f' : α' → Except Fault β'} (hx : Likewise R x x')
    (hf : ∀ a a', R a a' → Likewise S (f a) (f' a')) : Likewise S (x >>= f) (x' >>= f') := by
  cases hx with
  | ok h => exact hf _ _ h
  | error h => exact .error h

/-- Steps that go likewise along two lists with related members. -/
theorem Likewise.foldlM {f : β → α → Except Fault β} {f' : β' → α' → Except Fault β'}
    (hf : ∀ b b' a a', S b b' → R a a' → Likewise S (f b a) (f' b' a'))
    {as : List α} {as' : List α'} (has : List.Forall₂ R as as') {b : β} {b' : β'} (hb : S b b') :
    Likewise S (as.foldlM f b) (as'.foldlM f' b') := by
  induction has generalizing b b' with
  | nil => exact .ok hb
  | cons ha _ ih =>
    rw [List.foldlM_cons, List.foldlM_cons]
    exact (hf b b' _ _ hb ha).bind fun _ _ hc => ih hc

/-- The results for two lists with related members. -/
theorem Likewise.mapM {f : α → Except Fault β} {f' : α' → Except Fault β'}
    (hf : ∀ a a', R a a' → Likewise S (f a) (f' a'))
    {as : List α} {as' : List α'} (has : List.Forall₂ R as as') :
    Likewise (List.Forall₂ S) (as.mapM f) (as'.mapM f') := by
  induction has with
  | nil => exact .ok .nil
  | cons ha _ ih =>
    rw [List.mapM_cons, List.mapM_cons]
    exact (hf _ _ ha).bind fun _ _ hb => ih.bind fun _ _ hbs => .ok (.cons hb hbs)

namespace Traced

/-- The two computations report the same and end alike. -/
structure Alike (R : α → α' → Prop) (x : Traced α) (x' : Traced α') : Prop where
  result : Likewise R x.result x'.result
  events : x.events = x'.events

/-- An answer is the same on both sides, where a fault may differ in widths. -/
theorem Alike.eq_of_ok {x y : Traced α} (h : Alike Eq x y) {a : α} (ha : x.result = .ok a) :
    x = y := by
  obtain ⟨r, events⟩ := x
  obtain ⟨r', events'⟩ := y
  obtain ⟨hr, rfl⟩ := h
  obtain rfl : r = .ok a := ha
  cases hr with
  | ok hab => rw [hab]

/-- A computation goes like itself. -/
theorem alike_refl (x : Traced α) : Alike Eq x x := by
  obtain ⟨r, events⟩ := x
  cases r with
  | ok a => exact ⟨.ok rfl, rfl⟩
  | error fault => exact ⟨.error (.refl fault), rfl⟩

/-- Related results without events. -/
theorem alike_pure {a : α} {a' : α'} (h : R a a') : Alike R (pure a) (pure a') := ⟨.ok h, rfl⟩

/-- The same faults without events. -/
theorem alike_fail {fault fault' : Fault} (h : fault.Same fault') :
    Alike R (fail fault) (fail fault') := ⟨.error h, rfl⟩

/-- Results that are alike, without events. -/
theorem alike_ofExcept {x : Except Fault α} {x' : Except Fault α'} (h : Likewise R x x') :
    Alike R (ofExcept x) (ofExcept x') := ⟨h, rfl⟩

/-- Computations that go alike, one after the other. -/
theorem Alike.bind {x : Traced α} {x' : Traced α'} {f : α → Traced β} {f' : α' → Traced β'}
    (hx : Alike R x x') (hf : ∀ a a', R a a' → Alike S (f a) (f' a')) :
    Alike S (x >>= f) (x' >>= f') := by
  obtain ⟨r, events⟩ := x
  obtain ⟨r', events'⟩ := x'
  obtain ⟨hr, rfl⟩ := hx
  cases hr with
  | ok h =>
    obtain ⟨hresult, hevents⟩ := hf _ _ h
    rw [bind_of_ok rfl, bind_of_ok rfl]
    exact ⟨hresult, congrArg (events ++ ·) hevents⟩
  | error h =>
    rw [bind_of_error rfl, bind_of_error rfl]
    exact ⟨.error h, rfl⟩

/-- The same event is reported first. -/
theorem Alike.emit_bind {event event' : Event} (hevent : event = event') {f : Unit → Traced α}
    {f' : Unit → Traced α'} (hf : Alike R (f ()) (f' ())) :
    Alike R (emit event >>= f) (emit event' >>= f') := by
  subst hevent
  exact Alike.bind (R := Eq) ⟨.ok rfl, rfl⟩ fun _ _ _ => hf

end Traced

/-- What is shown of an event. -/
def Event.line (event : Event) : Level × String := (event.level, event.message)

/-- The two changes lead to related states, stop with the same fault if they do, and show the same
lines. -/
structure Outcome.Alike (R : α → α' → Prop) (x : Outcome α) (x' : Outcome α') : Prop where
  state : R x.state x'.state
  fault : Option.Rel Fault.Same x.fault x'.fault
  lines : x.events.map Event.line = x'.events.map Event.line

namespace Outcome

/-- Related states stay related under functions that respect the relation. -/
theorem Alike.map {x : Outcome α} {x' : Outcome α'} {f : α → β} {f' : α' → β'} (h : Alike R x x')
    (hf : ∀ a a', R a a' → S (f a) (f' a')) : Alike S (x.map f) (x'.map f') :=
  ⟨hf _ _ h.state, h.fault, h.lines⟩

/-- A change as a whole or not at all, on both sides. -/
theorem alike_ofExcept {before : α} {before' : α'} {x : Except Fault α} {x' : Except Fault α'}
    (hbefore : R before before') (h : Likewise R x x') :
    Alike R (ofExcept before x) (ofExcept before' x') := by
  cases h with
  | ok h => exact ⟨h, .none, rfl⟩
  | error h => exact ⟨hbefore, .some h, rfl⟩

end Outcome

end BoundedEquations
