import BoundedEquations.Event

/-!
# `BoundedEquations.Traced`: results that come with a list of events

Two shapes of result carry events.

* `Traced α` is a result or a fault, together with the events reported on the way. It is a
  lawful monad: events are kept in order, and nothing runs after a fault.
* `Outcome α` is for a change of state that may be refused half-way. It always has a state: after
  a refusal the one reached by then.
-/

set_option autoImplicit false

namespace BoundedEquations

/-- A result or a fault, and the events reported on the way. -/
structure Traced (α : Type) where
  result : Except Fault α
  events : List Event

namespace Traced

variable {α β γ : Type}

/-- Computations are equal when their results and their events are. -/
@[ext] theorem ext {x y : Traced α} (hresult : x.result = y.result)
    (hevents : x.events = y.events) : x = y := by
  cases x
  cases y
  simp_all

/-- A result without events. -/
protected def pure (a : α) : Traced α := ⟨.ok a, []⟩

/-- Goes on with the result of `x`. A fault of `x` is the end. -/
protected def bind (x : Traced α) (f : α → Traced β) : Traced β :=
  match x.result with
  | .ok a =>
    let y := f a
    ⟨y.result, x.events ++ y.events⟩
  | .error fault => ⟨.error fault, x.events⟩

/-- Computations are put one after the other. -/
instance : Monad Traced where
  pure := Traced.pure
  bind := Traced.bind

/-- Reports one event. -/
def emit (event : Event) : Traced Unit := ⟨.ok (), [event]⟩

/-- Stops with a fault. -/
def fail (fault : Fault) : Traced α := ⟨.error fault, []⟩

/-- A computation that reports nothing. -/
def ofExcept (x : Except Fault α) : Traced α := ⟨x, []⟩

/-- A computation that reports nothing may stand among those that do. -/
instance : MonadLift (Except Fault) Traced := ⟨ofExcept⟩

/-- A result by itself is the result. -/
@[simp] theorem pure_result (a : α) : (pure a : Traced α).result = .ok a := rfl

/-- A result by itself reports nothing. -/
@[simp] theorem pure_events (a : α) : (pure a : Traced α).events = [] := rfl

/-- After a result the second part goes on, and its events come behind. -/
theorem bind_of_ok {x : Traced α} {a : α} (h : x.result = .ok a) (f : α → Traced β) :
    (x >>= f) = ⟨(f a).result, x.events ++ (f a).events⟩ := by
  show Traced.bind x f = _
  rw [Traced.bind, h]

/-- After a fault nothing goes on. -/
theorem bind_of_error {x : Traced α} {fault : Fault} (h : x.result = .error fault)
    (f : α → Traced β) : (x >>= f) = ⟨.error fault, x.events⟩ := by
  show Traced.bind x f = _
  rw [Traced.bind, h]

/-- After a result the second part has the last word. -/
theorem result_bind_of_ok {x : Traced α} {a : α} (h : x.result = .ok a) (f : α → Traced β) :
    (x >>= f).result = (f a).result := by
  rw [bind_of_ok h]

/-- A sequence succeeds when both of its parts do. -/
theorem bind_result_eq_ok {x : Traced α} {f : α → Traced β} {b : β} :
    (x >>= f).result = .ok b ↔ ∃ a, x.result = .ok a ∧ (f a).result = .ok b := by
  cases h : x.result with
  | ok a => simp [bind_of_ok h]
  | error fault => simp [bind_of_error h]

/-- A sequence reports what its first part reports, and then what its second part reports if it
comes to that. -/
theorem mem_events_bind {x : Traced α} {f : α → Traced β} {event : Event} :
    event ∈ (x >>= f).events ↔
      event ∈ x.events ∨ ∃ a, x.result = .ok a ∧ event ∈ (f a).events := by
  cases h : x.result with
  | ok a => simp [bind_of_ok h]
  | error fault => simp [bind_of_error h]

/-- Mapping the identity changes nothing. -/
theorem map_id (x : Traced α) : id <$> x = x := by
  show Traced.bind x (fun a => Traced.pure (id a)) = x
  cases h : x.result with
  | ok a => exact (bind_of_ok h _).trans (Traced.ext h.symm (List.append_nil _))
  | error fault => exact (bind_of_error h _).trans (Traced.ext h.symm rfl)

/-- A result by itself is handed on. -/
theorem bind_of_pure (a : α) (f : α → Traced β) : (pure a >>= f) = f a := by
  rw [bind_of_ok (pure_result a)]
  exact Traced.ext rfl (List.nil_append _)

/-- A step that cannot fail and reports nothing only hands on its value. -/
theorem lift_ok_bind (a : α) (f : α → Traced β) :
    ((liftM (Except.ok a : Except Fault α) : Traced α) >>= f) = f a := bind_of_pure a f

/-- Of three parts, any two may be taken together first. -/
theorem bind_bind (x : Traced α) (f : α → Traced β) (g : β → Traced γ) :
    x >>= f >>= g = x >>= fun a => f a >>= g := by
  cases hx : x.result with
  | error fault => rw [bind_of_error hx, bind_of_error hx, bind_of_error rfl]
  | ok a =>
    rw [bind_of_ok hx, bind_of_ok hx]
    cases hf : (f a).result with
    | error fault => rw [bind_of_error rfl, bind_of_error hf]
    | ok b =>
      rw [bind_of_ok rfl, bind_of_ok hf]
      exact Traced.ext rfl (List.append_assoc _ _ _)

/-- The laws of a monad hold, events included. -/
instance : LawfulMonad Traced := LawfulMonad.mk' Traced map_id bind_of_pure bind_bind

end Traced

/-- The state after a change, the fault that stopped the change if one did, and the events. -/
structure Outcome (α : Type) where
  state : α
  fault : Option Fault
  events : List Event

namespace Outcome

variable {α β : Type}

/-- Applies a function to the state. -/
def map (f : α → β) (outcome : Outcome α) : Outcome β :=
  ⟨f outcome.state, outcome.fault, outcome.events⟩

/-- A change that is made as a whole or not at all, and reports nothing. -/
def ofExcept (before : α) : Except Fault α → Outcome α
  | .ok after => ⟨after, none, []⟩
  | .error fault => ⟨before, some fault, []⟩

end Outcome

end BoundedEquations
