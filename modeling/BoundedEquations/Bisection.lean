/-!
# `BoundedEquations.Bisection`: the first index at which a test fails

`firstFailure p n` looks for the least index below `n` at which `p` fails, and answers `n` when
there is none. It probes the middle of what is left, so it needs the test to be *downward closed*:
once it fails, it fails from there on. `firstFailure_law` says what the answer is for such a test.
-/

set_option autoImplicit false

namespace BoundedEquations.Bisection

/-- Bisects the indices from `lo` up to `hi`. -/
def firstFailureIn (p : Nat → Bool) (lo hi : Nat) : Nat :=
  if lo < hi then
    if p ((lo + hi) / 2) then firstFailureIn p ((lo + hi) / 2 + 1) hi
    else firstFailureIn p lo ((lo + hi) / 2)
  else
    lo
termination_by hi - lo

/-- The first index below `n` at which `p` fails, or `n`. -/
def firstFailure (p : Nat → Bool) (n : Nat) : Nat := firstFailureIn p 0 n

/-- Below the answer the test succeeds and from the answer on it fails, when it is downward
closed and is known to succeed below `lo` and to fail from `hi` on. -/
theorem firstFailureIn_law {p : Nat → Bool} {n lo hi : Nat}
    (closed : ∀ i j, i ≤ j → j < n → p j = true → p i = true)
    (below : ∀ i < lo, p i = true) (above : ∀ i, hi ≤ i → i < n → p i = false)
    (hlo : lo ≤ hi) (hn : hi ≤ n) :
    (∀ i < firstFailureIn p lo hi, p i = true) ∧
      ∀ i, firstFailureIn p lo hi ≤ i → i < n → p i = false := by
  fun_induction firstFailureIn p lo hi with
  | case1 lo hi hlt hp ih =>
    exact ih (fun i hi' => closed i _ (by omega) (by omega) hp) above (by omega) hn
  | case2 lo hi hlt hp ih =>
    refine ih below (fun i hi' hin => ?_) (by omega) (by omega)
    by_cases h : p i = true
    · exact absurd (closed _ i hi' hin h) hp
    · exact Bool.eq_false_iff.mpr h
  | case3 lo hi hlt =>
    exact ⟨below, fun i hi' hin => above i (by omega) hin⟩

/-- The law of `firstFailure` for a downward closed test. -/
theorem firstFailure_law {p : Nat → Bool} {n : Nat}
    (closed : ∀ i j, i ≤ j → j < n → p j = true → p i = true) :
    (∀ i < firstFailure p n, p i = true) ∧ ∀ i, firstFailure p n ≤ i → i < n → p i = false :=
  firstFailureIn_law closed (fun _ h => absurd h (Nat.not_lt_zero _))
    (fun _ h h' => absurd h' (Nat.not_lt_of_le h)) (Nat.zero_le _) (Nat.le_refl _)

end BoundedEquations.Bisection
