import Kmdx.Lib.Wp

/-!
# Monitored runs

A monitored program is a program with guards in it that throw `stop`. `Follows stop x y`: the monitored
`x` does what `y` does, unless a guard stops it. The rules go through a program line by line.
-/

namespace Monitor

open Wp

variable {ε σ α β : Type} {stop : ε}

/-- `x` is `y`, but for runs that are stopped. -/
def Follows (stop : ε) (x y : EStateM ε σ α) : Prop := ∀ s, x s = y s ∨ ∃ s', x s = .error stop s'

namespace Follows
variable {x y : EStateM ε σ α} {f g : α → EStateM ε σ β}

theorem refl (x : EStateM ε σ α) : Follows stop x x := fun _ => .inl rfl

theorem bind (h : Follows stop x y) (hf : ∀ a, Follows stop (f a) (g a)) :
    Follows stop (x >>= f) (y >>= g) := by
  intro s
  rw [run_bind, run_bind]
  rcases h s with hs | ⟨s', hs⟩
  · rw [hs]
    cases y s with
    | ok a t => exact hf a t
    | error e t => exact .inl rfl
  · rw [hs]; exact .inr ⟨s', rfl⟩

/-- The same first line in both. -/
theorem bind_right (hf : ∀ a, Follows stop (f a) (g a)) : Follows stop (x >>= f) (x >>= g) :=
  (refl x).bind hf

theorem ite {c : Prop} [Decidable c] {x' y' : EStateM ε σ α} (h : Follows stop x y)
    (h' : Follows stop x' y') : Follows stop (if c then x else x') (if c then y else y') := by
  split
  · exact h
  · exact h'

/-- A guard, and nothing in its place. -/
theorem guard {c : Prop} [Decidable c] :
    Follows stop (if c then throw stop else return : EStateM ε σ PUnit) (return) := by
  intro s
  split
  · exact .inr ⟨s, rfl⟩
  · exact .inl rfl

/-- A handler that throws `stop` on. -/
theorem tryCatch {h : ε → EStateM ε σ α} (hxy : Follows stop x y) (hstop : h stop = throw stop) :
    Follows stop (tryCatch x h) (tryCatch y h) := by
  intro s
  show EStateM.tryCatch x h s = EStateM.tryCatch y h s ∨ ∃ s', EStateM.tryCatch x h s = .error stop s'
  unfold EStateM.tryCatch
  rcases hxy s with hs | ⟨s', hs⟩
  · rw [hs]; exact .inl rfl
  · rw [hs]; exact .inr ⟨s', by dsimp only; rw [hstop]; rfl⟩

/-- A run that is not stopped is the program's. -/
theorem eq_of_not_stopped (h : Follows stop x y) {s : σ} (hs : eval x s ≠ .error stop) : x s = y s :=
  (h s).resolve_right fun ⟨s', hs'⟩ => hs (by rw [eval, hs'])

end Follows

end Monitor
