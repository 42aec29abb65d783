import Mathlib.Tactic.TypeStar

/-!
# Runs that may throw

Rules for programs in `Except`: what a line does to the rest, and when a program returns.
-/

namespace ExceptRules

variable {ε : Type} {α β : Type} {e : ε} {a : α} {b : β} {x : Except ε α} {f : α → Except ε β} {c : Prop} [Decidable c]

@[simp] theorem pure_eq : (pure a : Except ε α) = .ok a := rfl

@[simp] theorem throw_eq : (throw e : Except ε α) = .error e := rfl

@[simp] theorem ok_bind : ((.ok a : Except ε α) >>= f) = f a := rfl

@[simp] theorem error_bind : ((.error e : Except ε α) >>= f) = .error e := rfl

theorem bind_eq_ok_iff : x >>= f = .ok b ↔ ∃ a, x = .ok a ∧ f a = .ok b := by
  cases x with
  | ok a => exact ⟨fun h => ⟨a, rfl, h⟩, fun ⟨_, ha, h⟩ => by cases ha; exact h⟩
  | error e => exact ⟨nofun, fun ⟨_, ha, _⟩ => nomatch ha⟩

/-- A guard. -/
@[simp] theorem ite_error_eq_ok_iff : (if c then .error e else x) = .ok a ↔ ¬c ∧ x = .ok a := by
  split
  · rename_i hc
    exact ⟨nofun, fun h => absurd hc h.1⟩
  · rename_i hc
    exact ⟨fun h => ⟨hc, h⟩, And.right⟩

theorem eq_ok_of_toOption (h : x.toOption = some a) : x = .ok a := by
  cases x with
  | ok b => exact congrArg _ (Option.some.inj h)
  | error e => cases h

theorem bind_congr_ok {g : α → Except ε β} (h : ∀ a, x = .ok a → f a = g a) : x >>= f = x >>= g := by
  cases x with
  | ok a => exact h a rfl
  | error e => rfl

end ExceptRules
