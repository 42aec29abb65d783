import Kmdx.Lib.Wp

/-!
# Scope guards

A scope guard runs when its scope is left, by a return or by a throw. It runs in a destructor: what it throws
ends the process (`terminate`). When the process has ended (`fatal`), no guard runs any more.
-/

namespace ScopeGuard

open Wp

/-- Among what may be thrown, what ends the process. -/
class Fatal (ε : Type) where
  fatal : ε → Bool
  terminate : ε
  fatal_terminate : fatal terminate = true

variable {ε σ α : Type} [Fatal ε]

/-- `x`, and `guard` when it is left. -/
def guarded (x : EStateM ε σ α) (guard : EStateM ε σ PUnit) : EStateM ε σ α := fun s =>
  match x s with
  | .ok a s' =>
    match guard s' with
    | .ok _ t => .ok a t
    | .error _ t => .error Fatal.terminate t
  | .error e s' =>
    if Fatal.fatal e then .error e s'
    else match guard s' with
      | .ok _ t => .error e t
      | .error _ t => .error Fatal.terminate t

variable {x : EStateM ε σ α} {guard : EStateM ε σ PUnit} {Q : α → σ → Prop} {E : ε → σ → Prop} {s : σ}

theorem run_guarded_of_error {e : ε} (s' : σ) {t : σ} (hx : x s = .error e s') (he : Fatal.fatal e = false)
    (hguard : guard s' = .ok ⟨⟩ t) : guarded x guard s = .error e t := by
  simp [guarded, hx, he, hguard]

theorem wp_guarded : wp (guarded x guard) Q E s ↔
    wp x (fun a => wp guard (fun _ => Q a) (fun _ => E Fatal.terminate))
      (fun e t => if Fatal.fatal e then E e t else wp guard (fun _ => E e) (fun _ => E Fatal.terminate) t) s := by
  unfold wp guarded
  cases hx : x s with
  | ok a s' =>
    dsimp only
    cases hg : guard s' <;> rfl
  | error e s' =>
    dsimp only
    by_cases hf : Fatal.fatal e
    · rw [if_pos hf, if_pos hf]
    · rw [if_neg hf, if_neg hf]
      cases hg : guard s' <;> rfl

/-- What holds of the states that `x` leaves behind, and stays when the guard runs, holds in the end. -/
theorem wp_guarded_of {P : σ → Prop} (hx : wp x (fun _ => P) (fun _ => P) s)
    (hguard : ∀ t, P t → wp guard (fun _ => P) (fun _ => P) t) :
    wp (guarded x guard) (fun _ => P) (fun _ => P) s := by
  rw [wp_guarded]
  refine wp_mono hx (fun _ t ht => hguard t ht) fun e t ht => ?_
  split
  · exact ht
  · exact hguard t ht

end ScopeGuard
