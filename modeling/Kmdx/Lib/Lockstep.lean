import Kmdx.Lib.Wp

/-!
# Two calls in lockstep

`both x y Q E s t`: `x` from `s` and `y` from `t` both return, with results and states that satisfy `Q`, or both throw the
same, and leave states behind that satisfy `E`. Two calls agree on a relation (`Agree`) if they do so from related states,
with the same result, and keep it. The states need not be of one type, so a program may also be compared with one that leaves
something out.
-/

namespace Wp

variable {ε σ τ α β α' β' : Type}

def both (x : EStateM ε σ α) (y : EStateM ε τ β) (Q : α → β → σ → τ → Prop) (E : ε → σ → τ → Prop) (s : σ) (t : τ) : Prop :=
  match x s, y t with
  | .ok a s', .ok b t' => Q a b s' t'
  | .error e s', .error f t' => e = f ∧ E e s' t'
  | _, _ => False

variable {x : EStateM ε σ α} {y : EStateM ε τ β} {Q Q' : α → β → σ → τ → Prop} {E E' : ε → σ → τ → Prop} {s : σ} {t : τ}

/-! ### Rules -/

theorem both_mono (h : both x y Q E s t) (hQ : ∀ a b s t, Q a b s t → Q' a b s t) (hE : ∀ e s t, E e s t → E' e s t) :
    both x y Q' E' s t := by
  unfold both at *
  cases hx : x s <;> cases hy : y t <;> rw [hx, hy] at h
  · exact hQ _ _ _ _ h
  · exact h.elim
  · exact h.elim
  · exact h.imp_right (hE _ _ _)

theorem both_bind {f : α → EStateM ε σ α'} {g : β → EStateM ε τ β'} {Q : α' → β' → σ → τ → Prop}
    (h : both x y (fun a b => both (f a) (g b) Q E) E s t) : both (x >>= f) (y >>= g) Q E s t := by
  unfold both at h
  unfold both
  rw [run_bind, run_bind]
  cases hx : x s <;> cases hy : y t <;> rw [hx, hy] at h
  · exact h
  · exact h.elim
  · exact h.elim
  · exact h

theorem both_get {f : σ → EStateM ε σ α'} {g : τ → EStateM ε τ β'} {Q : α' → β' → σ → τ → Prop} :
    both (get >>= f) (get >>= g) Q E s t ↔ both (f s) (g t) Q E s t := Iff.rfl

theorem both_ite {c d : Prop} [Decidable c] [Decidable d] {x' : EStateM ε σ α} {y' : EStateM ε τ β} (hiff : c ↔ d)
    (h : c → both x y Q E s t) (h' : ¬ c → both x' y' Q E s t) :
    both (if c then x else x') (if d then y else y') Q E s t := by
  by_cases hc : c
  · rw [if_pos hc, if_pos (hiff.1 hc)]
    exact h hc
  · rw [if_neg hc, if_neg (mt hiff.2 hc)]
    exact h' hc

/-- What is known of the second one alone. -/
theorem both_and {P : β → τ → Prop} {F : ε → τ → Prop} (h : both x y Q E s t) (hy : wp y P F t) :
    both x y (fun a b s' t' => Q a b s' t' ∧ P b t') (fun e s' t' => E e s' t' ∧ F e t') s t := by
  unfold both at *
  unfold wp at hy
  cases hx : x s with
  | ok a s' =>
    cases hy' : y t with
    | ok b t' => rw [hx, hy'] at h; rw [hy'] at hy; exact ⟨h, hy⟩
    | error f t' => rw [hx, hy'] at h; exact h.elim
  | error e s' =>
    cases hy' : y t with
    | ok b t' => rw [hx, hy'] at h; exact h.elim
    | error f t' =>
      rw [hx, hy'] at h; rw [hy'] at hy
      obtain ⟨rfl, h⟩ := h
      exact ⟨rfl, h, hy⟩

/-- If the second one returns, both do. -/
theorem both_ok (h : both x y Q E s t) {b : β} {t' : τ} (hy : y t = .ok b t') : ∃ a s', x s = .ok a s' ∧ Q a b s' t' := by
  unfold both at h
  rw [hy] at h
  cases hx : x s with
  | ok a s' => rw [hx] at h; exact ⟨a, s', rfl, h⟩
  | error e s' => rw [hx] at h; exact h.elim

theorem both_error (h : both x y Q E s t) {e : ε} {t' : τ} (hy : y t = .error e t') :
    ∃ s', x s = .error e s' ∧ E e s' t' := by
  unfold both at h
  rw [hy] at h
  cases hx : x s with
  | ok a s' => rw [hx] at h; exact h.elim
  | error e' s' =>
    rw [hx] at h
    obtain ⟨rfl, h⟩ := h
    exact ⟨s', rfl, h⟩

/-! ### A relation that is kept -/

def Agree (R : σ → τ → Prop) (x : EStateM ε σ α) (y : EStateM ε τ α) : Prop :=
  ∀ s t, R s t → both x y (fun a b s' t' => a = b ∧ R s' t') (fun _ => R) s t

namespace Agree
variable {R : σ → τ → Prop} {x : EStateM ε σ α} {y : EStateM ε τ α}

theorem pure (a : α) : Agree R (Pure.pure a : EStateM ε σ α) (Pure.pure a : EStateM ε τ α) := fun _ _ h => ⟨rfl, h⟩

theorem throw (e : ε) : Agree R (throw e : EStateM ε σ α) (throw e : EStateM ε τ α) := fun _ _ h => ⟨rfl, h⟩

theorem bind {f : α → EStateM ε σ β} {g : α → EStateM ε τ β} (h : Agree R x y) (hf : ∀ a, Agree R (f a) (g a)) :
    Agree R (x >>= f) (y >>= g) := by
  intro s t hst
  refine both_bind (both_mono (h s t hst) ?_ fun _ _ _ => id)
  rintro a _ s' t' ⟨rfl, hst'⟩
  exact hf a s' t' hst'

theorem ite {c : Prop} [Decidable c] {x' : EStateM ε σ α} {y' : EStateM ε τ α} (h : Agree R x y) (h' : Agree R x' y') :
    Agree R (if c then x else x') (if c then y else y') := by
  split
  · exact h
  · exact h'

end Agree

end Wp
