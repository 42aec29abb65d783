/-!
# Weakest preconditions of stateful calls that may throw

`wp x Q E s`: run from `s`, the call `x` either returns in a state satisfying `Q` or throws in a
state satisfying `E`. The state survives a throw (`EStateM` with no backtracking), as the objects of
a C++ program do.
-/

namespace Wp

variable {ε σ α β : Type}

/-- `x` from `s` returns into `Q` or throws into `E`. -/
def wp (x : EStateM ε σ α) (Q : α → σ → Prop) (E : ε → σ → Prop) (s : σ) : Prop :=
  match x s with
  | .ok a s' => Q a s'
  | .error e s' => E e s'

/-- The state `x` leaves behind, returning or throwing. -/
def after (x : EStateM ε σ α) (s : σ) : σ :=
  match x s with
  | .ok _ s' => s'
  | .error _ s' => s'

/-- What `x` returns or throws. -/
def eval (x : EStateM ε σ α) (s : σ) : Except ε α :=
  match x s with
  | .ok a _ => .ok a
  | .error e _ => .error e

variable {Q : α → σ → Prop} {E : ε → σ → Prop} {s : σ}

/-! ### Running a call -/

theorem run_pure (a : α) : (pure a : EStateM ε σ α) s = .ok a s := rfl

theorem run_bind (x : EStateM ε σ α) (f : α → EStateM ε σ β) :
    (x >>= f) s = match x s with
      | .ok a s' => f a s'
      | .error e s' => .error e s' := by
  show EStateM.bind x f s = _
  unfold EStateM.bind
  cases x s <;> rfl

variable {x : EStateM ε σ α}

theorem run_bind_of_ok {a : α} {s' : σ} (h : x s = .ok a s') (f : α → EStateM ε σ β) : (x >>= f) s = f a s' := by
  rw [run_bind, h]

theorem run_bind_of_error {e : ε} {s' : σ} (h : x s = .error e s') (f : α → EStateM ε σ β) :
    (x >>= f) s = .error e s' := by
  rw [run_bind, h]

/-- A sequence that returns, taken apart. -/
theorem exists_of_bind_ok {f : α → EStateM ε σ β} {b : β} {t : σ}
    (h : (x >>= f) s = .ok b t) : ∃ a s', x s = .ok a s' ∧ f a s' = .ok b t := by
  rw [run_bind] at h
  cases hx : x s with
  | ok a s' => rw [hx] at h; exact ⟨a, s', rfl, h⟩
  | error e s' => rw [hx] at h; cases h

theorem run_get : (get : EStateM ε σ σ) s = .ok s s := rfl

theorem run_set (s' : σ) : (set s' : EStateM ε σ PUnit) s = .ok ⟨⟩ s' := rfl

theorem run_modify (f : σ → σ) : (modify f : EStateM ε σ PUnit) s = .ok ⟨⟩ (f s) := rfl

theorem run_map (f : α → β) (x : EStateM ε σ α) :
    (f <$> x) s = match x s with
      | .ok a s' => .ok (f a) s'
      | .error e s' => .error e s' := by
  show EStateM.map f x s = _
  unfold EStateM.map
  cases x s <;> rfl

theorem run_ite (c : Prop) [Decidable c] (x y : EStateM ε σ α) :
    (if c then x else y) s = if c then x s else y s := by
  split <;> rfl

theorem run_tryCatch (x : EStateM ε σ α) (h : ε → EStateM ε σ α) :
    (tryCatch x h) s = match x s with
      | .ok a s' => .ok a s'
      | .error e s' => h e s' := by
  show EStateM.tryCatch x h s = _
  unfold EStateM.tryCatch
  cases x s <;> rfl

theorem run_throw (e : ε) : (throw e : EStateM ε σ α) s = .error e s := rfl

/-! ### Preconditions -/

@[simp] theorem wp_pure (a : α) : wp (pure a) Q E s ↔ Q a s := Iff.rfl

@[simp] theorem wp_bind (x : EStateM ε σ α) (f : α → EStateM ε σ β) {Q : β → σ → Prop} :
    wp (x >>= f) Q E s ↔ wp x (fun a => wp (f a) Q E) E s := by
  unfold wp
  rw [run_bind]
  cases x s <;> rfl

@[simp] theorem wp_map (f : α → β) (x : EStateM ε σ α) {Q : β → σ → Prop} :
    wp (f <$> x) Q E s ↔ wp x (fun a => Q (f a)) E s := by
  show wp (EStateM.map f x) Q E s ↔ _
  unfold wp EStateM.map
  cases x s <;> rfl

theorem wp_discard (x : EStateM ε σ α) {Q : PUnit → σ → Prop} : wp (discard x) Q E s ↔ wp x (fun _ => Q ⟨⟩) E s :=
  wp_map _ x

@[simp] theorem wp_get {Q : σ → σ → Prop} : wp (get : EStateM ε σ σ) Q E s ↔ Q s s := Iff.rfl

@[simp] theorem wp_set (s' : σ) {Q : PUnit → σ → Prop} :
    wp (set s' : EStateM ε σ PUnit) Q E s ↔ Q ⟨⟩ s' := Iff.rfl

@[simp] theorem wp_modify (f : σ → σ) {Q : PUnit → σ → Prop} :
    wp (modify f : EStateM ε σ PUnit) Q E s ↔ Q ⟨⟩ (f s) := Iff.rfl

@[simp] theorem wp_throw (e : ε) : wp (throw e : EStateM ε σ α) Q E s ↔ E e s := Iff.rfl

theorem wp_ite (c : Prop) [Decidable c] (x y : EStateM ε σ α) :
    wp (if c then x else y) Q E s ↔ if c then wp x Q E s else wp y Q E s := by
  split <;> rfl

theorem wp_tryCatch (x : EStateM ε σ α) (h : ε → EStateM ε σ α) :
    wp (tryCatch x h) Q E s ↔ wp x Q (fun e => wp (h e) Q E) s := by
  show wp (EStateM.tryCatch x h) Q E s ↔ _
  unfold wp EStateM.tryCatch
  cases x s <;> rfl

section

variable {x : EStateM ε σ α}

theorem wp_mono {Q' : α → σ → Prop} {E' : ε → σ → Prop} (h : wp x Q E s)
    (hQ : ∀ a s', Q a s' → Q' a s') (hE : ∀ e s', E e s' → E' e s') : wp x Q' E' s := by
  unfold wp at *
  cases hx : x s with
  | ok a s' => rw [hx] at h; exact hQ a s' h
  | error e s' => rw [hx] at h; exact hE e s' h

theorem wp_of_forall (hQ : ∀ a s', Q a s') (hE : ∀ e s', E e s') : wp x Q E s := by
  unfold wp
  cases x s with
  | ok a s' => exact hQ a s'
  | error e s' => exact hE e s'

theorem wp_and {Q' : α → σ → Prop} {E' : ε → σ → Prop} (h : wp x Q E s) (h' : wp x Q' E' s) :
    wp x (fun a s' => Q a s' ∧ Q' a s') (fun e s' => E e s' ∧ E' e s') s := by
  unfold wp at *
  cases hx : x s with
  | ok a s' => rw [hx] at h h'; exact ⟨h, h'⟩
  | error e s' => rw [hx] at h h'; exact ⟨h, h'⟩

theorem wp_of_eq_ok {a : α} {s' : σ} (hx : x s = .ok a s') (h : Q a s') : wp x Q E s := by
  unfold wp; rw [hx]; exact h

theorem wp_ok {a : α} {s' : σ} (h : wp x Q E s) (hx : x s = .ok a s') : Q a s' := by
  unfold wp at h; rwa [hx] at h

/-- The postcondition may speak of the run itself. -/
theorem wp_run (h : wp x Q E s) : wp x (fun a s' => x s = .ok a s' ∧ Q a s') E s := by
  unfold wp at *
  cases hx : x s with
  | ok a s' => rw [hx] at h; exact ⟨rfl, h⟩
  | error e s' => rw [hx] at h; exact h

theorem wp_error {e : ε} {s' : σ} (h : wp x Q E s) (hx : x s = .error e s') : E e s' := by
  unfold wp at h; rwa [hx] at h

/-- A call that cannot throw returns. -/
theorem exists_ok_of_wp (h : wp x Q (fun _ _ => False) s) : ∃ a s', x s = .ok a s' ∧ Q a s' := by
  unfold wp at h
  cases hx : x s with
  | ok a s' => rw [hx] at h; exact ⟨a, s', rfl, h⟩
  | error e s' => rw [hx] at h; exact h.elim

end

/-- What each call of a loop keeps. -/
theorem wp_forM {I : σ → Prop} {f : α → EStateM ε σ PUnit} {l : List α}
    (hf : ∀ a ∈ l, ∀ s, I s → wp (f a) (fun _ => I) E s) (h : I s) : wp (l.forM f) (fun _ => I) E s := by
  induction l generalizing s with
  | nil => exact h
  | cons a l ih =>
    rw [List.forM_eq_forM, List.forM_cons, wp_bind]
    refine wp_mono (hf a List.mem_cons_self s h) (fun _ s' h' => ?_) fun _ _ => id
    exact ih (fun b hb => hf b (List.mem_cons_of_mem a hb)) h'

theorem wp_after {P : σ → Prop} (h : wp x (fun _ => P) (fun _ => P) s) : P (after x s) := by
  unfold wp at h; unfold after
  cases hx : x s <;> rw [hx] at h <;> exact h

/-! ### What a call returns, from any state -/

/-- Whatever `x` returns satisfies `P`. -/
def Returns (P : α → Prop) (x : EStateM ε σ α) : Prop := ∀ a s s', x s = .ok a s' → P a

namespace Returns
variable {P : α → Prop} {P' : β → Prop} {x : EStateM ε σ α}

theorem pure {a : α} (h : P a) : Returns P (Pure.pure a : EStateM ε σ α) := by
  rintro _ _ _ ⟨⟩; exact h

theorem throw (e : ε) : Returns P (throw e : EStateM ε σ α) := nofun

theorem bind {f : α → EStateM ε σ β} (hx : Returns P x) (hf : ∀ a, P a → Returns P' (f a)) :
    Returns P' (x >>= f) := by
  intro b s s' h
  rw [run_bind] at h
  cases hr : x s with
  | ok a t => rw [hr] at h; exact hf a (hx a s t hr) b t s' h
  | error e t => rw [hr] at h; cases h

/-- What is returned first does not matter. -/
theorem bind_right {f : α → EStateM ε σ β} (hf : ∀ a, Returns P' (f a)) : Returns P' (x >>= f) :=
  bind (P := fun _ => True) (fun _ _ _ _ => trivial) fun a _ => hf a

theorem ite {c : Prop} [Decidable c] {y : EStateM ε σ α} (hx : c → Returns P x) (hy : ¬c → Returns P y) :
    Returns P (if c then x else y) := by
  split
  · exact hx ‹_›
  · exact hy ‹_›

theorem tryCatch {h : ε → EStateM ε σ α} (hx : Returns P x) (hh : ∀ e, Returns P (h e)) :
    Returns P (tryCatch x h) := by
  intro a s s' hr
  have hr : EStateM.tryCatch x h s = .ok a s' := hr
  unfold EStateM.tryCatch at hr
  cases hx' : x s with
  | ok b t =>
    rw [hx'] at hr
    cases hr
    exact hx _ _ _ hx'
  | error e t => rw [hx'] at hr; exact hh e _ _ _ hr

theorem wp (h : Returns P x) (s : σ) : wp x (fun a _ => P a) (fun _ _ => True) s := by
  unfold Wp.wp
  cases hx : x s with
  | ok a s' => exact h a s s' hx
  | error e s' => trivial

theorem mono {Q' : α → Prop} (h : Returns P x) (hQ : ∀ a, P a → Q' a) : Returns Q' x :=
  fun a s s' hr => hQ a (h a s s' hr)

end Returns

theorem eval_of_eq_ok {a : α} {s' : σ} (hx : x s = .ok a s') : eval x s = .ok a := by
  rw [eval, hx]

end Wp
