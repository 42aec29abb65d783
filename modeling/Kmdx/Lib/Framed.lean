import Mathlib.Order.Defs.Unbundled
import Kmdx.Lib.Wp

/-!
# What a call may change

`R s t`: the state may be `t` where it was `s`. If that is a preorder, the calls that keep to it (`Framed`) may be put
together.
-/

namespace Frames

open Wp

variable {ε σ α β : Type} {R : σ → σ → Prop}

/-- Whether `x` returns or throws, it goes only where `R` allows. -/
def Framed (R : σ → σ → Prop) (x : EStateM ε σ α) : Prop := ∀ s, wp x (fun _ => R s) (fun _ => R s) s

namespace Framed

theorem of_modify {f : σ → σ} (hf : ∀ s, R s (f s)) : Framed R (modify f : EStateM ε σ PUnit) := hf

variable [IsPreorder σ R] {x : EStateM ε σ α}

theorem pure (a : α) : Framed R (Pure.pure a : EStateM ε σ α) := fun s => refl_of R s

theorem throw (e : ε) : Framed R (MonadExcept.throw e : EStateM ε σ α) := fun s => refl_of R s

theorem get : Framed R (MonadState.get : EStateM ε σ σ) := fun s => refl_of R s

theorem bind {f : α → EStateM ε σ β} (hx : Framed R x) (hf : ∀ a, Framed R (f a)) : Framed R (x >>= f) := by
  intro s
  rw [wp_bind]
  refine wp_mono (hx s) (fun a t ht => ?_) fun _ _ => id
  exact wp_mono (hf a t) (fun _ _ h => trans_of R ht h) fun _ _ h => trans_of R ht h

end Framed

end Frames
