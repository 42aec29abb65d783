import Mathlib.Algebra.Order.BigOperators.Group.Finset
import Mathlib.Data.Fintype.BigOperators

/-!
# Voting in rounds

Each round has a vote for a polka and a vote to precommit, and what more than two thirds of the power
precommit is decided. `Locking` is what keeps the voters that are not faulty from deciding twice: nothing
is precommitted but behind a polka, and who has precommitted `x` votes for something else only behind a later
polka for something else. Then there is one decision, whatever the rounds (`Locking.eq_of_commit`).
-/

namespace Ballots

open Relation

variable {S V X : Type*}

/-! ### Quorums -/

section Quorum
variable [Fintype V] {power : V → Nat} {faulty Q Q' : Set V}

/-- Voters with more than two thirds of the power. -/
def Quorum (power : V → Nat) (Q : Set V) : Prop :=
  ∃ A : Finset V, (∀ v ∈ A, v ∈ Q) ∧ 2 * ∑ v, power v < 3 * ∑ v ∈ A, power v

theorem Quorum.mono (h : Quorum power Q) (hQ : Q ⊆ Q') : Quorum power Q' :=
  let ⟨A, hA, hpower⟩ := h; ⟨A, fun v hv => hQ (hA v hv), hpower⟩

/-- No more than a third of the power. -/
def AtMostThird (power : V → Nat) (faulty : Set V) : Prop :=
  ∀ A : Finset V, (∀ v ∈ A, v ∈ faulty) → 3 * ∑ v ∈ A, power v ≤ ∑ v, power v

/-- Two quorums have a voter in common that is not faulty. -/
theorem Quorum.exists_inter (h : Quorum power Q) (h' : Quorum power Q') (hfaulty : AtMostThird power faulty) :
    ∃ v, v ∉ faulty ∧ v ∈ Q ∧ v ∈ Q' := by
  classical
  obtain ⟨A, hA, hpower⟩ := h
  obtain ⟨A', hA', hpower'⟩ := h'
  by_contra hnone
  have hinter : 3 * ∑ v ∈ A ∩ A', power v ≤ ∑ v, power v := by
    refine hfaulty _ fun v hv => ?_
    by_contra hv'
    obtain ⟨hvA, hvA'⟩ := Finset.mem_inter.1 hv
    exact hnone ⟨v, hv', hA v hvA, hA' v hvA'⟩
  have hunion : ∑ v ∈ A ∪ A', power v ≤ ∑ v, power v := Finset.sum_le_sum_of_subset (Finset.subset_univ _)
  have hsum : ∑ v ∈ A ∪ A', power v + ∑ v ∈ A ∩ A', power v = ∑ v ∈ A, power v + ∑ v ∈ A', power v :=
    Finset.sum_union_inter
  omega

end Quorum

/-! ### Locking -/

/-- What has been voted for, by whom and in which round. -/
structure Votes (S V X : Type*) where
  prevoted : S → V → Int → X → Prop
  precommitted : S → V → Int → X → Prop

/-- Those that are faulty, and those that voted for `x`. -/
def Votes.polka (b : Votes S V X) (faulty : Set V) (s : S) (round : Int) (x : X) : Set V :=
  {v | v ∈ faulty ∨ b.prevoted s v round x}

def Votes.commit (b : Votes S V X) (faulty : Set V) (s : S) (round : Int) (x : X) : Set V :=
  {v | v ∈ faulty ∨ b.precommitted s v round x}

/-- How the voters that are not faulty vote, with `nil` for no value. -/
structure Locking (b : Votes S V X) (nil : X) (quorum : Set V → Prop) (faulty : Set V) (Inv : S → Prop)
    (step : S → S → Prop) : Prop where
  inv : ∀ {s t}, Inv s → step s t → Inv t
  prevoted : ∀ {s t v r x}, Inv s → step s t → b.prevoted s v r x → b.prevoted t v r x
  precommitted : ∀ {s t v r x}, Inv s → step s t → b.precommitted s v r x → b.precommitted t v r x
  once : ∀ {s v r x y}, Inv s → v ∉ faulty → b.precommitted s v r x → b.precommitted s v r y → x = y
  /-- Who has voted in a round has done with the rounds before. -/
  order : ∀ {s t v r r' x y}, Inv s → step s t → v ∉ faulty → b.prevoted s v r' y → r < r' →
    b.precommitted t v r x → b.precommitted s v r x
  behind : ∀ {s v r x}, Inv s → v ∉ faulty → x ≠ nil → b.precommitted s v r x → quorum (b.polka faulty s r x)
  unlock : ∀ {s t v r r' x y}, Inv s → step s t → v ∉ faulty → x ≠ nil → b.precommitted t v r x →
    b.prevoted t v r' y → ¬ b.prevoted s v r' y → r < r' → y ≠ x →
    ∃ r'' z, z ≠ x ∧ r < r'' ∧ r'' ≤ r' ∧ quorum (b.polka faulty s r'' z)

namespace Locking

variable {b : Votes S V X} {nil : X} {quorum : Set V → Prop} {faulty : Set V} {Inv : S → Prop} {step : S → S → Prop}
variable {s₀ s t : S} {v : V} {r r' : Int} {x y : X}

section

variable (h : Locking b nil quorum faulty Inv step) (hs : Inv s) (hrun : ReflTransGen step s t)
include h hs hrun

theorem inv_of_run : Inv t := by
  induction hrun with
  | refl => exact hs
  | tail _ hstep ih => exact h.inv ih hstep

theorem prevoted_of_run (hx : b.prevoted s v r x) : b.prevoted t v r x := by
  induction hrun with
  | refl => exact hx
  | tail hst hstep ih => exact h.prevoted (h.inv_of_run hs hst) hstep ih

theorem precommitted_of_run (hx : b.precommitted s v r x) : b.precommitted t v r x := by
  induction hrun with
  | refl => exact hx
  | tail hst hstep ih => exact h.precommitted (h.inv_of_run hs hst) hstep ih

/-- What is precommitted at the end has been precommitted before any prevote of a later round. -/
theorem order_of_run (hv : v ∉ faulty) (hy : b.prevoted s v r' y) (hlt : r < r') (hx : b.precommitted t v r x) :
    b.precommitted s v r x := by
  induction hrun with
  | refl => exact hx
  | tail hst hstep ih =>
    exact ih (h.order (h.inv_of_run hs hst) hstep hv (h.prevoted_of_run hs hst hy) hlt hx)

end

/-- Once a quorum precommits `x`, those of it that are not faulty vote for nothing else in the rounds after. By
induction on the run: the first to do so has seen a later polka for something else, and one of them is in that. -/
theorem eq_of_prevoted (h : Locking b nil quorum faulty Inv step)
    (hquorum : ∀ {Q Q'}, quorum Q → quorum Q' → ∃ v, v ∉ faulty ∧ v ∈ Q ∧ v ∈ Q') (hs₀ : Inv s₀)
    (hinit : ∀ v r x, v ∉ faulty → ¬ b.prevoted s₀ v r x) (hx : x ≠ nil) (hcommit : quorum (b.commit faulty t r x))
    (hrun : ReflTransGen step s₀ s) (hrest : ReflTransGen step s t) (hv : v ∉ faulty)
    (hprecommitted : b.precommitted t v r x) (hy : b.prevoted s v r' y) (hlt : r < r') : y = x := by
  induction hrun generalizing v r' y with
  | refl => exact absurd hy (hinit _ _ _ hv)
  | @tail s u hs hstep ih =>
    have hs' := h.inv_of_run hs₀ hs
    by_contra hne
    have hold : ∀ {v r' y}, v ∉ faulty → b.precommitted t v r x → b.prevoted s v r' y → r < r' → y = x :=
      fun hv hx hy hlt => ih (.head hstep hrest) hv hx hy hlt
    by_cases hbefore : b.prevoted s v r' y
    · exact hne (hold hv hprecommitted hbefore hlt)
    have hu : b.precommitted u v r x := h.order_of_run (h.inv hs' hstep) hrest hv hy hlt hprecommitted
    obtain ⟨r'', z, hz, hlt', -, hpolka⟩ := h.unlock hs' hstep hv hx hu hy hbefore hlt hne
    obtain ⟨w, hw, hwx, hwz⟩ := hquorum hcommit hpolka
    exact hz (hold hw (hwx.resolve_left hw) (hwz.resolve_left hw) hlt')

/-- In any run, what is decided at one time in one round is decided at all times in all rounds. -/
theorem eq_of_commit (h : Locking b nil quorum faulty Inv step)
    (hquorum : ∀ {Q Q'}, quorum Q → quorum Q' → ∃ v, v ∉ faulty ∧ v ∈ Q ∧ v ∈ Q')
    (hmono : ∀ {Q Q'}, quorum Q → Q ⊆ Q' → quorum Q') (hs₀ : Inv s₀)
    (hinit : ∀ v r x, v ∉ faulty → ¬ b.prevoted s₀ v r x) (hs : ReflTransGen step s₀ s)
    (hst : ReflTransGen step s t) (hx : x ≠ nil)
    (hy : y ≠ nil) (hcommit : quorum (b.commit faulty s r x)) (hcommit' : quorum (b.commit faulty t r' y)) : x = y := by
  have hrun := hs.trans hst
  have ht := h.inv_of_run hs₀ hrun
  have hcommit : quorum (b.commit faulty t r x) :=
    hmono hcommit fun v hv => hv.imp_right (h.precommitted_of_run (h.inv_of_run hs₀ hs) hst)
  -- one of those who precommit `y` has precommitted behind a polka, and one of this polka is among the others
  have hlater : ∀ {x y r r'}, x ≠ nil → y ≠ nil → quorum (b.commit faulty t r x) →
      quorum (b.commit faulty t r' y) → r < r' → y = x := by
    intro x y r r' hx hy hcommit hcommit' hlt
    obtain ⟨v, hv, -, hvy⟩ := hquorum hcommit' hcommit'
    have hpolka := h.behind ht hv hy (hvy.resolve_left hv)
    obtain ⟨w, hw, hwx, hwy⟩ := hquorum hcommit hpolka
    exact h.eq_of_prevoted hquorum hs₀ hinit hx hcommit hrun .refl hw (hwx.resolve_left hw) (hwy.resolve_left hw) hlt
  rcases lt_trichotomy r r' with hlt | rfl | hlt
  · exact (hlater hx hy hcommit hcommit' hlt).symm
  · obtain ⟨v, hv, hvx, hvy⟩ := hquorum hcommit hcommit'
    exact h.once ht hv (hvx.resolve_left hv) (hvy.resolve_left hv)
  · exact hlater hy hx hcommit' hcommit hlt

end Locking

end Ballots
