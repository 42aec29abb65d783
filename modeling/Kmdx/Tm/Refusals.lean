import Kmdx.Tm.FourValidators

/-!
# Refused transitions

`enterPrevoteWait` and `enterCommit` have their scope guard before they count the votes, and so the step is entered also when
it is refused (`ConsensusState.refusesCleanly_iff`).
-/

namespace Kmdx.Tm

open Wp ScopeGuard

variable {p : Parts}

/-- The transitions that may be refused -/
inductive Transition
  | enterPrevoteWait (height roundNumber : Int)
  | enterPrecommit (height roundNumber : Int)
  | enterPrecommitWait (height round : Int)
  | enterCommit (height commitRound : Int)

def Transition.run : Transition → M p Unit
  | .enterPrevoteWait height roundNumber => ConsensusState.enterPrevoteWait height roundNumber
  | .enterPrecommit height roundNumber => ConsensusState.enterPrecommit height roundNumber
  | .enterPrecommitWait height round => ConsensusState.enterPrecommitWait height round
  | .enterCommit height commitRound => ConsensusState.enterCommit height commitRound

namespace ConsensusState

/-- Nothing that another transition or a commit would have written -/
structure Unchanged (s t : ConsensusState p) : Prop where
  height : t.roundState.height = s.roundState.height
  roundNumber : t.roundState.roundNumber = s.roundState.roundNumber
  stepType : t.roundState.stepType = s.roundState.stepType
  commitRoundNumber : t.roundState.commitRoundNumber = s.roundState.commitRoundNumber
  lockedRoundNumber : t.roundState.lockedRoundNumber = s.roundState.lockedRoundNumber
  lockedBlock : t.roundState.lockedBlock = s.roundState.lockedBlock
  validRoundNumber : t.roundState.validRoundNumber = s.roundState.validRoundNumber
  validBlock : t.roundState.validBlock = s.roundState.validBlock
  signed : t.signed = s.signed
  updates : t.updates = s.updates

theorem Unchanged.refl (s : ConsensusState p) : Unchanged s s := ⟨rfl, rfl, rfl, rfl, rfl, rfl, rfl, rfl, rfl, rfl⟩

/-- Whatever is thrown to the caller, nothing has changed. -/
def RefusesCleanly (s : ConsensusState p) (transition : Transition) : Prop :=
  ∀ exn t, transition.run s = .error exn t → Fatal.fatal exn = false → Unchanged s t

/-- The arguments are good, and the votes are not. -/
def GuardsFirst (s : ConsensusState p) : Transition → Prop
  | .enterPrevoteWait height round => s.roundState.height = height ∧ s.Passes round .prevoteWait ∧
    p.hasTwoThirdsAny (p.getPrevotes s.roundState.votes round) = false
  | .enterCommit height round => s.roundState.height = height ∧ s.roundState.stepType < .commit ∧
    ∃ precommits, p.getPrecommits s.roundState.votes round = some precommits ∧ p.twoThirdMajority precommits = none
  | .enterPrecommit _ _ | .enterPrecommitWait _ _ => False

/-- What is thrown to the caller comes with a state that satisfies `P`. -/
abbrev Throws (x : M p Unit) (P : ConsensusState p → Prop) (s : ConsensusState p) : Prop :=
  wp x (fun _ _ => True) (fun exn t => Fatal.fatal exn = false → P t) s

variable {s : ConsensusState p} {P : ConsensusState p → Prop}

theorem refusesCleanly_iff_throws {transition : Transition} :
    s.RefusesCleanly transition ↔ Throws transition.run (Unchanged s) s := by
  unfold RefusesCleanly Throws wp
  cases transition.run s with
  | ok a t => simp
  | error exn t =>
    constructor
    · intro h
      exact h exn t rfl
    · rintro h exn' t' ⟨⟩
      exact h

/-! ### What each of them throws -/

variable {height round : Int}

theorem enterPrevoteWait_of_guardsFirst (h : s.GuardsFirst (.enterPrevoteWait height round)) :
    enterPrevoteWait height round s = .error .transition (s.withRound fun rs => rs.updateRoundStep round .prevoteWait) := by
  obtain ⟨hheight, hpasses, hany⟩ := h
  unfold enterPrevoteWait
  rw [run_bind_of_ok run_get, if_neg (not_rejected_iff.2 ⟨hheight, hpasses⟩)]
  refine run_guarded_of_error s ?_ rfl (run_modify _)
  rw [run_ite, if_pos (by simp [hany]), run_throw]

theorem throws_enterPrevoteWait (h : ¬ s.GuardsFirst (.enterPrevoteWait height round)) :
    Throws (enterPrevoteWait height round) P s := by
  unfold enterPrevoteWait
  simp only [Throws, wp_bind, wp_get, wp_ite]
  split
  · trivial
  · rename_i hreject
    obtain ⟨hheight, hpasses⟩ := not_rejected_iff.1 hreject
    rw [wp_guarded, wp_ite]
    split
    · rename_i hany
      exact absurd ⟨hheight, hpasses, by simpa using hany⟩ h
    · trivial

/-- It finds again that there is no majority. -/
theorem tryFinalizeCommit_of_none {precommits : p.VoteSet}
    (hprecommits : p.getPrecommits s.roundState.votes s.roundState.commitRoundNumber = some precommits)
    (hnone : p.twoThirdMajority precommits = none) : tryFinalizeCommit s.roundState.height s = .ok () s := by
  unfold tryFinalizeCommit
  simp [run_bind, run_get, deref, hprecommits, hnone, run_pure]

theorem enterCommit_of_guardsFirst (h : s.GuardsFirst (.enterCommit height round)) :
    enterCommit height round s = .error .panicEnterRound (s.atCommit round) := by
  obtain ⟨rfl, hstep, precommits, hprecommits, hnone⟩ := h
  have htry : tryFinalizeCommit s.roundState.height (s.atCommit round) = .ok () (s.atCommit round) :=
    tryFinalizeCommit_of_none (s := s.atCommit round) hprecommits hnone
  unfold enterCommit
  rw [run_bind_of_ok run_get]
  dsimp only
  rw [if_neg (by simpa using hstep)]
  refine run_guarded_of_error s ?_ rfl ?_
  · simp [run_bind, deref, hprecommits, run_pure, hnone, run_throw]
  · unfold modifyRound
    rw [run_bind_of_ok (run_modify _)]
    exact htry

theorem throws_enterCommit (h : ¬ s.GuardsFirst (.enterCommit height round)) :
    Throws (enterCommit height round) P s := by
  unfold enterCommit
  simp only [Throws, wp_bind, wp_get, wp_ite]
  split
  · trivial
  · rename_i hreject
    simp only [not_or, not_not, not_le, ne_eq] at hreject
    rw [wp_guarded]
    cases hprecommits : p.getPrecommits s.roundState.votes round with
    | none =>
      intro h
      cases h
    | some precommits =>
      simp only [deref, wp_bind, wp_pure]
      cases hmajority : p.twoThirdMajority precommits with
      | none => exact absurd ⟨hreject.1, hreject.2, precommits, hprecommits, hmajority⟩ h
      | some id =>
        -- what the guard throws ends the process
        show wp _ (fun _ _ => True) (fun _ t => Fatal.fatal (Fatal.terminate : Exn) = false → P t) s
        refine wp_of_forall (fun _ _ => trivial) fun _ _ hfatal => ?_
        rw [Fatal.fatal_terminate] at hfatal
        cases hfatal

/-- Its guard writes what is there already. -/
theorem throws_enterPrecommit : Throws (enterPrecommit height round) (Unchanged s) s := by
  unfold enterPrecommit
  simp only [Throws, wp_bind, wp_get, wp_ite]
  split
  · trivial
  · rw [wp_guarded]
    cases p.twoThirdMajority (p.getPrevotes s.roundState.votes round) with
    | none => trivial
    | some id =>
      simp only [wp_bind, wp_ite, wp_throw]
      split
      · exact fun _ => .refl s
      split
      · split
        · trivial
        · trivial
      · cases s.roundState.proposalBlock with
        | none => exact fun _ => .refl s
        | some block =>
          simp only [deref, wp_pure]
          split
          · trivial
          · trivial

theorem throws_enterPrecommitWait : Throws (enterPrecommitWait height round) (Unchanged s) s := by
  unfold enterPrecommitWait
  simp only [Throws, wp_bind, wp_get, wp_ite]
  split
  · trivial
  · cases p.getPrecommits s.roundState.votes round with
    | none => exact fun _ => .refl s
    | some precommits =>
      simp only [deref, wp_pure]
      split
      · exact fun _ => .refl s
      · trivial

/-- What is refused changes nothing, but for the two that have their guard first. -/
theorem refusesCleanly_iff (s : ConsensusState p) (transition : Transition) :
    s.RefusesCleanly transition ↔ ¬ s.GuardsFirst transition := by
  constructor
  · intro hclean hguards
    cases transition with
    | enterPrevoteWait height round =>
      have h := hclean _ _ (enterPrevoteWait_of_guardsFirst hguards) rfl
      obtain ⟨-, hpasses, -⟩ := hguards
      rcases hpasses with hlt | ⟨-, hlt⟩
      · exact hlt.ne h.roundNumber.symm
      · exact hlt.ne h.stepType.symm
    | enterCommit height round =>
      have h := hclean _ _ (enterCommit_of_guardsFirst hguards) rfl
      exact hguards.2.1.ne h.stepType.symm
    | enterPrecommit _ _ => exact hguards
    | enterPrecommitWait _ _ => exact hguards
  · intro hguards
    rw [refusesCleanly_iff_throws]
    cases transition with
    | enterPrevoteWait height round => exact throws_enterPrevoteWait hguards
    | enterPrecommit height round => exact throws_enterPrecommit
    | enterPrecommitWait height round => exact throws_enterPrecommitWait
    | enterCommit height round => exact throws_enterCommit hguards

/-- Nobody has voted. -/
theorem not_refusesCleanly : ¬ (atHeight 1 [1] : ConsensusState (fourValidators Vote.height)).RefusesCleanly
    (.enterPrevoteWait 1 0) ∧
    ¬ (atHeight 1 [1] : ConsensusState (fourValidators Vote.height)).RefusesCleanly (.enterCommit 1 0) := by
  constructor
  · intro h
    have h := (h .transition _ rfl rfl).stepType
    cases h
  · intro h
    have h := (h .panicEnterRound _ rfl rfl).stepType
    cases h

end ConsensusState

end Kmdx.Tm
