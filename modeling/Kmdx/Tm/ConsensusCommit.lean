import Kmdx.Tm.FourValidators

/-!
# The commit that advances nothing

`finalizeCommit` hands `updateToState` the state it has (applying the block, which would give the next one,
is commented out). So the height it gets to is no new one, and usually `updateToState` panics in the scope
guard of `enterCommit`, which ends the process (`ConsensusState.not_advanced`).
-/

namespace Kmdx.Tm

open Wp ScopeGuard

variable {p : Parts}

namespace ConsensusState

/-- What the comments of `finalizeCommit` and `updateToState` promise of `t` if `round` is committed in `s`. -/
structure Advanced (s : ConsensusState p) (round : Int) (t : ConsensusState p) : Prop where
  height : t.roundState.height = s.roundState.height + 1
  roundNumber : t.roundState.roundNumber = 0
  stepType : t.roundState.stepType = .newHeight
  proposal : t.roundState.proposal = none
  proposalBlock : t.roundState.proposalBlock = none
  lockedBlock : t.roundState.lockedBlock = none
  validBlock : t.roundState.validBlock = none
  commitRoundNumber : t.roundState.commitRoundNumber = -1
  votes : t.roundState.votes = p.newHeightVoteSet t.state.chainID (s.roundState.height + 1) t.state.validators
  lastCommit : t.roundState.lastCommit = p.getPrecommits s.roundState.votes round

/-- +2/3 of the precommits of `round` are for the proposed block, and `state` is the one of the height before. -/
structure Committable (s : ConsensusState p) (round : Int) : Prop where
  pos : 0 < s.roundState.height
  stepType : s.roundState.stepType < .commit
  lastBlockHeight : s.state.lastBlockHeight = s.roundState.height - 1
  majority : ∃ precommits id block, p.getPrecommits s.roundState.votes round = some precommits ∧
    p.twoThirdMajority precommits = some id ∧ id.hash.isEmpty = false ∧ s.roundState.proposalBlock = some block ∧
    p.hashesTo block id.hash = true

variable {s : ConsensusState p} {round : Int}

/-- Whatever `enterCommit` leaves behind, it is at the height it was called at. -/
theorem Committable.leaves_enterCommit (h : s.Committable round) :
    Leaves (enterCommit s.roundState.height round) (fun t => t.roundState.height = s.roundState.height) s := by
  refine ConsensusState.leaves_enterCommit rfl fun _ _ => ⟨rfl, fun _ _ lastCommit => ?_⟩
  have hnext : ((s.atCommit round).updated lastCommit).roundState.height = s.state.lastBlockHeight + 1 := rfl
  rw [hnext, h.lastBlockHeight]
  omega

theorem Committable.updateToState_panics (h : s.Committable round) (hround : round > -1) :
    wp (updateToState s.state) (fun _ _ => False) (fun exn _ => exn = .panic) (s.atCommit round) := by
  have hne : s.roundState.height ≠ s.state.lastBlockHeight := by
    rw [h.lastBlockHeight]
    omega
  unfold updateToState
  rw [wp_bind, wp_get, wp_ite, if_pos ⟨hround, h.pos, hne⟩]
  rfl

theorem Committable.tryFinalizeCommit_panics (h : s.Committable round) (hround : round > -1) :
    wp (tryFinalizeCommit s.roundState.height) (fun _ _ => False) (fun exn _ => exn = .panic) (s.atCommit round) := by
  obtain ⟨precommits, id, block, hprecommits, hid, hhash, hblock, hhashes⟩ := h.majority
  have hprecommits : p.getPrecommits (s.atCommit round).roundState.votes (s.atCommit round).roundState.commitRoundNumber =
      some precommits := hprecommits
  have hblock : (s.atCommit round).roundState.proposalBlock = some block := hblock
  have hstep : (s.atCommit round).roundState.stepType = .commit := rfl
  have hheight : (s.atCommit round).roundState.height = s.roundState.height := rfl
  have hfinalize : wp (finalizeCommit s.roundState.height) (fun _ _ => False) (fun exn _ => exn = .panic)
      (s.atCommit round) := by
    unfold finalizeCommit
    simp only [wp_bind, wp_get, hheight, hstep, hprecommits, hid, hblock, hhashes, deref, wp_pure, ne_eq,
      not_true_eq_false, or_self, Bool.not_true, Bool.false_eq_true, if_false]
    exact h.updateToState_panics hround
  unfold tryFinalizeCommit
  simp only [wp_bind, wp_get, hheight, hprecommits, hid, hhash, hblock, hhashes, deref, wp_pure, ne_eq,
    not_true_eq_false, Bool.not_true, Bool.false_eq_true, if_false]
  exact hfinalize

theorem Committable.terminates (h : s.Committable round) (hround : round > -1) :
    ∃ t, enterCommit s.roundState.height round s = .error .terminate t := by
  have hwp : wp (enterCommit s.roundState.height round) (fun _ _ => False) (fun exn _ => exn = .terminate) s := by
    obtain ⟨precommits, id, -, hprecommits, hid, -⟩ := h.majority
    have hpasses : ¬ (s.roundState.height ≠ s.roundState.height ∨ RoundStepType.commit ≤ s.roundState.stepType) := by
      simp [h.stepType]
    unfold enterCommit
    rw [wp_bind, wp_get, wp_ite, if_neg hpasses, wp_guarded]
    simp only [hprecommits, hid, deref, wp_bind, wp_pure, modifyRound, wp_modify]
    exact wp_mono (h.tryFinalizeCommit_panics hround) (fun _ _ h => h) fun _ _ _ => rfl
  rw [wp] at hwp
  cases hrun : enterCommit s.roundState.height round s with
  | ok a t =>
    rw [hrun] at hwp
    exact hwp.elim
  | error exn t =>
    rw [hrun] at hwp
    exact ⟨t, by rw [hwp]⟩

/-- A commit never leads to the next height; and but for a negative round, it ends the process. -/
theorem not_advanced (h : s.Committable round) :
    (¬ ∃ t, enterCommit s.roundState.height round s = .ok () t ∧ s.Advanced round t) ∧
    (round > -1 → ∃ t, enterCommit s.roundState.height round s = .error .terminate t) := by
  refine ⟨?_, h.terminates⟩
  rintro ⟨t, hrun, hadvanced⟩
  have hheight := h.leaves_enterCommit
  rw [Leaves, wp, hrun] at hheight
  have hnext := hadvanced.height
  have hheight : t.roundState.height = s.roundState.height := hheight
  omega

/-- The others precommit the block 2 in round 0, which arrives in round 1, in place of 1. -/
theorem committable_late : ∃ s, (atHeight 1 [1]).run ([0, 1, 2].map (precommitOf 1 0 [2]) ++
    [.enterNewRound 1 1, .blockMessage (some [2])]) = some s ∧ s.Committable 0 := by
  have hrun : ∃ s, (atHeight 1 [1]).run ([0, 1, 2].map (precommitOf 1 0 [2]) ++
      [.enterNewRound 1 1, .blockMessage (some [2])]) = some s ∧ s.roundState.height = 1 ∧
      s.roundState.stepType = .newRound ∧ s.state.lastBlockHeight = 0 ∧ s.roundState.proposalBlock = some [2] ∧
      threeOfFour (votesOf s.roundState.votes .precommit 0) = some ⟨[2], [2]⟩ := by decide +kernel
  obtain ⟨s, hs, hheight, hstep, hlast, hblock, hid⟩ := hrun
  refine ⟨s, hs, ⟨by omega, by rw [hstep]; decide, by omega, ?_⟩⟩
  exact ⟨_, _, [2], rfl, hid, rfl, hblock, rfl⟩

theorem not_advanced_late : ∃ s : ConsensusState (fourValidators Vote.height), s.Committable 0 ∧
    (¬ ∃ t, enterCommit s.roundState.height 0 s = .ok () t ∧ s.Advanced 0 t) ∧
    ∃ t, enterCommit s.roundState.height 0 s = .error .terminate t := by
  obtain ⟨s, -, hs⟩ := committable_late
  obtain ⟨hnot, hends⟩ := not_advanced hs
  exact ⟨s, hs, hnot, hends (by decide)⟩

theorem not_commit_advances : ¬ ∀ p : Parts, LawfulParts p → ∀ s₀ s : ConsensusState p, Start s₀ →
    Reaches (fun _ _ => True) s₀ s → ∀ round, s.Committable round →
    ∃ t, enterCommit s.roundState.height round s = .ok () t ∧ s.Advanced round t := by
  intro h
  obtain ⟨s, hrun, hs⟩ := committable_late
  have hreaches : Reaches (fun _ _ => True) (atHeight 1 [1]) s := Reaches.run (fun _ _ _ _ => trivial) hrun
  obtain ⟨t, ht, -⟩ := h _ lawfulParts_fourValidators _ s ⟨rfl, rfl, rfl, rfl, rfl⟩ hreaches 0 hs
  obtain ⟨u, hu⟩ := hs.terminates (by decide)
  rw [ht] at hu
  cases hu

end ConsensusState

end Kmdx.Tm
