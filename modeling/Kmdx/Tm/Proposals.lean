import Kmdx.Tm.FourValidators

/-!
# Proposals (`ConsensusState::setProposal`)

Where it compares the round of the proposal with the proof of lock it compares the proof of lock with itself; it does
not store the proposal; and the step it looks at first is the member of `ConsensusState`, which nothing writes.
-/

namespace Kmdx.Tm

open Wp

/-- What `libtm/types` declares for proposals. -/
structure ProposalParts (p : Parts) where
  Pubkey : Type
  Signature : Type
  getProposer : p.ValidatorSet → Pubkey
  /-- `Proposal::signBytes`, of all but the signature. -/
  signBytes : Int → RoundState p → Nat → p.Block → Int → HexBytes → String → HexBytes
  verifyBytes : Pubkey → HexBytes → Signature → Bool

variable {p : Parts}

/-- A proposal as it is received. -/
structure SignedProposal (p : Parts) (q : ProposalParts p) extends Proposal where
  height : Int
  roundState : RoundState p
  timestamp : Nat
  block : p.Block
  polBlockID : HexBytes
  signature : q.Signature

inductive ProposalError
  | errInvalidProposalPolRound
  | errorInvalidProposalSignature
deriving DecidableEq

/-- `operator==` -/
def RoundState.equals (rs other : RoundState p) : Bool :=
  rs.height = other.height ∧ rs.roundNumber = other.roundNumber ∧ rs.stepType = other.stepType

variable {q : ProposalParts p}

/-- -1 or between 0 and the round, exclusive. -/
def SignedProposal.ValidPolRound (proposal : SignedProposal p q) : Prop :=
  proposal.polRound = -1 ∨ 0 ≤ proposal.polRound ∧ proposal.polRound < proposal.roundState.roundNumber

namespace ConsensusState

/-- The signature is the proposer's. -/
def verifies (s : ConsensusState p) (proposal : SignedProposal p q) : Bool :=
  q.verifyBytes (q.getProposer s.state.validators) (q.signBytes proposal.height proposal.roundState proposal.timestamp
    proposal.block proposal.polRound proposal.polBlockID s.state.chainID) proposal.signature

def setProposal (proposal : SignedProposal p q) : EStateM ProposalError (ConsensusState p) Unit := do
  let s ← get
  -- Already have one
  if s.proposal.isSome then
    return
  if proposal.height ≠ s.roundState.height ∨ !s.roundState.equals proposal.roundState then
    return
  if .commit ≤ s.stepType then
    return
  if proposal.polRound ≠ -1 ∧ (proposal.polRound < 0 ∨ proposal.polRound ≤ proposal.polRound) then
    throw .errInvalidProposalPolRound
  if !s.verifies proposal then
    throw .errorInvalidProposalSignature

/-! ### What is to be done with a proposal -/

/-- None is stored yet, and it is for the height and the round the node is in, before the commit. -/
structure Applies (s : ConsensusState p) (proposal : SignedProposal p q) : Prop where
  none : s.proposal = none
  height : proposal.height = s.roundState.height
  round : proposal.roundState.roundNumber = s.roundState.roundNumber
  step : s.roundState.stepType < .commit

/-- The proposal becomes the node's if it is valid; otherwise the first check that fails decides, and nothing changes. -/
structure Receives (s : ConsensusState p) (proposal : SignedProposal p q) : Prop where
  stored : s.Applies proposal → proposal.ValidPolRound → s.verifies proposal = true →
    setProposal proposal s = .ok () { s with proposal := some proposal.toProposal }
  unchanged : ¬ (s.Applies proposal ∧ proposal.ValidPolRound ∧ s.verifies proposal = true) →
    after (setProposal proposal) s = s
  errPolRound : eval (setProposal proposal) s = .error .errInvalidProposalPolRound ↔
    s.Applies proposal ∧ ¬ proposal.ValidPolRound
  errSignature : eval (setProposal proposal) s = .error .errorInvalidProposalSignature ↔
    s.Applies proposal ∧ proposal.ValidPolRound ∧ s.verifies proposal = false

/-! ### What is done -/

/-- What the guards of `setProposal` let through. -/
structure Considers (s : ConsensusState p) (proposal : SignedProposal p q) : Prop where
  none : s.proposal = none
  height : proposal.height = s.roundState.height
  equals : s.roundState.equals proposal.roundState = true
  step : s.stepType < .commit

variable {s : ConsensusState p} {proposal : SignedProposal p q}

theorem setProposal_of_considers (h : s.Considers proposal) : setProposal proposal s =
    if proposal.polRound ≠ -1 then .error .errInvalidProposalPolRound s
    else if s.verifies proposal then .ok () s else .error .errorInvalidProposalSignature s := by
  unfold setProposal
  -- the proof of lock is not below itself
  have hpol : (proposal.polRound ≠ -1 ∧ (proposal.polRound < 0 ∨ proposal.polRound ≤ proposal.polRound)) ↔
      proposal.polRound ≠ -1 := and_iff_left (.inr le_rfl)
  rw [run_bind, run_get]
  simp only [h.none, h.height, h.equals, not_le.2 h.step, hpol, Option.isSome_none, ne_eq, not_true_eq_false,
    Bool.not_true, Bool.false_eq_true, or_false, if_false, run_ite]
  by_cases hm : proposal.polRound = -1
  · cases hv : s.verifies proposal with
    | true => simp [hm, run_pure]
    | false => simp [hm, run_throw]
  · simp only [hm, not_false_eq_true, if_true]
    rw [run_bind, run_throw]

theorem setProposal_of_not_considers (h : ¬ s.Considers proposal) : setProposal proposal s = .ok () s := by
  unfold setProposal
  simp only [run_bind, run_get, run_ite]
  by_cases hnone : s.proposal.isSome = true
  · rw [if_pos hnone]
    rfl
  by_cases hround : proposal.height ≠ s.roundState.height ∨ (!s.roundState.equals proposal.roundState) = true
  · rw [if_neg hnone, if_pos hround]
    rfl
  by_cases hstep : RoundStepType.commit ≤ s.stepType
  · rw [if_neg hnone, if_neg hround, if_pos hstep]
    rfl
  have hconsiders : s.Considers proposal := by
    simp only [ne_eq, not_or, not_not, Bool.not_eq_true', Bool.not_eq_false] at hround
    exact ⟨by simpa using hnone, hround.1, hround.2, not_le.1 hstep⟩
  exact absurd hconsiders h

/-- Whatever is received, nothing is stored. -/
theorem after_setProposal : after (setProposal proposal) s = s := by
  unfold after
  by_cases h : s.Considers proposal
  · rw [setProposal_of_considers h]
    split_ifs <;> rfl
  · rw [setProposal_of_not_considers h]

theorem setProposal_ne_stored (h : s.proposal = none) :
    setProposal proposal s ≠ .ok () { s with proposal := some proposal.toProposal } := by
  intro hstored
  have hafter : after (setProposal proposal) s = s := after_setProposal
  rw [after, hstored] at hafter
  exact absurd ((congrArg ConsensusState.proposal hafter).trans h) (Option.some_ne_none _)

theorem errPolRound_iff : eval (setProposal proposal) s = .error .errInvalidProposalPolRound ↔
    s.Considers proposal ∧ proposal.polRound ≠ -1 := by
  unfold eval
  by_cases h : s.Considers proposal
  · rw [setProposal_of_considers h]
    split_ifs with hpol hverifies <;> simp [h, hpol]
  · rw [setProposal_of_not_considers h]
    simp [h]

theorem errSignature_iff : eval (setProposal proposal) s = .error .errorInvalidProposalSignature ↔
    s.Considers proposal ∧ proposal.polRound = -1 ∧ s.verifies proposal = false := by
  unfold eval
  by_cases h : s.Considers proposal
  · rw [setProposal_of_considers h]
    split_ifs with hpol hverifies
    · simp [hpol]
    · simp [hverifies]
    · simp [h, not_not.1 hpol, hverifies]
  · rw [setProposal_of_not_considers h]
    simp [h]

/-- A proposal is received right if it is neither applied nor considered, or considered where one of the two checks
fails in the same way; and where it should be ignored, if it passes all that is checked. -/
theorem receives_iff (s : ConsensusState p) (proposal : SignedProposal p q) : s.Receives proposal ↔
    ¬ s.Applies proposal ∧ (¬ s.Considers proposal ∨ proposal.polRound = -1 ∧ s.verifies proposal = true) ∨
    s.Applies proposal ∧ s.Considers proposal ∧
      (¬ proposal.ValidPolRound ∨ proposal.polRound = -1 ∧ s.verifies proposal = false) := by
  have hvalid : proposal.polRound = -1 → proposal.ValidPolRound := .inl
  constructor
  · intro h
    have hpol := errPolRound_iff.symm.trans h.errPolRound
    have hsignature := errSignature_iff.symm.trans h.errSignature
    by_cases happlies : s.Applies proposal
    · refine .inr ⟨happlies, ?_⟩
      by_cases hround : proposal.ValidPolRound
      · cases hverifies : s.verifies proposal with
        | true => exact absurd (h.stored happlies hround hverifies) (setProposal_ne_stored happlies.none)
        | false =>
          obtain ⟨hconsiders, hminus, -⟩ := hsignature.2 ⟨happlies, hround, hverifies⟩
          exact ⟨hconsiders, .inr ⟨hminus, rfl⟩⟩
      · exact ⟨(hpol.2 ⟨happlies, hround⟩).1, .inl hround⟩
    · refine .inl ⟨happlies, or_iff_not_imp_left.2 fun hconsiders => ?_⟩
      have hminus : proposal.polRound = -1 := by
        by_contra hne
        exact happlies (hpol.1 ⟨not_not.1 hconsiders, hne⟩).1
      refine ⟨hminus, ?_⟩
      by_contra hverifies
      exact happlies (hsignature.1 ⟨not_not.1 hconsiders, hminus, Bool.not_eq_true _ ▸ hverifies⟩).1
  · intro h
    refine ⟨fun happlies hround hverifies => ?_, fun _ => after_setProposal, errPolRound_iff.trans ?_,
      errSignature_iff.trans ?_⟩
    · rcases h with ⟨hnot, -⟩ | ⟨-, -, hnot | ⟨-, hfalse⟩⟩
      · exact absurd happlies hnot
      · exact absurd hround hnot
      · exact absurd (hverifies.symm.trans hfalse) (by simp)
    · tauto
    · rcases h with ⟨hnot, hconsiders | ⟨-, htrue⟩⟩ | ⟨happlies, hconsiders, hnot | hminus⟩
      · tauto
      · simp [htrue]
      · tauto
      · tauto

end ConsensusState

/-- What is signed is the block, and the signature is what is signed. -/
@[reducible] def plainSignatures {reports : Vote → Int} : ProposalParts (fourValidators reports) where
  Pubkey := Unit
  Signature := HexBytes
  getProposer _ := ()
  signBytes _ _ _ block _ _ _ := block
  verifyBytes _ bytes signature := bytes = signature

/-- At height 1, before any proposal. -/
@[reducible] def withoutProposal : ConsensusState (fourValidators Vote.height) := { atHeight 1 [] with proposal := none }

/-- A signed proposal for where the node is, without a proof of lock, is not stored. -/
theorem ConsensusState.not_receives : ¬ withoutProposal.Receives (q := plainSignatures) {
    polRound := -1
    height := 1
    roundState := withoutProposal.roundState
    timestamp := 0
    block := []
    polBlockID := []
    signature := [] } := by
  intro h
  exact setProposal_ne_stored rfl (h.stored ⟨rfl, rfl, rfl, by decide⟩ (.inl rfl) rfl)

end Kmdx.Tm
