import Kmdx.Tm.FourValidators

/-!
# Proposer rotation (`ConsensusState::enterNewRound`)

The validators are incremented in a copy, which is then overwritten with what it is a copy of; so they are the same in all
rounds of a height (`ConsensusState.rotates_iff`).
-/

namespace Kmdx.Tm

open Wp ScopeGuard Relation

variable {p : Parts}

/-- What `libtm/types` declares for a set of validators, with what is expected of it -/
structure Rotation (p : Parts) where
  Validator : Type
  getProposer : p.ValidatorSet → Validator
  copy : p.ValidatorSet → p.ValidatorSet
  incrementAccum : p.ValidatorSet → Int → p.ValidatorSet
  copy_eq : ∀ validators, copy validators = validators
  incrementAccum_add : ∀ validators (i j : Int), 0 < i → 0 < j →
    incrementAccum (incrementAccum validators i) j = incrementAccum validators (i + j)

namespace Rotation

/-- As `ConsensusState::enterNewRound` has it -/
def enterNewRound (q : Rotation p) (height round : Int) : M p Unit := do
  let rs := (← get).roundState
  if rs.height ≠ height ∨ round < rs.roundNumber ∨
      rs.roundNumber = round ∧ rs.stepType ≠ .newHeight then
    return
  let mut validators := rs.validators
  if rs.roundNumber < round then
    validators := q.copy validators
    validators := q.incrementAccum validators (round - rs.roundNumber)
  ConsensusState.updateRoundStep round .newRound
  validators := (← get).roundState.validators
  if round ≠ 0 then
    ConsensusState.clearProposal
  modifyRound fun rs => { rs with votes := p.setRoundNumber rs.votes (round + 1) }

/-- Incremented so many times, if at all -/
def rotated (q : Rotation p) (validators : p.ValidatorSet) (times : Int) : p.ValidatorSet :=
  if 0 < times then q.incrementAccum validators times else validators

/-- What is done to the copy is lost. -/
theorem enterNewRound_eq (q : Rotation p) (height round : Int) :
    q.enterNewRound height round = ConsensusState.enterNewRound height round := by
  funext s
  unfold enterNewRound ConsensusState.enterNewRound
  rw [run_bind_of_ok run_get, run_bind_of_ok run_get]
  dsimp only
  split
  · rfl
  · split
    · rfl
    · rfl

end Rotation

namespace ConsensusState

variable {r : Rules p} {s s₀ t : ConsensusState p}

theorem updates_le_of_write (h : Write r s t) : s.updates ≤ t.updates := by
  cases h with
  | precommit round t _ _ ht => cases ht <;> exact le_refl _
  | update lastCommit => exact Nat.le_succ _
  | _ => exact le_refl _

/-- Only `updateToState` writes the validators. -/
theorem validators_of_write (h : Write r s t) (hupdates : t.updates = s.updates) :
    t.roundState.validators = s.roundState.validators := by
  cases h with
  | precommit round t _ _ ht => cases ht <;> rfl
  | update lastCommit => exact absurd hupdates (Nat.succ_ne_self _)
  | _ => rfl

theorem updates_le_of_writes (h : Writes r s t) : s.updates ≤ t.updates := by
  induction h with
  | refl => exact le_refl _
  | tail _ hwrite ih => exact ih.trans (updates_le_of_write hwrite)

theorem validators_of_writes (h : Writes r s t) (hupdates : t.updates = s.updates) :
    t.roundState.validators = s.roundState.validators := by
  induction h with
  | refl => rfl
  | tail hwrites hwrite ih =>
    have hle := updates_le_of_writes hwrites
    have hle' := updates_le_of_write hwrite
    rw [validators_of_write hwrite (by omega), ih (by omega)]

/-- All steps are made of writes. -/
theorem writes_of_reaches {C : ConsensusState p → Event p → Prop} (h : Reaches C s₀ s) : Writes ({} : Rules p) s₀ s := by
  induction h with
  | refl => exact .refl
  | @tail s t _ hstep ih =>
    obtain ⟨e, -, hstep⟩ := hstep
    have hallows : ({} : Rules p).Allows s e := by
      cases e with
      | addVote vote peerID => exact fun _ _ _ => ⟨trivial, fun _ _ _ _ _ => trivial, fun _ _ _ _ _ _ _ => trivial⟩
      | enterPrevote height round => exact fun _ _ _ _ => trivial
      | enterPrecommit height round => exact fun _ _ => trivial
      | enterPrecommitWait height round => exact fun _ _ _ => trivial
      | enterCommit height round => exact fun _ _ _ _ => trivial
      | _ => trivial
    exact ih.trans (writes_step ⟨fun _ => trivial, fun _ _ _ => trivial⟩ hallows hstep)

/-- `t` is where the height that began in `s₀` is after `enterNewRound` took effect for `round`, with whatever happened
before, and whichever rounds were entered. -/
structure Enters (q : Rotation p) (s₀ : ConsensusState p) (round : Int) (t : ConsensusState p) : Prop where
  stepType : s₀.roundState.stepType = .newHeight
  roundNumber : s₀.roundState.roundNumber = 0
  entered : ∃ s, Writes ({} : Rules p) s₀ s ∧ s.updates = s₀.updates ∧ s.Passes round .newRound ∧
    q.enterNewRound s.roundState.height round s = .ok () t

/-- The validators have been incremented once a round, and another node that reaches the round has the same. -/
structure Rotates (q : Rotation p) (s₀ : ConsensusState p) (round : Int) (t : ConsensusState p) : Prop where
  validators : t.roundState.validators = q.rotated s₀.roundState.validators round
  agree : ∀ s₀' t', s₀'.roundState.validators = s₀.roundState.validators → Enters q s₀' round t' →
    t'.roundState.validators = t.roundState.validators ∧
      q.getProposer t'.roundState.validators = q.getProposer t.roundState.validators

variable {q : Rotation p} {round : Int}

theorem Enters.of_reaches {C : ConsensusState p → Event p → Prop} (hstep : s₀.roundState.stepType = .newHeight)
    (hround : s₀.roundState.roundNumber = 0) (hreaches : Reaches C s₀ s) (hupdates : s.updates = s₀.updates)
    (hpasses : s.Passes round .newRound) (hrun : q.enterNewRound s.roundState.height round s = .ok () t) :
    Enters q s₀ round t :=
  ⟨hstep, hround, s, writes_of_reaches hreaches, hupdates, hpasses, hrun⟩

theorem Enters.validators (h : Enters q s₀ round t) : t.roundState.validators = s₀.roundState.validators := by
  obtain ⟨s, hwrites, hupdates, hpasses, hrun⟩ := h.entered
  rw [q.enterNewRound_eq] at hrun
  have hleaves : Leaves (enterNewRound s.roundState.height round)
      (fun t => t.roundState.validators = s.roundState.validators) s :=
    leaves_enterNewRound (fun _ => rfl) fun _ _ => rfl
  have ht := wp_ok hleaves hrun
  rw [ht, validators_of_writes hwrites hupdates]

/-- The validators stay, so they are right if they should. -/
theorem rotates_iff (h : Enters q s₀ round t) :
    Rotates q s₀ round t ↔ q.rotated s₀.roundState.validators round = s₀.roundState.validators := by
  constructor
  · intro hrotates
    rw [← hrotates.validators, h.validators]
  · intro hstay
    refine ⟨h.validators.trans hstay.symm, fun s₀' t' hsame h' => ?_⟩
    have ht : t'.roundState.validators = t.roundState.validators := by rw [h'.validators, hsame, h.validators]
    exact ⟨ht, congrArg q.getProposer ht⟩

/-! ### Validators that are counted up -/

/-- Each increment makes it the turn of the next one of four. -/
@[reducible] def turns : Parts := { fourValidators Vote.height with ValidatorSet := Int, newHeightVoteSet := fun _ _ _ => [] }

def turnsRotation : Rotation turns where
  Validator := Int
  getProposer turn := turn
  copy turn := turn
  incrementAccum turn times := (turn + times) % 4
  copy_eq _ := rfl
  incrementAccum_add turn i j _ _ := (Int.emod_add_emod (turn + i) 4 j).trans (congrArg (· % 4) (Int.add_assoc turn i j))

def atTurn : ConsensusState turns where
  roundState := {
    height := 1
    roundNumber := 0
    stepType := .newHeight
    validators := 0
    proposal := none
    proposalBlock := none
    lockedRoundNumber := 0
    lockedBlock := none
    validRoundNumber := 0
    validBlock := none
    votes := []
    commitRoundNumber := -1
    lastCommit := none
    lastValidators := 0 }
  state := { chainID := "", lastBlockHeight := 0, validators := 0, lastValidators := 0, isEmpty := false }
  stepType := .newHeight
  proposal := none
  skipTimeoutCommit := false

/-- After round 1 comes round 4, in which it is the turn of the first one again. -/
theorem rotates_atTurn : Rotates turnsRotation atTurn 4 ((atTurn.atNewRound 1).atNewRound 4) := by
  have hreaches : Reaches (fun _ _ => True) atTurn (atTurn.atNewRound 1) := .single ⟨.enterNewRound 1 1, trivial, rfl⟩
  refine (rotates_iff (.of_reaches rfl rfl hreaches rfl (.inl (by decide)) rfl)).2 ?_
  rfl

/-- The first round that is not round 0 -/
theorem not_rotates : Enters turnsRotation atTurn 1 (atTurn.atNewRound 1) ∧
    ¬ Rotates turnsRotation atTurn 1 (atTurn.atNewRound 1) := by
  refine ⟨.of_reaches (C := fun _ _ => True) rfl rfl .refl rfl (.inl (by decide)) rfl, fun h => ?_⟩
  have h : (0 : Int) = 1 := h.validators
  cases h

end ConsensusState

end Kmdx.Tm
