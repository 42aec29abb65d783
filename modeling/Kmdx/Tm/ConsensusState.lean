import Mathlib.Data.Prod.Lex
import Kmdx.Core
import Kmdx.Lib.ScopeGuard

/-!
# The consensus state machine (`libtm/consensus`, `libtm/types`)

What `libtm` declares without a body (the sets of votes and of validators, the blocks) is a parameter,
`Parts`. Events, logs and timeouts go to others and are left out; so are the times, which nothing is decided
by. `signAddVote` is declared only, too: `ConsensusState::signed` notes what it is called with.

A handler that calls a member of a null pointer is over, and so is the process (`Exn.nullPointer`); the same
is true if a scope guard throws (`Exn.terminate`).
-/

namespace Kmdx.Tm

open ScopeGuard

abbrev HexBytes := List UInt8

structure BlockID where
  bites : HexBytes := []
  hash : HexBytes := []
deriving DecidableEq

def BlockID.isEmpty (id : BlockID) : Bool := id.bites.isEmpty

inductive VoteType
  | prevote
  | precommit
  | firstCommit
deriving DecidableEq

structure Vote where
  validatorAddress : HexBytes := []
  validatorIndex : Int := 0
  height : Int
  roundNumber : Int
  type : VoteType
  blockID : BlockID := {}
deriving DecidableEq

structure Proposal where
  /-- -1 if null. -/
  polRound : Int := -1

inductive RoundStepType
  | newHeight
  | newRound
  | propose
  | prevote
  | prevoteWait
  | precommit
  | precommitWait
  | commit
deriving DecidableEq

namespace RoundStepType

/-- The number of the step. -/
def toNat : RoundStepType → Nat
  | newHeight => 1
  | newRound => 2
  | propose => 3
  | prevote => 4
  | prevoteWait => 5
  | precommit => 6
  | precommitWait => 7
  | commit => 8

theorem toNat_injective : Function.Injective toNat := by
  intro a b h
  cases a <;> cases b <;> first | rfl | cases h

instance : LinearOrder RoundStepType := LinearOrder.lift' toNat toNat_injective

theorem le_iff {a b : RoundStepType} : a ≤ b ↔ a.toNat ≤ b.toNat := Iff.rfl

theorem lt_iff {a b : RoundStepType} : a < b ↔ a.toNat < b.toNat := Iff.rfl

end RoundStepType

/-- What `libtm/types` declares. -/
structure Parts where
  ValidatorSet : Type
  Block : Type
  VoteSet : Type
  HeightVoteSet : Type
  /-- `Block::hashesTo` -/
  hashesTo : Block → HexBytes → Bool
  getBlockHash : Block → HexBytes
  /-- `VoteSet::twoThirdMajority`, with what it writes to its argument if it returns true. -/
  twoThirdMajority : VoteSet → Option BlockID
  hasTwoThirdsAny : VoteSet → Bool
  hasTwoThirdMajority : VoteSet → Bool
  hasAll : VoteSet → Bool
  hasAllVotes : VoteSet → Bool
  /-- `VoteSet::addVote`; none if it throws. -/
  addVoteToSet : VoteSet → Vote → Option VoteSet
  /-- The constructor of `HeightVoteSet`. -/
  newHeightVoteSet : String → Int → ValidatorSet → HeightVoteSet
  getPrevotes : HeightVoteSet → Int → VoteSet
  /-- None for a null pointer. -/
  getPrecommits : HeightVoteSet → Int → Option VoteSet
  polInfo : HeightVoteSet → Int
  /-- `HeightVoteSet::addVote`, with what it returns; none if it throws. -/
  addVote : HeightVoteSet → Vote → HexBytes → Option Int × HeightVoteSet
  setRoundNumber : HeightVoteSet → Int → HeightVoteSet
  isEmpty : HeightVoteSet → Bool

/-- What is expected of the votes and the blocks. -/
structure LawfulParts (p : Parts) : Prop where
  hashesTo_iff : ∀ block hash, p.hashesTo block hash = true ↔ p.getBlockHash block = hash
  /-- Each vote is stored once, so what has +2/3 of the prevotes keeps them. -/
  addVote : ∀ votes vote peerID round id, p.twoThirdMajority (p.getPrevotes votes round) = some id →
    p.twoThirdMajority (p.getPrevotes (p.addVote votes vote peerID).2 round) = some id
  setRoundNumber : ∀ votes number round,
    p.twoThirdMajority (p.getPrevotes (p.setRoundNumber votes number) round) =
      p.twoThirdMajority (p.getPrevotes votes round)
  /-- `polInfo` is the last round with a polka. -/
  polInfo : ∀ votes round id, p.twoThirdMajority (p.getPrevotes votes round) = some id → round ≤ p.polInfo votes

variable {p : Parts}

structure State (p : Parts) where
  chainID : String
  lastBlockHeight : Int
  validators : p.ValidatorSet
  lastValidators : p.ValidatorSet
  /-- What `isEmpty` returns, which is declared only. -/
  isEmpty : Bool

structure RoundState (p : Parts) where
  height : Int
  roundNumber : Int
  stepType : RoundStepType
  validators : p.ValidatorSet
  proposal : Option Proposal
  proposalBlock : Option p.Block
  lockedRoundNumber : Int
  lockedBlock : Option p.Block
  validRoundNumber : Int
  validBlock : Option p.Block
  votes : p.HeightVoteSet
  commitRoundNumber : Int
  lastCommit : Option p.VoteSet
  lastValidators : p.ValidatorSet

namespace RoundState

def updateRoundStep (rs : RoundState p) (number : Int) (type : RoundStepType) : RoundState p :=
  { rs with roundNumber := number, stepType := type }

/-- Height, round and step, in lexicographic order. -/
def time (rs : RoundState p) : Int ×ₗ Int ×ₗ RoundStepType := toLex (rs.height, toLex (rs.roundNumber, rs.stepType))

end RoundState

/-- A call of `signAddVote`: what is to be signed (none for nil), and where. -/
structure Signed (p : Parts) where
  type : VoteType
  hash : Option HexBytes
  roundState : RoundState p

structure ConsensusState (p : Parts) where
  roundState : RoundState p
  state : State p
  /-- The member of this name is not the one of `roundState`. -/
  stepType : RoundStepType
  proposal : Option Proposal
  skipTimeoutCommit : Bool
  signed : List (Signed p) := []
  /-- How often `updateToState` has set the height. -/
  updates : Nat := 0

inductive Exn
  | nullPointer
  | terminate
  | panic
  | panicNoPolka
  | panicInvalidHash
  | panicEnterRound
  | transition
  | invalidPolRound
  | voteHeightMismatch
  | unexpectedVoteType
  /-- What the sets of votes throw. -/
  | voteSet
deriving DecidableEq

instance : Fatal Exn where
  fatal
    | .nullPointer | .terminate => true
    | _ => false
  terminate := .terminate
  fatal_terminate := rfl

/-- A member of `ConsensusState`. -/
abbrev M (p : Parts) (α : Type) := EStateM Exn (ConsensusState p) α

/-- `operator->` -/
def deref {α : Type} (pointer : Option α) : M p α :=
  match pointer with
  | some a => return a
  | none => throw .nullPointer

/-- Writes fields of `roundState`. -/
def modifyRound (f : RoundState p → RoundState p) : M p Unit :=
  modify fun s => { s with roundState := f s.roundState }

namespace ConsensusState

def updateRoundStep (number : Int) (type : RoundStepType) : M p Unit := modifyRound (·.updateRoundStep number type)

/-- For the current height and round. -/
def signAddVote (type : VoteType) (hash : Option HexBytes) : M p Unit :=
  modify fun s => { s with signed := s.signed ++ [⟨type, hash, s.roundState⟩] }

def clearProposal : M p Unit := modify fun s => { s with proposal := none }

/-! ### Commit -/

def updateToState (state : State p) : M p Unit := do
  let s ← get
  let rs := s.roundState
  if rs.commitRoundNumber > -1 ∧ 0 < rs.height ∧ rs.height ≠ state.lastBlockHeight then
    throw .panic
  if !s.state.isEmpty ∧ s.state.lastBlockHeight + 1 ≠ rs.height then
    throw .panic
  -- If state isn't further out than this->state, just ignore.
  if !s.state.isEmpty ∧ state.lastBlockHeight ≤ s.state.lastBlockHeight then
    return
  let mut lastPrecommits := none
  if rs.commitRoundNumber > -1 ∧ p.isEmpty rs.votes then
    let precommits ← deref (p.getPrecommits rs.votes rs.commitRoundNumber)
    if !p.hasTwoThirdMajority precommits then
      throw .panic
    lastPrecommits := some precommits
  set { s with
    roundState := {
      height := state.lastBlockHeight + 1
      roundNumber := 0
      stepType := .newHeight
      validators := state.validators
      proposal := none
      proposalBlock := none
      lockedRoundNumber := 0
      lockedBlock := none
      validRoundNumber := 0
      validBlock := none
      votes := p.newHeightVoteSet state.chainID (state.lastBlockHeight + 1) state.validators
      commitRoundNumber := -1
      lastCommit := lastPrecommits
      lastValidators := state.lastValidators }
    state
    updates := s.updates + 1 }

def finalizeCommit (height : Int) : M p Unit := do
  let rs := (← get).roundState
  if rs.height ≠ height ∨ rs.stepType ≠ .commit then
    return
  match p.twoThirdMajority (← deref (p.getPrecommits rs.votes rs.commitRoundNumber)) with
  | none => throw .panicNoPolka
  | some blockID =>
    let block ← deref rs.proposalBlock
    if !p.hashesTo block blockID.hash then
      throw .panicInvalidHash
    updateToState (← get).state

def tryFinalizeCommit (height : Int) : M p Unit := do
  let rs := (← get).roundState
  if rs.height ≠ height then
    throw .panicEnterRound
  match p.twoThirdMajority (← deref (p.getPrecommits rs.votes rs.commitRoundNumber)) with
  | none => return
  | some blockID =>
    if blockID.hash.isEmpty then
      return
    if !p.hashesTo (← deref rs.proposalBlock) blockID.hash then
      return
    finalizeCommit height

def enterCommit (height commitRound : Int) : M p Unit := do
  let rs := (← get).roundState
  if rs.height ≠ height ∨ .commit ≤ rs.stepType then
    return
  guarded
    (do
      match p.twoThirdMajority (← deref (p.getPrecommits rs.votes commitRound)) with
      | none => throw .panicEnterRound
      | some _ => return)
    (do
      modifyRound fun rs => { rs.updateRoundStep rs.roundNumber .commit with commitRoundNumber := commitRound }
      tryFinalizeCommit height)

/-! ### Prevote -/

def isProposalComplete : M p Bool := do
  let s ← get
  -- `isEmpty` of a proposal is false
  let _ ← deref s.roundState.proposal
  let proposal ← deref s.proposal
  if proposal.polRound < 0 then
    return true
  return p.hasTwoThirdMajority (p.getPrevotes s.roundState.votes proposal.polRound)

def doPrevote (height roundNumber : Int) : M p Unit := do
  if height = roundNumber then
    return
  let rs := (← get).roundState
  -- If a block is locked, prevote that.
  if rs.lockedBlock.isSome then
    return
  match rs.proposalBlock with
  | none => signAddVote .prevote none
  | some block => signAddVote .prevote (p.getBlockHash block)

def enterPrevote (height roundNumber : Int) : M p Unit := do
  let rs := (← get).roundState
  if rs.height ≠ height ∨ roundNumber < rs.roundNumber ∨
      rs.roundNumber = roundNumber ∧ .prevote ≤ rs.stepType then
    return
  guarded
    (do
      let _ ← isProposalComplete
      doPrevote height roundNumber)
    (updateRoundStep roundNumber .prevote)

def enterPrevoteWait (height roundNumber : Int) : M p Unit := do
  let rs := (← get).roundState
  if rs.height ≠ height ∨ roundNumber < rs.roundNumber ∨
      rs.roundNumber = roundNumber ∧ .prevoteWait ≤ rs.stepType then
    return
  guarded
    (do
      if !p.hasTwoThirdsAny (p.getPrevotes rs.votes roundNumber) then
        throw .transition)
    (updateRoundStep roundNumber .prevoteWait)

/-! ### New round -/

/-- The validators with the accumulated priorities are not kept. -/
def enterNewRound (height round : Int) : M p Unit := do
  let rs := (← get).roundState
  if rs.height ≠ height ∨ round < rs.roundNumber ∨
      rs.roundNumber = round ∧ rs.stepType ≠ .newHeight then
    return
  updateRoundStep round .newRound
  if round ≠ 0 then
    clearProposal
  modifyRound fun rs => { rs with votes := p.setRoundNumber rs.votes (round + 1) }

/-! ### Precommit -/

def enterPrecommit (height roundNumber : Int) : M p Unit := do
  let rs := (← get).roundState
  if rs.height ≠ height ∨ roundNumber < rs.roundNumber ∨
      rs.roundNumber = roundNumber ∧ .precommit ≤ rs.stepType then
    return
  guarded
    (do
      match p.twoThirdMajority (p.getPrevotes rs.votes roundNumber) with
      | none => signAddVote .precommit none
      | some blockID =>
        -- At this point +2/3 prevoted for a particular block or nil.
        if p.polInfo rs.votes < rs.roundNumber then
          throw .invalidPolRound
        if blockID.isEmpty then
          if rs.lockedBlock.isSome then
            modifyRound fun rs => { rs with lockedRoundNumber := 0, lockedBlock := none }
          signAddVote .precommit none
        else
          -- If +2/3 prevoted for proposal block, stage and precommit it
          if p.hashesTo (← deref rs.proposalBlock) blockID.hash then
            modifyRound fun rs => { rs with lockedRoundNumber := roundNumber, lockedBlock := rs.proposalBlock }
            signAddVote .precommit blockID.hash
          else
            -- There was a polka in this round for a block we don't have.
            modifyRound fun rs => { rs with lockedRoundNumber := 0, lockedBlock := none }
            signAddVote .precommit none)
    (do
      let rs := (← get).roundState
      updateRoundStep rs.roundNumber rs.stepType)

def enterPrecommitWait (height round : Int) : M p Unit := do
  let rs := (← get).roundState
  if rs.height ≠ height ∨ round < rs.roundNumber ∨
      rs.roundNumber = round ∧ .precommitWait ≤ rs.stepType then
    return
  if !p.hasTwoThirdsAny (← deref (p.getPrecommits rs.votes round)) then
    throw .panicEnterRound
  guarded (return) do
    let rs := (← get).roundState
    updateRoundStep rs.roundNumber .precommitWait

/-! ### Votes -/

def unlockBlock (vote : Vote) (blockId : BlockID) : M p Unit := do
  let rs := (← get).roundState
  if let some lockedBlock := rs.lockedBlock then
    if rs.lockedRoundNumber < vote.roundNumber ∧ vote.roundNumber ≤ rs.roundNumber ∧
        !p.hashesTo lockedBlock blockId.hash then
      modifyRound fun rs => { rs with lockedRoundNumber := 0, lockedBlock := none }

def tryUpdateValidRoundAndBlock (vote : Vote) (blockId : BlockID) : M p Unit := do
  let rs := (← get).roundState
  if !blockId.isEmpty ∧ rs.validRoundNumber < vote.roundNumber ∧ vote.roundNumber ≤ rs.roundNumber then
    if p.hashesTo (← deref rs.proposalBlock) blockId.hash then
      modifyRound fun rs => { rs with validRoundNumber := vote.roundNumber, validBlock := rs.proposalBlock }

/-- `roundState.height` -/
def getHeight : M p Int := return (← get).roundState.height

/-- The case `VoteTypePrevote`, from the round of the vote on. -/
def followPrevotes (vote : Vote) (prevotes : p.VoteSet) : M p Unit := do
  let s ← get
  if s.roundState.roundNumber ≤ vote.roundNumber ∧ p.hasTwoThirdsAny prevotes then
    enterNewRound (← getHeight) vote.roundNumber
    if p.hasTwoThirdMajority prevotes then
      enterPrecommit (← getHeight) vote.roundNumber
    else
      enterPrevote (← getHeight) vote.roundNumber
      enterPrevoteWait (← getHeight) vote.roundNumber
  else if let some proposal := s.proposal then
    if 0 ≤ proposal.polRound ∧ proposal.polRound = vote.roundNumber then
      if ← isProposalComplete then
        enterPrevote s.roundState.height s.roundState.roundNumber

/-- The case `VoteTypePrevote` of `addVoteForCurrentRound`. -/
def addPrevote (vote : Vote) : M p Unit := do
  let prevotes := p.getPrevotes (← get).roundState.votes vote.roundNumber
  if let some blockId := p.twoThirdMajority prevotes then
    unlockBlock vote blockId
    tryUpdateValidRoundAndBlock vote blockId
  followPrevotes vote prevotes

/-- The case `VoteTypePrecommit`. -/
def addPrecommit (vote : Vote) : M p Unit := do
  let s ← get
  let precommits ← deref (p.getPrecommits s.roundState.votes vote.roundNumber)
  match p.twoThirdMajority precommits with
  | some blockId =>
    if blockId.hash.isEmpty then
      enterNewRound (← getHeight) (vote.roundNumber + 1)
    else
      enterNewRound (← getHeight) vote.roundNumber
      enterPrecommit (← getHeight) vote.roundNumber
      enterCommit (← getHeight) vote.roundNumber
      if s.skipTimeoutCommit ∧ p.hasAll precommits then
        enterNewRound (← getHeight) 0
  | none =>
    if s.roundState.roundNumber ≤ vote.roundNumber ∧ p.hasTwoThirdsAny precommits then
      enterNewRound (← getHeight) vote.roundNumber
      enterPrecommit (← getHeight) vote.roundNumber
      enterPrecommitWait (← getHeight) vote.roundNumber

def addVoteForCurrentRound (vote : Vote) : M p Unit :=
  match vote.type with
  | .prevote => addPrevote vote
  | .precommit => addPrecommit vote
  | .firstCommit => throw .unexpectedVoteType

def handleStragglerCommit (vote : Vote) : M p Unit := do
  let s ← get
  match p.addVoteToSet (← deref s.roundState.lastCommit) vote with
  | none => throw .voteSet
  | some lastCommit =>
    modifyRound fun rs => { rs with lastCommit := some lastCommit }
    if s.skipTimeoutCommit ∧ p.hasAllVotes lastCommit then
      enterNewRound (← getHeight) 0

def addVote (vote : Vote) (peerID : HexBytes) : M p Unit := do
  let s ← get
  if s.roundState.height - vote.height = 1 then
    if s.stepType = .newHeight ∧ vote.type = .precommit then
      handleStragglerCommit vote
    else
      throw .voteHeightMismatch
  else if s.roundState.height - vote.height = 0 then
    let (result, votes) := p.addVote s.roundState.votes vote peerID
    modifyRound fun rs => { rs with votes }
    match result with
    | none => throw .voteSet
    | some height =>
      modifyRound fun rs => { rs with height }
      addVoteForCurrentRound vote
  else
    throw .voteHeightMismatch

end ConsensusState

end Kmdx.Tm
