import Kmdx.Lib.Framed
import Kmdx.Tm.FourValidators

/-!
# Prevotes (`ConsensusState::enterPrevote`)

Nothing is signed where the height is the number of the round, nor by a node with a locked block; a proposal that is not there
is looked at; and the block of an earlier round stays in `proposalBlock`. Otherwise a call of `enterPrevote` signs what it
should (`ConsensusState.prevotes_iff`).
-/

namespace Kmdx.Tm

open Wp ScopeGuard Frames Relation

variable {p : Parts}

/-! ### Calls -/

/-- A call of `enterPrevote`, with whether `enterPrevoteWait` is called after it -/
structure PrevoteCall where
  height : Int
  roundNumber : Int
  waits : Bool

namespace ConsensusState

/-- `followPrevotes` up to the call -/
def followPrevotesUpTo (vote : Vote) (prevotes : p.VoteSet) : M p (Option (PrevoteCall)) := do
  let s ← get
  if s.roundState.roundNumber ≤ vote.roundNumber ∧ p.hasTwoThirdsAny prevotes then
    enterNewRound (← getHeight) vote.roundNumber
    if p.hasTwoThirdMajority prevotes then
      enterPrecommit (← getHeight) vote.roundNumber
      return none
    else
      return some ⟨← getHeight, vote.roundNumber, true⟩
  else match s.proposal with
    | none => return none
    | some proposal =>
      if 0 ≤ proposal.polRound ∧ proposal.polRound = vote.roundNumber then
        if ← isProposalComplete then return some ⟨s.roundState.height, s.roundState.roundNumber, false⟩ else return none
      else
        return none

def addPrevoteUpTo (vote : Vote) : M p (Option (PrevoteCall)) := do
  let prevotes := p.getPrevotes (← get).roundState.votes vote.roundNumber
  if let some blockId := p.twoThirdMajority prevotes then
    unlockBlock vote blockId
    tryUpdateValidRoundAndBlock vote blockId
  followPrevotesUpTo vote prevotes

def addVoteForCurrentRoundUpTo (vote : Vote) : M p (Option (PrevoteCall)) :=
  match vote.type with
  | .prevote => addPrevoteUpTo vote
  | .precommit => do
    addPrecommit vote
    return none
  | .firstCommit => throw .unexpectedVoteType

def addVoteUpTo (vote : Vote) (peerID : HexBytes) : M p (Option (PrevoteCall)) := do
  let s ← get
  if s.roundState.height - vote.height = 1 then
    if s.stepType = .newHeight ∧ vote.type = .precommit then
      handleStragglerCommit vote
      return none
    else
      throw .voteHeightMismatch
  else if s.roundState.height - vote.height = 0 then
    let (result, votes) := p.addVote s.roundState.votes vote peerID
    modifyRound fun rs => { rs with votes }
    match result with
    | none => throw .voteSet
    | some height =>
      modifyRound fun rs => { rs with height }
      addVoteForCurrentRoundUpTo vote
  else
    throw .voteHeightMismatch

end ConsensusState

/-- What an event does up to its call of `enterPrevote`, or all of it if there is none -/
def Event.upToPrevote : Event p → M p (Option (PrevoteCall))
  | .enterPrevote height roundNumber => return some ⟨height, roundNumber, false⟩
  | .addVote vote peerID => ConsensusState.addVoteUpTo vote peerID
  | e => do
    e.run
    return none

def PrevoteCall.run : Option (PrevoteCall) → M p Unit
  | none => return
  | some call => do
    ConsensusState.enterPrevote call.height call.roundNumber
    if call.waits then
      ConsensusState.enterPrevoteWait (← ConsensusState.getHeight) call.roundNumber

namespace ConsensusState

variable {s t u : ConsensusState p}

theorem followPrevotesUpTo_bind_run (vote : Vote) (prevotes : p.VoteSet) :
    followPrevotesUpTo vote prevotes >>= PrevoteCall.run = followPrevotes vote prevotes := by
  unfold followPrevotesUpTo followPrevotes
  rw [bind_assoc]
  refine bind_congr fun s => ?_
  split
  · rw [bind_assoc]
    refine bind_congr fun height => ?_
    rw [bind_assoc]
    refine bind_congr fun _ => ?_
    split
    · simp [PrevoteCall.run]
    · simp [PrevoteCall.run]
  · cases s.proposal with
    | none => simp [PrevoteCall.run]
    | some proposal =>
      dsimp only
      split
      · rw [bind_assoc]
        refine bind_congr fun complete => ?_
        split
        · simp [PrevoteCall.run]
        · simp [PrevoteCall.run]
      · simp [PrevoteCall.run]

theorem addPrevoteUpTo_bind_run (vote : Vote) : addPrevoteUpTo vote >>= PrevoteCall.run = addPrevote (p := p) vote := by
  unfold addPrevoteUpTo addPrevote
  rw [bind_assoc]
  refine bind_congr fun s => ?_
  cases hid : p.twoThirdMajority (p.getPrevotes s.roundState.votes vote.roundNumber) with
  | none => simp only [hid, followPrevotesUpTo_bind_run]
  | some blockId => simp only [bind_assoc, hid, followPrevotesUpTo_bind_run]

theorem addVoteForCurrentRoundUpTo_bind_run (vote : Vote) :
    addVoteForCurrentRoundUpTo vote >>= PrevoteCall.run = addVoteForCurrentRound (p := p) vote := by
  unfold addVoteForCurrentRoundUpTo addVoteForCurrentRound
  cases vote.type with
  | prevote => exact addPrevoteUpTo_bind_run vote
  | precommit => simp [PrevoteCall.run]
  | firstCommit => rfl

theorem addVoteUpTo_bind_run (vote : Vote) (peerID : HexBytes) :
    addVoteUpTo vote peerID >>= PrevoteCall.run = addVote (p := p) vote peerID := by
  unfold addVoteUpTo addVote
  rw [bind_assoc]
  refine bind_congr fun s => ?_
  split
  · split
    · simp [PrevoteCall.run]
    · rfl
  split
  · rw [bind_assoc]
    cases hresult : (p.addVote s.roundState.votes vote peerID).1 with
    | none =>
      simp only [hresult]
      rfl
    | some height => simp only [bind_assoc, hresult, addVoteForCurrentRoundUpTo_bind_run]
  · rfl

/-- Nothing else is called but what is done up to the call, the call and what comes after it. -/
theorem upToPrevote_bind_run (e : Event p) : e.upToPrevote >>= PrevoteCall.run = e.run := by
  cases e with
  | enterPrevote height roundNumber => simp [Event.upToPrevote, PrevoteCall.run, Event.run]
  | addVote vote peerID => exact addVoteUpTo_bind_run vote peerID
  | _ => simp [Event.upToPrevote, PrevoteCall.run]

/-! ### The block that is proposed -/

/-- Only an update takes the block from `proposalBlock`. -/
def KeepsBlock (s t : ConsensusState p) : Prop :=
  s.updates ≤ t.updates ∧ (t.updates = s.updates → t.roundState.proposalBlock = s.roundState.proposalBlock)

theorem KeepsBlock.of_eq (hupdates : t.updates = s.updates)
    (hblock : t.roundState.proposalBlock = s.roundState.proposalBlock) :
    KeepsBlock s t := ⟨hupdates.ge, fun _ => hblock⟩

instance : IsPreorder (ConsensusState p) KeepsBlock where
  refl s := .of_eq rfl rfl
  trans s t u h h' := by
    refine ⟨h.1.trans h'.1, fun hupdates => ?_⟩
    have hle := h.1
    have hle' := h'.1
    rw [h'.2 (by omega), h.2 (by omega)]

theorem framed_enterNewRound (height round : Int) : Framed KeepsBlock (enterNewRound (p := p) height round) :=
  fun s => leaves_enterNewRound (fun _ => refl_of KeepsBlock s) fun _ _ => .of_eq rfl rfl

theorem framed_isProposalComplete : Framed KeepsBlock (isProposalComplete (p := p)) :=
  fun s => wp_isProposalComplete (fun _ => refl_of KeepsBlock s) (refl_of KeepsBlock s)

theorem framed_enterPrevote (height round : Int) : Framed KeepsBlock (enterPrevote (p := p) height round) :=
  fun s => leaves_enterPrevote (refl_of KeepsBlock s) fun _ _ _ _ _ _ => .of_eq rfl rfl

theorem framed_enterPrevoteWait (height round : Int) : Framed KeepsBlock (enterPrevoteWait (p := p) height round) :=
  fun s => leaves_enterPrevoteWait (refl_of KeepsBlock s) fun _ _ => .of_eq rfl rfl

theorem framed_enterPrecommit (height round : Int) : Framed KeepsBlock (enterPrecommit (p := p) height round) :=
  fun s => leaves_enterPrecommit (refl_of KeepsBlock s) fun _ _ t ht => by cases ht <;> exact .of_eq rfl rfl

theorem framed_enterPrecommitWait (height round : Int) : Framed KeepsBlock (enterPrecommitWait (p := p) height round) :=
  fun s => leaves_enterPrecommitWait (refl_of KeepsBlock s) fun _ _ _ => .of_eq rfl rfl

theorem framed_enterCommit (height round : Int) : Framed KeepsBlock (enterCommit (p := p) height round) := by
  intro s
  refine leaves_enterCommit (refl_of KeepsBlock s) fun _ _ => ⟨.of_eq rfl rfl, fun _ _ lastCommit => ?_⟩
  exact ⟨Nat.le_succ _, fun h => absurd h (Nat.succ_ne_self _)⟩

theorem framed_modifyRound {f : RoundState p → RoundState p} (hf : ∀ rs, (f rs).proposalBlock = rs.proposalBlock) :
    Framed KeepsBlock (modifyRound f) := .of_modify fun s => .of_eq rfl (hf s.roundState)

theorem framed_unlockBlock (vote : Vote) (blockId : BlockID) : Framed KeepsBlock (unlockBlock (p := p) vote blockId) :=
  fun s => leaves_unlockBlock (refl_of KeepsBlock s) fun _ _ _ _ _ => .of_eq rfl rfl

theorem framed_tryUpdateValidRoundAndBlock (vote : Vote) (blockId : BlockID) :
    Framed KeepsBlock (tryUpdateValidRoundAndBlock (p := p) vote blockId) :=
  fun s => leaves_tryUpdateValidRoundAndBlock (refl_of KeepsBlock s) (.of_eq rfl rfl)

theorem framed_getHeight : Framed KeepsBlock (getHeight (p := p)) := fun s => refl_of KeepsBlock s

theorem framed_deref {α : Type} (pointer : Option α) : Framed KeepsBlock (deref (p := p) pointer) := by
  cases pointer with
  | none => exact .throw _
  | some a => exact .pure a

theorem framed_handleStragglerCommit (vote : Vote) : Framed KeepsBlock (handleStragglerCommit (p := p) vote) := by
  unfold handleStragglerCommit
  refine .bind .get fun s => .bind (framed_deref _) fun lastCommit => ?_
  cases p.addVoteToSet lastCommit vote with
  | none => exact .throw _
  | some lastCommit' =>
    refine .bind (framed_modifyRound fun _ => rfl) fun _ => ?_
    split
    · exact .bind framed_getHeight fun height => framed_enterNewRound height 0
    · exact .pure _

theorem framed_followPrevotesUpTo (vote : Vote) (prevotes : p.VoteSet) :
    Framed KeepsBlock (followPrevotesUpTo vote prevotes) := by
  unfold followPrevotesUpTo
  refine .bind .get fun s => ?_
  split
  · refine .bind framed_getHeight fun height => .bind (framed_enterNewRound height _) fun _ => ?_
    split
    · exact .bind framed_getHeight fun height => .bind (framed_enterPrecommit height _) fun _ => .pure _
    · exact .bind framed_getHeight fun height => .pure _
  · cases s.proposal with
    | none => exact .pure _
    | some proposal =>
      dsimp only
      split
      · refine .bind framed_isProposalComplete fun complete => ?_
        split
        · exact .pure _
        · exact .pure _
      · exact .pure _

theorem framed_addPrevoteUpTo (vote : Vote) : Framed KeepsBlock (addPrevoteUpTo (p := p) vote) := by
  unfold addPrevoteUpTo
  refine .bind .get fun s => ?_
  dsimp only
  split
  · refine .bind (framed_unlockBlock vote _) fun _ => .bind (framed_tryUpdateValidRoundAndBlock vote _) fun _ => ?_
    exact framed_followPrevotesUpTo vote _
  · exact framed_followPrevotesUpTo vote _

theorem framed_addPrecommit (vote : Vote) : Framed KeepsBlock (addPrecommit (p := p) vote) := by
  unfold addPrecommit
  refine .bind .get fun s => .bind (framed_deref _) fun precommits => ?_
  split
  · split
    · exact .bind framed_getHeight fun height => framed_enterNewRound height _
    · refine .bind framed_getHeight fun height => .bind (framed_enterNewRound height _) fun _ => ?_
      refine .bind framed_getHeight fun height => .bind (framed_enterPrecommit height _) fun _ => ?_
      refine .bind framed_getHeight fun height => .bind (framed_enterCommit height _) fun _ => ?_
      split
      · exact .bind framed_getHeight fun height => framed_enterNewRound height _
      · exact .pure _
  · split
    · refine .bind framed_getHeight fun height => .bind (framed_enterNewRound height _) fun _ => ?_
      refine .bind framed_getHeight fun height => .bind (framed_enterPrecommit height _) fun _ => ?_
      exact .bind framed_getHeight fun height => framed_enterPrecommitWait height _
    · exact .pure _

theorem framed_addVoteForCurrentRoundUpTo (vote : Vote) : Framed KeepsBlock (addVoteForCurrentRoundUpTo (p := p) vote) := by
  unfold addVoteForCurrentRoundUpTo
  cases vote.type with
  | prevote => exact framed_addPrevoteUpTo vote
  | precommit => exact .bind (framed_addPrecommit vote) fun _ => .pure _
  | firstCommit => exact .throw _

theorem framed_addVoteUpTo (vote : Vote) (peerID : HexBytes) : Framed KeepsBlock (addVoteUpTo (p := p) vote peerID) := by
  unfold addVoteUpTo
  refine .bind .get fun s => ?_
  split
  · split
    · exact .bind (framed_handleStragglerCommit vote) fun _ => .pure _
    · exact .throw _
  split
  · refine .bind (framed_modifyRound fun _ => rfl) fun _ => ?_
    split
    · exact .throw _
    · exact .bind (framed_modifyRound fun _ => rfl) fun _ => framed_addVoteForCurrentRoundUpTo vote
  · exact .throw _

theorem framed_call (call : Option PrevoteCall) : Framed KeepsBlock (PrevoteCall.run (p := p) call) := by
  cases call with
  | none => exact .pure _
  | some call =>
    refine .bind (framed_enterPrevote call.height call.roundNumber) fun _ => ?_
    split
    · exact .bind framed_getHeight fun height => framed_enterPrevoteWait height call.roundNumber
    · exact .pure _

/-- Only a message writes a block. -/
theorem framed_run {e : Event p} (h : ∀ block, e ≠ .blockMessage block) : Framed KeepsBlock e.run := by
  cases e with
  | addVote vote peerID =>
    rw [← upToPrevote_bind_run]
    exact .bind (framed_addVoteUpTo vote peerID) framed_call
  | enterNewRound height round => exact framed_enterNewRound height round
  | enterPrevote height round => exact framed_enterPrevote height round
  | enterPrevoteWait height round => exact framed_enterPrevoteWait height round
  | enterPrecommit height round => exact framed_enterPrecommit height round
  | enterPrecommitWait height round => exact framed_enterPrecommitWait height round
  | enterCommit height round => exact framed_enterCommit height round
  | blockMessage block => exact absurd rfl (h block)

theorem framed_upToPrevote {e : Event p} (h : ∀ block, e ≠ .blockMessage block) : Framed KeepsBlock e.upToPrevote := by
  cases e with
  | addVote vote peerID => exact framed_addVoteUpTo vote peerID
  | enterPrevote height round => exact .pure _
  | _ => exact .bind (framed_run h) fun _ => .pure _

end ConsensusState

/-! ### Runs -/

/-- A block that was put into `proposalBlock`, with the number of updates, the height and the round of then -/
structure Received (p : Parts) where
  block : Option p.Block
  updates : Nat
  height : Int
  roundNumber : Int

/-- A node, with the block it received last -/
structure Node (p : Parts) where
  state : ConsensusState p
  received : Received p

namespace ConsensusState

variable {s u : ConsensusState p}

def receives (s : ConsensusState p) (block : Option p.Block) : Received p :=
  ⟨block, s.updates, s.roundState.height, s.roundState.roundNumber⟩

/-- The guard lets it pass. -/
def TakesEffect (s : ConsensusState p) (call : PrevoteCall) : Prop :=
  s.roundState.height = call.height ∧ s.Passes call.roundNumber .prevote

/-- One prevote is signed: for the locked block, or else the one that is proposed, or else nil. -/
def Prevotes (s : ConsensusState p) (call : PrevoteCall) (proposed : Option p.Block) : Prop :=
  ∃ t, enterPrevote call.height call.roundNumber s = .ok () t ∧
    t.signed = s.signed ++ [⟨.prevote, (s.roundState.lockedBlock <|> proposed).map p.getBlockHash, s.roundState⟩]

end ConsensusState

/-- It came in the round that the call is for. -/
def Received.IsFor (received : Received p) (s : ConsensusState p) (call : PrevoteCall) : Prop :=
  received.updates = s.updates ∧ received.height = call.height ∧ received.roundNumber = call.roundNumber

instance (received : Received p) (s : ConsensusState p) (call : PrevoteCall) : Decidable (received.IsFor s call) :=
  inferInstanceAs (Decidable (_ ∧ _ ∧ _))

/-- The block that is proposed in the round that the call is for -/
def Received.proposed (received : Received p) (s : ConsensusState p) (call : PrevoteCall) : Option p.Block :=
  if received.IsFor s call then received.block else none

/-- Nothing gets in the way of the vote, and no other round's block is in its place. -/
structure ConsensusState.Clear (s : ConsensusState p) (call : PrevoteCall) (received : Received p) : Prop where
  height_ne : call.height ≠ call.roundNumber
  lockedBlock : s.roundState.lockedBlock = none
  roundProposal : s.roundState.proposal.isSome
  proposal : s.proposal.isSome
  proposalBlock : s.roundState.proposalBlock.isSome → received.IsFor s call

namespace Node

/-- With what is in `proposalBlock` -/
def start (s : ConsensusState p) : Node p := ⟨s, s.receives s.roundState.proposalBlock⟩

def step (node : Node p) (e : Event p) : Option (Node p) :=
  (node.state.step e).map fun t => ⟨t, match e with
    | .blockMessage block => node.state.receives block
    | _ => node.received⟩

def Reaches (node node' : Node p) : Prop := ReflTransGen (fun node node' => ∃ e, node.step e = some node') node node'

/-- The block of before is there, or none since the last update. -/
structure Fresh (node : Node p) : Prop where
  updates : node.received.updates ≤ node.state.updates
  block : node.received.updates = node.state.updates → node.state.roundState.proposalBlock = node.received.block

variable {node node' : Node p} {e : Event p} {s₀ u : ConsensusState p}

theorem fresh_start (s : ConsensusState p) : (start s).Fresh := ⟨le_refl _, fun _ => rfl⟩

theorem Fresh.of_keepsBlock {received : Received p} {s t : ConsensusState p} (h : Fresh ⟨s, received⟩)
    (hkeeps : s.KeepsBlock t) : Fresh ⟨t, received⟩ := by
  refine ⟨h.updates.trans hkeeps.1, fun hupdates => ?_⟩
  have hle : received.updates ≤ s.updates := h.updates
  have hle' := hkeeps.1
  have hupdates : received.updates = t.updates := hupdates
  exact (hkeeps.2 (by omega)).trans (h.block (show received.updates = s.updates by omega))

theorem Fresh.step (h : node.Fresh) (hstep : node.step e = some node') : node'.Fresh := by
  obtain ⟨t, ht, rfl⟩ := Option.map_eq_some_iff.1 hstep
  by_cases hmessage : ∃ block, e = .blockMessage block
  · obtain ⟨block, rfl⟩ := hmessage
    obtain rfl := Option.some.inj ht
    exact ⟨le_refl _, fun _ => rfl⟩
  · have hmessage : ∀ block, e ≠ .blockMessage block := fun block h => hmessage ⟨block, h⟩
    have hleaves : ConsensusState.Leaves e.run (node.state.KeepsBlock)
        node.state := ConsensusState.framed_run hmessage node.state
    have hfresh := h.of_keepsBlock (hleaves.of_step ht)
    cases e with
    | blockMessage block => exact absurd rfl (hmessage block)
    | _ => exact hfresh

theorem Fresh.reaches (h : node.Fresh) (hreaches : node.Reaches node') : node'.Fresh := by
  induction hreaches with
  | refl => exact h
  | tail _ hstep ih =>
    obtain ⟨e, hstep⟩ := hstep
    exact ih.step hstep

/-- And it is there when the call is made. -/
theorem Fresh.upToPrevote {call : PrevoteCall} (h : node.Fresh) (hcall : e.upToPrevote node.state = .ok (some call) u) :
    Fresh ⟨u, node.received⟩ := by
  by_cases hmessage : ∃ block, e = .blockMessage block
  · obtain ⟨block, rfl⟩ := hmessage
    cases hcall
  · have hkeeps := wp_ok (ConsensusState.framed_upToPrevote (fun block h => hmessage ⟨block, h⟩) node.state) hcall
    exact h.of_keepsBlock hkeeps

end Node

namespace ConsensusState

variable {s : ConsensusState p} {call : PrevoteCall} {received : Received p}

theorem isProposalComplete_of_none (hnone : s.roundState.proposal = none ∨ s.proposal = none) :
    isProposalComplete s = .error .nullPointer s := by
  unfold isProposalComplete
  cases hround : s.roundState.proposal with
  | none => simp [run_bind, run_get, hround, deref, run_throw]
  | some _ =>
    have hnone : s.proposal = none := hnone.resolve_left (by simp [hround])
    simp [run_bind, run_get, hround, hnone, deref, run_throw, run_pure]

theorem isProposalComplete_of_some (hround : s.roundState.proposal.isSome) (hproposal : s.proposal.isSome) :
    ∃ complete, isProposalComplete s = .ok complete s := by
  obtain ⟨_, hround⟩ := Option.isSome_iff_exists.1 hround
  obtain ⟨proposal, hproposal⟩ := Option.isSome_iff_exists.1 hproposal
  unfold isProposalComplete
  by_cases hpol : proposal.polRound < 0
  · simp [run_bind, run_get, hround, hproposal, deref, run_pure, hpol]
  · simp [run_bind, run_get, hround, hproposal, deref, run_pure, hpol]

/-- What is signed -/
theorem doPrevote_eq (height round : Int) : doPrevote height round s = .ok () { s with signed := s.signed ++
    if height = round ∨ s.roundState.lockedBlock.isSome then []
    else [⟨.prevote, s.roundState.proposalBlock.map p.getBlockHash, s.roundState⟩] } := by
  unfold doPrevote
  by_cases hround : height = round
  · simp [hround, run_pure]
  · by_cases hlocked : s.roundState.lockedBlock.isSome
    · simp [hround, run_bind, run_get, hlocked, run_pure]
    · cases hblock : s.roundState.proposalBlock <;>
        simp [hround, run_bind, run_get, hlocked, hblock, signAddVote, run_modify]

theorem enterPrevote_of_none (heffect : s.TakesEffect call) (hnone : s.roundState.proposal = none ∨ s.proposal = none) :
    enterPrevote call.height call.roundNumber s = .error .nullPointer s := by
  unfold enterPrevote
  rw [run_bind_of_ok run_get, if_neg (not_rejected_iff.2 heffect)]
  simp [guarded, run_bind, isProposalComplete_of_none hnone, Fatal.fatal]

theorem enterPrevote_of_some (heffect : s.TakesEffect call) (hround : s.roundState.proposal.isSome)
    (hproposal : s.proposal.isSome) :
    ∃ t, enterPrevote call.height call.roundNumber s = .ok () t ∧ t.signed = s.signed ++
      if call.height = call.roundNumber ∨ s.roundState.lockedBlock.isSome then []
      else [⟨.prevote, s.roundState.proposalBlock.map p.getBlockHash, s.roundState⟩] := by
  obtain ⟨complete, hcomplete⟩ := isProposalComplete_of_some hround hproposal
  unfold enterPrevote
  rw [run_bind_of_ok run_get, if_neg (not_rejected_iff.2 heffect)]
  simp only [guarded, run_bind, hcomplete, doPrevote_eq, updateRoundStep, modifyRound, run_modify]
  exact ⟨_, rfl, rfl⟩

/-- The right block is voted for if the one in `proposalBlock` is the one that is proposed. -/
theorem map_proposed_iff (hfresh : Node.Fresh ⟨s, received⟩) :
    s.roundState.proposalBlock.map p.getBlockHash = (received.proposed s call).map p.getBlockHash ↔
      (s.roundState.proposalBlock.isSome → received.IsFor s call) := by
  unfold Received.proposed
  by_cases hfor : received.IsFor s call
  · have hblock : s.roundState.proposalBlock = received.block := hfresh.block hfor.1
    rw [if_pos hfor, hblock]
    exact iff_of_true rfl fun _ => hfor
  · rw [if_neg hfor]
    cases s.roundState.proposalBlock <;> simp [hfor]

/-- In any run, a call that takes effect signs one prevote for the right block exactly if nothing is in the way. -/
theorem prevotes_iff {s₀ : ConsensusState p} {node : Node p} {e : Event p} (hrun : (Node.start s₀).Reaches node)
    (hcall : e.upToPrevote node.state = .ok (some call) s) (heffect : s.TakesEffect call) :
    s.Prevotes call (node.received.proposed s call) ↔ s.Clear call node.received := by
  have hfresh := ((Node.fresh_start s₀).reaches hrun).upToPrevote hcall
  by_cases hnone : s.roundState.proposal = none ∨ s.proposal = none
  · refine iff_of_false ?_ fun hclear => ?_
    · rintro ⟨t, ht, -⟩
      rw [enterPrevote_of_none heffect hnone] at ht
      cases ht
    · rcases hnone with hnone | hnone
      · exact absurd hclear.roundProposal (by simp [hnone])
      · exact absurd hclear.proposal (by simp [hnone])
  simp only [not_or, ← Option.isSome_iff_ne_none, ← ne_eq] at hnone
  obtain ⟨t, ht, hsigned⟩ := enterPrevote_of_some heffect hnone.1 hnone.2
  have hprevotes : s.Prevotes call (node.received.proposed s call) ↔ t.signed = s.signed ++
      [⟨.prevote, (s.roundState.lockedBlock <|> node.received.proposed s call).map p.getBlockHash, s.roundState⟩] := by
    refine ⟨?_, fun h => ⟨t, ht, h⟩⟩
    rintro ⟨t', ht', h⟩
    rw [ht] at ht'
    cases ht'
    exact h
  rw [hprevotes, hsigned]
  by_cases hsilent : call.height = call.roundNumber ∨ s.roundState.lockedBlock.isSome
  · refine iff_of_false (by simp [hsilent]) fun hclear => ?_
    rcases hsilent with hround | hlocked
    · exact hclear.height_ne hround
    · exact absurd hlocked (by simp [hclear.lockedBlock])
  · rw [if_neg hsilent]
    simp only [not_or, Option.not_isSome_iff_eq_none] at hsilent
    rw [List.append_cancel_left_eq, hsilent.2]
    have hnil : (none <|> node.received.proposed s call) = node.received.proposed s call := rfl
    simp only [hnil, List.cons.injEq, Signed.mk.injEq, true_and, and_true]
    rw [map_proposed_iff hfresh]
    exact ⟨fun h => ⟨hsilent.1, hsilent.2, hnone.1, hnone.2, h⟩, fun hclear => hclear.proposalBlock⟩

/-! ### Four validators -/

/-- A node at height 1, where block 7 is proposed -/
abbrev withSeven : ConsensusState (fourValidators Vote.height) := atHeight 1 [7]

theorem prevotes_first : withSeven.Prevotes ⟨1, 0, false⟩ (some [7]) := by
  have hiff := prevotes_iff (e := .enterPrevote 1 0) (.refl : (Node.start withSeven).Reaches (Node.start withSeven)) rfl
    ⟨rfl, .inr ⟨rfl, by decide⟩⟩
  exact hiff.2 ⟨by decide, rfl, rfl, rfl, fun _ => ⟨rfl, rfl, rfl⟩⟩

/-- It is silent in round 1. -/
theorem not_prevotes : (Event.enterPrevote 1 1).upToPrevote withSeven = .ok (some ⟨1, 1, false⟩) withSeven ∧
    withSeven.TakesEffect ⟨1, 1, false⟩ ∧
    ¬ withSeven.Prevotes ⟨1, 1, false⟩ ((Node.start withSeven).received.proposed withSeven ⟨1, 1, false⟩) := by
  refine ⟨rfl, ⟨rfl, .inl (by decide)⟩, ?_⟩
  rintro ⟨t, ht, hsigned⟩
  cases ht
  cases hsigned

end ConsensusState

end Kmdx.Tm
