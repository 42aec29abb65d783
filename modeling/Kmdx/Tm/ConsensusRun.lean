import Kmdx.Tm.ConsensusState

/-!
# Runs of the consensus state machine

A step is a vote that comes in, one of the transitions that the timers call, or a block that is put into
`proposalBlock` (`handleMsg(BlockMessage)` is declared only). Whatever a step calls, it is a sequence of
writes (`writes_step`); `Rules` are what may be asked of them, at the state in which they are made.
-/

namespace Kmdx.Tm

open Wp ScopeGuard Relation

variable {p : Parts}

inductive Event (p : Parts)
  | addVote (vote : Vote) (peerID : HexBytes)
  | enterNewRound (height round : Int)
  | enterPrevote (height roundNumber : Int)
  | enterPrevoteWait (height roundNumber : Int)
  | enterPrecommit (height roundNumber : Int)
  | enterPrecommitWait (height round : Int)
  | enterCommit (height commitRound : Int)
  | blockMessage (block : Option p.Block)

def Event.run : Event p → M p Unit
  | .addVote vote peerID => ConsensusState.addVote vote peerID
  | .enterNewRound height round => ConsensusState.enterNewRound height round
  | .enterPrevote height roundNumber => ConsensusState.enterPrevote height roundNumber
  | .enterPrevoteWait height roundNumber => ConsensusState.enterPrevoteWait height roundNumber
  | .enterPrecommit height roundNumber => ConsensusState.enterPrecommit height roundNumber
  | .enterPrecommitWait height round => ConsensusState.enterPrecommitWait height round
  | .enterCommit height commitRound => ConsensusState.enterCommit height commitRound
  | .blockMessage block => modifyRound fun rs => { rs with proposalBlock := block }

namespace ConsensusState

/-- What is thrown is caught by the caller, if the process has not ended. -/
def step (s : ConsensusState p) (e : Event p) : Option (ConsensusState p) :=
  match e.run s with
  | .ok _ t => some t
  | .error exn t => if Fatal.fatal exn then none else some t

/-- At the step `RoundStepNewHeight`, with nothing locked and nothing signed. -/
structure Start (s : ConsensusState p) : Prop where
  stepType : s.roundState.stepType = .newHeight
  roundNumber : s.roundState.roundNumber = 0
  lockedBlock : s.roundState.lockedBlock = none
  signed : s.signed = []
  updates : s.updates = 0

/-- The states that runs reach whose steps all meet `C`. -/
def Reaches (C : ConsensusState p → Event p → Prop) (s s' : ConsensusState p) : Prop :=
  ReflTransGen (fun s s' => ∃ e, C s e ∧ s.step e = some s') s s'

/-- A commit of `round` does not start `updateToState` on a state that is behind. -/
def Ahead (s : ConsensusState p) (round : Int) : Prop :=
  s.state.isEmpty = true → round > -1 ∧ 0 < s.roundState.height ∨ s.roundState.height ≤ s.state.lastBlockHeight

variable {round height : Int}

theorem Ahead.height_le {s : ConsensusState p} (h : s.Ahead round) (hempty : s.state.isEmpty = true)
    (hlast : round > -1 → 0 < s.roundState.height → s.roundState.height = s.state.lastBlockHeight) :
    s.roundState.height ≤ s.state.lastBlockHeight :=
  (h hempty).elim (fun ⟨hround, hpos⟩ => (hlast hround hpos).le) id

/-! ### Writes -/

/-- `roundState` is written. -/
def withRound (s : ConsensusState p) (f : RoundState p → RoundState p) : ConsensusState p :=
  { s with roundState := f s.roundState }

def withSigned (s : ConsensusState p) (type : VoteType) (hash : Option HexBytes) : ConsensusState p :=
  { s with signed := s.signed ++ [⟨type, hash, s.roundState⟩] }

/-- The state in which `addVoteForCurrentRound` is called. -/
def withVote (s : ConsensusState p) (vote : Vote) (peerID : HexBytes) (height : Int) : ConsensusState p :=
  s.withRound fun rs => { rs with votes := (p.addVote rs.votes vote peerID).2, height }

def unlocked (s : ConsensusState p) : ConsensusState p :=
  s.withRound fun rs => { rs with lockedRoundNumber := 0, lockedBlock := none }

/-- The state after `enterNewRound`. -/
def atNewRound (s : ConsensusState p) (round : Int) : ConsensusState p :=
  { s.withRound fun rs => { rs.updateRoundStep round .newRound with votes := p.setRoundNumber rs.votes (round + 1) }
    with proposal := if round ≠ 0 then none else s.proposal }

/-- The state in which `enterCommit` tries to finalize. -/
def atCommit (s : ConsensusState p) (round : Int) : ConsensusState p :=
  s.withRound fun rs => { rs.updateRoundStep rs.roundNumber .commit with commitRoundNumber := round }

/-- The guards at the heads of the transitions let `round` pass. -/
def Passes (s : ConsensusState p) (round : Int) (type : RoundStepType) : Prop :=
  s.roundState.roundNumber < round ∨ s.roundState.roundNumber = round ∧ s.roundState.stepType < type

/-- Of the precommits of `round`, +2/3 are there. -/
def PrecommitsAny (s : ConsensusState p) (round : Int) : Prop :=
  ∃ precommits, p.getPrecommits s.roundState.votes round = some precommits ∧ p.hasTwoThirdsAny precommits = true

/-- What `updateToState` makes of `roundState`. -/
def updated (s : ConsensusState p) (lastCommit : Option p.VoteSet) : ConsensusState p :=
  { s with
    roundState := {
      height := s.state.lastBlockHeight + 1
      roundNumber := 0
      stepType := .newHeight
      validators := s.state.validators
      proposal := none
      proposalBlock := none
      lockedRoundNumber := 0
      lockedBlock := none
      validRoundNumber := 0
      validBlock := none
      votes := p.newHeightVoteSet s.state.chainID (s.state.lastBlockHeight + 1) s.state.validators
      commitRoundNumber := -1
      lastCommit
      lastValidators := s.state.lastValidators }
    updates := s.updates + 1 }

/-- What `enterPrecommit` makes of `s` if it does not throw. -/
inductive Precommits (s : ConsensusState p) (round : Int) : ConsensusState p → Prop
  | nil : p.twoThirdMajority (p.getPrevotes s.roundState.votes round) = none →
    Precommits s round (s.withSigned .precommit none)
  | unlock (id : BlockID) : p.twoThirdMajority (p.getPrevotes s.roundState.votes round) = some id →
    (id.isEmpty = false → ∃ block, s.roundState.proposalBlock = some block ∧ p.hashesTo block id.hash = false) →
    Precommits s round (s.unlocked.withSigned .precommit none)
  /-- Nothing was locked, which need not be written. -/
  | nilUnlocked (id : BlockID) : p.twoThirdMajority (p.getPrevotes s.roundState.votes round) = some id →
    id.isEmpty = true → s.roundState.lockedBlock = none → Precommits s round (s.withSigned .precommit none)
  | lock (id : BlockID) (block : p.Block) : p.twoThirdMajority (p.getPrevotes s.roundState.votes round) = some id →
    id.isEmpty = false → s.roundState.proposalBlock = some block → p.hashesTo block id.hash = true →
    Precommits s round ((s.withRound fun rs =>
      { rs with lockedRoundNumber := round, lockedBlock := some block }).withSigned .precommit id.hash)

/-- What may be asked of the writes. -/
structure Rules (p : Parts) where
  report : ConsensusState p → Int → Prop := fun _ _ => True
  prevote : ConsensusState p → Int → Prop := fun _ _ => True
  precommit : ConsensusState p → Int → Prop := fun _ _ => True
  precommitWait : ConsensusState p → Int → Prop := fun _ _ => True
  update : ConsensusState p → Prop := fun _ => True

inductive Write (r : Rules p) (s : ConsensusState p) : ConsensusState p → Prop
  | addVote (vote : Vote) (peerID : HexBytes) :
    Write r s (s.withRound fun rs => { rs with votes := (p.addVote rs.votes vote peerID).2 })
  | report (height : Int) : r.report s height → Write r s (s.withRound fun rs => { rs with height })
  | newRound (round : Int) : s.Passes round .newRound → Write r s (s.atNewRound round)
  | prevote (round : Int) (new : List (Signed p)) : s.Passes round .prevote → (new ≠ [] → r.prevote s round) →
    (∀ v ∈ new, v.type = .prevote ∧ v.roundState = s.roundState) → new.length ≤ 1 →
    Write r s { s.withRound fun rs => rs.updateRoundStep round .prevote with signed := s.signed ++ new }
  | prevoteWait (round : Int) : s.Passes round .prevoteWait →
    Write r s (s.withRound fun rs => rs.updateRoundStep round .prevoteWait)
  | precommit (round : Int) (t : ConsensusState p) : s.Passes round .precommit → r.precommit s round →
    s.Precommits round t → Write r s t
  | precommitWait (round : Int) : s.Passes round .precommitWait → r.precommitWait s round →
    Write r s (s.withRound fun rs => rs.updateRoundStep rs.roundNumber .precommitWait)
  | commit (round : Int) : s.roundState.stepType < .commit → Write r s (s.atCommit round)
  | update (lastCommit : Option p.VoteSet) : r.update s → s.state.isEmpty = true →
    (s.roundState.commitRoundNumber > -1 → 0 < s.roundState.height →
      s.roundState.height = s.state.lastBlockHeight) →
    Write r s (s.updated lastCommit)
  | unlock (round : Int) (id : BlockID) (block : p.Block) :
    p.twoThirdMajority (p.getPrevotes s.roundState.votes round) = some id → s.roundState.lockedBlock = some block →
    s.roundState.lockedRoundNumber < round → round ≤ s.roundState.roundNumber → p.hashesTo block id.hash = false →
    Write r s s.unlocked
  | valid (round : Int) :
    Write r s (s.withRound fun rs => { rs with validRoundNumber := round, validBlock := rs.proposalBlock })
  | lastCommit (lastCommit : Option p.VoteSet) : Write r s (s.withRound fun rs => { rs with lastCommit })
  | blockMessage (block : Option p.Block) : Write r s (s.withRound fun rs => { rs with proposalBlock := block })

abbrev Writes (r : Rules p) : ConsensusState p → ConsensusState p → Prop := ReflTransGen (Write r)

variable {r : Rules p} {s t : ConsensusState p}

/-! ### The transitions -/

/-- Whether `x` returns or throws, what it leaves behind satisfies `P`. -/
abbrev Leaves (x : M p Unit) (P : ConsensusState p → Prop) (s : ConsensusState p) : Prop :=
  wp x (fun _ => P) (fun _ => P) s

theorem not_rejected_iff {type : RoundStepType} : ¬ (s.roundState.height ≠ height ∨ round < s.roundState.roundNumber ∨
      s.roundState.roundNumber = round ∧ type ≤ s.roundState.stepType) ↔
    s.roundState.height = height ∧ s.Passes round type := by
  rw [Passes]
  simp only [not_or, not_and, not_le, ne_eq, not_not, not_lt]
  constructor
  · rintro ⟨h₁, h₂, h₃⟩
    exact ⟨h₁, h₂.lt_or_eq.imp_right fun h => ⟨h, h₃ h⟩⟩
  · rintro ⟨h₁, h | ⟨h, h'⟩⟩
    · exact ⟨h₁, h.le, fun h' => absurd h' h.ne⟩
    · exact ⟨h₁, h.le, fun _ => h'⟩

theorem passes_newRound_iff : s.Passes round .newRound ↔
    s.roundState.roundNumber < round ∨ s.roundState.roundNumber = round ∧ s.roundState.stepType = .newHeight := by
  have hstep : s.roundState.stepType < .newRound ↔ s.roundState.stepType = .newHeight := by
    rw [RoundStepType.lt_iff]
    cases s.roundState.stepType <;> decide
  rw [Passes, hstep]

variable {P : ConsensusState p → Prop}

theorem leaves_enterNewRound (hs : ¬ (s.roundState.height = height ∧ s.Passes round .newRound) → P s)
    (hP : s.roundState.height = height → s.Passes round .newRound → P (s.atNewRound round)) :
    Leaves (enterNewRound height round) P s := by
  unfold enterNewRound
  simp only [Leaves, wp_bind, wp_get, wp_ite]
  have hreject : ¬ (s.roundState.height ≠ height ∨ round < s.roundState.roundNumber ∨
      s.roundState.roundNumber = round ∧ s.roundState.stepType ≠ .newHeight) ↔
      s.roundState.height = height ∧ s.Passes round .newRound := by
    rw [passes_newRound_iff, Int.lt_iff_le_and_ne]
    grind
  split
  · rename_i h
    exact hs fun h' => hreject.2 h' h
  · rename_i h
    obtain ⟨hheight, hpasses⟩ := hreject.1 h
    have hP := hP hheight hpasses
    simp only [updateRoundStep, modifyRound, clearProposal, wp_modify]
    by_cases hround : round ≠ 0
    · rw [if_pos hround]
      rw [atNewRound, if_pos hround] at hP
      exact hP
    · rw [if_neg hround]
      rw [atNewRound, if_neg hround] at hP
      exact hP

theorem leaves_enterNewRound_of_writes {s₀ : ConsensusState p} (hs : Writes r s₀ s) (height round : Int) :
    Leaves (enterNewRound height round) (Writes r s₀) s :=
  leaves_enterNewRound (fun _ => hs) fun _ hpasses => hs.tail (.newRound round hpasses)

theorem leaves_deref {α : Type} {pointer : Option α} {f : α → M p Unit} (hs : P s)
    (h : ∀ a, pointer = some a → Leaves (f a) P s) : Leaves (deref pointer >>= f) P s := by
  cases pointer with
  | none => exact hs
  | some a => exact h a rfl

theorem wp_isProposalComplete {Q : Bool → ConsensusState p → Prop} {E : Exn → ConsensusState p → Prop}
    (hQ : ∀ b, Q b s) (hE : E .nullPointer s) : wp isProposalComplete Q E s := by
  unfold isProposalComplete
  simp only [wp_bind, wp_get]
  cases hp : s.roundState.proposal with
  | none => exact hE
  | some _ =>
    cases hp' : s.proposal with
    | none => exact hE
    | some proposal =>
      simp only [deref, wp_bind, wp_pure, wp_ite]
      split
      · exact hQ _
      · exact hQ _

/-- At most one prevote is signed, and none if a block is locked. -/
theorem wp_doPrevote {E : Exn → ConsensusState p → Prop} (height round : Int) : wp (doPrevote height round)
    (fun _ t => ∃ new : List (Signed p), (new ≠ [] → height ≠ round ∧ s.roundState.lockedBlock = none) ∧
      (∀ v ∈ new, v.type = .prevote ∧ v.roundState = s.roundState) ∧ new.length ≤ 1 ∧
      t = { s with signed := s.signed ++ new }) E s := by
  unfold doPrevote
  simp only [wp_ite, wp_bind, wp_get]
  split
  · exact ⟨[], by simp⟩
  · rename_i hround
    split
    · exact ⟨[], by simp⟩
    · rename_i hlocked
      have hlocked : s.roundState.lockedBlock = none := by simpa using hlocked
      cases s.roundState.proposalBlock with
      | none => exact ⟨[⟨.prevote, none, s.roundState⟩], fun _ => ⟨hround, hlocked⟩, by simp⟩
      | some block =>
        exact ⟨[⟨.prevote, p.getBlockHash block, s.roundState⟩], fun _ => ⟨hround, hlocked⟩, by simp⟩

section

variable {P : ConsensusState p → Prop} (hs : P s)
include hs

theorem leaves_enterPrevote (hP : s.roundState.height = height → s.Passes round .prevote → ∀ new : List (Signed p),
      (new ≠ [] → height ≠ round ∧ s.roundState.lockedBlock = none) →
      (∀ v ∈ new, v.type = .prevote ∧ v.roundState = s.roundState) → new.length ≤ 1 →
      P { s.withRound fun rs => rs.updateRoundStep round .prevote with signed := s.signed ++ new }) :
    Leaves (enterPrevote height round) P s := by
  unfold enterPrevote
  simp only [Leaves, wp_bind, wp_get, wp_ite]
  split
  · exact hs
  · rename_i hreject
    obtain ⟨hheight, hpasses⟩ := not_rejected_iff.1 hreject
    rw [wp_guarded, wp_bind]
    refine wp_isProposalComplete (fun _ => wp_mono (wp_doPrevote height round) ?_ fun _ _ => id) hs
    rintro _ _ ⟨new, hasked, hnew, hlength, rfl⟩
    exact hP hheight hpasses new hasked hnew hlength

theorem leaves_enterPrevoteWait (hP : s.roundState.height = height → s.Passes round .prevoteWait →
      P (s.withRound fun rs => rs.updateRoundStep round .prevoteWait)) : Leaves (enterPrevoteWait height round) P s := by
  unfold enterPrevoteWait
  simp only [Leaves, wp_bind, wp_get, wp_ite]
  split
  · exact hs
  · rename_i hreject
    obtain ⟨hheight, hpasses⟩ := not_rejected_iff.1 hreject
    rw [wp_guarded, wp_ite]
    split
    · exact hP hheight hpasses
    · exact hP hheight hpasses

theorem leaves_enterPrecommitWait
    (hP : s.roundState.height = height → s.Passes round .precommitWait → s.PrecommitsAny round →
      P (s.withRound fun rs => rs.updateRoundStep rs.roundNumber .precommitWait)) :
    Leaves (enterPrecommitWait height round) P s := by
  unfold enterPrecommitWait
  simp only [Leaves, wp_bind, wp_get, wp_ite]
  split
  · exact hs
  · rename_i hreject
    obtain ⟨hheight, hpasses⟩ := not_rejected_iff.1 hreject
    cases hprecommits : p.getPrecommits s.roundState.votes round with
    | none => exact hs
    | some precommits =>
      simp only [deref, wp_pure]
      split
      · exact hs
      · rename_i hany
        exact hP hheight hpasses ⟨precommits, hprecommits, by simpa using hany⟩

theorem leaves_enterPrecommit
    (hP : s.roundState.height = height → s.Passes round .precommit → ∀ t, s.Precommits round t → P t) :
    Leaves (enterPrecommit height round) P s := by
  unfold enterPrecommit
  simp only [Leaves, wp_bind, wp_get, wp_ite]
  split
  · exact hs
  · rename_i hreject
    obtain ⟨hheight, hpasses⟩ := not_rejected_iff.1 hreject
    have hP := hP hheight hpasses
    -- the guard writes what is there already
    have hguard : ∀ t, P t → Leaves (do
        let rs := (← get).roundState
        updateRoundStep rs.roundNumber rs.stepType) P t := fun t ht => ht
    refine wp_guarded_of ?_ hguard
    cases hid : p.twoThirdMajority (p.getPrevotes s.roundState.votes round) with
    | none => exact hP _ (.nil hid)
    | some id =>
      dsimp only
      simp only [wp_bind, wp_ite, wp_throw]
      split
      · exact hs
      split
      · rename_i hempty
        cases hlocked : s.roundState.lockedBlock with
        | none => exact hP _ (.nilUnlocked id hid hempty hlocked)
        | some block => exact hP _ (.unlock id hid fun h => by rw [hempty] at h; cases h)
      · rename_i hempty
        have hempty : id.isEmpty = false := by simpa using hempty
        cases hblock : s.roundState.proposalBlock with
        | none => exact hs
        | some block =>
          simp only [deref, wp_pure]
          split
          · rename_i hhash
            have hP := hP _ (.lock id block hid hempty hblock hhash)
            rw [← hblock] at hP
            exact hP
          · rename_i hhash
            exact hP _ (.unlock id hid fun _ => ⟨block, hblock, by simpa using hhash⟩)

theorem leaves_updateToState
    (hP : s.state.isEmpty = true → (s.roundState.commitRoundNumber > -1 → 0 < s.roundState.height →
      s.roundState.height = s.state.lastBlockHeight) → ∀ lastCommit, P (s.updated lastCommit)) :
    Leaves (updateToState s.state) P s := by
  unfold updateToState
  simp only [Leaves, wp_bind, wp_get, wp_ite, wp_throw]
  split
  · exact hs
  rename_i hheight
  split
  · exact hs
  split
  · exact hs
  rename_i hignore
  have hempty : s.state.isEmpty = true := by simpa using hignore
  have hheight : s.roundState.commitRoundNumber > -1 → 0 < s.roundState.height →
      s.roundState.height = s.state.lastBlockHeight := by
    intro h₁ h₂
    by_contra h₃
    exact hheight ⟨h₁, h₂, h₃⟩
  have hP := hP hempty hheight
  split
  · cases p.getPrecommits s.roundState.votes s.roundState.commitRoundNumber with
    | none => exact hs
    | some precommits =>
      simp only [deref, wp_bind, wp_pure, wp_ite, wp_throw]
      split
      · exact hs
      · exact hP _
  · exact hP _

theorem leaves_finalizeCommit (hP : Leaves (updateToState s.state) P s) : Leaves (finalizeCommit height) P s := by
  unfold finalizeCommit
  simp only [Leaves, wp_bind, wp_get, wp_ite]
  split
  · exact hs
  cases p.getPrecommits s.roundState.votes s.roundState.commitRoundNumber with
  | none => exact hs
  | some precommits =>
    simp only [deref, wp_pure]
    split
    · exact hs
    · cases s.roundState.proposalBlock with
      | none => exact hs
      | some block =>
        simp only [wp_bind, wp_pure, wp_ite, wp_throw, wp_get]
        split
        · exact hs
        · exact hP

theorem leaves_tryFinalizeCommit
    (hP : Leaves (updateToState s.state) P s) : Leaves (tryFinalizeCommit height) P s := by
  unfold tryFinalizeCommit
  simp only [Leaves, wp_bind, wp_get, wp_ite, wp_throw]
  split
  · exact hs
  cases p.getPrecommits s.roundState.votes s.roundState.commitRoundNumber with
  | none => exact hs
  | some precommits =>
    simp only [deref, wp_pure]
    split
    · exact hs
    · simp only [wp_bind, wp_ite, wp_pure]
      split
      · exact hs
      · cases s.roundState.proposalBlock with
        | none => exact hs
        | some block =>
          simp only [wp_pure]
          split
          · exact hs
          · exact leaves_finalizeCommit hs hP

end

theorem leaves_enterCommit (hs : P s)
    (hP : s.roundState.height = height → s.roundState.stepType < .commit → P (s.atCommit round) ∧
      (s.state.isEmpty = true → (round > -1 → 0 < s.roundState.height →
        s.roundState.height = s.state.lastBlockHeight) → ∀ lastCommit, P ((s.atCommit round).updated lastCommit))) :
    Leaves (enterCommit height round) P s := by
  unfold enterCommit
  simp only [Leaves, wp_bind, wp_get, wp_ite]
  split
  · exact hs
  · rename_i hreject
    simp only [not_or, not_not, not_le, ne_eq] at hreject
    obtain ⟨hcommit, hupdate⟩ := hP hreject.1 hreject.2
    have hguard : Leaves (do
        modifyRound fun rs => { rs.updateRoundStep rs.roundNumber .commit with commitRoundNumber := round }
        tryFinalizeCommit height) P s := by
      simp only [Leaves, modifyRound, wp_bind, wp_modify]
      exact leaves_tryFinalizeCommit (s := s.atCommit round) hcommit (leaves_updateToState hcommit hupdate)
    rw [wp_guarded]
    cases p.getPrecommits s.roundState.votes round with
    | none => exact hs
    | some precommits =>
      simp only [deref, wp_bind, wp_pure]
      split
      · exact hguard
      · exact hguard

/-! ### Votes -/

theorem leaves_bind {x : M p Unit} {f : Unit → M p Unit} {R : ConsensusState p → Prop} (hx : Leaves x R s)
    (hf : ∀ t, R t → Leaves (f ()) P t) (hR : ∀ t, R t → P t) : Leaves (x >>= f) P s :=
  (wp_bind x f).2 (wp_mono hx (fun _ => hf) fun _ => hR)

theorem leaves_unlockBlock {vote : Vote} {blockId : BlockID} (hs : P s)
    (hP : ∀ block, s.roundState.lockedBlock = some block → s.roundState.lockedRoundNumber < vote.roundNumber →
      vote.roundNumber ≤ s.roundState.roundNumber → p.hashesTo block blockId.hash = false → P s.unlocked) :
    Leaves (unlockBlock vote blockId) P s := by
  unfold unlockBlock
  simp only [Leaves, wp_bind, wp_get]
  cases hlocked : s.roundState.lockedBlock with
  | none => exact hs
  | some block =>
    simp only [wp_ite]
    split
    · rename_i h
      exact hP block hlocked h.1 h.2.1 (by simpa using h.2.2)
    · exact hs

theorem leaves_tryUpdateValidRoundAndBlock {vote : Vote} {blockId : BlockID} (hs : P s)
    (hP : P (s.withRound fun rs => { rs with validRoundNumber := vote.roundNumber, validBlock := rs.proposalBlock })) :
    Leaves (tryUpdateValidRoundAndBlock vote blockId) P s := by
  unfold tryUpdateValidRoundAndBlock
  simp only [Leaves, wp_bind, wp_get, wp_ite]
  split
  · cases s.roundState.proposalBlock with
    | none => exact hs
    | some block =>
      simp only [deref, wp_pure]
      split
      · exact hP
      · exact hs
  · exact hs

/-- `t` is what a vote makes of `s` before it enters precommit. -/
structure Ready (s t : ConsensusState p) : Prop where
  height : t.roundState.height = s.roundState.height
  state : t.state = s.state
  signed : t.signed = s.signed
  proposalBlock : t.roundState.proposalBlock = s.roundState.proposalBlock
  locked : t.roundState.lockedBlock = none ∨ t.roundState.lockedBlock = s.roundState.lockedBlock
  votes : t.roundState.votes = s.roundState.votes ∨
    ∃ round, t.roundState.votes = p.setRoundNumber s.roundState.votes round
  round : s.roundState.roundNumber < t.roundState.roundNumber ∨
    s.roundState.roundNumber = t.roundState.roundNumber ∧
      (t.roundState.stepType = s.roundState.stepType ∨ s.roundState.stepType = .newHeight)

theorem Ready.refl (s : ConsensusState p) : Ready s s := ⟨rfl, rfl, rfl, rfl, .inr rfl, .inl rfl, .inr ⟨rfl, .inl rfl⟩⟩

/-- The rules do not ask anything of what a vote makes the node do for the round it is in, or for an earlier one. -/
structure Rules.Natural (r : Rules p) : Prop where
  prevote : ∀ s : ConsensusState p, r.prevote s s.roundState.roundNumber
  precommitWait : ∀ (s : ConsensusState p) round, round ≤ s.roundState.roundNumber → r.precommitWait s round

/-- A vote that is in `s` already makes the handler call `enterCommit`. -/
def Commits (s : ConsensusState p) (vote : Vote) : Prop :=
  vote.type = .precommit ∧ ∃ precommits blockId, p.getPrecommits s.roundState.votes vote.roundNumber = some precommits ∧
    p.twoThirdMajority precommits = some blockId ∧ blockId.hash.isEmpty = false

/-- It makes the handler call `enterPrecommit`. -/
def EntersPrecommit (s : ConsensusState p) (vote : Vote) : Prop :=
  vote.type = .prevote ∧ p.hasTwoThirdsAny (p.getPrevotes s.roundState.votes vote.roundNumber) = true ∧
    p.hasTwoThirdMajority (p.getPrevotes s.roundState.votes vote.roundNumber) = true ∨
  vote.type = .precommit ∧ (∃ precommits, p.getPrecommits s.roundState.votes vote.roundNumber = some precommits ∧
    p.twoThirdMajority precommits = none ∧ p.hasTwoThirdsAny precommits = true) ∨
  s.Commits vote

/-- What the rules ask of a vote that is in `s` already. -/
structure Rules.AllowsVote (r : Rules p) (s : ConsensusState p) (vote : Vote) : Prop where
  precommit : s.EntersPrecommit vote → ∀ t, Ready s t → t.roundState.roundNumber = vote.roundNumber →
    t.Passes vote.roundNumber .precommit → r.precommit t vote.roundNumber
  update : s.Commits vote → ∀ t, t.roundState.height = s.roundState.height → t.state = s.state →
    t.roundState.commitRoundNumber = vote.roundNumber → t.state.isEmpty = true →
    (vote.roundNumber > -1 → 0 < s.roundState.height → s.roundState.height = s.state.lastBlockHeight) → r.update t

/-- Where a handler is before `enterNewRound`. -/
structure Counted (r : Rules p) (s t : ConsensusState p) : Prop where
  writes : Writes r s t
  ready : Ready s t
  roundNumber : t.roundState.roundNumber = s.roundState.roundNumber
  stepType : t.roundState.stepType = s.roundState.stepType
  votes : t.roundState.votes = s.roundState.votes

theorem Counted.refl (s : ConsensusState p) : Counted r s s := ⟨.refl, .refl s, rfl, rfl, rfl⟩

/-- Where it is after that. -/
structure Entered (r : Rules p) (s : ConsensusState p) (round : Int) (t : ConsensusState p) : Prop where
  writes : Writes r s t
  ready : Ready s t
  round : round ≤ t.roundState.roundNumber

theorem Counted.leaves_enterNewRound (ht : Counted r s t) :
    Leaves (enterNewRound t.roundState.height round) (Entered r s round) t := by
  refine ConsensusState.leaves_enterNewRound (fun h => ?_) fun _ hpasses => ?_
  · refine ⟨ht.writes, ht.ready, ?_⟩
    by_contra hlt
    exact h ⟨rfl, .inl (not_le.1 hlt)⟩
  · refine ⟨ht.writes.tail (.newRound round hpasses), ?_, le_refl _⟩
    refine { ht.ready with votes := .inr ⟨round + 1, ?_⟩, round := ?_ }
    · rw [← ht.votes]
      rfl
    · rw [← ht.roundNumber, ← ht.stepType]
      exact (passes_newRound_iff.1 hpasses).imp id fun ⟨h, h'⟩ => ⟨h, .inr h'⟩

/-- The transitions that a vote goes on with only write what the rules allow. -/
theorem Entered.leaves_enterPrecommit {vote : Vote} (hallows : r.AllowsVote s vote) (hvote : s.EntersPrecommit vote)
    (ht : Entered r s vote.roundNumber t) :
    Leaves (enterPrecommit t.roundState.height vote.roundNumber)
      (fun u => Writes r s u ∧ u.roundState.height = s.roundState.height ∧ u.state = s.state ∧
        vote.roundNumber ≤ u.roundState.roundNumber) t := by
  refine ConsensusState.leaves_enterPrecommit ⟨ht.writes, ht.ready.height, ht.ready.state, ht.round⟩ ?_
  intro _ hpasses u hu
  have hround : t.roundState.roundNumber = vote.roundNumber :=
    le_antisymm (hpasses.elim le_of_lt fun h => h.1.le) ht.round
  have hwrites := ht.writes.tail (.precommit _ u hpasses (hallows.precommit hvote t ht.ready hround hpasses) hu)
  cases hu <;> exact ⟨hwrites, ht.ready.height, ht.ready.state, ht.round⟩

theorem leaves_enterPrevote_of_le (hr : r.Natural) (ht : Writes r s t) (height : Int)
    (hround : round ≤ t.roundState.roundNumber) :
    Leaves (enterPrevote height round) (fun u => Writes r s u ∧ round ≤ u.roundState.roundNumber) t := by
  refine leaves_enterPrevote ⟨ht, hround⟩ fun _ hpasses new _ hnew hlength => ?_
  have heq : t.roundState.roundNumber = round := le_antisymm (hpasses.elim le_of_lt fun h => h.1.le) hround
  exact ⟨ht.tail (.prevote round new hpasses (fun _ => heq ▸ hr.prevote t) hnew hlength), le_refl _⟩

section

variable {vote : Vote} (hr : r.Natural) (hallows : r.AllowsVote s vote)
include hr hallows

theorem leaves_followPrevotes (htype : vote.type = .prevote) (ht : Counted r s t) :
    Leaves (followPrevotes vote (p.getPrevotes s.roundState.votes vote.roundNumber)) (Writes r s) t := by
  unfold followPrevotes
  rw [Leaves, wp_bind, wp_get]
  split
  · rename_i hany
    refine leaves_bind (x := enterNewRound t.roundState.height vote.roundNumber) ht.leaves_enterNewRound
      (fun u hu => ?_) fun _ hu => hu.writes
    split
    · rename_i hmajority
      exact wp_mono (hu.leaves_enterPrecommit hallows (.inl ⟨htype, hany.2, hmajority⟩)) (fun _ _ h => h.1)
        fun _ _ h => h.1
    · refine leaves_bind (leaves_enterPrevote_of_le hr hu.writes u.roundState.height hu.round) (fun v hv => ?_)
        fun _ hv => hv.1
      exact leaves_enterPrevoteWait hv.1 fun _ hpasses => hv.1.tail (.prevoteWait _ hpasses)
  · split
    · split
      · rw [wp_bind]
        refine wp_isProposalComplete (fun b => ?_) ht.writes
        split
        · exact wp_mono (leaves_enterPrevote_of_le hr ht.writes _ (le_refl _)) (fun _ _ h => h.1) fun _ _ h => h.1
        · exact ht.writes
      · exact ht.writes
    · exact ht.writes

theorem leaves_addPrevote (htype : vote.type = .prevote) : Leaves (addPrevote vote) (Writes r s) s := by
  unfold addPrevote
  simp only [Leaves, wp_bind, wp_get]
  cases hid : p.twoThirdMajority (p.getPrevotes s.roundState.votes vote.roundNumber) with
  | none => exact leaves_followPrevotes hr hallows htype (.refl s)
  | some blockId =>
    have hunlock : Leaves (unlockBlock vote blockId) (Counted r s) s := by
      refine leaves_unlockBlock (.refl s) fun block hlocked hlt hle hhash => ?_
      exact ⟨.single (.unlock _ blockId block hid hlocked hlt hle hhash), { Ready.refl s with locked := .inl rfl },
        rfl, rfl, rfl⟩
    refine leaves_bind hunlock (fun t ht => ?_) fun _ ht => ht.writes
    have hvalid : Leaves (tryUpdateValidRoundAndBlock vote blockId) (Counted r s) t :=
      leaves_tryUpdateValidRoundAndBlock ht ⟨ht.writes.tail (.valid _), { ht.ready with }, ht.roundNumber,
        ht.stepType, ht.votes⟩
    exact leaves_bind hvalid (fun u hu => leaves_followPrevotes hr hallows htype hu) fun _ hu => hu.writes

theorem leaves_addPrecommit (htype : vote.type = .precommit) : Leaves (addPrecommit vote) (Writes r s) s := by
  unfold addPrecommit
  rw [Leaves, wp_bind, wp_get]
  refine leaves_deref (f := fun precommits => _) .refl fun precommits hprecommits => ?_
  have henter : ∀ k, Leaves (enterNewRound s.roundState.height k) (Entered r s k) s := fun _ =>
    (Counted.refl s).leaves_enterNewRound
  split
  · rename_i blockId hid
    split
    · exact wp_mono (henter _) (fun _ _ h => h.writes) fun _ _ h => h.writes
    · rename_i hhash
      have hcommits : s.Commits vote := ⟨htype, precommits, blockId, hprecommits, hid, by simpa using hhash⟩
      refine leaves_bind (x := enterNewRound s.roundState.height vote.roundNumber) (henter _) (fun t ht => ?_)
        fun _ ht => ht.writes
      refine leaves_bind (x := enterPrecommit t.roundState.height vote.roundNumber)
        (ht.leaves_enterPrecommit hallows (.inr (.inr hcommits)))
        (fun u hu => ?_) fun _ hu => hu.1
      have hcommit : Leaves (enterCommit u.roundState.height vote.roundNumber) (Writes r s) u := by
        obtain ⟨hwrites, hheight, hstate, -⟩ := hu
        refine leaves_enterCommit hwrites fun _ hstep => ?_
        have hatCommit := hwrites.tail (.commit vote.roundNumber hstep)
        refine ⟨hatCommit, fun hempty hlast lastCommit => hatCommit.tail (.update lastCommit ?_ hempty hlast)⟩
        rw [hheight, hstate] at hlast
        exact hallows.update hcommits _ hheight hstate rfl hempty hlast
      refine leaves_bind hcommit (fun v hv => ?_) fun _ => id
      split
      · exact leaves_enterNewRound_of_writes hv _ _
      · exact hv
  · rename_i hid
    split
    · rename_i hany
      refine leaves_bind (x := enterNewRound s.roundState.height vote.roundNumber) (henter _) (fun t ht => ?_)
        fun _ ht => ht.writes
      refine leaves_bind (x := enterPrecommit t.roundState.height vote.roundNumber)
        (ht.leaves_enterPrecommit hallows (.inr (.inl ⟨htype, precommits, hprecommits, hid, hany.2⟩)))
        (fun u hu => ?_) fun _ hu => hu.1
      exact leaves_enterPrecommitWait hu.1 fun _ hpasses _ =>
        hu.1.tail (.precommitWait _ hpasses (hr.precommitWait u _ hu.2.2.2))
    · exact .refl

end

theorem leaves_handleStragglerCommit (vote : Vote) : Leaves (handleStragglerCommit vote) (Writes r s) s := by
  unfold handleStragglerCommit
  rw [Leaves, wp_bind, wp_get]
  refine leaves_deref (f := fun lastCommit => _) .refl fun lastCommit _ => ?_
  split
  · exact .refl
  · rename_i lastCommit' _
    have hw : Writes r s (s.withRound fun rs => { rs with lastCommit := some lastCommit' }) := .single (.lastCommit _)
    refine leaves_bind (x := modifyRound fun rs => { rs with lastCommit := some lastCommit' })
      (R := fun t => Writes r s t) hw (fun t ht => ?_) fun _ => id
    split
    · exact leaves_enterNewRound_of_writes ht _ _
    · exact ht

/-! ### Steps -/

/-- What the rules ask of a step. -/
def Rules.Allows (r : Rules p) (s : ConsensusState p) : Event p → Prop
  | .addVote vote peerID => s.roundState.height = vote.height →
    ∀ height, (p.addVote s.roundState.votes vote peerID).1 = some height →
    r.report (s.withRound fun rs => { rs with votes := (p.addVote rs.votes vote peerID).2 }) height ∧
    r.AllowsVote (s.withVote vote peerID height) vote
  | .enterPrevote height round => s.roundState.height = height → s.Passes round .prevote → height ≠ round →
    s.roundState.lockedBlock = none → r.prevote s round
  | .enterPrecommit height round => s.roundState.height = height → s.Passes round .precommit → r.precommit s round
  | .enterPrecommitWait height round => s.roundState.height = height → s.Passes round .precommitWait →
    s.PrecommitsAny round → r.precommitWait s round
  | .enterCommit height round => s.roundState.height = height → s.roundState.stepType < .commit →
    s.state.isEmpty = true →
    (round > -1 → 0 < s.roundState.height → s.roundState.height = s.state.lastBlockHeight) → r.update (s.atCommit round)
  | _ => True

theorem leaves_addVote {vote : Vote} {peerID : HexBytes} (hr : r.Natural) (hallows : r.Allows s (.addVote vote peerID)) :
    Leaves (addVote vote peerID) (Writes r s) s := by
  unfold addVote
  rw [Leaves, wp_bind, wp_get]
  split
  · split
    · exact leaves_handleStragglerCommit vote
    · exact .refl
  · split
    · rename_i hheight
      have hvotes : Write r s (s.withRound fun rs => { rs with votes := (p.addVote rs.votes vote peerID).2 }) :=
        .addVote vote peerID
      have hallows : ∀ height, (p.addVote s.roundState.votes vote peerID).1 = some height → _ :=
        hallows (Int.sub_eq_zero.1 hheight)
      simp only [withVote, withRound] at hvotes hallows
      rcases hadd : p.addVote s.roundState.votes vote peerID with ⟨result, votes⟩
      simp only [hadd] at hvotes hallows
      rw [wp_bind]
      cases result with
      | none => exact .single hvotes
      | some height =>
        obtain ⟨hreport, hvote⟩ := hallows height rfl
        let u : ConsensusState p := s.withRound fun rs => { rs with votes, height }
        have hwrites : Writes r s u := .head hvotes (.single (.report height hreport))
        have hfor : Leaves (addVoteForCurrentRound vote) (Writes r u) u := by
          unfold addVoteForCurrentRound
          cases htype : vote.type with
          | prevote => exact leaves_addPrevote hr hvote htype
          | precommit => exact leaves_addPrecommit hr hvote htype
          | firstCommit => exact .refl
        have hboth : Leaves (addVoteForCurrentRound vote) (Writes r s) u :=
          wp_mono hfor (fun _ _ h => hwrites.trans h) fun _ _ h => hwrites.trans h
        exact hboth
    · exact .refl

/-- What an event leaves behind is where the step goes. -/
theorem Leaves.of_step {e : Event p} (hleaves : Leaves e.run P s) (h : s.step e = some t) : P t := by
  rw [step] at h
  rw [Leaves, wp] at hleaves
  cases hrun : e.run s with
  | ok a u =>
    rw [hrun] at h hleaves
    exact Option.some.inj h ▸ hleaves
  | error exn u =>
    rw [hrun] at h hleaves
    dsimp only at h
    split at h
    · cases h
    · exact Option.some.inj h ▸ hleaves

/-- Whatever a step calls, it only writes what the rules allow. -/
theorem writes_step {e : Event p} (hr : r.Natural) (hallows : r.Allows s e) (h : s.step e = some t) : Writes r s t := by
  have hleaves : Leaves e.run (Writes r s) s := by
    cases e with
    | addVote vote peerID => exact leaves_addVote hr hallows
    | enterNewRound height round => exact leaves_enterNewRound_of_writes .refl _ _
    | enterPrevote height round =>
      exact leaves_enterPrevote .refl fun hheight hpasses new hasked hnew hlength =>
        .single (.prevote round new hpasses (fun hsome => (hasked hsome).elim (hallows hheight hpasses)) hnew hlength)
    | enterPrevoteWait height round => exact leaves_enterPrevoteWait .refl fun _ hpasses => .single (.prevoteWait _ hpasses)
    | enterPrecommit height round =>
      exact ConsensusState.leaves_enterPrecommit .refl fun hheight hpasses t ht =>
        .single (.precommit round t hpasses (hallows hheight hpasses) ht)
    | enterPrecommitWait height round =>
      exact leaves_enterPrecommitWait .refl fun hheight hpasses hany =>
        .single (.precommitWait _ hpasses (hallows hheight hpasses hany))
    | enterCommit height round =>
      refine leaves_enterCommit .refl fun hheight hstep => ?_
      have hcommit : Write r s (s.atCommit round) := .commit round hstep
      exact ⟨.single hcommit, fun hempty hlast lastCommit =>
        .head hcommit (.single (.update lastCommit (hallows hheight hstep hempty hlast) hempty hlast))⟩
    | blockMessage block => exact .single (.blockMessage block)
  exact hleaves.of_step h

/-- Step after step, as far as each is possible, and taken from a state with `P`. -/
def run (s : ConsensusState p) (events : List (Event p)) (P : ConsensusState p → Bool := fun _ => true) :
    Option (ConsensusState p) :=
  events.foldlM (fun s e => if P s then s.step e else none) s

theorem Reaches.run {C : ConsensusState p → Event p → Prop} {events : List (Event p)} {P : ConsensusState p → Bool}
    (hC : ∀ s, ∀ e ∈ events, P s = true → C s e) (h : s.run events P = some t) : Reaches C s t := by
  induction events generalizing s with
  | nil => exact Option.some.inj h ▸ .refl
  | cons e events ih =>
    obtain ⟨u, hu, h⟩ := Option.bind_eq_some_iff.1 h
    obtain ⟨hP, hu⟩ := Option.ite_none_right_eq_some.1 hu
    exact .head ⟨e, hC s e List.mem_cons_self hP, hu⟩ (ih (fun s e he => hC s e (List.mem_cons_of_mem _ he)) h)

end ConsensusState

end Kmdx.Tm
