import Kmdx.Tm.Commits
import Kmdx.Tm.FourValidators

/-!
# The last commit (`ConsensusState::reconstructLastCommit`)

It is asked for the majority after each vote, a vote that is missing is looked at, and the votes are not kept. So the last
commit is reconstructed only where it is there already (`ConsensusState.reconstructs_iff`).
-/

namespace Kmdx.Tm

open Wp List

variable {p : Parts}

/-- What `libtm/types` declares for sets of votes, and the power of the validators -/
structure VoteSets (p : Parts) where
  new : String → Int → Int → VoteType → p.ValidatorSet → p.VoteSet
  power : p.ValidatorSet → HexBytes → Nat
  totalPower : p.ValidatorSet → Nat
  /-- A precommit for the last block of the state and for a round, after others -/
  Valid : State p → Int → List Vote → Vote → Prop

namespace VoteSets

variable (q : VoteSets p)

/-- The set of the last precommits, with votes added -/
def tally (state : State p) (round : Int) (votes : List Vote) : Option p.VoteSet :=
  votes.foldlM p.addVoteToSet (q.new state.chainID state.lastBlockHeight round .precommit state.lastValidators)

def AllValid (state : State p) (round : Int) (votes : List Vote) : Prop :=
  ∀ before vote behind, votes = before ++ vote :: behind → q.Valid state round before vote

def powerFor (validators : p.ValidatorSet) (votes : List Vote) (id : BlockID) : Nat :=
  ((votes.filter (·.blockID = id)).map fun vote => q.power validators vote.validatorAddress).sum

/-- +2/3 for one block -/
def Majority (validators : p.ValidatorSet) (votes : List Vote) : Prop :=
  ∃ id, 2 * q.totalPower validators < 3 * q.powerFor validators votes id

end VoteSets

/-- Valid votes are added, and the majority is decided by them. -/
structure LawfulVoteSets (q : VoteSets p) : Prop where
  addVote : ∀ state round votes vote set, q.tally state round votes = some set → q.AllValid state round (votes ++ [vote]) →
    ∃ set', p.addVoteToSet set vote = some set'
  hasTwoThirdMajority : ∀ state round votes set, q.tally state round votes = some set → q.AllValid state round votes →
    (p.hasTwoThirdMajority set = true ↔ q.Majority state.lastValidators votes)

inductive ReconstructError
  | commit (error : CommitError)
  | panicCrisis
  | panicNoPolka
deriving DecidableEq

namespace ConsensusState

/-- A member of `Commit` -/
def callCommit {α : Type} (x : Except CommitError α) : EStateM ReconstructError (ConsensusState p) α :=
  match x with
  | .ok a => return a
  | .error e => throw (.commit e)

/-- The loop of `reconstructLastCommit` -/
def addPrecommits (lastPrecommits : p.VoteSet) : List (Option Vote) → EStateM ReconstructError (ConsensusState p) p.VoteSet
  | [] => return lastPrecommits
  | vote :: precommits => do
    let precommit ← callCommit (Commit.derefVote vote)
    match p.addVoteToSet lastPrecommits precommit with
    | none => throw .panicCrisis
    | some lastPrecommits =>
      if !p.hasTwoThirdMajority lastPrecommits then
        throw .panicNoPolka
      addPrecommits lastPrecommits precommits

def reconstructLastCommit (q : VoteSets p) (loadSeenCommit : Int → Commit) (state : State p) :
    EStateM ReconstructError (ConsensusState p) Unit := do
  if state.lastBlockHeight = 0 then
    return
  let seenCommit := loadSeenCommit state.lastBlockHeight
  let round ← callCommit seenCommit.round
  let lastPrecommits := q.new state.chainID state.lastBlockHeight round .precommit state.lastValidators
  let _ ← addPrecommits lastPrecommits seenCommit.precommits

end ConsensusState

/-- The precommits that are there -/
def votesIn (precommits : List (Option Vote)) : List Vote := precommits.filterMap id

/-- The round of the first one, or none -/
def roundOf (precommits : List (Option Vote)) : Int := ((Commit.firstVote precommits).map Vote.roundNumber).getD 0

namespace ConsensusState

/-- With a majority, the set of the precommits becomes the last commit; without one, it is thrown, and the round state stays.
-/
structure Reconstructs (q : VoteSets p) (seenCommit : Commit) (state : State p) (s : ConsensusState p) : Prop where
  majority : q.Majority state.lastValidators (votesIn seenCommit.precommits) → ∃ t,
    reconstructLastCommit q (fun _ => seenCommit) state s = .ok () t ∧ t.roundState.lastCommit.isSome ∧
      t.roundState.lastCommit = q.tally state (roundOf seenCommit.precommits) (votesIn seenCommit.precommits)
  noMajority : ¬ q.Majority state.lastValidators (votesIn seenCommit.precommits) → ∃ e t,
    reconstructLastCommit q (fun _ => seenCommit) state s = .error e t ∧ e ≠ .commit .nullPointer ∧
      t.roundState = s.roundState

/-- The first precommit is there and was asked for; and if there is a majority, it is the first one's alone, nobody is
missing, and the last commit is already what it should become. -/
structure Reconstructed (q : VoteSets p) (precommits : List (Option Vote)) (asked : Bool) (state : State p)
    (s : ConsensusState p) : Prop where
  asked : asked = true
  first : ∃ vote behind, precommits = some vote :: behind ∧ (q.Majority state.lastValidators (votesIn precommits) →
    q.Majority state.lastValidators [vote] ∧ none ∉ behind ∧ s.roundState.lastCommit.isSome ∧
      s.roundState.lastCommit = q.tally state vote.roundNumber (votesIn precommits))

end ConsensusState

namespace VoteSets

variable {q : VoteSets p} {state : State p} {round : Int} {votes votes' : List Vote} {vote : Vote} {set set' : p.VoteSet}

theorem powerFor_append (validators : p.ValidatorSet) (votes votes' : List Vote) (id : BlockID) :
    q.powerFor validators (votes ++ votes') id = q.powerFor validators votes id + q.powerFor validators votes' id := by
  simp [powerFor]

/-- More votes do no harm. -/
theorem Majority.append {validators : p.ValidatorSet} (h : q.Majority validators votes) (votes' : List Vote) :
    q.Majority validators (votes ++ votes') := by
  obtain ⟨id, hid⟩ := h
  refine ⟨id, ?_⟩
  rw [powerFor_append]
  omega

theorem not_majority_nil (validators : p.ValidatorSet) : ¬ q.Majority validators [] := by
  rintro ⟨id, hid⟩
  simp [powerFor] at hid

theorem AllValid.of_append (h : q.AllValid state round (votes ++ votes')) : q.AllValid state round votes := by
  rintro before vote behind rfl
  exact h before vote (behind ++ votes') (by simp)

theorem tally_append (htally : q.tally state round votes = some set) (hadd : p.addVoteToSet set vote = some set') :
    q.tally state round (votes ++ [vote]) = some set' := by
  unfold tally at htally ⊢
  simp [foldlM_append, htally, hadd]

end VoteSets

section Votes

variable {vote : Vote} {precommits : List (Option Vote)}

@[simp] theorem votesIn_nil : votesIn [] = [] := rfl

@[simp] theorem votesIn_some_cons : votesIn (some vote :: precommits) = vote :: votesIn precommits := rfl

@[simp] theorem votesIn_none_cons : votesIn (none :: precommits) = votesIn precommits := rfl

@[simp] theorem roundOf_some_cons : roundOf (some vote :: precommits) = vote.roundNumber := rfl

end Votes

namespace ConsensusState

variable {q : VoteSets p} {state : State p} {s : ConsensusState p} {round : Int} {before : List Vote} {vote : Vote}
  {precommits : List (Option Vote)} {set set' : p.VoteSet} {blockID : BlockID} {asked : Bool}

theorem addPrecommits_some (precommits : List (Option Vote)) (hadd : p.addVoteToSet set vote = some set') :
    addPrecommits set (some vote :: precommits) s =
    if p.hasTwoThirdMajority set' then addPrecommits set' precommits s else .error .panicNoPolka s := by
  have hderef : callCommit (Commit.derefVote (some vote)) s = .ok vote s := rfl
  rw [addPrecommits, run_bind_of_ok hderef, hadd]
  cases h : p.hasTwoThirdMajority set' <;> simp [h, run_bind, run_throw]

/-- As soon as there is a majority, the other votes are added too, up to one that is missing. -/
theorem addPrecommits_of_majority (hq : LawfulVoteSets q) (htally : q.tally state round before = some set)
    (hvalid : q.AllValid state round (before ++ votesIn precommits)) (hmajority : q.Majority state.lastValidators before) :
    none ∈ precommits ∧ addPrecommits set precommits s = .error (.commit .nullPointer) s ∨
    none ∉ precommits ∧ ∃ set', addPrecommits set precommits s = .ok set' s ∧
      q.tally state round (before ++ votesIn precommits) = some set' := by
  induction precommits generalizing before set with
  | nil => exact .inr ⟨not_mem_nil, set, rfl, by simpa using htally⟩
  | cons vote precommits ih =>
    cases vote with
    | none => exact .inl ⟨mem_cons_self, rfl⟩
    | some vote =>
      rw [votesIn_some_cons, append_cons] at hvalid ⊢
      obtain ⟨set', hadd⟩ := hq.addVote state round before vote set htally hvalid.of_append
      have htally' := VoteSets.tally_append htally hadd
      have hmajority' := hmajority.append [vote]
      have hset' := (hq.hasTwoThirdMajority state round _ set' htally' hvalid.of_append).2 hmajority'
      rw [addPrecommits_some precommits hadd, if_pos hset']
      simpa using ih htally' hvalid hmajority'

variable {seenCommit : Commit}

theorem reconstructLastCommit_of_round (hheight : 0 < state.lastBlockHeight)
    (hround : seenCommit.round = .ok round) : reconstructLastCommit q (fun _ => seenCommit) state s =
      (addPrecommits (q.new state.chainID state.lastBlockHeight round .precommit state.lastValidators)
        seenCommit.precommits >>= fun _ => pure ()) s := by
  have hcall : callCommit seenCommit.round s = .ok round s := by rw [hround]; rfl
  rw [reconstructLastCommit, if_neg hheight.ne', run_bind_of_ok hcall]

theorem reconstructLastCommit_of_round_error {e : CommitError} (hheight : 0 < state.lastBlockHeight)
    (hround : seenCommit.round = .error e) : reconstructLastCommit q (fun _ => seenCommit) state s =
      .error (.commit e) s := by
  have hcall : callCommit seenCommit.round s = .error (.commit e) s := by rw [hround]; rfl
  rw [reconstructLastCommit, if_neg hheight.ne', run_bind_of_error hcall]

theorem round_of_none (hvotes : seenCommit.precommits ≠ []) (hfirst : seenCommit.firstPrecommit = none) :
    seenCommit.round = .error .nullPointer := by
  simp [Commit.round, hvotes, hfirst, Commit.derefVote]

theorem round_of_some (hvotes : seenCommit.precommits ≠ []) (hfirst : seenCommit.firstPrecommit = some vote) :
    seenCommit.round = .ok vote.roundNumber := by
  simp [Commit.round, hvotes, hfirst, Commit.derefVote]

/-- The first vote is looked at, by `Commit::round` or in the loop. -/
theorem reconstructLastCommit_of_null (hheight : 0 < state.lastBlockHeight) (hvotes : precommits ≠ [])
    (hnull : asked = false ∨ ∃ behind, precommits = none :: behind) :
    reconstructLastCommit q (fun _ => Commit.lookedUp blockID precommits asked) state s =
      .error (.commit .nullPointer) s := by
  cases hfirst : (Commit.lookedUp blockID precommits asked).firstPrecommit with
  | none => exact reconstructLastCommit_of_round_error hheight (round_of_none hvotes hfirst)
  | some vote =>
    rw [reconstructLastCommit_of_round hheight (round_of_some hvotes hfirst)]
    rcases hnull with rfl | ⟨behind, rfl⟩
    · cases hfirst
    · rfl

theorem not_reconstructs_of_null
    (hrun : reconstructLastCommit q (fun _ => seenCommit) state s = .error (.commit .nullPointer) s) :
    ¬ Reconstructs q seenCommit state s := by
  intro h
  by_cases hmajority : q.Majority state.lastValidators (votesIn seenCommit.precommits)
  · obtain ⟨t, ht, -⟩ := h.majority hmajority
    rw [hrun] at ht
    cases ht
  · obtain ⟨e, t, ht, hne, -⟩ := h.noMajority hmajority
    rw [hrun] at ht
    cases ht
    exact hne rfl

/-- Nobody has voted, and nothing is thrown. -/
theorem not_reconstructs_nil (hheight : 0 < state.lastBlockHeight) :
    ¬ Reconstructs q (Commit.lookedUp blockID [] asked) state s := by
  intro h
  obtain ⟨e, t, ht, -⟩ := h.noMajority (VoteSets.not_majority_nil _)
  rw [reconstructLastCommit_of_round hheight rfl] at ht
  cases ht

/-- With the first vote, it is decided. -/
theorem reconstructs_cons_iff (hq : LawfulVoteSets q) {behind : List (Option Vote)} (hheight : 0 < state.lastBlockHeight)
    (hvalid : q.AllValid state vote.roundNumber (vote :: votesIn behind)) :
    Reconstructs q (Commit.lookedUp blockID (some vote :: behind) true) state s ↔
      (q.Majority state.lastValidators (vote :: votesIn behind) → q.Majority state.lastValidators [vote] ∧ none ∉ behind ∧
        s.roundState.lastCommit.isSome ∧ s.roundState.lastCommit =
          q.tally state vote.roundNumber (vote :: votesIn behind)) := by
  have hvalid' : q.AllValid state vote.roundNumber ([vote] ++ votesIn behind) := hvalid
  obtain ⟨set, hadd⟩ := hq.addVote state vote.roundNumber [] vote _ rfl hvalid'.of_append
  have htally : q.tally state vote.roundNumber [vote] = some set :=
    VoteSets.tally_append (rfl : q.tally state vote.roundNumber [] = some _) hadd
  have hset := hq.hasTwoThirdMajority state vote.roundNumber [vote] set htally hvalid'.of_append
  have hround : (Commit.lookedUp blockID (some vote :: behind) true).round = .ok vote.roundNumber :=
    round_of_some (cons_ne_nil _ _) rfl
  have hrun := reconstructLastCommit_of_round (q := q) (s := s) hheight hround
  have hloop := addPrecommits_some (s := s) behind hadd
  by_cases hfirst : q.Majority state.lastValidators [vote]
  · have hall : q.Majority state.lastValidators (vote :: votesIn behind) := hfirst.append (votesIn behind)
    rw [if_pos (hset.2 hfirst)] at hloop
    rcases addPrecommits_of_majority (s := s) hq htally hvalid' hfirst with ⟨hnone, hthrows⟩ | ⟨hnone, set', hok, -⟩
    · refine iff_of_false (not_reconstructs_of_null (hrun.trans (run_bind_of_error (hloop.trans hthrows) _))) fun h => ?_
      exact (h hall).2.1 hnone
    · have hrun := hrun.trans (run_bind_of_ok (hloop.trans hok) _)
      constructor
      · intro h _
        obtain ⟨t, ht, hsome, hkept⟩ := h.majority hall
        rw [hrun] at ht
        cases ht
        exact ⟨hfirst, hnone, hsome, hkept⟩
      · intro h
        exact ⟨fun _ => ⟨s, hrun, (h hall).2.2⟩, fun hno => absurd hall hno⟩
  · rw [if_neg (fun h => hfirst (hset.1 h))] at hloop
    have hrun := hrun.trans (run_bind_of_error hloop _)
    constructor
    · intro h hall
      obtain ⟨t, ht, -⟩ := h.majority hall
      rw [hrun] at ht
      cases ht
    · intro h
      refine ⟨fun hall => absurd (h hall).1 hfirst, fun _ => ⟨.panicNoPolka, s, hrun, ?_, rfl⟩⟩
      simp

/-- It is right where nothing is left to do. -/
theorem reconstructs_iff (hq : LawfulVoteSets q) (blockID : BlockID) (precommits : List (Option Vote)) (asked : Bool)
    (s : ConsensusState p)
    (hheight : 0 < state.lastBlockHeight) (hvalid : q.AllValid state (roundOf precommits) (votesIn precommits)) :
    Reconstructs q (Commit.lookedUp blockID precommits asked) state s ↔ Reconstructed q precommits asked state s := by
  cases precommits with
  | nil =>
    refine iff_of_false (not_reconstructs_nil hheight) fun h => ?_
    obtain ⟨vote, behind, hcons, -⟩ := h.first
    cases hcons
  | cons first behind =>
    by_cases hnull : asked = false ∨ ∃ behind', first :: behind = none :: behind'
    · refine iff_of_false (not_reconstructs_of_null (reconstructLastCommit_of_null hheight (cons_ne_nil _ _) hnull))
        fun h => ?_
      obtain ⟨vote, behind', hcons, -⟩ := h.first
      rcases hnull with hasked | ⟨behind'', hnone⟩
      · rw [h.asked] at hasked
        cases hasked
      · rw [hcons] at hnone
        cases hnone
    · obtain ⟨hasked, hsome⟩ := not_or.1 hnull
      obtain rfl : asked = true := by simpa using hasked
      cases first with
      | none => exact absurd ⟨behind, rfl⟩ hsome
      | some vote =>
        rw [reconstructs_cons_iff hq hheight hvalid]
        constructor
        · intro h
          exact ⟨rfl, vote, behind, rfl, h⟩
        · rintro ⟨-, vote', behind', hcons, h⟩
          cases hcons
          exact h

/-! ### Four validators -/

/-- All of them have the same power. -/
def fourVoteSets (reports : Vote → Int) : VoteSets (fourValidators reports) where
  new _ _ _ _ _ := []
  power _ _ := 1
  totalPower _ := 4
  Valid state round _ vote := vote.type = .precommit ∧ vote.height = state.lastBlockHeight ∧ vote.roundNumber = round

theorem tally_fourVoteSets {reports : Vote → Int} (state : State (fourValidators reports)) (round : Int) (votes : List Vote) :
    (fourVoteSets reports).tally state round votes = some (votes.map Vote.blockID) := by
  have h : ∀ ids : List BlockID, votes.foldlM (fourValidators reports).addVoteToSet ids =
      some (ids ++ votes.map Vote.blockID) := by
    induction votes with
    | nil => simp
    | cons vote votes ih =>
      intro ids
      rw [foldlM_cons]
      exact (ih _).trans (by simp)
  exact h []

theorem powerFor_fourVoteSets {reports : Vote → Int} (validators : (fourValidators reports).ValidatorSet) (votes : List Vote)
    (id : BlockID) : (fourVoteSets reports).powerFor validators votes id = (votes.map Vote.blockID).count id := by
  have hpower : ∀ address, (fourVoteSets reports).power validators address = 1 := fun _ => rfl
  simp only [VoteSets.powerFor, hpower, count_eq_length_filter, filter_map, length_map]
  rw [map_const', sum_replicate_nat, Nat.mul_one]
  rfl

theorem lawful_fourVoteSets (reports : Vote → Int) : LawfulVoteSets (fourVoteSets reports) where
  addVote state round votes vote set _ _ := ⟨_, rfl⟩
  hasTwoThirdMajority state round votes set htally _ := by
    rw [tally_fourVoteSets] at htally
    cases htally
    constructor
    · intro h
      obtain ⟨id, hid⟩ := Option.isSome_iff_exists.1 h
      have hcount : 3 ≤ (votes.map Vote.blockID).count id := by simpa using List.find?_some hid
      refine ⟨id, ?_⟩
      rw [powerFor_fourVoteSets]
      exact show 2 * 4 < _ by omega
    · rintro ⟨id, hid⟩
      rw [powerFor_fourVoteSets] at hid
      have hid : 2 * 4 < 3 * (votes.map Vote.blockID).count id := hid
      have hmem : id ∈ votes.map Vote.blockID := count_pos_iff.1 (by omega)
      exact List.find?_isSome.2 ⟨id, hmem, by simp; omega⟩

/-- A precommit of the last block before height 2 -/
def seenPrecommit (validator : Int) : Vote := ⟨[], validator, 1, 0, .precommit, ⟨[1], [1]⟩⟩

/-- The node at height 2 -/
abbrev restarted : ConsensusState (fourValidators Vote.height) := atHeight 2 [2]

/-- One vote is not enough. -/
theorem reconstructs_one : Reconstructs (fourVoteSets Vote.height) (Commit.lookedUp ⟨[1], [1]⟩ [some (seenPrecommit 0)] true)
    restarted.state restarted := by
  have hvalid : (fourVoteSets Vote.height).AllValid restarted.state 0 [seenPrecommit 0] := by
    intro before vote behind h
    obtain ⟨rfl, rfl, rfl⟩ : before = [] ∧ vote = seenPrecommit 0 ∧ behind = [] := by
      cases before with
      | nil => simpa [eq_comm] using h
      | cons _ _ => simp at h
    exact ⟨rfl, rfl, rfl⟩
  refine (reconstructs_iff (lawful_fourVoteSets Vote.height) ⟨[1], [1]⟩ [some (seenPrecommit 0)] true restarted
    (by decide) hvalid).2 ?_
  refine ⟨rfl, seenPrecommit 0, [], rfl, ?_⟩
  rintro ⟨id, hid⟩
  rw [powerFor_fourVoteSets] at hid
  have hid : 2 * 4 < 3 * [(⟨[1], [1]⟩ : BlockID)].count id := hid
  have hle : [(⟨[1], [1]⟩ : BlockID)].count id ≤ 1 := count_le_length
  omega

/-- Three votes are, and the last validator is absent. -/
theorem not_reconstructs : ¬ Reconstructs (fourVoteSets Vote.height) (Commit.lookedUp ⟨[1], [1]⟩
    [some (seenPrecommit 0), some (seenPrecommit 1), some (seenPrecommit 2), none] true) restarted.state restarted := by
  intro h
  obtain ⟨t, ht, -⟩ := h.majority ⟨⟨[1], [1]⟩, by decide⟩
  cases ht

end ConsensusState

end Kmdx.Tm
