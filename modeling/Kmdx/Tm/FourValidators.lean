import Mathlib.Data.List.MinMax
import Kmdx.Tm.ConsensusRun

/-!
# Four validators

Three of them are enough. Of what a validator votes in a round the first vote counts.
-/

namespace Kmdx.Tm

/-- What the validators voted for, those who did. -/
def votesOf (votes : List Vote) (type : VoteType) (round : Int) : List BlockID :=
  [0, 1, 2, 3].filterMap fun validator : Int => (votes.find? fun v =>
    v.type = type ∧ v.roundNumber = round ∧ v.validatorIndex = validator).map Vote.blockID

def threeOfFour (ids : List BlockID) : Option BlockID := ids.find? fun id => 3 ≤ ids.count id

/-- A block is its hash. `HeightVoteSet::addVote` reports what `reports` says. -/
@[reducible] def fourValidators (reports : Vote → Int) : Parts where
  ValidatorSet := Unit
  Block := HexBytes
  VoteSet := List BlockID
  HeightVoteSet := List Vote
  hashesTo block hash := block = hash
  getBlockHash block := block
  twoThirdMajority ids := threeOfFour ids
  hasTwoThirdsAny ids := 3 ≤ ids.length
  hasTwoThirdMajority ids := (threeOfFour ids).isSome
  hasAll ids := 4 ≤ ids.length
  hasAllVotes ids := 4 ≤ ids.length
  addVoteToSet ids vote := some (ids ++ [vote.blockID])
  newHeightVoteSet _ _ _ := []
  getPrevotes votes round := votesOf votes .prevote round
  getPrecommits votes round := some (votesOf votes .precommit round)
  polInfo votes := ((votes.map Vote.roundNumber).filter fun round =>
    (threeOfFour (votesOf votes .prevote round)).isSome).foldr max (-1)
  addVote votes vote _ := (some (reports vote), votes ++ [vote])
  setRoundNumber votes _ := votes
  isEmpty votes := votes.isEmpty

variable {reports : Vote → Int} {votes : List Vote} {type : VoteType} {round : Int} {id : BlockID}

theorem filterMap_sublist_filterMap {α β : Type} {f g : α → Option β} (h : ∀ a b, f a = some b → g a = some b)
    (l : List α) : (l.filterMap f).Sublist (l.filterMap g) := by
  induction l with
  | nil => exact .slnil
  | cons a l ih =>
    cases hf : f a with
    | none =>
      rw [List.filterMap_cons_none hf]
      exact ih.trans ((List.sublist_cons_self a l).filterMap g)
    | some b =>
      rw [List.filterMap_cons_some hf, List.filterMap_cons_some (h a b hf)]
      exact ih.cons_cons b

theorem count_add_count_le {α : Type} [DecidableEq α] {a b : α} (h : a ≠ b) (l : List α) :
    l.count a + l.count b ≤ l.length := by
  induction l with
  | nil => simp
  | cons c l ih =>
    simp only [List.count_cons, List.length_cons, beq_iff_eq]
    split <;> split <;> first | omega | simp_all

theorem votesOf_append (vote : Vote) : (votesOf votes type round).Sublist (votesOf (votes ++ [vote]) type round) := by
  refine filterMap_sublist_filterMap (fun validator id h => ?_) _
  obtain ⟨v, hv, rfl⟩ := Option.map_eq_some_iff.1 h
  rw [List.find?_append, hv]
  rfl

theorem threeOfFour_eq_some {ids : List BlockID} (hlength : ids.length ≤ 4) :
    threeOfFour ids = some id ↔ 3 ≤ ids.count id := by
  constructor
  · intro h
    simpa using List.find?_some h
  · intro h
    have hmem : id ∈ ids := List.count_pos_iff.1 (by omega)
    obtain ⟨id', hid'⟩ : ∃ id', threeOfFour ids = some id' :=
      Option.isSome_iff_exists.1 (List.find?_isSome.2 ⟨id, hmem, by simpa using h⟩)
    have hcount : 3 ≤ ids.count id' := by simpa using List.find?_some hid'
    rw [hid']
    by_contra hne
    have hsum := count_add_count_le (fun heq : id = id' => hne (by rw [heq])) ids
    omega

theorem length_votesOf_le : (votesOf votes type round).length ≤ 4 := List.length_filterMap_le _ _

theorem lawfulParts_fourValidators : LawfulParts (fourValidators reports) where
  hashesTo_iff _ _ := by simp
  addVote votes vote peerID round id h :=
    (threeOfFour_eq_some length_votesOf_le).2
      (((threeOfFour_eq_some length_votesOf_le).1 h).trans ((votesOf_append vote).count_le id))
  setRoundNumber _ _ _ := rfl
  polInfo votes round id h := by
    obtain ⟨validator, -, hvote⟩ := List.mem_filterMap.1 (List.mem_of_find?_eq_some h)
    obtain ⟨v, hv, -⟩ := Option.map_eq_some_iff.1 hvote
    have hround : v.type = .prevote ∧ v.roundNumber = round ∧ v.validatorIndex = validator := by
      simpa using List.find?_some hv
    refine List.le_max_of_le' (-1)
      (List.mem_filter.2 ⟨List.mem_map.2 ⟨v, List.mem_of_find?_eq_some hv, hround.2.1⟩, ?_⟩) (le_refl _)
    exact Option.isSome_iff_exists.2 ⟨id, h⟩

def prevoteOf (height round : Int) (block : HexBytes) (validator : Int) : Event (fourValidators Vote.height) :=
  .addVote ⟨[], validator, height, round, .prevote, ⟨block, block⟩⟩ []

def precommitOf (height round : Int) (block : HexBytes) (validator : Int) : Event (fourValidators Vote.height) :=
  .addVote ⟨[], validator, height, round, .precommit, ⟨block, block⟩⟩ []

/-- The node at `height`, with a block that is proposed. -/
def atHeight (height : Int) (block : HexBytes) : ConsensusState (fourValidators reports) where
  roundState := {
    height
    roundNumber := 0
    stepType := .newHeight
    validators := ()
    proposal := some {}
    proposalBlock := some block
    lockedRoundNumber := 0
    lockedBlock := none
    validRoundNumber := 0
    validBlock := none
    votes := []
    commitRoundNumber := -1
    lastCommit := none
    lastValidators := () }
  state := { chainID := "", lastBlockHeight := height - 1, validators := (), lastValidators := (), isEmpty := false }
  stepType := .newHeight
  proposal := some {}
  skipTimeoutCommit := false

end Kmdx.Tm
