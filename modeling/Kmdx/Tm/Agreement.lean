import Mathlib.Algebra.BigOperators.Fin
import Kmdx.Lib.Ballots
import Kmdx.Tm.Consistent

/-!
# Agreement

The nodes of a network, some of which are faulty and send what they like. The others run the state machine, each
event at the time it comes in, and sign no vote but by `signAddVote`. If their steps are careful
(`ConsensusState.Careful`) and orderly (`ConsensusState.Orderly`), they lock as `Ballots.Locking` asks, so that no
two of them decide different blocks at one height, in whatever rounds (`Network.nodes_agree`).
-/

namespace Kmdx.Tm

open Relation Ballots Function List

variable {p : Parts} {V : Type}

/-- How the sets of votes, which are only declared, tell what the validators `V` voted for. -/
structure Tally (p : Parts) (V : Type) where
  voter : Vote → V
  power : p.ValidatorSet → V → Nat
  /-- These are the votes of a height, counted with the power of its validators. -/
  Of : p.HeightVoteSet → Int → p.ValidatorSet → Prop
  /-- A vote of the type and for the round, by a validator, is among them. -/
  Stored : p.HeightVoteSet → VoteType → Int → V → BlockID → Prop

structure LawfulTally [Fintype V] (tally : Tally p V) : Prop where
  newHeightVoteSet : ∀ chainID height validators, tally.Of (p.newHeightVoteSet chainID height validators) height validators
  empty : ∀ chainID height validators type round v id,
    ¬ tally.Stored (p.newHeightVoteSet chainID height validators) type round v id
  addVote_of : ∀ {votes height validators}, tally.Of votes height validators →
    ∀ vote peerID, tally.Of (p.addVote votes vote peerID).2 height validators
  addVote : ∀ {votes vote peerID type round v id}, tally.Stored (p.addVote votes vote peerID).2 type round v id →
    tally.Stored votes type round v id ∨
      vote.type = type ∧ vote.roundNumber = round ∧ tally.voter vote = v ∧ vote.blockID = id
  setRoundNumber_of : ∀ {votes height validators}, tally.Of votes height validators →
    ∀ round, tally.Of (p.setRoundNumber votes round) height validators
  setRoundNumber : ∀ {votes number type round v id}, tally.Stored (p.setRoundNumber votes number) type round v id →
    tally.Stored votes type round v id
  prevotes : ∀ {votes height validators round id}, tally.Of votes height validators →
    p.twoThirdMajority (p.getPrevotes votes round) = some id →
    Quorum (tally.power validators) {v | tally.Stored votes .prevote round v id}
  precommits : ∀ {votes height validators round precommits id}, tally.Of votes height validators →
    p.getPrecommits votes round = some precommits → p.twoThirdMajority precommits = some id →
    Quorum (tally.power validators) {v | tally.Stored votes .precommit round v id}

/-- What a vote holds that is signed for `hash`, which is none for nil. -/
def BlockID.IsFor (id : BlockID) (hash : Option HexBytes) : Prop :=
  (hash = none → id = {}) ∧ ∀ h, hash = some h → id.hash = h ∧ id.isEmpty = false

/-- What is voted for. -/
def BlockID.value (id : BlockID) : Option HexBytes := if id.isEmpty = true then none else some id.hash

variable {id : BlockID}

theorem BlockID.IsFor.eq_value {hash : Option HexBytes} (h : id.IsFor hash) : hash = id.value := by
  rw [BlockID.value]
  cases hash with
  | none =>
    rw [h.1 rfl]
    rfl
  | some hash =>
    obtain ⟨rfl, hempty⟩ := h.2 hash rfl
    rw [hempty, if_neg Bool.false_ne_true]

/-- Nil has no hash. -/
theorem BlockID.IsFor.eq_some {hash : Option HexBytes} (h : id.IsFor hash) (hid : id.hash.isEmpty = false) :
    hash = some id.hash := by
  cases hash with
  | none =>
    rw [h.1 rfl] at hid
    cases hid
  | some hash => rw [(h.2 hash rfl).1]

theorem BlockID.value_ne {hash : HexBytes} (h : id.isEmpty = true ∨ id.hash ≠ hash) : id.value ≠ some hash := by
  rw [BlockID.value]
  split
  · exact (Option.some_ne_none hash).symm
  · rename_i hempty
    exact fun heq => h.elim hempty fun hne => hne (Option.some.inj heq)

/-- Of all that is signed, what was signed for this height and round -/
structure Signed.Is (v : Signed p) (type : VoteType) (height round : Int) (hash : Option HexBytes) : Prop where
  type : v.type = type
  height : v.roundState.height = height
  round : v.roundState.roundNumber = round
  hash : v.hash = hash

/-- The states of the nodes; those of faulty ones say nothing. -/
abbrev Network (p : Parts) (V : Type) := V → ConsensusState p

namespace Network

section
variable (tally : Tally p V) (validators : Int → p.ValidatorSet) (faulty : Set V)

/-- A vote that is not by a faulty node was signed by the one that it says. -/
def Authentic (N : Network p V) (vote : Vote) : Prop :=
  tally.voter vote ∉ faulty → ∃ v ∈ (N (tally.voter vote)).signed, ∃ hash,
    v.Is vote.type vote.height vote.roundNumber hash ∧ vote.blockID.IsFor hash

/-- The votes are those of the height, and they are authentic. -/
structure Backed (N : Network p V) (rs : RoundState p) : Prop where
  of : tally.Of rs.votes rs.height (validators rs.height)
  signed : ∀ type round v id, tally.Stored rs.votes type round v id → v ∉ faulty →
    ∃ w ∈ (N v).signed, ∃ hash, w.Is type rs.height round hash ∧ id.IsFor hash

/-- A node that is not faulty takes a step, with a vote that somebody has signed or any other event. -/
def Step [DecidableEq V] (N N' : Network p V) : Prop :=
  ∃ i ∉ faulty, ∃ e t, (N i).step e = some t ∧ (N i).Careful e ∧ (N i).Orderly e ∧
    (∀ vote peerID, e = .addVote vote peerID → Authentic tally faulty N vote) ∧ N' = update N i t

/-- The nodes start each at its height, and they know who the validators of a height are. -/
structure Start (N : Network p V) : Prop where
  start : ∀ i ∉ faulty, (N i).Start
  of : ∀ i ∉ faulty, tally.Of (N i).roundState.votes (N i).roundState.height (validators (N i).roundState.height)
  empty : ∀ i ∉ faulty, ∀ type round v id, ¬ tally.Stored (N i).roundState.votes type round v id
  validators : ∀ i ∉ faulty, (N i).state.validators = validators ((N i).state.lastBlockHeight + 1)

/-- What the handlers of a node have before them: its round state, or this with a vote that has come in. -/
def Sees (N : Network p V) (i : V) (rs : RoundState p) : Prop :=
  rs = (N i).roundState ∨ ∃ vote peerID, Authentic tally faulty N vote ∧ (N i).roundState.height = vote.height ∧
    rs = ((N i).withVote vote peerID vote.height).roundState

/-- What a node has signed and has before it, seen from a network that its votes come from. -/
structure Inv (N : Network p V) (s : ConsensusState p) : Prop where
  consistent : s.Consistent
  backed : Backed tally validators faulty N s.roundState
  signed : ∀ v ∈ s.signed, Backed tally validators faulty N v.roundState ∧
    (v.type = .prevote → v.roundState.lockedBlock = none)
  validators : s.state.validators = validators (s.state.lastBlockHeight + 1)

end

end Network

/-- +2/3 of the precommits of a round are for a block, which the node then goes on to commit. -/
def RoundState.Decided (rs : RoundState p) (id : BlockID) : Prop :=
  ∃ round precommits, p.getPrecommits rs.votes round = some precommits ∧ p.twoThirdMajority precommits = some id ∧
    id.hash.isEmpty = false

namespace Network

variable {tally : Tally p V} {validators : Int → p.ValidatorSet} {faulty : Set V} {N N' : Network p V}
variable {s t : ConsensusState p} {rs rs' : RoundState p} {vote : Vote} {i : V} {height round : Int}

/-! ### What the votes stand for -/

theorem Backed.congr (h : Backed tally validators faulty N rs) (hvotes : rs'.votes = rs.votes)
    (hheight : rs'.height = rs.height) : Backed tally validators faulty N rs' where
  of := by rw [hvotes, hheight]; exact h.of
  signed := by rw [hvotes, hheight]; exact h.signed

/-- What is signed at the height. -/
def ballots (p : Parts) (V : Type) (height : Int) : Votes (Network p V) V (Option HexBytes) where
  prevoted N v round hash := ∃ w ∈ (N v).signed, w.Is .prevote height round hash
  precommitted N v round hash := ∃ w ∈ (N v).signed, w.Is .precommit height round hash

/-- More is signed as the network goes on. -/
theorem Backed.mono (h : Backed tally validators faulty N rs) (hsigned : ∀ v, (N v).signed ⊆ (N' v).signed) :
    Backed tally validators faulty N' rs where
  of := h.of
  signed type round v id hstored hv :=
    let ⟨w, hw, hash, his⟩ := h.signed type round v id hstored hv
    ⟨w, hsigned v hw, hash, his⟩

theorem Inv.mono (h : Inv tally validators faulty N s) (hsigned : ∀ v, (N v).signed ⊆ (N' v).signed) :
    Inv tally validators faulty N' s where
  consistent := h.consistent
  backed := h.backed.mono hsigned
  signed v hv := (h.signed v hv).imp_left (·.mono hsigned)
  validators := h.validators

theorem Authentic.mono (h : Authentic tally faulty N vote) (hsigned : ∀ v, (N v).signed ⊆ (N' v).signed) :
    Authentic tally faulty N' vote := fun hvoter =>
  let ⟨w, hw, hash, his⟩ := h hvoter
  ⟨w, hsigned _ hw, hash, his⟩

theorem Start.inv {N₀ : Network p V} (h : Start tally validators faulty N₀) :
    ∀ i ∉ faulty, Inv tally validators faulty N₀ (N₀ i) := by
  intro i hi
  obtain ⟨-, -, hlocked, hsigned, -⟩ := h.start i hi
  have hnone : ∀ v, v ∉ (N₀ i).signed := fun v hv => by
    rw [hsigned] at hv
    cases hv
  refine ⟨⟨⟨?_, fun v hv => absurd hv (hnone v), fun ⟨v, hv, _⟩ => absurd hv (hnone v)⟩,
    ⟨fun v hv => absurd hv (hnone v), ?_⟩,
    fun v hv => absurd hv (hnone v), fun v hv => absurd hv (hnone v)⟩, ⟨h.of i hi, fun type round v id hstored =>
      absurd hstored (h.empty i hi type round v id)⟩, fun v hv => absurd hv (hnone v), h.validators i hi⟩
  · rw [hsigned]
    exact nodup_nil
  · intro block hblock
    rw [hlocked] at hblock
    cases hblock

variable [Fintype V]

section

variable (h : Backed tally validators faulty N rs) (hlaw : LawfulTally tally)
include h hlaw

theorem Backed.addVote
    (hvote : Authentic tally faulty N vote) (hheight : rs.height = vote.height) (peerID : HexBytes) :
    Backed tally validators faulty N { rs with votes := (p.addVote rs.votes vote peerID).2 } where
  of := hlaw.addVote_of h.of vote peerID
  signed type round v id hstored hv := by
    rcases hlaw.addVote hstored with hstored | ⟨rfl, rfl, rfl, rfl⟩
    · exact h.signed type round v id hstored hv
    · obtain ⟨w, hw, hash, his, hid⟩ := hvote hv
      exact ⟨w, hw, hash, ⟨his.type, his.height.trans hheight.symm, his.round, his.hash⟩, hid⟩

/-- A polka is for what the nodes that are not faulty have prevoted. -/
theorem Backed.polka (hid : rs.polka round = some id) : Quorum (tally.power (validators rs.height))
      ((ballots p V rs.height).polka faulty N round id.value) := by
  refine (hlaw.prevotes h.of hid).mono fun v hstored => or_iff_not_imp_left.2 fun hv => ?_
  obtain ⟨w, hw, hash, his, hfor⟩ := h.signed _ _ _ _ hstored hv
  exact ⟨w, hw, hfor.eq_value ▸ his⟩

/-- Where +2/3 of the precommits are for a block, so are those that the nodes that are not faulty have signed. -/
theorem Backed.decided (hid : rs.Decided id) : ∃ round, Quorum (tally.power (validators rs.height))
      ((ballots p V rs.height).commit faulty N round (some id.hash)) := by
  obtain ⟨round, precommits, hprecommits, hmajority, hhash⟩ := hid
  refine ⟨round, (hlaw.precommits h.of hprecommits hmajority).mono fun v hstored => or_iff_not_imp_left.2 fun hv => ?_⟩
  obtain ⟨w, hw, hash, his, hfor⟩ := h.signed _ _ _ _ hstored hv
  exact ⟨w, hw, hfor.eq_some hhash ▸ his⟩

end

theorem Sees.backed (h : Sees tally faulty N i rs) (hlaw : LawfulTally tally)
    (hi : Backed tally validators faulty N (N i).roundState) : Backed tally validators faulty N rs := by
  rcases h with rfl | ⟨vote, peerID, hvote, hheight, rfl⟩
  · exact hi
  · exact (hi.addVote hlaw hvote hheight peerID).congr rfl hheight.symm

/-! ### Steps -/

/-- Where the step of a node goes from `s`, which was at `N`. -/
structure Steps (tally : Tally p V) (validators : Int → p.ValidatorSet) (faulty : Set V) (N : Network p V)
    (s t : ConsensusState p) : Prop where
  subset : s.signed ⊆ t.signed
  backed : Backed tally validators faulty N t.roundState
  signed : ∀ v ∈ t.signed, v ∈ s.signed ∨ Backed tally validators faulty N v.roundState ∧
    (v.type = .prevote → v.roundState.lockedBlock = none)
  state : t.state = s.state

theorem Steps.closed (hlaw : LawfulTally tally) (hs : s.state.validators = validators (s.state.lastBlockHeight + 1)) :
    ConsensusState.Closed (Steps tally validators faulty N s) where
  round h hvotes hheight := { h with backed := h.backed.congr hvotes hheight }
  newRound h round :=
    { h with
      backed := { of := hlaw.setRoundNumber_of h.backed.of _
                  signed := fun type round v id hstored => h.backed.signed type round v id (hlaw.setRoundNumber hstored) } }
  signed h hunlocked hash :=
    { subset := fun v hv => mem_append_left _ (h.subset hv)
      backed := h.backed
      signed := fun v hv => (mem_append.1 hv).elim (h.signed v) fun hv => by
        rw [mem_singleton.1 hv]
        exact .inr ⟨h.backed, hunlocked⟩
      state := h.state }
  updated {t} h lastCommit :=
    { h with
      backed := { of := by
                    have hof := hlaw.newHeightVoteSet t.state.chainID (t.state.lastBlockHeight + 1) t.state.validators
                    have ht : t.state.validators = validators (t.state.lastBlockHeight + 1) := by rw [h.state, hs]
                    show tally.Of _ _ (validators (t.state.lastBlockHeight + 1))
                    exact ht ▸ hof
                  signed := fun _ _ _ _ hstored => absurd hstored (hlaw.empty _ _ _ _ _ _ _) } }

theorem Steps.of_step (hlaw : LawfulTally tally) (hs : s.state.validators = validators (s.state.lastBlockHeight + 1))
    (hbacked : Backed tally validators faulty N s.roundState) {e : Event p} (ht : s.step e = some t)
    (hcareful : s.Careful e) (hvote : ∀ vote peerID, e = .addVote vote peerID → Authentic tally faulty N vote) :
    Steps tally validators faulty N s t := by
  refine (Steps.closed hlaw hs).of_step ⟨fun _ hv => hv, hbacked, fun v hv => .inl hv, rfl⟩ ht ?_
  rintro vote peerID rfl hheight
  have hadd := hbacked.addVote hlaw (hvote vote peerID rfl) hheight peerID
  refine ⟨⟨fun _ hv => hv, hadd, fun v hv => .inl hv, rfl⟩, fun height hreport => ?_⟩
  exact ⟨fun _ hv => hv, hadd.congr rfl (hcareful hheight height hreport).1, fun v hv => .inl hv, rfl⟩

variable [DecidableEq V]

section

variable (hp : LawfulParts p) (hlaw : LawfulTally tally) (h : Step tally faulty N N')
    (hN : ∀ i ∉ faulty, Inv tally validators faulty N (N i))
include hp hlaw h hN

/-- What a step does: one node goes on, and the others stay as they are. -/
theorem Step.cases : ∃ i ∉ faulty, (N' i).Consistent ∧
      ConsensusState.Writes (ConsensusState.bothRules p) (N i) (N' i) ∧
      Steps tally validators faulty N (N i) (N' i) ∧ ∀ j ≠ i, N' j = N j := by
  obtain ⟨i, hi, e, t, ht, hcareful, horderly, hvote, rfl⟩ := h
  have hconsistent := (hN i hi).consistent
  refine ⟨i, hi, ?_, ?_, ?_, fun j hj => update_of_ne hj t N⟩
  · rw [update_self]
    exact hconsistent.of_step hp hcareful horderly ht
  · rw [update_self]
    exact ConsensusState.writes_of_step hconsistent hp hcareful horderly ht
  · rw [update_self]
    exact .of_step hlaw (hN i hi).validators (hN i hi).backed ht hcareful hvote

theorem Step.subset (j : V) : (N j).signed ⊆ (N' j).signed := by
  obtain ⟨i, -, -, -, hsteps, hothers⟩ := h.cases hp hlaw hN
  by_cases hj : j = i
  · subst hj
    exact hsteps.subset
  · rw [hothers j hj]
    exact fun _ hv => hv

/-- What a node has not signed before, it signs in the step that it takes. -/
theorem Step.of_new {v : V} {w : Signed p} (hw : w ∈ (N' v).signed) (hnew : w ∉ (N v).signed) : (N' v).Consistent ∧
      ConsensusState.Writes (ConsensusState.bothRules p) (N v) (N' v) ∧
      Steps tally validators faulty N (N v) (N' v) := by
  obtain ⟨i, -, hconsistent, hwrites, hsteps, hothers⟩ := h.cases hp hlaw hN
  by_cases hv : v = i
  · subst hv
    exact ⟨hconsistent, hwrites, hsteps⟩
  · rw [hothers v hv] at hw
    exact absurd hw hnew

theorem Step.inv : ∀ i ∉ faulty, Inv tally validators faulty N' (N' i) := by
  intro j hj
  have hsubset := h.subset hp hlaw hN
  obtain ⟨i, -, hconsistent, -, hsteps, hothers⟩ := h.cases hp hlaw hN
  by_cases hji : j = i
  · subst hji
    have hbefore := hN j hj
    refine ⟨hconsistent, hsteps.backed.mono hsubset, fun v hv => ?_, ?_⟩
    · exact ((hsteps.signed v hv).elim (hbefore.signed v) id).imp_left (·.mono hsubset)
    · rw [hsteps.state]
      exact hbefore.validators
  · rw [hothers j hji]
    exact (hN j hj).mono hsubset

end

variable (tally validators faulty) in
/-- The nodes that are not faulty vote as it takes for their decisions to agree. -/
theorem locking (hp : LawfulParts p) (hlaw : LawfulTally tally) (height : Int) :
    Locking (ballots p V height) none (Quorum (tally.power (validators height))) faulty
      (fun N => ∀ i ∉ faulty, Inv tally validators faulty N (N i)) (Step tally faulty) where
  inv hN hstep := hstep.inv hp hlaw hN
  prevoted hN hstep := fun ⟨w, hw, his⟩ => ⟨w, hstep.subset hp hlaw hN _ hw, his⟩
  precommitted hN hstep := fun ⟨w, hw, his⟩ => ⟨w, hstep.subset hp hlaw hN _ hw, his⟩
  once {N v r x y} hN hv hx hy := by
    obtain ⟨w, hw, his⟩ := hx
    obtain ⟨w', hw', his'⟩ := hy
    have hkey : w.key = w'.key := by
      rw [Signed.key, Signed.key, his.type, his.height, his.round, his'.type, his'.height, his'.round]
    obtain rfl := (hN v hv).consistent.once.eq_of_key hw hw' hkey
    exact his.hash.symm.trans his'.hash
  order {N N' v r r' x y} hN hstep hv hy hlt hx := by
    obtain ⟨w, hw, his⟩ := hx
    obtain ⟨w', hw', his'⟩ := hy
    refine ⟨w, by_contra fun hnew => ?_, his⟩
    -- a prevote of the later round stands, so the node is at that round at least
    have hle := ConsensusState.Consistent.le_of_signed hp (hstep.of_new hp hlaw hN hw hnew).2.1 hw hnew
    have hle' := (hN v hv).consistent.once.le w' hw'
    have hheight := his.height
    have hround := his.round
    have hheight' := his'.height
    have hround' := his'.round
    omega
  behind {N v r x} hN hv hx hprecommitted := by
    obtain ⟨w, hw, his⟩ := hprecommitted
    obtain ⟨hash, rfl⟩ := Option.ne_none_iff_exists'.1 hx
    obtain ⟨id, block, hid, hempty, rfl, -⟩ := (hN v hv).consistent.locks.precommits w hw his.type hash his.hash
    have hpolka := (((hN v hv).signed w hw).1).polka hlaw hid
    rwa [BlockID.value, hempty, if_neg Bool.false_ne_true, his.height, his.round] at hpolka
  unlock {N N' v r r' x y} hN hstep hv hx hprecommitted hprevoted hnew hlt hne := by
    obtain ⟨hash, rfl⟩ := Option.ne_none_iff_exists'.1 hx
    obtain ⟨w, hw, his⟩ := hprecommitted
    obtain ⟨w', hw', his'⟩ := hprevoted
    have hw'new : w' ∉ (N v).signed := fun hw' => hnew ⟨w', hw', his'⟩
    obtain ⟨hconsistent, -, hsteps⟩ := hstep.of_new hp hlaw hN hw' hw'new
    obtain ⟨hbacked, hunlocked⟩ := (hsteps.signed w' hw').resolve_left hw'new
    obtain ⟨round, id, hid, hother, hlt', hle⟩ := hconsistent.undone w hw his.type hash his.hash w' hw' his'.type
      (hunlocked his'.type) (his.height.trans his'.height.symm) (by rw [his.round, his'.round]; exact hlt)
    refine ⟨round, id.value, BlockID.value_ne hother, his.round ▸ hlt', his'.round ▸ hle, ?_⟩
    have hpolka := hbacked.polka hlaw hid
    rwa [his'.height] at hpolka

/-- In any run of the network whose steps are careful and orderly, two nodes that are not faulty do not decide
different blocks at one height: not in different rounds, nor at different times, as long as no more than a third of the
power is faulty there. -/
theorem nodes_agree (hp : LawfulParts p) (hlaw : LawfulTally tally) {N₀ : Network p V}
    (hstart : Start tally validators faulty N₀) (hN : ReflTransGen (Step tally faulty) N₀ N)
    (hN' : ReflTransGen (Step tally faulty) N N') {i j : V} (hi : i ∉ faulty) (hj : j ∉ faulty)
    (hrs : Sees tally faulty N i rs) (hrs' : Sees tally faulty N' j rs') (hheight : rs.height = rs'.height)
    (hfaulty : AtMostThird (tally.power (validators rs.height)) faulty) {id' : BlockID} (hid : rs.Decided id)
    (hid' : rs'.Decided id') : id.hash = id'.hash := by
  have hlocking := locking tally validators faulty hp hlaw rs.height
  have hinv := hlocking.inv_of_run hstart.inv hN
  have hinv' := hlocking.inv_of_run hinv hN'
  obtain ⟨round, hcommit⟩ := (hrs.backed hlaw (hinv i hi).backed).decided hlaw hid
  obtain ⟨round', hcommit'⟩ := (hrs'.backed hlaw (hinv' j hj).backed).decided hlaw hid'
  rw [← hheight] at hcommit'
  have hinit : ∀ v r x, v ∉ faulty → ¬ (ballots p V rs.height).prevoted N₀ v r x := by
    rintro v r x hv ⟨w, hw, -⟩
    rw [(hstart.start v hv).signed] at hw
    cases hw
  exact Option.some.inj (hlocking.eq_of_commit (fun h h' => h.exists_inter h' hfaulty) (fun h hQ => h.mono hQ) hstart.inv
    hinit hN hN' (Option.some_ne_none _) (Option.some_ne_none _) hcommit hcommit')

/-- A node takes its events one after the other, from states with `P`. -/
theorem run_node (hp : LawfulParts p) (hlaw : LawfulTally tally) {events : List (Event p)} {P : ConsensusState p → Bool}
    (hi : i ∉ faulty) (hcalm : ∀ s, ∀ e ∈ events, P s = true → s.Careful e ∧ s.Orderly e)
    (hN : ∀ i ∉ faulty, Inv tally validators faulty N (N i))
    (hvotes : ∀ vote peerID, .addVote vote peerID ∈ events → Authentic tally faulty N vote)
    (h : (N i).run events P = some t) : ReflTransGen (Step tally faulty) N (update N i t) := by
  induction events generalizing N with
  | nil =>
    obtain rfl : N i = t := Option.some.inj h
    rw [update_eq_self]
  | cons e events ih =>
    obtain ⟨u, hu, h⟩ := Option.bind_eq_some_iff.1 h
    obtain ⟨hP, hu⟩ := Option.ite_none_right_eq_some.1 hu
    obtain ⟨hcareful, horderly⟩ := hcalm _ e mem_cons_self hP
    have hstep : Step tally faulty N (update N i u) := by
      refine ⟨i, hi, e, u, hu, hcareful, horderly, ?_, rfl⟩
      rintro vote peerID rfl
      exact hvotes vote peerID mem_cons_self
    have hsubset := hstep.subset hp hlaw hN
    have hrest := ih (N := update N i u) (fun s e he => hcalm s e (mem_cons_of_mem _ he))
      (hstep.inv hp hlaw hN)
      (fun vote peerID he => (hvotes vote peerID (mem_cons_of_mem _ he)).mono hsubset)
      (by rw [update_self]; exact h)
    rw [update_idem] at hrest
    exact .head hstep hrest

/-! ### Four validators -/

section FourValidators

open ConsensusState

abbrev FourState := ConsensusState (fourValidators Vote.height)

abbrev FourNetwork := Network (fourValidators Vote.height) (Fin 4)

/-- A validator is its number. -/
def fourTally : Tally (fourValidators Vote.height) (Fin 4) where
  voter vote := Fin.ofNat 4 vote.validatorIndex.toNat
  power _ _ := 1
  Of _ _ _ := True
  Stored votes type round v id := ∃ vote ∈ votes, vote.type = type ∧ vote.roundNumber = round ∧
    vote.validatorIndex = (v : Nat) ∧ vote.blockID = id

theorem quorum_of_threeOfFour {votes : List Vote} {type : VoteType} {round : Int}
    (h : threeOfFour (votesOf votes type round) = some id) :
    Quorum (fun _ : Fin 4 => 1) {v | fourTally.Stored votes type round v id} := by
  have hcount := (threeOfFour_eq_some length_votesOf_le).1 h
  let vote : Int → Option BlockID := fun validator =>
    (votes.find? fun v => v.type = type ∧ v.roundNumber = round ∧ v.validatorIndex = validator).map Vote.blockID
  refine ⟨Finset.univ.filter fun v : Fin 4 => vote (v : Nat) = some id, fun v hv => ?_, ?_⟩
  · obtain ⟨w, hw, hid⟩ := Option.map_eq_some_iff.1 (Finset.mem_filter.1 hv).2
    have hfound : w.type = type ∧ w.roundNumber = round ∧ w.validatorIndex = (v : Nat) := by
      simpa using List.find?_some hw
    exact ⟨w, List.mem_of_find?_eq_some hw, hfound.1, hfound.2.1, hfound.2.2, hid⟩
  · have hsum : (votesOf votes type round).count id = ∑ v : Fin 4, if vote (v : Nat) = some id then 1 else 0 := by
      have hvote : ∀ validator, (((vote validator).map (· == id)).getD false = true) = (vote validator = some id) := by
        intro validator
        cases vote validator <;> simp
      rw [votesOf, List.count, countP_filterMap, Fin.sum_univ_four]
      simp only [countP_cons, countP_nil]
      simp only [vote] at hvote
      simp only [hvote, vote, Fin.coe_ofNat_eq_mod]
      norm_num
      omega
    rw [Finset.sum_filter, ← hsum]
    simp
    omega

theorem lawfulTally_fourTally : LawfulTally fourTally where
  newHeightVoteSet _ _ _ := trivial
  empty _ _ _ _ _ _ _ := fun ⟨_, hv, _⟩ => absurd hv not_mem_nil
  addVote_of _ _ _ := trivial
  addVote {votes vote peerID type round v id} := by
    rintro ⟨w, hw, htype, hround, hvoter, hid⟩
    rcases mem_append.1 hw with hw | hw
    · exact .inl ⟨w, hw, htype, hround, hvoter, hid⟩
    · obtain rfl := mem_singleton.1 hw
      refine .inr ⟨htype, hround, ?_, hid⟩
      show Fin.ofNat 4 w.validatorIndex.toNat = v
      rw [hvoter, Int.toNat_natCast]
      exact Fin.ofNat_val_eq_self v
  setRoundNumber_of _ _ := trivial
  setRoundNumber h := h
  prevotes _ h := quorum_of_threeOfFour h
  precommits _ hsome h := by
    cases hsome
    exact quorum_of_threeOfFour h

/-- No precommit is signed, no block locked. -/
def calm (s : FourState) : Bool :=
  s.roundState.lockedBlock.isNone && s.signed.all fun v => v.type ≠ .precommit

/-- One more precommit is not enough. -/
def waits (s : FourState) : Bool :=
  [0, 1, 2, 3].all fun validator => (votesOf (s.roundState.votes ++
    [⟨[], validator, 1, 0, .precommit, ⟨[1], [1]⟩⟩]) .precommit 0).length < 3

theorem calm_enterPrevote {s : FourState} (h : s.roundState.roundNumber = 0) :
    s.Careful (.enterPrevote 1 0) ∧ s.Orderly (.enterPrevote 1 0) :=
  ⟨fun _ hlt => absurd hlt (by rw [h]; decide), trivial⟩

theorem calm_prevoteOf {s : FourState} (h : calm s = true) (validator : Int) :
    s.Careful (prevoteOf 1 0 [1] validator) ∧ s.Orderly (prevoteOf 1 0 [1] validator) := by
  obtain ⟨hlocked, hsigned⟩ := Bool.and_eq_true_iff.1 h
  refine ⟨fun hheight height hreport => ?_, orderly_prevoteOf (Option.isNone_iff_eq_none.1 hlocked)⟩
  refine ⟨hheight ▸ (Option.some.inj hreport).symm, fun _ _ _ => ?_, fun hcommits => by cases hcommits.1⟩
  rintro ⟨v, hv, hkey⟩
  exact of_decide_eq_true (all_eq_true.1 hsigned v hv) (congrArg Prod.fst hkey)

theorem calm_precommitOf {s : FourState} (h : waits s = true) {validator : Int}
    (hvalidator : validator ∈ [(0 : Int), 1, 2, 3]) :
    s.Careful (precommitOf 1 0 [1] validator) ∧ s.Orderly (precommitOf 1 0 [1] validator) := by
  have hfew : (votesOf (s.roundState.votes ++ [⟨[], validator, 1, 0, .precommit, ⟨[1], [1]⟩⟩]) .precommit 0).length < 3 :=
    of_decide_eq_true (all_eq_true.1 h validator hvalidator)
  let vote : Vote := ⟨[], validator, 1, 0, .precommit, ⟨[1], [1]⟩⟩
  have hcommits : ∀ height, ¬ (s.withVote vote [] height).Commits vote := by
    rintro height ⟨-, _, id, ⟨⟩, hid, -⟩
    have hcount := (threeOfFour_eq_some length_votesOf_le).1 hid
    exact absurd (hcount.trans count_le_length) (not_le.2 hfew)
  have henters : ∀ height, ¬ (s.withVote vote [] height).EntersPrecommit vote := by
    rintro height (⟨htype, -⟩ | ⟨-, _, ⟨⟩, -, hany⟩ | h)
    · cases htype
    · exact absurd (of_decide_eq_true hany) (not_le.2 hfew)
    · exact hcommits height h
  refine ⟨fun hheight height hreport => ?_, fun hheight height hreport => ?_⟩
  · exact ⟨hheight ▸ (Option.some.inj hreport).symm, fun h => absurd h (henters height), fun h => absurd h (hcommits height)⟩
  · exact ⟨hheight ▸ (Option.some.inj hreport).symm, fun h => absurd h (henters height), fun h => absurd h (hcommits height)⟩

/-- The block 1 is voted for in the round 0. -/
def hasVoted (s : FourState) (type : VoteType) : Bool :=
  s.signed.any fun v => v.key = (type, 1, 0) && v.hash = some [1]

/-- What one of four nodes does that is not faulty: it prevotes, sees three prevotes and precommits, and then it sees
two precommits, with a third to come. -/
theorem exists_runs : ∃ s₁, (atHeight 1 [1]).run [.enterPrevote 1 0] (·.roundState.roundNumber = 0) = some s₁ ∧
    hasVoted s₁ .prevote = true ∧
    ∃ s₂, s₁.run ([0, 1, 3].map (prevoteOf 1 0 [1])) calm = some s₂ ∧
    hasVoted s₂ .prevote = true ∧
    hasVoted s₂ .precommit = true ∧
    ∃ s₃, s₂.run ([0, 3].map (precommitOf 1 0 [1])) waits = some s₃ ∧
    hasVoted s₃ .precommit = true ∧ s₃.roundState.height = 1 ∧
    threeOfFour (votesOf (s₃.roundState.votes ++ [⟨[], 1, 1, 0, .precommit, ⟨[1], [1]⟩⟩]) .precommit 0) =
      some ⟨[1], [1]⟩ := by decide +kernel

theorem authentic_fourTally {N : FourNetwork} {type : VoteType}
    (h₀ : hasVoted (N 0) type = true) (h₁ : hasVoted (N 1) type = true)
    {validator : Int} (hvalidator : validator ∈ [(0 : Int), 1, 3]) :
    Authentic fourTally {3} N ⟨[], validator, 1, 0, type, ⟨[1], [1]⟩⟩ := by
  have hfor : BlockID.IsFor ⟨[1], [1]⟩ (some [1]) :=
    ⟨fun h => absurd h (Option.some_ne_none _), fun _ h => ⟨Option.some.inj h, rfl⟩⟩
  have his : ∀ {i : Fin 4}, hasVoted (N i) type = true →
      ∃ v ∈ (N i).signed, ∃ hash, v.Is type 1 0 hash ∧ BlockID.IsFor ⟨[1], [1]⟩ hash := by
    intro i h
    obtain ⟨v, hv, h⟩ := any_eq_true.1 h
    obtain ⟨hkey, hhash⟩ := Bool.and_eq_true_iff.1 h
    have hkey := of_decide_eq_true hkey
    simp only [Signed.key, Prod.mk.injEq] at hkey
    exact ⟨v, hv, _, ⟨hkey.1, hkey.2.1, hkey.2.2, of_decide_eq_true hhash⟩, hfor⟩
  simp only [mem_cons, not_mem_nil, or_false] at hvalidator
  rcases hvalidator with rfl | rfl | rfl
  · exact fun _ => his h₀
  · exact fun _ => his h₁
  · exact fun hvoter => absurd rfl hvoter

/-- Two of four nodes decide, while the third is late and the fourth is faulty. -/
theorem nodes_agree_fourTally : ∃ N : Network (fourValidators Vote.height) (Fin 4),
    ReflTransGen (Step fourTally {3}) (fun _ => atHeight 1 [1]) N ∧ ∃ rs rs' id id',
      Sees fourTally {3} N 0 rs ∧ Sees fourTally {3} N 1 rs' ∧ rs.Decided id ∧ rs'.Decided id' ∧ id.hash = id'.hash := by
  obtain ⟨s₁, hs₁, hprevote, s₂, hs₂, hprevote', hprecommit, s₃, hs₃, hprecommit', hheight, hid⟩ := exists_runs
  have hp : LawfulParts (fourValidators Vote.height) := lawfulParts_fourValidators
  have hlaw := lawfulTally_fourTally
  have hstart : Start fourTally (fun _ => ()) {3} fun _ : Fin 4 => atHeight 1 [1] :=
    ⟨fun _ _ => ⟨rfl, rfl, rfl, rfl, rfl⟩, fun _ _ => trivial,
      fun _ _ _ _ _ _ => fun ⟨_, hv, _⟩ => absurd hv not_mem_nil, fun _ _ => rfl⟩
  have hlocking := locking fourTally (fun _ => ()) {3} hp hlaw 1
  have h₀ : (0 : Fin 4) ∉ ({3} : Set (Fin 4)) := fun h => absurd (Set.mem_singleton_iff.1 h) (by decide)
  have h₁ : (1 : Fin 4) ∉ ({3} : Set (Fin 4)) := fun h => absurd (Set.mem_singleton_iff.1 h) (by decide)
  let N₁ : FourNetwork := update (fun _ => atHeight 1 [1]) 0 s₁
  let N₂ := update N₁ 1 s₁
  let N₃ := update N₂ 0 s₂
  let N₄ := update N₃ 1 s₂
  let N₅ := update N₄ 0 s₃
  have hcalm₁ : ∀ s : FourState, ∀ e ∈ [Event.enterPrevote 1 0],
      decide (s.roundState.roundNumber = 0) = true → s.Careful e ∧ s.Orderly e := fun s e he hs =>
    mem_singleton.1 he ▸ calm_enterPrevote (of_decide_eq_true hs)
  have hcalm₂ : ∀ s, ∀ e ∈ [(0 : Int), 1, 3].map (prevoteOf 1 0 [1]), calm s = true → s.Careful e ∧ s.Orderly e := by
    intro s e he hs
    obtain ⟨validator, -, rfl⟩ := mem_map.1 he
    exact calm_prevoteOf hs validator
  have hcalm₃ : ∀ s, ∀ e ∈ [(0 : Int), 3].map (precommitOf 1 0 [1]), waits s = true → s.Careful e ∧ s.Orderly e := by
    intro s e he hs
    obtain ⟨validator, hvalidator, rfl⟩ := mem_map.1 he
    exact calm_precommitOf hs (mem_cons.2 ((mem_cons.1 hvalidator).imp_right fun h => by
      rw [mem_singleton.1 h]
      decide))
  have hnone : ∀ {N : FourNetwork} (vote : Vote) (peerID : HexBytes),
      (.addVote vote peerID : Event (fourValidators Vote.height)) ∈ [.enterPrevote 1 0] → Authentic fourTally {3} N vote :=
    fun vote peerID h => by cases mem_singleton.1 h
  have hprevotes : ∀ {N : FourNetwork},
      hasVoted (N 0) .prevote = true → hasVoted (N 1) .prevote = true → ∀ vote peerID,
      .addVote vote peerID ∈ [(0 : Int), 1, 3].map (prevoteOf 1 0 [1]) → Authentic fourTally {3} N vote := by
    intro N h h' vote peerID hmem
    obtain ⟨validator, hvalidator, heq⟩ := mem_map.1 hmem
    cases heq
    exact authentic_fourTally h h' hvalidator
  have hprecommits : ∀ {N : FourNetwork},
      hasVoted (N 0) .precommit = true → hasVoted (N 1) .precommit = true → ∀ vote peerID,
      .addVote vote peerID ∈ [(0 : Int), 3].map (precommitOf 1 0 [1]) → Authentic fourTally {3} N vote := by
    intro N h h' vote peerID hmem
    obtain ⟨validator, hvalidator, heq⟩ := mem_map.1 hmem
    cases heq
    exact authentic_fourTally h h' (mem_cons.2 ((mem_cons.1 hvalidator).imp_right (mem_cons_of_mem _)))
  have hrun₁ := run_node hp hlaw h₀ hcalm₁ hstart.inv hnone hs₁
  have hrun₂ := hrun₁.trans (run_node (N := N₁) hp hlaw h₁ hcalm₁ (hlocking.inv_of_run hstart.inv hrun₁) hnone hs₁)
  have hrun₃ := hrun₂.trans (run_node (N := N₂) hp hlaw h₀ hcalm₂ (hlocking.inv_of_run hstart.inv hrun₂)
    (hprevotes hprevote hprevote) hs₂)
  have hrun₄ := hrun₃.trans (run_node (N := N₃) hp hlaw h₁ hcalm₂ (hlocking.inv_of_run hstart.inv hrun₃)
    (hprevotes hprevote' hprevote) hs₂)
  have hrun₅ := hrun₄.trans (run_node (N := N₄) hp hlaw h₀ hcalm₃ (hlocking.inv_of_run hstart.inv hrun₄)
    (hprecommits hprecommit hprecommit) hs₃)
  have hrun₆ := hrun₅.trans (run_node (N := N₅) hp hlaw h₁ hcalm₃ (hlocking.inv_of_run hstart.inv hrun₅)
    (hprecommits hprecommit' hprecommit) hs₃)
  let vote : Vote := ⟨[], 1, 1, 0, .precommit, ⟨[1], [1]⟩⟩
  have hsees : ∀ i : Fin 4, i = 0 ∨ i = 1 →
      Sees fourTally {3} (update N₅ 1 s₃) i (s₃.withVote vote [] 1).roundState := by
    have hvote : Authentic fourTally {3} (update N₅ 1 s₃) vote :=
      authentic_fourTally hprecommit' hprecommit' (by decide)
    rintro i (rfl | rfl)
    · exact .inr ⟨vote, [], hvote, hheight, rfl⟩
    · exact .inr ⟨vote, [], hvote, hheight, rfl⟩
  have hdecided : (s₃.withVote vote [] 1).roundState.Decided ⟨[1], [1]⟩ := ⟨0, _, rfl, hid, rfl⟩
  have hfaulty : AtMostThird (fourTally.power ()) {3} := by
    intro A hA
    have hle : A.card ≤ 1 := Finset.card_le_one.2 fun a ha b hb => (hA a ha).trans (hA b hb).symm
    simp only [fourTally, Finset.sum_const, smul_eq_mul, mul_one, Finset.card_univ, Fintype.card_fin]
    omega
  exact ⟨_, hrun₆, _, _, _, _, hsees 0 (.inl rfl), hsees 1 (.inr rfl), hdecided, hdecided,
    nodes_agree hp hlaw hstart hrun₆ .refl h₀ h₁ (hsees 0 (.inl rfl)) (hsees 1 (.inr rfl)) rfl hfaulty hdecided hdecided⟩

end FourValidators

end Network

end Kmdx.Tm
