import Kmdx.Tm.FourValidators

/-!
# The lock

A block is precommitted behind a polka of the round, and then it is locked; the lock is given up for a later
polka (`ConsensusState.locks_on_polka`). In `enterPrecommit` the case is missing of a polka for the block
that is locked already. It goes well if that is the proposed block, too; else the lock is dropped and nil
precommitted (`ConsensusState.not_locks_on_polka`).
-/

namespace Kmdx.Tm

open Wp ScopeGuard Relation

variable {p : Parts}

/-- What +2/3 prevoted for in `round`, the empty `BlockID` for nil. -/
def RoundState.polka (rs : RoundState p) (round : Int) : Option BlockID := p.twoThirdMajority (p.getPrevotes rs.votes round)

/-- If a block is voted for, there was a polka for it in the round, and it is locked in this round. -/
def Signed.OnPolka (v : Signed p) : Prop :=
  ∀ hash, v.hash = some hash → ∃ id block, v.roundState.polka v.roundState.roundNumber = some id ∧ id.isEmpty = false ∧
    id.hash = hash ∧ v.roundState.lockedBlock = some block ∧ p.getBlockHash block = hash ∧
    v.roundState.lockedRoundNumber = v.roundState.roundNumber

namespace ConsensusState

/-- At `t`, the lock on `block` of `s` is held, or it has been given up for a later polka. -/
def Holds (s t : ConsensusState p) (block : p.Block) : Prop :=
  s.roundState.height < t.roundState.height ∨
  (∃ block', t.roundState.lockedBlock = some block' ∧ p.getBlockHash block' = p.getBlockHash block ∧
    s.roundState.lockedRoundNumber ≤ t.roundState.lockedRoundNumber) ∨
  ∃ round id, t.roundState.polka round = some id ∧ (id.isEmpty = true ∨ id.hash ≠ p.getBlockHash block) ∧
    s.roundState.lockedRoundNumber < round ∧ round ≤ t.roundState.roundNumber

/-- There is a polka in `round` for the block that is locked. -/
def LockedPolka (s : ConsensusState p) (round : Int) (id : BlockID) : Prop :=
  s.roundState.polka round = some id ∧ id.isEmpty = false ∧
    ∃ block, s.roundState.lockedBlock = some block ∧ p.hashesTo block id.hash = true

/-- The block to be staged is the proposed one. -/
def Staged (s : ConsensusState p) (id : BlockID) : Prop :=
  ∃ block, s.roundState.proposalBlock = some block ∧ p.hashesTo block id.hash = true

/-- `enterPrecommit` is called for the current round, and if this has a polka for the locked block, the proposed block
is that one. -/
def Orderly (s : ConsensusState p) : Event p → Prop
  | .addVote vote peerID => s.roundState.height = vote.height →
    ∀ height, (p.addVote s.roundState.votes vote peerID).1 = some height → height = s.roundState.height ∧
      ((s.withVote vote peerID height).EntersPrecommit vote → s.Passes vote.roundNumber .precommit →
        ∀ id, (s.withVote vote peerID height).LockedPolka vote.roundNumber id → s.Staged id) ∧
      ((s.withVote vote peerID height).Commits vote → s.Ahead vote.roundNumber)
  | .enterPrecommit height round => s.roundState.height = height → s.Passes round .precommit →
    round = s.roundState.roundNumber ∧ ∀ id, s.LockedPolka round id → s.Staged id
  | .enterCommit height round => s.roundState.height = height → s.roundState.stepType < .commit → s.Ahead round
  | _ => True

def lockRules (p : Parts) : Rules p where
  report s height := height = s.roundState.height
  precommit s round := round ≤ s.roundState.roundNumber ∧ ∀ id, s.LockedPolka round id → s.Staged id
  update s := s.roundState.height ≤ s.state.lastBlockHeight

/-- What is locked had a polka in the round it is locked in. -/
structure Locks (s : ConsensusState p) : Prop where
  precommits : ∀ v ∈ s.signed, v.type = .precommit → v.OnPolka
  lock : ∀ block, s.roundState.lockedBlock = some block →
    s.roundState.lockedRoundNumber ≤ s.roundState.roundNumber ∧
      ∃ id, s.roundState.polka s.roundState.lockedRoundNumber = some id ∧ id.isEmpty = false ∧
        p.hashesTo block id.hash = true

variable {s t u : ConsensusState p} {block : p.Block} {round : Int} {id : BlockID}

/-- A polka of `t` in a round in which it can be locked for is later than the lock of `s`, if it is for something else. -/
theorem Locks.lt_of_polka (hs : s.Locks) (hp : LawfulParts p) (hblock : s.roundState.lockedBlock = some block)
    (hid : s.roundState.polka s.roundState.roundNumber = some id)
    (hother : id.isEmpty = true ∨ id.hash ≠ p.getBlockHash block) :
    s.roundState.lockedRoundNumber < s.roundState.roundNumber := by
  obtain ⟨hle, id', hid', hempty, hhash⟩ := hs.lock block hblock
  refine lt_of_le_of_ne hle fun heq => ?_
  rw [heq, hid] at hid'
  cases hid'
  rcases hother with h | h
  · rw [hempty] at h
    cases h
  · exact h ((hp.hashesTo_iff block id.hash).1 hhash).symm

theorem Holds.refl (hblock : s.roundState.lockedBlock = some block) : Holds s s block :=
  .inr (.inl ⟨block, hblock, rfl, le_refl _⟩)

theorem Holds.of_eq (hblock : s.roundState.lockedBlock = some block)
    (ht : t.roundState.lockedBlock = s.roundState.lockedBlock)
    (hround : t.roundState.lockedRoundNumber = s.roundState.lockedRoundNumber) : Holds s t block :=
  .inr (.inl ⟨block, ht.trans hblock, rfl, hround.ge⟩)

section

variable (hs : s.Locks) (hp : LawfulParts p) (hblock : s.roundState.lockedBlock = some block)
include hs hp hblock

/-- What is given up to stage another block, or none, is given up for the polka. -/
theorem Locks.holds_of_polka (hid : s.roundState.polka s.roundState.roundNumber = some id)
    (hother : id.isEmpty = true ∨ id.hash ≠ p.getBlockHash block) (hvotes : t.roundState.votes = s.roundState.votes)
    (hround : t.roundState.roundNumber = s.roundState.roundNumber) : Holds s t block := by
  refine .inr (.inr ⟨s.roundState.roundNumber, id, ?_, hother, hs.lt_of_polka hp hblock hid hother, hround.ge⟩)
  rw [RoundState.polka, hvotes]
  exact hid

theorem Locks.holds_of_precommits (hstaged : ∀ id, s.LockedPolka s.roundState.roundNumber id → s.Staged id)
    (h : s.Precommits s.roundState.roundNumber t) : Holds s t block := by
  cases h with
  | nil => exact .of_eq hblock rfl rfl
  | nilUnlocked => exact .of_eq hblock rfl rfl
  | unlock id hid hother =>
    refine hs.holds_of_polka hp hblock hid ?_ rfl rfl
    -- the proposed block is not the one of the polka, so this is not for the locked block
    by_contra h
    simp only [not_or, Bool.not_eq_true, ne_eq, not_not] at h
    obtain ⟨hempty, hhash⟩ := h
    obtain ⟨proposed, hproposed, hnot⟩ := hother hempty
    obtain ⟨staged, hstaged, hyes⟩ := hstaged id ⟨hid, hempty, block, hblock, (hp.hashesTo_iff _ _).2 hhash.symm⟩
    rw [Option.some.inj (hproposed.symm.trans hstaged), hyes] at hnot
    cases hnot
  | lock id proposed hid hempty hproposed hhash =>
    by_cases hsame : id.hash = p.getBlockHash block
    · exact .inr (.inl ⟨proposed, rfl, ((hp.hashesTo_iff _ _).1 hhash).trans hsame, (hs.lock block hblock).1⟩)
    · exact hs.holds_of_polka hp hblock hid (.inr hsame) rfl rfl

theorem Locks.holds_of_write (h : Write (lockRules p) s t) : Holds s t block := by
  cases h with
  | precommit round t hpasses hrule ht =>
    obtain ⟨hle, hstaged⟩ := hrule
    have hround : round = s.roundState.roundNumber := le_antisymm hle (hpasses.elim le_of_lt fun h => h.1.le)
    subst hround
    exact hs.holds_of_precommits hp hblock hstaged ht
  | update lastCommit hheight =>
    have hheight : s.roundState.height ≤ s.state.lastBlockHeight := hheight
    exact .inl (Int.lt_add_one_of_le hheight)
  | unlock round id locked hid hlocked hlt hle hhash =>
    rw [hblock] at hlocked
    cases hlocked
    refine .inr (.inr ⟨round, id, hid, .inr fun heq => ?_, hlt, hle⟩)
    rw [(hp.hashesTo_iff _ _).2 heq.symm] at hhash
    cases hhash
  | _ => exact .of_eq hblock rfl rfl

end

/-- The votes of `s` that count are among those of `t`, which is in no earlier round. -/
structure Behind (s t : ConsensusState p) : Prop where
  polka : ∀ round id, s.roundState.polka round = some id → t.roundState.polka round = some id
  roundNumber : s.roundState.roundNumber ≤ t.roundState.roundNumber

theorem behind_of_write (hp : LawfulParts p) (h : Write (lockRules p) s t) :
    s.roundState.height < t.roundState.height ∨ s.roundState.height = t.roundState.height ∧ Behind s t := by
  have hle : ∀ {round type}, s.Passes round type → s.roundState.roundNumber ≤ round :=
    fun hpasses => hpasses.elim le_of_lt fun h => h.1.le
  cases h with
  | addVote vote peerID =>
    exact .inr ⟨rfl, fun round id hid => hp.addVote s.roundState.votes vote peerID round id hid, le_refl _⟩
  | report height hheight =>
    have hheight : height = s.roundState.height := hheight
    exact .inr ⟨hheight.symm, fun _ _ hid => hid, le_refl _⟩
  | newRound round hpasses =>
    exact .inr ⟨rfl, fun round' id hid => (hp.setRoundNumber s.roundState.votes (round + 1) round').trans hid, hle hpasses⟩
  | prevote round new hpasses => exact .inr ⟨rfl, fun _ _ hid => hid, hle hpasses⟩
  | prevoteWait round hpasses => exact .inr ⟨rfl, fun _ _ hid => hid, hle hpasses⟩
  | precommit round t _ _ ht => cases ht <;> exact .inr ⟨rfl, fun _ _ hid => hid, le_refl _⟩
  | update lastCommit hheight =>
    have hheight : s.roundState.height ≤ s.state.lastBlockHeight := hheight
    exact .inl (Int.lt_add_one_of_le hheight)
  | _ => exact .inr ⟨rfl, fun _ _ hid => hid, le_refl _⟩

theorem Holds.trans (hs : Holds s t block) (hheight : s.roundState.height ≤ t.roundState.height)
    (ht : ∀ block', t.roundState.lockedBlock = some block' → Holds t u block')
    (hu : t.roundState.height < u.roundState.height ∨ t.roundState.height = u.roundState.height ∧ Behind t u) :
    Holds s u block := by
  rcases hu with hlt | ⟨heq, hbehind⟩
  · exact .inl (hheight.trans_lt hlt)
  rcases hs with hlt | ⟨block', hblock', hhash, hle⟩ | ⟨round, id, hid, hother, hlt, hle⟩
  · exact .inl (heq ▸ hlt)
  · rcases ht block' hblock' with hlt | ⟨block'', hblock'', hhash', hle'⟩ | ⟨round, id, hid, hother, hlt, hle'⟩
    · exact .inl (hheight.trans_lt hlt)
    · exact .inr (.inl ⟨block'', hblock'', hhash'.trans hhash, hle.trans hle'⟩)
    · exact .inr (.inr ⟨round, id, hid, hhash ▸ hother, hle.trans_lt hlt, hle'⟩)
  · exact .inr (.inr ⟨round, id, hbehind.polka round id hid, hother, hlt, hle.trans hbehind.roundNumber⟩)

/-- Signing other things and going on to later rounds leave the lock as it is. -/
theorem Locks.of_behind (hs : s.Locks) (hbehind : Behind s t)
    (hsigned : ∀ v ∈ t.signed, v.type = .precommit → v ∈ s.signed ∨ v.OnPolka)
    (hlock : t.roundState.lockedBlock = none ∨ t.roundState.lockedBlock = s.roundState.lockedBlock ∧
      t.roundState.lockedRoundNumber = s.roundState.lockedRoundNumber) : t.Locks where
  precommits v hv htype := (hsigned v hv htype).elim (fun hv => hs.precommits v hv htype) fun h => h
  lock block hblock := by
    rcases hlock with hnone | ⟨heq, hround⟩
    · rw [hnone] at hblock
      cases hblock
    · obtain ⟨hle, id, hid, hid'⟩ := hs.lock block (heq ▸ hblock)
      rw [hround]
      exact ⟨hle.trans hbehind.roundNumber, id, hbehind.polka _ id hid, hid'⟩

theorem Locks.of_precommits (hs : s.Locks) (hp : LawfulParts p) (h : s.Precommits s.roundState.roundNumber t) :
    t.Locks := by
  have hsigned : ∀ (rs : RoundState p) hash, (∀ v : Signed p, v = ⟨.precommit, hash, rs⟩ → v.OnPolka) →
      ∀ v ∈ s.signed ++ [⟨.precommit, hash, rs⟩], v.type = .precommit → v ∈ s.signed ∨ v.OnPolka :=
    fun rs hash hnew v hv _ => (List.mem_append.1 hv).imp_right fun hv => hnew v (List.mem_singleton.1 hv)
  have hnil : ∀ (rs : RoundState p) (v : Signed p), v = ⟨.precommit, none, rs⟩ → v.OnPolka := by
    rintro rs v rfl hash hhash
    cases hhash
  cases h with
  | nil => exact hs.of_behind ⟨fun _ _ hid => hid, le_refl _⟩ (hsigned _ _ (hnil _)) (.inr ⟨rfl, rfl⟩)
  | unlock => exact hs.of_behind ⟨fun _ _ hid => hid, le_refl _⟩ (hsigned _ _ (hnil _)) (.inl rfl)
  | nilUnlocked => exact hs.of_behind ⟨fun _ _ hid => hid, le_refl _⟩ (hsigned _ _ (hnil _)) (.inr ⟨rfl, rfl⟩)
  | lock id block hid hempty hproposed hhash =>
    refine ⟨fun v hv htype => ?_, fun block' hblock' => ?_⟩
    · refine (hsigned _ _ ?_ v hv htype).elim (fun hv => hs.precommits v hv htype) fun h => h
      rintro v rfl hash hhash'
      cases hhash'
      exact ⟨id, block, hid, hempty, rfl, rfl, (hp.hashesTo_iff _ _).1 hhash, rfl⟩
    · cases hblock'
      exact ⟨le_refl _, id, hid, hempty, hhash⟩

theorem Locks.of_write (hs : s.Locks) (hp : LawfulParts p) (h : Write (lockRules p) s t) : t.Locks := by
  have hbehind := behind_of_write hp h
  cases h with
  | precommit round t hpasses hrule ht =>
    have hround : round = s.roundState.roundNumber := le_antisymm hrule.1 (hpasses.elim le_of_lt fun h => h.1.le)
    subst hround
    exact hs.of_precommits hp ht
  | prevote round new _ _ hnew =>
    refine hs.of_behind (hbehind.resolve_left (lt_irrefl _)).2 (fun v hv htype => ?_) (.inr ⟨rfl, rfl⟩)
    refine (List.mem_append.1 hv).imp_right fun hv => ?_
    rw [(hnew v hv).1] at htype
    cases htype
  | update lastCommit => exact ⟨hs.precommits, fun block hblock => by cases hblock⟩
  | unlock => exact hs.of_behind (hbehind.resolve_left (lt_irrefl _)).2 (fun v hv _ => .inl hv) (.inl rfl)
  | report => exact hs.of_behind ⟨fun _ _ hid => hid, le_refl _⟩ (fun v hv _ => .inl hv) (.inr ⟨rfl, rfl⟩)
  | _ => exact hs.of_behind (hbehind.resolve_left (lt_irrefl _)).2 (fun v hv _ => .inl hv) (.inr ⟨rfl, rfl⟩)

theorem natural_lockRules (p : Parts) : (lockRules p).Natural where
  prevote _ := trivial
  precommitWait _ _ _ := trivial

/-- A state that the vote has made ready is no worse off than the one the vote is in. -/
theorem Ready.lockedPolka (hp : LawfulParts p) (ht : Ready s t) (h : t.LockedPolka round id) : s.LockedPolka round id := by
  obtain ⟨hid, hempty, block, hblock, hhash⟩ := h
  refine ⟨?_, hempty, block, ?_, hhash⟩
  · rcases ht.votes with hvotes | ⟨number, hvotes⟩
    · rwa [RoundState.polka, hvotes] at hid
    · rwa [RoundState.polka, hvotes, hp.setRoundNumber] at hid
  · rcases ht.locked with hnone | heq
    · rw [hnone] at hblock
      cases hblock
    · exact heq ▸ hblock

theorem Ready.passes (ht : Ready s t) (hround : t.roundState.roundNumber = round) (hpasses : t.Passes round .precommit) :
    s.Passes round .precommit := by
  have hlt : t.roundState.stepType < .precommit := hpasses.elim (fun hlt => absurd hlt hround.not_lt) And.right
  rcases ht.round with hlt' | ⟨heq, hstep | hstep⟩
  · exact .inl (hround ▸ hlt')
  · exact .inr ⟨heq.trans hround, hstep ▸ hlt⟩
  · refine .inr ⟨heq.trans hround, ?_⟩
    rw [hstep]
    decide

theorem Orderly.allows {e : Event p} (hp : LawfulParts p) (h : s.Orderly e) : (lockRules p).Allows s e := by
  cases e with
  | addVote vote peerID =>
    intro hheight height hreport
    obtain ⟨rfl, hstaged, hahead⟩ := h hheight height hreport
    refine ⟨rfl, fun henters t ht hround hpasses => ⟨hround.ge, fun id hid => ?_⟩,
      fun hcommits t ht hstate _ hempty hlast => ?_⟩
    · obtain ⟨block, hblock, hhash⟩ := hstaged henters (ht.passes hround hpasses) id (ht.lockedPolka hp hid)
      exact ⟨block, ht.proposalBlock.trans hblock, hhash⟩
    · have hstate : t.state = s.state := hstate
      have ht : t.roundState.height = s.roundState.height := ht
      rw [hstate] at hempty
      change t.roundState.height ≤ t.state.lastBlockHeight
      rw [ht, hstate]
      exact (hahead hcommits).height_le hempty hlast
  | enterPrevote height round => exact fun _ _ _ _ => trivial
  | enterPrecommit height round => exact fun hheight hpasses => (h hheight hpasses).imp_left le_of_eq
  | enterPrecommitWait height round => exact fun _ _ _ => trivial
  | enterCommit height round => exact fun hheight hstep hempty hlast => (h hheight hstep).height_le hempty hlast
  | _ => trivial

theorem Locks.of_reaches (hs : s.Locks) (hp : LawfulParts p) (h : Reaches Orderly s t) :
    t.Locks ∧ s.roundState.height ≤ t.roundState.height ∧
      ∀ block, s.roundState.lockedBlock = some block → Holds s t block := by
  induction h with
  | refl => exact ⟨hs, le_refl _, fun _ => .refl⟩
  | tail _ hstep ih =>
    obtain ⟨e, horderly, hstep⟩ := hstep
    have hwrites := writes_step (natural_lockRules p) (horderly.allows hp) hstep
    clear hstep
    induction hwrites with
    | refl => exact ih
    | tail _ hwrite ih =>
      obtain ⟨ht, hheight, hholds⟩ := ih
      have hbehind := behind_of_write hp hwrite
      exact ⟨ht.of_write hp hwrite, hheight.trans (hbehind.elim le_of_lt fun h => h.1.le), fun block hblock =>
        (hholds block hblock).trans hheight (fun _ hblock' => ht.holds_of_write hp hblock' hwrite) hbehind⟩

/-! ### The block that is locked already -/

/-- `enterPrecommit` precommits what the polka is for, and locks it in `round`. -/
def PrecommitsLocked (s : ConsensusState p) (round : Int) (id : BlockID) : Prop :=
  ∃ t block rs, enterPrecommit s.roundState.height round s = .ok () t ∧
    t.signed = s.signed ++ [⟨.precommit, some id.hash, rs⟩] ∧ t.roundState.lockedBlock = some block ∧
    p.getBlockHash block = id.hash ∧ t.roundState.lockedRoundNumber = round

theorem Staged.precommitsLocked (hstaged : s.Staged id) (hp : LawfulParts p) (hpasses : s.Passes round .precommit)
    (h : s.LockedPolka round id) : s.PrecommitsLocked round id := by
  obtain ⟨block, hblock, hhash⟩ := hstaged
  obtain ⟨hid, hempty, -⟩ := h
  have hle : s.roundState.roundNumber ≤ round := hpasses.elim le_of_lt fun h => h.1.le
  have hpol : ¬ p.polInfo s.roundState.votes < s.roundState.roundNumber :=
    not_lt.2 (hle.trans (hp.polInfo s.roundState.votes round id hid))
  have hwp : wp (enterPrecommit s.roundState.height round)
      (fun _ t => t = (s.withRound fun rs =>
        { rs with lockedRoundNumber := round, lockedBlock := rs.proposalBlock }).withSigned .precommit id.hash)
      (fun _ _ => False) s := by
    unfold enterPrecommit
    rw [wp_bind, wp_get, wp_ite, if_neg (not_rejected_iff.2 ⟨rfl, hpasses⟩), wp_guarded]
    rw [RoundState.polka] at hid
    simp only [hid, hempty, hblock, hhash, hpol, deref, wp_bind, wp_pure, if_false, if_true, Bool.false_eq_true]
    rw [modifyRound, wp_modify]
    rfl
  rw [wp] at hwp
  cases hrun : enterPrecommit s.roundState.height round s with
  | ok a t =>
    rw [hrun] at hwp
    subst hwp
    exact ⟨_, block, _, hrun, rfl, hblock, (hp.hashesTo_iff _ _).1 hhash, rfl⟩
  | error exn t =>
    rw [hrun] at hwp
    exact hwp.elim

/-- What a call for the locked block's polka does comes down to what is proposed. -/
theorem precommitsLocked_iff (hp : LawfulParts p) (hpasses : s.Passes round .precommit)
    (h : s.LockedPolka round id) : s.PrecommitsLocked round id ↔ s.Staged id := by
  refine ⟨?_, fun hstaged => hstaged.precommitsLocked hp hpasses h⟩
  rintro ⟨t, block, rs, hrun, hsigned, hblock, hhash, hround⟩
  have hleaves : Leaves (enterPrecommit s.roundState.height round) (fun t => t = s ∨ s.Precommits round t) s :=
    leaves_enterPrecommit (.inl rfl) fun _ _ _ ht => .inr ht
  rw [Leaves, wp, hrun] at hleaves
  rcases hleaves with rfl | ht
  · exact absurd hsigned (by simp)
  · obtain ⟨hid, hempty, -⟩ := h
    rw [RoundState.polka] at hid
    cases ht with
    | nil hnone =>
      rw [hid] at hnone
      cases hnone
    | unlock => cases hblock
    | nilUnlocked id' hid' hempty' =>
      rw [hid] at hid'
      cases hid'
      rw [hempty] at hempty'
      cases hempty'
    | lock id' proposed hid' _ hproposed hhash' =>
      rw [hid] at hid'
      cases hid'
      exact ⟨proposed, hproposed, hhash'⟩

/-! ### The rule -/

/-- In a run that is orderly, a block is precommitted behind a polka of the round only, and then locked in it; and a
lock is given up for a later polka only. And in any state, whoever calls it, `enterPrecommit` precommits the block that
is locked already if and only if the proposed block is that one, too. -/
theorem locks_on_polka (hp : LawfulParts p) :
    (∀ s₀ s t : ConsensusState p, Start s₀ → Reaches Orderly s₀ s → Reaches Orderly s t →
      (∀ v ∈ t.signed, v.type = .precommit → v.OnPolka) ∧
      ∀ block, s.roundState.lockedBlock = some block → Holds s t block) ∧
    ∀ (s : ConsensusState p) (round : Int) (id : BlockID), s.Passes round .precommit → s.LockedPolka round id →
      (s.PrecommitsLocked round id ↔ s.Staged id) := by
  refine ⟨fun s₀ s t hs₀ hs ht => ?_, fun s round id => precommitsLocked_iff hp⟩
  have hlocks₀ : s₀.Locks :=
    ⟨by simp [hs₀.signed], fun block hblock => by rw [hs₀.lockedBlock] at hblock; cases hblock⟩
  have hlocks := (hlocks₀.of_reaches hp hs).1
  exact ⟨((hlocks.of_reaches hp ht).1).precommits, (hlocks.of_reaches hp ht).2.2⟩

theorem orderly_prevoteOf {s : ConsensusState (fourValidators Vote.height)} {height round validator : Int}
    {block : HexBytes} (hs : s.roundState.lockedBlock = none) : s.Orderly (prevoteOf height round block validator) := by
  intro hheight reported hreport
  refine ⟨?_, fun _ _ _ h => ?_, fun hcommits => by cases hcommits.1⟩
  · rw [hheight]
    exact (Option.some.inj hreport).symm
  · obtain ⟨-, -, locked, hlocked, -⟩ := h
    have hlocked : s.roundState.lockedBlock = some locked := hlocked
    rw [hs] at hlocked
    cases hlocked

/-- The block is locked in round 0, and locked again if `enterPrecommit` is called once more. -/
theorem locks_on_polka_twice : ∃ s t : ConsensusState (fourValidators Vote.height),
    s.run ([0, 1, 2].map (prevoteOf 1 0 [1])) (·.roundState.lockedBlock.isNone) = some t ∧
    (∃ v ∈ t.signed, v.type = .precommit ∧ v.hash = some [1] ∧ v.OnPolka) ∧ t.PrecommitsLocked 0 ⟨[1], [1]⟩ := by
  have hrun : ∃ t, (atHeight 1 [1]).run ([0, 1, 2].map (prevoteOf 1 0 [1]))
      (·.roundState.lockedBlock.isNone) = some t ∧ (∃ v ∈ t.signed, v.type = .precommit ∧ v.hash = some [1]) ∧
      t.roundState.lockedBlock = some [1] ∧ t.roundState.proposalBlock = some [1] ∧
      t.roundState.polka 0 = some ⟨[1], [1]⟩ ∧ t.roundState.roundNumber = 0 ∧
      t.roundState.stepType < .precommit := by decide +kernel
  obtain ⟨t, ht, ⟨v, hv, htype, hhash⟩, hlocked, hproposed, hpolka, hround, hstep⟩ := hrun
  have hreaches : Reaches Orderly (atHeight 1 [1]) t := by
    refine Reaches.run (fun s e he hs => ?_) ht
    obtain ⟨_, -, rfl⟩ := List.mem_map.1 he
    exact orderly_prevoteOf (Option.isNone_iff_eq_none.1 hs)
  have hp : LawfulParts (fourValidators Vote.height) := lawfulParts_fourValidators
  obtain ⟨hruns, hcalls⟩ := locks_on_polka hp
  obtain ⟨hsigned, -⟩ := hruns _ _ t ⟨rfl, rfl, rfl, rfl, rfl⟩ .refl hreaches
  refine ⟨atHeight 1 [1], t, ht, ⟨v, hv, htype, hhash, hsigned v hv htype⟩, ?_⟩
  exact (hcalls t 0 _ (.inr ⟨hround, hstep⟩) ⟨hpolka, rfl, [1], hlocked, rfl⟩).2 ⟨[1], hproposed, rfl⟩

/-- The node locks the block 1 in round 0, is proposed 2 and sees that the others prevote 1 again, in round 1. -/
theorem not_locks_on_polka : ¬ ∀ p : Parts, LawfulParts p →
    (∀ s₀ s t : ConsensusState p, Start s₀ → Reaches (fun _ _ => True) s₀ s → Reaches (fun _ _ => True) s t →
      (∀ v ∈ t.signed, v.type = .precommit → v.OnPolka) ∧
      ∀ block, s.roundState.lockedBlock = some block → Holds s t block) ∧
    ∀ (s : ConsensusState p) (round : Int) (id : BlockID), s.Passes round .precommit → s.LockedPolka round id →
      s.PrecommitsLocked round id := by
  intro h
  have hrun : ∃ s, (atHeight 1 [1]).run ([0, 1, 2].map (prevoteOf 1 0 [1])) = some s ∧
      s.roundState.lockedBlock = some [1] ∧ s.roundState.lockedRoundNumber = 0 ∧ s.roundState.height = 1 ∧
      ∃ t, s.run (.blockMessage (some [2]) :: [0, 1, 2].map (prevoteOf 1 1 [1])) = some t ∧
      t.roundState.lockedBlock = none ∧ t.roundState.roundNumber = 1 ∧ t.roundState.height = 1 ∧
      t.roundState.polka 1 = some ⟨[1], [1]⟩ := by decide +kernel
  obtain ⟨s, hs, hlocked, hlockedRound, hheight, t, ht, hunlocked, hround, hheight', hpolka⟩ := hrun
  obtain ⟨-, hholds⟩ := (h _ lawfulParts_fourValidators).1 _ s t ⟨rfl, rfl, rfl, rfl, rfl⟩
    (Reaches.run (fun _ _ _ _ => trivial) hs) (Reaches.run (fun _ _ _ _ => trivial) ht)
  rcases hholds _ hlocked with hlt | ⟨block, hblock, -⟩ | ⟨round, id, hid, hother, hlt, hle⟩
  · omega
  · rw [hunlocked] at hblock
    cases hblock
  · have hone : round = 1 := by omega
    rw [hone, hpolka] at hid
    cases hid
    rcases hother with h | h
    · cases h
    · exact h rfl

end ConsensusState

end Kmdx.Tm
