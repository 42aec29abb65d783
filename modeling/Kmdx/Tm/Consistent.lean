import Kmdx.Tm.ConsensusLock
import Kmdx.Tm.ConsensusSigning

/-!
# Careful and orderly at once

A node whose steps are careful (`ConsensusState.Careful`) and orderly (`ConsensusState.Orderly`) keeps the rules of
signing and those of the lock with every write (`writes_of_step`), so that what it signs in one round goes together
with what it has signed in the rounds before (`Consistent`).

Whatever the handlers do, they write the round state but for its votes, move the votes on to a later round, sign, or go on
to the next height. A property that is closed under these is kept by a step, if it is kept by adding the vote that comes in
(`Closed.of_step`).
-/

namespace Kmdx.Tm.ConsensusState

open List

variable {p : Parts}

/-- Both rules. -/
def Rules.and (r r' : Rules p) : Rules p where
  report s height := r.report s height ∧ r'.report s height
  prevote s round := r.prevote s round ∧ r'.prevote s round
  precommit s round := r.precommit s round ∧ r'.precommit s round
  precommitWait s round := r.precommitWait s round ∧ r'.precommitWait s round
  update s := r.update s ∧ r'.update s

variable {r r' : Rules p} {s t u : ConsensusState p} {e : Event p} {v w : Signed p} {hash : HexBytes}

theorem Write.mono (hreport : ∀ s height, r.report s height → r'.report s height)
    (hprevote : ∀ s round, r.prevote s round → r'.prevote s round)
    (hprecommit : ∀ s round, r.precommit s round → r'.precommit s round)
    (hwait : ∀ s round, r.precommitWait s round → r'.precommitWait s round)
    (hupdate : ∀ s, r.update s → r'.update s) (h : Write r s t) : Write r' s t := by
  cases h with
  | addVote vote peerID => exact .addVote vote peerID
  | report height h => exact .report height (hreport s height h)
  | newRound round hpasses => exact .newRound round hpasses
  | prevote round new hpasses h hnew hlength =>
    exact .prevote round new hpasses (fun hsome => hprevote s round (h hsome)) hnew hlength
  | prevoteWait round hpasses => exact .prevoteWait round hpasses
  | precommit round _ hpasses h ht => exact .precommit round t hpasses (hprecommit s round h) ht
  | precommitWait round hpasses h => exact .precommitWait round hpasses (hwait s round h)
  | commit round h => exact .commit round h
  | update lastCommit h hempty hlast => exact .update lastCommit (hupdate s h) hempty hlast
  | unlock round id block hid hblock hlt hle hhash => exact .unlock round id block hid hblock hlt hle hhash
  | valid round => exact .valid round
  | lastCommit lastCommit => exact .lastCommit lastCommit
  | blockMessage block => exact .blockMessage block

theorem Write.left (h : Write (r.and r') s t) : Write r s t :=
  h.mono (fun _ _ => And.left) (fun _ _ => And.left) (fun _ _ => And.left) (fun _ _ => And.left) fun _ => And.left

theorem Write.right (h : Write (r.and r') s t) : Write r' s t :=
  h.mono (fun _ _ => And.right) (fun _ _ => And.right) (fun _ _ => And.right) (fun _ _ => And.right) fun _ => And.right

theorem Rules.Natural.and (h : r.Natural) (h' : r'.Natural) : (r.and r').Natural where
  prevote s := ⟨h.prevote s, h'.prevote s⟩
  precommitWait s round hle := ⟨h.precommitWait s round hle, h'.precommitWait s round hle⟩

theorem Rules.Allows.and (h : r.Allows s e) (h' : r'.Allows s e) : (r.and r').Allows s e := by
  cases e with
  | addVote vote peerID =>
    intro hheight height hreport
    obtain ⟨hr, hvote⟩ := h hheight height hreport
    obtain ⟨hr', hvote'⟩ := h' hheight height hreport
    refine ⟨⟨hr, hr'⟩, fun henters t ht hround hpasses => ?_, fun hcommits t ht hstate hround hempty hlast => ?_⟩
    · exact ⟨hvote.precommit henters t ht hround hpasses, hvote'.precommit henters t ht hround hpasses⟩
    · exact ⟨hvote.update hcommits t ht hstate hround hempty hlast, hvote'.update hcommits t ht hstate hround hempty hlast⟩
  | enterPrevote height round =>
    exact fun hheight hpasses hround hlocked => ⟨h hheight hpasses hround hlocked, h' hheight hpasses hround hlocked⟩
  | enterPrecommit height round => exact fun hheight hpasses => ⟨h hheight hpasses, h' hheight hpasses⟩
  | enterPrecommitWait height round => exact fun hheight hpasses hany => ⟨h hheight hpasses hany, h' hheight hpasses hany⟩
  | enterCommit height round =>
    exact fun hheight hstep hempty hlast => ⟨h hheight hstep hempty hlast, h' hheight hstep hempty hlast⟩
  | _ => trivial

/-- What is written is signed for the height and round the node is in, a prevote as it is. -/
theorem Write.signed (h : Write r s t) : ∃ new : List (Signed p), t.signed = s.signed ++ new ∧
    ∀ v ∈ new, v.roundState.height = s.roundState.height ∧ v.roundState.roundNumber = s.roundState.roundNumber ∧
      (v.type = .prevote → v.roundState = s.roundState) := by
  have hprecommit : VoteType.precommit ≠ .prevote := by decide
  cases h with
  | prevote round new _ _ hnew => exact ⟨new, rfl, fun v hv => by rw [(hnew v hv).2]; exact ⟨rfl, rfl, fun _ => rfl⟩⟩
  | precommit round t _ _ ht =>
    cases ht <;> exact ⟨[_], rfl, fun v hv => by rw [mem_singleton.1 hv]; exact ⟨rfl, rfl, fun h => absurd h hprecommit⟩⟩
  | _ => exact ⟨[], (append_nil _).symm, fun v hv => absurd hv not_mem_nil⟩

/-- The lock on the block that `v` precommits is held, or there was a later polka for something else, or the height is a
later one. -/
def Kept (s : ConsensusState p) (v : Signed p) (hash : HexBytes) : Prop :=
  v.roundState.height < s.roundState.height ∨
  (∃ block, s.roundState.lockedBlock = some block ∧ p.getBlockHash block = hash ∧
    v.roundState.roundNumber ≤ s.roundState.lockedRoundNumber) ∨
  ∃ round id, s.roundState.polka round = some id ∧ (id.isEmpty = true ∨ id.hash ≠ hash) ∧
    v.roundState.roundNumber < round ∧ round ≤ s.roundState.roundNumber

/-- What a node has signed goes together, round by round. -/
structure Consistent (s : ConsensusState p) : Prop where
  once : s.SignsOnce
  locks : s.Locks
  kept : ∀ v ∈ s.signed, v.type = .precommit → ∀ hash, v.hash = some hash → s.Kept v hash
  /-- A prevote with nothing locked comes after a polka that has undone the precommit of an earlier round. -/
  undone : ∀ v ∈ s.signed, v.type = .precommit → ∀ hash, v.hash = some hash → ∀ w ∈ s.signed, w.type = .prevote →
    w.roundState.lockedBlock = none → v.roundState.height = w.roundState.height →
    v.roundState.roundNumber < w.roundState.roundNumber →
    ∃ round id, w.roundState.polka round = some id ∧ (id.isEmpty = true ∨ id.hash ≠ hash) ∧
      v.roundState.roundNumber < round ∧ round ≤ w.roundState.roundNumber

abbrev bothRules (p : Parts) : Rules p := (signingRules p).and (lockRules p)

theorem Kept.of_write (hv : s.Kept v hash) (hlocks : s.Locks) (hp : LawfulParts p)
    (hle : v.roundState.height ≤ s.roundState.height) (h : Write (lockRules p) s t) : t.Kept v hash := by
  rcases behind_of_write hp h with hlt | ⟨heq, hbehind⟩
  · exact .inl (hle.trans_lt hlt)
  rcases hv with hlt | ⟨block, hblock, rfl, hround⟩ | ⟨round, id, hid, hother, hlt, hround⟩
  · exact .inl (heq ▸ hlt)
  · rcases hlocks.holds_of_write hp hblock h with hlt | ⟨block', hblock', hhash, hround'⟩
        | ⟨round, id, hid, hother, hlt, hround'⟩
    · exact .inl (hle.trans_lt hlt)
    · exact .inr (.inl ⟨block', hblock', hhash, hround.trans hround'⟩)
    · exact .inr (.inr ⟨round, id, hid, hother, hround.trans_lt hlt, hround'⟩)
  · exact .inr (.inr ⟨round, id, hbehind.polka round id hid, hother, hlt, hround.trans hbehind.roundNumber⟩)

/-- What is new of a write is signed where the node is then, which it stays at but for the prevote. -/
theorem Consistent.kept_of_write (hs : s.Consistent) (hp : LawfulParts p) (h : Write (bothRules p) s t) :
    ∀ v ∈ t.signed, v.type = .precommit → ∀ hash, v.hash = some hash → t.Kept v hash := by
  intro v hv htype hash hhash
  have hlocks := hs.locks.of_write hp h.right
  have hold : v ∈ s.signed → t.Kept v hash := fun hv =>
    (hs.kept v hv htype hash hhash).of_write hs.locks hp ((hs.once.le v hv).elim le_of_lt fun h => h.1.le) h.right
  cases h with
  | prevote round new _ _ hnew =>
    refine (mem_append.1 hv).elim hold fun hv => ?_
    rw [(hnew v hv).1] at htype
    cases htype
  | precommit round t _ _ ht =>
    have hnew : v.roundState = t.roundState → t.Kept v hash := by
      intro heq
      obtain ⟨-, block, -, -, -, hblock, hhash', hround⟩ := hlocks.precommits v hv htype hash hhash
      rw [heq] at hblock hround
      exact .inr (.inl ⟨block, hblock, hhash', by rw [heq, hround]⟩)
    cases ht <;> exact (mem_append.1 hv).elim hold fun hv => hnew (by rw [mem_singleton.1 hv]; rfl)
  | _ => exact hold hv

theorem Consistent.undone_of_write (hs : s.Consistent) (h : Write (bothRules p) s t) :
    ∀ v ∈ t.signed, v.type = .precommit → ∀ hash, v.hash = some hash → ∀ w ∈ t.signed, w.type = .prevote →
    w.roundState.lockedBlock = none → v.roundState.height = w.roundState.height →
    v.roundState.roundNumber < w.roundState.roundNumber →
    ∃ round id, w.roundState.polka round = some id ∧ (id.isEmpty = true ∨ id.hash ≠ hash) ∧
      v.roundState.roundNumber < round ∧ round ≤ w.roundState.roundNumber := by
  intro v hv htype hash hhash w hw htype' hunlocked hheight hlt
  obtain ⟨new, hsigned, hnew⟩ := h.signed
  rcases mem_append.1 (hsigned ▸ hv) with hv' | hv'
  · rcases mem_append.1 (hsigned ▸ hw) with hw' | hw'
    · exact hs.undone v hv' htype hash hhash w hw' htype' hunlocked hheight hlt
    · -- the prevote is new: what is precommitted is not locked any more
      have hstate := (hnew w hw').2.2 htype'
      rw [hstate] at hunlocked hheight hlt ⊢
      rcases hs.kept v hv' htype hash hhash with hlt' | ⟨block, hblock, -⟩ | hpolka
      · exact absurd hlt' hheight.not_lt
      · rw [hunlocked] at hblock
        cases hblock
      · exact hpolka
  · -- the precommit is new: nothing has been signed for a later round
    obtain ⟨hheight', hround, -⟩ := hnew v hv'
    rcases mem_append.1 (hsigned ▸ hw) with hw' | hw'
    · have hle := hs.once.le w hw'
      omega
    · have hround' := (hnew w hw').2.1
      omega

theorem Consistent.of_write (hs : s.Consistent) (hp : LawfulParts p) (h : Write (bothRules p) s t) : t.Consistent where
  once := hs.once.of_write h.left
  locks := hs.locks.of_write hp h.right
  kept := hs.kept_of_write hp h
  undone := hs.undone_of_write h

theorem writes_of_step (hs : s.Consistent) (hp : LawfulParts p) (hcareful : s.Careful e) (horderly : s.Orderly e)
    (h : s.step e = some t) : Writes (bothRules p) s t :=
  writes_step ((natural_signingRules p).and (natural_lockRules p)) ((hcareful.allows hs.once).and (horderly.allows hp)) h

theorem Consistent.of_step (hs : s.Consistent) (hp : LawfulParts p) (hcareful : s.Careful e) (horderly : s.Orderly e)
    (h : s.step e = some t) : t.Consistent := by
  have hwrites := writes_of_step hs hp hcareful horderly h
  clear h
  induction hwrites with
  | refl => exact hs
  | tail _ hwrite ih => exact ih.of_write hp hwrite

/-- What a step signs is for the height and round that the node is in before it, or for later ones. -/
theorem Consistent.le_of_signed (hp : LawfulParts p) (h : Writes (bothRules p) s t) (hv : v ∈ t.signed)
    (hnew : v ∉ s.signed) : s.roundState.height < v.roundState.height ∨
      s.roundState.height = v.roundState.height ∧ s.roundState.roundNumber ≤ v.roundState.roundNumber := by
  have hrun : (s.roundState.height < t.roundState.height ∨
      s.roundState.height = t.roundState.height ∧ s.roundState.roundNumber ≤ t.roundState.roundNumber) ∧
      (v ∉ s.signed → v ∈ t.signed → s.roundState.height < v.roundState.height ∨
        s.roundState.height = v.roundState.height ∧ s.roundState.roundNumber ≤ v.roundState.roundNumber) := by
    clear hv hnew
    induction h with
    | refl => exact ⟨.inr ⟨rfl, le_refl _⟩, fun hnew hv => absurd hv hnew⟩
    | @tail t u _ hwrite ih =>
      obtain ⟨hle, hold⟩ := ih
      obtain ⟨new, hsigned, hat⟩ := hwrite.signed
      refine ⟨?_, fun hnew hv => ?_⟩
      · rcases behind_of_write hp hwrite.right with hlt | ⟨heq, hbehind⟩
        · omega
        · have := hbehind.roundNumber
          omega
      · rcases mem_append.1 (hsigned ▸ hv) with hv | hv
        · exact hold hnew hv
        · have := hat v hv
          omega
  exact hrun.2 hnew hv

theorem SignsOnce.eq_of_key (hs : s.SignsOnce) (hv : v ∈ s.signed) (hw : w ∈ s.signed) (hkey : v.key = w.key) : v = w :=
  inj_on_of_nodup_map hs.nodup hv hw hkey

/-! ### What a step cannot break -/

open Wp ScopeGuard

variable {P : ConsensusState p → Prop}

structure Closed (P : ConsensusState p → Prop) : Prop where
  round : ∀ {s f}, P s → (f s.roundState).votes = s.roundState.votes → (f s.roundState).height = s.roundState.height →
    P (s.withRound f)
  newRound : ∀ {s}, P s → ∀ round, P (s.atNewRound round)
  /-- A prevote is signed where nothing is locked. -/
  signed : ∀ {s type}, P s → (type = .prevote → s.roundState.lockedBlock = none) → ∀ hash, P (s.withSigned type hash)
  updated : ∀ {s}, P s → ∀ lastCommit, P (s.updated lastCommit)

namespace Closed

variable {height round : Int} {vote : Vote}

section

variable (h : Closed P) (hs : P s)
include h hs

theorem leaves_enterNewRound : Leaves (enterNewRound height round) P s :=
  ConsensusState.leaves_enterNewRound (fun _ => hs) fun _ _ => h.newRound hs round

theorem leaves_enterPrevote : Leaves (enterPrevote height round) P s := by
  refine ConsensusState.leaves_enterPrevote hs fun _ _ new hasked hnew hlength => ?_
  have hsigned : P { s with signed := s.signed ++ new } := by
    rcases Nat.le_one_iff_eq_zero_or_eq_one.1 hlength with hnone | hone
    · rw [length_eq_zero_iff.1 hnone, append_nil]
      exact hs
    · obtain ⟨⟨type, hash, rs⟩, rfl⟩ := length_eq_one_iff.1 hone
      obtain ⟨rfl, rfl⟩ : type = .prevote ∧ rs = s.roundState := hnew _ mem_cons_self
      exact h.signed hs (fun _ => (hasked (cons_ne_nil _ _)).2) hash
  exact h.round (f := fun rs => rs.updateRoundStep round .prevote) hsigned rfl rfl

theorem leaves_enterPrevoteWait : Leaves (enterPrevoteWait height round) P s :=
  ConsensusState.leaves_enterPrevoteWait hs fun _ _ => h.round hs rfl rfl

theorem of_precommits (ht : s.Precommits round t) : P t := by
  have hprevote : VoteType.precommit ≠ .prevote := by decide
  cases ht with
  | nil => exact h.signed hs (fun heq => absurd heq hprevote) _
  | unlock => exact h.signed (h.round hs rfl rfl) (fun heq => absurd heq hprevote) _
  | nilUnlocked => exact h.signed hs (fun heq => absurd heq hprevote) _
  | lock => exact h.signed (h.round hs rfl rfl) (fun heq => absurd heq hprevote) _

theorem leaves_enterPrecommit : Leaves (enterPrecommit height round) P s :=
  ConsensusState.leaves_enterPrecommit hs fun _ _ _ ht => h.of_precommits hs ht

theorem leaves_enterPrecommitWait : Leaves (enterPrecommitWait height round) P s :=
  ConsensusState.leaves_enterPrecommitWait hs fun _ _ _ => h.round hs rfl rfl

theorem leaves_enterCommit : Leaves (enterCommit height round) P s := by
  refine ConsensusState.leaves_enterCommit hs fun _ _ => ?_
  have hcommit : P (s.atCommit round) := h.round hs rfl rfl
  exact ⟨hcommit, fun _ _ lastCommit => h.updated hcommit lastCommit⟩

end

/-- One call after the other -/
theorem bind {x : M p Unit} {f : Unit → M p Unit} (hx : Leaves x P s) (hf : ∀ t, P t → Leaves (f ()) P t) :
    Leaves (x >>= f) P s := leaves_bind hx hf fun _ => id

section

variable (h : Closed P) (hs : P s)
include h hs

theorem leaves_followPrevotes (prevotes : p.VoteSet) : Leaves (followPrevotes vote prevotes) P s := by
  unfold followPrevotes
  rw [Leaves, wp_bind, wp_get]
  split
  · refine bind (x := enterNewRound s.roundState.height vote.roundNumber) (h.leaves_enterNewRound hs) fun t ht => ?_
    split
    · exact h.leaves_enterPrecommit ht
    · exact bind (x := enterPrevote t.roundState.height vote.roundNumber) (h.leaves_enterPrevote ht)
        fun u hu => h.leaves_enterPrevoteWait hu
  · split
    · split
      · rw [wp_bind]
        refine wp_isProposalComplete (fun b => ?_) hs
        split
        · exact h.leaves_enterPrevote hs
        · exact hs
      · exact hs
    · exact hs

theorem leaves_addPrevote : Leaves (addPrevote vote) P s := by
  unfold addPrevote
  simp only [Leaves, wp_bind, wp_get]
  split
  · rename_i blockId _
    have hunlock : Leaves (unlockBlock vote blockId) P s :=
      leaves_unlockBlock hs fun _ _ _ _ _ => h.round hs rfl rfl
    refine bind hunlock fun t ht => ?_
    have hvalid : Leaves (tryUpdateValidRoundAndBlock vote blockId) P t :=
      leaves_tryUpdateValidRoundAndBlock ht (h.round ht rfl rfl)
    exact bind hvalid fun u hu => h.leaves_followPrevotes hu _
  · exact h.leaves_followPrevotes hs _

theorem leaves_addPrecommit : Leaves (addPrecommit vote) P s := by
  unfold addPrecommit
  rw [Leaves, wp_bind, wp_get]
  refine leaves_deref (f := fun precommits => _) hs fun precommits _ => ?_
  -- `enterPrecommit` in the round of the vote, and what follows it
  have henter : ∀ {f : Unit → M p Unit}, (∀ u, P u → Leaves (f ()) P u) → Leaves (do
      enterNewRound (← getHeight) vote.roundNumber
      enterPrecommit (← getHeight) vote.roundNumber
      f ()) P s := by
    intro f hf
    refine bind (x := enterNewRound s.roundState.height vote.roundNumber) (h.leaves_enterNewRound hs) fun t ht => ?_
    exact bind (x := enterPrecommit t.roundState.height vote.roundNumber) (h.leaves_enterPrecommit ht) hf
  split
  · split
    · exact h.leaves_enterNewRound hs
    · refine henter (f := fun _ => _) fun u hu => ?_
      refine bind (x := enterCommit u.roundState.height vote.roundNumber) (h.leaves_enterCommit hu) fun w hw => ?_
      split
      · exact h.leaves_enterNewRound hw
      · exact hw
  · split
    · exact henter (f := fun _ => _) fun u hu => h.leaves_enterPrecommitWait hu
    · exact hs

theorem leaves_handleStragglerCommit : Leaves (handleStragglerCommit vote) P s := by
  unfold handleStragglerCommit
  rw [Leaves, wp_bind, wp_get]
  refine leaves_deref (f := fun lastCommit => _) hs fun lastCommit _ => ?_
  split
  · exact hs
  · rename_i lastCommit' _
    have hw : P (s.withRound fun rs => { rs with lastCommit := some lastCommit' }) := h.round hs rfl rfl
    refine bind (x := modifyRound fun rs => { rs with lastCommit := some lastCommit' }) hw fun t ht => ?_
    split
    · exact h.leaves_enterNewRound ht
    · exact ht

theorem leaves_addVote {peerID : HexBytes} (hvote : s.roundState.height = vote.height →
      P (s.withRound fun rs => { rs with votes := (p.addVote rs.votes vote peerID).2 }) ∧
      ∀ height, (p.addVote s.roundState.votes vote peerID).1 = some height → P (s.withVote vote peerID height)) :
    Leaves (addVote vote peerID) P s := by
  unfold addVote
  rw [Leaves, wp_bind, wp_get]
  split
  · split
    · exact h.leaves_handleStragglerCommit hs
    · exact hs
  · split
    · rename_i hheight
      obtain ⟨hthrows, hadds⟩ := hvote (Int.sub_eq_zero.1 hheight)
      simp only [withVote, withRound] at hthrows hadds
      rcases hadd : p.addVote s.roundState.votes vote peerID with ⟨result, votes⟩
      simp only [hadd] at hthrows hadds
      rw [wp_bind]
      cases result with
      | none => exact hthrows
      | some height =>
        let u : ConsensusState p := s.withRound fun rs => { rs with votes, height }
        have hu : P u := hadds height rfl
        have hfor : Leaves (addVoteForCurrentRound vote) P u := by
          unfold addVoteForCurrentRound
          cases vote.type with
          | prevote => exact h.leaves_addPrevote hu
          | precommit => exact h.leaves_addPrecommit hu
          | firstCommit => exact hu
        exact hfor
    · exact hs

/-- A step keeps a closed property, if adding the vote that comes in does. -/
theorem of_step {e : Event p} (ht : s.step e = some t)
    (hvote : ∀ vote peerID, e = .addVote vote peerID → s.roundState.height = vote.height →
      P (s.withRound fun rs => { rs with votes := (p.addVote rs.votes vote peerID).2 }) ∧
      ∀ height, (p.addVote s.roundState.votes vote peerID).1 = some height → P (s.withVote vote peerID height)) : P t := by
  have hleaves : Leaves e.run P s := by
    cases e with
    | addVote vote peerID => exact h.leaves_addVote hs (hvote vote peerID rfl)
    | enterNewRound => exact h.leaves_enterNewRound hs
    | enterPrevote => exact h.leaves_enterPrevote hs
    | enterPrevoteWait => exact h.leaves_enterPrevoteWait hs
    | enterPrecommit => exact h.leaves_enterPrecommit hs
    | enterPrecommitWait => exact h.leaves_enterPrecommitWait hs
    | enterCommit => exact h.leaves_enterCommit hs
    | blockMessage block => exact h.round (f := fun rs => { rs with proposalBlock := block }) hs rfl rfl
  exact hleaves.of_step ht

end

end Closed

end Kmdx.Tm.ConsensusState
