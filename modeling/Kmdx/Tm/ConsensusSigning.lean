import Kmdx.Tm.FourValidators

/-!
# What is signed twice

`enterPrecommit` leaves with the step it was called at, so its guard lets the next call in the same round
pass; and `enterPrevote` signs for the round the node is in, whatever round it is called for. As long as
neither is called so where the node has signed already, it signs once for each height and round
(`ConsensusState.signs_once`). With four validators the fourth prevote is enough for a second precommit
(`ConsensusState.not_signs_once`).
-/

namespace Kmdx.Tm

open Relation

variable {p : Parts}

/-- What a vote is signed for. -/
def Signed.key (v : Signed p) : VoteType × Int × Int := (v.type, v.roundState.height, v.roundState.roundNumber)

namespace ConsensusState

/-- For the height and round the node is in. -/
def HasSigned (s : ConsensusState p) (type : VoteType) : Prop :=
  ∃ v ∈ s.signed, v.key = (type, s.roundState.height, s.roundState.roundNumber)

/-- `enterPrecommit` and `enterPrevote` are not called for what is signed, but for the guards to reject it. -/
def Careful (s : ConsensusState p) : Event p → Prop
  | .addVote vote peerID => s.roundState.height = vote.height →
    ∀ height, (p.addVote s.roundState.votes vote peerID).1 = some height → height = s.roundState.height ∧
      ((s.withVote vote peerID height).EntersPrecommit vote → s.roundState.roundNumber = vote.roundNumber →
        s.roundState.stepType < .precommit → ¬ s.HasSigned .precommit) ∧
      ((s.withVote vote peerID height).Commits vote → s.Ahead vote.roundNumber)
  | .enterPrevote height round => s.roundState.height = height → s.roundState.roundNumber < round →
    height ≠ round → s.roundState.lockedBlock = none → ¬ s.HasSigned .prevote
  | .enterPrecommit height round => s.roundState.height = height → s.Passes round .precommit → ¬ s.HasSigned .precommit
  | .enterCommit height round => s.roundState.height = height → s.roundState.stepType < .commit → s.Ahead round
  | _ => True

def signingRules (p : Parts) : Rules p where
  report s height := height = s.roundState.height
  prevote s round := s.roundState.roundNumber < round → ¬ s.HasSigned .prevote
  precommit s _ := ¬ s.HasSigned .precommit
  update s := s.roundState.height ≤ s.state.lastBlockHeight

/-- Nothing is signed twice, nor ahead of the round the node is in, nor is a prevote of that round below its step. -/
structure SignsOnce (s : ConsensusState p) : Prop where
  nodup : (s.signed.map Signed.key).Nodup
  le : ∀ v ∈ s.signed, v.roundState.height < s.roundState.height ∨
    v.roundState.height = s.roundState.height ∧ v.roundState.roundNumber ≤ s.roundState.roundNumber
  prevote : s.HasSigned .prevote → .prevote ≤ s.roundState.stepType

/-- A round that is not before the one of `s`, and if it is that one, not below its prevote. -/
def Later (s t : ConsensusState p) : Prop :=
  s.roundState.height < t.roundState.height ∨ s.roundState.height = t.roundState.height ∧
    (s.roundState.roundNumber < t.roundState.roundNumber ∨
      s.roundState.roundNumber = t.roundState.roundNumber ∧
        (.prevote ≤ s.roundState.stepType → .prevote ≤ t.roundState.stepType))

variable {s t : ConsensusState p} {e : Event p}

theorem Later.of_eq (h : t.roundState.time = s.roundState.time) : Later s t := by
  simp only [RoundState.time, toLex_inj, Prod.mk.injEq] at h
  exact .inr ⟨h.1.symm, .inr ⟨h.2.1.symm, fun hstep => h.2.2 ▸ hstep⟩⟩

theorem Later.of_passes {round : Int} {type : RoundStepType} (h : s.Passes round type)
    (ht : t.roundState.time = (s.roundState.updateRoundStep round type).time) : Later s t := by
  simp only [RoundState.time, RoundState.updateRoundStep, toLex_inj, Prod.mk.injEq] at ht
  obtain ⟨hheight, hround, hstep⟩ := ht
  refine .inr ⟨hheight.symm, ?_⟩
  rw [hround, hstep]
  exact h.imp_right fun ⟨heq, hlt⟩ => ⟨heq, fun hprevote => hprevote.trans hlt.le⟩

theorem Later.le (h : Later s t) {height round : Int}
    (hle : height < s.roundState.height ∨ height = s.roundState.height ∧ round ≤ s.roundState.roundNumber) :
    height < t.roundState.height ∨ height = t.roundState.height ∧ round ≤ t.roundState.roundNumber := by
  unfold Later at h
  omega

/-- One vote more, for the height and round that are left. -/
theorem SignsOnce.append (hs : s.SignsOnce) (type : VoteType) (new : List (Signed p))
    (hkeys : ∀ v ∈ new, v.key = (type, s.roundState.height, s.roundState.roundNumber)) (hlength : new.length ≤ 1)
    (hunsigned : new ≠ [] → ¬ s.HasSigned type) (hlater : Later s t) (ht : t.signed = s.signed ++ new)
    (hstep : type = .prevote → .prevote ≤ t.roundState.stepType) : t.SignsOnce where
  nodup := by
    rw [ht, List.map_append]
    rcases Nat.le_one_iff_eq_zero_or_eq_one.1 hlength with hnone | hone
    · rw [List.length_eq_zero_iff.1 hnone]
      simpa using hs.nodup
    · obtain ⟨v, rfl⟩ := List.length_eq_one_iff.1 hone
      have hunsigned : v.key ∉ s.signed.map Signed.key := by
        rw [hkeys v List.mem_cons_self]
        exact fun h => hunsigned (List.cons_ne_nil _ _) (List.mem_map.1 h)
      exact List.Nodup.append hs.nodup (List.nodup_singleton _) (by simpa using hunsigned)
  le := by
    intro v hv
    rcases List.mem_append.1 (ht ▸ hv) with hv | hv
    · exact hlater.le (hs.le v hv)
    · have hkey := hkeys v hv
      simp only [Signed.key, Prod.mk.injEq] at hkey
      exact hlater.le (.inr ⟨hkey.2.1, hkey.2.2.le⟩)
  prevote := by
    rintro ⟨v, hv, hkey⟩
    rcases List.mem_append.1 (ht ▸ hv) with hv | hv
    · -- signed before: for the round of `t` only if `s` is in it
      obtain ⟨htype, hheight, hround⟩ : v.type = .prevote ∧ v.roundState.height = t.roundState.height ∧
          v.roundState.roundNumber = t.roundState.roundNumber := by simpa [Signed.key] using hkey
      have hle := hs.le v hv
      obtain hlt | ⟨hheight', hlt | ⟨hround', hstep⟩⟩ := hlater
      · omega
      · omega
      · exact hstep (hs.prevote ⟨v, hv, by rw [hkey, hheight', hround']⟩)
    · have htype := hkeys v hv
      rw [hkey] at htype
      exact hstep (Prod.mk.inj htype).1.symm

theorem SignsOnce.later (hs : s.SignsOnce) (hlater : Later s t) (ht : t.signed = s.signed) : t.SignsOnce :=
  hs.append .precommit [] (by simp) (by simp) (by simp) hlater (by simpa using ht) (by simp)

/-- One precommit, for the height and round that stay. -/
theorem Precommits.signs {round : Int} (h : s.Precommits round t) : ∃ v, t.signed = s.signed ++ [v] ∧
    v.key = (.precommit, s.roundState.height, s.roundState.roundNumber) ∧ t.roundState.time = s.roundState.time := by
  cases h <;> exact ⟨_, rfl, rfl, rfl⟩

/-- What is written by the rules keeps this. -/
theorem SignsOnce.of_write (hs : s.SignsOnce) (h : Write (signingRules p) s t) : t.SignsOnce := by
  cases h with
  | report height hheight =>
    have hheight : height = s.roundState.height := hheight
    subst hheight
    exact hs.later (.of_eq rfl) rfl
  | newRound round hpasses => exact hs.later (.of_passes hpasses rfl) rfl
  | prevote round new hpasses hunsigned hnew hlength =>
    refine hs.append .prevote new (fun v hv => ?_) hlength (fun hsome hsigned => ?_) (.of_passes hpasses rfl) rfl
      fun _ => le_refl _
    · rw [Signed.key, (hnew v hv).1, (hnew v hv).2]
    · rcases hpasses with hlt | ⟨_, hlt⟩
      · exact hunsigned hsome hlt hsigned
      · exact absurd (hs.prevote hsigned) (not_le.2 hlt)
  | prevoteWait round hpasses => exact hs.later (.of_passes hpasses rfl) rfl
  | precommit round t _ hunsigned ht =>
    obtain ⟨v, hsigned, hkey, htime⟩ := ht.signs
    refine hs.append .precommit [v] ?_ (le_refl _) (fun _ => hunsigned) (.of_eq htime) hsigned (by simp)
    exact fun w hw => List.mem_singleton.1 hw ▸ hkey
  | precommitWait round hpasses =>
    exact hs.later (.inr ⟨rfl, .inr ⟨rfl, fun _ => show RoundStepType.prevote ≤ .precommitWait by decide⟩⟩) rfl
  | commit round =>
    exact hs.later (.inr ⟨rfl, .inr ⟨rfl, fun _ => show RoundStepType.prevote ≤ .commit by decide⟩⟩) rfl
  | update lastCommit hheight =>
    have hheight : s.roundState.height ≤ s.state.lastBlockHeight := hheight
    exact hs.later (.inl (Int.lt_add_one_of_le hheight)) rfl
  | _ => exact hs.later (.of_eq rfl) rfl

theorem natural_signingRules (p : Parts) : (signingRules p).Natural where
  prevote _ hlt := absurd hlt (lt_irrefl _)
  precommitWait _ _ _ := trivial

/-- In the round that the vote has made the node enter, or has found it in, no precommit is signed. -/
theorem SignsOnce.unsigned_of_ready (hs : s.SignsOnce) {vote : Vote} {peerID : HexBytes}
    (hunsigned : s.roundState.roundNumber = vote.roundNumber → s.roundState.stepType < .precommit →
      ¬ s.HasSigned .precommit)
    (ht : Ready (s.withVote vote peerID s.roundState.height) t) (hround : t.roundState.roundNumber = vote.roundNumber)
    (hpasses : t.Passes vote.roundNumber .precommit) : ¬ t.HasSigned .precommit := by
  have hheight : t.roundState.height = s.roundState.height := ht.height
  have hsigned : t.signed = s.signed := ht.signed
  rcases ht.round with hlt | ⟨heq, hstep⟩
  · have hlt : s.roundState.roundNumber < t.roundState.roundNumber := hlt
    rintro ⟨v, hv, hkey⟩
    obtain ⟨-, hvheight, hvround⟩ : v.type = .precommit ∧ v.roundState.height = t.roundState.height ∧
        v.roundState.roundNumber = t.roundState.roundNumber := by simpa [Signed.key] using hkey
    have hle := hs.le v (hsigned ▸ hv)
    omega
  · have heq : s.roundState.roundNumber = t.roundState.roundNumber := heq
    have hlt : t.roundState.stepType < .precommit := hpasses.elim (fun hlt => absurd hlt hround.not_lt) And.right
    have hstep : t.roundState.stepType = s.roundState.stepType ∨ s.roundState.stepType = .newHeight := hstep
    rw [HasSigned, hsigned, hheight, ← heq]
    refine hunsigned (heq.trans hround) ?_
    rcases hstep with hstep | hstep
    · exact hstep ▸ hlt
    · rw [hstep]
      decide

theorem Careful.allows (hs : s.SignsOnce) (h : s.Careful e) : (signingRules p).Allows s e := by
  cases e with
  | addVote vote peerID =>
    intro hheight height hreport
    obtain ⟨rfl, hunsigned, hahead⟩ := h hheight height hreport
    refine ⟨rfl, fun henters t ht hround hpasses => ?_, fun hcommits t ht hstate _ hempty hlast => ?_⟩
    · exact hs.unsigned_of_ready (hunsigned henters) ht hround hpasses
    · have hstate : t.state = s.state := hstate
      have ht : t.roundState.height = s.roundState.height := ht
      rw [hstate] at hempty
      change t.roundState.height ≤ t.state.lastBlockHeight
      rw [ht, hstate]
      exact (hahead hcommits).height_le hempty hlast
  | enterPrevote height round =>
    exact fun hheight _ hround hlocked hlt => h hheight hlt hround hlocked
  | enterPrecommit height round => exact h
  | enterPrecommitWait height round => exact fun _ _ _ => trivial
  | enterCommit height round => exact fun hheight hstep hempty hlast => (h hheight hstep).height_le hempty hlast
  | _ => trivial

/-- A node that is careful never signs two votes of one type for the same height and round. -/
theorem signs_once (hs : s.signed = []) (h : Reaches Careful s t) : (t.signed.map Signed.key).Nodup := by
  have hrun : t.SignsOnce := by
    induction h with
    | refl => exact ⟨by simp [hs], by simp [hs], by simp [HasSigned, hs]⟩
    | tail _ hstep ih =>
      obtain ⟨e, hcareful, hstep⟩ := hstep
      have hwrites := writes_step (natural_signingRules p) (hcareful.allows ih) hstep
      clear hstep
      induction hwrites with
      | refl => exact ih
      | tail _ hwrite ih => exact ih.of_write hwrite
  exact hrun.nodup

theorem careful_prevoteOf {s : ConsensusState (fourValidators Vote.height)} {height round validator : Int}
    {block : HexBytes} (hs : s.signed = []) : s.Careful (prevoteOf height round block validator) := by
  intro hheight reported hreport
  refine ⟨?_, fun _ _ _ h => ?_, fun hcommits => by cases hcommits.1⟩
  · rw [hheight]
    exact (Option.some.inj hreport).symm
  · obtain ⟨v, hv, -⟩ := h
    rw [hs] at hv
    cases hv

theorem signs_once_polka : ∃ s t : ConsensusState (fourValidators Vote.height),
    s.run ([0, 1, 2].map (prevoteOf 1 0 [1])) (·.signed.isEmpty) = some t ∧ t.signed.length = 1 ∧
    (t.signed.map Signed.key).Nodup := by
  have hrun : ∃ t, (atHeight 1 [1]).run ([0, 1, 2].map (prevoteOf 1 0 [1])) (·.signed.isEmpty) = some t ∧
      t.signed.length = 1 := by decide +kernel
  obtain ⟨t, ht, hsigned⟩ := hrun
  refine ⟨atHeight 1 [1], t, ht, hsigned, signs_once rfl (Reaches.run (fun s e he hs => ?_) ht)⟩
  obtain ⟨_, -, rfl⟩ := List.mem_map.1 he
  exact careful_prevoteOf (List.isEmpty_iff.1 hs)

/-- Four prevotes for the block that is proposed: both the third and the fourth are followed by a precommit. -/
theorem not_signs_once : ¬ ∀ (p : Parts) (s t : ConsensusState p), Start s → Reaches (fun _ _ => True) s t →
    (t.signed.map Signed.key).Nodup := by
  intro h
  let s : ConsensusState (fourValidators Vote.height) := atHeight 1 [1]
  have hrun : ∃ t, s.run ([0, 1, 2, 3].map (prevoteOf 1 0 [1])) = some t ∧ ¬ (t.signed.map Signed.key).Nodup := by
    decide +kernel
  obtain ⟨t, ht, hsigned⟩ := hrun
  exact hsigned (h _ s t ⟨rfl, rfl, rfl, rfl, rfl⟩ (Reaches.run (fun _ _ _ _ => trivial) ht))

end ConsensusState

end Kmdx.Tm
