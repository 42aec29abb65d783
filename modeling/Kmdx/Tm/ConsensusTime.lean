import Kmdx.Tm.FourValidators

/-!
# Consensus time

Height, round and step go forward as long as `HeightVoteSet::addVote` reports the current height
(`ConsensusState.time_goes_forward`): that is where `addVote` puts what it reports
(`ConsensusState.not_time_goes_forward`).
-/

namespace Kmdx.Tm

open Relation

variable {p : Parts}

namespace RoundState

theorem time_le_iff {rs rs' : RoundState p} : rs.time ≤ rs'.time ↔
    rs.height < rs'.height ∨ rs.height = rs'.height ∧ (rs.roundNumber < rs'.roundNumber ∨
      rs.roundNumber = rs'.roundNumber ∧ rs.stepType ≤ rs'.stepType) := by
  simp [time, Prod.Lex.le_iff]

end RoundState

namespace ConsensusState

/-- A commit of `round` does not start `updateToState` on a state that is not the one of the height before. -/
def Dated (s : ConsensusState p) (round : Int) : Prop :=
  s.state.isEmpty = true → round > -1 ∧ 0 < s.roundState.height ∨ s.roundState.height = s.state.lastBlockHeight

/-- The votes report the current height, and the round that is left at the step `Commit` is not waited in. -/
def Steady (s : ConsensusState p) : Event p → Prop
  | .addVote vote peerID => s.roundState.height = vote.height →
    ∀ height, (p.addVote s.roundState.votes vote peerID).1 = some height →
      height = s.roundState.height ∧ ((s.withVote vote peerID height).Commits vote → s.Dated vote.roundNumber)
  | .enterPrecommitWait height round => s.roundState.height = height → s.PrecommitsAny round →
    s.roundState.stepType = .commit → round ≤ s.roundState.roundNumber
  | .enterCommit height round => s.roundState.height = height → s.roundState.stepType < .commit → s.Dated round
  | _ => True

def timeRules (p : Parts) : Rules p where
  report s height := height = s.roundState.height
  precommitWait s round := s.roundState.stepType = .commit → round ≤ s.roundState.roundNumber
  update s := s.roundState.height = s.state.lastBlockHeight

variable {s t : ConsensusState p} {e : Event p}

theorem le_precommitWait {type : RoundStepType} (h : type ≠ .commit) : type ≤ .precommitWait := by
  rw [RoundStepType.le_iff]
  cases type with
  | commit => exact absurd rfl h
  | _ => decide

theorem time_le_updateRoundStep {round : Int} {type : RoundStepType} (h : s.Passes round type) :
    s.roundState.time ≤ (s.roundState.updateRoundStep round type).time := by
  rw [RoundState.time_le_iff]
  exact .inr ⟨rfl, h.imp_right fun h => ⟨h.1, h.2.le⟩⟩

/-- A write that keeps to the rules goes forward in time, and only `updateToState` changes the height. -/
theorem time_of_write (h : Write (timeRules p) s t) : s.roundState.time ≤ t.roundState.time ∧
    t.roundState.height = s.roundState.height + (t.updates - s.updates) := by
  have hkept : s.roundState.height = s.roundState.height + ((s.updates : Int) - s.updates) := by omega
  cases h with
  | report height hheight =>
    rw [timeRules] at hheight
    subst hheight
    exact ⟨le_refl _, hkept⟩
  | newRound round hpasses => exact ⟨time_le_updateRoundStep hpasses, hkept⟩
  | prevote round new hpasses => exact ⟨time_le_updateRoundStep hpasses, hkept⟩
  | prevoteWait round hpasses => exact ⟨time_le_updateRoundStep hpasses, hkept⟩
  | precommit round t _ _ ht => cases ht <;> exact ⟨le_refl _, hkept⟩
  | precommitWait round hpasses hround =>
    have hstep : s.roundState.stepType ≠ .commit := by
      intro hstep
      rcases hpasses with hlt | ⟨_, hlt⟩
      · exact absurd (hround hstep) (not_le.2 hlt)
      · rw [hstep] at hlt
        exact absurd hlt (by decide)
    exact ⟨RoundState.time_le_iff.2 (.inr ⟨rfl, .inr ⟨rfl, le_precommitWait hstep⟩⟩), hkept⟩
  | commit round hstep => exact ⟨RoundState.time_le_iff.2 (.inr ⟨rfl, .inr ⟨rfl, hstep.le⟩⟩), hkept⟩
  | update lastCommit hheight =>
    have hheight : s.roundState.height = s.state.lastBlockHeight := hheight
    have hnext : (s.updated lastCommit).roundState.height = s.roundState.height + 1 := by rw [hheight]; rfl
    refine ⟨RoundState.time_le_iff.2 (.inl (by rw [hnext]; omega)), ?_⟩
    rw [hnext]
    change _ = _ + (((s.updates + 1 : Nat) : Int) - s.updates)
    omega
  | _ => exact ⟨le_refl _, hkept⟩

theorem natural_timeRules (p : Parts) : (timeRules p).Natural where
  prevote _ := trivial
  precommitWait _ _ hround _ := hround

theorem Dated.lastBlockHeight_eq {round : Int} (h : s.Dated round) (hempty : s.state.isEmpty = true)
    (hlast : round > -1 → 0 < s.roundState.height → s.roundState.height = s.state.lastBlockHeight) :
    s.roundState.height = s.state.lastBlockHeight :=
  (h hempty).elim (fun ⟨hround, hpos⟩ => hlast hround hpos) id

theorem Steady.allows (h : s.Steady e) : (timeRules p).Allows s e := by
  cases e with
  | addVote vote peerID =>
    intro hheight height hreport
    obtain ⟨rfl, hdated⟩ := h hheight height hreport
    refine ⟨rfl, fun _ _ _ _ _ => trivial, fun hcommits t ht hstate _ hempty hlast => ?_⟩
    have hstate : t.state = s.state := hstate
    have ht : t.roundState.height = s.roundState.height := ht
    rw [hstate] at hempty
    change t.roundState.height = t.state.lastBlockHeight
    rw [ht, hstate]
    exact (hdated hcommits).lastBlockHeight_eq hempty hlast
  | enterPrecommitWait height round => exact fun hheight _ hany hstep => h hheight hany hstep
  | enterCommit height round => exact fun hheight hstep hempty hlast => (h hheight hstep).lastBlockHeight_eq hempty hlast
  | enterPrevote _ _ => exact fun _ _ _ _ => trivial
  | enterPrecommit _ _ => exact fun _ _ => trivial
  | _ => trivial

/-- Of a run whose votes report the height they are for, no step takes the time back, and the height counts the calls
of `updateToState` that set it. -/
theorem time_goes_forward (h : Reaches Steady s t) : s.roundState.time ≤ t.roundState.time ∧
    t.roundState.height = s.roundState.height + (t.updates - s.updates) := by
  induction h with
  | refl => exact ⟨le_refl _, by omega⟩
  | tail _ hstep ih =>
    obtain ⟨e, hsteady, hstep⟩ := hstep
    have hwrites := writes_step (natural_timeRules p) hsteady.allows hstep
    clear hstep
    induction hwrites with
    | refl => exact ih
    | tail _ hwrite ih =>
      obtain ⟨htime, hheight⟩ := time_of_write hwrite
      exact ⟨ih.1.trans htime, by omega⟩

theorem steady_prevoteOf {height round validator : Int} {block : HexBytes}
    (s : ConsensusState (fourValidators Vote.height)) : s.Steady (prevoteOf height round block validator) := by
  intro hheight reported hreport
  refine ⟨?_, fun hcommits => by cases hcommits.1⟩
  rw [hheight]
  exact (Option.some.inj hreport).symm

theorem time_goes_forward_polka : ∃ s t : ConsensusState (fourValidators Vote.height),
    s.run ([0, 1, 2].map (prevoteOf 5 0 [1])) = some t ∧ t.signed.length = 1 ∧ s.roundState.time ≤ t.roundState.time ∧
    t.roundState.height = s.roundState.height + (t.updates - s.updates) := by
  have hrun : ∃ t, (atHeight 5 [1]).run ([0, 1, 2].map (prevoteOf 5 0 [1])) = some t ∧ t.signed.length =
      1 := by decide +kernel
  obtain ⟨t, ht, hsigned⟩ := hrun
  refine ⟨atHeight 5 [1], t, ht, hsigned, time_goes_forward (Reaches.run (fun s e he _ => ?_) ht)⟩
  obtain ⟨_, -, rfl⟩ := List.mem_map.1 he
  exact s.steady_prevoteOf

/-- `addVote` reports that it has added the vote, say: the height is 1 from then on. -/
theorem not_time_goes_forward : ¬ ∀ (p : Parts) (s t : ConsensusState p), Start s → Reaches (fun _ _ => True) s t →
    s.roundState.time ≤ t.roundState.time ∧ t.roundState.height = s.roundState.height + (t.updates - s.updates) := by
  intro h
  let s : ConsensusState (fourValidators fun _ => 1) := atHeight 5 [1]
  let e : Event (fourValidators fun _ => 1) := .addVote ⟨[], 0, 5, 0, .prevote, {}⟩ []
  have hrun : ∃ t, s.run [e] = some t ∧ t.roundState.height = 1 := by decide +kernel
  obtain ⟨t, ht, hheight⟩ := hrun
  obtain ⟨htime, -⟩ := h _ s t ⟨rfl, rfl, rfl, rfl, rfl⟩ (Reaches.run (fun _ _ _ _ => trivial) ht)
  rw [RoundState.time_le_iff, hheight] at htime
  have hfive : s.roundState.height = 5 := rfl
  omega

end ConsensusState

end Kmdx.Tm
