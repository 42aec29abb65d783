import Kmdx.KnownBad
import Kmdx.QueueTrack

/-!
# The sets of the block queue

As long as the bad blocks stand at the ends of the queues that `updateBad` looks through, and no block is
taken for another one by its uncles' hash, the sets say where the blocks are (`System.sets_right`): every step
is a sequence of moves of the track (`System.moves_step`). Where `updateBad` blames a good block instead of a
bad one in front of it, `m_readySet` loses that block, which stays queued (`System.not_sets_right`).
-/

namespace Kmdx

open RemoveIf JobTrack Relation

variable {H : Type} [BlockRlp H] [LinearOrder H]

namespace BlockQueue

variable {s s' : BlockQueue H}

/-! ### What the verifiers leave alone -/

theorem exists_settle (s : BlockQueue H) (b : VerifiedBlock H) : ∃ readySet knownBad verified,
    s.settle b = { s with readySet, knownBad, verified } := by
  rw [settle]
  split
  · exact ⟨_, _, _, rfl⟩
  · exact ⟨_, _, _, rfl⟩

theorem exists_drainVerified (s : BlockQueue H) : ∃ readySet knownBad verified verifying,
    s.drainVerified = { s with readySet, knownBad, verified, verifying } := by
  induction s using drainVerified.induct with
  | case1 s h => exact ⟨_, _, _, _, by rw [drainVerified, h]⟩
  | case2 s block verifying h hdata => exact ⟨_, _, _, _, by rw [drainVerified, h]; simp only [hdata, if_true]; rfl⟩
  | case3 s block verifying h hdata ih =>
    obtain ⟨_, _, _, hsettle⟩ := exists_settle { s with verifying } block
    obtain ⟨readySet, knownBad, verified, verifying', hrest⟩ := ih
    refine ⟨readySet, knownBad, verified, verifying', ?_⟩
    rw [drainVerified, h]
    simp only [hdata]
    rw [if_neg (by decide), hrest, hsettle]

theorem exists_verifyFailed (s : BlockQueue H) (work : UnverifiedBlock H) : ∃ readySet knownBad verified verifying,
    s.verifyFailed work = { s with readySet, knownBad, verified, verifying } := by
  obtain ⟨readySet, knownBad, verified, verifying, h⟩ := exists_drainVerified { s with
    readySet := s.readySet.erase work.hash
    knownBad := insert work.hash s.knownBad
    verifying := (s.verifying.remove work.hash).2 }
  exact ⟨readySet, knownBad, verified, verifying, h⟩

theorem exists_verifySucceeded (s : BlockQueue H) (work : UnverifiedBlock H) (res : VerifiedBlock H) :
    ∃ readySet knownBad verified verifying,
      s.verifySucceeded work res = { s with readySet, knownBad, verified, verifying } := by
  rw [verifySucceeded]
  split
  · rename_i front verifying _
    split
    · obtain ⟨_, _, _, hsettle⟩ := exists_settle { s with verifying } res
      obtain ⟨readySet, knownBad, verified, verifying', h⟩ := exists_drainVerified ({ s with verifying }.settle res)
      exact ⟨readySet, knownBad, verified, verifying', by rw [h, hsettle]⟩
    · exact ⟨_, _, _, _, rfl⟩
  · exact ⟨_, _, _, _, rfl⟩

theorem exists_foldl_noteDraining (out : List (VerifiedBlock H)) (s : BlockQueue H) :
    ∃ drainingSet drainingDifficulty readySet,
      out.foldl noteDraining s = { s with drainingSet, drainingDifficulty, readySet } := by
  induction out generalizing s with
  | nil => exact ⟨_, _, _, rfl⟩
  | cons b out ih => exact ih _

theorem exists_drain (s : BlockQueue H) (max : BitVec 32) : ∃ verified drainingSet drainingDifficulty readySet,
    (s.drain max).2 = { s with verified, drainingSet, drainingDifficulty, readySet } := by
  rw [drain]
  split
  · split
    · exact ⟨_, _, _, _, rfl⟩
    · rename_i out verified _
      obtain ⟨_, _, _, h⟩ := exists_foldl_noteDraining out { s with verified, drainingDifficulty := 0 }
      exact ⟨_, _, _, _, h⟩
  · exact ⟨_, _, _, _, rfl⟩

omit [BlockRlp H] [LinearOrder H] in
theorem exists_tick (s : BlockQueue H) (t : Nat) : ∃ future, (s.tick t).2 = { s with future } := by
  rw [tick]
  split
  · exact ⟨_, rfl⟩
  · split
    · exact ⟨_, rfl⟩
    · exact ⟨_, rfl⟩

/-! ### The data of the blocks, and the order of those that wait -/

/-- What is not verified yet is what its hashes say. -/
def AllParsed (s : BlockQueue H) : Prop := Blames (fun _ => True) (fun _ => True) s

omit [LinearOrder H] in
theorem AllParsed.within (hs : s.AllParsed) (h : Within s s') : s'.AllParsed :=
  ⟨fun _ _ => trivial, fun _ _ => trivial, fun _ _ => trivial, fun b hb => hs.unverified b (h.unverified.subset hb),
    fun e he => hs.unknown e (h.unknown.subset he)⟩

omit [BlockRlp H] in
theorem KeysSorted.within (hs : s.KeysSorted) (h : Within s s') : s'.KeysSorted := hs.sublist h.unknown

omit [BlockRlp H] in
theorem KeysSorted.insert (hs : s.KeysSorted) (key hash : H) (data : Bytes) :
    KeysSorted { s with unknown := s.unknown.insert key hash data } := by
  have hinsert : ∀ l : List (MapEntry H H), l.Pairwise (fun e e' => e.key ≤ e'.key) →
      (SizedBlockMap.insertEntry ⟨key, hash, data⟩ l).Pairwise fun e e' => e.key ≤ e'.key := by
    intro l hl
    induction l with
    | nil => exact List.pairwise_singleton _ _
    | cons x l ih =>
      obtain ⟨hx, hl'⟩ := List.pairwise_cons.1 hl
      rw [SizedBlockMap.insertEntry]
      split
      · rename_i hlt
        refine List.pairwise_cons.2 ⟨fun y hy => ?_, hl⟩
        rcases List.mem_cons.1 hy with rfl | hy
        · exact hlt.le
        · exact hlt.le.trans (hx y hy)
      · rename_i hlt
        refine List.pairwise_cons.2 ⟨fun y hy => ?_, ih hl'⟩
        rcases mem_insertEntry.1 hy with rfl | hy
        · exact not_lt.1 hlt
        · exact hx y hy
  exact hinsert _ hs

omit [BlockRlp H] in
theorem KeysSorted.releaseAll (hs : s.KeysSorted) (parent : H) : (s.releaseAll parent).2.KeysSorted := by
  rw [KeysSorted, releaseAll_snd]
  exact hs.filter _

omit [BlockRlp H] in
theorem KeysSorted.noteReadyLoop (goodQueue : List H) (hs : s.KeysSorted) : (noteReadyLoop goodQueue s).KeysSorted :=
  noteReadyLoop_preserves (P := KeysSorted) (fun _ parent hs => hs.releaseAll parent) goodQueue hs

omit [BlockRlp H] in
theorem KeysSorted.retryAllUnknown (hs : s.KeysSorted) : s.retryAllUnknown.KeysSorted :=
  retryAllUnknown_preserves (P := KeysSorted) (fun _ parent hs => hs.releaseAll parent) hs

/-- The queue is in the order, and holds the data, that the verifiers and `retryAllUnknown` rely on. -/
structure Orderly (s : BlockQueue H) : Prop where
  parsed : s.AllParsed
  sorted : s.KeysSorted

theorem Orderly.within (hs : s.Orderly) (h : Within s s') : s'.Orderly :=
  ⟨hs.parsed.within h, hs.sorted.within h⟩

theorem Orderly.congr (hs : s.Orderly) (hunverified : s'.unverified = s.unverified) (hunknown : s'.unknown = s.unknown) :
    s'.Orderly := by
  refine ⟨⟨fun _ _ => trivial, fun _ _ => trivial, fun _ _ => trivial, ?_, ?_⟩, ?_⟩
  · rw [hunverified]
    exact hs.parsed.unverified
  · rw [hunknown]
    exact hs.parsed.unknown
  · rw [KeysSorted, hunknown]
    exact hs.sorted

theorem Orderly.importBlock (hs : s.Orderly) (env : ImportEnv H) (block : Bytes) (isOurs : Bool) :
    (s.importBlock env block isOurs).2.Orderly := by
  rcases s.importBlock_cases env block isOurs with ⟨heq, -⟩ | ⟨bi, htaken, hcases⟩
  · rwa [heq]
  have hparsed : UnverifiedBlock.Parsed ⟨bi.hash, bi.parentHash, block⟩ := ⟨bi, htaken.header, rfl, rfl⟩
  rcases hcases with ⟨-, r, -, heq⟩ | ⟨-, -, heq⟩ | ⟨-, -, -, heq⟩ | ⟨-, -, -, heq⟩ <;> rw [heq]
  · exact hs.congr rfl rfl
  · have hnote : Orderly { s with knownBad := insert bi.hash s.knownBad } :=
      ⟨hs.parsed.note trivial s.readySet, hs.sorted⟩
    exact hnote.within (within_updateBad _ _)
  · refine ⟨{ hs.parsed with unknown := fun e he => ?_ }, hs.sorted.insert _ _ _⟩
    rcases mem_insertEntry.1 he with rfl | he
    · exact ⟨trivial, hparsed⟩
    · exact hs.parsed.unknown e he
  · have haccept : Orderly { s with
        unverified := s.unverified.enqueue ⟨bi.hash, bi.parentHash, block⟩
        readySet := insert bi.hash s.readySet
        difficulty := s.difficulty + bi.difficulty } := by
      refine ⟨{ hs.parsed with unverified := fun b hb => ?_ }, hs.sorted⟩
      rcases List.mem_append.1 hb with hb | hb
      · exact hs.parsed.unverified b hb
      · rw [List.mem_singleton.1 hb]
        exact ⟨trivial, hparsed⟩
    exact ⟨haccept.parsed.noteReadyLoop, haccept.sorted.noteReadyLoop _⟩

end BlockQueue

namespace System

variable [Inhabited H] {s s' : System H} {e : Event H} {strict : Prop}

/-- The queue is orderly, and the verifiers have the data of their blocks. -/
structure Orderly (s : System H) : Prop where
  bq : s.bq.Orderly
  working : ∀ work ∈ s.working, work.Parsed

omit [Inhabited H] in
theorem Orderly.init : Orderly ({} : System H) where
  bq := by
    refine ⟨⟨fun _ _ => trivial, fun _ _ => trivial, fun _ _ => trivial, ?_, ?_⟩, List.Pairwise.nil⟩
    all_goals exact fun b hb => absurd hb List.not_mem_nil
  working := fun work hw => absurd hw List.not_mem_nil

theorem Orderly.step (hs : s.Orderly) (h : s.step e = some s') : s'.Orderly := by
  have herase : ∀ i, ∀ work ∈ s.working.eraseIdx i, work.Parsed :=
    fun i work hw => hs.working work (List.mem_of_mem_eraseIdx hw)
  cases e with
  | importBlock env block isOurs =>
    cases h
    exact ⟨hs.bq.importBlock env block isOurs, hs.working⟩
  | tick t =>
    cases h
    obtain ⟨future, heq⟩ := s.bq.exists_tick t
    exact ⟨hs.bq.congr (by rw [put, heq]) (by rw [put, heq]), hs.working⟩
  | takeWork =>
    obtain ⟨⟨work, bq⟩, htake, rfl⟩ := Option.map_eq_some_iff.1 h
    obtain ⟨hparsed, -, hwork⟩ := hs.bq.parsed.takeWork htake
    obtain ⟨_, _, heq⟩ := Option.map_eq_some_iff.1 htake
    obtain ⟨-, rfl⟩ := Prod.mk.inj heq
    exact ⟨⟨hparsed, hs.bq.sorted⟩, List.forall_mem_cons.2 ⟨hwork, hs.working⟩⟩
  | verifyFailed i =>
    obtain ⟨work, -, rfl⟩ := Option.map_eq_some_iff.1 h
    obtain ⟨_, _, _, _, heq⟩ := s.bq.exists_verifyFailed work
    have hbq : (s.bq.verifyFailed work).Orderly := hs.bq.congr (by rw [heq]) (by rw [heq])
    exact ⟨hbq, herase i⟩
  | verifySucceeded i transactions =>
    obtain ⟨work, -, h⟩ := Option.bind_eq_some_iff.1 h
    obtain ⟨info, -, rfl⟩ := Option.map_eq_some_iff.1 h
    obtain ⟨_, _, _, _, heq⟩ := s.bq.exists_verifySucceeded work ⟨⟨info, transactions⟩, work.blockData⟩
    have hbq : (s.bq.verifySucceeded work ⟨⟨info, transactions⟩, work.blockData⟩).Orderly :=
      hs.bq.congr (by rw [heq]) (by rw [heq])
    exact ⟨hbq, herase i⟩
  | drain max =>
    cases h
    obtain ⟨_, _, _, _, heq⟩ := s.bq.exists_drain max
    exact ⟨hs.bq.congr (by rw [put, heq]) (by rw [put, heq]), hs.working⟩
  | doneDrain bad =>
    cases h
    have hreported : (s.bq.reported bad).Orderly := hs.bq.congr rfl rfl
    have hbq : (s.bq.doneDrain bad).2.Orderly := by
      rw [BlockQueue.doneDrain_eq]
      exact hreported.within (BlockQueue.within_foldl_updateBad _ _)
    exact ⟨hbq, hs.working⟩
  | noteReady isKnown good =>
    cases h
    exact ⟨⟨hs.bq.parsed.noteReadyLoop, hs.bq.sorted.noteReadyLoop _⟩, hs.working⟩
  | retryAllUnknown isKnown =>
    cases h
    exact ⟨⟨hs.bq.parsed.retryAllUnknown, hs.bq.sorted.retryAllUnknown⟩, hs.working⟩
  | clear =>
    cases h
    exact ⟨⟨hs.bq.parsed.clear, List.Pairwise.nil⟩, hs.working⟩

/-! ### The track of a run -/

/-- What a run leaves that is not in the queue. -/
def ghost (s : System H) : Ghost H where
  admitted := s.admitted
  delivered := s.delivered.map VerifiedBlock.doneJob
  known h := s.known h = true

def track (s : System H) : Track H := s.bq.view s.ghost

/-- The blocks that a step finds by a hash are the right ones, and those that `updateBad` has to take out are
the last ones of their queues. -/
def Regular (s : System H) : Event H → Prop
  | .verifyFailed i => ∀ work, s.working[i]? = some work → s.bq.NotMistaken work.hash ∧ s.bq.FindsWork work.hash
  | .verifySucceeded i _ => ∀ work, s.working[i]? = some work → s.bq.NotMistaken work.hash
  | .doneDrain bad => s.bq.Reportable bad ∧ (Event.doneDrain bad).Throughout BlockQueue.BadAtEnd s.bq
  | e => e.Throughout BlockQueue.BadAtEnd s.bq

/-- The parents of the blocks that become ready are there. -/
def Timely (s : System H) : Event H → Prop
  | .importBlock env block _ => (∀ h, s.known h = true → env.isKnown h = true) ∧ s.bq.ParentNotWaiting env block
  | .noteReady isKnown good => good ∈ s.bq.readySet ∨ good ∈ s.bq.drainingSet ∨
    (s.known good || isKnown good) = true ∧ good ∉ s.bq.unknownSet
  | .retryAllUnknown isKnown => s.bq.RetriedInOrder { s.ghost with known := fun h => (s.known h || isKnown h) = true }
  | .clear => False
  | _ => True

/-- A placeholder has the parent of the block that the verifier has in hand. -/
def ParentsMatch (s : System H) : Prop :=
  ∀ b ∈ s.bq.verifying.queue, b.blockData = [] → ∀ work ∈ s.working, b.verified.info.sha3Uncles = work.hash →
    b.verified.info.parentHash = work.parentHash

omit [Inhabited H] [LinearOrder H] in
theorem track_put (s : System H) (bq : BlockQueue H) (h : bq.unverified = s.bq.unverified) :
    (s.put bq).track = bq.view s.ghost := by
  simp [track, ghost, put, h]

omit [Inhabited H] in
/-- More is known to the chain. -/
theorem moves_learn (s : System H) (isKnown : H → Bool) :
    Moves strict s.track (s.bq.view { s.ghost with known := fun h => (s.known h || isKnown h) = true }) := by
  have hlearn : Move strict s.track _ := .learn (fun h => (s.known h || isKnown h) = true) fun h hk => by
    rw [Bool.or_eq_true]
    exact .inl hk
  exact .single hlearn

theorem moves_step (ht : Consistent s.track) (hs : s.Orderly) (hmatch : strict → s.ParentsMatch)
    (hC : s.Regular e) (htimely : strict → s.Timely e) (h : s.step e = some s') : Moves strict s.track s'.track := by
  cases e with
  | importBlock env block isOurs =>
    cases h
    refine (s.moves_learn env.isKnown).trans
      (BlockQueue.tracks_importBlock hC (fun hst h => ?_) fun hst => (htimely hst).2)
    dsimp only
    rw [Bool.or_eq_true]
    exact ⟨fun hk => hk.elim ((htimely hst).1 h) id, .inr⟩
  | tick t =>
    cases h
    obtain ⟨future, heq⟩ := s.bq.exists_tick t
    rw [track_put _ _ (by rw [heq]), heq]
    exact .refl
  | takeWork =>
    obtain ⟨⟨work, bq⟩, htake, rfl⟩ := Option.map_eq_some_iff.1 h
    rw [track, track, show s.ghost = ghost { s with bq, working := work :: s.working } from rfl,
      BlockQueue.view_takeWork htake]
  | verifyFailed i =>
    obtain ⟨work, hi, rfl⟩ := Option.map_eq_some_iff.1 h
    obtain ⟨hmistaken, hfinds⟩ := hC work hi
    obtain ⟨_, _, _, _, heq⟩ := s.bq.exists_verifyFailed work
    have hput := track_put s (s.bq.verifyFailed work) (by rw [heq])
    have hmoves : Moves strict s.track (s.put (s.bq.verifyFailed work)).track := by
      rw [hput]
      exact BlockQueue.moves_verifyFailed hmistaken hfinds
    exact hmoves
  | verifySucceeded i transactions =>
    obtain ⟨work, hi, h⟩ := Option.bind_eq_some_iff.1 h
    obtain ⟨info, hinfo, rfl⟩ := Option.map_eq_some_iff.1 h
    have hwork := List.mem_of_getElem? hi
    obtain ⟨info', hparsed, hhash, hparent⟩ := hs.working work hwork
    obtain rfl : info' = info := Option.some.inj (hparsed.symm.trans hinfo)
    let res : VerifiedBlock H := ⟨⟨info', transactions⟩, work.blockData⟩
    have hdata : res.blockData ≠ [] := by
      intro hdata
      change work.blockData = [] at hdata
      rw [hdata, BlockRlp.headerOf_nil] at hinfo
      exact nomatch hinfo
    obtain ⟨_, _, _, _, heq⟩ := s.bq.exists_verifySucceeded work res
    have hput := track_put s (s.bq.verifySucceeded work res) (by rw [heq])
    have hmoves : Moves strict s.track (s.put (s.bq.verifySucceeded work res)).track := by
      rw [hput]
      refine BlockQueue.moves_verifySucceeded hdata hhash (hC work hi) fun hst b hb hdata heq => ?_
      exact (hmatch hst b hb hdata work hwork heq).trans hparent.symm
    exact hmoves
  | drain max =>
    cases h
    obtain ⟨_, _, _, _, heq⟩ := s.bq.exists_drain max
    have hmoves : Moves strict (s.bq.view s.ghost) _ := BlockQueue.moves_drain (g := s.ghost) (s := s.bq) rfl max
    rw [track, track]
    simpa [ghost, put, heq] using hmoves
  | doneDrain bad =>
    cases h
    exact BlockQueue.tracks_doneDrain rfl rfl ht hC.1 hC.2
  | noteReady isKnown good =>
    cases h
    refine (s.moves_learn isKnown).trans (BlockQueue.admits_noteReadyLoop [good] s.bq fun hst p hp => ?_).tracks
    rw [List.mem_singleton.1 hp]
    exact htimely hst
  | retryAllUnknown isKnown =>
    cases h
    exact (s.moves_learn isKnown).trans (BlockQueue.admits_retryAllUnknown s.bq hs.bq.sorted htimely).tracks
  | clear =>
    cases h
    have hclear : Move strict s.track (s.bq.clear.view s.ghost) := .clear htimely rfl
    exact BlockQueue.Tracks.of_moves (Nat.zero_le _) (.single hclear)

omit [Inhabited H] in
theorem consistent_init : Consistent (track ({} : System H)) := by
  intro h
  constructor <;> simp [track, ghost, BlockQueue.view, BlockQueue.readyJobs, Track.active]

end System

namespace BlockQueue

/-- The sets mirror the queues. -/
structure SetsRight (s : BlockQueue H) : Prop where
  invariants : s.invariants = true
  readySet : ∀ h, h ∈ s.readySet ↔ (∃ b ∈ s.verified.queue, b.verified.info.hash = h) ∨
    (∃ b ∈ s.verifying.queue, b.job = h) ∨ ∃ b ∈ s.unverified.queue, b.hash = h
  unknownSet : ∀ h, h ∈ s.unknownSet ↔ ∃ e ∈ s.unknown.map, e.hash = h
  readyDraining : Disjoint s.readySet s.drainingSet
  readyUnknown : Disjoint s.readySet s.unknownSet
  readyBad : Disjoint s.readySet s.knownBad
  drainingUnknown : Disjoint s.drainingSet s.unknownSet
  drainingBad : Disjoint s.drainingSet s.knownBad
  unknownBad : Disjoint s.unknownSet s.knownBad

variable {g : Ghost H} {s : BlockQueue H}

section

variable (hpending : g.pending = 0) (ht : Consistent (view g s))
include hpending ht

theorem count_readyJobs (h : H) : (s.readyJobs.map Job.hash).count h = if h ∈ s.readySet then 1 else 0 := by
  rw [← show (view g s).readySet = s.readySet from rfl, ← (ht h).ready, count_active,
    show (view g s).pending = g.pending from rfl, hpending, Multiset.map_zero, Multiset.count_zero, Nat.zero_add]
  rfl

theorem readySet_eq : s.readySet = hashes s.readyJobs := by
  ext h
  rw [mem_hashes_iff_count, count_readyJobs hpending ht]
  split <;> simp [*]

theorem nodup_readyJobs : (s.readyJobs.map Job.hash).Nodup := by
  refine List.nodup_iff_count_le_one.2 fun h => ?_
  rw [count_readyJobs hpending ht]
  split <;> decide

theorem card_readySet : s.readySet.card = s.knownCount := by
  rw [readySet_eq hpending ht, hashes, List.toFinset_card_of_nodup (nodup_readyJobs hpending ht)]
  simp only [readyJobs, knownCount, SizedBlockQueue.count, List.length_map, List.length_append]
  omega

end

theorem setsRight_of_consistent (hpending : g.pending = 0) (hreported : g.reported = ∅) (ht : Consistent (view g s)) :
    s.SetsRight where
  invariants := by simpa [invariants] using card_readySet hpending ht
  readySet h := by
    rw [readySet_eq hpending ht, mem_hashes]
    simp [readyJobs, or_and_right, exists_or, VerifiedBlock.doneJob, VerifiedBlock.toJob, UnverifiedBlock.toJob]
  unknownSet h := by
    have hcount := (ht h).waiting
    rw [show (view g s).waitingSet = s.unknownSet from rfl] at hcount
    rw [show h ∈ s.unknownSet ↔ 0 < ((view g s).waiting.map Job.hash).count h by rw [hcount]; split <;> simp [*],
      Multiset.count_pos]
    simp [view, MapEntry.toJob]
  readyDraining := Finset.disjoint_left.2 fun h => (ht h).readyOpen
  readyUnknown := Finset.disjoint_left.2 fun h => (ht h).readyWaiting
  readyBad := Finset.disjoint_left.2 fun h hr hb => by
    have := (ht h).readyBad hr hb
    rw [show (view g s).reported = g.reported from rfl, hreported] at this
    exact Finset.notMem_empty h this
  drainingUnknown := Finset.disjoint_right.2 fun h => (ht h).waitingOpen
  drainingBad := Finset.disjoint_left.2 fun h => (ht h).openBad
  unknownBad := Finset.disjoint_left.2 fun h => (ht h).waitingBad

end BlockQueue

namespace System

variable [Inhabited H] {s : System H}

theorem consistent_of_reaches (hs : Reaches Regular s) : Consistent s.track := by
  have hboth : Consistent s.track ∧ s.Orderly := by
    refine Reaches.induction (I := fun s => Consistent s.track ∧ s.Orderly) ⟨consistent_init, .init⟩ ?_ hs
    intro s e s' ⟨ht, hs⟩ hC he
    have hmoves : Moves False s.track s'.track := moves_step ht hs False.elim hC False.elim he
    exact ⟨ht.moves hmoves, hs.step he⟩
  exact hboth.1

/-- In a run whose steps are all regular the sets mirror the queues in every state. -/
theorem sets_right (hs : Reaches Regular s) : s.bq.SetsRight :=
  BlockQueue.setsRight_of_consistent rfl rfl (consistent_of_reaches hs)

instance (s : BlockQueue H) (hash : H) : Decidable (s.NotMistaken hash) := inferInstanceAs (Decidable (∀ _ ∈ _, _))

/-- Regular without a bad block. -/
def calm (s : System H) : Event H → Bool
  | .importBlock _ block _ => (headerOf block).all fun bi : BlockHeader H => bi.parentHash ∉ s.bq.knownBad
  | .takeWork | .drain _ => true
  | .verifySucceeded i _ => s.working[i]?.all fun work => s.bq.NotMistaken work.hash
  | _ => false

omit [Inhabited H] in
theorem regular_of_calm (s : System H) (e : Event H) (h : s.calm e = true) : s.Regular e := by
  cases e with
  | importBlock env block isOurs =>
    intro bi htaken _ hbad
    simp only [calm, htaken.header, Option.all_some, decide_eq_true_eq] at h
    exact absurd hbad h
  | verifySucceeded i transactions =>
    intro work hwork
    simpa [calm, hwork] using h
  | takeWork | drain max => trivial
  | _ => cases h

/-- A block and its child are imported, verified, the child first, and drained. -/
def importTwo : List (Event (Fin 256)) :=
  [.importBlock (.atTime 9) [2, 0, 0] false, .importBlock (.atTime 9) [3, 2, 0] false, .takeWork, .takeWork,
    .verifySucceeded 0 [], .verifySucceeded 0 [], .drain 2]

theorem sets_right_import : ∃ s : System (Fin 256), run {} importTwo = some s ∧ s.bq.SetsRight := by
  obtain ⟨s, hs⟩ : ∃ s, runWhile calm {} importTwo = some s := Option.isSome_iff_exists.1 (by decide +kernel)
  obtain ⟨hreaches, hrun⟩ := Reaches.runWhile .refl regular_of_calm hs
  exact ⟨s, hrun, sets_right hreaches⟩

/-- 4 is blamed instead of 3 and is taken out later, and `m_readySet` keeps 3, which is in no queue. -/
theorem not_sets_right : ¬ ∀ s : System Nat, Reaches (fun _ _ => True) s → s.bq.SetsRight := by
  intro h
  obtain ⟨s, hs⟩ : ∃ s, run {} badInFront = some s := Option.isSome_iff_exists.1 (by decide +kernel)
  have hinvariants : (run {} badInFront).map (fun s => s.bq.invariants) = some false := by decide +kernel
  rw [hs] at hinvariants
  have hright := (h s (Reaches.run .refl (fun _ _ _ => trivial) hs)).invariants
  exact absurd (hright.symm.trans (Option.some.inj hinvariants)) (by decide)

end System

end Kmdx
