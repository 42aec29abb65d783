import Mathlib.Algebra.Order.BigOperators.Group.Finset
import Kmdx.QueueSets

/-!
# The difficulty of the queued blocks (`BlockQueue::difficulty`)

`m_difficulty` grows with each block that `import` queues, and shrinks in `doneDrain` only. As long as no block
leaves the queue in another way, and none is queued twice, it is the sum over the blocks held
(`System.difficulty_exact`). A block that `tick` takes out of `m_future` is counted again when it is imported
(`System.not_difficulty_exact`).
-/

namespace Kmdx

open RemoveIf JobTrack Relation
open List hiding Disjoint

variable {H : Type} [BlockRlp H] [LinearOrder H] {d : H → U256}

omit [BlockRlp H] [LinearOrder H] in
/-- The sum of the difficulties of the blocks. -/
def totalDifficulty (d : H → U256) (blocks : Finset H) : Nat := ∑ h ∈ blocks, (d h).toNat

omit [BlockRlp H] in
theorem totalDifficulty_insert {blocks : Finset H} {h : H} (hh : h ∉ blocks) :
    totalDifficulty d (insert h blocks) = totalDifficulty d blocks + (d h).toNat := by
  rw [totalDifficulty, Finset.sum_insert hh, Nat.add_comm]
  rfl

omit [BlockRlp H] in
theorem totalDifficulty_union {blocks blocks' : Finset H} (h : Disjoint blocks blocks') :
    totalDifficulty d (blocks ∪ blocks') = totalDifficulty d blocks + totalDifficulty d blocks' :=
  Finset.sum_union h

omit [LinearOrder H] in
/-- The hash of a block determines its difficulty. -/
def Determines (d : H → U256) : Prop :=
  ∀ block, ∀ bi : BlockHeader H, headerOf block = some bi → d bi.hash = bi.difficulty

namespace BlockQueue

variable {s s' s'' : BlockQueue H}

/-! ### What is held -/

omit [BlockRlp H] in
/-- The blocks in `m_future`. -/
def futureSet (s : BlockQueue H) : Finset H := (s.future.map.map MapEntry.hash).toFinset

omit [BlockRlp H] in
/-- Ready, being drained, with an unknown parent, or of the future. -/
def held (s : BlockQueue H) : Finset H := s.readySet ∪ s.drainingSet ∪ s.unknownSet ∪ s.futureSet

omit [BlockRlp H] in
theorem mem_held {h : H} :
    h ∈ s.held ↔ h ∈ s.readySet ∨ h ∈ s.drainingSet ∨ h ∈ s.unknownSet ∨ h ∈ s.futureSet := by
  simp only [held, Finset.mem_union, or_assoc]

/-- Each block is in one of the sets only and stands once in the queues of its set, and the sums are those of
the sets. -/
structure Filed (d : H → U256) (s : BlockQueue H) : Prop where
  ready : (s.readyJobs.map Job.hash).Nodup
  readySet : ∀ h ∈ s.readyJobs.map Job.hash, h ∈ s.readySet
  unknown : (s.unknown.map.map MapEntry.hash).Nodup
  unknownSet : ∀ h ∈ s.unknown.map.map MapEntry.hash, h ∈ s.unknownSet
  readyDraining : Disjoint s.readySet s.drainingSet
  readyUnknown : Disjoint s.readySet s.unknownSet
  readyFuture : Disjoint s.readySet s.futureSet
  drainingUnknown : Disjoint s.drainingSet s.unknownSet
  drainingFuture : Disjoint s.drainingSet s.futureSet
  unknownFuture : Disjoint s.unknownSet s.futureSet
  difficulty : s.difficulty.toNat = totalDifficulty d s.held
  drainingDifficulty : s.drainingDifficulty.toNat = totalDifficulty d s.drainingSet

theorem Filed.init : Filed d ({} : BlockQueue H) := by
  constructor <;> simp [readyJobs, held, futureSet, totalDifficulty]

/-- The sets and the sums are the same, and no job is new. -/
structure Rearranged (s s' : BlockQueue H) : Prop where
  ready : (s'.readyJobs.map Job.hash).Sublist (s.readyJobs.map Job.hash)
  readySet : s'.readySet = s.readySet
  drainingSet : s'.drainingSet = s.drainingSet
  unknownSet : s'.unknownSet = s.unknownSet
  unknown : s'.unknown.map = s.unknown.map
  future : s'.future = s.future
  difficulty : s'.difficulty = s.difficulty
  drainingDifficulty : s'.drainingDifficulty = s.drainingDifficulty

omit [LinearOrder H] in
theorem Rearranged.refl (s : BlockQueue H) : Rearranged s s := ⟨.refl _, rfl, rfl, rfl, rfl, rfl, rfl, rfl⟩

omit [LinearOrder H] in
theorem Rearranged.trans (h : Rearranged s s') (h' : Rearranged s' s'') : Rearranged s s'' where
  ready := h'.ready.trans h.ready
  readySet := h'.readySet.trans h.readySet
  drainingSet := h'.drainingSet.trans h.drainingSet
  unknownSet := h'.unknownSet.trans h.unknownSet
  unknown := h'.unknown.trans h.unknown
  future := h'.future.trans h.future
  difficulty := h'.difficulty.trans h.difficulty
  drainingDifficulty := h'.drainingDifficulty.trans h.drainingDifficulty

theorem Filed.rearranged (hs : s.Filed d) (h : Rearranged s s') : s'.Filed d := by
  have hfuture : s'.futureSet = s.futureSet := by rw [futureSet, futureSet, h.future]
  have hheld : s'.held = s.held := by rw [held, held, h.readySet, h.drainingSet, h.unknownSet, hfuture]
  refine ⟨hs.ready.sublist h.ready, fun j hj => ?_, ?_, ?_, ?_, ?_, ?_, ?_, ?_, ?_, ?_, ?_⟩
  · rw [h.readySet]
    exact hs.readySet j (h.ready.subset hj)
  · rw [h.unknown]
    exact hs.unknown
  · rw [h.unknown, h.unknownSet]
    exact hs.unknownSet
  · rw [h.readySet, h.drainingSet]
    exact hs.readyDraining
  · rw [h.readySet, h.unknownSet]
    exact hs.readyUnknown
  · rw [h.readySet, hfuture]
    exact hs.readyFuture
  · rw [h.drainingSet, h.unknownSet]
    exact hs.drainingUnknown
  · rw [h.drainingSet, hfuture]
    exact hs.drainingFuture
  · rw [h.unknownSet, hfuture]
    exact hs.unknownFuture
  · rw [h.difficulty, hheld]
    exact hs.difficulty
  · rw [h.drainingDifficulty, h.drainingSet]
    exact hs.drainingDifficulty

/-! ### Blocks that wait become ready -/

omit [BlockRlp H] in
theorem hash_removeByKeyEqual (m : SizedBlockMap H H) (k : H) :
    (m.removeByKeyEqual k).1.map Prod.fst = (m.map.filter fun e => e.key = k).map MapEntry.hash := by
  rw [SizedBlockMap.removeByKeyEqual, SizedBlockMap.removeRange, List.map_map]
  rfl

theorem Filed.releaseAll (hs : s.Filed d) (parent : H) : (s.releaseAll parent).2.Filed d := by
  let released := (s.releaseAll parent).1.map Prod.fst
  have hreleased : released = (s.unknown.map.filter fun e => e.key = parent).map MapEntry.hash :=
    hash_removeByKeyEqual s.unknown parent
  have hsub : released.Sublist (s.unknown.map.map MapEntry.hash) := by
    rw [hreleased]
    exact filter_sublist.map _
  have hunknown : ∀ h ∈ released, h ∈ s.unknownSet := fun h hh => hs.unknownSet h (hsub.subset hh)
  have hready : (s.releaseAll parent).2.readyJobs.map Job.hash = s.readyJobs.map Job.hash ++ released := by
    rw [readyJobs_releaseAll, map_append, map_hash_removedJobs]
    rfl
  rw [releaseAll_snd] at hready ⊢
  have hheld : held { s with
      unknown := (s.unknown.removeByKeyEqual parent).2
      unverified := (s.releaseAll parent).1.foldl (fun q b => q.enqueue ⟨b.1, parent, b.2⟩) s.unverified
      unknownSet := s.unknownSet \ released.toFinset
      readySet := s.readySet ∪ released.toFinset } = s.held := by
    ext h
    have := hunknown h
    simp only [mem_held, Finset.mem_union, Finset.mem_sdiff, mem_toFinset, futureSet]
    tauto
  refine ⟨?_, ?_, ?_, ?_, ?_, ?_, ?_, ?_, hs.drainingFuture, ?_, ?_, hs.drainingDifficulty⟩
  · rw [hready]
    refine List.Nodup.append hs.ready (hs.unknown.sublist hsub) fun h hj hr => ?_
    exact Finset.disjoint_left.1 hs.readyUnknown (hs.readySet h hj) (hunknown h hr)
  · intro h hh
    rw [hready] at hh
    rcases mem_append.1 hh with hh | hh
    · exact Finset.mem_union_left _ (hs.readySet h hh)
    · exact Finset.mem_union_right _ (mem_toFinset.2 hh)
  · exact hs.unknown.sublist (filter_sublist.map _)
  · intro h hh
    obtain ⟨e, he, rfl⟩ := mem_map.1 hh
    obtain ⟨he, hkey⟩ := mem_filter.1 he
    refine Finset.mem_sdiff.2 ⟨hs.unknownSet _ (mem_map_of_mem he), fun hr => ?_⟩
    -- another entry would have to have its hash
    rw [mem_toFinset] at hr
    change e.hash ∈ released at hr
    rw [hreleased] at hr
    obtain ⟨e', he', heq⟩ := mem_map.1 hr
    obtain ⟨he', hkey'⟩ := mem_filter.1 he'
    obtain rfl : e' = e := inj_on_of_nodup_map hs.unknown he' he heq
    simp only [decide_eq_true_eq] at hkey hkey'
    exact hkey hkey'
  · refine Finset.disjoint_union_left.2 ⟨hs.readyDraining, ?_⟩
    exact Finset.disjoint_left.2 fun h hh => Finset.disjoint_right.1 hs.drainingUnknown (hunknown h (mem_toFinset.1 hh))
  · refine Finset.disjoint_union_left.2 ⟨hs.readyUnknown.mono_right Finset.sdiff_subset, ?_⟩
    exact Finset.disjoint_sdiff
  · refine Finset.disjoint_union_left.2 ⟨hs.readyFuture, ?_⟩
    exact Finset.disjoint_left.2 fun h hh => Finset.disjoint_left.1 hs.unknownFuture (hunknown h (mem_toFinset.1 hh))
  · exact hs.drainingUnknown.mono_right Finset.sdiff_subset
  · exact hs.unknownFuture.mono_left Finset.sdiff_subset
  · exact hs.difficulty.trans (congrArg _ hheld.symm)

theorem Filed.noteReadyLoop (goodQueue : List H) (hs : s.Filed d) : (noteReadyLoop goodQueue s).Filed d :=
  noteReadyLoop_preserves (P := Filed d) (fun _ parent hs => hs.releaseAll parent) goodQueue hs

theorem Filed.retryAllUnknown (hs : s.Filed d) : s.retryAllUnknown.Filed d :=
  retryAllUnknown_preserves (P := Filed d) (fun _ parent hs => hs.releaseAll parent) hs

/-! ### The verifiers -/

omit [BlockRlp H] [LinearOrder H] in
/-- The verified blocks at the front of `m_verifying`. -/
def finished (queue : List (VerifiedBlock H)) : List (VerifiedBlock H) :=
  queue.takeWhile fun b => !b.blockData.isEmpty

omit [LinearOrder H] in
theorem rearranged_takeWork [Inhabited H] {work : UnverifiedBlock H} (h : s.takeWork = some (work, s')) :
    Rearranged s s' := by
  have hready : s'.readyJobs = s.readyJobs := congrArg Track.ready (view_takeWork (g := {}) h)
  obtain ⟨_, -, heq⟩ := Option.map_eq_some_iff.1 h
  obtain ⟨-, rfl⟩ := Prod.mk.inj heq
  exact ⟨by rw [hready], rfl, rfl, rfl, rfl, rfl, rfl, rfl⟩

/-- A verified block goes from the front of `m_verifying` to `m_verified`. -/
theorem rearranged_settle {front b : VerifiedBlock H} {verifying : SizedBlockQueue (VerifiedBlock H)}
    (hqueue : s.verifying.queue = front :: verifying.queue) (hfront : front.job = b.verified.info.hash)
    (hparent : b.verified.info.parentHash ∉ s.knownBad) : Rearranged s ({ s with verifying }.settle b) := by
  have hjobs : (readyJobs { s with verifying, verified := s.verified.enqueue b }).map Job.hash =
      s.readyJobs.map Job.hash := by
    simp [readyJobs, hqueue, SizedBlockQueue.enqueue, VerifiedBlock.toJob, VerifiedBlock.doneJob, hfront]
  rw [settle, if_neg hparent]
  exact ⟨by rw [hjobs], rfl, rfl, rfl, rfl, rfl, rfl, rfl⟩

theorem rearranged_drainVerified (s : BlockQueue H)
    (h : ∀ b ∈ finished s.verifying.queue, b.verified.info.parentHash ∉ s.knownBad) :
    Rearranged s s.drainVerified := by
  induction s using drainVerified.induct with
  | case1 s hd => rw [drainVerified, hd]; exact .refl s
  | case2 s block verifying hd hdata => rw [drainVerified, hd]; simp only [hdata, if_true]; exact .refl s
  | case3 s block verifying hd hdata ih =>
    have hqueue := SizedBlockQueue.queue_of_dequeue hd
    have hfinished : finished s.verifying.queue = block :: finished verifying.queue := by
      rw [hqueue, finished, takeWhile_cons_of_pos (by simpa using hdata)]
      rfl
    rw [hfinished] at h
    have hparent := h block mem_cons_self
    rw [drainVerified, hd]
    simp only [hdata]
    refine (rearranged_settle hqueue (VerifiedBlock.job_of_data hdata) hparent).trans (ih fun b hb => ?_)
    rw [settle, if_neg hparent] at hb ⊢
    exact h b (mem_cons_of_mem _ hb)

/-- The block is not ready any more, and none that is verified descends from one known to be bad. -/
structure FailsAlone (s : BlockQueue H) (hash : H) : Prop where
  notReady : hash ∉ s.readySet
  finished : ∀ b ∈ finished (s.verifying.remove hash).2.queue, b.verified.info.parentHash ∉ insert hash s.knownBad

theorem rearranged_verifyFailed {work : UnverifiedBlock H} (h : s.FailsAlone work.hash) :
    Rearranged s (s.verifyFailed work) := by
  have hremove : Rearranged s { s with
      readySet := s.readySet.erase work.hash
      knownBad := insert work.hash s.knownBad
      verifying := (s.verifying.remove work.hash).2 } := by
    refine ⟨?_, Finset.erase_eq_of_notMem h.notReady, rfl, rfl, rfl, rfl, rfl, rfl⟩
    have hsub : (s.verifying.remove work.hash).2.queue.Sublist s.verifying.queue := removeIf_sublist _ _
    exact (((hsub.map _).append_left _).append_right _).map _
  exact hremove.trans (rearranged_drainVerified _ h.finished)

/-- If the block is the next one, neither it nor a verified one behind it descends from one known to be bad. -/
structure SucceedsWithAll (s : BlockQueue H) (work : UnverifiedBlock H) : Prop where
  notMistaken : s.NotMistaken work.hash
  next : ∀ front rest, s.verifying.queue = front :: rest → front.verified.info.sha3Uncles = work.hash →
    work.parentHash ∉ s.knownBad ∧ ∀ b ∈ finished rest, b.verified.info.parentHash ∉ s.knownBad

theorem rearranged_verifySucceeded {work : UnverifiedBlock H} {res : VerifiedBlock H} (hres : res.blockData ≠ [])
    (hhash : res.verified.info.hash = work.hash) (hparent : res.verified.info.parentHash = work.parentHash)
    (h : s.SucceedsWithAll work) : Rearranged s (s.verifySucceeded work res) := by
  have hresJob : res.job = work.hash := by rw [VerifiedBlock.job_of_data (by simpa using hres), hhash]
  have hreplace : Rearranged s { s with verifying := (s.verifying.replace work.hash res).2 } := by
    rcases replace_cases s.verifying work.hash res with ⟨l, u, l', hqueue, hu, hqueue'⟩ | ⟨-, heq⟩
    · obtain ⟨-, hjob⟩ := h.notMistaken.job (by simp [hqueue]) hu
      refine ⟨?_, rfl, rfl, rfl, rfl, rfl, rfl, rfl⟩
      simp [readyJobs, hqueue, hqueue', VerifiedBlock.toJob, hjob, hresJob]
    · rw [heq]
      exact .refl s
  rw [verifySucceeded]
  split
  · rename_i front verifying hd
    have hqueue := SizedBlockQueue.queue_of_dequeue hd
    split
    · rename_i hwork
      obtain ⟨-, hjob⟩ := h.notMistaken.job (b := front) (by simp [hqueue]) hwork
      obtain ⟨hgood, hfinished⟩ := h.next front _ hqueue hwork
      rw [← hparent] at hgood
      refine (rearranged_settle hqueue (hjob.trans hhash.symm) hgood).trans (rearranged_drainVerified _ fun b hb => ?_)
      rw [settle, if_neg hgood] at hb ⊢
      exact hfinished b hb
    · exact hreplace
  · exact hreplace

/-! ### Where nothing is bad -/

/-- The two differ in the sizes of the containers at most. -/
structure Alike (s s' : BlockQueue H) : Prop where
  same : ∃ verified verifying unverified unknown, s' = { s with verified, verifying, unverified, unknown }
  verified : s'.verified.queue = s.verified.queue
  verifying : s'.verifying.queue = s.verifying.queue
  unverified : s'.unverified.queue = s.unverified.queue
  unknown : s'.unknown.map = s.unknown.map

omit [BlockRlp H] [LinearOrder H] in
theorem Alike.refl (s : BlockQueue H) : Alike s s := ⟨⟨_, _, _, _, rfl⟩, rfl, rfl, rfl, rfl⟩

omit [BlockRlp H] [LinearOrder H] in
theorem Alike.trans (h : Alike s s') (h' : Alike s' s'') : Alike s s'' := by
  obtain ⟨_, _, _, _, heq⟩ := h.same
  obtain ⟨_, _, _, _, heq'⟩ := h'.same
  exact ⟨⟨_, _, _, _, by rw [heq', heq]⟩, h'.verified.trans h.verified, h'.verifying.trans h.verifying,
    h'.unverified.trans h.unverified, h'.unknown.trans h.unknown⟩

omit [LinearOrder H] in
theorem Alike.rearranged (h : Alike s s') : Rearranged s s' := by
  have hready : s'.readyJobs = s.readyJobs := by rw [readyJobs, readyJobs, h.verified, h.verifying, h.unverified]
  obtain ⟨_, _, _, _, heq⟩ := h.same
  refine ⟨by rw [hready], ?_, ?_, ?_, h.unknown, ?_, ?_, ?_⟩ <;> rw [heq]

theorem Alike.clean (h : Alike s s') (hs : s.Clean) : s'.Clean := by
  obtain ⟨_, _, _, _, heq⟩ := h.same
  have hbad : s'.knownBad = s.knownBad := by rw [heq]
  refine ⟨fun b hb => ?_, fun b hb => ?_, fun b hb => ?_⟩
  · rw [isBadVerified, hbad]
    exact hs.verified b (h.verified ▸ hb)
  · rw [isBadUnverified, hbad]
    exact hs.unverified b (h.unverified ▸ hb)
  · rw [isBadVerifying, hbad]
    exact hs.verifying b (h.verifying ▸ hb)

omit [BlockRlp H] [LinearOrder H] in
theorem removeIf_of_none {T : Type} [Movable T] {q : SizedBlockQueue T} {p : T → Bool}
    (h : ∀ t ∈ q.queue, p t = false) : (q.removeIf p).1 = [] ∧ (q.removeIf p).2.queue = q.queue := by
  have hnone : q.queue.filter p = [] := filter_eq_nil_iff.2 (by simpa using h)
  have hlen : (q.removeIf p).1.length = (q.queue.filter p).length := length_removedRange
  rw [hnone] at hlen
  refine ⟨length_eq_zero_iff.1 hlen, ?_⟩
  rw [SizedBlockQueue.queue_removeIf]
  exact filter_eq_self.2 fun t ht => by simp [h t ht]

theorem alike_sweep (hs : s.Clean) : Alike s s.sweep.1 ∧ s.sweep.2 = false := by
  obtain ⟨hempty₁, hqueue₁⟩ := removeIf_of_none hs.verified
  have h₁ : Alike s s.sweepVerified.1 ∧ s.sweepVerified.2 = false := by
    refine ⟨?_, by simp [sweepVerified, hempty₁]⟩
    rw [sweepVerified_fst, hempty₁]
    exact ⟨⟨_, _, _, _, rfl⟩, hqueue₁, rfl, rfl, rfl⟩
  obtain ⟨hempty₂, hqueue₂⟩ := removeIf_of_none (h₁.1.clean hs).unverified
  have h₂ : Alike s.sweepVerified.1 s.sweepVerified.1.sweepUnverified.1 ∧
      s.sweepVerified.1.sweepUnverified.2 = false := by
    refine ⟨?_, by simp [sweepUnverified, hempty₂]⟩
    rw [sweepUnverified_fst, hempty₂]
    exact ⟨⟨_, _, _, _, rfl⟩, rfl, rfl, hqueue₂, rfl⟩
  obtain ⟨hempty₃, hqueue₃⟩ := removeIf_of_none (h₂.1.clean (h₁.1.clean hs)).verifying
  have h₃ : Alike s.sweepVerified.1.sweepUnverified.1 s.sweepVerified.1.sweepUnverified.1.sweepVerifying.1 ∧
      s.sweepVerified.1.sweepUnverified.1.sweepVerifying.2 = false := by
    refine ⟨?_, by simp [sweepVerifying, hempty₃]⟩
    rw [sweepVerifying_fst, hempty₃]
    exact ⟨⟨_, _, _, _, rfl⟩, rfl, hqueue₃, rfl, rfl⟩
  refine ⟨h₁.1.trans (h₂.1.trans h₃.1), ?_⟩
  change (s.sweepVerified.2 || s.sweepVerified.1.sweepUnverified.2 ||
    s.sweepVerified.1.sweepUnverified.1.sweepVerifying.2) = false
  rw [h₁.2, h₂.2, h₃.2]
  rfl

theorem alike_updateBad {bad : H} (hs : s.Clean) (hunknown : ∀ e ∈ s.unknown.map, e.key ≠ bad) :
    Alike s (s.updateBad bad) := by
  have hremoved : s.unknown.map.filter (fun e => decide (e.key = bad)) = [] :=
    filter_eq_nil_iff.2 (by simpa using hunknown)
  have hcollect : Alike s (collectUnknownBad [bad] s) := by
    rw [collectUnknownBad]
    simp only [SizedBlockMap.removeByKeyEqual, SizedBlockMap.removeRange, hremoved]
    rw [map_nil, map_nil, append_nil, collectUnknownBad]
    refine ⟨⟨_, _, _, _, rfl⟩, rfl, rfl, rfl, ?_⟩
    exact filter_eq_self.2 fun e he => by simpa using hunknown e he
  have hclean := hcollect.clean hs
  rw [updateBad, updateBadLoop, if_neg (by simp [(alike_sweep hclean).2])]
  exact hcollect.trans (alike_sweep hclean).1

theorem alike_foldl_updateBad {bad : List H} (hs : s.Clean) (hunknown : ∀ e ∈ s.unknown.map, e.key ∉ bad) :
    Alike s (bad.foldl updateBad s) := by
  induction bad generalizing s with
  | nil => exact .refl s
  | cons b bad ih =>
    have hfirst := alike_updateBad hs fun e he => ne_of_not_mem_cons (hunknown e he)
    refine hfirst.trans (ih (hfirst.clean hs) fun e he => ?_)
    rw [hfirst.unknown] at he
    exact not_mem_of_not_mem_cons (hunknown e he)

/-- `updateBad` finds nothing to take out once these are known to be bad. -/
structure Untouched (s : BlockQueue H) (bad : Finset H) : Prop where
  clean : Clean { s with knownBad := s.knownBad ∪ bad }
  unknown : ∀ e ∈ s.unknown.map, e.key ∉ bad

/-! ### What is queued -/

/-- A block that is new, with a difficulty that fits into the sum. -/
structure Queueable (d : H → U256) (s : BlockQueue H) (hash : H) : Prop where
  new : hash ∉ s.held
  fits : totalDifficulty d s.held + (d hash).toNat < 2 ^ 256

omit [BlockRlp H] in
theorem Queueable.difficulty {hash : H} (h : s.Queueable d hash) (hs : s.difficulty.toNat = totalDifficulty d s.held)
    (hheld : s'.held = insert hash s.held) (heq : s'.difficulty = s.difficulty + d hash) :
    s'.difficulty.toNat = totalDifficulty d s'.held := by
  rw [heq, BitVec.toNat_add, hs, hheld, totalDifficulty_insert h.new, Nat.mod_eq_of_lt h.fits]

omit [BlockRlp H] in
theorem Queueable.notMem {hash : H} (h : s.Queueable d hash) :
    hash ∉ s.readySet ∧ hash ∉ s.drainingSet ∧ hash ∉ s.unknownSet ∧ hash ∉ s.futureSet := by
  simpa only [mem_held, not_or] using h.new

omit [BlockRlp H] in
theorem futureSet_insert (s : BlockQueue H) (timestamp : Nat) (hash : H) (block : Bytes) (difficulty : U256) :
    futureSet { s with future := s.future.insert timestamp hash block, difficulty } = insert hash s.futureSet := by
  ext h
  simp only [futureSet, mem_toFinset, mem_map, Finset.mem_insert, SizedBlockMap.insert, mem_insertEntry]
  constructor
  · rintro ⟨e, rfl | he, rfl⟩
    · exact .inl rfl
    · exact .inr ⟨e, he, rfl⟩
  · rintro (rfl | ⟨e, he, rfl⟩)
    · exact ⟨_, .inl rfl, rfl⟩
    · exact ⟨e, .inr he, rfl⟩

theorem Filed.inFuture (hs : s.Filed d) {hash : H} (h : s.Queueable d hash) (timestamp : Nat) (block : Bytes) :
    Filed d { s with
      future := s.future.insert timestamp hash block
      difficulty := s.difficulty + d hash } := by
  obtain ⟨hready, hdraining, hunknown, -⟩ := h.notMem
  have hfuture := futureSet_insert s timestamp hash block (s.difficulty + d hash)
  refine ⟨hs.ready, hs.readySet, hs.unknown, hs.unknownSet, hs.readyDraining, hs.readyUnknown, ?_, hs.drainingUnknown,
    ?_, ?_, h.difficulty hs.difficulty ?_ rfl, hs.drainingDifficulty⟩
  · rw [hfuture]
    exact Finset.disjoint_insert_right.2 ⟨hready, hs.readyFuture⟩
  · rw [hfuture]
    exact Finset.disjoint_insert_right.2 ⟨hdraining, hs.drainingFuture⟩
  · rw [hfuture]
    exact Finset.disjoint_insert_right.2 ⟨hunknown, hs.unknownFuture⟩
  · rw [held, hfuture, Finset.union_insert]
    rfl

theorem Filed.wait (hs : s.Filed d) {hash : H} (h : s.Queueable d hash) (parent : H) (block : Bytes) :
    Filed d { s with
      unknown := s.unknown.insert parent hash block
      unknownSet := insert hash s.unknownSet
      difficulty := s.difficulty + d hash } := by
  obtain ⟨hready, hdraining, hunknown, hfuture⟩ := h.notMem
  have hperm : ((s.unknown.insert parent hash block).map.map MapEntry.hash).Perm
      (hash :: s.unknown.map.map MapEntry.hash) := (perm_insertEntry ⟨parent, hash, block⟩ s.unknown.map).map _
  refine ⟨hs.ready, hs.readySet, ?_, fun h hh => ?_, hs.readyDraining, ?_, hs.readyFuture, ?_, hs.drainingFuture, ?_,
    h.difficulty hs.difficulty ?_ rfl, hs.drainingDifficulty⟩
  · exact hperm.nodup_iff.2 (nodup_cons.2 ⟨fun hmem => hunknown (hs.unknownSet hash hmem), hs.unknown⟩)
  · rcases mem_cons.1 (hperm.mem_iff.1 hh) with rfl | hh
    · exact Finset.mem_insert_self _ _
    · exact Finset.mem_insert_of_mem (hs.unknownSet h hh)
  · exact Finset.disjoint_insert_right.2 ⟨hready, hs.readyUnknown⟩
  · exact Finset.disjoint_insert_right.2 ⟨hdraining, hs.drainingUnknown⟩
  · exact Finset.disjoint_insert_left.2 ⟨hfuture, hs.unknownFuture⟩
  · ext h
    simp only [mem_held, Finset.mem_insert]
    tauto

theorem Filed.accept (hs : s.Filed d) {hash : H} (h : s.Queueable d hash) (parent : H) (block : Bytes) :
    Filed d { s with
      unverified := s.unverified.enqueue ⟨hash, parent, block⟩
      readySet := insert hash s.readySet
      difficulty := s.difficulty + d hash } := by
  obtain ⟨hready, hdraining, hunknown, hfuture⟩ := h.notMem
  have hjobs : (readyJobs { s with
      unverified := s.unverified.enqueue ⟨hash, parent, block⟩
      readySet := insert hash s.readySet
      difficulty := s.difficulty + d hash }).map Job.hash = s.readyJobs.map Job.hash ++ [hash] := by
    simp [readyJobs, SizedBlockQueue.enqueue, UnverifiedBlock.toJob]
  refine ⟨?_, fun h hh => ?_, hs.unknown, hs.unknownSet, ?_, ?_, ?_, hs.drainingUnknown, hs.drainingFuture,
    hs.unknownFuture, h.difficulty hs.difficulty ?_ rfl, hs.drainingDifficulty⟩
  · rw [hjobs]
    exact nodup_append.2 ⟨hs.ready, nodup_singleton _, fun h hh h' hh' heq =>
      hready (mem_singleton.1 hh' ▸ heq ▸ hs.readySet h hh)⟩
  · rw [hjobs] at hh
    rcases mem_append.1 hh with hh | hh
    · exact Finset.mem_insert_of_mem (hs.readySet h hh)
    · rw [mem_singleton.1 hh]
      exact Finset.mem_insert_self _ _
  · exact Finset.disjoint_insert_left.2 ⟨hdraining, hs.readyDraining⟩
  · exact Finset.disjoint_insert_left.2 ⟨hunknown, hs.readyUnknown⟩
  · exact Finset.disjoint_insert_left.2 ⟨hfuture, hs.readyFuture⟩
  · ext h
    simp only [mem_held, Finset.mem_insert]
    tauto

/-- Where the block would be queued it can be; where it is bad, nothing waits for it. -/
structure ImportsWell (d : H → U256) (s : BlockQueue H) (env : ImportEnv H) (isOurs : Bool) (bi : BlockHeader H) :
    Prop where
  queued : InFuture env isOurs bi ∨ bi.parentHash ∉ s.knownBad →
    bi.hash ∉ s.futureSet ∧ totalDifficulty d s.held + bi.difficulty.toNat < 2 ^ 256
  bad : ¬ InFuture env isOurs bi → bi.parentHash ∈ s.knownBad → s.Untouched {bi.hash}

theorem Filed.importBlock (hs : s.Filed d) (hd : Determines d) {env : ImportEnv H} {block : Bytes} {isOurs : Bool}
    (h : ∀ bi, s.Taken env block bi → s.ImportsWell d env isOurs bi) : (s.importBlock env block isOurs).2.Filed d := by
  rcases s.importBlock_cases env block isOurs with ⟨heq, -⟩ | ⟨bi, htaken, hcases⟩
  · rwa [heq]
  have hdifficulty := hd block bi htaken.header
  have hqueueable : InFuture env isOurs bi ∨ bi.parentHash ∉ s.knownBad → s.Queueable d bi.hash := by
    intro hq
    obtain ⟨hfuture, hfits⟩ := (h bi htaken).queued hq
    refine ⟨?_, by rwa [hdifficulty]⟩
    rw [mem_held, not_or, not_or, not_or]
    exact ⟨htaken.notReady, htaken.notDraining, htaken.notUnknown, hfuture⟩
  rcases hcases with ⟨hfuture, r, -, heq⟩ | ⟨hfuture, hparent, heq⟩ | ⟨-, hparent, -, heq⟩ | ⟨-, hparent, -, heq⟩ <;>
    rw [heq]
  · rw [← hdifficulty]
    exact hs.inFuture (hqueueable (.inl hfuture)) _ _
  · obtain ⟨hclean, hunknown⟩ := (h bi htaken).bad hfuture hparent
    rw [Finset.union_singleton] at hclean
    have hnote : Rearranged s { s with knownBad := insert bi.hash s.knownBad } :=
      ⟨.refl _, rfl, rfl, rfl, rfl, rfl, rfl, rfl⟩
    refine hs.rearranged (hnote.trans (alike_updateBad hclean fun e he => ?_).rearranged)
    simpa using hunknown e he
  · rw [← hdifficulty]
    exact hs.wait (hqueueable (.inr hparent)) _ _
  · rw [← hdifficulty]
    exact (hs.accept (hqueueable (.inr hparent)) _ _).noteReadyLoop _

/-! ### What is drained -/

/-- The verified blocks have the difficulties of their hashes. -/
structure Priced (d : H → U256) (s : BlockQueue H) : Prop where
  verified : ∀ b ∈ s.verified.queue, d b.verified.info.hash = b.verified.info.difficulty
  verifying : ∀ b ∈ s.verifying.queue, b.blockData ≠ [] → d b.verified.info.hash = b.verified.info.difficulty

omit [LinearOrder H] in
theorem Priced.init : Priced d ({} : BlockQueue H) :=
  ⟨fun _ hb => absurd hb not_mem_nil, fun _ hb => absurd hb not_mem_nil⟩

omit [LinearOrder H] in
theorem Priced.congr (hs : s.Priced d) (hverified : s'.verified.queue.Sublist s.verified.queue)
    (hverifying : s'.verifying.queue.Sublist s.verifying.queue) : s'.Priced d :=
  ⟨fun b hb => hs.verified b (hverified.subset hb), fun b hb => hs.verifying b (hverifying.subset hb)⟩

theorem Priced.settle (hs : s.Priced d) {b : VerifiedBlock H}
    (hb : d b.verified.info.hash = b.verified.info.difficulty) : (s.settle b).Priced d := by
  rw [BlockQueue.settle]
  split
  · exact ⟨hs.verified, hs.verifying⟩
  · refine ⟨fun b' hb' => ?_, hs.verifying⟩
    rcases mem_append.1 hb' with hb' | hb'
    · exact hs.verified b' hb'
    · rw [mem_singleton.1 hb']
      exact hb

theorem Priced.drainVerified (hs : s.Priced d) : s.drainVerified.Priced d := by
  induction s using BlockQueue.drainVerified.induct with
  | case1 s h => rw [BlockQueue.drainVerified, h]; exact hs
  | case2 s block verifying h hdata => rw [BlockQueue.drainVerified, h]; simp only [hdata, if_true]; exact hs
  | case3 s block verifying h hdata ih =>
    have hqueue := SizedBlockQueue.queue_of_dequeue h
    rw [BlockQueue.drainVerified, h]
    simp only [hdata]
    have hrest : Priced d { s with verifying } := by
      refine hs.congr (.refl _) ?_
      rw [hqueue]
      exact sublist_cons_self _ _
    refine ih (hrest.settle (hs.verifying block ?_ (by simpa using hdata)))
    rw [hqueue]
    exact mem_cons_self

theorem Priced.verifyFailed (hs : s.Priced d) (work : UnverifiedBlock H) : (s.verifyFailed work).Priced d := by
  have hremove : Priced d { s with
      readySet := s.readySet.erase work.hash
      knownBad := insert work.hash s.knownBad
      verifying := (s.verifying.remove work.hash).2 } := hs.congr (.refl _) (removeIf_sublist _ _)
  exact hremove.drainVerified

theorem Priced.verifySucceeded (hs : s.Priced d) (work : UnverifiedBlock H) {res : VerifiedBlock H}
    (hres : d res.verified.info.hash = res.verified.info.difficulty) : (s.verifySucceeded work res).Priced d := by
  have hreplace : Priced d { s with verifying := (s.verifying.replace work.hash res).2 } := by
    refine ⟨hs.verified, fun b hb hdata => ?_⟩
    rcases replace_cases s.verifying work.hash res with ⟨l, u, l', hqueue, -, hqueue'⟩ | ⟨-, heq⟩
    · dsimp only at hb
      rw [hqueue'] at hb
      rcases mem_append.1 hb with hb | hb
      · exact hs.verifying b (by simp [hqueue, hb]) hdata
      · rcases mem_cons.1 hb with rfl | hb
        · exact hres
        · exact hs.verifying b (by simp [hqueue, hb]) hdata
    · rw [heq] at hb
      exact hs.verifying b hb hdata
  rw [BlockQueue.verifySucceeded]
  split
  · rename_i front verifying h
    have hqueue := SizedBlockQueue.queue_of_dequeue h
    split
    · have hrest : Priced d { s with verifying } := by
        refine hs.congr (.refl _) ?_
        rw [hqueue]
        exact sublist_cons_self _ _
      exact (hrest.settle hres).drainVerified
    · exact hreplace
  · exact hreplace

omit [LinearOrder H] in
theorem Priced.takeWork [Inhabited H] {work : UnverifiedBlock H} (hs : s.Priced d)
    (h : s.takeWork = some (work, s')) : s'.Priced d := by
  obtain ⟨_, -, heq⟩ := Option.map_eq_some_iff.1 h
  obtain ⟨-, rfl⟩ := Prod.mk.inj heq
  refine ⟨hs.verified, fun b hb hdata => ?_⟩
  rcases mem_append.1 hb with hb | hb
  · exact hs.verifying b hb hdata
  · -- it has no data yet
    rw [mem_singleton.1 hb] at hdata
    exact absurd rfl hdata

theorem Priced.noteReadyLoop (hs : s.Priced d) (goodQueue : List H) : (noteReadyLoop goodQueue s).Priced d := by
  obtain ⟨_, _, _, _, heq, -⟩ := exists_noteReadyLoop goodQueue s
  rw [heq]
  exact ⟨hs.verified, hs.verifying⟩

theorem Priced.retryAllUnknown (hs : s.Priced d) : s.retryAllUnknown.Priced d := by
  obtain ⟨_, _, _, _, heq⟩ := s.exists_retryAllUnknown
  rw [heq]
  exact ⟨hs.verified, hs.verifying⟩

theorem Priced.importBlock (hs : s.Priced d) (env : ImportEnv H) (block : Bytes) (isOurs : Bool) :
    (s.importBlock env block isOurs).2.Priced d := by
  rcases s.importBlock_cases env block isOurs with ⟨heq, -⟩ | ⟨bi, -, hcases⟩
  · rwa [heq]
  rcases hcases with ⟨-, r, -, heq⟩ | ⟨-, -, heq⟩ | ⟨-, -, -, heq⟩ | ⟨-, -, -, heq⟩ <;> rw [heq]
  · exact ⟨hs.verified, hs.verifying⟩
  · have hwithin := within_updateBad { s with knownBad := insert bi.hash s.knownBad } bi.hash
    exact hs.congr hwithin.verified hwithin.verifying
  · exact ⟨hs.verified, hs.verifying⟩
  · have haccept : Priced d { s with
        unverified := s.unverified.enqueue ⟨bi.hash, bi.parentHash, block⟩
        readySet := insert bi.hash s.readySet
        difficulty := s.difficulty + bi.difficulty } := ⟨hs.verified, hs.verifying⟩
    exact haccept.noteReadyLoop _

theorem Priced.drain (hs : s.Priced d) (max : BitVec 32) : (s.drain max).2.Priced d := by
  have hfold : ∀ (out : List (VerifiedBlock H)) {s : BlockQueue H}, s.Priced d →
      (out.foldl BlockQueue.noteDraining s).Priced d := by
    intro out s hs
    obtain ⟨_, _, _, heq⟩ := exists_foldl_noteDraining out s
    rw [heq]
    exact ⟨hs.verified, hs.verifying⟩
  rw [BlockQueue.drain]
  split
  · split
    · exact hs
    · rename_i out verified h
      obtain ⟨_, hr⟩ := Option.ite_none_right_eq_some.1 h
      obtain ⟨rfl, rfl⟩ := Prod.mk.inj (Option.some.inj hr)
      exact hfold _ (hs.congr (drop_sublist _ _) (.refl _))
  · exact hs

theorem Priced.doneDrain (hs : s.Priced d) (bad : List H) : (s.doneDrain bad).2.Priced d := by
  have hwithin := within_foldl_updateBad bad (s.reported bad)
  rw [doneDrain_eq]
  exact hs.congr hwithin.verified hwithin.verifying

theorem Filed.noteDraining (hs : s.Filed d) {b : VerifiedBlock H} {verified : SizedBlockQueue (VerifiedBlock H)}
    (hqueue : s.verified.queue = b :: verified.queue) (hb : d b.verified.info.hash = b.verified.info.difficulty) :
    Filed d { s.noteDraining b with verified } := by
  let hash := b.verified.info.hash
  have hjobs : s.readyJobs.map Job.hash = hash :: (readyJobs { s with verified }).map Job.hash := by
    rw [readyJobs, hqueue]
    rfl
  obtain ⟨hnotin, hnodup⟩ := nodup_cons.1 (hjobs ▸ hs.ready)
  have hready : hash ∈ s.readySet := hs.readySet hash (hjobs ▸ mem_cons_self)
  have hdraining : hash ∉ s.drainingSet := Finset.disjoint_left.1 hs.readyDraining hready
  have hunknown : hash ∉ s.unknownSet := Finset.disjoint_left.1 hs.readyUnknown hready
  have hfuture : hash ∉ s.futureSet := Finset.disjoint_left.1 hs.readyFuture hready
  have hheld : held { s.noteDraining b with verified } = s.held := by
    ext h
    simp only [mem_held, BlockQueue.noteDraining, Finset.mem_insert, Finset.mem_erase]
    constructor
    · rintro (⟨-, h⟩ | (rfl | h) | h | h)
      exacts [.inl h, .inl hready, .inr (.inl h), .inr (.inr (.inl h)), .inr (.inr (.inr h))]
    · rintro (h' | h' | h' | h')
      · by_cases heq : h = hash
        · exact .inr (.inl (.inl heq))
        · exact .inl ⟨heq, h'⟩
      exacts [.inr (.inl (.inr h')), .inr (.inr (.inl h')), .inr (.inr (.inr h'))]
  have hsum : s.drainingDifficulty.toNat + (d hash).toNat < 2 ^ 256 := by
    rw [hs.drainingDifficulty, ← totalDifficulty_insert hdraining]
    refine lt_of_le_of_lt ?_ s.difficulty.isLt
    rw [hs.difficulty]
    refine Finset.sum_le_sum_of_subset fun h hh => ?_
    rcases Finset.mem_insert.1 hh with rfl | hh
    · exact mem_held.2 (.inl hready)
    · exact mem_held.2 (.inr (.inl hh))
  refine ⟨hnodup, fun h hh => ?_, hs.unknown, hs.unknownSet, ?_, ?_, ?_, ?_, ?_, hs.unknownFuture, ?_, ?_⟩
  · refine Finset.mem_erase.2 ⟨?_, hs.readySet h (hjobs ▸ mem_cons_of_mem _ hh)⟩
    rintro rfl
    exact hnotin hh
  · exact Finset.disjoint_insert_right.2
      ⟨Finset.notMem_erase _ _, hs.readyDraining.mono_left (Finset.erase_subset _ _)⟩
  · exact hs.readyUnknown.mono_left (Finset.erase_subset _ _)
  · exact hs.readyFuture.mono_left (Finset.erase_subset _ _)
  · exact Finset.disjoint_insert_left.2 ⟨hunknown, hs.drainingUnknown⟩
  · exact Finset.disjoint_insert_left.2 ⟨hfuture, hs.drainingFuture⟩
  · rw [hheld]
    exact hs.difficulty
  · change (s.drainingDifficulty + b.verified.info.difficulty).toNat = totalDifficulty d (insert hash s.drainingSet)
    rw [totalDifficulty_insert hdraining, ← hs.drainingDifficulty, ← hb, BitVec.toNat_add, Nat.mod_eq_of_lt hsum]

theorem Filed.foldl_noteDraining (hs : s.Filed d) (out : List (VerifiedBlock H))
    {verified : SizedBlockQueue (VerifiedBlock H)} (hqueue : s.verified.queue = out ++ verified.queue)
    (hout : ∀ b ∈ out, d b.verified.info.hash = b.verified.info.difficulty) :
    Filed d (out.foldl BlockQueue.noteDraining { s with verified }) := by
  induction out generalizing s with
  | nil => exact hs.rearranged ⟨by rw [readyJobs, readyJobs, hqueue]; exact .refl _, rfl, rfl, rfl, rfl, rfl, rfl, rfl⟩
  | cons b out ih =>
    have hfirst : Filed d { s.noteDraining b with verified := ⟨out ++ verified.queue, 0⟩ } :=
      hs.noteDraining hqueue (hout b mem_cons_self)
    exact ih hfirst rfl fun b' hb' => hout b' (mem_cons_of_mem _ hb')

theorem Filed.drain (hs : s.Filed d) (hprice : s.Priced d) (max : BitVec 32) : (s.drain max).2.Filed d := by
  rw [BlockQueue.drain]
  split
  · rename_i hempty
    split
    · exact hs
    · rename_i out verified h
      obtain ⟨_, hr⟩ := Option.ite_none_right_eq_some.1 h
      obtain ⟨rfl, rfl⟩ := Prod.mk.inj (Option.some.inj hr)
      have hstart : Filed d { s with drainingDifficulty := 0 } :=
        { hs with drainingDifficulty := by rw [hempty]; rfl }
      exact hstart.foldl_noteDraining _ (take_append_drop _ _).symm
        fun b hb => hprice.verified b (mem_of_mem_take hb)
  · exact hs

/-- The drained blocks are done with. -/
theorem Filed.close (hs : s.Filed d) (bad : List H) : (s.reported bad).Filed d := by
  have hle : s.drainingDifficulty ≤ s.difficulty := by
    rw [BitVec.le_def, hs.difficulty, hs.drainingDifficulty]
    exact Finset.sum_le_sum_of_subset fun h hh => mem_held.2 (.inr (.inl hh))
  have hheld : s.held = s.drainingSet ∪ (s.reported bad).held := by
    ext h
    simp only [held, reported, Finset.mem_union, Finset.notMem_empty]
    tauto
  have hdisjoint : Disjoint s.drainingSet (s.reported bad).held :=
    Finset.disjoint_union_right.2 ⟨Finset.disjoint_union_right.2 ⟨Finset.disjoint_union_right.2
      ⟨hs.readyDraining.symm, Finset.disjoint_empty_right _⟩, hs.drainingUnknown⟩, hs.drainingFuture⟩
  refine ⟨hs.ready, hs.readySet, hs.unknown, hs.unknownSet, Finset.disjoint_empty_right _, hs.readyUnknown,
    hs.readyFuture, Finset.disjoint_empty_left _, Finset.disjoint_empty_left _, hs.unknownFuture, ?_, rfl⟩
  change (s.difficulty - s.drainingDifficulty).toNat = _
  rw [BitVec.toNat_sub_of_le hle, hs.difficulty, hs.drainingDifficulty, hheld, totalDifficulty_union hdisjoint,
    Nat.add_sub_cancel_left]

theorem Filed.doneDrain (hs : s.Filed d) {bad : List H} (h : bad ≠ [] → s.Untouched bad.toFinset) :
    (s.doneDrain bad).2.Filed d := by
  rw [doneDrain_eq]
  have hclose := hs.close bad
  by_cases hne : bad = []
  · rw [hne] at hclose ⊢
    exact hclose
  · obtain ⟨hclean, hunknown⟩ := h hne
    have hclean' : (s.reported bad).Clean := ⟨hclean.verified, hclean.unverified, hclean.verifying⟩
    exact hclose.rearranged
      (alike_foldl_updateBad hclean' fun e he hmem => hunknown e he (mem_toFinset.2 hmem)).rearranged

theorem Filed.clear (s : BlockQueue H) : s.clear.Filed d := by
  constructor <;> simp [BlockQueue.clear, SizedBlockQueue.clear, SizedBlockMap.clear, readyJobs, held, futureSet,
    totalDifficulty]

end BlockQueue

namespace System

variable [Inhabited H] {s s' : System H} {e : Event H}

/-- The step takes no block out of the queue that it does not count off, and queues none that it holds. -/
def LosesNothing (d : H → U256) (s : System H) : Event H → Prop
  | .importBlock env block isOurs => ∀ bi, s.bq.Taken env block bi → s.bq.ImportsWell d env isOurs bi
  | .tick t => ∀ first, s.bq.future.firstKey = some first → t < first
  | .verifyFailed i => ∀ work, s.working[i]? = some work → s.bq.FailsAlone work.hash
  | .verifySucceeded i _ => ∀ work, s.working[i]? = some work → s.bq.SucceedsWithAll work
  | .doneDrain bad => bad ≠ [] → s.bq.Untouched bad.toFinset
  | _ => True

/-- The blocks are filed, and those verified have their difficulties. -/
structure Accounted (d : H → U256) (s : System H) : Prop where
  filed : s.bq.Filed d
  priced : s.bq.Priced d

theorem Accounted.step (hd : Determines d) (ho : s.Orderly) (hs : s.Accounted d) (hC : s.LosesNothing d e)
    (h : s.step e = some s') : s'.Accounted d := by
  obtain ⟨hfiled, hpriced⟩ := hs
  cases e with
  | importBlock env block isOurs =>
    cases h
    exact ⟨hfiled.importBlock hd hC, hpriced.importBlock env block isOurs⟩
  | tick t =>
    cases h
    have hsame : (s.bq.tick t).2 = s.bq := by
      rw [BlockQueue.tick]
      split
      · rfl
      · rename_i first hfirst
        rw [if_pos (hC first hfirst)]
    rw [hsame]
    exact ⟨hfiled, hpriced⟩
  | takeWork =>
    obtain ⟨⟨work, bq⟩, htake, rfl⟩ := Option.map_eq_some_iff.1 h
    refine ⟨hfiled.rearranged (BlockQueue.rearranged_takeWork htake), ?_⟩
    exact hpriced.takeWork htake
  | verifyFailed i =>
    obtain ⟨work, hi, rfl⟩ := Option.map_eq_some_iff.1 h
    exact ⟨hfiled.rearranged (BlockQueue.rearranged_verifyFailed (hC work hi)), hpriced.verifyFailed work⟩
  | verifySucceeded i transactions =>
    obtain ⟨work, hi, h⟩ := Option.bind_eq_some_iff.1 h
    obtain ⟨info, hinfo, rfl⟩ := Option.map_eq_some_iff.1 h
    obtain ⟨info', hparsed, hhash, hparent⟩ := ho.working work (List.mem_of_getElem? hi)
    obtain rfl : info' = info := Option.some.inj (hparsed.symm.trans hinfo)
    have hdata : work.blockData ≠ [] := by
      intro hdata
      rw [hdata, BlockRlp.headerOf_nil] at hinfo
      cases hinfo
    exact ⟨hfiled.rearranged (BlockQueue.rearranged_verifySucceeded hdata hhash hparent (hC work hi)),
      hpriced.verifySucceeded work (hd _ _ hinfo)⟩
  | drain max =>
    cases h
    exact ⟨hfiled.drain hpriced max, hpriced.drain max⟩
  | doneDrain bad =>
    cases h
    exact ⟨hfiled.doneDrain hC, hpriced.doneDrain bad⟩
  | noteReady isKnown good =>
    cases h
    exact ⟨hfiled.noteReadyLoop [good], hpriced.noteReadyLoop [good]⟩
  | retryAllUnknown isKnown =>
    cases h
    exact ⟨hfiled.retryAllUnknown, hpriced.retryAllUnknown⟩
  | clear =>
    cases h
    exact ⟨BlockQueue.Filed.clear s.bq, hpriced.congr (nil_sublist _) (nil_sublist _)⟩

/-- In a run whose steps lose nothing, the difficulty of the queue is that of the blocks held. -/
theorem difficulty_exact (hd : Determines d) (hs : Reaches (LosesNothing d) s) :
    s.bq.difficulty.toNat = totalDifficulty d s.bq.held := by
  have hboth : s.Orderly ∧ s.Accounted d := by
    refine Reaches.induction (I := fun s => s.Orderly ∧ s.Accounted d) ⟨.init, .init, .init⟩ ?_ hs
    intro s e s' ⟨ho, ha⟩ hC he
    exact ⟨ho.step he, ha.step hd ho hC he⟩
  exact hboth.2.filed.difficulty

end System

theorem determines_byte : Determines fun h : Fin 256 => BitVec.ofNat 256 h.val := by
  intro block bi h
  rcases block with _ | ⟨hash, _ | ⟨parentHash, _ | ⟨sha3Uncles, _ | ⟨x, l⟩⟩⟩⟩
  case cons.cons.cons.nil =>
    obtain rfl := Option.some.inj h
    change BitVec.ofNat 256 (hash.toNat % 256) = BitVec.ofNat 256 hash.toNat
    rw [Nat.mod_eq_of_lt hash.toNat_lt]
  all_goals exact nomatch h

namespace System

/-- A block is imported, verified and drained, while one of the future waits. -/
def importBoth : List (Event (Fin 256)) :=
  [.importBlock (.atTime 7) [7, 0, 0] false, .importBlock (.atTime 7) [9, 0, 0] false, .takeWork,
    .verifySucceeded 0 [], .drain 1]

/-- What the conditions of the steps of `importBoth` depend on. -/
def contents (s : System (Fin 256)) : Finset (Fin 256) × Finset (Fin 256) × Finset (Fin 256) × List Bytes :=
  (s.bq.held, s.bq.futureSet, s.bq.knownBad, s.bq.verifying.queue.map VerifiedBlock.blockData)

theorem losesNothing_importBlock {s : System (Fin 256)} {time : Nat} {hash : UInt8} (hbad : s.bq.knownBad = ∅)
    (hfuture : hash.toFin ∉ s.bq.futureSet)
    (hfits : totalDifficulty (fun h => BitVec.ofNat 256 h.val) s.bq.held + hash.toNat < 2 ^ 256) :
    s.LosesNothing (fun h => BitVec.ofNat 256 h.val) (.importBlock (.atTime time) [hash, 0, 0] false) := by
  intro bi htaken
  obtain rfl := Option.some.inj htaken.header
  constructor
  · intro _
    have hhash : BlockHeader.hash { BlockHeader.placeholder (UInt8.toFin 0) (UInt8.toFin 0) with
        number := hash.toNat
        timestamp := hash.toNat
        difficulty := BitVec.ofNat 256 hash.toNat } = hash.toFin := Fin.ext (Nat.mod_eq_of_lt hash.toNat_lt)
    refine ⟨by rwa [hhash], ?_⟩
    rwa [BitVec.toNat_ofNat, Nat.mod_eq_of_lt (hash.toNat_lt.trans (by decide))]
  · intro _ hparent
    rw [hbad] at hparent
    exact absurd hparent (Finset.notMem_empty _)

theorem difficulty_exact_import : ∃ s : System (Fin 256), run {} importBoth = some s ∧ s.bq.held = {7, 9} ∧
    s.bq.difficulty.toNat = totalDifficulty (fun h => BitVec.ofNat 256 h.val) s.bq.held := by
  obtain ⟨s, hs⟩ : ∃ s, run {} importBoth = some s := Option.isSome_iff_exists.1 (by decide +kernel)
  have hheld : (run {} importBoth).map (fun s => s.bq.held) = some {7, 9} := by decide +kernel
  rw [hs] at hheld
  refine ⟨s, hs, Option.some.inj hheld, ?_⟩
  obtain ⟨s₁, h₁, hs⟩ := run_cons.1 hs
  obtain ⟨s₂, h₂, hs⟩ := run_cons.1 hs
  obtain ⟨s₃, h₃, hs⟩ := run_cons.1 hs
  obtain ⟨s₄, h₄, hs⟩ := run_cons.1 hs
  obtain ⟨s₅, h₅, hs⟩ := run_cons.1 hs
  obtain rfl := Option.some.inj hs
  have hcontents₁ : (run {} (importBoth.take 1)).map contents = some ({7}, ∅, ∅, []) := by decide +kernel
  have hcontents₃ : (run {} (importBoth.take 3)).map contents = some ({7, 9}, {9}, ∅, [[]]) := by decide +kernel
  rw [show run {} (importBoth.take 1) = some s₁ from run_cons.2 ⟨s₁, h₁, rfl⟩] at hcontents₁
  rw [show run {} (importBoth.take 3) = some s₃ from
    run_cons.2 ⟨s₁, h₁, run_cons.2 ⟨s₂, h₂, run_cons.2 ⟨s₃, h₃, rfl⟩⟩⟩] at hcontents₃
  simp only [Option.map_some, Option.some.injEq, contents, Prod.mk.injEq] at hcontents₁ hcontents₃
  obtain ⟨hheld₁, hfuture₁, hbad₁, -⟩ := hcontents₁
  obtain ⟨-, -, hbad₃, hverifying₃⟩ := hcontents₃
  have hr₁ : Reaches (LosesNothing fun h => BitVec.ofNat 256 h.val) s₁ :=
    Reaches.step .refl h₁ (losesNothing_importBlock rfl (Finset.notMem_empty _) (by decide))
  have hr₂ : Reaches (LosesNothing fun h => BitVec.ofNat 256 h.val) s₂ := by
    refine hr₁.step h₂ (losesNothing_importBlock hbad₁ (by rw [hfuture₁]; exact Finset.notMem_empty _) ?_)
    rw [hheld₁]
    decide
  have hr₃ := hr₂.step h₃ trivial
  have hr₄ : Reaches (LosesNothing fun h => BitVec.ofNat 256 h.val) s₄ := by
    refine hr₃.step h₄ fun work _ => ⟨?_, ?_⟩
    · intro b hb hdata
      have hmem : b.blockData ∈ s₃.bq.verifying.queue.map VerifiedBlock.blockData := mem_map_of_mem hb
      rw [hverifying₃] at hmem
      exact absurd (mem_singleton.1 hmem) hdata
    · intro front rest hqueue _
      rw [hqueue, map_cons, List.cons.injEq, map_eq_nil_iff] at hverifying₃
      rw [hverifying₃.2, hbad₃]
      exact ⟨Finset.notMem_empty _, fun b hb => absurd hb not_mem_nil⟩
  exact difficulty_exact determines_byte (hr₄.step h₅ trivial)

/-- A block of the future is imported, taken out when its time has come, and imported again. -/
def importTwice : List (Event (Fin 256)) :=
  [.importBlock (.atTime 0) [5, 0, 0] false, .tick 5, .importBlock (.atTime 5) [5, 0, 0] false]

/-- The block is counted twice. -/
theorem not_difficulty_exact : ¬ ∀ (d : Fin 256 → U256) (s : System (Fin 256)), Determines d →
    Reaches (fun _ _ => True) s → s.bq.difficulty.toNat = totalDifficulty d s.bq.held := by
  intro h
  obtain ⟨s, hs⟩ : ∃ s, run {} importTwice = some s := Option.isSome_iff_exists.1 (by decide +kernel)
  have hend : (run {} importTwice).map (fun s => (s.bq.difficulty, s.bq.held)) = some (10, {5}) := by decide +kernel
  rw [hs] at hend
  obtain ⟨hdifficulty, hheld⟩ := Prod.mk.inj (Option.some.inj hend)
  have hsum := h _ s determines_byte (Reaches.run .refl (fun _ _ _ => trivial) hs)
  rw [show s.bq.difficulty = 10 from hdifficulty, show s.bq.held = {5} from hheld] at hsum
  exact absurd hsum (by decide)

end System

end Kmdx
