import Kmdx.QueueRun

/-!
# Which blocks are known to be bad

A block is to blame if its verification threw, if `doneDrain` reported it, or if its parent is to blame. As
long as `removeIf` returns what it removes, nothing else gets into `m_knownBad` or is taken out of a queue by
`updateBad` (`System.only_bad_condemned`). Where it does not, a good block is blamed instead of the bad one
in front of it (`System.not_only_bad_condemned`).
-/

namespace Kmdx

open RemoveIf List
open JobTrack (Job)

variable {H : Type}

/-- A block that is to blame, or that descends from one through the blocks imported. -/
inductive ToBlame (blamed : List H) (imported : List (Job H)) : H → Prop
  | blamed {h} : h ∈ blamed → ToBlame blamed imported h
  | child {j : Job H} : j ∈ imported → ToBlame blamed imported j.parent → ToBlame blamed imported j.hash

theorem ToBlame.mono {blamed blamed' : List H} {imported imported' : List (Job H)} {h : H}
    (hb : ToBlame blamed imported h) (hblamed : blamed ⊆ blamed') (himported : imported ⊆ imported') :
    ToBlame blamed' imported' h := by
  induction hb with
  | blamed h => exact .blamed (hblamed h)
  | child hj _ ih => exact .child (himported hj) ih

def System.Bad (s : System H) (h : H) : Prop := ToBlame s.blamed s.imported h

variable [BlockRlp H]

/-- The data of the block is what its hashes say. -/
def UnverifiedBlock.Parsed (b : UnverifiedBlock H) : Prop :=
  ∃ info : BlockHeader H, headerOf b.blockData = some info ∧ info.hash = b.hash ∧ info.parentHash = b.parentHash

namespace BlockQueue

/-- With `B` for the bad blocks and `I` for the imported ones: only bad blocks are known to be bad, and all
that is queued was imported. -/
structure Blames (B : H → Prop) (I : Job H → Prop) (s : BlockQueue H) : Prop where
  knownBad : ∀ h ∈ s.knownBad, B h
  verified : ∀ b ∈ s.verified.queue, I ⟨b.verified.info.hash, b.verified.info.parentHash⟩
  verifying : ∀ b ∈ s.verifying.queue, I ⟨b.job, b.verified.info.parentHash⟩
  unverified : ∀ b ∈ s.unverified.queue, I ⟨b.hash, b.parentHash⟩ ∧ b.Parsed
  unknown : ∀ e ∈ s.unknown.map, I ⟨e.hash, e.key⟩ ∧ UnverifiedBlock.Parsed ⟨e.hash, e.key, e.blockData⟩

/-- What `s'` no longer has of the queues of `s` is bad. -/
structure LosesOnly (B : H → Prop) (s s' : BlockQueue H) : Prop where
  verified : ∀ b ∈ s.verified.queue, b ∈ s'.verified.queue ∨ B b.verified.info.hash
  verifying : ∀ b ∈ s.verifying.queue, b ∈ s'.verifying.queue ∨ B b.job
  unverified : ∀ b ∈ s.unverified.queue, b ∈ s'.unverified.queue ∨ B b.hash

variable {B : H → Prop} {I : Job H → Prop} {s s' s'' : BlockQueue H}

theorem LosesOnly.refl (s : BlockQueue H) : LosesOnly B s s :=
  ⟨fun _ => .inl, fun _ => .inl, fun _ => .inl⟩

theorem LosesOnly.trans (h : LosesOnly B s s') (h' : LosesOnly B s' s'') : LosesOnly B s s'' :=
  ⟨fun b hb => (h.verified b hb).elim (h'.verified b) .inr, fun b hb => (h.verifying b hb).elim (h'.verifying b) .inr,
    fun b hb => (h.unverified b hb).elim (h'.unverified b) .inr⟩

variable [LinearOrder H]

theorem Blames.collectUnknownBad (hB : ∀ j, I j → B j.parent → B j.hash) {badQueue : List H}
    (hq : ∀ h ∈ badQueue, B h) (hs : Blames B I s) : Blames B I (collectUnknownBad badQueue s) := by
  induction badQueue, s using collectUnknownBad.induct with
  | case1 s => rwa [BlockQueue.collectUnknownBad]
  | case2 s bad badQueue removed s₁ ih =>
    rw [BlockQueue.collectUnknownBad]
    have hremoved : ∀ h ∈ removed.map Prod.fst, B h := by
      intro h hh
      obtain ⟨⟨h, data⟩, hmem, rfl⟩ := mem_map.1 hh
      obtain ⟨e, he, heq⟩ := mem_map.1 hmem
      obtain ⟨he, hkey⟩ := mem_filter.1 he
      obtain ⟨rfl, rfl⟩ := Prod.mk.inj heq
      refine hB _ (hs.unknown e he).1 ?_
      rw [show e.key = bad by simpa using hkey]
      exact hq bad (by simp)
    refine ih (fun h hh => ?_) ?_
    · rcases mem_append.1 hh with hh | hh
      · exact hq h (by simp [hh])
      · exact hremoved h hh
    · rw [foldl_noteBad]
      refine ⟨fun h hh => ?_, hs.verified, hs.verifying, hs.unverified, fun e he => ?_⟩
      · rcases Finset.mem_union.1 hh with hh | hh
        · exact hs.knownBad h hh
        · exact hremoved h (mem_toFinset.1 hh)
      · exact hs.unknown e (mem_filter.1 he).1

theorem Blames.condemn (hB : ∀ j, I j → B j.parent → B j.hash) {hash : H} (hh : B hash) (hs : Blames B I s) :
    Blames B I (s.condemn hash) := by
  refine Blames.collectUnknownBad hB (by simpa using hh) { hs with knownBad := fun h hm => ?_ }
  rcases Finset.mem_insert.1 hm with rfl | hm
  · exact hh
  · exact hs.knownBad h hm

theorem Blames.foldl_condemn (hB : ∀ j, I j → B j.parent → B j.hash) {T : Type} {f : T → H} {removed : List T}
    (hr : ∀ t ∈ removed, B (f t)) (hs : Blames B I s) :
    Blames B I (removed.foldl (fun s t => s.condemn (f t)) s) := by
  induction removed generalizing s with
  | nil => exact hs
  | cons t removed ih => exact ih (fun u hu => hr u (by simp [hu])) (hs.condemn hB (hr t (by simp)))

/-- In a turn of the loop no block in `m_verifying` is taken for another one that is bad. -/
structure BlamesRight (s : BlockQueue H) : Prop extends s.BadAtEnd where
  uncles : ∀ b ∈ s.verifying.queue, b.blockData ≠ [] →
    b.verified.info.sha3Uncles ∉ s.sweepVerified.1.sweepUnverified.1.knownBad

section

variable {T : Type} [Movable T] {q : SizedBlockQueue T} {p : T → Bool} {t : T}

/-- What is taken out of one queue. -/
theorem mem_removeIf_or (ht : t ∈ q.queue) : t ∈ (q.removeIf p).2.queue ∨ p t = true := by
  rw [SizedBlockQueue.queue_removeIf, mem_filter]
  by_cases hp : p t <;> simp [ht, hp]

theorem mem_of_mem_removeIf (ht : t ∈ (q.removeIf p).2.queue) : t ∈ q.queue := by
  rw [SizedBlockQueue.queue_removeIf] at ht
  exact (mem_filter.1 ht).1

theorem of_mem_removed (hp : AtEnd p q.queue) (ht : t ∈ (q.removeIf p).1) : t ∈ q.queue ∧ p t = true := by
  rw [show (q.removeIf p).1 = q.queue.filter p from loop_snd_of_atEnd hp] at ht
  exact mem_filter.1 ht

end

section

variable (hB : ∀ j, I j → B j.parent → B j.hash) (hs : Blames B I s)
include hB hs

theorem Blames.of_isBadVerified {b : VerifiedBlock H}
    (hb : b ∈ s.verified.queue) (hbad : s.isBadVerified b = true) : B b.verified.info.hash := by
  rcases Bool.or_eq_true_iff.1 hbad with h | h
  · exact hB _ (hs.verified b hb) (hs.knownBad _ (by simpa using h))
  · exact hs.knownBad _ (by simpa using h)

theorem Blames.of_isBadUnverified
    {b : UnverifiedBlock H} (hb : b ∈ s.unverified.queue) (hbad : s.isBadUnverified b = true) : B b.hash := by
  rcases Bool.or_eq_true_iff.1 hbad with h | h
  · exact hB _ (hs.unverified b hb).1 (hs.knownBad _ (by simpa using h))
  · exact hs.knownBad _ (by simpa using h)

theorem Blames.of_isBadVerifying {b : VerifiedBlock H} (hb : b ∈ s.verifying.queue)
    (huncles : b.blockData ≠ [] → b.verified.info.sha3Uncles ∉ s.knownBad)
    (hbad : s.isBadVerifying b = true) : B b.job := by
  rcases Bool.or_eq_true_iff.1 hbad with h | h
  · exact hB _ (hs.verifying b hb) (hs.knownBad _ (by simpa using h))
  · have hdata : b.blockData = [] := by
      by_contra hdata
      exact huncles hdata (by simpa using h)
    rw [VerifiedBlock.job, if_neg (by simp [hdata])]
    exact hs.knownBad _ (by simpa using h)

theorem Blames.sweepVerified (hend : AtEnd s.isBadVerified s.verified.queue) :
    Blames B I s.sweepVerified.1 ∧ LosesOnly B s s.sweepVerified.1 := by
  constructor
  · refine Blames.foldl_condemn hB (fun b hb => ?_)
      { hs with verified := fun b hb => hs.verified b (mem_of_mem_removeIf hb) }
    obtain ⟨hmem, hbad⟩ := of_mem_removed hend hb
    exact hs.of_isBadVerified hB hmem hbad
  · obtain ⟨readySet, unknown, unknownSet, knownBad, h⟩ := s.exists_sweepVerified
    rw [h]
    exact { LosesOnly.refl s with
      verified := fun b hb => (mem_removeIf_or hb).imp_right (hs.of_isBadVerified hB hb) }

theorem Blames.sweepUnverified (hend : AtEnd s.isBadUnverified s.unverified.queue) :
    Blames B I s.sweepUnverified.1 ∧ LosesOnly B s s.sweepUnverified.1 := by
  constructor
  · refine Blames.foldl_condemn hB (fun b hb => ?_)
      { hs with unverified := fun b hb => hs.unverified b (mem_of_mem_removeIf hb) }
    obtain ⟨hmem, hbad⟩ := of_mem_removed hend hb
    exact hs.of_isBadUnverified hB hmem hbad
  · obtain ⟨readySet, unknown, unknownSet, knownBad, h⟩ := s.exists_sweepUnverified
    rw [h]
    exact { LosesOnly.refl s with
      unverified := fun b hb => (mem_removeIf_or hb).imp_right (hs.of_isBadUnverified hB hb) }

theorem Blames.sweepVerifying
    (huncles : ∀ b ∈ s.verifying.queue, b.blockData ≠ [] → b.verified.info.sha3Uncles ∉ s.knownBad)
    (hend : AtEnd s.isBadVerifying s.verifying.queue) :
    Blames B I s.sweepVerifying.1 ∧ LosesOnly B s s.sweepVerifying.1 := by
  constructor
  · refine Blames.foldl_condemn hB (fun b hb => ?_)
      { hs with verifying := fun b hb => hs.verifying b (mem_of_mem_removeIf hb) }
    obtain ⟨hmem, hbad⟩ := of_mem_removed hend hb
    exact hs.of_isBadVerifying hB hmem (huncles b hmem) hbad
  · obtain ⟨readySet, unknown, unknownSet, knownBad, h⟩ := s.exists_sweepVerifying
    rw [h]
    exact { LosesOnly.refl s with
      verifying := fun b hb => (mem_removeIf_or hb).imp_right (hs.of_isBadVerifying hB hb (huncles b hb)) }

theorem Blames.sweep (hright : s.BlamesRight) : Blames B I s.sweep.1 ∧ LosesOnly B s s.sweep.1 := by
  obtain ⟨_, _, _, _, h₁⟩ := s.exists_sweepVerified
  obtain ⟨_, _, _, _, h₂⟩ := s.sweepVerified.1.exists_sweepUnverified
  have hunverified : s.sweepVerified.1.unverified = s.unverified := by rw [h₁]
  have hverifying : s.sweepVerified.1.sweepUnverified.1.verifying = s.verifying := by rw [h₂, h₁]
  obtain ⟨hs₁, hl₁⟩ := hs.sweepVerified hB hright.verified
  obtain ⟨hs₂, hl₂⟩ := hs₁.sweepUnverified hB (by rw [hunverified]; exact hright.unverified)
  obtain ⟨hs₃, hl₃⟩ := hs₂.sweepVerifying hB (by rw [hverifying]; exact hright.uncles)
    (by rw [hverifying]; exact hright.verifying)
  exact ⟨hs₃, hl₁.trans (hl₂.trans hl₃)⟩

end

theorem Blames.updateBadLoop (hB : ∀ j, I j → B j.parent → B j.hash) (h : Throughout BlamesRight s)
    (hs : Blames B I s) : Blames B I (updateBadLoop s) ∧ LosesOnly B s (updateBadLoop s) := by
  induction h with
  | turn hright _ ih =>
    obtain ⟨hsweep, hloses⟩ := hs.sweep hB hright
    rw [BlockQueue.updateBadLoop]
    split
    · obtain ⟨hloop, hloses'⟩ := ih ‹_› hsweep
      exact ⟨hloop, hloses.trans hloses'⟩
    · exact ⟨hsweep, hloses⟩

theorem LosesOnly.collectUnknownBad (badQueue : List H) : LosesOnly B s (collectUnknownBad badQueue s) := by
  obtain ⟨unknown, unknownSet, knownBad, h⟩ := exists_collectUnknownBad badQueue s
  rw [h]
  exact ⟨fun _ => .inl, fun _ => .inl, fun _ => .inl⟩

theorem Blames.updateBad (hB : ∀ j, I j → B j.parent → B j.hash) {bad : H} (hbad : B bad)
    (h : Throughout BlamesRight (BlockQueue.collectUnknownBad [bad] s)) (hs : Blames B I s) :
    Blames B I (s.updateBad bad) ∧ LosesOnly B s (s.updateBad bad) := by
  obtain ⟨hloop, hloses⟩ := (hs.collectUnknownBad hB (by simpa using hbad)).updateBadLoop hB h
  exact ⟨hloop, (LosesOnly.collectUnknownBad [bad]).trans hloses⟩

theorem Blames.foldl_updateBad (hB : ∀ j, I j → B j.parent → B j.hash) {bad : List H} (hbad : ∀ h ∈ bad, B h)
    (h : ThroughoutAll BlamesRight s bad) (hs : Blames B I s) :
    Blames B I (bad.foldl BlockQueue.updateBad s) ∧ LosesOnly B s (bad.foldl BlockQueue.updateBad s) := by
  induction bad generalizing s with
  | nil => exact ⟨hs, .refl s⟩
  | cons b bad ih =>
    obtain ⟨hs', hl⟩ := hs.updateBad hB (hbad b (by simp)) h.1
    obtain ⟨hs'', hl'⟩ := ih (fun h hh => hbad h (by simp [hh])) h.2 hs'
    exact ⟨hs'', hl.trans hl'⟩

/-! ### The verifiers -/

theorem Blames.note (hs : Blames B I s) {h : H} (hh : B h) (readySet : Finset H) :
    Blames B I { s with readySet, knownBad := insert h s.knownBad } :=
  { hs with knownBad := fun x hx => (Finset.mem_insert.1 hx).elim (fun e => e ▸ hh) (hs.knownBad x) }

omit [LinearOrder H] in
theorem Blames.withVerifying (hs : Blames B I s) {verifying : SizedBlockQueue (VerifiedBlock H)}
    (h : ∀ b ∈ verifying.queue, b ∈ s.verifying.queue ∨ I ⟨b.job, b.verified.info.parentHash⟩) :
    Blames B I { s with verifying } :=
  { hs with verifying := fun b hb => (h b hb).elim (hs.verifying b) id }

theorem Blames.settle (hB : ∀ j, I j → B j.parent → B j.hash) (hs : Blames B I s) {b : VerifiedBlock H}
    (hb : I ⟨b.verified.info.hash, b.verified.info.parentHash⟩) : Blames B I (s.settle b) := by
  rw [BlockQueue.settle]
  split
  · exact hs.note (hB _ hb (hs.knownBad _ ‹_›)) _
  · refine { hs with verified := fun c hc => ?_ }
    rcases mem_append.1 hc with hc | hc
    · exact hs.verified c hc
    · rwa [mem_singleton.1 hc]

theorem Blames.drainVerified (hB : ∀ j, I j → B j.parent → B j.hash) (hs : Blames B I s) :
    Blames B I s.drainVerified := by
  induction s using BlockQueue.drainVerified.induct with
  | case1 s h => rw [BlockQueue.drainVerified, h]; exact hs
  | case2 s block verifying h hdata => rw [BlockQueue.drainVerified, h]; simpa [hdata] using hs
  | case3 s block verifying h hdata ih =>
    rw [BlockQueue.drainVerified, h]
    simp only [hdata]
    have hqueue := SizedBlockQueue.queue_of_dequeue h
    refine ih ((hs.withVerifying fun b hb => .inl (by simp [hqueue, hb])).settle hB ?_)
    rw [← VerifiedBlock.job_of_data hdata]
    exact hs.verifying block (by simp [hqueue])

omit [LinearOrder H] in
theorem Blames.takeWork [Inhabited H] (hs : Blames B I s) {work : UnverifiedBlock H}
    (h : s.takeWork = some (work, s')) :
    Blames B I s' ∧ I ⟨work.hash, work.parentHash⟩ ∧ work.Parsed := by
  obtain ⟨⟨w, unverified⟩, hd, heq⟩ := Option.map_eq_some_iff.1 h
  obtain ⟨rfl, rfl⟩ := Prod.mk.inj heq
  have hqueue := SizedBlockQueue.queue_of_dequeue hd
  have hwork := hs.unverified w (by simp [hqueue])
  have hverifying : ∀ b ∈ (s.verifying.enqueue ⟨⟨.placeholder w.hash w.parentHash, []⟩, []⟩).queue,
      b ∈ s.verifying.queue ∨ I ⟨b.job, b.verified.info.parentHash⟩ := by
    intro b hb
    refine (mem_append.1 hb).imp_right fun hb => ?_
    rw [mem_singleton.1 hb]
    exact hwork.1
  exact ⟨{ hs.withVerifying hverifying with unverified := fun b hb => hs.unverified b (by simp [hqueue, hb]) }, hwork⟩

theorem Blames.verifyFailed (hB : ∀ j, I j → B j.parent → B j.hash) (hs : Blames B I s)
    {work : UnverifiedBlock H} (hwork : B work.hash) : Blames B I (s.verifyFailed work) :=
  Blames.drainVerified hB
    ((hs.withVerifying fun _ hb => .inl (mem_of_mem_removeIf hb)).note hwork (s.readySet.erase work.hash))

omit [LinearOrder H] [BlockRlp H] in
theorem mem_replaceFirst {p : VerifiedBlock H → Bool} {t b : VerifiedBlock H} {l : List (VerifiedBlock H)}
    (hb : b ∈ SizedBlockQueue.replaceFirst p t l) : b ∈ l ∨ b = t := by
  induction l with
  | nil => cases hb
  | cons u l ih =>
    rw [SizedBlockQueue.replaceFirst] at hb
    split at hb
    · rcases mem_cons.1 hb with rfl | hb
      · exact .inr rfl
      · exact .inl (mem_cons_of_mem _ hb)
    · rcases mem_cons.1 hb with rfl | hb
      · exact .inl mem_cons_self
      · exact (ih hb).imp_left (mem_cons_of_mem _)

omit [BlockRlp H] in
theorem mem_replace {q : SizedBlockQueue (VerifiedBlock H)} {hash : H} {t b : VerifiedBlock H}
    (hb : b ∈ (q.replace hash t).2.queue) : b ∈ q.queue ∨ b = t := by
  rw [SizedBlockQueue.replace] at hb
  split at hb
  · exact .inl hb
  · exact mem_replaceFirst hb

theorem Blames.verifySucceeded (hB : ∀ j, I j → B j.parent → B j.hash) (hs : Blames B I s)
    {work : UnverifiedBlock H} {res : VerifiedBlock H} (hdata : res.blockData ≠ [])
    (hres : I ⟨res.verified.info.hash, res.verified.info.parentHash⟩) : Blames B I (s.verifySucceeded work res) := by
  have hreplace : Blames B I { s with verifying := (s.verifying.replace work.hash res).2 } := by
    refine hs.withVerifying fun b hb => (mem_replace hb).imp_right ?_
    rintro rfl
    rwa [VerifiedBlock.job_of_data (by simpa using hdata)]
  rw [BlockQueue.verifySucceeded]
  split
  · rename_i front verifying h
    split
    · have hqueue := SizedBlockQueue.queue_of_dequeue h
      exact ((hs.withVerifying fun b hb => .inl (by simp [hqueue, hb])).settle hB hres).drainVerified hB
    · exact hreplace
  · exact hreplace

/-! ### The other functions -/

/-- Blocks of one parent go from `m_unknown` to `m_unverified`. -/
theorem Blames.releaseAll (hs : Blames B I s) (parent : H) : Blames B I (s.releaseAll parent).2 := by
  rw [releaseAll_snd]
  refine ⟨hs.knownBad, hs.verified, hs.verifying, fun b hb => ?_, fun e he => hs.unknown e (mem_filter.1 he).1⟩
  rw [queue_foldl_enqueue] at hb
  rcases mem_append.1 hb with hb | hb
  · exact hs.unverified b hb
  · obtain ⟨_, hmem, rfl⟩ := mem_map.1 hb
    obtain ⟨e, he, rfl⟩ := mem_map.1 hmem
    obtain ⟨he', hkey⟩ := mem_filter.1 he
    obtain rfl : e.key = parent := by simpa using hkey
    exact hs.unknown e he'

theorem Blames.noteReadyLoop {goodQueue : List H} (hs : Blames B I s) :
    Blames B I (noteReadyLoop goodQueue s) :=
  noteReadyLoop_preserves (fun _ parent hs => hs.releaseAll parent) goodQueue hs

theorem Blames.retryAllUnknown (hs : Blames B I s) : Blames B I s.retryAllUnknown :=
  retryAllUnknown_preserves (fun _ parent hs => hs.releaseAll parent) hs

theorem Blames.drain (hs : Blames B I s) (max : BitVec 32) : Blames B I (s.drain max).2 := by
  have hfold : ∀ (out : List (VerifiedBlock H)) (s : BlockQueue H), ∃ drainingSet drainingDifficulty readySet,
      out.foldl noteDraining s = { s with drainingSet, drainingDifficulty, readySet } := by
    intro out
    induction out with
    | nil => exact fun s => ⟨_, _, _, rfl⟩
    | cons b out ih => exact fun s => ih _
  rw [BlockQueue.drain]
  split
  · split
    · exact hs
    · rename_i out verified h
      obtain ⟨_, hr⟩ := Option.ite_none_right_eq_some.1 h
      obtain ⟨-, rfl⟩ := Prod.mk.inj (Option.some.inj hr)
      obtain ⟨_, _, _, heq⟩ := hfold out { s with verified := _, drainingDifficulty := 0 }
      rw [heq]
      exact { hs with verified := fun b hb => hs.verified b (mem_of_mem_drop hb) }
  · exact hs

omit [LinearOrder H] in
theorem Blames.mono {B' : H → Prop} {I' : Job H → Prop} (hs : Blames B I s) (hB : ∀ h, B h → B' h)
    (hI : ∀ j, I j → I' j) : Blames B' I' s :=
  ⟨fun h hh => hB h (hs.knownBad h hh), fun b hb => hI _ (hs.verified b hb), fun b hb => hI _ (hs.verifying b hb),
    fun b hb => (hs.unverified b hb).imp_left (hI _), fun e he => (hs.unknown e he).imp_left (hI _)⟩

omit [BlockRlp H] [LinearOrder H] in
theorem mem_insertEntry {K : Type} [LinearOrder K] {e x : MapEntry K H} {l : List (MapEntry K H)} :
    x ∈ SizedBlockMap.insertEntry e l ↔ x = e ∨ x ∈ l := by
  induction l with
  | nil => simp [SizedBlockMap.insertEntry]
  | cons y l ih =>
    rw [SizedBlockMap.insertEntry]
    split
    · simp
    · simp [ih, or_left_comm]

/-- The functions that do not condemn what is queued keep what they find. -/
theorem Blames.importBlock (hB : ∀ j, I j → B j.parent → B j.hash) (hs : Blames B I s) (env : ImportEnv H)
    (block : Bytes) (isOurs : Bool)
    (hI : ∀ bi r, headerOf block = some bi → (s.importBlock env block isOurs).1 = some r → r.isQueued = true →
      I ⟨bi.hash, bi.parentHash⟩)
    (h : (Event.importBlock env block isOurs).Throughout BlamesRight s) :
    Blames B I (s.importBlock env block isOurs).2 ∧ LosesOnly B s (s.importBlock env block isOurs).2 := by
  rcases s.importBlock_cases env block isOurs with ⟨heq, -⟩ | ⟨bi, htaken, hcases⟩
  · rw [heq]
    exact ⟨hs, .refl s⟩
  rcases hcases with ⟨-, r, -, heq⟩ | ⟨hfuture, hbad, heq⟩ | ⟨-, -, -, heq⟩ | ⟨-, -, -, heq⟩ <;> rw [heq]
  · exact ⟨{ hs with }, ⟨fun _ => .inl, fun _ => .inl, fun _ => .inl⟩⟩
  · have hhash : B bi.hash := hB _ (hI bi _ htaken.header (congrArg Prod.fst heq) rfl) (hs.knownBad _ hbad)
    obtain ⟨hs', hl⟩ := (hs.note hhash s.readySet).updateBad hB hhash (h bi htaken hfuture hbad)
    exact ⟨hs', hl.verified, hl.verifying, hl.unverified⟩
  · have hi := hI bi _ htaken.header (congrArg Prod.fst heq) rfl
    refine ⟨{ hs with unknown := fun e he => ?_ }, ⟨fun _ => .inl, fun _ => .inl, fun _ => .inl⟩⟩
    rcases mem_insertEntry.1 he with rfl | he
    · exact ⟨hi, bi, htaken.header, rfl, rfl⟩
    · exact hs.unknown e he
  · have hi := hI bi _ htaken.header (congrArg Prod.fst heq) rfl
    obtain ⟨unverified, unknown, unknownSet, readySet, hnote, hpre⟩ := exists_noteReadyLoop [bi.hash]
      { s with
        unverified := s.unverified.enqueue ⟨bi.hash, bi.parentHash, block⟩
        readySet := insert bi.hash s.readySet
        difficulty := s.difficulty + bi.difficulty }
    refine ⟨Blames.noteReadyLoop { hs with unverified := fun b hb => ?_ }, ?_⟩
    · rcases mem_append.1 hb with hb | hb
      · exact hs.unverified b hb
      · rw [mem_singleton.1 hb]
        exact ⟨hi, bi, htaken.header, rfl, rfl⟩
    · rw [noteReady, hnote]
      exact ⟨fun _ => .inl, fun _ => .inl,
        fun b hb => .inl (hpre.subset (mem_append_left _ hb))⟩

theorem Blames.doneDrain (hB : ∀ j, I j → B j.parent → B j.hash) (hs : Blames B I s) (bad : List H)
    (hbad : ∀ h ∈ bad, B h) (h : (Event.doneDrain bad).Throughout BlamesRight s) :
    Blames B I (s.doneDrain bad).2 ∧ LosesOnly B s (s.doneDrain bad).2 := by
  have hreported : Blames B I (s.reported bad) := by
    refine { hs with knownBad := fun x hx => ?_ }
    rcases Finset.mem_union.1 hx with hx | hx
    · exact hs.knownBad x hx
    · exact hbad x (mem_toFinset.1 hx)
  obtain ⟨hs', hl⟩ := hreported.foldl_updateBad hB hbad h
  rw [doneDrain_eq]
  exact ⟨hs', hl.verified, hl.verifying, hl.unverified⟩

omit [LinearOrder H] in
theorem Blames.tick (hs : Blames B I s) (t : Nat) : Blames B I (s.tick t).2 := by
  rw [BlockQueue.tick]
  split
  · exact hs
  · split
    · exact hs
    · exact { hs with }

omit [LinearOrder H] in
theorem Blames.clear (hs : Blames B I s) : Blames B I s.clear where
  knownBad := hs.knownBad
  verified _ hb := absurd hb not_mem_nil
  verifying _ hb := absurd hb not_mem_nil
  unverified _ hb := absurd hb not_mem_nil
  unknown _ he := absurd he not_mem_nil

end BlockQueue

namespace System

variable [LinearOrder H] [Inhabited H]

/-- What `updateBad` is called in finds the blocks that it has to take out at the ends of their queues. -/
def Blameless (s : System H) (e : Event H) : Prop := e.Throughout BlockQueue.BlamesRight s.bq

/-- Only bad blocks are known to be bad; what is queued or being verified was imported. -/
structure Blames (s : System H) : Prop where
  bq : s.bq.Blames s.Bad (· ∈ s.imported)
  working : ∀ work ∈ s.working, ⟨work.hash, work.parentHash⟩ ∈ s.imported ∧ work.Parsed

omit [Inhabited H] [LinearOrder H] in
theorem Blames.init : Blames ({} : System H) where
  bq := by
    constructor
    · exact fun h hh => absurd hh (Finset.notMem_empty h)
    all_goals exact fun b hb => absurd hb not_mem_nil
  working := fun b hb => absurd hb not_mem_nil

omit [LinearOrder H] [Inhabited H] in
/-- More blocks were imported, or blamed. -/
theorem Blames.mono {s : System H} (s' : System H) (hs : s.Blames) (hblamed : s.blamed ⊆ s'.blamed)
    (himported : s.imported ⊆ s'.imported) :
    s.bq.Blames s'.Bad (· ∈ s'.imported) ∧
      ∀ work ∈ s.working, ⟨work.hash, work.parentHash⟩ ∈ s'.imported ∧ work.Parsed :=
  ⟨hs.bq.mono (fun _ h => ToBlame.mono h hblamed himported) (fun _ h => himported h),
    fun work hw => (hs.working work hw).imp_left (himported ·)⟩

/-- A step that meets the condition blames only blocks that are to blame, and an import or a `doneDrain` takes
only such blocks out of the queues. -/
theorem Blames.step {s s' : System H} {e : Event H} (hs : s.Blames) (hC : s.Blameless e) (h : s.step e = some s') :
    s'.Blames ∧ ((∃ env block isOurs, e = .importBlock env block isOurs) ∨ (∃ bad, e = .doneDrain bad) →
      s.bq.LosesOnly s'.Bad s'.bq) := by
  have hB : ∀ j, j ∈ s'.imported → s'.Bad j.parent → s'.Bad j.hash := fun _ => .child
  cases e with
  | importBlock env block isOurs =>
    obtain ⟨hbq, hworking⟩ := hs.mono s' (by cases h; exact List.Subset.refl _) (by
      cases h
      dsimp only
      split
      · split
        · exact subset_cons_self _ _
        · exact List.Subset.refl _
      · exact List.Subset.refl _)
    obtain ⟨hbq', hl⟩ := hbq.importBlock hB env block isOurs (by
      intro bi r hbi hr hqueued
      cases h
      simp only [hbi, hr, hqueued, if_true]
      exact mem_cons_self) hC
    cases h
    exact ⟨⟨hbq', hworking⟩, fun _ => hl⟩
  | doneDrain bad =>
    obtain ⟨hbq, hworking⟩ := hs.mono s' (by cases h; exact subset_append_right _ _)
      (by cases h; exact List.Subset.refl _)
    obtain ⟨hbq', hl⟩ := hbq.doneDrain hB bad
      (fun b hb => .blamed (by cases h; exact mem_append_left _ hb)) hC
    cases h
    exact ⟨⟨hbq', hworking⟩, fun _ => hl⟩
  | tick t =>
    cases h
    exact ⟨⟨hs.bq.tick t, hs.working⟩, nofun⟩
  | takeWork =>
    obtain ⟨⟨work, bq⟩, htake, rfl⟩ := Option.map_eq_some_iff.1 h
    obtain ⟨hbq, hwork⟩ := hs.bq.takeWork htake
    refine ⟨⟨hbq, fun w hw => ?_⟩, nofun⟩
    rcases mem_cons.1 hw with rfl | hw
    · exact hwork
    · exact hs.working w hw
  | verifyFailed i =>
    obtain ⟨work, hi, rfl⟩ := Option.map_eq_some_iff.1 h
    obtain ⟨hbq, hworking⟩ := hs.mono { s with blamed := work.hash :: s.blamed } (subset_cons_self _ _)
      (List.Subset.refl _)
    exact ⟨⟨hbq.verifyFailed hB (.blamed mem_cons_self),
      fun w hw => hworking w (mem_of_mem_eraseIdx hw)⟩, nofun⟩
  | verifySucceeded i transactions =>
    obtain ⟨work, hi, h⟩ := Option.bind_eq_some_iff.1 h
    obtain ⟨info, hinfo, rfl⟩ := Option.map_eq_some_iff.1 h
    obtain ⟨himported, info', hparsed, hhash, hparent⟩ := hs.working work (List.mem_of_getElem? hi)
    obtain rfl : info' = info := Option.some.inj (hparsed.symm.trans hinfo)
    refine ⟨⟨hs.bq.verifySucceeded hB (fun hdata => ?_) (by rwa [hhash, hparent]),
      fun w hw => hs.working w (mem_of_mem_eraseIdx hw)⟩, nofun⟩
    change work.blockData = [] at hdata
    rw [hdata, BlockRlp.headerOf_nil] at hinfo
    exact nomatch hinfo
  | drain max =>
    cases h
    exact ⟨⟨hs.bq.drain max, hs.working⟩, nofun⟩
  | noteReady isKnown good =>
    cases h
    exact ⟨⟨hs.bq.noteReadyLoop, hs.working⟩, nofun⟩
  | retryAllUnknown isKnown =>
    cases h
    exact ⟨⟨hs.bq.retryAllUnknown, hs.working⟩, nofun⟩
  | clear =>
    cases h
    exact ⟨⟨hs.bq.clear, hs.working⟩, nofun⟩

/-- As long as the bad blocks are the last ones wherever `updateBad` looks for them, only bad blocks are known
to be bad or taken out as such; and `removeIf` returns what it removes exactly if that is at the end. -/
theorem only_bad_condemned :
    (∀ s : System H, Reaches Blameless s →
      (∀ h ∈ s.bq.knownBad, s.Bad h) ∧
      ∀ e s', s.Blameless e → s.step e = some s' →
        ((∃ env block isOurs, e = .importBlock env block isOurs) ∨ ∃ bad, e = .doneDrain bad) →
        s.bq.LosesOnly s'.Bad s'.bq) ∧
    (∀ (T : Type) [Movable T] (q : SizedBlockQueue T) (p : T → Bool),
      (q.removeIf p).2.queue = q.queue.filter (!p ·) ∧
      ((∀ t, p (moved t) = p t) → ((q.removeIf p).1 = q.queue.filter p ↔ AtEnd p q.queue))) := by
  refine ⟨fun s hs => ?_, fun T _ q p => ⟨q.queue_removeIf p, fun hp => removedRange_eq_filter_iff hp⟩⟩
  have hblames : s.Blames := Reaches.induction .init (fun s e s' hs hC he => (hs.step hC he).1) hs
  exact ⟨hblames.bq.knownBad, fun e s' hC he => (hblames.step hC he).2⟩

end System

namespace BlockQueue

instance (s : BlockQueue Nat) : Decidable s.BlamesRight :=
  decidable_of_iff ((AtEnd s.isBadVerified s.verified.queue ∧ AtEnd s.sweepVerified.1.isBadUnverified s.unverified.queue ∧
      AtEnd s.sweepVerified.1.sweepUnverified.1.isBadVerifying s.verifying.queue) ∧
      ∀ b ∈ s.verifying.queue, b.blockData ≠ [] → b.verified.info.sha3Uncles ∉ s.sweepVerified.1.sweepUnverified.1.knownBad)
    ⟨fun ⟨⟨hv, hu, hw⟩, h⟩ => ⟨⟨hv, hu, hw⟩, h⟩, fun ⟨⟨hv, hu, hw⟩, h⟩ => ⟨⟨hv, hu, hw⟩, h⟩⟩

/-- The loop takes `n` turns at most, and `BlamesRight` holds at each. -/
def blamesRight : Nat → BlockQueue Nat → Bool
  | 0, _ => false
  | n + 1, s => s.BlamesRight ∧ (s.sweep.2 = true → blamesRight n s.sweep.1)

theorem throughout_of_blamesRight {n : Nat} {s : BlockQueue Nat} (h : blamesRight n s = true) : Throughout BlamesRight s := by
  induction n generalizing s with
  | zero => cases h
  | succ n ih =>
    obtain ⟨hright, hrest⟩ := of_decide_eq_true h
    exact .turn hright fun hsweep => ih (hrest hsweep)

end BlockQueue
namespace System

def blameless (s : System Nat) : Event Nat → Bool
  | .importBlock _ _ _ => s.bq.knownBad = ∅
  | .doneDrain [bad] => (BlockQueue.collectUnknownBad [bad] (s.bq.reported [bad])).blamesRight 2
  | .doneDrain _ => false
  | _ => true

theorem blameless_of_check (s : System Nat) (e : Event Nat) (h : s.blameless e = true) : s.Blameless e := by
  cases e with
  | importBlock env block isOurs =>
    intro bi _ _ hparent
    rw [of_decide_eq_true h] at hparent
    exact absurd hparent (Finset.notMem_empty _)
  | doneDrain bad =>
    obtain _ | ⟨b, _ | _⟩ := bad
    · cases h
    · exact ⟨BlockQueue.throughout_of_blamesRight h, trivial⟩
    · cases h
  | _ => trivial

/-- A bad block, 3, is behind a good one, 4, in `m_unverified` when the parent of 3 is reported. -/
def badBehind : List (Event Nat) :=
  [.importBlock (.having [1]) [9, 1, 0] false, .takeWork, .verifySucceeded 0 [], .drain 1,
    .importBlock (.having [1]) [4, 1, 0] false, .importBlock (.having [1]) [3, 9, 0] false, .doneDrain [9]]

/-- Only 3 is condemned with its parent, and 4 stays; and behind 4 it is what `removeIf` returns. -/
theorem only_bad_condemned_at_end :
    (∃ s : System Nat, run {} badBehind = some s ∧ (s.bq.knownBad = {9, 3} ∧ s.bq.unverified.queue.map (·.hash) = [4]) ∧
      ∀ h ∈ s.bq.knownBad, s.Bad h) ∧
    ((⟨[⟨4, 1, [4]⟩, ⟨3, 9, [3]⟩], 2⟩ : SizedBlockQueue (UnverifiedBlock Nat)).removeIf (·.hash = 3)).1 =
      [⟨3, 9, [3]⟩] := by
  constructor
  · have hends : (runWhile blameless {} badBehind).map (fun s => decide (s.bq.knownBad = {9, 3} ∧
        s.bq.unverified.queue.map (·.hash) = [4])) = some true := by decide +kernel
    obtain ⟨s, hs, hends⟩ := Option.map_eq_some_iff.1 hends
    obtain ⟨hreaches, hrun⟩ := Reaches.runWhile .refl blameless_of_check hs
    exact ⟨s, hrun, of_decide_eq_true hends, ((only_bad_condemned (H := Nat)).1 s hreaches).1⟩
  · exact (((only_bad_condemned (H := Nat)).2 _ _ _).2 fun _ => rfl).2 (by decide)

/-- A good block, 4, is behind a bad one, 3, in `m_unverified` when the parent of 3 is reported. -/
def badInFront : List (Event Nat) :=
  [.importBlock (.having [1]) [9, 1, 0] false, .takeWork, .verifySucceeded 0 [], .drain 1,
    .importBlock (.having [1]) [3, 9, 0] false, .importBlock (.having [1]) [4, 1, 0] false, .doneDrain [9]]

theorem not_only_bad_condemned :
    ¬ ∀ s : System Nat, Reaches (fun _ _ => True) s → ∀ h ∈ s.bq.knownBad, s.Bad h := by
  intro h
  obtain ⟨s, hs⟩ : ∃ s, run {} badInFront = some s := Option.isSome_iff_exists.1 (by decide +kernel)
  have hghosts : (run {} badInFront).map (fun s => (s.blamed, s.imported)) =
      some ([9], [⟨4, 1⟩, ⟨3, 9⟩, ⟨9, 1⟩]) := by decide +kernel
  have hbad : (run {} badInFront).map (fun s => decide (4 ∈ s.bq.knownBad)) = some true := by decide +kernel
  rw [hs] at hghosts hbad
  obtain ⟨hblamed, himported⟩ := Prod.mk.inj (Option.some.inj hghosts)
  have hbad : 4 ∈ s.bq.knownBad := by simpa using hbad
  have hfour := h s (Reaches.run .refl (fun _ _ _ => trivial) hs) 4 hbad
  have hthree : ∀ x, s.Bad x → x = 9 ∨ x = 3 := by
    intro x hx
    induction hx with
    | blamed hx => exact .inl (by simpa [hblamed] using hx)
    | child hj _ ih =>
      simp only [himported, mem_cons, not_mem_nil, or_false] at hj
      rcases hj with rfl | rfl | rfl <;> simp_all
  exact absurd (hthree 4 hfour) (by decide)

end System

end Kmdx
