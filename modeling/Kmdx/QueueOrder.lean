import Mathlib.Data.List.TakeWhile
import Kmdx.QueueSets

/-!
# The order in which blocks are delivered

What the verifiers have in hand and the placeholders in `m_verifying` belong together (`System.InHand`), so
that a block in `m_verifying` waits only for blocks that are being verified. With that, and as long as each
block becomes ready after its parent, `drain` delivers parents before their children, and what was put into
`m_unverified` and is not bad is delivered once (`System.drained_in_order`). `retryAllUnknown` goes by the
parents' hashes: it may let a block in front of its parent (`System.not_drained_in_order`).
-/

namespace Kmdx

open RemoveIf JobTrack Relation List

variable {H : Type}

theorem mem_dropWhile_of_neg {T : Type} {p : T → Bool} {l : List T} {t : T} (ht : t ∈ l) (hp : p t = false) :
    t ∈ l.dropWhile p := by
  rw [← takeWhile_append_dropWhile (p := p) (l := l), mem_append] at ht
  refine ht.resolve_left fun h => ?_
  rw [mem_takeWhile_imp h] at hp
  cases hp

variable [BlockRlp H] [LinearOrder H]

namespace BlockQueue

variable {s s' s'' : BlockQueue H}

/-! ### What bad blocks do to `m_verifying` -/

/-- `m_verifying` loses blocks at its end, which are bad. -/
structure Shortens (s s' : BlockQueue H) : Prop where
  verifying : s'.verifying.queue <+: s.verifying.queue
  lost : ∀ b ∈ s.verifying.queue, b ∈ s'.verifying.queue ∨ b.job ∈ s'.knownBad
  knownBad : s.knownBad ⊆ s'.knownBad

omit [LinearOrder H] in
theorem Shortens.refl (s : BlockQueue H) : Shortens s s := ⟨prefix_rfl, fun _ => .inl, Finset.Subset.refl _⟩

omit [LinearOrder H] in
theorem Shortens.of_eq (hverifying : s'.verifying = s.verifying) (hknownBad : s.knownBad ⊆ s'.knownBad) : Shortens s s' :=
  ⟨hverifying ▸ prefix_rfl, fun _ hb => .inl (hverifying ▸ hb), hknownBad⟩

omit [LinearOrder H] in
theorem Shortens.trans (h : Shortens s s') (h' : Shortens s' s'') : Shortens s s'' :=
  ⟨h'.verifying.trans h.verifying,
    fun b hb => (h.lost b hb).elim (h'.lost b) fun hbad => .inr (h'.knownBad hbad),
    h.knownBad.trans h'.knownBad⟩

theorem shortens_collectUnknownBad (badQueue : List H) (s : BlockQueue H) :
    Shortens s (collectUnknownBad badQueue s) := by
  obtain ⟨_, _, _, h⟩ := exists_collectUnknownBad badQueue s
  have hmoves : Moves True (view {} s) (view {} (collectUnknownBad badQueue s)) := moves_collectUnknownBad _ _
  exact .of_eq (by rw [h]) (bad_subset_of_moves hmoves)

theorem shortens_condemn (s : BlockQueue H) (hash : H) : Shortens s (s.condemn hash) := by
  have hnote : Shortens s { s with knownBad := insert hash s.knownBad, readySet := s.readySet.erase hash } :=
    .of_eq rfl (Finset.subset_insert _ _)
  exact hnote.trans (shortens_collectUnknownBad _ _)

theorem mem_knownBad_condemn (s : BlockQueue H) (hash : H) : hash ∈ (s.condemn hash).knownBad :=
  (shortens_collectUnknownBad [hash]
    { s with knownBad := insert hash s.knownBad, readySet := s.readySet.erase hash }).knownBad
    (Finset.mem_insert_self _ _)

theorem shortens_foldl_condemn {T : Type} (f : T → H) (removed : List T) (s : BlockQueue H) :
    Shortens s (removed.foldl (fun s t => s.condemn (f t)) s) := by
  induction removed generalizing s with
  | nil => exact .refl s
  | cons t removed ih => exact (s.shortens_condemn (f t)).trans (ih _)

theorem mem_knownBad_foldl_condemn {T : Type} (f : T → H) {removed : List T} {t : T} (ht : t ∈ removed)
    (s : BlockQueue H) : f t ∈ (removed.foldl (fun s t => s.condemn (f t)) s).knownBad := by
  induction removed generalizing s with
  | nil => cases ht
  | cons u removed ih =>
    rcases mem_cons.1 ht with rfl | ht
    · exact (shortens_foldl_condemn f removed _).knownBad (s.mem_knownBad_condemn _)
    · exact ih ht _

theorem shortens_sweepVerifying (hend : AtEnd s.isBadVerifying s.verifying.queue) : Shortens s s.sweepVerifying.1 := by
  let s₁ := { s with verifying := (s.verifying.removeIf s.isBadVerifying).2 }
  have hcondemned : Shortens s₁ s.sweepVerifying.1 := shortens_foldl_condemn _ _ _
  have hverifying : s.sweepVerifying.1.verifying = (s.verifying.removeIf s.isBadVerifying).2 := by
    obtain ⟨_, _, _, _, h⟩ := s.exists_sweepVerifying
    rw [h]
  have hqueue := s.verifying.queue_removeIf s.isBadVerifying
  refine ⟨?_, fun b hb => ?_, hcondemned.knownBad⟩
  · rw [hverifying, hqueue]
    exact hend.filter_prefix
  · rw [hverifying, hqueue, mem_filter]
    by_cases hbad : s.isBadVerifying b
    · right
      rw [sweepVerifying_fst, removed_eq_filter hend]
      exact mem_knownBad_foldl_condemn VerifiedBlock.job (mem_filter.2 ⟨hb, hbad⟩) _
    · exact .inl ⟨hb, by simpa using hbad⟩

theorem shortens_sweep (h : s.BadAtEnd) : Shortens s s.sweep.1 := by
  obtain ⟨_, _, _, _, h₁⟩ := s.exists_sweepVerified
  obtain ⟨_, _, _, _, h₂⟩ := s.sweepVerified.1.exists_sweepUnverified
  have hverifying : s.sweepVerified.1.sweepUnverified.1.verifying = s.verifying := by rw [h₂, h₁]
  have hs₁ : Shortens s s.sweepVerified.1 := .of_eq (by rw [h₁]) (shortens_foldl_condemn _ _
    { s with verified := (s.verified.removeIf s.isBadVerified).2 }).knownBad
  have hs₂ : Shortens s.sweepVerified.1 s.sweepVerified.1.sweepUnverified.1 := .of_eq (by rw [h₂])
    (shortens_foldl_condemn _ _ { s.sweepVerified.1 with
      unverified := (s.sweepVerified.1.unverified.removeIf s.sweepVerified.1.isBadUnverified).2 }).knownBad
  exact hs₁.trans (hs₂.trans (shortens_sweepVerifying (by rw [hverifying]; exact h.verifying)))

theorem shortens_updateBadLoop (h : Throughout BadAtEnd s) : Shortens s (updateBadLoop s) := by
  induction h with
  | turn hend _ ih =>
    rw [updateBadLoop]
    split
    · exact (shortens_sweep hend).trans (ih ‹_›)
    · exact shortens_sweep hend

theorem shortens_updateBad {bad : H} (h : Throughout BadAtEnd (collectUnknownBad [bad] s)) :
    Shortens s (s.updateBad bad) := (shortens_collectUnknownBad _ _).trans (shortens_updateBadLoop h)

theorem shortens_foldl_updateBad {bad : List H} (h : ThroughoutAll BadAtEnd s bad) :
    Shortens s (bad.foldl updateBad s) := by
  induction bad generalizing s with
  | nil => exact .refl s
  | cons b bad ih => exact (shortens_updateBad h.1).trans (ih h.2)

/-! ### What the verifiers do to `m_verifying` -/

omit [BlockRlp H] [LinearOrder H] in
/-- The block is verified. -/
def HasData (b : VerifiedBlock H) : Bool := !b.blockData.isEmpty

omit [BlockRlp H] [LinearOrder H] in
theorem queue_of_dequeue_none {q : SizedBlockQueue (VerifiedBlock H)} (h : q.dequeue = none) : q.queue = [] := by
  rcases q with ⟨_ | ⟨u, l⟩, size⟩
  · rfl
  · cases h

theorem knownBad_settle (s : BlockQueue H) (b : VerifiedBlock H) : s.knownBad ⊆ (s.settle b).knownBad := by
  rw [settle]
  split
  · exact Finset.subset_insert _ _
  · exact Finset.Subset.refl _

/-- All that is verified at the front goes. -/
theorem verifying_drainVerified (s : BlockQueue H) :
    s.drainVerified.verifying.queue = s.verifying.queue.dropWhile HasData ∧ s.knownBad ⊆ s.drainVerified.knownBad := by
  induction s using drainVerified.induct with
  | case1 s h =>
    rw [drainVerified, h, queue_of_dequeue_none h]
    exact ⟨rfl, Finset.Subset.refl _⟩
  | case2 s block verifying h hdata =>
    rw [drainVerified, h]
    simp only [hdata, if_true]
    rw [SizedBlockQueue.queue_of_dequeue h, dropWhile_cons_of_neg (by simp [HasData, hdata])]
    exact ⟨rfl, Finset.Subset.refl _⟩
  | case3 s block verifying h hdata ih =>
    obtain ⟨hqueue, hbad⟩ := ih
    rw [verifying_settle] at hqueue
    rw [drainVerified, h]
    simp only [hdata]
    rw [SizedBlockQueue.queue_of_dequeue h, dropWhile_cons_of_pos (by simpa [HasData] using hdata)]
    exact ⟨hqueue, (knownBad_settle { s with verifying } block).trans hbad⟩

theorem verifying_verifyFailed (s : BlockQueue H) (work : UnverifiedBlock H) :
    (s.verifyFailed work).verifying.queue =
        (s.verifying.queue.filter fun b => b.verified.info.sha3Uncles ≠ work.hash).dropWhile HasData ∧
      insert work.hash s.knownBad ⊆ (s.verifyFailed work).knownBad := by
  obtain ⟨hqueue, hbad⟩ := verifying_drainVerified { s with
    readySet := s.readySet.erase work.hash
    knownBad := insert work.hash s.knownBad
    verifying := (s.verifying.remove work.hash).2 }
  refine ⟨hqueue.trans ?_, hbad⟩
  rw [show (s.verifying.remove work.hash).2 = (s.verifying.removeIf (SizedBlockQueue.sha3UnclesEquals work.hash)).2 from rfl,
    SizedBlockQueue.queue_removeIf]
  simp [SizedBlockQueue.sha3UnclesEquals]

omit [BlockRlp H] in
/-- A block is replaced where it is found. -/
theorem queue_replace_front {q q' : SizedBlockQueue (VerifiedBlock H)} {front t : VerifiedBlock H} {hash : H}
    (h : q.dequeue = some (front, q')) (hfront : front.verified.info.sha3Uncles = hash) :
    (q.replace hash t).2.queue = t :: q'.queue := by
  have hp : SizedBlockQueue.sha3UnclesEquals hash front = true := by
    simpa [SizedBlockQueue.sha3UnclesEquals] using hfront
  rw [SizedBlockQueue.replace, SizedBlockQueue.queue_of_dequeue h, List.find?_cons_of_pos hp]
  dsimp only
  rw [SizedBlockQueue.replaceFirst, if_pos hp]

omit [BlockRlp H] in
theorem head?_queue_replace {q q' : SizedBlockQueue (VerifiedBlock H)} {front t : VerifiedBlock H} {hash : H}
    (h : q.dequeue = some (front, q')) (hfront : front.verified.info.sha3Uncles ≠ hash) :
    ∃ rest, (q.replace hash t).2.queue = front :: rest := by
  have hqueue := SizedBlockQueue.queue_of_dequeue h
  rcases replace_cases q hash t with ⟨l, u, l', hq, hu, hq'⟩ | ⟨-, heq⟩
  · cases l with
    | nil =>
      rw [hqueue] at hq
      obtain ⟨rfl, -⟩ := List.cons.inj hq
      exact absurd hu hfront
    | cons v l =>
      rw [hqueue] at hq
      obtain ⟨rfl, -⟩ := List.cons.inj hq
      exact ⟨_, hq'⟩
  · exact ⟨_, heq ▸ hqueue⟩

/-- With a front that is not verified yet, it makes no difference whether the block is next. -/
theorem verifying_verifySucceeded (work : UnverifiedBlock H) {res : VerifiedBlock H}
    (hres : HasData res = true) (hfront : ∀ b ∈ s.verifying.queue.head?, HasData b = false) :
    (s.verifySucceeded work res).verifying.queue = (s.verifying.replace work.hash res).2.queue.dropWhile HasData ∧
      s.knownBad ⊆ (s.verifySucceeded work res).knownBad := by
  rw [verifySucceeded]
  cases h : s.verifying.dequeue with
  | none =>
    have hqueue := queue_of_dequeue_none h
    refine ⟨?_, Finset.Subset.refl _⟩
    simp [SizedBlockQueue.replace, hqueue]
  | some p =>
    obtain ⟨front, verifying⟩ := p
    dsimp only
    split
    · rename_i hnext
      obtain ⟨hqueue, hbad⟩ := verifying_drainVerified ({ s with verifying }.settle res)
      refine ⟨?_, (knownBad_settle { s with verifying } res).trans hbad⟩
      rw [hqueue, verifying_settle, queue_replace_front h hnext, dropWhile_cons_of_pos hres]
    · rename_i hnext
      obtain ⟨rest, hrest⟩ := head?_queue_replace (t := res) h hnext
      refine ⟨?_, Finset.Subset.refl _⟩
      have hdata : HasData front = false := hfront front (by rw [SizedBlockQueue.queue_of_dequeue h]; rfl)
      rw [hrest, dropWhile_cons_of_neg (by simp [hdata])]

end BlockQueue

namespace System

variable [Inhabited H] {s s' : System H} {e : Event H}

/-- The placeholder of a block that a verifier has in hand. -/
def PlaceholderOf (work : UnverifiedBlock H) (b : VerifiedBlock H) : Prop :=
  b.blockData = [] ∧ b.verified.info.sha3Uncles = work.hash ∧ b.verified.info.parentHash = work.parentHash

/-- What the verifiers have in hand is what `m_verifying` waits for, unless it is known to be bad. -/
structure InHand (s : System H) : Prop where
  unique : (s.working.map UnverifiedBlock.hash).Nodup
  work : ∀ work ∈ s.working, (∃ b ∈ s.bq.verifying.queue, PlaceholderOf work b) ∨ work.hash ∈ s.bq.knownBad
  placeholder : ∀ b ∈ s.bq.verifying.queue, b.blockData = [] → ∃ work ∈ s.working, PlaceholderOf work b
  front : ∀ b ∈ s.bq.verifying.queue.head?, b.blockData = []

omit [BlockRlp H] [LinearOrder H] [Inhabited H] in
theorem InHand.init : InHand ({} : System H) where
  unique := nodup_nil
  work _ hw := absurd hw not_mem_nil
  placeholder _ hb := absurd hb not_mem_nil
  front _ hb := absurd hb (Option.not_mem_none _)

omit [LinearOrder H] [Inhabited H] in
/-- `m_verifying` may lose blocks that are bad, at its end. -/
theorem InHand.shortens (hs : s.InHand) (hworking : s'.working = s.working) (h : BlockQueue.Shortens s.bq s'.bq) :
    s'.InHand where
  unique := hworking ▸ hs.unique
  work work hw := by
    rcases hs.work work (hworking ▸ hw) with ⟨b, hb, hp⟩ | hbad
    · refine (h.lost b hb).imp (fun hb => ⟨b, hb, hp⟩) fun hbad => ?_
      rwa [VerifiedBlock.job_of_no_data hp.1, hp.2.1] at hbad
    · exact .inr (h.knownBad hbad)
  placeholder b hb hdata := hworking ▸ hs.placeholder b (h.verifying.subset hb) hdata
  front b hb := by
    obtain ⟨rest, hrest⟩ := h.verifying
    refine hs.front b ?_
    rw [← hrest]
    cases hq : s'.bq.verifying.queue with
    | nil => rw [hq] at hb; cases hb
    | cons c l => rwa [hq] at hb

omit [LinearOrder H] [Inhabited H] in
theorem InHand.congr (hs : s.InHand) (hworking : s'.working = s.working) (hverifying : s'.bq.verifying = s.bq.verifying)
    (hknownBad : s.bq.knownBad ⊆ s'.bq.knownBad) : s'.InHand :=
  hs.shortens hworking (.of_eq hverifying hknownBad)

omit [BlockRlp H] [LinearOrder H] [Inhabited H] in
/-- A placeholder is that of the work with its hash. -/
theorem InHand.parentsMatch (hs : s.InHand) : s.ParentsMatch := by
  intro b hb hdata work hw heq
  obtain ⟨work', hw', -, hhash, hparent⟩ := hs.placeholder b hb hdata
  obtain rfl : work' = work := inj_on_of_nodup_map hs.unique hw' hw (hhash.symm.trans heq)
  exact hparent

omit [LinearOrder H] [Inhabited H] in
/-- What failed is in `m_verifying`, or is nowhere any more. -/
theorem InHand.findsWork (hs : s.InHand) (hright : s.bq.SetsRight) {work : UnverifiedBlock H} (hw : work ∈ s.working) :
    s.bq.FindsWork work.hash := by
  rcases hs.work work hw with ⟨b, hb, hp⟩ | hbad
  · exact .inl ⟨b, hb, hp.2.1⟩
  · exact .inr ⟨Finset.disjoint_right.1 hright.readyBad hbad, Finset.disjoint_right.1 hright.unknownBad hbad,
      Finset.disjoint_right.1 hright.drainingBad hbad⟩

omit [BlockRlp H] [LinearOrder H] [Inhabited H] in
/-- What a verifier gives back is not in the hands of another one. -/
theorem InHand.mem_eraseIdx (hs : s.InHand) {i : Nat} {work : UnverifiedBlock H} (hi : s.working[i]? = some work)
    (w : UnverifiedBlock H) : w ∈ s.working.eraseIdx i ↔ w ∈ s.working ∧ w.hash ≠ work.hash := by
  have hnodup := List.nodup_iff_getElem?_ne_getElem?.1 hs.unique
  constructor
  · intro hw
    refine ⟨mem_of_mem_eraseIdx hw, fun heq => ?_⟩
    obtain ⟨k, hk, hget⟩ := List.mem_eraseIdx_iff_getElem?.1 hw
    have hk' : (s.working.map UnverifiedBlock.hash)[k]? = some work.hash := by rw [List.getElem?_map, hget, ← heq]; rfl
    have hi' : (s.working.map UnverifiedBlock.hash)[i]? = some work.hash := by rw [List.getElem?_map, hi]; rfl
    rcases lt_or_gt_of_ne hk with hlt | hlt
    · exact hnodup k i hlt (List.getElem?_eq_some_iff.1 hi').1 (hk'.trans hi'.symm)
    · exact hnodup i k hlt (List.getElem?_eq_some_iff.1 hk').1 (hi'.trans hk'.symm)
  · rintro ⟨hw, hne⟩
    obtain ⟨k, hget⟩ := List.mem_iff_getElem?.1 hw
    refine List.mem_eraseIdx_iff_getElem?.2 ⟨k, fun heq => hne ?_, hget⟩
    rw [heq, hi] at hget
    rw [Option.some.inj hget]

theorem InHand.takeWork (hs : s.InHand) (ht : Consistent s.track) (hright : s.bq.SetsRight) {work : UnverifiedBlock H}
    {bq : BlockQueue H} (h : s.bq.takeWork = some (work, bq)) : InHand { s with bq, working := work :: s.working } := by
  obtain ⟨⟨w, unverified⟩, hd, heq⟩ := Option.map_eq_some_iff.1 h
  obtain ⟨rfl, rfl⟩ := Prod.mk.inj heq
  have hqueue := SizedBlockQueue.queue_of_dequeue hd
  have hw : w ∈ s.bq.unverified.queue := by simp [hqueue]
  let b : VerifiedBlock H := ⟨⟨.placeholder w.hash w.parentHash, []⟩, []⟩
  have hverifying : (s.bq.verifying.enqueue b).queue = s.bq.verifying.queue ++ [b] := rfl
  have hnew : ∀ w' ∈ s.working, w'.hash ≠ w.hash := by
    intro w' hw' heq
    rcases hs.work w' hw' with ⟨c, hc, hdata, hhash, -⟩ | hbad
    · have hnodup := BlockQueue.nodup_readyJobs (g := s.ghost) rfl ht
      rw [BlockQueue.readyJobs, map_append, nodup_append] at hnodup
      refine hnodup.2.2 c.job ?_ w.hash ?_ ?_
      · exact mem_map.2 ⟨c.toJob, mem_append_right _ (mem_map_of_mem hc), rfl⟩
      · exact mem_map.2 ⟨w.toJob, mem_map_of_mem hw, rfl⟩
      · rw [VerifiedBlock.job_of_no_data hdata, hhash, heq]
    · refine Finset.disjoint_left.1 hright.readyBad ((hright.readySet _).2 (.inr (.inr ⟨w, hw, rfl⟩))) ?_
      exact heq ▸ hbad
  refine ⟨?_, fun work hwork => ?_, fun c hc hdata => ?_, fun c hc => ?_⟩
  · refine nodup_cons.2 ⟨fun hmem => ?_, hs.unique⟩
    obtain ⟨w', hw', heq⟩ := mem_map.1 hmem
    exact hnew w' hw' heq
  · rcases mem_cons.1 hwork with rfl | hwork
    · exact .inl ⟨b, by simp [hverifying, b], rfl, rfl, rfl⟩
    · refine (hs.work work hwork).imp_left ?_
      rintro ⟨c, hc, hp⟩
      exact ⟨c, mem_append_left _ hc, hp⟩
  · rcases mem_append.1 hc with hc | hc
    · obtain ⟨work, hwork, hp⟩ := hs.placeholder c hc hdata
      exact ⟨work, mem_cons_of_mem _ hwork, hp⟩
    · rw [mem_singleton.1 hc]
      exact ⟨w, mem_cons_self, rfl, rfl, rfl⟩
  · change c ∈ (s.bq.verifying.queue ++ [b]).head? at hc
    cases hq : s.bq.verifying.queue with
    | nil =>
      rw [hq] at hc
      rw [← Option.some.inj hc]
    | cons d l =>
      refine hs.front c ?_
      rwa [hq] at hc ⊢

omit [LinearOrder H] [BlockRlp H] [Inhabited H] in
theorem front_dropWhile (l : List (VerifiedBlock H)) : ∀ b ∈ (l.dropWhile BlockQueue.HasData).head?, b.blockData = [] := by
  intro b hb
  have hhead := List.head?_dropWhile_not BlockQueue.HasData l
  rw [show (l.dropWhile BlockQueue.HasData).head? = some b from hb] at hhead
  simpa [BlockQueue.HasData] using hhead

omit [BlockRlp H] [LinearOrder H] [Inhabited H] in
/-- With the work its placeholder goes. -/
theorem InHand.giveBack (hs : s.InHand) {i : Nat} {work : UnverifiedBlock H} (hi : s.working[i]? = some work)
    (hworking : s'.working = s.working.eraseIdx i) (hbad : s.bq.knownBad ⊆ s'.bq.knownBad)
    (hplaceholder : ∀ b, b.blockData = [] →
      (b ∈ s'.bq.verifying.queue ↔ b ∈ s.bq.verifying.queue ∧ b.verified.info.sha3Uncles ≠ work.hash))
    (hfront : ∀ b ∈ s'.bq.verifying.queue.head?, b.blockData = []) : s'.InHand := by
  have hmem : ∀ w, w ∈ s'.working ↔ w ∈ s.working ∧ w.hash ≠ work.hash := by
    rw [hworking]
    exact hs.mem_eraseIdx hi
  refine ⟨?_, fun w hw => ?_, fun b hb hdata => ?_, hfront⟩
  · rw [hworking]
    exact hs.unique.sublist ((eraseIdx_sublist _ _).map _)
  · obtain ⟨hw, hne⟩ := (hmem w).1 hw
    refine (hs.work w hw).imp (fun ⟨b, hb, hp⟩ => ⟨b, ?_, hp⟩) (hbad ·)
    exact (hplaceholder b hp.1).2 ⟨hb, hp.2.1 ▸ hne⟩
  · obtain ⟨hb, hne⟩ := (hplaceholder b hdata).1 hb
    obtain ⟨w, hw, hp⟩ := hs.placeholder b hb hdata
    exact ⟨w, (hmem w).2 ⟨hw, hp.2.1 ▸ hne⟩, hp⟩

omit [LinearOrder H] [BlockRlp H] [Inhabited H] in
theorem mem_dropWhile_hasData {l : List (VerifiedBlock H)} {b : VerifiedBlock H} (hdata : b.blockData = []) :
    b ∈ l.dropWhile BlockQueue.HasData ↔ b ∈ l :=
  ⟨fun hb => (dropWhile_sublist _).subset hb, fun hb => mem_dropWhile_of_neg hb (by simp [BlockQueue.HasData, hdata])⟩

omit [Inhabited H] in
theorem InHand.verifyFailed (hs : s.InHand) {i : Nat} {work : UnverifiedBlock H} (hi : s.working[i]? = some work)
    (hworking : s'.working = s.working.eraseIdx i) (hbq : s'.bq = s.bq.verifyFailed work) : s'.InHand := by
  obtain ⟨hqueue, hbad⟩ := s.bq.verifying_verifyFailed work
  rw [← hbq] at hqueue hbad
  refine hs.giveBack hi hworking ((Finset.subset_insert _ _).trans hbad) (fun b hdata => ?_) ?_
  · rw [hqueue, mem_dropWhile_hasData hdata, mem_filter, decide_eq_true_iff]
  · rw [hqueue]
    exact front_dropWhile _

omit [Inhabited H] in
theorem InHand.verifySucceeded (hs : s.InHand) (ht : Consistent s.track) {i : Nat} {work : UnverifiedBlock H}
    {res : VerifiedBlock H} (hi : s.working[i]? = some work) (hres : res.blockData ≠ [])
    (hmistaken : s.bq.NotMistaken work.hash)
    (hworking : s'.working = s.working.eraseIdx i) (hbq : s'.bq = s.bq.verifySucceeded work res) : s'.InHand := by
  obtain ⟨hqueue, hbad⟩ := BlockQueue.verifying_verifySucceeded (s := s.bq) work
    (by simpa [BlockQueue.HasData] using hres) fun b hb => by simp [BlockQueue.HasData, hs.front b hb]
  rw [← hbq] at hqueue hbad
  refine hs.giveBack hi hworking hbad (fun b hdata => ?_) ?_
  · rw [hqueue, mem_dropWhile_hasData hdata]
    rcases BlockQueue.replace_cases s.bq.verifying work.hash res with ⟨l, u, l', hq, hu, hq'⟩ | ⟨hno, heq⟩
    · -- there is no second placeholder of the same hash
      have hother : b ∈ l ++ l' → b.verified.info.sha3Uncles ≠ work.hash := by
        intro hb heq
        have hnodup := BlockQueue.nodup_readyJobs (g := s.ghost) rfl ht
        rw [BlockQueue.readyJobs, map_append, map_append, hq] at hnodup
        have hnodup := (hnodup.sublist ((sublist_append_right _ _).trans (sublist_append_left _ _)))
        rw [map_append, map_append, map_cons, map_cons, nodup_middle, nodup_cons] at hnodup
        refine hnodup.1 ?_
        rw [← map_append, ← map_append]
        refine mem_map.2 ⟨b.toJob, mem_map_of_mem hb, ?_⟩
        have hjob := (hmistaken.job (b := u) (by simp [hq]) hu).2
        rw [show b.toJob.hash = b.job from rfl, VerifiedBlock.job_of_no_data hdata, heq]
        exact hjob.symm
      have hne : b ≠ res := fun heq => hres (heq ▸ hdata)
      rw [hq, hq']
      constructor
      · intro hb
        have hb : b ∈ l ++ l' := by simpa [hne] using hb
        exact ⟨by simp only [mem_append, mem_cons] at hb ⊢; tauto, hother hb⟩
      · rintro ⟨hb, h⟩
        have hb' : b ≠ u := fun heq => h (heq ▸ hu)
        have hb : b ∈ l ∨ b ∈ l' := by simpa [hb'] using hb
        simp only [mem_append, mem_cons]
        tauto
    · rw [heq]
      exact ⟨fun hb => ⟨hb, hno b hb⟩, And.left⟩
  · rw [hqueue]
    exact front_dropWhile _

/-- The step leaves together what belongs together. -/
theorem InHand.step (hs : s.InHand) (ht : Consistent s.track) (hC : s.Regular e)
    (htimely : s.Timely e) (h : s.step e = some s') : s'.InHand := by
  cases e with
  | importBlock env block isOurs =>
    cases h
    refine hs.shortens rfl ?_
    change BlockQueue.Shortens s.bq (s.bq.importBlock env block isOurs).2
    rcases s.bq.importBlock_cases env block isOurs with ⟨heq, -⟩ | ⟨bi, htaken, hcases⟩
    · rw [heq]
      exact .refl _
    rcases hcases with ⟨-, r, -, heq⟩ | ⟨hfuture, hbad, heq⟩ | ⟨-, -, -, heq⟩ | ⟨-, -, -, heq⟩ <;> rw [heq]
    · exact .of_eq rfl (Finset.Subset.refl _)
    · have hnote : BlockQueue.Shortens s.bq { s.bq with knownBad := insert bi.hash s.bq.knownBad } :=
        .of_eq rfl (Finset.subset_insert _ _)
      exact hnote.trans (BlockQueue.shortens_updateBad (hC bi htaken hfuture hbad))
    · exact .of_eq rfl (Finset.Subset.refl _)
    · obtain ⟨_, _, _, _, hnote, -⟩ := BlockQueue.exists_noteReadyLoop [bi.hash]
        { s.bq with
          unverified := s.bq.unverified.enqueue ⟨bi.hash, bi.parentHash, block⟩
          readySet := insert bi.hash s.bq.readySet
          difficulty := s.bq.difficulty + bi.difficulty }
      rw [BlockQueue.noteReady, hnote]
      exact .of_eq rfl (Finset.Subset.refl _)
  | tick t =>
    cases h
    obtain ⟨_, heq⟩ := s.bq.exists_tick t
    exact hs.congr rfl (by rw [put, heq]) (by rw [put, heq])
  | takeWork =>
    obtain ⟨⟨work, bq⟩, htake, rfl⟩ := Option.map_eq_some_iff.1 h
    exact hs.takeWork ht (BlockQueue.setsRight_of_consistent rfl rfl ht) htake
  | verifyFailed i =>
    obtain ⟨work, hi, rfl⟩ := Option.map_eq_some_iff.1 h
    exact hs.verifyFailed hi rfl rfl
  | verifySucceeded i transactions =>
    obtain ⟨work, hi, h⟩ := Option.bind_eq_some_iff.1 h
    obtain ⟨info, hinfo, rfl⟩ := Option.map_eq_some_iff.1 h
    refine hs.verifySucceeded ht hi (fun hdata => ?_) (hC work hi) rfl rfl
    change work.blockData = [] at hdata
    rw [hdata, BlockRlp.headerOf_nil] at hinfo
    cases hinfo
  | drain max =>
    cases h
    obtain ⟨_, _, _, _, heq⟩ := s.bq.exists_drain max
    exact hs.congr rfl (by rw [put, heq]) (by rw [put, heq])
  | doneDrain bad =>
    cases h
    refine hs.shortens rfl ?_
    change BlockQueue.Shortens s.bq (s.bq.doneDrain bad).2
    rw [BlockQueue.doneDrain_eq]
    have hreport : BlockQueue.Shortens s.bq (s.bq.reported bad) := .of_eq rfl Finset.subset_union_left
    exact hreport.trans (BlockQueue.shortens_foldl_updateBad hC.2)
  | noteReady isKnown good =>
    cases h
    obtain ⟨_, _, _, _, hnote, -⟩ := BlockQueue.exists_noteReadyLoop [good] s.bq
    exact hs.congr rfl (by rw [put, BlockQueue.noteReady, hnote]) (by rw [put, BlockQueue.noteReady, hnote])
  | retryAllUnknown isKnown =>
    cases h
    obtain ⟨_, _, _, _, hretry⟩ := s.bq.exists_retryAllUnknown
    exact hs.congr rfl (by rw [put, hretry]) (by rw [put, hretry])
  | clear => exact htimely.elim

/-! ### Runs -/

/-- The blocks that a step finds by a hash are the right ones, those that `updateBad` has to take out are the
last ones of their queues, and the parents of the blocks that become ready are there. -/
def Prompt (s : System H) : Event H → Prop
  | .verifyFailed i => ∀ work, s.working[i]? = some work → s.bq.NotMistaken work.hash
  | e => s.Regular e ∧ s.Timely e

/-- All that holds of a queue that was used promptly. -/
structure Sound (s : System H) : Prop where
  consistent : Consistent s.track
  ordered : Ordered s.track
  orderly : s.Orderly
  inHand : s.InHand

omit [Inhabited H] in
theorem Sound.setsRight (hs : s.Sound) : s.bq.SetsRight := BlockQueue.setsRight_of_consistent rfl rfl hs.consistent

omit [Inhabited H] in
theorem Prompt.regular (hC : s.Prompt e) (hs : s.Sound) : s.Regular e := by
  cases e with
  | verifyFailed i =>
    intro work hi
    exact ⟨hC work hi, hs.inHand.findsWork hs.setsRight (List.mem_of_getElem? hi)⟩
  | _ => exact hC.1

omit [Inhabited H] in
theorem Prompt.timely (hC : s.Prompt e) : s.Timely e := by
  cases e with
  | verifyFailed i => exact trivial
  | _ => exact hC.2

theorem Sound.step (hs : s.Sound) (hC : s.Prompt e) (h : s.step e = some s') : s'.Sound := by
  have hregular := hC.regular hs
  have hmoves : Moves True s.track s'.track := moves_step hs.consistent hs.orderly (fun _ => hs.inHand.parentsMatch)
    hregular (fun _ => hC.timely) h
  exact ⟨hs.consistent.moves hmoves, hs.ordered.moves hs.consistent hmoves, hs.orderly.step h,
    hs.inHand.step hs.consistent hregular hC.timely h⟩

omit [Inhabited H] in
theorem Sound.init : Sound ({} : System H) where
  consistent := consistent_init
  ordered := by
    constructor <;> simp [track, ghost, BlockQueue.view, BlockQueue.readyJobs, Track.active, InOrder]
  orderly := .init
  inHand := .init

/-- What is queued, verified or not. -/
def queued (s : System H) : List H := s.bq.readyJobs.map Job.hash

omit [Inhabited H] in
/-- A block that `import` accepts is put into `m_unverified`, and maybe others that waited for it. -/
theorem admitted_importBlock (s : System H) {env : ImportEnv H} {block : Bytes} {isOurs : Bool} {bi : BlockHeader H}
    (hbi : headerOf block = some bi) (hr : (s.bq.importBlock env block isOurs).1 = some .success) :
    ∃ more, (s.put (s.bq.importBlock env block isOurs).2).admitted = s.admitted ++ bi.hash :: more := by
  rcases s.bq.importBlock_cases env block isOurs with ⟨-, hno⟩ | ⟨bi', htaken, hcases⟩
  · exact absurd (hno _ hr) (by decide)
  obtain rfl : bi' = bi := Option.some.inj (htaken.header.symm.trans hbi)
  rcases hcases with ⟨-, r, ⟨-, hne⟩, heq⟩ | ⟨-, -, heq⟩ | ⟨-, -, -, heq⟩ | ⟨-, -, -, heq⟩ <;> rw [heq] at hr
  · exact absurd (Option.some.inj hr) hne
  · cases hr
  · cases hr
  · obtain ⟨unverified, _, _, _, hnote, more, hmore⟩ := BlockQueue.exists_noteReadyLoop [bi'.hash]
      { s.bq with
        unverified := s.bq.unverified.enqueue ⟨bi'.hash, bi'.parentHash, block⟩
        readySet := insert bi'.hash s.bq.readySet
        difficulty := s.bq.difficulty + bi'.difficulty }
    refine ⟨more.map UnverifiedBlock.hash, ?_⟩
    have hqueue : unverified.queue = s.bq.unverified.queue ++ ⟨bi'.hash, bi'.parentHash, block⟩ :: more := by
      rw [← hmore, SizedBlockQueue.enqueue, append_assoc]
      rfl
    rw [heq, put, BlockQueue.noteReady, hnote]
    dsimp only
    rw [hqueue, drop_left, map_cons]

/-- In a run whose steps are all prompt,
* no block is delivered in front of its parent;
* what was put into `m_unverified` and is not bad is delivered, or queued once, as often as it was put there;
* what `import` accepts is put there;
* when the verifiers have nothing more to do, all that is queued is in `m_verified`, from where `drain` takes it. -/
theorem drained_in_order (hs : Reaches Prompt s) :
    InOrder (s.delivered.map VerifiedBlock.doneJob) ∧
    (∀ h ∉ s.bq.knownBad, (s.delivered.map (·.verified.info.hash)).count h + s.queued.count h = s.admitted.count h) ∧
    (∀ env block isOurs s' bi, s.step (.importBlock env block isOurs) = some s' → headerOf block = some bi →
      (s.bq.importBlock env block isOurs).1 = some .success → ∃ more, s'.admitted = s.admitted ++ bi.hash :: more) ∧
    (s.bq.unverified.queue = [] → s.working = [] → s.queued = s.bq.verified.queue.map (·.verified.info.hash)) ∧
    ∀ max s', s.bq.drainingSet = ∅ → s.step (.drain max) = some s' →
      s'.delivered = s.delivered ++ s.bq.verified.queue.take (min max.toNat (s.bq.verified.count % 2 ^ 32)) := by
  have hsound : s.Sound := Reaches.induction .init (fun _ _ _ hs hC he => hs.step hC he) hs
  refine ⟨hsound.ordered.delivered, fun h hh => ?_, ?_, ?_, ?_⟩
  · have hcount := hsound.ordered.admitted h hh
    rw [count_active] at hcount
    simpa [track, ghost, BlockQueue.view, queued, Function.comp_def, VerifiedBlock.doneJob] using hcount
  · intro env block isOurs s' bi h hbi hr
    cases h
    exact s.admitted_importBlock hbi hr
  · intro hunverified hworking
    have hverifying : s.bq.verifying.queue = [] := by
      cases hq : s.bq.verifying.queue with
      | nil => rfl
      | cons b l =>
        obtain ⟨work, hw, -⟩ := hsound.inHand.placeholder b (by simp [hq]) (hsound.inHand.front b (by rw [hq]; rfl))
        rw [hworking] at hw
        exact absurd hw not_mem_nil
    rw [queued, BlockQueue.readyJobs, hunverified, hverifying]
    simp [VerifiedBlock.doneJob, Function.comp_def]
  · intro max s' hdraining h
    cases h
    have hle : min max.toNat (s.bq.verified.count % 2 ^ 32) ≤ s.bq.verified.count :=
      (Nat.min_le_right _ _).trans (Nat.mod_le _ _)
    simp only [BlockQueue.drain, hdraining, if_true, SizedBlockQueue.dequeueMultiple, if_pos hle]
    rfl

/-- Calm, and in time. -/
def prompt (s : System (Fin 256)) (e : Event (Fin 256)) : Bool :=
  s.calm e && match e with
    | .importBlock env _ _ => s.bq.unknownSet = ∅ ∧ ∀ h, s.known h = true → env.isKnown h = true
    | _ => true

theorem prompt_of_check (s : System (Fin 256)) (e : Event (Fin 256)) (h : s.prompt e = true) : s.Prompt e := by
  obtain ⟨hcalm, h⟩ := Bool.and_eq_true_iff.1 h
  have hregular := s.regular_of_calm e hcalm
  cases e with
  | importBlock env block isOurs =>
    obtain ⟨hunknown, hknown⟩ := of_decide_eq_true h
    refine ⟨hregular, hknown, fun bi _ _ => ?_⟩
    rw [hunknown]
    exact Finset.notMem_empty _
  | takeWork | drain max | verifySucceeded i transactions => exact ⟨hregular, trivial⟩
  | _ => cases hcalm

/-- The child has been verified first, and is delivered behind its parent. -/
theorem drained_in_order_import : ∃ s : System (Fin 256), run {} importTwo = some s ∧
    s.delivered.map VerifiedBlock.doneJob = [⟨2, 0⟩, ⟨3, 2⟩] ∧ InOrder (s.delivered.map VerifiedBlock.doneJob) := by
  have hdelivered : (runWhile prompt {} importTwo).map (fun s => s.delivered.map VerifiedBlock.doneJob) =
      some [⟨2, 0⟩, ⟨3, 2⟩] := by decide +kernel
  obtain ⟨s, hs, hdelivered⟩ := Option.map_eq_some_iff.1 hdelivered
  obtain ⟨hreaches, hrun⟩ := Reaches.runWhile .refl prompt_of_check hs
  exact ⟨s, hrun, hdelivered, (drained_in_order hreaches).1⟩

/-- 3 waits for its parent 2, which waits for its parent 9; nothing else is known, and all are retried. -/
def childFirst : List (Event Nat) :=
  [.importBlock (.having []) [3, 2, 0] false, .importBlock (.having []) [2, 9, 0] false,
    .retryAllUnknown fun _ => false, .takeWork, .takeWork, .verifySucceeded 1 [], .verifySucceeded 0 [], .drain 2]

theorem not_drained_in_order : ¬ ∀ s : System Nat, Reaches (fun _ e => e ≠ .clear) s →
    InOrder (s.delivered.map VerifiedBlock.doneJob) := by
  intro h
  obtain ⟨s, hs⟩ : ∃ s, run {} childFirst = some s := Option.isSome_iff_exists.1 (by decide +kernel)
  have hdelivered : (run {} childFirst).map (fun s => s.delivered.map VerifiedBlock.doneJob) =
      some [⟨3, 2⟩, ⟨2, 9⟩] := by decide +kernel
  rw [hs] at hdelivered
  have hdelivered : s.delivered.map VerifiedBlock.doneJob = [⟨3, 2⟩, ⟨2, 9⟩] := Option.some.inj hdelivered
  have horder := h s (Reaches.run .refl (fun _ => by simp [childFirst]) hs) [] ⟨3, 2⟩ [⟨2, 9⟩] hdelivered
  rw [hdelivered] at horder
  exact absurd (horder (by decide)) (by decide)

end System

end Kmdx
