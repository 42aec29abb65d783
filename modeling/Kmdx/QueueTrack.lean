import Kmdx.QueueRun

/-!
# The block queue tracks jobs

`BlockQueue.view` reads the queue as a `Track`: what is ready stands in `m_verified`, `m_verifying` and
`m_unverified`, in this order. Each function of the queue is a sequence of moves of that track, as long as
`removeIf` returns what it removes.
-/

namespace Kmdx

open RemoveIf JobTrack Relation List

variable {H : Type}

/-- What of a track is not in the queue. -/
structure Ghost (H : Type) where
  pending : Multiset (Job H) := 0
  reported : Finset H := ∅
  admitted : List H := []
  delivered : List (Job H) := []
  known : H → Prop := fun _ => False

def UnverifiedBlock.toJob (b : UnverifiedBlock H) : Job H := ⟨b.hash, b.parentHash⟩

def MapEntry.toJob (e : MapEntry H H) : Job H := ⟨e.hash, e.key⟩

variable [BlockRlp H]

/-- The job of a block that has been verified. -/
def VerifiedBlock.doneJob (b : VerifiedBlock H) : Job H := ⟨b.verified.info.hash, b.verified.info.parentHash⟩

/-- The job of a block in `m_verifying`. -/
def VerifiedBlock.toJob (b : VerifiedBlock H) : Job H := ⟨b.job, b.verified.info.parentHash⟩

namespace BlockQueue

/-- What is ready, in the order in which it is to be delivered. -/
def readyJobs (s : BlockQueue H) : List (Job H) :=
  s.verified.queue.map VerifiedBlock.doneJob ++ s.verifying.queue.map VerifiedBlock.toJob ++
    s.unverified.queue.map UnverifiedBlock.toJob

def view (g : Ghost H) (s : BlockQueue H) : Track H where
  ready := s.readyJobs
  pending := g.pending
  waiting := s.unknown.map.map MapEntry.toJob
  readySet := s.readySet
  waitingSet := s.unknownSet
  openSet := s.drainingSet
  bad := s.knownBad
  reported := g.reported
  admitted := g.admitted
  delivered := g.delivered
  known := g.known

variable [LinearOrder H] {strict : Prop} {g : Ghost H} {s s' s'' : BlockQueue H}

/-! ### Bad blocks -/

omit [BlockRlp H] in
/-- The jobs of what is removed from the map. -/
def removedJobs (m : SizedBlockMap H H) (k : H) : List (Job H) :=
  (m.removeByKeyEqual k).1.map fun b => ⟨b.1, k⟩

omit [BlockRlp H] in
theorem map_hash_removedJobs (m : SizedBlockMap H H) (k : H) :
    (removedJobs m k).map Job.hash = (m.removeByKeyEqual k).1.map Prod.fst := by
  rw [removedJobs, List.map_map]
  rfl

omit [BlockRlp H] in
theorem hashes_removedJobs (m : SizedBlockMap H H) (k : H) :
    hashes (removedJobs m k) = ((m.removeByKeyEqual k).1.map Prod.fst).toFinset := by
  rw [hashes, map_hash_removedJobs]

omit [BlockRlp H] in
theorem waiting_eq (m : SizedBlockMap H H) (k : H) :
    ((m.map.map MapEntry.toJob : List (Job H)) : Multiset (Job H)) =
      removedJobs m k + (((m.removeByKeyEqual k).2.map.map MapEntry.toJob : List (Job H)) : Multiset (Job H)) := by
  have hjobs : removedJobs m k = (m.map.filter fun e => e.key = k).map MapEntry.toJob := by
    rw [removedJobs, SizedBlockMap.removeByKeyEqual, SizedBlockMap.removeRange, List.map_map]
    refine List.map_congr_left fun e he => ?_
    have hkey : e.key = k := by simpa using (List.mem_filter.1 he).2
    exact congrArg (Job.mk e.hash) hkey.symm
  rw [hjobs, Multiset.coe_add, ← List.map_append]
  have hperm := (filter_append_perm (fun e : MapEntry H H => decide (e.key = k)) m.map).symm
  exact Multiset.coe_eq_coe.2 (by simpa [SizedBlockMap.removeByKeyEqual, SizedBlockMap.removeRange] using hperm.map _)

theorem moves_collectUnknownBad (badQueue : List H) (s : BlockQueue H) :
    Moves strict (view g s) (view g (collectUnknownBad badQueue s)) := by
  induction badQueue, s using collectUnknownBad.induct with
  | case1 s => rw [collectUnknownBad]
  | case2 s bad badQueue removed s' ih =>
    rw [collectUnknownBad]
    refine .head ?_ ih
    rw [foldl_noteBad]
    have hmove : Move strict (view g s) _ := .condemnWaiting _ _ (waiting_eq s.unknown bad)
    rw [hashes_removedJobs] at hmove
    exact hmove

theorem moves_condemn (j : Job H) (rest : Multiset (Job H)) (s : BlockQueue H) :
    Moves strict (view { g with pending := j ::ₘ rest } s) (view { g with pending := rest } (s.condemn j.hash)) := by
  have hmove : Move strict (view { g with pending := j ::ₘ rest } s) (view { g with pending := rest }
      { s with knownBad := insert j.hash s.knownBad, readySet := s.readySet.erase j.hash }) := .condemn j rest rfl
  exact .head hmove (moves_collectUnknownBad _ _)

theorem moves_foldl_condemn {T : Type} (f : T → Job H) (removed : List T) (s : BlockQueue H) :
    Moves strict (view { g with pending := ((removed.map f : List (Job H)) : Multiset (Job H)) + g.pending } s)
      (view g (removed.foldl (fun s t => s.condemn (f t).hash) s)) := by
  induction removed generalizing s with
  | nil =>
    rw [map_nil, Multiset.coe_nil, Multiset.zero_add]
    exact .refl
  | cons t removed ih =>
    rw [map_cons, ← Multiset.cons_coe, Multiset.cons_add]
    exact (moves_condemn (f t) _ s).trans (ih _)

omit [LinearOrder H] [BlockRlp H] in
/-- Taking elements out of one of the queues. -/
theorem sublist_and_perm {T : Type} (f : T → Job H) (p : T → Bool) (q : List T) (l l' : List (Job H)) :
    (l ++ (q.filter (!p ·)).map f ++ l').Sublist (l ++ q.map f ++ l') ∧
      ((l ++ q.map f ++ l' : List (Job H)) : Multiset (Job H)) =
        ((q.filter p).map f : List (Job H)) + ((l ++ (q.filter (!p ·)).map f ++ l' : List (Job H)) : Multiset (Job H)) := by
  refine ⟨(((filter_sublist).map f).append_left l).append_right l', ?_⟩
  have hperm : ((q.map f : List (Job H)) : Multiset (Job H)) =
      ((q.filter p).map f : List (Job H)) + (((q.filter (!p ·)).map f : List (Job H)) : Multiset (Job H)) := by
    rw [Multiset.coe_add, ← List.map_append]
    exact Multiset.coe_eq_coe.2 ((filter_append_perm p q).symm.map f)
  rw [← Multiset.coe_add, ← Multiset.coe_add, hperm, ← Multiset.coe_add, ← Multiset.coe_add]
  rw [← Multiset.add_assoc, Multiset.add_comm (l : Multiset (Job H)), Multiset.add_assoc, Multiset.add_assoc,
    ← Multiset.add_assoc (l : Multiset (Job H))]

/-- Bad blocks are taken out of a queue and condemned. -/
theorem moves_takeOut {T : Type} (f : T → Job H) (p : T → Bool) (q : List T) (l l' : List (Job H))
    (hs : s.readyJobs = l ++ q.map f ++ l') (hs' : s'.readyJobs = l ++ (q.filter (!p ·)).map f ++ l')
    (heq : view g s' = { view g s with ready := s'.readyJobs }) :
    Moves strict (view g s) (view g ((q.filter p).foldl (fun s t => s.condemn (f t).hash) s')) := by
  obtain ⟨hsub, hperm⟩ := sublist_and_perm f p q l l'
  rw [← hs, ← hs'] at hperm hsub
  refine .head ?_ (moves_foldl_condemn f (q.filter p) s')
  have hmove : Move strict (view g s) _ := .takeOut ((q.filter p).map f) s'.readyJobs hsub hperm
  let pending : Multiset (Job H) := (((q.filter p).map f : List (Job H)) : Multiset (Job H)) + g.pending
  rw [show view { g with pending } s' = { view g s' with pending } from rfl, heq]
  exact hmove

omit [BlockRlp H] [LinearOrder H] in
theorem removed_eq_filter {T : Type} [Movable T] {q : SizedBlockQueue T} {p : T → Bool} (h : AtEnd p q.queue) :
    (q.removeIf p).1 = q.queue.filter p := loop_snd_of_atEnd h

theorem moves_sweepVerified (hend : AtEnd s.isBadVerified s.verified.queue) :
    Moves strict (view g s) (view g s.sweepVerified.1) := by
  rw [sweepVerified_fst, removed_eq_filter hend]
  refine moves_takeOut VerifiedBlock.doneJob s.isBadVerified s.verified.queue []
    (s.verifying.queue.map VerifiedBlock.toJob ++ s.unverified.queue.map UnverifiedBlock.toJob) ?_ ?_ rfl
  · rw [readyJobs, nil_append, List.append_assoc]
  · rw [readyJobs, nil_append, List.append_assoc, SizedBlockQueue.queue_removeIf]

theorem moves_sweepUnverified (hend : AtEnd s.isBadUnverified s.unverified.queue) :
    Moves strict (view g s) (view g s.sweepUnverified.1) := by
  rw [sweepUnverified_fst, removed_eq_filter hend]
  refine moves_takeOut UnverifiedBlock.toJob s.isBadUnverified s.unverified.queue
    (s.verified.queue.map VerifiedBlock.doneJob ++ s.verifying.queue.map VerifiedBlock.toJob) [] ?_ ?_ rfl
  · rw [readyJobs, append_nil]
  · rw [readyJobs, append_nil, SizedBlockQueue.queue_removeIf]

theorem moves_sweepVerifying (hend : AtEnd s.isBadVerifying s.verifying.queue) :
    Moves strict (view g s) (view g s.sweepVerifying.1) := by
  rw [sweepVerifying_fst, removed_eq_filter hend]
  refine moves_takeOut VerifiedBlock.toJob s.isBadVerifying s.verifying.queue
    (s.verified.queue.map VerifiedBlock.doneJob) (s.unverified.queue.map UnverifiedBlock.toJob) rfl ?_ rfl
  rw [readyJobs, SizedBlockQueue.queue_removeIf]

theorem moves_sweep (h : s.BadAtEnd) : Moves strict (view g s) (view g s.sweep.1) := by
  obtain ⟨_, _, _, _, h₁⟩ := s.exists_sweepVerified
  obtain ⟨_, _, _, _, h₂⟩ := s.sweepVerified.1.exists_sweepUnverified
  have hunverified : s.sweepVerified.1.unverified = s.unverified := by rw [h₁]
  have hverifying : s.sweepVerified.1.sweepUnverified.1.verifying = s.verifying := by rw [h₂, h₁]
  exact (moves_sweepVerified h.verified).trans
    ((moves_sweepUnverified (by rw [hunverified]; exact h.unverified)).trans
      (moves_sweepVerifying (by rw [hverifying]; exact h.verifying)))

theorem moves_updateBadLoop (h : Throughout BadAtEnd s) : Moves strict (view g s) (view g (updateBadLoop s)) := by
  induction h with
  | turn hend _ ih =>
    rw [updateBadLoop]
    split
    · exact (moves_sweep hend).trans (ih ‹_›)
    · exact moves_sweep hend

theorem moves_updateBad {bad : H} (h : Throughout BadAtEnd (collectUnknownBad [bad] s)) :
    Moves strict (view g s) (view g (s.updateBad bad)) :=
  (moves_collectUnknownBad _ _).trans (moves_updateBadLoop h)

theorem moves_foldl_updateBad {bad : List H} (h : ThroughoutAll BadAtEnd s bad) :
    Moves strict (view g s) (view g (bad.foldl updateBad s)) := by
  induction bad generalizing s with
  | nil => exact .refl
  | cons b bad ih => exact (moves_updateBad h.1).trans (ih h.2)

/-! ### Blocks with an unknown parent -/

/-- What `s'` has at the end of `m_unverified` is noted as admitted. -/
def Admits (strict : Prop) (g : Ghost H) (s s' : BlockQueue H) : Prop :=
  ∃ new : List (UnverifiedBlock H), s'.unverified.queue = s.unverified.queue ++ new ∧
    Moves strict (view g s) (view { g with admitted := g.admitted ++ new.map UnverifiedBlock.hash } s')

theorem Admits.of_moves (h : s'.unverified.queue = s.unverified.queue) (hm : Moves strict (view g s) (view g s')) :
    Admits strict g s s' := ⟨[], by simpa using h, by simpa using hm⟩

theorem Admits.trans (h : Admits strict g s s')
    (h' : ∀ admitted, Admits strict { g with admitted } s' s'') : Admits strict g s s'' := by
  obtain ⟨new, hnew, hm⟩ := h
  obtain ⟨new', hnew', hm'⟩ := h' (g.admitted ++ new.map UnverifiedBlock.hash)
  refine ⟨new ++ new', by rw [hnew', hnew, List.append_assoc], ?_⟩
  rw [List.map_append, ← List.append_assoc]
  exact hm.trans hm'

theorem readyJobs_releaseAll (s : BlockQueue H) (parent : H) :
    (s.releaseAll parent).2.readyJobs = s.readyJobs ++ removedJobs s.unknown parent := by
  rw [releaseAll_snd, readyJobs, queue_foldl_enqueue, List.map_append, List.map_map, ← List.append_assoc]
  rfl

/-- The blocks of one parent become ready. -/
theorem admits_releaseAll (parent : H) (hp : strict → (view g s).Settled parent) :
    Admits strict g s (s.releaseAll parent).2 := by
  have hmove : Move strict (view g s) _ := .release _ _ (waiting_eq s.unknown parent) fun h j hj => by
    obtain ⟨b, -, rfl⟩ := List.mem_map.1 hj
    exact hp h
  refine ⟨(s.releaseAll parent).1.map fun b => ⟨b.1, parent, b.2⟩, ?_, .single ?_⟩
  · rw [releaseAll_snd, queue_foldl_enqueue]
  · have hready : (s.releaseAll parent).2.readyJobs = (view g s).ready ++ removedJobs s.unknown parent :=
      readyJobs_releaseAll s parent
    rw [hashes_removedJobs, map_hash_removedJobs, ← hready, releaseAll_snd] at hmove
    rw [releaseAll_snd, List.map_map]
    exact hmove

theorem settled_releaseAll {parent p : H} (hp : (view g s).Settled p) :
    (view g (s.releaseAll parent).2).Settled p := by
  rw [releaseAll_snd]
  rcases hp with h | h | ⟨h, h'⟩
  · exact .inl (Finset.mem_union_left _ h)
  · exact .inr (.inl h)
  · exact .inr (.inr ⟨h, fun hm => h' (Finset.mem_sdiff.1 hm).1⟩)

theorem settled_of_released {parent p : H} (hp : p ∈ (s.releaseAll parent).1.map Prod.fst) :
    (view g (s.releaseAll parent).2).Settled p := by
  rw [releaseAll_snd]
  exact .inl (Finset.mem_union_right _ (mem_toFinset.2 hp))

theorem admits_noteReadyLoop (goodQueue : List H) (s : BlockQueue H)
    (hp : strict → ∀ p ∈ goodQueue, (view g s).Settled p) : Admits strict g s (noteReadyLoop goodQueue s) := by
  induction goodQueue, s using noteReadyLoop.induct generalizing g with
  | case1 s => rw [noteReadyLoop]; exact .of_moves rfl .refl
  | case2 s parent goodQueue ih =>
    rw [noteReadyLoop]
    refine (admits_releaseAll parent fun h => hp h parent mem_cons_self).trans fun admitted => ih fun h p hmem => ?_
    rcases List.mem_append.1 hmem with hmem | hmem
    · exact settled_releaseAll (hp h p (mem_cons_of_mem _ hmem))
    · exact settled_of_released hmem

/-- The parent of each block in `m_unknown` is there, or is a block of `m_unknown` itself that is retried first. -/
def RetriedInOrder (g : Ghost H) (s : BlockQueue H) : Prop :=
  ∀ e ∈ s.unknown.map, (view g s).Settled e.key ∨ ∃ e' ∈ s.unknown.map, e'.hash = e.key ∧ e'.key < e.key

omit [BlockRlp H] in
theorem mem_unknown_releaseAll {parent : H} {e : MapEntry H H} :
    e ∈ (s.releaseAll parent).2.unknown.map ↔ e ∈ s.unknown.map ∧ e.key ≠ parent := by
  rw [releaseAll_snd]
  simp [SizedBlockMap.removeByKeyEqual, SizedBlockMap.removeRange]

omit [BlockRlp H] in
theorem mem_released {parent : H} {e : MapEntry H H} (he : e ∈ s.unknown.map) (hkey : e.key = parent) :
    e.hash ∈ (s.releaseAll parent).1.map Prod.fst :=
  List.mem_map.2 ⟨(e.hash, e.blockData), List.mem_map.2 ⟨e, List.mem_filter.2 ⟨he, by simpa using hkey⟩, rfl⟩, rfl⟩

theorem RetriedInOrder.releaseAll (h : RetriedInOrder g s) (parent : H) (admitted : List H) :
    RetriedInOrder { g with admitted } (s.releaseAll parent).2 := by
  intro e he
  obtain ⟨he, -⟩ := mem_unknown_releaseAll.1 he
  rcases h e he with hs | ⟨e', he', heq, hlt⟩
  · exact .inl (settled_releaseAll (g := { g with admitted }) hs)
  · by_cases hkey : e'.key = parent
    · left
      rw [← heq]
      exact settled_of_released (mem_released he' hkey)
    · exact .inr ⟨e', mem_unknown_releaseAll.2 ⟨he', hkey⟩, heq, hlt⟩

omit [BlockRlp H] in
/-- The entries are in the order of their keys. -/
def KeysSorted (s : BlockQueue H) : Prop := s.unknown.map.Pairwise fun e e' => e.key ≤ e'.key

theorem admits_retryAllUnknown (s : BlockQueue H) (hsorted : s.KeysSorted) (h : strict → RetriedInOrder g s) :
    Admits strict g s s.retryAllUnknown := by
  induction s using retryAllUnknown.induct generalizing g with
  | case1 s hk => rw [retryAllUnknown, hk]; exact .of_moves rfl .refl
  | case2 s parent hk ih =>
    rw [retryAllUnknown, hk]
    have hparent : strict → (view g s).Settled parent := by
      intro hstrict
      obtain ⟨e, he, rfl⟩ := Option.map_eq_some_iff.1 hk
      obtain ⟨rest, hmap⟩ := List.head?_eq_some_iff.1 he
      refine (h hstrict e (by simp [hmap])).resolve_right ?_
      rintro ⟨e', he', -, hlt⟩
      rw [KeysSorted, hmap] at hsorted
      rw [hmap] at he'
      rcases mem_cons.1 he' with rfl | he'
      · exact lt_irrefl _ hlt
      · exact absurd hlt (not_lt.2 ((pairwise_cons.1 hsorted).1 e' he'))
    refine (admits_releaseAll parent hparent).trans fun admitted => ih ?_ fun hs => (h hs).releaseAll parent admitted
    rw [KeysSorted, releaseAll_snd]
    exact hsorted.filter _

/-! ### The verifiers -/

omit [LinearOrder H] in
theorem view_takeWork [Inhabited H] {work : UnverifiedBlock H} (h : s.takeWork = some (work, s')) :
    view g s' = view g s := by
  obtain ⟨⟨w, unverified⟩, hd, heq⟩ := Option.map_eq_some_iff.1 h
  obtain ⟨rfl, rfl⟩ := Prod.mk.inj heq
  have hqueue := SizedBlockQueue.queue_of_dequeue hd
  have hready : readyJobs { s with
      unverified
      verifying := s.verifying.enqueue ⟨⟨.placeholder w.hash w.parentHash, []⟩, []⟩ } = s.readyJobs := by
    simp only [readyJobs, hqueue, SizedBlockQueue.enqueue, List.map_append, map_cons, map_nil,
      List.append_assoc, cons_append, nil_append]
    rfl
  rw [view, hready]
  rfl

/-- The block at the front of `m_verifying` is verified, or bad as its parent is. -/
theorem moves_settle {front b : VerifiedBlock H} {verifying : SizedBlockQueue (VerifiedBlock H)}
    (hqueue : s.verifying.queue = front :: verifying.queue) (hfront : front.toJob = b.doneJob) :
    Moves strict (view g s) (view g ({ s with verifying }.settle b)) := by
  let jobs := verifying.queue.map VerifiedBlock.toJob ++ s.unverified.queue.map UnverifiedBlock.toJob
  have hbefore : s.readyJobs = s.verified.queue.map VerifiedBlock.doneJob ++ b.doneJob :: jobs := by
    rw [readyJobs, hqueue, map_cons, hfront, List.append_assoc]
    rfl
  have hafter : readyJobs { s with verifying } = s.verified.queue.map VerifiedBlock.doneJob ++ jobs :=
    List.append_assoc _ _ _
  rw [settle]
  split
  · have htake : Move strict (view g s)
        (view { g with pending := (([b.doneJob] : List (Job H)) : Multiset (Job H)) + g.pending } { s with verifying }) := by
      refine .takeOut [b.doneJob] _ ?_ ?_
      · rw [hafter, view, hbefore]
        exact (sublist_cons_self _ _).append_left _
      · rw [hafter, view, hbefore]
        exact Multiset.coe_eq_coe.2 perm_middle
    refine .head htake (.single ?_)
    exact .condemn b.doneJob g.pending rfl
  · have hsame : readyJobs { s with verifying, verified := s.verified.enqueue b } = s.readyJobs := by
      rw [hbefore]
      simp [readyJobs, SizedBlockQueue.enqueue, jobs]
    rw [show view g { s with verifying, verified := s.verified.enqueue b } =
      { view g s with ready := readyJobs { s with verifying, verified := s.verified.enqueue b } } from rfl, hsame]
    exact .refl

theorem moves_drainVerified (s : BlockQueue H) : Moves strict (view g s) (view g s.drainVerified) := by
  induction s using drainVerified.induct with
  | case1 s h => rw [drainVerified, h]
  | case2 s block verifying h hdata => rw [drainVerified, h]; simp only [hdata, if_true]; exact .refl
  | case3 s block verifying h hdata ih =>
    rw [drainVerified, h]
    simp only [hdata]
    refine (moves_settle (SizedBlockQueue.queue_of_dequeue h) ?_).trans ih
    rw [VerifiedBlock.toJob, VerifiedBlock.job_of_data hdata, VerifiedBlock.doneJob]

omit [BlockRlp H] in
theorem replace_cases (q : SizedBlockQueue (VerifiedBlock H)) (hash : H) (t : VerifiedBlock H) :
    (∃ l u l', q.queue = l ++ u :: l' ∧ u.verified.info.sha3Uncles = hash ∧ (q.replace hash t).2.queue = l ++ t :: l') ∨
      (∀ u ∈ q.queue, u.verified.info.sha3Uncles ≠ hash) ∧ (q.replace hash t).2 = q := by
  rw [SizedBlockQueue.replace]
  cases hfind : q.queue.find? (SizedBlockQueue.sha3UnclesEquals hash) with
  | none =>
    refine .inr ⟨fun u hu => ?_, rfl⟩
    simpa [SizedBlockQueue.sha3UnclesEquals] using List.find?_eq_none.1 hfind u hu
  | some u =>
    obtain ⟨hu, l, l', hl, hno⟩ := List.find?_eq_some_iff_append.1 hfind
    refine .inl ⟨l, u, l', hl, by simpa [SizedBlockQueue.sha3UnclesEquals] using hu, ?_⟩
    dsimp only
    rw [hl]
    clear hl hfind
    induction l with
    | nil => simp [SizedBlockQueue.replaceFirst, hu]
    | cons v l ih =>
      have hv := hno v (by simp)
      rw [cons_append, SizedBlockQueue.replaceFirst, if_neg (by simpa using hv), ih fun w hw => hno w (by simp [hw])]
      rfl

/-- No block that is verified and waits in `m_verifying` is taken for the one with the hash. -/
def NotMistaken (s : BlockQueue H) (hash : H) : Prop :=
  ∀ b ∈ s.verifying.queue, b.blockData ≠ [] → b.verified.info.sha3Uncles ≠ hash

omit [LinearOrder H] in
theorem NotMistaken.job {hash : H} (h : NotMistaken s hash) {b : VerifiedBlock H} (hb : b ∈ s.verifying.queue)
    (heq : b.verified.info.sha3Uncles = hash) : b.blockData = [] ∧ b.job = hash := by
  have hdata : b.blockData = [] := by
    by_contra hdata
    exact h b hb hdata heq
  exact ⟨hdata, by rw [VerifiedBlock.job_of_no_data hdata, heq]⟩

/-- A block takes the place of another one with its hash. -/
theorem move_relabel {l l' : List (VerifiedBlock H)} {u b : VerifiedBlock H}
    {verifying : SizedBlockQueue (VerifiedBlock H)} (hqueue : s.verifying.queue = l ++ u :: l')
    (hqueue' : verifying.queue = l ++ b :: l') (hjob : u.job = b.job)
    (hp : strict → u.verified.info.parentHash = b.verified.info.parentHash) :
    Move strict (view g s) (view g { s with verifying }) := by
  have hmove : Move strict (view g s) _ := .relabel
    (s.verified.queue.map VerifiedBlock.doneJob ++ l.map VerifiedBlock.toJob)
    (l'.map VerifiedBlock.toJob ++ s.unverified.queue.map UnverifiedBlock.toJob) u.job _ b.verified.info.parentHash
    (by
      rw [view, readyJobs, hqueue]
      simp [VerifiedBlock.toJob]) hp
  have hready : readyJobs { s with verifying } = s.verified.queue.map VerifiedBlock.doneJob ++ l.map VerifiedBlock.toJob ++
      ⟨u.job, b.verified.info.parentHash⟩ :: (l'.map VerifiedBlock.toJob ++
        s.unverified.queue.map UnverifiedBlock.toJob) := by
    rw [readyJobs, hqueue', hjob]
    simp [VerifiedBlock.toJob]
  rw [← hready] at hmove
  exact hmove

theorem moves_verifySucceeded {work : UnverifiedBlock H} {res : VerifiedBlock H} (hres : res.blockData ≠ [])
    (hhash : res.verified.info.hash = work.hash) (hmistaken : s.NotMistaken work.hash)
    (hp : strict → ∀ b ∈ s.verifying.queue, b.blockData = [] → b.verified.info.sha3Uncles = work.hash →
      b.verified.info.parentHash = res.verified.info.parentHash) :
    Moves strict (view g s) (view g (s.verifySucceeded work res)) := by
  have hresJob : res.job = work.hash := by rw [VerifiedBlock.job_of_data (by simpa using hres), hhash]
  have hreplace : Moves strict (view g s) (view g { s with verifying := (s.verifying.replace work.hash res).2 }) := by
    rcases replace_cases s.verifying work.hash res with
      ⟨l, u, l', hqueue, hu, hqueue'⟩ | ⟨-, heq⟩
    · obtain ⟨hdata, hjob⟩ := hmistaken.job (by simp [hqueue]) hu
      exact .single (move_relabel hqueue hqueue' (by rw [hjob, hresJob]) fun h => hp h u (by simp [hqueue]) hdata hu)
    · rw [heq]
  rw [verifySucceeded]
  split
  · rename_i front verifying h
    have hqueue := SizedBlockQueue.queue_of_dequeue h
    split
    · rename_i hwork
      obtain ⟨hdata, hjob⟩ := hmistaken.job (b := front) (by simp [hqueue]) hwork
      -- as if the result stood in `m_verifying` before it is settled
      have hrelabel : Move strict (view g s) (view g { s with verifying := ⟨res :: verifying.queue, 0⟩ }) :=
        move_relabel (l := []) hqueue rfl (by rw [hjob, hresJob]) fun h => hp h front (by simp [hqueue]) hdata hwork
      have hsettle : Moves strict (view g { s with verifying := ⟨res :: verifying.queue, 0⟩ })
          (view g ({ s with verifying }.settle res)) :=
        moves_settle (s := { s with verifying := ⟨res :: verifying.queue, 0⟩ }) rfl
          (by rw [VerifiedBlock.toJob, VerifiedBlock.job_of_data (by simpa using hres), VerifiedBlock.doneJob])
      exact .head hrelabel (hsettle.trans (moves_drainVerified _))
    · exact hreplace
  · exact hreplace

/-- What `verifyFailed` finds of the block. -/
def FindsWork (s : BlockQueue H) (hash : H) : Prop :=
  (∃ b ∈ s.verifying.queue, b.verified.info.sha3Uncles = hash) ∨
    hash ∉ s.readySet ∧ hash ∉ s.unknownSet ∧ hash ∉ s.drainingSet

omit [BlockRlp H] in
/-- Jobs of one hash are condemned together. -/
theorem moves_condemnAll {h : H} {jobs : List (Job H)} (hjobs : ∀ j ∈ jobs, j.hash = h) (hne : jobs ≠ [])
    (t : Track H) (pending : Multiset (Job H)) (ht : t.pending = (jobs : Multiset (Job H)) + pending) :
    Moves strict t { t with pending, readySet := t.readySet.erase h, bad := insert h t.bad } := by
  induction jobs generalizing t with
  | nil => exact absurd rfl hne
  | cons j jobs ih =>
    obtain rfl : j.hash = h := hjobs j mem_cons_self
    have hmove : Move strict t _ := .condemn j (jobs + pending) (by rw [ht, ← Multiset.cons_coe, Multiset.cons_add])
    cases jobs with
    | nil =>
      rw [Multiset.coe_nil, Multiset.zero_add] at hmove
      exact .single hmove
    | cons k jobs =>
      refine .head hmove ?_
      have := ih (fun j hj => hjobs j (mem_cons_of_mem _ hj)) (cons_ne_nil _ _)
        { t with
          pending := ((k :: jobs : List (Job H)) : Multiset (Job H)) + pending
          readySet := t.readySet.erase j.hash
          bad := insert j.hash t.bad } rfl
      rw [Finset.erase_idem, Finset.insert_idem] at this
      exact this

theorem moves_verifyFailed {work : UnverifiedBlock H} (hmistaken : s.NotMistaken work.hash)
    (hfinds : s.FindsWork work.hash) : Moves strict (view g s) (view g (s.verifyFailed work)) := by
  refine ReflTransGen.trans ?_ (moves_drainVerified _)
  let isWork := SizedBlockQueue.sha3UnclesEquals work.hash
  let jobs := (s.verifying.queue.filter isWork).map VerifiedBlock.toJob
  have hjobs : ∀ j ∈ jobs, j.hash = work.hash := by
    intro j hj
    obtain ⟨b, hb, rfl⟩ := List.mem_map.1 hj
    obtain ⟨hb, heq⟩ := List.mem_filter.1 hb
    exact (hmistaken.job hb (by simpa [isWork, SizedBlockQueue.sha3UnclesEquals] using heq)).2
  obtain ⟨hsub, hperm⟩ := sublist_and_perm VerifiedBlock.toJob isWork s.verifying.queue
    (s.verified.queue.map VerifiedBlock.doneJob) (s.unverified.queue.map UnverifiedBlock.toJob)
  have hready : readyJobs { s with verifying := (s.verifying.remove work.hash).2 } =
      s.verified.queue.map VerifiedBlock.doneJob ++ (s.verifying.queue.filter (!isWork ·)).map VerifiedBlock.toJob ++
        s.unverified.queue.map UnverifiedBlock.toJob := by
    rw [readyJobs, show (s.verifying.remove work.hash).2 = (s.verifying.removeIf isWork).2 from rfl,
      SizedBlockQueue.queue_removeIf]
  rw [← hready] at hsub hperm
  have htake : Move strict (view g s) _ := .takeOut jobs _ hsub hperm
  by_cases hne : jobs = []
  · have hnone : ∀ b ∈ s.verifying.queue, b.verified.info.sha3Uncles ≠ work.hash := by
      intro b hb heq
      have : b.toJob ∈ jobs := mem_map_of_mem (List.mem_filter.2 ⟨hb, by
        simpa [isWork, SizedBlockQueue.sha3UnclesEquals] using heq⟩)
      rw [hne] at this
      cases this
    obtain ⟨h₁, h₂, h₃⟩ := hfinds.resolve_left fun ⟨b, hb, heq⟩ => hnone b hb heq
    refine .head htake (.single ?_)
    rw [hne, Multiset.coe_nil, Multiset.zero_add, Finset.erase_eq_of_notMem h₁]
    exact .blame work.hash h₁ h₂ h₃
  · exact .head htake (moves_condemnAll hjobs hne _ g.pending rfl)

/-! ### Drain -/

theorem moves_foldl_noteDraining (hreported : g.reported = ∅) (out : List (VerifiedBlock H))
    (verified : SizedBlockQueue (VerifiedBlock H)) (h : s.verified.queue = out ++ verified.queue) :
    Moves strict (view g s) (view { g with delivered := g.delivered ++ out.map VerifiedBlock.doneJob }
      (out.foldl noteDraining { s with verified })) := by
  induction out generalizing g s with
  | nil =>
    have hready : readyJobs { s with verified } = s.readyJobs := by rw [readyJobs, readyJobs, h]; rfl
    rw [map_nil, append_nil, foldl_nil]
    change Moves strict (view g s) { view g s with ready := readyJobs { s with verified } }
    rw [hready]
    exact .refl
  | cons b out ih =>
    let s₁ := { s.noteDraining b with verified := ⟨out ++ verified.queue, 0⟩ }
    have hmove : Move strict (view g s) (view { g with delivered := g.delivered ++ [b.doneJob] } s₁) := by
      refine .deliver b.doneJob s₁.readyJobs ?_ hreported
      rw [view, readyJobs, h]
      rfl
    have hrest := ih (g := { g with delivered := g.delivered ++ [b.doneJob] }) (s := s₁) hreported rfl
    rw [map_cons, append_cons]
    exact .head hmove hrest

theorem moves_drain (hreported : g.reported = ∅) (max : BitVec 32) :
    Moves strict (view g s) (view { g with delivered := g.delivered ++ (s.drain max).1.map VerifiedBlock.doneJob }
      (s.drain max).2) := by
  have hsame : Moves strict (view g s) (view { g with delivered := g.delivered ++ [] } s) := by
    rw [append_nil]
  rw [drain]
  split
  · split
    · exact hsame
    · rename_i out verified h
      obtain ⟨_, hr⟩ := Option.ite_none_right_eq_some.1 h
      obtain ⟨rfl, rfl⟩ := Prod.mk.inj (Option.some.inj hr)
      exact moves_foldl_noteDraining (s := { s with drainingDifficulty := 0 }) hreported _ _
        (take_append_drop _ _).symm
  · exact hsame

/-! ### What a step puts into `m_unverified` -/

/-- `s'` comes from `s` by moves; what it has in `m_unverified` behind what `s` has there is admitted. -/
def Tracks (strict : Prop) (g : Ghost H) (s s' : BlockQueue H) : Prop :=
  Moves strict (view g s) (view { g with admitted := g.admitted ++
    (s'.unverified.queue.drop s.unverified.queue.length).map UnverifiedBlock.hash } s')

theorem Admits.tracks (h : Admits strict g s s') : Tracks strict g s s' := by
  obtain ⟨new, hnew, hm⟩ := h
  rw [Tracks, hnew, drop_left]
  exact hm

theorem Tracks.of_moves (h : s'.unverified.queue.length ≤ s.unverified.queue.length)
    (hm : Moves strict (view g s) (view g s')) : Tracks strict g s s' := by
  rw [Tracks, drop_eq_nil_of_le h, map_nil, append_nil]
  exact hm

/-! ### Import -/

omit [BlockRlp H] [LinearOrder H] in
theorem perm_insertEntry [LinearOrder H] (e : MapEntry H H) (l : List (MapEntry H H)) :
    (SizedBlockMap.insertEntry e l).Perm (e :: l) := by
  induction l with
  | nil => exact .refl _
  | cons x l ih =>
    rw [SizedBlockMap.insertEntry]
    split
    · exact .refl _
    · exact (ih.cons x).trans (.swap e x l)

/-- The parents of blocks that are new are known to the chain only if they do not wait here. -/
def ParentNotWaiting (s : BlockQueue H) (env : ImportEnv H) (block : Bytes) : Prop :=
  ∀ bi, s.Taken env block bi → env.isKnown bi.parentHash = true → bi.parentHash ∉ s.unknownSet

theorem tracks_importBlock {env : ImportEnv H} {block : Bytes} {isOurs : Bool}
    (hC : (Event.importBlock env block isOurs).Throughout BadAtEnd s)
    (hknown : strict → ∀ h, g.known h ↔ env.isKnown h = true) (hparent : strict → s.ParentNotWaiting env block) :
    Tracks strict g s (s.importBlock env block isOurs).2 := by
  rcases s.importBlock_cases env block isOurs with ⟨heq, -⟩ | ⟨bi, htaken, hcases⟩
  · rw [heq]
    exact .of_moves (le_refl _) .refl
  have hfresh : (view g s).Fresh bi.hash := ⟨htaken.notReady, htaken.notUnknown, htaken.notDraining, htaken.notBad⟩
  have hnotKnown : strict → ¬ (view g s).known bi.hash := by
    intro h hk
    have := (hknown h _).1 hk
    rw [htaken.notInChain] at this
    cases this
  rcases hcases with ⟨-, r, -, heq⟩ | ⟨hfuture, hbad, heq⟩ | ⟨-, -, -, heq⟩ | ⟨-, -, hthere, heq⟩ <;> rw [heq]
  · exact .of_moves (le_refl _) .refl
  · have hblame : Move strict (view g s) (view g { s with knownBad := insert bi.hash s.knownBad }) :=
      .blame bi.hash htaken.notReady htaken.notUnknown htaken.notDraining
    exact .of_moves (within_updateBad { s with knownBad := insert bi.hash s.knownBad } bi.hash).unverified.length_le
      (.head hblame (moves_updateBad (hC bi htaken hfuture hbad)))
  · have hhold : Move strict (view g s) _ := .hold ⟨bi.hash, bi.parentHash⟩ hfresh hnotKnown
    refine .of_moves (le_refl _) (.single ?_)
    have hperm : (((s.unknown.insert bi.parentHash bi.hash block).map.map MapEntry.toJob : List (Job H)) :
        Multiset (Job H)) = ⟨bi.hash, bi.parentHash⟩ ::ₘ ((s.unknown.map.map MapEntry.toJob : List (Job H)) :
          Multiset (Job H)) :=
      Multiset.coe_eq_coe.2 ((perm_insertEntry _ _).map MapEntry.toJob)
    rw [show (view g s).waiting = ((s.unknown.map.map MapEntry.toJob : List (Job H)) : Multiset (Job H)) from rfl,
      ← hperm] at hhold
    exact hhold
  · have hsettled : strict → (view g s).Settled bi.parentHash := by
      intro h
      simp only [ParentUnknown, not_and_or, not_not, Bool.not_eq_false] at hthere
      rcases hthere with hthere | hthere | hthere
      · exact .inl hthere
      · exact .inr (.inl hthere)
      · exact .inr (.inr ⟨(hknown h _).2 hthere, hparent h bi htaken hthere⟩)
    have haccept : Admits strict g s { s with
        unverified := s.unverified.enqueue ⟨bi.hash, bi.parentHash, block⟩
        readySet := insert bi.hash s.readySet
        difficulty := s.difficulty + bi.difficulty } := by
      have hmove : Move strict (view g s) _ := .accept ⟨bi.hash, bi.parentHash⟩ hfresh hnotKnown hsettled
      refine ⟨[⟨bi.hash, bi.parentHash, block⟩], rfl, .single ?_⟩
      have hready : readyJobs { s with
          unverified := s.unverified.enqueue ⟨bi.hash, bi.parentHash, block⟩
          readySet := insert bi.hash s.readySet
          difficulty := s.difficulty + bi.difficulty } = s.readyJobs ++ [⟨bi.hash, bi.parentHash⟩] := by
        simp only [readyJobs, SizedBlockQueue.enqueue, List.map_append, ← List.append_assoc]
        rfl
      rw [show (view g s).ready = s.readyJobs from rfl, ← hready] at hmove
      exact hmove
    refine Admits.tracks (haccept.trans fun admitted => admits_noteReadyLoop _ _ fun _ p hp => ?_)
    rw [mem_singleton.1 hp]
    exact .inl (Finset.mem_insert_self _ _)

/-! ### After `updateBad` no block is left that it could take out -/

/-- No block in the queues is bad. -/
structure Clean (s : BlockQueue H) : Prop where
  verified : ∀ b ∈ s.verified.queue, s.isBadVerified b = false
  unverified : ∀ b ∈ s.unverified.queue, s.isBadUnverified b = false
  verifying : ∀ b ∈ s.verifying.queue, s.isBadVerifying b = false

omit [LinearOrder H] [BlockRlp H] in
/-- A `removeIf` that returns nothing removes nothing. -/
theorem removeIf_eq_of_isEmpty {T : Type} [Movable T] {q : SizedBlockQueue T} {p : T → Bool}
    (h : (q.removeIf p).1.isEmpty = true) : (∀ t ∈ q.queue, p t = false) ∧ (q.removeIf p).2.queue = q.queue := by
  have hlen : (q.queue.filter p).length = 0 := by
    have hremoved : (removedRange moved p q.queue).length = (q.queue.filter p).length := length_removedRange
    rw [← hremoved, length_eq_zero_iff]
    exact List.isEmpty_iff.1 h
  have hnone : ∀ t ∈ q.queue, p t = false := by
    simpa using filter_eq_nil_iff.1 (length_eq_zero_iff.1 hlen)
  refine ⟨hnone, ?_⟩
  rw [SizedBlockQueue.queue_removeIf]
  exact filter_eq_self.2 fun t ht => by simp [hnone t ht]

theorem sweepVerified_of_isEmpty (h : s.sweepVerified.2 = false) :
    s.sweepVerified.1 = { s with verified := (s.verified.removeIf s.isBadVerified).2 } ∧
      (s.verified.removeIf s.isBadVerified).1.isEmpty = true := by
  have hempty : (s.verified.removeIf s.isBadVerified).1.isEmpty = true := by
    change (!(s.verified.removeIf s.isBadVerified).1.isEmpty) = false at h
    simpa only [Bool.not_eq_false'] using h
  refine ⟨?_, hempty⟩
  rw [sweepVerified_fst, List.isEmpty_iff.1 hempty]
  rfl

omit [BlockRlp H] in
theorem sweepUnverified_of_isEmpty (h : s.sweepUnverified.2 = false) :
    s.sweepUnverified.1 = { s with unverified := (s.unverified.removeIf s.isBadUnverified).2 } ∧
      (s.unverified.removeIf s.isBadUnverified).1.isEmpty = true := by
  have hempty : (s.unverified.removeIf s.isBadUnverified).1.isEmpty = true := by
    change (!(s.unverified.removeIf s.isBadUnverified).1.isEmpty) = false at h
    simpa only [Bool.not_eq_false'] using h
  refine ⟨?_, hempty⟩
  rw [sweepUnverified_fst, List.isEmpty_iff.1 hempty]
  rfl

theorem sweepVerifying_of_isEmpty (h : s.sweepVerifying.2 = false) :
    s.sweepVerifying.1 = { s with verifying := (s.verifying.removeIf s.isBadVerifying).2 } ∧
      (s.verifying.removeIf s.isBadVerifying).1.isEmpty = true := by
  have hempty : (s.verifying.removeIf s.isBadVerifying).1.isEmpty = true := by
    change (!(s.verifying.removeIf s.isBadVerifying).1.isEmpty) = false at h
    simpa only [Bool.not_eq_false'] using h
  refine ⟨?_, hempty⟩
  rw [sweepVerifying_fst, List.isEmpty_iff.1 hempty]
  rfl

theorem clean_sweep {s : BlockQueue H} (h : s.sweep.2 = false) : s.sweep.1.Clean := by
  have hmore : (s.sweepVerified.2 || s.sweepVerified.1.sweepUnverified.2 ||
      s.sweepVerified.1.sweepUnverified.1.sweepVerifying.2) = false := h
  simp only [Bool.or_eq_false_iff] at hmore
  obtain ⟨⟨h₁, h₂⟩, h₃⟩ := hmore
  obtain ⟨heq₁, hempty₁⟩ := sweepVerified_of_isEmpty h₁
  obtain ⟨heq₂, hempty₂⟩ := sweepUnverified_of_isEmpty h₂
  obtain ⟨heq₃, hempty₃⟩ := sweepVerifying_of_isEmpty h₃
  rw [show s.sweep.1 = s.sweepVerified.1.sweepUnverified.1.sweepVerifying.1 from rfl, heq₃]
  rw [heq₂, heq₁] at hempty₃ ⊢
  rw [heq₁] at hempty₂
  obtain ⟨hnone₁, hqueue₁⟩ := removeIf_eq_of_isEmpty hempty₁
  obtain ⟨hnone₂, hqueue₂⟩ := removeIf_eq_of_isEmpty hempty₂
  obtain ⟨hnone₃, hqueue₃⟩ := removeIf_eq_of_isEmpty hempty₃
  exact ⟨fun b hb => hnone₁ b (hqueue₁ ▸ hb), fun b hb => hnone₂ b (hqueue₂ ▸ hb), fun b hb => hnone₃ b (hqueue₃ ▸ hb)⟩

theorem clean_updateBadLoop (s : BlockQueue H) : (updateBadLoop s).Clean := by
  induction s using updateBadLoop.induct with
  | case1 s h ih => rwa [updateBadLoop, if_pos h]
  | case2 s h =>
    rw [updateBadLoop, if_neg h]
    exact clean_sweep (by simpa using h)

theorem clean_foldl_updateBad {bad : List H} (hne : bad ≠ []) (s : BlockQueue H) :
    (bad.foldl updateBad s).Clean := by
  induction bad generalizing s with
  | nil => exact absurd rfl hne
  | cons b bad ih =>
    cases bad with
    | nil => exact clean_updateBadLoop _
    | cons c bad => exact ih (cons_ne_nil _ _) _

/-- What `doneDrain` may report: no block that waits for its parent or for those verified before it. -/
def Reportable (s : BlockQueue H) (bad : List H) : Prop :=
  ∀ h ∈ bad, h ∉ s.unknownSet ∧ ∀ b ∈ s.verifying.queue, b.blockData ≠ [] → b.verified.info.hash ≠ h

theorem tracks_doneDrain {bad : List H} (hreported : g.reported = ∅) (hpending : g.pending = 0)
    (ht : Consistent (view g s)) (hbad : s.Reportable bad) (hC : (Event.doneDrain bad).Throughout BadAtEnd s) :
    Tracks strict g s (s.doneDrain bad).2 := by
  rw [doneDrain_eq]
  let g' : Ghost H := { g with reported := g.reported ∪ bad.toFinset }
  have hclose : Move strict (view g s) (view g { s with drainingSet := ∅ }) := .close
  have hreport : Move strict (view g { s with drainingSet := ∅ }) (view g' (s.reported bad)) := by
    refine .report bad.toFinset ?_ rfl
    exact Finset.disjoint_left.2 fun h hh => (hbad h (mem_toFinset.1 hh)).1
  have hupdate : Moves strict (view g' (s.reported bad)) (view g' (bad.foldl updateBad (s.reported bad))) :=
    moves_foldl_updateBad hC
  have hbefore : Moves strict (view g s) (view g' (bad.foldl updateBad (s.reported bad))) :=
    .head hclose (.head hreport hupdate)
  have hsettle : Move strict (view g' (bad.foldl updateBad (s.reported bad)))
      { view g' (bad.foldl updateBad (s.reported bad)) with reported := ∅ } := by
    refine .settle (Finset.disjoint_left.2 fun h hready hrep => ?_)
    have hmem : h ∈ bad := by simpa [view, g', hreported] using hrep
    have hclean := clean_foldl_updateBad (ne_nil_of_mem hmem) (s.reported bad)
    have hknown : h ∈ (bad.foldl updateBad (s.reported bad)).knownBad :=
      bad_subset_of_moves hupdate (Finset.mem_union_right _ (mem_toFinset.2 hmem))
    have hcount := (ht.moves hbefore h).ready
    rw [if_pos hready, count_active] at hcount
    have hjob : h ∈ (bad.foldl updateBad (s.reported bad)).readyJobs.map Job.hash := by
      refine count_pos_iff.1 ?_
      simp only [view, g', hpending, Multiset.map_zero, Multiset.count_zero] at hcount
      omega
    simp only [readyJobs, List.map_append, List.map_map, List.mem_append, List.mem_map] at hjob
    rcases hjob with (⟨b, hb, rfl⟩ | ⟨b, hb, rfl⟩) | ⟨b, hb, rfl⟩
    · exact absurd hknown (by simpa [VerifiedBlock.doneJob] using (Bool.or_eq_false_iff.1 (hclean.verified b hb)).2)
    · by_cases hdata : b.blockData = []
      · refine absurd hknown ?_
        rw [show (Job.hash ∘ VerifiedBlock.toJob) b = b.job from rfl, VerifiedBlock.job_of_no_data hdata]
        simpa using (Bool.or_eq_false_iff.1 (hclean.verifying b hb)).2
      · refine (hbad _ hmem).2 b (((within_foldl_updateBad bad (s.reported bad)).verifying.subset hb)) hdata ?_
        exact (VerifiedBlock.job_of_data (by simpa using hdata)).symm
    · exact absurd hknown (by simpa [UnverifiedBlock.toJob] using (Bool.or_eq_false_iff.1 (hclean.unverified b hb)).2)
  refine .of_moves (within_foldl_updateBad bad (s.reported bad)).unverified.length_le (hbefore.tail ?_)
  rw [show view g (bad.foldl updateBad (s.reported bad)) =
    { view g' (bad.foldl updateBad (s.reported bad)) with reported := g.reported } from rfl, hreported]
  exact hsettle

end BlockQueue

end Kmdx
