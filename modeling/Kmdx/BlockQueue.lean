import Kmdx.SizedBlocks

/-!
# The block queue (`libwing/BlockQueue`)

Each function is what runs under the locks without a break: `verifierBody` is `takeWork` under
`m_verification`, then the verification with no lock held, then `verifyFailed` or `verifySucceeded`; `tick`
takes the blocks out of `m_future`, each of which is then imported.
-/

namespace Kmdx

open List

variable {H : Type}

/-- What a block's bytes hold. -/
class BlockRlp (H : Type) where
  /-- `BlockHeader(_block)`; none if `extractHeader` throws. -/
  headerOf : Bytes → Option (BlockHeader H)
  /-- `BlockHeader::hash` -/
  hash : BlockHeader H → H
  headerOf_nil : headerOf [] = none

export BlockRlp (headerOf)

section

variable [BlockRlp H]

def BlockHeader.hash (header : BlockHeader H) : H := BlockRlp.hash header

end

/-- The hash of a block in `m_verifying`: it is kept as the uncles' hash until the block has its data. -/
def VerifiedBlock.job [BlockRlp H] (b : VerifiedBlock H) : H :=
  if b.blockData.length ≠ 0 then b.verified.info.hash else b.verified.info.sha3Uncles

theorem VerifiedBlock.job_of_data [BlockRlp H] {b : VerifiedBlock H} (h : ¬ b.blockData.isEmpty = true) :
    b.job = b.verified.info.hash := by
  rw [job, if_pos]
  simpa using h

theorem VerifiedBlock.job_of_no_data [BlockRlp H] {b : VerifiedBlock H} (h : b.blockData = []) :
    b.job = b.verified.info.sha3Uncles := by
  rw [job, if_neg]
  simpa using h

/-- A default `BlockHeader` after `setSha3Uncles` and `setParentHash`. -/
def BlockHeader.placeholder [Inhabited H] (hash parentHash : H) : BlockHeader H where
  parentHash := parentHash
  sha3Uncles := hash
  author := 0
  stateRoot := default
  transactionsRoot := default
  receiptsRoot := default
  logBloom := 0
  difficulty := 0
  number := 0
  gasLimit := 0
  gasUsed := 0
  timestamp := 0
  extraData := []
  sealFields := []

inductive ImportResult
  | success
  | unknownParent
  | futureTimeKnown
  | futureTimeUnknown
  | alreadyInChain
  | alreadyKnown
  | malformed
  | overbidGasPrice
  | badChain
  | zeroSignature
deriving DecidableEq

/-- What `import` asks of others: `m_bc` and the clock. -/
structure ImportEnv (H : Type) where
  /-- `m_bc->verifyBlock(_block, m_onBad, PostGenesis)` does not throw. -/
  verifyBlock : Bool
  isKnown : H → Bool
  utcTime : Nat

structure BlockQueue (H : Type) where
  drainingSet : Finset H := ∅
  readySet : Finset H := ∅
  unknownSet : Finset H := ∅
  unknown : SizedBlockMap H H := {}
  knownBad : Finset H := ∅
  future : SizedBlockMap Nat H := {}
  verified : SizedBlockQueue (VerifiedBlock H) := {}
  verifying : SizedBlockQueue (VerifiedBlock H) := {}
  unverified : SizedBlockQueue (UnverifiedBlock H) := {}
  difficulty : U256 := 0
  drainingDifficulty : U256 := 0

/-- `c_maxKnownCount` -/
def maxKnownCount : Nat := 100000

/-- `c_maxKnownSize` -/
def maxKnownSize : Size := 128 * 1024 * 1024

/-- `c_maxUnknownCount` -/
def maxUnknownCount : Nat := 100000

/-- `c_maxUnknownSize` -/
def maxUnknownSize : Size := 512 * 1024 * 1024

namespace SizedBlockMap
variable {K : Type} [LinearOrder K] {m : SizedBlockMap K H} {k : K}

theorem count_removeByKeyEqual :
    (m.removeByKeyEqual k).1.length + (m.removeByKeyEqual k).2.count = m.count := by
  simp only [removeByKeyEqual, removeRange, count, length_map, ne_eq]
  rw [← length_append]
  simpa using (filter_append_perm (fun e => decide (e.key = k)) m.map).length_eq

theorem length_removeByKeyEqual_pos (h : m.firstKey = some k) : 0 < (m.removeByKeyEqual k).1.length := by
  rcases m with ⟨_ | ⟨e, l⟩, size⟩
  · cases h
  · obtain rfl : e.key = k := Option.some.inj h
    simp [removeByKeyEqual, removeRange]

end SizedBlockMap

namespace BlockQueue

/-! ### What is held -/

def knownSize (s : BlockQueue H) : Size := s.verified.size + s.unverified.size + s.verifying.size

def knownCount (s : BlockQueue H) : Nat := s.verified.count + s.unverified.count + s.verifying.count

def knownFull (s : BlockQueue H) : Bool :=
  decide (s.knownSize > maxKnownSize) || decide (s.knownCount > maxKnownCount)

def unknownSize (s : BlockQueue H) : Size := s.future.size + s.unknown.size

def unknownCount (s : BlockQueue H) : Nat := s.future.count + s.unknown.count

def unknownFull (s : BlockQueue H) : Bool :=
  decide (s.unknownSize > maxUnknownSize) || decide (s.unknownCount > maxUnknownCount)

def invariants (s : BlockQueue H) : Bool := s.readySet.card = s.knownCount

def clear (s : BlockQueue H) : BlockQueue H :=
  { s with
    readySet := ∅
    drainingSet := ∅
    verified := s.verified.clear
    unverified := s.unverified.clear
    verifying := s.verifying.clear
    unknownSet := ∅
    unknown := s.unknown.clear
    future := s.future.clear
    difficulty := 0
    drainingDifficulty := 0 }

variable [LinearOrder H]

/-! ### Bad blocks -/

/-- The body of the inner loop of `collectUnknownBad`. -/
def noteBad (s : BlockQueue H) (newBad : H × Bytes) : BlockQueue H :=
  { s with unknownSet := s.unknownSet.erase newBad.1, knownBad := insert newBad.1 s.knownBad }

theorem foldl_noteBad (removed : List (H × Bytes)) (s : BlockQueue H) : removed.foldl noteBad s =
    { s with
      unknownSet := s.unknownSet \ (removed.map Prod.fst).toFinset
      knownBad := s.knownBad ∪ (removed.map Prod.fst).toFinset } := by
  induction removed generalizing s with
  | nil => simp
  | cons b removed ih =>
    rw [foldl_cons, ih, noteBad]
    congr 1
    · ext h
      simp only [Finset.mem_sdiff, Finset.mem_erase, map_cons, toFinset_cons, Finset.mem_insert]
      tauto
    · ext h
      simp only [Finset.mem_union, map_cons, toFinset_cons, Finset.mem_insert]
      tauto

/-- `collectUnknownBad_WITH_BOTH_LOCKS`, from the queue of bad hashes on. -/
def collectUnknownBad (badQueue : List H) (s : BlockQueue H) : BlockQueue H :=
  match badQueue with
  | [] => s
  | bad :: badQueue =>
    let removed := (s.unknown.removeByKeyEqual bad).1
    let s' := { s with unknown := (s.unknown.removeByKeyEqual bad).2 }
    collectUnknownBad (badQueue ++ removed.map Prod.fst) (removed.foldl noteBad s')
termination_by badQueue.length + s.unknown.count
decreasing_by
  rw [foldl_noteBad, length_append, length_map, length_cons,
    ← SizedBlockMap.count_removeByKeyEqual (m := s.unknown) (k := bad)]
  dsimp only
  omega

/-- What `updateBad` does with a block that it took out of a queue. -/
def condemn (s : BlockQueue H) (hash : H) : BlockQueue H :=
  collectUnknownBad [hash] { s with knownBad := insert hash s.knownBad, readySet := s.readySet.erase hash }

/-- Only what is known of bad and unknown blocks changes. -/
theorem exists_collectUnknownBad (badQueue : List H) (s : BlockQueue H) :
    ∃ unknown unknownSet knownBad,
      collectUnknownBad badQueue s = { s with unknown, unknownSet, knownBad } := by
  induction badQueue, s using collectUnknownBad.induct with
  | case1 s => exact ⟨_, _, _, by rw [collectUnknownBad]⟩
  | case2 s bad badQueue removed s' ih =>
    obtain ⟨unknown, unknownSet, knownBad, h⟩ := ih
    exact ⟨unknown, unknownSet, knownBad, by rw [collectUnknownBad, h, foldl_noteBad]⟩

theorem exists_condemn (s : BlockQueue H) (hash : H) : ∃ readySet unknown unknownSet knownBad,
    s.condemn hash = { s with readySet, unknown, unknownSet, knownBad } := by
  obtain ⟨unknown, unknownSet, knownBad, h⟩ := exists_collectUnknownBad [hash]
    { s with knownBad := insert hash s.knownBad, readySet := s.readySet.erase hash }
  exact ⟨_, unknown, unknownSet, knownBad, h⟩

theorem exists_foldl_condemn {T : Type} (f : T → H) (removed : List T) (s : BlockQueue H) :
    ∃ readySet unknown unknownSet knownBad,
      removed.foldl (fun s t => s.condemn (f t)) s = { s with readySet, unknown, unknownSet, knownBad } := by
  induction removed generalizing s with
  | nil => exact ⟨_, _, _, _, rfl⟩
  | cons t removed ih =>
    obtain ⟨_, _, _, _, h⟩ := s.exists_condemn (f t)
    obtain ⟨readySet, unknown, unknownSet, knownBad, h'⟩ := ih (s.condemn (f t))
    exact ⟨readySet, unknown, unknownSet, knownBad, by rw [foldl_cons, h', h]⟩

variable [BlockRlp H]

/-- The predicate of `m_verified.removeIf`. -/
def isBadVerified (s : BlockQueue H) (b : VerifiedBlock H) : Bool :=
  decide (b.verified.info.parentHash ∈ s.knownBad) || decide (b.verified.info.hash ∈ s.knownBad)

omit [BlockRlp H] in
/-- The predicate of `m_unverified.removeIf`. -/
def isBadUnverified (s : BlockQueue H) (b : UnverifiedBlock H) : Bool :=
  decide (b.parentHash ∈ s.knownBad) || decide (b.hash ∈ s.knownBad)

omit [BlockRlp H] in
/-- The predicate of `m_verifying.removeIf`. -/
def isBadVerifying (s : BlockQueue H) (b : VerifiedBlock H) : Bool :=
  decide (b.verified.info.parentHash ∈ s.knownBad) || decide (b.verified.info.sha3Uncles ∈ s.knownBad)

def sweepVerified (s : BlockQueue H) : BlockQueue H × Bool :=
  let (badVerified, verified) := s.verified.removeIf s.isBadVerified
  (badVerified.foldl (fun s b => s.condemn b.verified.info.hash) { s with verified }, !badVerified.isEmpty)

omit [BlockRlp H] in
def sweepUnverified (s : BlockQueue H) : BlockQueue H × Bool :=
  let (badUnverified, unverified) := s.unverified.removeIf s.isBadUnverified
  (badUnverified.foldl (fun s b => s.condemn b.hash) { s with unverified }, !badUnverified.isEmpty)

def sweepVerifying (s : BlockQueue H) : BlockQueue H × Bool :=
  let (badVerifying, verifying) := s.verifying.removeIf s.isBadVerifying
  (badVerifying.foldl (fun s b => s.condemn b.job) { s with verifying }, !badVerifying.isEmpty)

theorem sweepVerified_fst (s : BlockQueue H) : s.sweepVerified.1 =
    (s.verified.removeIf s.isBadVerified).1.foldl (fun s b => s.condemn b.verified.info.hash)
      { s with verified := (s.verified.removeIf s.isBadVerified).2 } := rfl

omit [BlockRlp H] in
theorem sweepUnverified_fst (s : BlockQueue H) : s.sweepUnverified.1 =
    (s.unverified.removeIf s.isBadUnverified).1.foldl (fun s b => s.condemn b.hash)
      { s with unverified := (s.unverified.removeIf s.isBadUnverified).2 } := rfl

theorem sweepVerifying_fst (s : BlockQueue H) : s.sweepVerifying.1 =
    (s.verifying.removeIf s.isBadVerifying).1.foldl (fun s b => s.condemn b.job)
      { s with verifying := (s.verifying.removeIf s.isBadVerifying).2 } := rfl

/-- The body of the loop of `updateBad_WITH_LOCK`, with `moreBad`. -/
def sweep (s : BlockQueue H) : BlockQueue H × Bool :=
  let (s, more₁) := s.sweepVerified
  let (s, more₂) := s.sweepUnverified
  let (s, more₃) := s.sweepVerifying
  (s, more₁ || more₂ || more₃)

theorem exists_sweepVerified (s : BlockQueue H) : ∃ readySet unknown unknownSet knownBad,
    s.sweepVerified.1 =
      { s with verified := (s.verified.removeIf s.isBadVerified).2, readySet, unknown, unknownSet, knownBad } :=
  exists_foldl_condemn _ _ _

omit [BlockRlp H] in
theorem exists_sweepUnverified (s : BlockQueue H) : ∃ readySet unknown unknownSet knownBad,
    s.sweepUnverified.1 =
      { s with unverified := (s.unverified.removeIf s.isBadUnverified).2, readySet, unknown, unknownSet, knownBad } :=
  exists_foldl_condemn _ _ _

theorem exists_sweepVerifying (s : BlockQueue H) : ∃ readySet unknown unknownSet knownBad,
    s.sweepVerifying.1 =
      { s with verifying := (s.verifying.removeIf s.isBadVerifying).2, readySet, unknown, unknownSet, knownBad } :=
  exists_foldl_condemn _ _ _

/-- The loop of `updateBad` goes on only if the queues have become shorter. -/
theorem knownCount_sweep {s : BlockQueue H} (h : s.sweep.2 = true) : s.sweep.1.knownCount < s.knownCount := by
  obtain ⟨r₁, u₁, us₁, k₁, h₁⟩ := s.exists_sweepVerified
  obtain ⟨r₂, u₂, us₂, k₂, h₂⟩ := s.sweepVerified.1.exists_sweepUnverified
  obtain ⟨r₃, u₃, us₃, k₃, h₃⟩ := s.sweepVerified.1.sweepUnverified.1.exists_sweepVerifying
  have c₁ := s.verified.count_removeIf s.isBadVerified
  have c₂ := s.unverified.count_removeIf s.sweepVerified.1.isBadUnverified
  have c₃ := s.verifying.count_removeIf s.sweepVerified.1.sweepUnverified.1.isBadVerifying
  have hcount : s.sweep.1.knownCount = (s.verified.removeIf s.isBadVerified).2.count +
      (s.unverified.removeIf s.sweepVerified.1.isBadUnverified).2.count +
      (s.verifying.removeIf s.sweepVerified.1.sweepUnverified.1.isBadVerifying).2.count := by
    rw [show s.sweep.1 = s.sweepVerified.1.sweepUnverified.1.sweepVerifying.1 from rfl, h₃, h₂, h₁]
    rfl
  have hmore : s.sweep.2 = (!(s.verified.removeIf s.isBadVerified).1.isEmpty ||
      !(s.unverified.removeIf s.sweepVerified.1.isBadUnverified).1.isEmpty ||
      !(s.verifying.removeIf s.sweepVerified.1.sweepUnverified.1.isBadVerifying).1.isEmpty) := by
    have h₁' : s.sweepVerified.1.unverified = s.unverified := by rw [h₁]
    have h₂' : s.sweepVerified.1.sweepUnverified.1.verifying = s.verifying := by rw [h₂, h₁]
    rw [← h₁', ← h₂']
    rfl
  rw [hmore] at h
  simp only [Bool.or_eq_true, Bool.not_eq_true', isEmpty_eq_false_iff_exists_mem] at h
  have hlen : ∀ {T : Type} {l : List T}, (∃ x, x ∈ l) → 0 < l.length := fun ⟨_, hx⟩ => length_pos_of_mem hx
  rw [hcount, knownCount]
  rcases h with (h | h) | h <;> have := hlen h <;> omega

def updateBadLoop (s : BlockQueue H) : BlockQueue H :=
  if s.sweep.2 then updateBadLoop s.sweep.1 else s.sweep.1
termination_by s.knownCount
decreasing_by exact knownCount_sweep ‹_›

/-- `updateBad_WITH_LOCK` -/
def updateBad (s : BlockQueue H) (bad : H) : BlockQueue H := updateBadLoop (collectUnknownBad [bad] s)

/-! ### Verification -/

/-- Where a verified block goes that is no longer in `m_verifying`. -/
def settle (s : BlockQueue H) (block : VerifiedBlock H) : BlockQueue H :=
  if block.verified.info.parentHash ∈ s.knownBad then
    { s with
      readySet := s.readySet.erase block.verified.info.hash
      knownBad := insert block.verified.info.hash s.knownBad }
  else { s with verified := s.verified.enqueue block }

theorem verifying_settle (s : BlockQueue H) (block : VerifiedBlock H) :
    (s.settle block).verifying = s.verifying := by
  rw [settle]
  split <;> rfl

/-- `drainVerified_WITH_BOTH_LOCKS` -/
def drainVerified (s : BlockQueue H) : BlockQueue H :=
  match _h : s.verifying.dequeue with
  | none => s
  | some (block, verifying) =>
    if block.blockData.isEmpty then s else drainVerified ({ s with verifying }.settle block)
termination_by s.verifying.count
decreasing_by
  rw [verifying_settle]
  exact SizedBlockQueue.count_dequeue _h

/-- The start of the body of `verifierBody`, under `m_verification`. -/
def takeWork [Inhabited H] (s : BlockQueue H) : Option (UnverifiedBlock H × BlockQueue H) :=
  s.unverified.dequeue.map fun (work, unverified) =>
    let bi : BlockHeader H := .placeholder work.hash work.parentHash
    (work, { s with unverified, verifying := s.verifying.enqueue ⟨⟨bi, []⟩, []⟩ })

/-- `verifyBlock` threw. -/
def verifyFailed (s : BlockQueue H) (work : UnverifiedBlock H) : BlockQueue H :=
  drainVerified { s with
    readySet := s.readySet.erase work.hash
    knownBad := insert work.hash s.knownBad
    verifying := (s.verifying.remove work.hash).2 }

/-- `verifyBlock` gave `res`. -/
def verifySucceeded (s : BlockQueue H) (work : UnverifiedBlock H) (res : VerifiedBlock H) : BlockQueue H :=
  match s.verifying.dequeue with
  | some (front, verifying) =>
    if front.verified.info.sha3Uncles = work.hash then
      -- we're next!
      drainVerified ({ s with verifying }.settle res)
    else { s with verifying := (s.verifying.replace work.hash res).2 }
  | none => { s with verifying := (s.verifying.replace work.hash res).2 }

/-! ### Blocks with an unknown parent -/

omit [BlockRlp H] in
/-- The body of the inner loop of `noteReady` and of `retryAllUnknown`. -/
def release (parent : H) (s : BlockQueue H) (newReady : H × Bytes) : BlockQueue H :=
  { s with
    unverified := s.unverified.enqueue ⟨newReady.1, parent, newReady.2⟩
    unknownSet := s.unknownSet.erase newReady.1
    readySet := insert newReady.1 s.readySet }

omit [BlockRlp H] in
theorem foldl_release (parent : H) (removed : List (H × Bytes)) (s : BlockQueue H) :
    removed.foldl (release parent) s =
      { s with
        unverified := removed.foldl (fun q b => q.enqueue ⟨b.1, parent, b.2⟩) s.unverified
        unknownSet := s.unknownSet \ (removed.map Prod.fst).toFinset
        readySet := s.readySet ∪ (removed.map Prod.fst).toFinset } := by
  induction removed generalizing s with
  | nil => simp
  | cons b removed ih =>
    rw [foldl_cons, ih, release]
    congr 1
    · ext h
      simp only [Finset.mem_union, map_cons, toFinset_cons, Finset.mem_insert]
      tauto
    · ext h
      simp only [Finset.mem_sdiff, Finset.mem_erase, map_cons, toFinset_cons, Finset.mem_insert]
      tauto

omit [LinearOrder H] [BlockRlp H] in
theorem queue_foldl_enqueue (parent : H) (removed : List (H × Bytes)) (q : SizedBlockQueue (UnverifiedBlock H)) :
    (removed.foldl (fun q b => q.enqueue ⟨b.1, parent, b.2⟩) q).queue =
      q.queue ++ removed.map fun b => ⟨b.1, parent, b.2⟩ := by
  induction removed generalizing q with
  | nil => simp
  | cons b removed ih =>
    rw [foldl_cons, ih, SizedBlockQueue.enqueue, append_assoc]
    rfl

omit [BlockRlp H] in
/-- The body of the outer loop of both. -/
def releaseAll (s : BlockQueue H) (parent : H) : List (H × Bytes) × BlockQueue H :=
  let (removed, unknown) := s.unknown.removeByKeyEqual parent
  (removed, removed.foldl (release parent) { s with unknown })

omit [BlockRlp H] in
theorem releaseAll_snd (s : BlockQueue H) (parent : H) : (s.releaseAll parent).2 =
    { s with
      unknown := (s.unknown.removeByKeyEqual parent).2
      unverified := (s.releaseAll parent).1.foldl (fun q b => q.enqueue ⟨b.1, parent, b.2⟩) s.unverified
      unknownSet := s.unknownSet \ ((s.releaseAll parent).1.map Prod.fst).toFinset
      readySet := s.readySet ∪ ((s.releaseAll parent).1.map Prod.fst).toFinset } := foldl_release _ _ _

omit [BlockRlp H] in
theorem count_releaseAll (s : BlockQueue H) (parent : H) :
    (s.releaseAll parent).1.length + (s.releaseAll parent).2.unknown.count = s.unknown.count := by
  rw [releaseAll_snd]
  exact SizedBlockMap.count_removeByKeyEqual

omit [BlockRlp H] in
/-- `noteReady_WITH_LOCK`, from the queue of good hashes on. -/
def noteReadyLoop (goodQueue : List H) (s : BlockQueue H) : BlockQueue H :=
  match goodQueue with
  | [] => s
  | parent :: goodQueue =>
    noteReadyLoop (goodQueue ++ (s.releaseAll parent).1.map Prod.fst) (s.releaseAll parent).2
termination_by goodQueue.length + s.unknown.count
decreasing_by
  rw [length_append, length_map, length_cons, ← s.count_releaseAll parent]
  omega

omit [BlockRlp H] in
def noteReady (s : BlockQueue H) (good : H) : BlockQueue H := noteReadyLoop [good] s

omit [BlockRlp H] in
def retryAllUnknown (s : BlockQueue H) : BlockQueue H :=
  match _h : s.unknown.firstKey with
  | none => s
  | some parent => retryAllUnknown (s.releaseAll parent).2
termination_by s.unknown.count
decreasing_by
  rw [← s.count_releaseAll parent]
  exact Nat.lt_add_of_pos_left (SizedBlockMap.length_removeByKeyEqual_pos _h)

section

variable {P : BlockQueue H → Prop} (hP : ∀ s parent, P s → P (s.releaseAll parent).2) {s : BlockQueue H}
include hP

omit [BlockRlp H] in
/-- What a release preserves, the loops preserve too. -/
theorem noteReadyLoop_preserves (goodQueue : List H) (hs : P s) : P (noteReadyLoop goodQueue s) := by
  induction goodQueue, s using noteReadyLoop.induct with
  | case1 s => rwa [noteReadyLoop]
  | case2 s parent goodQueue ih =>
    rw [noteReadyLoop]
    exact ih (hP s parent hs)

omit [BlockRlp H] in
theorem retryAllUnknown_preserves (hs : P s) : P s.retryAllUnknown := by
  induction s using retryAllUnknown.induct with
  | case1 s h => rwa [retryAllUnknown, h]
  | case2 s parent h ih =>
    rw [retryAllUnknown, h]
    exact ih (hP s parent hs)

end

/-! ### Import and drain -/

/-- None if the bytes have no header: then `headerHashFromBlock` throws. -/
def importBlock (s : BlockQueue H) (env : ImportEnv H) (block : Bytes) (isOurs : Bool) :
    Option ImportResult × BlockQueue H :=
  match headerOf block with
  | none => (none, s)
  | some bi =>
    let h : H := bi.hash
    if h ∈ s.readySet ∨ h ∈ s.drainingSet ∨ h ∈ s.unknownSet ∨ h ∈ s.knownBad then (some .alreadyKnown, s)
    else if !env.verifyBlock then (some .malformed, s)
    else if env.isKnown h then (some .alreadyInChain, s)
    else
      let unknown :=
        bi.parentHash ∉ s.readySet ∧ bi.parentHash ∉ s.drainingSet ∧ env.isKnown bi.parentHash = false
      -- Check it's not in the future
      if bi.timestamp > env.utcTime ∧ isOurs = false then
        (some (if unknown then .futureTimeUnknown else .futureTimeKnown),
          { s with
            future := s.future.insert bi.timestamp h block
            difficulty := s.difficulty + bi.difficulty })
      else if bi.parentHash ∈ s.knownBad then
        -- bad parent; this is bad too, note it as such
        (some .badChain, { s with knownBad := insert h s.knownBad }.updateBad h)
      else if unknown then
        (some .unknownParent,
          { s with
            unknown := s.unknown.insert bi.parentHash h block
            unknownSet := insert h s.unknownSet
            difficulty := s.difficulty + bi.difficulty })
      else
        (some .success,
          { s with
            unverified := s.unverified.enqueue ⟨h, bi.parentHash, block⟩
            readySet := insert h s.readySet
            difficulty := s.difficulty + bi.difficulty }.noteReady h)

omit [LinearOrder H] [BlockRlp H] in
/-- What `tick` takes out of `m_future` to import it. -/
def tick (s : BlockQueue H) (t : Nat) : List (H × Bytes) × BlockQueue H :=
  match s.future.firstKey with
  | none => ([], s)
  | some first =>
    if t < first then ([], s)
    else
      let (todo, future) := s.future.removeByKeyNotGreater t
      (todo, { s with future })

/-- The body of the loop of `drain`. -/
def noteDraining (s : BlockQueue H) (bs : VerifiedBlock H) : BlockQueue H :=
  { s with
    drainingSet := insert bs.verified.info.hash s.drainingSet
    drainingDifficulty := s.drainingDifficulty + bs.verified.info.difficulty
    readySet := s.readySet.erase bs.verified.info.hash }

/-- With what it appends to an empty `o_out`; `unsigned` has 32 bits. -/
def drain (s : BlockQueue H) (max : BitVec 32) : List (VerifiedBlock H) × BlockQueue H :=
  if s.drainingSet = ∅ then
    match s.verified.dequeueMultiple (min max.toNat (s.verified.count % 2 ^ 32)) with
    | none => ([], s)
    | some (out, verified) => (out, out.foldl noteDraining { s with verified, drainingDifficulty := 0 })
  else ([], s)

def doneDrain (s : BlockQueue H) (bad : List H) : Bool × BlockQueue H :=
  let s := { s with
    drainingSet := ∅
    difficulty := s.difficulty - s.drainingDifficulty
    drainingDifficulty := 0 }
  -- at least one of them was bad.
  let s := if bad.isEmpty then s
    else bad.foldl updateBad { s with knownBad := s.knownBad ∪ bad.toFinset }
  (decide (s.readySet ≠ ∅), s)

end BlockQueue

end Kmdx
