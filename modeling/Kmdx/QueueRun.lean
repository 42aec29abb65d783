import Kmdx.BlockQueue
import Kmdx.Lib.JobTrack

/-!
# Runs of the block queue

`System` is the queue with the verifiers' work in hand, and what a run has done so far. A step is one of
the functions of the queue; between a verifier's `takeWork` and its `verifySucceeded` or `verifyFailed` any
steps may come, of other verifiers too. The blocks that `tick` takes out are imported by later steps.

`std::remove_if` gives the blocks that `removeIf` is to return only where they are the last ones already.
`Throughout` says that something holds of the queues at every turn of the loop of `updateBad`.
-/

namespace Kmdx

open RemoveIf Relation
open JobTrack (Job)

variable {H : Type}

structure System (H : Type) where
  bq : BlockQueue H := {}
  /-- What the verifiers have taken out of `m_unverified`. -/
  working : List (UnverifiedBlock H) := []
  /-- The blocks that were queued, or found to have a bad parent. -/
  imported : List (Job H) := []
  /-- Those whose verification threw or that `doneDrain` reported. -/
  blamed : List H := []
  /-- What was put into `m_unverified`. -/
  admitted : List H := []
  delivered : List (VerifiedBlock H) := []
  /-- What the chain has known. -/
  known : H → Bool := fun _ => false

inductive Event (H : Type)
  | importBlock (env : ImportEnv H) (block : Bytes) (isOurs : Bool)
  | tick (t : Nat)
  | takeWork
  | verifyFailed (i : Nat)
  | verifySucceeded (i : Nat) (transactions : List Transaction)
  | drain (max : BitVec 32)
  | doneDrain (bad : List H)
  /-- With what the chain knows by then. -/
  | noteReady (isKnown : H → Bool) (good : H)
  | retryAllUnknown (isKnown : H → Bool)
  | clear

def ImportResult.isQueued : ImportResult → Bool
  | .success | .unknownParent | .futureTimeKnown | .futureTimeUnknown | .badChain => true
  | _ => false

namespace System

variable [LinearOrder H] [Inhabited H] [BlockRlp H]

/-- The queue becomes `bq`; what it got at the end of `m_unverified` is noted. -/
def put (s : System H) (bq : BlockQueue H) : System H :=
  { s with
    bq
    admitted := s.admitted ++ (bq.unverified.queue.drop s.bq.unverified.queue.length).map UnverifiedBlock.hash }

/-- None if there is no such work in hand. -/
def step (s : System H) : Event H → Option (System H)
  | .importBlock env block isOurs =>
    let r := s.bq.importBlock env block isOurs
    let imported := match headerOf block, r.1 with
      | some bi, some result => if result.isQueued then ⟨bi.hash, bi.parentHash⟩ :: s.imported else s.imported
      | _, _ => s.imported
    some { s.put r.2 with imported, known := fun h => s.known h || env.isKnown h }
  | .tick t => some (s.put (s.bq.tick t).2)
  | .takeWork => s.bq.takeWork.map fun (work, bq) => { s with bq, working := work :: s.working }
  | .verifyFailed i => (s.working[i]?).map fun work =>
    { s.put (s.bq.verifyFailed work) with working := s.working.eraseIdx i, blamed := work.hash :: s.blamed }
  | .verifySucceeded i transactions => (s.working[i]?).bind fun work => (headerOf work.blockData).map fun info =>
    let res := { verified := { info, transactions }, blockData := work.blockData }
    { s.put (s.bq.verifySucceeded work res) with working := s.working.eraseIdx i }
  | .drain max =>
    let r := s.bq.drain max
    some { s.put r.2 with delivered := s.delivered ++ r.1 }
  | .doneDrain bad => some { s.put (s.bq.doneDrain bad).2 with blamed := bad ++ s.blamed }
  | .noteReady isKnown good =>
    some { s.put (s.bq.noteReady good) with known := fun h => s.known h || isKnown h }
  | .retryAllUnknown isKnown =>
    some { s.put s.bq.retryAllUnknown with known := fun h => s.known h || isKnown h }
  | .clear => some (s.put s.bq.clear)

/-- The states that runs reach whose steps all meet `C`. -/
def Reaches (C : System H → Event H → Prop) (s : System H) : Prop :=
  ReflTransGen (fun s s' => ∃ e, C s e ∧ s.step e = some s') {} s

variable {C : System H → Event H → Prop} {s s' : System H}

theorem Reaches.induction {I : System H → Prop} (h₀ : I {})
    (hstep : ∀ s e s', I s → C s e → s.step e = some s' → I s') (h : Reaches C s) : I s := by
  induction h with
  | refl => exact h₀
  | tail _ h ih =>
    obtain ⟨e, hC, he⟩ := h
    exact hstep _ e _ ih hC he

theorem Reaches.step {e : Event H} (hs : Reaches C s)
    (h : s.step e = some s') (hC : C s e) : Reaches C s' := hs.tail ⟨e, hC, h⟩

/-- Step after step, as far as each is possible. -/
def run (s : System H) (events : List (Event H)) : Option (System H) := events.foldlM step s

theorem run_cons {e : Event H} {events : List (Event H)} :
    s.run (e :: events) = some s' ↔ ∃ t, s.step e = some t ∧ t.run events = some s' := Option.bind_eq_some_iff

theorem Reaches.run {events : List (Event H)}
    (hs : Reaches C s) (hC : ∀ s, ∀ e ∈ events, C s e) (h : s.run events = some s') : Reaches C s' := by
  induction events generalizing s with
  | nil => exact Option.some.inj h ▸ hs
  | cons e events ih =>
    obtain ⟨t, ht, h⟩ := run_cons.1 h
    exact ih (hs.step ht (hC s e List.mem_cons_self)) (fun s e he => hC s e (List.mem_cons_of_mem _ he)) h

/-- Step after step, as far as `P` holds before each. -/
def runWhile (P : System H → Event H → Bool) (s : System H) (events : List (Event H)) : Option (System H) :=
  events.foldlM (fun s e => if P s e then s.step e else none) s

theorem Reaches.runWhile {P : System H → Event H → Bool} {events : List (Event H)}
    (hs : Reaches C s) (hC : ∀ s e, P s e = true → C s e) (h : s.runWhile P events = some s') :
    Reaches C s' ∧ s.run events = some s' := by
  induction events generalizing s with
  | nil => exact ⟨Option.some.inj h ▸ hs, h⟩
  | cons e events ih =>
    obtain ⟨t, ht, h⟩ := Option.bind_eq_some_iff.1 h
    obtain ⟨hP, ht⟩ := Option.ite_none_right_eq_some.1 ht
    obtain ⟨hs', hrun⟩ := ih (hs.step ht (hC s e hP)) h
    exact ⟨hs', run_cons.2 ⟨t, ht, hrun⟩⟩

end System

/-- Blocks of three bytes: the hash, the parent's hash and the uncles' hash. -/
instance : BlockRlp Nat where
  headerOf
    | [hash, parentHash, sha3Uncles] =>
      some { BlockHeader.placeholder sha3Uncles.toNat parentHash.toNat with number := hash.toNat }
    | _ => none
  hash header := header.number
  headerOf_nil := rfl

/-- Blocks of three bytes as those of numbers; the hash is also the difficulty and the time. -/
instance : BlockRlp (Fin 256) where
  headerOf
    | [hash, parentHash, sha3Uncles] =>
      some { BlockHeader.placeholder sha3Uncles.toFin parentHash.toFin with
        number := hash.toNat
        timestamp := hash.toNat
        difficulty := BitVec.ofNat 256 hash.toNat }
    | _ => none
  hash header := Fin.ofNat 256 header.number
  headerOf_nil := rfl

/-- A chain that has the blocks in `blocks`. -/
def ImportEnv.having (blocks : List Nat) : ImportEnv Nat where
  verifyBlock := true
  isKnown h := blocks.contains h
  utcTime := 0

/-- The chain has block 0 only. -/
def ImportEnv.atTime (utcTime : Nat) : ImportEnv (Fin 256) where
  verifyBlock := true
  isKnown h := h = 0
  utcTime

namespace BlockQueue

variable [LinearOrder H] [BlockRlp H]

/-- `P` holds of the queue at every turn of the loop. -/
inductive Throughout (P : BlockQueue H → Prop) : BlockQueue H → Prop
  | turn {s} : P s → (s.sweep.2 = true → Throughout P s.sweep.1) → Throughout P s

/-- In a turn of the loop, each `removeIf` finds the bad blocks behind the good ones. -/
structure BadAtEnd (s : BlockQueue H) : Prop where
  verified : AtEnd s.isBadVerified s.verified.queue
  unverified : AtEnd s.sweepVerified.1.isBadUnverified s.unverified.queue
  verifying : AtEnd s.sweepVerified.1.sweepUnverified.1.isBadVerifying s.verifying.queue

/-- `P` holds throughout the `updateBad`s of `doneDrain`. -/
def ThroughoutAll (P : BlockQueue H → Prop) : BlockQueue H → List H → Prop
  | _, [] => True
  | s, b :: bad => Throughout P (collectUnknownBad [b] s) ∧ ThroughoutAll P (s.updateBad b) bad

/-! ### What `updateBad` leaves -/

omit [LinearOrder H] [BlockRlp H] in
/-- `s'` holds nothing that `s` does not hold. -/
structure Within (s s' : BlockQueue H) : Prop where
  verified : s'.verified.queue.Sublist s.verified.queue
  verifying : s'.verifying.queue.Sublist s.verifying.queue
  unverified : s'.unverified.queue.Sublist s.unverified.queue
  unknown : s'.unknown.map.Sublist s.unknown.map

omit [LinearOrder H] [BlockRlp H] in
theorem Within.refl (s : BlockQueue H) : Within s s := ⟨.refl _, .refl _, .refl _, .refl _⟩

omit [LinearOrder H] [BlockRlp H] in
theorem Within.trans {s s' s'' : BlockQueue H} (h : Within s s') (h' : Within s' s'') : Within s s'' :=
  ⟨h'.verified.trans h.verified, h'.verifying.trans h.verifying, h'.unverified.trans h.unverified,
    h'.unknown.trans h.unknown⟩

omit [BlockRlp H] in
theorem within_collectUnknownBad (badQueue : List H) (s : BlockQueue H) :
    Within s (collectUnknownBad badQueue s) := by
  induction badQueue, s using collectUnknownBad.induct with
  | case1 s => rw [collectUnknownBad]; exact .refl s
  | case2 s bad badQueue removed s' ih =>
    rw [collectUnknownBad]
    rw [foldl_noteBad] at ih ⊢
    have hremove : Within s { s with
        unknown := (s.unknown.removeByKeyEqual bad).2
        unknownSet := s.unknownSet \ (removed.map Prod.fst).toFinset
        knownBad := s.knownBad ∪ (removed.map Prod.fst).toFinset } :=
      ⟨.refl _, .refl _, .refl _, List.filter_sublist⟩
    exact hremove.trans ih

omit [BlockRlp H] in
theorem within_foldl_condemn {T : Type} (f : T → H) (removed : List T) (s : BlockQueue H) :
    Within s (removed.foldl (fun s t => s.condemn (f t)) s) := by
  induction removed generalizing s with
  | nil => exact .refl s
  | cons t removed ih =>
    have hnote : Within s { s with knownBad := insert (f t) s.knownBad, readySet := s.readySet.erase (f t) } :=
      ⟨.refl _, .refl _, .refl _, .refl _⟩
    exact (hnote.trans (within_collectUnknownBad [f t] _)).trans (ih _)

omit [LinearOrder H] [BlockRlp H] in
theorem removeIf_sublist {T : Type} [Movable T] (q : SizedBlockQueue T) (p : T → Bool) :
    (q.removeIf p).2.queue.Sublist q.queue := by
  rw [SizedBlockQueue.queue_removeIf]
  exact List.filter_sublist

theorem within_sweep (s : BlockQueue H) : Within s s.sweep.1 := by
  have h₁ : ∀ s : BlockQueue H, Within s s.sweepVerified.1 := by
    intro s
    have hremove : Within s { s with verified := (s.verified.removeIf s.isBadVerified).2 } :=
      ⟨removeIf_sublist _ _, .refl _, .refl _, .refl _⟩
    exact hremove.trans (within_foldl_condemn _ _ _)
  have h₂ : ∀ s : BlockQueue H, Within s s.sweepUnverified.1 := by
    intro s
    have hremove : Within s { s with unverified := (s.unverified.removeIf s.isBadUnverified).2 } :=
      ⟨.refl _, .refl _, removeIf_sublist _ _, .refl _⟩
    exact hremove.trans (within_foldl_condemn _ _ _)
  have h₃ : ∀ s : BlockQueue H, Within s s.sweepVerifying.1 := by
    intro s
    have hremove : Within s { s with verifying := (s.verifying.removeIf s.isBadVerifying).2 } :=
      ⟨.refl _, removeIf_sublist _ _, .refl _, .refl _⟩
    exact hremove.trans (within_foldl_condemn _ _ _)
  exact (h₁ s).trans ((h₂ _).trans (h₃ _))

theorem within_updateBadLoop (s : BlockQueue H) : Within s (updateBadLoop s) := by
  induction s using updateBadLoop.induct with
  | case1 s h ih =>
    rw [updateBadLoop, if_pos h]
    exact s.within_sweep.trans ih
  | case2 s h =>
    rw [updateBadLoop, if_neg h]
    exact s.within_sweep

theorem within_updateBad (s : BlockQueue H) (bad : H) : Within s (s.updateBad bad) :=
  (within_collectUnknownBad [bad] s).trans (within_updateBadLoop _)

theorem within_foldl_updateBad (bad : List H) (s : BlockQueue H) : Within s (bad.foldl updateBad s) := by
  induction bad generalizing s with
  | nil => exact .refl s
  | cons b bad ih => exact (s.within_updateBad b).trans (ih _)

/-! ### What `import` and `doneDrain` do -/

/-- `import` gets as far as to take the block, with header `bi`, into account. -/
structure Taken (s : BlockQueue H) (env : ImportEnv H) (block : Bytes) (bi : BlockHeader H) : Prop where
  header : headerOf block = some bi
  notReady : bi.hash ∉ s.readySet
  notDraining : bi.hash ∉ s.drainingSet
  notUnknown : bi.hash ∉ s.unknownSet
  notBad : bi.hash ∉ s.knownBad
  verified : env.verifyBlock = true
  notInChain : env.isKnown bi.hash = false

omit [LinearOrder H] [BlockRlp H] in
/-- The block goes into `m_future`. -/
def InFuture (env : ImportEnv H) (isOurs : Bool) (bi : BlockHeader H) : Prop :=
  bi.timestamp > env.utcTime ∧ isOurs = false

/-- The parent of the block is not there. -/
def ParentUnknown (s : BlockQueue H) (env : ImportEnv H) (bi : BlockHeader H) : Prop :=
  bi.parentHash ∉ s.readySet ∧ bi.parentHash ∉ s.drainingSet ∧ env.isKnown bi.parentHash = false

/-- What `import` can do. -/
theorem importBlock_cases (s : BlockQueue H) (env : ImportEnv H) (block : Bytes) (isOurs : Bool) :
    ((s.importBlock env block isOurs).2 = s ∧ ∀ r, (s.importBlock env block isOurs).1 = some r → r.isQueued = false) ∨
    ∃ bi, s.Taken env block bi ∧
      ((InFuture env isOurs bi ∧ ∃ r, (r.isQueued = true ∧ r ≠ .success) ∧ s.importBlock env block isOurs =
          (some r, { s with
            future := s.future.insert bi.timestamp bi.hash block
            difficulty := s.difficulty + bi.difficulty })) ∨
        (¬ InFuture env isOurs bi ∧ bi.parentHash ∈ s.knownBad ∧ s.importBlock env block isOurs =
          (some .badChain, { s with knownBad := insert bi.hash s.knownBad }.updateBad bi.hash)) ∨
        (¬ InFuture env isOurs bi ∧ bi.parentHash ∉ s.knownBad ∧ s.ParentUnknown env bi ∧
          s.importBlock env block isOurs = (some .unknownParent,
            { s with
              unknown := s.unknown.insert bi.parentHash bi.hash block
              unknownSet := insert bi.hash s.unknownSet
              difficulty := s.difficulty + bi.difficulty })) ∨
        (¬ InFuture env isOurs bi ∧ bi.parentHash ∉ s.knownBad ∧ ¬ s.ParentUnknown env bi ∧
          s.importBlock env block isOurs = (some .success,
            { s with
              unverified := s.unverified.enqueue ⟨bi.hash, bi.parentHash, block⟩
              readySet := insert bi.hash s.readySet
              difficulty := s.difficulty + bi.difficulty }.noteReady bi.hash))) := by
  unfold importBlock
  cases hbi : (headerOf block : Option (BlockHeader H)) with
  | none => exact .inl ⟨rfl, fun r hr => nomatch hr⟩
  | some bi =>
    dsimp only
    by_cases hknown : bi.hash ∈ s.readySet ∨ bi.hash ∈ s.drainingSet ∨ bi.hash ∈ s.unknownSet ∨ bi.hash ∈ s.knownBad
    · rw [if_pos hknown]
      exact .inl ⟨rfl, fun r hr => Option.some.inj hr ▸ rfl⟩
    rw [if_neg hknown]
    by_cases hverify : env.verifyBlock
    swap
    · rw [if_pos (by simpa using hverify)]
      exact .inl ⟨rfl, fun r hr => Option.some.inj hr ▸ rfl⟩
    rw [if_neg (by simpa using hverify)]
    by_cases hchain : env.isKnown bi.hash
    · rw [if_pos hchain]
      exact .inl ⟨rfl, fun r hr => Option.some.inj hr ▸ rfl⟩
    rw [if_neg hchain]
    simp only [not_or] at hknown
    refine .inr ⟨bi, ⟨hbi, hknown.1, hknown.2.1, hknown.2.2.1, hknown.2.2.2, hverify, by simpa using hchain⟩, ?_⟩
    by_cases hfuture : InFuture env isOurs bi
    · exact .inl ⟨hfuture, _, by split <;> exact ⟨rfl, nofun⟩, if_pos hfuture⟩
    by_cases hbad : bi.parentHash ∈ s.knownBad
    · exact .inr (.inl ⟨hfuture, hbad, (if_neg hfuture).trans (if_pos hbad)⟩)
    by_cases hparent : s.ParentUnknown env bi
    · exact .inr (.inr (.inl ⟨hfuture, hbad, hparent,
        (if_neg hfuture).trans ((if_neg hbad).trans (if_pos hparent))⟩))
    · exact .inr (.inr (.inr ⟨hfuture, hbad, hparent,
        (if_neg hfuture).trans ((if_neg hbad).trans (if_neg hparent))⟩))

omit [BlockRlp H] in
/-- `m_unverified` gets longer at its end, and nothing else changes but what is ready and what is unknown. -/
theorem exists_noteReadyLoop (goodQueue : List H) (s : BlockQueue H) : ∃ unverified unknown unknownSet readySet,
    noteReadyLoop goodQueue s = { s with unverified, unknown, unknownSet, readySet } ∧
      s.unverified.queue <+: unverified.queue := by
  induction goodQueue, s using noteReadyLoop.induct with
  | case1 s => exact ⟨_, _, _, _, by rw [noteReadyLoop], List.prefix_rfl⟩
  | case2 s parent goodQueue ih =>
    obtain ⟨unverified, unknown, unknownSet, readySet, h, hprefix⟩ := ih
    rw [releaseAll_snd, queue_foldl_enqueue] at hprefix
    exact ⟨unverified, unknown, unknownSet, readySet, by rw [noteReadyLoop, h, releaseAll_snd],
      (List.prefix_append _ _).trans hprefix⟩

omit [BlockRlp H] in
theorem exists_retryAllUnknown (s : BlockQueue H) : ∃ unverified unknown unknownSet readySet,
    s.retryAllUnknown = { s with unverified, unknown, unknownSet, readySet } := by
  induction s using retryAllUnknown.induct with
  | case1 s h => exact ⟨_, _, _, _, by rw [retryAllUnknown, h]⟩
  | case2 s parent h ih =>
    obtain ⟨unverified, unknown, unknownSet, readySet, hrest⟩ := ih
    refine ⟨unverified, unknown, unknownSet, readySet, ?_⟩
    rw [retryAllUnknown, h]
    exact hrest.trans (by rw [releaseAll_snd])

/-- The queue after what `doneDrain` does before it looks for the blocks that are bad with the reported ones. -/
def reported (s : BlockQueue H) (bad : List H) : BlockQueue H :=
  { s with
    drainingSet := ∅
    difficulty := s.difficulty - s.drainingDifficulty
    drainingDifficulty := 0
    knownBad := s.knownBad ∪ bad.toFinset }

theorem doneDrain_eq (s : BlockQueue H) (bad : List H) :
    (s.doneDrain bad).2 = bad.foldl updateBad (s.reported bad) := by
  cases bad with
  | nil => simp [doneDrain, reported]
  | cons b bad => rfl

end BlockQueue

/-- `P` holds throughout whatever `updateBad` an event calls. -/
def Event.Throughout [LinearOrder H] [BlockRlp H] (P : BlockQueue H → Prop) (s : BlockQueue H) : Event H → Prop
  | .importBlock env block isOurs => ∀ bi, s.Taken env block bi →
    ¬ BlockQueue.InFuture env isOurs bi → bi.parentHash ∈ s.knownBad →
    BlockQueue.Throughout P (BlockQueue.collectUnknownBad [bi.hash] { s with knownBad := insert bi.hash s.knownBad })
  | .doneDrain bad => BlockQueue.ThroughoutAll P (s.reported bad) bad
  | _ => True

end Kmdx
