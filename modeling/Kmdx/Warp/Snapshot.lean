import Kmdx.Warp.Chunks

/-!
# One snapshot

The manifest is set once, and all peers that are pushed have answered with the same snapshot (`OneSnapshot`), as long as what
the fibers read can be read, no promise is asked twice, and no manifest is set before another one (`Steady`).
-/

namespace Kmdx.Warp.WarpPeerObserver

open Rlp ExceptRules Function List

variable {P : Type} {c : WarpHost} {s t u : WarpPeerObserver P} {p : P}

/-- A peer has answered with the snapshot of the manifest. -/
def SameSnapshot (s : WarpPeerObserver P) (p : P) : Prop :=
  ∃ b m hash, (p, b) ∈ s.answered ∧ s.m_manifest = some m ∧ parse snapshotBlockHash b = .ok hash ∧
    parse snapshotBlockHash m = .ok hash

structure OneSnapshot (s : WarpPeerObserver P) : Prop where
  once : s.chosen.length ≤ 1
  same : ∀ p ∈ s.pushed, s.SameSnapshot p
  caught : s.uncaught = none

/-! ### What the fibers do not stumble over -/

def DaoForkBlockOk (c : WarpHost) (s : WarpPeerObserver P) : Answer → Prop
  | .failed => True
  | .value b => b = [] ∨ verifyDaoChallengeResponse c b = .ok false ∨
    verifyDaoChallengeResponse c b = .ok true ∧ s.m_manifest = none

/-- A promise whose future has not been asked for, and whose answer, if it is there already, is all right -/
def PromiseOk (ok : Answer → Prop) (promise : Option Promise) : Prop :=
  ∀ x, promise = some x → x.retrieved = false ∧ ∀ answer, x.answer = some answer → ok answer

/-- A peer whose snapshot is the first one comes before any other that is. -/
def SnapshotOk (c : WarpHost) (s : WarpPeerObserver P) (p : P) : Prop :=
  s.m_syncingSnapshotHash ≠ 0 ∨
    if c.daoForkBlock ≠ 0 then PromiseOk (DaoForkBlockOk c s) (s.m_daoForkHeaders p) else s.m_manifest = none

def ManifestOk (c : WarpHost) (s : WarpPeerObserver P) (p : P) : Answer → Prop
  | .failed => True
  | .value b => b = [] ∨ parse validateManifest b = .ok false ∨
    parse validateManifest b = .ok true ∧ (∃ hash, parse snapshotBlockHash b = .ok hash) ∧ SnapshotOk c s p

def Steady (c : WarpHost) (s : WarpPeerObserver P) : Turn P → Prop
  | .validate i => ∀ p, (s.fibers[i]? = some (p, .started) → (validateStatus c (s.peers p)).1 →
      PromiseOk (ManifestOk c s p) (s.m_manifests p)) ∧
    (s.fibers[i]? = some (p, .manifest) → ∀ answer, (s.m_manifests p).bind Promise.answer = some answer →
      ManifestOk c s p answer) ∧
    ∀ manifestBytes snapshotHash, s.fibers[i]? = some (p, .daoForkBlock manifestBytes snapshotHash) →
      ∀ answer, (s.m_daoForkHeaders p).bind Promise.answer = some answer → DaoForkBlockOk c s answer
  | .download => s.download = .manifest → ∀ b, s.m_manifest = some b → ∃ hashes, parse chunkHashes b = .ok hashes
  | .disconnect p => ((s.peers p).m_asking = .warpManifest → (s.m_manifests p).bind Promise.answer = none) ∧
    ((s.peers p).m_asking = .blockHeaders → (s.m_daoForkHeaders p).bind Promise.answer = none)
  | _ => True

theorem Steady.of_started {i : Nat} (hfiber : s.fibers[i]? = some (p, .started)) (hnone : s.m_manifests p = none) :
    Steady c s (.validate i) := by
  intro q
  rw [hfiber]
  refine ⟨fun hq _ x hx => ?_, nofun, nofun⟩
  cases hq
  cases hnone.symm.trans hx

theorem Steady.of_manifest {i : Nat} {answer : Answer} (hfiber : s.fibers[i]? = some (p, .manifest))
    (hanswer : (s.m_manifests p).bind Promise.answer = some answer) (hok : ManifestOk c s p answer) :
    Steady c s (.validate i) := by
  intro q
  rw [hfiber]
  refine ⟨nofun, fun hq answer' hanswer' => ?_, nofun⟩
  cases hq
  cases hanswer.symm.trans hanswer'
  exact hok

theorem Steady.of_freePeers {i : Nat} (hfiber : s.fibers[i]? = some (p, .freePeers)) : Steady c s (.validate i) := by
  intro q
  rw [hfiber]
  exact ⟨nofun, nofun, nofun⟩

/-! ### The invariant -/

/-- Pushed, about to be pushed, or asked for a chunk. -/
def Admitted (s : WarpPeerObserver P) (p : P) : Prop :=
  p ∈ s.pushed ∨ p ∈ s.m_freePeers ∨ (p, Stage.freePeers) ∈ s.fibers ∨ (s.m_requestedChunks p).isSome

structure OneInv (s : WarpPeerObserver P) : Prop where
  chosen : s.chosen = s.m_manifest.toList
  hash : ∀ m, s.m_manifest = some m → parse snapshotBlockHash m = .ok s.m_syncingSnapshotHash
  unchosen : s.m_manifest = none → s.m_syncingSnapshotHash = 0
  waiting : ∀ p b hash, (p, Stage.daoForkBlock b hash) ∈ s.fibers → (p, b) ∈ s.answered ∧ parse snapshotBlockHash b = .ok hash
  same : ∀ p, s.Admitted p → s.SameSnapshot p
  caught : s.uncaught = none

/-- Nobody is admitted and no manifest is chosen. -/
structure Calm (s t : WarpPeerObserver P) : Prop where
  chosen : t.chosen = s.chosen
  manifest : t.m_manifest = s.m_manifest
  syncing : t.m_syncingSnapshotHash = s.m_syncingSnapshotHash
  answered : ∀ a ∈ s.answered, a ∈ t.answered
  fibers : ∀ f ∈ t.fibers, f ∈ s.fibers ∨ f.2 = .started ∨ f.2 = .manifest ∨ f.2 = .ended
  admitted : ∀ p, t.Admitted p → s.Admitted p
  uncaught : t.uncaught = s.uncaught

theorem SameSnapshot.mono (h : s.SameSnapshot p) (hanswered : ∀ a ∈ s.answered, a ∈ t.answered)
    (hmanifest : t.m_manifest = s.m_manifest) : t.SameSnapshot p := by
  obtain ⟨b, m, hash, hb, hm, hhash⟩ := h
  exact ⟨b, m, hash, hanswered _ hb, hmanifest.trans hm, hhash⟩

theorem OneInv.calm (h : OneInv s) (hcalm : Calm s t) : OneInv t where
  chosen := by rw [hcalm.chosen, hcalm.manifest, h.chosen]
  hash := by
    rw [hcalm.manifest, hcalm.syncing]
    exact h.hash
  unchosen := by
    rw [hcalm.manifest, hcalm.syncing]
    exact h.unchosen
  waiting p b hash hf := by
    obtain hold | hnew | hnew | hnew := hcalm.fibers _ hf
    · exact (h.waiting p b hash hold).imp_left (hcalm.answered _)
    all_goals cases hnew
  same p hp := (h.same p (hcalm.admitted p hp)).mono hcalm.answered hcalm.manifest
  caught := hcalm.uncaught.trans h.caught

namespace Calm

/-- Only what peers, promises and chunks are is changed. -/
theorem of_eq (hchosen : t.chosen = s.chosen) (hmanifest : t.m_manifest = s.m_manifest)
    (hsyncing : t.m_syncingSnapshotHash = s.m_syncingSnapshotHash) (hanswered : ∀ a ∈ s.answered, a ∈ t.answered)
    (hfibers : t.fibers = s.fibers) (hpushed : t.pushed = s.pushed) (hfree : t.m_freePeers = s.m_freePeers)
    (hrequested : t.m_requestedChunks = s.m_requestedChunks) (huncaught : t.uncaught = s.uncaught) : Calm s t := by
  refine ⟨hchosen, hmanifest, hsyncing, hanswered, fun f hf => .inl (hfibers ▸ hf), fun p hp => ?_, huncaught⟩
  rwa [Admitted, hpushed, hfree, hfibers, hrequested] at hp

theorem setStage (s : WarpPeerObserver P) {i : Nat} {stage : Stage}
    (hstage : stage = .started ∨ stage = .manifest ∨ stage = .ended) : Calm s (s.setStage i p stage) := by
  have hfibers : ∀ f ∈ (s.setStage i p stage).fibers, f ∈ s.fibers ∨ f = (p, stage) := fun f => mem_or_eq_of_mem_set
  refine ⟨rfl, rfl, rfl, fun _ => id, fun f hf => (hfibers f hf).imp_right fun heq => (by subst heq; exact hstage),
    fun q hq => ?_, rfl⟩
  refine hq.imp_right (Or.imp_right (Or.imp_left fun hfree => (hfibers _ hfree).resolve_right fun heq => ?_))
  cases heq
  obtain h | h | h := hstage <;> cases h

variable [DecidableEq P]

theorem setPeer (s : WarpPeerObserver P) (p : P) (f : WarpPeerCapability → WarpPeerCapability) : Calm s (s.setPeer p f) :=
  .of_eq rfl rfl rfl (fun _ => id) rfl rfl rfl rfl rfl

end Calm

/-! ### The fibers -/

variable {i : Nat} {manifestBytes : Bytes} {snapshotHash : H256} {answer : Answer}

/-- A peer with the snapshot of the manifest is about to be pushed. -/
theorem OneInv.admit (h : OneInv s) (hsame : s.SameSnapshot p) : OneInv (s.setStage i p .freePeers) := by
  have hfibers : ∀ f ∈ (s.setStage i p .freePeers).fibers, f ∈ s.fibers ∨ f = (p, .freePeers) := fun f => mem_or_eq_of_mem_set
  refine ⟨h.chosen, h.hash, h.unchosen, fun q b hash hf => ?_, fun q hq => ?_, h.caught⟩
  · exact h.waiting q b hash ((hfibers _ hf).resolve_right nofun)
  · obtain hpushed | hfree | hstage | hrequested := hq
    · exact h.same q (.inl hpushed)
    · exact h.same q (.inr (.inl hfree))
    · obtain hold | hnew := hfibers _ hstage
      · exact h.same q (.inr (.inr (.inl hold)))
      · cases hnew
        exact hsame
    · exact h.same q (.inr (.inr (.inr hrequested)))

theorem OneInv.choose (h : OneInv s) (hanswered : (p, manifestBytes) ∈ s.answered)
    (hhash : parse snapshotBlockHash manifestBytes = .ok snapshotHash) (hok : s.m_manifest = none) :
    OneInv (s.choose i p manifestBytes snapshotHash) := by
  -- Nobody has been admitted before.
  have hnobody : ∀ q, ¬s.Admitted q := by
    intro q hq
    obtain ⟨b, m, hash, -, hm, -⟩ := h.same q hq
    cases hok.symm.trans hm
  unfold WarpPeerObserver.choose
  dsimp only
  rw [hok]
  refine OneInv.admit (s := { s with
    m_syncingSnapshotHash := snapshotHash, chosen := manifestBytes :: s.chosen, m_manifest := some manifestBytes }) ?_
    ⟨manifestBytes, manifestBytes, snapshotHash, hanswered, rfl, hhash, hhash⟩
  have hchosen := h.chosen
  rw [hok] at hchosen
  exact ⟨congrArg _ hchosen, fun m hm => by cases hm; exact hhash, nofun, h.waiting,
    fun q hq => absurd hq (hnobody q), h.caught⟩

/-- A fiber waits for its DAO fork block. -/
theorem OneInv.await (h : OneInv s) (hanswered : (p, manifestBytes) ∈ s.answered)
    (hhash : parse snapshotBlockHash manifestBytes = .ok snapshotHash) :
    OneInv (s.setStage i p (.daoForkBlock manifestBytes snapshotHash)) := by
  have hfibers : ∀ f ∈ (s.setStage i p (.daoForkBlock manifestBytes snapshotHash)).fibers,
      f ∈ s.fibers ∨ f = (p, .daoForkBlock manifestBytes snapshotHash) := fun f => mem_or_eq_of_mem_set
  refine ⟨h.chosen, h.hash, h.unchosen, fun q b hash hf => ?_, fun q hq => h.same q ?_, h.caught⟩
  · obtain hold | hnew := hfibers _ hf
    · exact h.waiting q b hash hold
    · cases hnew
      exact ⟨hanswered, hhash⟩
  · exact hq.imp_right (Or.imp_right (Or.imp_left fun hfree => (hfibers _ hfree).resolve_right nofun))

theorem OneInv.push (h : OneInv s) (hstage : (p, Stage.freePeers) ∈ s.fibers) : OneInv (s.push i p) := by
  have hfibers : ∀ f ∈ (s.push i p).fibers, f ∈ s.fibers ∨ f = (p, .ended) := fun f => mem_or_eq_of_mem_set
  have hp := h.same p (.inr (.inr (.inl hstage)))
  refine ⟨h.chosen, h.hash, h.unchosen, fun q b hash hf => h.waiting q b hash ((hfibers _ hf).resolve_right nofun),
    fun q hq => ?_, h.caught⟩
  obtain hpushed | hfree | hstage | hrequested := hq
  · obtain rfl | hpushed := mem_cons.1 hpushed
    · exact hp
    · exact h.same q (.inl hpushed)
  · obtain hfree | hnew := mem_append.1 hfree
    · exact h.same q (.inr (.inl hfree))
    · rw [mem_singleton.1 hnew]
      exact hp
  · exact h.same q (.inr (.inr (.inl ((hfibers _ hstage).resolve_right nofun))))
  · exact h.same q (.inr (.inr (.inr hrequested)))

theorem OneInv.onPeerStatus (h : OneInv s) : OneInv (s.onPeerStatus p) := by
  have hfibers : ∀ f ∈ (s.onPeerStatus p).fibers, f ∈ s.fibers ∨ f = (p, .started) :=
    fun f hf => (mem_append.1 hf).imp_right mem_singleton.1
  refine h.calm ⟨rfl, rfl, rfl, fun _ => id, fun f hf => ?_, fun q hq => ?_, rfl⟩
  · exact (hfibers f hf).imp_right fun heq => .inl (congrArg Prod.snd heq)
  · exact hq.imp_right (Or.imp_right (Or.imp_left fun hfree => (hfibers _ hfree).resolve_right nofun))

theorem OneInv.nextChunk (h : OneInv s) : OneInv s.nextChunk := by
  unfold WarpPeerObserver.nextChunk
  split
  · exact h.calm (.of_eq rfl rfl rfl (fun _ => id) rfl rfl rfl rfl rfl)
  · exact h.calm (.of_eq rfl rfl rfl (fun _ => id) rfl rfl rfl rfl rfl)

variable [DecidableEq P]

section

variable (h : OneInv s) (hanswered : (p, manifestBytes) ∈ s.answered)
    (hhash : parse snapshotBlockHash manifestBytes = .ok snapshotHash)
include h hanswered hhash

theorem OneInv.onDaoForkBlock (hok : DaoForkBlockOk c s answer) :
    OneInv (s.onDaoForkBlock c i p manifestBytes snapshotHash answer) := by
  unfold WarpPeerObserver.onDaoForkBlock
  extract_lets s₁
  have h₁ : OneInv s₁ := h.calm (.of_eq rfl rfl rfl (fun _ => id) rfl rfl rfl rfl rfl)
  cases answer with
  | failed => exact h₁.calm (.setStage s₁ (.inr (.inr rfl)))
  | value headerBytes =>
    dsimp only
    obtain hnil | hother | ⟨hdao, hnone⟩ := hok
    · rw [if_pos hnil]
      exact h₁.calm (.setStage s₁ (.inr (.inr rfl)))
    · rw [hother]
      split
      · exact h₁.calm (.setStage s₁ (.inr (.inr rfl)))
      · exact (h₁.calm (.setPeer s₁ p _)).calm (.setStage _ (.inr (.inr rfl)))
    · rw [hdao]
      split
      · exact h₁.calm (.setStage s₁ (.inr (.inr rfl)))
      · exact h₁.choose hanswered hhash hnone

theorem OneInv.waitForDaoForkBlock (hok : PromiseOk (DaoForkBlockOk c s) (s.m_daoForkHeaders p)) :
    OneInv (s.waitForDaoForkBlock c i p manifestBytes snapshotHash) := by
  have hpromise : ((s.m_daoForkHeaders p).getD {}).retrieved = false ∧
      ∀ answer, ((s.m_daoForkHeaders p).getD {}).answer = some answer → DaoForkBlockOk c s answer := by
    cases hp : s.m_daoForkHeaders p with
    | none => exact ⟨rfl, nofun⟩
    | some promise => exact hok promise hp
  rw [WarpPeerObserver.waitForDaoForkBlock]
  rw [hpromise.1, if_neg Bool.false_ne_true]
  extract_lets s₁
  have h₁ : OneInv s₁ := h.calm (.of_eq rfl rfl rfl (fun _ => id) rfl rfl rfl rfl rfl)
  split
  · rename_i answer hanswer
    exact h₁.onDaoForkBlock hanswered hhash (hpromise.2 answer hanswer)
  · exact h₁.await hanswered hhash

theorem OneInv.onSnapshot (hok : SnapshotOk c s p) : OneInv (s.onSnapshot c i p manifestBytes snapshotHash) := by
  rw [WarpPeerObserver.onSnapshot]
  split
  · rename_i hsyncing
    split
    · rename_i heq
      refine h.admit ?_
      cases hm : s.m_manifest with
      | none => exact absurd (h.unchosen hm) hsyncing
      | some m => exact ⟨manifestBytes, m, snapshotHash, hanswered, hm, hhash, heq ▸ h.hash m hm⟩
    · exact (h.calm (.setPeer s p _)).calm (.setStage _ (.inr (.inr rfl)))
  · rename_i hzero
    have hok := hok.resolve_left hzero
    split
    · rename_i hdao
      rw [if_pos hdao] at hok
      exact (h.calm (.setPeer s p _)).waitForDaoForkBlock hanswered hhash hok
    · rename_i hdao
      rw [if_neg hdao] at hok
      exact h.choose hanswered hhash hok

end

theorem OneInv.onManifest (h : OneInv s) (hok : ManifestOk c s p answer) : OneInv (s.onManifest c i p answer) := by
  unfold WarpPeerObserver.onManifest
  extract_lets s₁
  have h₁ : OneInv s₁ := h.calm (.of_eq rfl rfl rfl (fun _ => id) rfl rfl rfl rfl rfl)
  cases answer with
  | failed => exact h₁.calm (.setStage s₁ (.inr (.inr rfl)))
  | value manifestBytes =>
    dsimp only
    generalize hs₂ : WarpPeerObserver.mk .. = s₂
    have h₂ : OneInv s₂ := by
      rw [← hs₂]
      exact h₁.calm (.of_eq rfl rfl rfl (fun _ => mem_cons_of_mem _) rfl rfl rfl rfl rfl)
    have hanswered : (p, manifestBytes) ∈ s₂.answered := by
      rw [← hs₂]
      exact mem_cons_self
    have hended : OneInv (s₂.setStage i p .ended) := h₂.calm (.setStage s₂ (.inr (.inr rfl)))
    obtain hnil | hinvalid | ⟨hvalid, ⟨hash, hhash⟩, hok⟩ := hok
    · rwa [if_pos hnil]
    · rw [hinvalid]
      split
      · exact hended
      · exact (h₂.calm (.setPeer s₂ p _)).calm (.setStage _ (.inr (.inr rfl)))
    · rw [hvalid, hhash]
      split
      · exact hended
      · refine h₂.onSnapshot hanswered hhash ?_
        rw [← hs₂]
        exact hok

theorem OneInv.waitForManifest (h : OneInv s) (hok : PromiseOk (ManifestOk c s p) (s.m_manifests p)) :
    OneInv (s.waitForManifest c i p) := by
  have hpromise : ((s.m_manifests p).getD {}).retrieved = false ∧
      ∀ answer, ((s.m_manifests p).getD {}).answer = some answer → ManifestOk c s p answer := by
    cases hp : s.m_manifests p with
    | none => exact ⟨rfl, nofun⟩
    | some promise => exact hok promise hp
  rw [WarpPeerObserver.waitForManifest, hpromise.1, if_neg Bool.false_ne_true]
  extract_lets s₁
  have h₁ : OneInv s₁ := h.calm (.of_eq rfl rfl rfl (fun _ => id) rfl rfl rfl rfl rfl)
  split
  · rename_i answer hanswer
    exact h₁.onManifest (hpromise.2 answer hanswer)
  · exact h₁.calm (.setStage s₁ (.inr (.inl rfl)))

theorem OneInv.validatePeer (h : OneInv s)
    (hok : (validateStatus c (s.peers p)).1 → PromiseOk (ManifestOk c s p) (s.m_manifests p)) :
    OneInv (s.validatePeer c i p) := by
  rw [WarpPeerObserver.validatePeer]
  have hvalid : OneInv (s.setPeer p fun _ => (validateStatus c (s.peers p)).2) := h.calm (.setPeer s p _)
  split
  · rename_i hstatus
    exact OneInv.waitForManifest (hvalid.calm (.setPeer _ p _)) (hok hstatus)
  · exact hvalid.calm (.setStage _ (.inr (.inr rfl)))

theorem OneInv.validate (h : OneInv s) (hok : Steady c s (.validate i)) (hstep : s.validate c i = some t) : OneInv t := by
  rw [WarpPeerObserver.validate] at hstep
  split at hstep
  · rename_i p hfiber
    cases hstep
    exact h.validatePeer ((hok p).1 hfiber)
  · rename_i p hfiber
    obtain ⟨answer, hanswer, rfl⟩ := Option.map_eq_some_iff.1 hstep
    exact h.onManifest ((hok p).2.1 hfiber answer hanswer)
  · rename_i p manifestBytes snapshotHash hfiber
    obtain ⟨answer, hanswer, rfl⟩ := Option.map_eq_some_iff.1 hstep
    obtain ⟨hanswered, hhash⟩ := h.waiting p manifestBytes snapshotHash (List.mem_of_getElem? hfiber)
    exact h.onDaoForkBlock hanswered hhash ((hok p).2.2 _ _ hfiber answer hanswer)
  · rename_i p hfiber
    cases hstep
    exact h.push (List.mem_of_getElem? hfiber)
  · cases hstep
  · cases hstep

/-! ### The handlers and the download -/

theorem OneInv.onChunk {hash : H256} (h : OneInv s) : OneInv (s.onChunk p hash) := by
  rw [WarpPeerObserver.onChunk]
  split
  · exact h
  rename_i askedHash hasked
  extract_lets s₁
  have hp : s.SameSnapshot p := h.same p (.inr (.inr (.inr (hasked ▸ rfl))))
  have h₁ : OneInv s₁ := by
    refine ⟨h.chosen, h.hash, h.unchosen, fun q b hash hf => ?_, fun q hq => ?_, h.caught⟩
    · refine h.waiting q b hash ((mem_append.1 hf).resolve_right fun hnew => ?_)
      cases mem_singleton.1 hnew
    obtain hpushed | hfree | hstage | hrequested := hq
    · exact h.same q (.inl hpushed)
    · exact h.same q (.inr (.inl hfree))
    · obtain hstage | hnew := mem_append.1 hstage
      · exact h.same q (.inr (.inr (.inl hstage)))
      · cases mem_singleton.1 hnew
        exact hp
    · by_cases hq : q = p
      · exact hq ▸ hp
      · change (update s.m_requestedChunks p none q).isSome at hrequested
        rw [update_of_ne hq] at hrequested
        exact h.same q (.inr (.inr (.inr hrequested)))
  split
  · exact h₁.calm (.of_eq rfl rfl rfl (fun _ => id) rfl rfl rfl rfl rfl)
  · exact h₁.calm (.of_eq rfl rfl rfl (fun _ => id) rfl rfl rfl rfl rfl)

theorem OneInv.interpret {packetType : PacketType} {r : RLP} (h : OneInv s) : OneInv (s.interpret c p packetType r) := by
  cases packetType with
  | warpStatus =>
    unfold WarpPeerObserver.interpret
    dsimp only
    split
    · exact ((h.calm (.setPeer s p _)).calm (.setPeer _ p _)).onPeerStatus
    · exact h.calm (.setPeer s p _)
  | blockHeaders => exact h.calm (.of_eq rfl rfl rfl (fun _ => id) rfl rfl rfl rfl rfl)
  | snapshotManifest => exact h.calm (.of_eq rfl rfl rfl (fun _ => id) rfl rfl rfl rfl rfl)
  | snapshotData =>
    unfold WarpPeerObserver.interpret WarpPeerObserver.onPeerData
    dsimp only
    split
    · exact (h.calm (.setPeer s p _)).onChunk
    · exact h.calm (.setPeer s p _)
    · exact h.calm (.setPeer s p _)

theorem Promise.setException_of_bind {promise : Option Promise} {x : Promise} (h : promise.bind Promise.answer = none)
    (hx : promise = some x) : Promise.setException x ≠ none := by
  rw [hx] at h
  rw [Promise.setException, if_neg (by rw [show x.answer = none from h]; exact Bool.false_ne_true)]
  nofun

theorem OneInv.disconnect (h : OneInv s) (hok : Steady c s (.disconnect p)) : OneInv (s.disconnect p) := by
  rw [WarpPeerObserver.disconnect]
  have h₁ : OneInv (s.setPeer p ({ · with session := .closing })) := h.calm (.setPeer s p _)
  obtain ⟨hmanifests, hheaders⟩ := hok
  cases hasking : (s.peers p).m_asking with
  | warpManifest =>
    unfold onPeerDisconnect
    dsimp only
    split
    · exact h₁
    rename_i promise hpromise
    split
    · rename_i hthrows
      exact absurd hthrows (Promise.setException_of_bind (hmanifests hasking) hpromise)
    · exact h₁.calm (.of_eq rfl rfl rfl (fun _ => id) rfl rfl rfl rfl rfl)
  | blockHeaders =>
    unfold onPeerDisconnect
    dsimp only
    split
    · exact h₁
    rename_i promise hpromise
    split
    · rename_i hthrows
      exact absurd hthrows (Promise.setException_of_bind (hheaders hasking) hpromise)
    · exact h₁.calm (.of_eq rfl rfl rfl (fun _ => id) rfl rfl rfl rfl rfl)
  | warpData =>
    unfold onPeerDisconnect
    dsimp only
    split
    · exact h₁
    · refine h₁.calm ⟨rfl, rfl, rfl, fun _ => id, fun _ => .inl, fun q hq => ?_, rfl⟩
      refine hq.imp_right (Or.imp_right (Or.imp_right fun hrequested => ?_))
      change (update s.m_requestedChunks p none q).isSome at hrequested
      by_cases hq : q = p
      · rw [hq, update_self] at hrequested
        cases hrequested
      · rwa [update_of_ne hq] at hrequested
  | state => exact h₁
  | blockBodies => exact h₁
  | nodeData => exact h₁
  | receipts => exact h₁
  | nothing => exact h₁

theorem OneInv.downloadChunks (h : OneInv s) (hok : Steady c s .download) (hstep : s.downloadChunks = some t) : OneInv t := by
  rw [WarpPeerObserver.downloadChunks] at hstep
  split at hstep
  · cases hstep
  · cases hstep
  · rename_i hdownload
    obtain ⟨b, hb, rfl⟩ := Option.map_eq_some_iff.1 hstep
    obtain ⟨hashes, hhashes⟩ := hok hdownload b hb
    rw [hhashes]
    exact OneInv.nextChunk (h.calm (.of_eq rfl rfl rfl (fun _ => id) rfl rfl rfl rfl rfl))
  · split at hstep
    · cases hstep
    rename_i p rest hfree
    cases hstep
    have hp : s.SameSnapshot p := h.same p (.inr (.inl (hfree ▸ mem_cons_self)))
    have hrest : OneInv { s with m_freePeers := rest } := by
      refine h.calm ⟨rfl, rfl, rfl, fun _ => id, fun _ => .inl, fun q hq => ?_, rfl⟩
      exact hq.imp_right (Or.imp_left fun hq => hfree ▸ mem_cons_of_mem _ hq)
    split
    · refine OneInv.nextChunk ⟨hrest.chosen, hrest.hash, hrest.unchosen, hrest.waiting, fun q hq => ?_, hrest.caught⟩
      by_cases hqp : q = p
      · exact hqp ▸ hp
      · refine hrest.same q (hq.imp_right (Or.imp_right (Or.imp_right fun hrequested => ?_)))
        change (update s.m_requestedChunks p _ q).isSome at hrequested
        rwa [update_of_ne hqp] at hrequested
    · exact hrest

theorem OneInv.step {turn : Turn P} (h : OneInv s) (hok : Steady c s turn) (hstep : s.step c turn = some t) : OneInv t := by
  unfold WarpPeerObserver.step at hstep
  split at hstep
  · cases hstep
  cases turn with
  | packet p packetType b =>
    dsimp only at hstep
    split at hstep
    · cases hstep
    split at hstep
    · cases hstep
      exact h.interpret
    · cases hstep
  | disconnect p =>
    dsimp only at hstep
    split at hstep
    · cases hstep
      exact h.disconnect hok
    · cases hstep
  | disconnected p =>
    dsimp only at hstep
    split at hstep
    · cases hstep
      exact h.calm (.setPeer s p _)
    · cases hstep
  | validate i => exact h.validate hok hstep
  | download => exact h.downloadChunks hok hstep

theorem OneInv.of_reaches (h : Reaches c (Steady c) s) : OneInv s := by
  induction h with
  | start =>
    refine ⟨rfl, nofun, fun _ => rfl, fun _ _ _ h => (nomatch h), fun p hp => ?_, rfl⟩
    obtain h | h | h | h := hp <;> cases h
  | step _ hok hstep ih => exact ih.step hok hstep

theorem one_snapshot (h : Reaches c (Steady c) s) : s.OneSnapshot := by
  have hinv := OneInv.of_reaches h
  refine ⟨?_, fun p hp => hinv.same p (.inl hp), hinv.caught⟩
  rw [hinv.chosen]
  cases s.m_manifest with
  | none => exact Nat.zero_le _
  | some b => exact le_rfl

/-! ### One peer -/

def statusTurn : Turn Unit := .packet () .warpStatus [0xc7, 1, 0x80, 0x80, 0x80, 0x80, 0x80, 0x80]

def manifestTurn : Turn Unit := .packet () .snapshotManifest [0xc8, 0xc7, 2, 0xc1, 5, 0xc0, 0x80, 0x80, 7]

theorem one_snapshot_offered :
    (ran ([statusTurn] ++ [.validate 0] ++ [manifestTurn] ++ [.validate 0] ++ [.validate 0])).OneSnapshot ∧
    (ran ([statusTurn] ++ [.validate 0] ++ [manifestTurn] ++ [.validate 0] ++ [.validate 0])).pushed = [()] := by
  have hstatus : Reaches warpHost (Steady warpHost) (ran [statusTurn]) := by
    refine reaches_ran _ (fun s turn hturn => ?_) (by decide +kernel)
    cases mem_singleton.1 hturn
    exact True.intro
  have hstarted : Steady warpHost (ran [statusTurn]) (.validate 0) :=
    .of_started (p := ()) (by decide +kernel) (by decide +kernel)
  have hasked := reaches_next hstatus hstarted (by decide +kernel)
  have hmanifest : Reaches warpHost (Steady warpHost) (ran ([statusTurn] ++ [.validate 0] ++ [manifestTurn])) :=
    reaches_next hasked True.intro (by decide +kernel)
  have hok : ManifestOk warpHost (ran ([statusTurn] ++ [.validate 0] ++ [manifestTurn])) ()
      (.value [0xc8, 0xc7, 2, 0xc1, 5, 0xc0, 0x80, 0x80, 7]) := by
    refine .inr (.inr ⟨eq_ok_of_toOption (by decide +kernel), ⟨7, eq_ok_of_toOption (by decide +kernel)⟩, .inr ?_⟩)
    rw [if_neg (by decide)]
    decide +kernel
  have hanswered : Steady warpHost (ran ([statusTurn] ++ [.validate 0] ++ [manifestTurn])) (.validate 0) :=
    .of_manifest (p := ()) (by decide +kernel) (by decide +kernel) hok
  have hchosen := reaches_next hmanifest hanswered (by decide +kernel)
  have hpushing : Steady warpHost (ran ([statusTurn] ++ [.validate 0] ++ [manifestTurn] ++ [.validate 0])) (.validate 0) :=
    .of_freePeers (p := ()) (by decide +kernel)
  exact ⟨one_snapshot (reaches_next hchosen hpushing (by decide +kernel)), by decide +kernel⟩

/-- The version of the manifest is a list. -/
theorem not_one_snapshot : ¬ ∀ s : WarpPeerObserver Unit, Reaches warpHost (fun _ _ => True) s → s.OneSnapshot := by
  intro hone
  have hreaches : Reaches warpHost (fun _ _ => True)
      (ran [statusTurn, .validate 0, .packet () .snapshotManifest [0xc2, 0xc1, 0xc0], .validate 0]) :=
    reaches_ran _ (fun _ _ _ => trivial) (by decide +kernel)
  have hcaught := (hone _ hreaches).caught
  have huncaught : (ran [statusTurn, .validate 0, .packet () .snapshotManifest [0xc2, 0xc1, 0xc0],
      .validate 0]).uncaught.isSome := by
    decide +kernel
  rw [hcaught] at huncaught
  cases huncaught

end Kmdx.Warp.WarpPeerObserver
