import Kmdx.Warp.PeerObserver

/-!
# The chunks of a snapshot

A chunk is written, needed or requested, and while chunks are needed they are being downloaded (`Tracked`), as long as no step
lets go of one (`Ok`).
-/

namespace Kmdx.Warp.WarpPeerObserver

open Rlp Function List

variable {P : Type} {c : WarpHost} {s t u : WarpPeerObserver P}

/-- The fibers of `validatePeer` leave the chunks alone, and a manifest that is set. -/
structure SameChunks (s t : WarpPeerObserver P) : Prop where
  needed : t.m_neededChunks = s.m_neededChunks
  requested : t.m_requestedChunks = s.m_requestedChunks
  written : t.written = s.written
  session : ∀ p, (t.peers p).session = (s.peers p).session
  manifest : ∀ {b}, s.m_manifest = some b → t.m_manifest = some b
  download : t.download = s.download ∨ s.download = .notStarted ∧ t.download = .manifest

namespace SameChunks

theorem trans (h : SameChunks s t) (h' : SameChunks t u) : SameChunks s u where
  needed := h'.needed.trans h.needed
  requested := h'.requested.trans h.requested
  written := h'.written.trans h.written
  session p := (h'.session p).trans (h.session p)
  manifest := h'.manifest ∘ h.manifest
  download := by
    rcases h.download with heq | ⟨hs, ht⟩
    · rw [← heq]
      exact h'.download
    · refine .inr ⟨hs, ?_⟩
      rcases h'.download with heq | ⟨ht', -⟩
      · exact heq.trans ht
      · rw [ht] at ht'
        cases ht'

theorem setStage (s : WarpPeerObserver P) (i : Nat) (p : P) (stage : Stage) : SameChunks s (s.setStage i p stage) :=
  ⟨rfl, rfl, rfl, fun _ => rfl, id, .inl rfl⟩

theorem endsBy (s : WarpPeerObserver P) (e : Uncaught) : SameChunks s (s.endsBy e) :=
  ⟨rfl, rfl, rfl, fun _ => rfl, id, .inl rfl⟩

variable {i : Nat} {p : P} {manifestBytes : Bytes} {snapshotHash : H256} {answer : Answer}

theorem onPeerStatus (s : WarpPeerObserver P) : SameChunks s (s.onPeerStatus p) := by
  refine ⟨rfl, rfl, rfl, fun _ => rfl, id, ?_⟩
  rw [WarpPeerObserver.onPeerStatus]
  by_cases hstart : s.download = .notStarted
  · exact .inr ⟨hstart, if_pos hstart⟩
  · exact .inl (if_neg hstart)

theorem choose (s : WarpPeerObserver P) : SameChunks s (s.choose i p manifestBytes snapshotHash) := by
  rw [WarpPeerObserver.choose]
  split
  · exact ⟨rfl, rfl, rfl, fun _ => rfl, id, .inl rfl⟩
  · rename_i hnone
    exact ⟨rfl, rfl, rfl, fun _ => rfl, fun h => (by cases hnone.symm.trans h), .inl rfl⟩

variable [DecidableEq P]

theorem setPeer (s : WarpPeerObserver P) (p : P) {f : WarpPeerCapability → WarpPeerCapability}
    (hf : (f (s.peers p)).session = (s.peers p).session) : SameChunks s (s.setPeer p f) := by
  refine ⟨rfl, rfl, rfl, fun q => ?_, id, .inl rfl⟩
  show (update s.peers p (f (s.peers p)) q).session = _
  by_cases hq : q = p
  · rw [hq, update_self, hf]
  · rw [update_of_ne hq]

theorem setAsking (s : WarpPeerObserver P) (p : P) (a : Asking) : SameChunks s (s.setAsking p a) := setPeer s p rfl

theorem disable (s : WarpPeerObserver P) (p : P) : SameChunks s (s.disable p) := setPeer s p rfl

theorem onDaoForkBlock (s : WarpPeerObserver P) :
    SameChunks s (s.onDaoForkBlock c i p manifestBytes snapshotHash answer) := by
  unfold WarpPeerObserver.onDaoForkBlock
  extract_lets s₁
  have h₁ : SameChunks s s₁ := ⟨rfl, rfl, rfl, fun _ => rfl, id, .inl rfl⟩
  refine h₁.trans ?_
  cases answer with
  | failed => exact setStage s₁ i p _
  | value headerBytes =>
    dsimp only
    split
    · exact setStage s₁ i p _
    split
    · exact endsBy s₁ _
    · exact (disable s₁ p).trans (setStage _ i p _)
    · exact choose s₁

theorem waitForDaoForkBlock (s : WarpPeerObserver P) :
    SameChunks s (s.waitForDaoForkBlock c i p manifestBytes snapshotHash) := by
  rw [WarpPeerObserver.waitForDaoForkBlock]
  split
  · exact endsBy s _
  extract_lets s₁
  have h₁ : SameChunks s s₁ := ⟨rfl, rfl, rfl, fun _ => rfl, id, .inl rfl⟩
  split
  · exact h₁.trans (onDaoForkBlock s₁)
  · exact h₁.trans (setStage s₁ i p _)

theorem onSnapshot (s : WarpPeerObserver P) : SameChunks s (s.onSnapshot c i p manifestBytes snapshotHash) := by
  rw [WarpPeerObserver.onSnapshot]
  split
  · split
    · exact setStage s i p _
    · exact (disable s p).trans (setStage _ i p _)
  split
  · exact (setAsking s p _).trans (waitForDaoForkBlock _)
  · exact choose s

theorem onManifest (s : WarpPeerObserver P) : SameChunks s (s.onManifest c i p answer) := by
  unfold WarpPeerObserver.onManifest
  extract_lets s₁
  have h₁ : SameChunks s s₁ := ⟨rfl, rfl, rfl, fun _ => rfl, id, .inl rfl⟩
  cases answer with
  | failed => exact h₁.trans (setStage s₁ i p _)
  | value manifestBytes =>
    dsimp only
    generalize hs₂ : WarpPeerObserver.mk .. = s₂
    have h₂ : SameChunks s s₂ := by
      rw [← hs₂]
      exact ⟨rfl, rfl, rfl, fun _ => rfl, id, .inl rfl⟩
    refine h₂.trans ?_
    split
    · exact setStage s₂ i p _
    split
    · exact endsBy s₂ _
    · exact (disable s₂ p).trans (setStage _ i p _)
    split
    · exact endsBy s₂ _
    · exact onSnapshot s₂

theorem waitForManifest (s : WarpPeerObserver P) : SameChunks s (s.waitForManifest c i p) := by
  rw [WarpPeerObserver.waitForManifest]
  split
  · exact endsBy s _
  extract_lets s₁
  have h₁ : SameChunks s s₁ := ⟨rfl, rfl, rfl, fun _ => rfl, id, .inl rfl⟩
  split
  · exact h₁.trans (onManifest s₁)
  · exact h₁.trans (setStage s₁ i p _)

theorem session_validateStatus (peer : WarpPeerCapability) : (validateStatus c peer).2.session = peer.session := by
  rw [validateStatus]
  split_ifs <;> rfl

theorem validatePeer (s : WarpPeerObserver P) : SameChunks s (s.validatePeer c i p) := by
  rw [WarpPeerObserver.validatePeer]
  have hvalid : SameChunks s (s.setPeer p fun _ => (validateStatus c (s.peers p)).2) := setPeer s p (session_validateStatus _)
  split
  · exact (hvalid.trans (setAsking _ p _)).trans (waitForManifest _)
  · exact hvalid.trans (setStage _ i p _)

theorem validate (h : s.validate c i = some t) : SameChunks s t := by
  rw [WarpPeerObserver.validate] at h
  split at h
  · cases h
    exact validatePeer s
  · obtain ⟨answer, -, rfl⟩ := Option.map_eq_some_iff.1 h
    exact onManifest s
  · obtain ⟨answer, -, rfl⟩ := Option.map_eq_some_iff.1 h
    exact onDaoForkBlock s
  · cases h
    exact ⟨rfl, rfl, rfl, fun _ => rfl, id, .inl rfl⟩
  · cases h
  · cases h

end SameChunks

/-! ### The invariant -/

/-- The download has taken the manifest. -/
def Begun (s : WarpPeerObserver P) : Prop := s.download ≠ .notStarted ∧ s.download ≠ .manifest

def Looping (s : WarpPeerObserver P) : Prop := ∃ chunkHash, s.download = .freePeers chunkHash

/-- Requested from a peer that is still connected. -/
def RequestedFrom (s : WarpPeerObserver P) (h : H256) (p : P) : Prop :=
  s.m_requestedChunks p = some h ∧ (s.peers p).session = .live

/-- Where a chunk is. -/
def Kept (s : WarpPeerObserver P) (h : H256) : Prop := h ∈ s.written ∨ h ∈ s.m_neededChunks ∨ ∃! p, s.RequestedFrom h p

/-- Written, or needed apart from the first chunk that is. -/
def KeptBehind (s : WarpPeerObserver P) (h : H256) : Prop := h ∈ s.written ∨ h ∈ s.m_neededChunks.tail

structure Tracked (s : WarpPeerObserver P) : Prop where
  kept : s.Begun → ∀ b hashes, s.m_manifest = some b → parse chunkHashes b = .ok hashes → ∀ h ∈ hashes, s.Kept h
  looping : s.m_neededChunks ≠ [] → s.Looping

/-- No chunk is let go of, or comes back when it is not waited for any more. -/
def Ok [DecidableEq P] (c : WarpHost) (s : WarpPeerObserver P) : Turn P → Prop
  | .packet p .snapshotData b => ∀ r hash askedHash, RLP.mk' b = .ok r → Wp.eval (dataHash c) r = .ok (some hash) →
    s.m_requestedChunks p = some askedHash → hash ≠ askedHash → s.Looping
  | .disconnect p => ∀ askedHash, s.m_requestedChunks p = some askedHash →
    if (s.peers p).m_asking = .warpData then s.Looping else askedHash ∈ s.written ∨ askedHash ∈ s.m_neededChunks
  | .download => ∀ chunkHash p rest, s.download = .freePeers chunkHash → s.m_freePeers = p :: rest → s.alive p →
    (∀ h, s.RequestedFrom h p → h = chunkHash ∨ s.KeptBehind h) ∧
      (s.KeptBehind chunkHash ∨ ∃! q, (q = p ∨ s.m_requestedChunks q = some chunkHash) ∧ (s.peers q).session = .live)
  | _ => True

/-- The download waits for a peer for the first of the chunks that are needed. -/
def Fronted (s : WarpPeerObserver P) : Prop :=
  match s.download with
  | .freePeers chunkHash => s.m_neededChunks.head? = some chunkHash
  | _ => s.m_neededChunks = []

structure Inv (s : WarpPeerObserver P) : Prop where
  manifest : s.Begun → s.m_manifest.isSome
  kept : s.Begun → ∀ b hashes, s.m_manifest = some b → parse chunkHashes b = .ok hashes → ∀ h ∈ hashes, s.Kept h
  front : s.Fronted

theorem Fronted.head (h : s.Fronted) (hne : s.m_neededChunks ≠ []) :
    ∃ chunkHash, s.download = .freePeers chunkHash ∧ s.m_neededChunks.head? = some chunkHash := by
  rw [Fronted] at h
  split at h
  · rename_i chunkHash hdownload
    exact ⟨chunkHash, hdownload, h⟩
  · exact absurd h hne

theorem Fronted.of_looping {chunkHash : H256} (h : s.Fronted) (hdownload : s.download = .freePeers chunkHash) :
    s.m_neededChunks.head? = some chunkHash := by
  rw [Fronted, hdownload] at h
  exact h

/-- A chunk comes back while the download goes on. -/
theorem Fronted.append {askedHash : H256} (h : s.Fronted) (hlooping : s.Looping) (hdownload : t.download = s.download)
    (hneeded : t.m_neededChunks = s.m_neededChunks ++ [askedHash]) : t.Fronted := by
  obtain ⟨chunkHash, hs⟩ := hlooping
  have hhead := h.of_looping hs
  rw [Fronted, hdownload, hs]
  show t.m_neededChunks.head? = some chunkHash
  rw [hneeded, List.head?_append, hhead]
  rfl

theorem Fronted.congr (h : s.Fronted) (hdownload : t.download = s.download) (hneeded : t.m_neededChunks = s.m_neededChunks) :
    t.Fronted := by
  rw [Fronted, hdownload, hneeded]
  exact h

/-- What is no longer requested from `p` is written or needed. -/
theorem Kept.of_released {p : P} {h : H256} (hkept : s.Kept h) (hwritten : ∀ x ∈ s.written, x ∈ t.written)
    (hneeded : ∀ x ∈ s.m_neededChunks, x ∈ t.m_neededChunks)
    (hothers : ∀ x q, t.RequestedFrom x q ↔ q ≠ p ∧ s.RequestedFrom x q)
    (hreleased : ∀ x, s.RequestedFrom x p → x ∈ t.written ∨ x ∈ t.m_neededChunks) : t.Kept h := by
  obtain hw | hn | ⟨q, hq, hunique⟩ := hkept
  · exact .inl (hwritten h hw)
  · exact .inr (.inl (hneeded h hn))
  by_cases hqp : q = p
  · exact (hreleased h (hqp ▸ hq)).imp_right .inl
  · exact .inr (.inr ⟨q, (hothers h q).2 ⟨hqp, hq⟩, fun q' hq' => hunique q' ((hothers h q').1 hq').2⟩)

theorem Kept.congr {h : H256} (hkept : s.Kept h) (hwritten : t.written = s.written)
    (hneeded : t.m_neededChunks = s.m_neededChunks) (hrequested : ∀ x p, t.RequestedFrom x p ↔ s.RequestedFrom x p) :
    t.Kept h := by
  rw [Kept, hwritten, hneeded]
  refine hkept.imp_right fun hkept => hkept.imp_right fun hunique => ?_
  exact (existsUnique_congr fun p => hrequested h p).2 hunique

/-- What the invariant asks of a step after which the manifest is the same. -/
theorem Inv.of_kept (h : Inv s) (hdownload : t.download = s.download) (hmanifest : t.m_manifest = s.m_manifest)
    (hkept : ∀ x, s.Kept x → t.Kept x) (hfront : t.Fronted) : Inv t where
  manifest hbegun := by
    rw [Begun, hdownload] at hbegun
    rw [hmanifest]
    exact h.manifest hbegun
  kept hbegun b hashes hb hhashes x hx := by
    rw [Begun, hdownload] at hbegun
    rw [hmanifest] at hb
    exact hkept x (h.kept hbegun b hashes hb hhashes x hx)
  front := hfront

theorem Inv.same (h : Inv s) (hsame : SameChunks s t) : Inv t := by
  have hrequested : ∀ x p, t.RequestedFrom x p ↔ s.RequestedFrom x p := by
    intro x p
    rw [RequestedFrom, RequestedFrom, hsame.requested, hsame.session]
  rcases hsame.download with hdownload | ⟨hs, ht⟩
  · have hbegun : t.Begun → s.Begun := by
      rw [Begun, hdownload]
      exact id
    constructor
    · intro ht
      obtain ⟨b, hb⟩ := Option.isSome_iff_exists.1 (h.manifest (hbegun ht))
      rw [hsame.manifest hb]
      rfl
    · intro ht b hashes hb hhashes x hx
      obtain ⟨b', hb'⟩ := Option.isSome_iff_exists.1 (h.manifest (hbegun ht))
      cases (hsame.manifest hb').symm.trans hb
      exact (h.kept (hbegun ht) b hashes hb' hhashes x hx).congr hsame.written hsame.needed hrequested
    · exact h.front.congr hdownload hsame.needed
  · refine ⟨fun hbegun => absurd ht hbegun.2, fun hbegun => absurd ht hbegun.2, ?_⟩
    have hfront := h.front
    rw [Fronted, hs] at hfront
    rw [Fronted, ht]
    exact hsame.needed.trans hfront

theorem Inv.start : Inv ({} : WarpPeerObserver P) :=
  ⟨fun h => absurd rfl h.1, fun h => absurd rfl h.1, rfl⟩

/-- The download at the head of its loop. -/
theorem Inv.nextChunk (hmanifest : s.m_manifest.isSome)
    (hkept : ∀ b hashes, s.m_manifest = some b → parse chunkHashes b = .ok hashes → ∀ h ∈ hashes, s.Kept h) :
    Inv s.nextChunk := by
  unfold WarpPeerObserver.nextChunk
  split
  · rename_i hneeded
    exact ⟨fun _ => hmanifest, fun _ => hkept, hneeded⟩
  · rename_i hneeded
    exact ⟨fun _ => hmanifest, fun _ => hkept, congrArg List.head? hneeded⟩

/-! ### The steps -/

variable [DecidableEq P]

theorem Inv.onChunk {p : P} {hash : H256} (h : Inv s)
    (hok : ∀ askedHash, s.m_requestedChunks p = some askedHash → hash ≠ askedHash → s.Looping) : Inv (s.onChunk p hash) := by
  rw [WarpPeerObserver.onChunk]
  split
  · exact h
  rename_i askedHash hasked
  extract_lets s₁
  have hothers : ∀ x q, s₁.RequestedFrom x q ↔ q ≠ p ∧ s.RequestedFrom x q := by
    intro x q
    show update s.m_requestedChunks p none q = some x ∧ _ ↔ _
    by_cases hq : q = p
    · rw [hq, update_self]
      exact ⟨fun h => (nomatch h.1), fun h => absurd rfl h.1⟩
    · rw [update_of_ne hq]
      exact ⟨fun h => ⟨hq, h⟩, And.right⟩
  have hreleased : ∀ x, s.RequestedFrom x p → x = askedHash := fun x hx => Option.some.inj (hx.1.symm.trans hasked)
  split
  · rename_i heq
    refine h.of_kept rfl rfl (fun x hx => ?_) (h.front.congr rfl rfl)
    refine hx.of_released (fun _ => mem_cons_of_mem _) (fun _ => id) hothers fun x hx => ?_
    rw [hreleased x hx, heq]
    exact .inl mem_cons_self
  · rename_i hne
    refine h.of_kept rfl rfl (fun x hx => ?_) (h.front.append (hok askedHash hasked hne) rfl rfl)
    refine hx.of_released (fun _ => id) (fun _ => mem_append_left _) hothers fun x hx => ?_
    rw [hreleased x hx]
    exact .inr (mem_append_right _ (mem_singleton_self _))

theorem Inv.interpret {p : P} {id : PacketType} {r : RLP} (h : Inv s)
    (hok : id = .snapshotData → ∀ hash askedHash, Wp.eval (dataHash c) r = .ok (some hash) →
      s.m_requestedChunks p = some askedHash → hash ≠ askedHash → s.Looping) : Inv (s.interpret c p id r) := by
  cases id with
  | warpStatus =>
    unfold WarpPeerObserver.interpret
    dsimp only
    split
    · exact h.same (((SameChunks.setPeer s p rfl).trans (.setAsking _ p _)).trans (.onPeerStatus _))
    · exact h.same (.setPeer s p rfl)
  | blockHeaders => exact h.same (.trans (.setAsking s p _) ⟨rfl, rfl, rfl, fun _ => rfl, fun h => h, .inl rfl⟩)
  | snapshotManifest => exact h.same (.trans (.setAsking s p _) ⟨rfl, rfl, rfl, fun _ => rfl, fun h => h, .inl rfl⟩)
  | snapshotData =>
    have hsame := SameChunks.setAsking s p .nothing
    unfold WarpPeerObserver.interpret WarpPeerObserver.onPeerData
    dsimp only
    split
    · rename_i hash hhash
      exact (h.same hsame).onChunk fun askedHash hasked => hok rfl hash askedHash hhash hasked
    · exact h.same hsame
    · exact h.same hsame

theorem Inv.disconnect {p : P} (h : Inv s)
    (hok : ∀ askedHash, s.m_requestedChunks p = some askedHash →
      if (s.peers p).m_asking = .warpData then s.Looping else askedHash ∈ s.written ∨ askedHash ∈ s.m_neededChunks) :
    Inv (s.disconnect p) := by
  rw [WarpPeerObserver.disconnect]
  generalize hs₁ : s.setPeer p ({ · with session := .closing }) = s₁
  have hchunks : s₁.m_neededChunks = s.m_neededChunks ∧ s₁.m_requestedChunks = s.m_requestedChunks ∧ s₁.written = s.written ∧
      s₁.download = s.download ∧ s₁.m_manifest = s.m_manifest := by
    rw [← hs₁]
    exact ⟨rfl, rfl, rfl, rfl, rfl⟩
  obtain ⟨hneeded, hrequested, hwritten, hdownload, hmanifest⟩ := hchunks
  have hothers : ∀ x q, s₁.RequestedFrom x q ↔ q ≠ p ∧ s.RequestedFrom x q := by
    intro x q
    rw [RequestedFrom, RequestedFrom, hrequested, ← hs₁]
    show _ ∧ (update s.peers p _ q).session = .live ↔ _
    by_cases hq : q = p
    · rw [hq, update_self]
      exact ⟨fun h => (nomatch h.2), fun h => absurd rfl h.1⟩
    · rw [update_of_ne hq]
      exact ⟨fun h => ⟨hq, h⟩, And.right⟩
  -- Unless the chunk was asked for last, it is not given back.
  have hlost : ((s.peers p).m_asking ≠ .warpData) → Inv s₁ := by
    intro hasking
    refine h.of_kept hdownload hmanifest (fun x hx => ?_) (h.front.congr hdownload hneeded)
    refine hx.of_released (fun y hy => hwritten ▸ hy) (fun y hy => hneeded ▸ hy) hothers fun y hy => ?_
    have hsafe := hok y hy.1
    rw [if_neg hasking] at hsafe
    rwa [hwritten, hneeded]
  cases hasking : (s.peers p).m_asking with
  | warpManifest =>
    have hinv := hlost (by rw [hasking]; nofun)
    unfold onPeerDisconnect
    dsimp only
    split
    · exact hinv
    split
    · exact hinv.same (.endsBy _ _)
    · exact hinv.same ⟨rfl, rfl, rfl, fun _ => rfl, id, .inl rfl⟩
  | blockHeaders =>
    have hinv := hlost (by rw [hasking]; nofun)
    unfold onPeerDisconnect
    dsimp only
    split
    · exact hinv
    split
    · exact hinv.same (.endsBy _ _)
    · exact hinv.same ⟨rfl, rfl, rfl, fun _ => rfl, id, .inl rfl⟩
  | warpData =>
    unfold onPeerDisconnect
    dsimp only
    split
    · rename_i hnone
      refine h.of_kept hdownload hmanifest (fun x hx => ?_) (h.front.congr hdownload hneeded)
      refine hx.of_released (fun y hy => hwritten ▸ hy) (fun y hy => hneeded ▸ hy) hothers fun y hy => ?_
      cases (hrequested ▸ hnone).symm.trans hy.1
    · rename_i askedHash hasked
      rw [hrequested] at hasked
      have hlooping := hok askedHash hasked
      rw [if_pos hasking] at hlooping
      have hothers' : ∀ x q, update s₁.m_requestedChunks p none q = some x ∧ (s₁.peers q).session = .live ↔
          q ≠ p ∧ s.RequestedFrom x q := by
        intro x q
        rw [← hothers x q]
        by_cases hq : q = p
        · rw [hq, update_self]
          exact ⟨fun h => (nomatch h.1), fun h => absurd rfl ((hothers x p).1 h).1⟩
        · rw [update_of_ne hq]
          rfl
      refine h.of_kept hdownload hmanifest (fun x hx => ?_) (h.front.append hlooping hdownload (by rw [hneeded]))
      refine hx.of_released (fun y hy => hwritten ▸ hy) (fun y hy => mem_append_left _ (hneeded ▸ hy)) hothers' fun y hy => ?_
      cases hasked.symm.trans hy.1
      exact .inr (mem_append_right _ (mem_singleton_self _))
  | state => exact hlost (by rw [hasking]; nofun)
  | blockBodies => exact hlost (by rw [hasking]; nofun)
  | nodeData => exact hlost (by rw [hasking]; nofun)
  | receipts => exact hlost (by rw [hasking]; nofun)
  | nothing => exact hlost (by rw [hasking]; nofun)

theorem Kept.request {p : P} {chunkHash x : H256} (hx : s.Kept x) (hfirst : s.m_neededChunks.head? = some chunkHash)
    (hreplaced : ∀ h, s.RequestedFrom h p → h = chunkHash ∨ s.KeptBehind h)
    (hrequested : s.KeptBehind chunkHash ∨ ∃! q, (q = p ∨ s.m_requestedChunks q = some chunkHash) ∧
      (s.peers q).session = .live) :
    (s.request p chunkHash).Kept x := by
  have hsession := (SameChunks.setAsking s p .warpData).session
  have hiff : ∀ y q, (s.request p chunkHash).RequestedFrom y q ↔
      (if q = p then chunkHash = y else s.m_requestedChunks q = some y) ∧ (s.peers q).session = .live := by
    intro y q
    rw [← hsession q]
    show update s.m_requestedChunks p (some chunkHash) q = some y ∧ _ ↔ _
    by_cases hq : q = p
    · rw [hq, update_self, if_pos rfl, Option.some_inj]
      rfl
    · rw [update_of_ne hq, if_neg hq]
      rfl
  have hbehind : s.KeptBehind x → (s.request p chunkHash).Kept x := fun h => h.imp_right .inl
  have hchunk : (s.request p chunkHash).Kept chunkHash := by
    rcases hrequested with hkept | hunique
    · exact hkept.imp_right .inl
    refine .inr (.inr ((existsUnique_congr fun q => ?_).1 hunique))
    rw [hiff]
    by_cases hq : q = p
    · rw [if_pos hq]
      exact ⟨fun h => ⟨rfl, h.2⟩, fun h => ⟨.inl hq, h.2⟩⟩
    · rw [if_neg hq, or_iff_right hq]
  by_cases hxc : x = chunkHash
  · rwa [hxc]
  obtain hw | hn | ⟨q, hq, hunique⟩ := hx
  · exact hbehind (.inl hw)
  · obtain ⟨rest, hrest⟩ := List.head?_eq_some_iff.1 hfirst
    rw [hrest] at hn
    refine hbehind (.inr ?_)
    rw [hrest]
    exact (mem_cons.1 hn).resolve_left hxc
  by_cases hqp : q = p
  · exact hbehind ((hreplaced x (hqp ▸ hq)).resolve_left hxc)
  · refine .inr (.inr ⟨q, (hiff x q).2 ?_, fun q' hq' => hunique q' ?_⟩)
    · rw [if_neg hqp]
      exact hq
    · have hq' := (hiff x q').1 hq'
      by_cases hqp' : q' = p
      · rw [if_pos hqp'] at hq'
        exact absurd hq'.1.symm hxc
      · rw [if_neg hqp'] at hq'
        exact hq'

theorem Inv.downloadChunks (h : Inv s) (hstep : s.downloadChunks = some t) (hok : Ok c s .download) : Inv t := by
  rw [WarpPeerObserver.downloadChunks] at hstep
  split at hstep
  · cases hstep
  · cases hstep
  · obtain ⟨b, hb, rfl⟩ := Option.map_eq_some_iff.1 hstep
    split
    · exact h.same (.endsBy s _)
    · rename_i hashes hhashes
      refine Inv.nextChunk (hb ▸ rfl) fun b' hashes' hb' hhashes' x hx => .inr (.inl ?_)
      cases hb.symm.trans hb'
      cases hhashes.symm.trans hhashes'
      exact hx
  · rename_i chunkHash hdownload
    have hbegun : s.Begun := by
      rw [Begun, hdownload]
      exact ⟨nofun, nofun⟩
    split at hstep
    · cases hstep
    rename_i p rest hfree
    cases hstep
    split
    · rename_i halive
      obtain ⟨hreplaced, hrequested⟩ := hok chunkHash p rest hdownload hfree halive
      refine Inv.nextChunk (h.manifest hbegun) fun b hashes hb hhashes x hx => ?_
      exact Kept.request (s := { s with m_freePeers := rest }) (h.kept hbegun b hashes hb hhashes x hx)
        (h.front.of_looping hdownload) hreplaced hrequested
    · exact h.same ⟨rfl, rfl, rfl, fun _ => rfl, id, .inl rfl⟩

theorem Inv.step {turn : Turn P} (h : Inv s) (hok : Ok c s turn) (hstep : s.step c turn = some t) : Inv t := by
  unfold WarpPeerObserver.step at hstep
  split at hstep
  · cases hstep
  cases turn with
  | packet p packetType b =>
    dsimp only at hstep
    split at hstep
    · cases hstep
    rename_i r hr
    split at hstep
    · cases hstep
      exact h.interpret fun hdata => by
        subst hdata
        exact fun hash askedHash => hok r hash askedHash hr
    · cases hstep
  | disconnect p =>
    dsimp only at hstep
    split at hstep
    · cases hstep
      exact h.disconnect hok
    · cases hstep
  | disconnected p =>
    dsimp only at hstep
    split at hstep
    · rename_i hclosing
      cases hstep
      refine h.of_kept rfl rfl (fun x hx => hx.congr rfl rfl fun y q => ?_) (h.front.congr rfl rfl)
      show _ ∧ (update s.peers p _ q).session = .live ↔ _ ∧ _
      by_cases hq : q = p
      · rw [hq, update_self, hclosing]
        exact ⟨fun h => (nomatch h.2), fun h => (nomatch h.2)⟩
      · rw [update_of_ne hq]
        rfl
    · cases hstep
  | validate i => exact h.same (.validate hstep)
  | download => exact h.downloadChunks hstep hok

theorem Inv.of_reaches (h : Reaches c (Ok c) s) : Inv s := by
  induction h with
  | start => exact .start
  | step _ hok hstep ih => exact ih.step hok hstep

/-- A chunk is somewhere, and if some are needed, the first of them is requested from the next free peer. -/
theorem chunks_tracked (h : Reaches c (Ok c) s) : s.Tracked ∧
    ∀ p rest, s.uncaught = none → s.m_neededChunks ≠ [] → s.m_freePeers = p :: rest → s.alive p →
      ∃ t, s.step c .download = some t ∧ t.m_requestedChunks p = s.m_neededChunks.head? := by
  have hinv := Inv.of_reaches h
  refine ⟨⟨hinv.kept, fun hne => ?_⟩, fun p rest huncaught hne hfree halive => ?_⟩
  · obtain ⟨chunkHash, hdownload, -⟩ := hinv.front.head hne
    exact ⟨chunkHash, hdownload⟩
  · obtain ⟨chunkHash, hdownload, hhead⟩ := hinv.front.head hne
    refine ⟨(request p chunkHash { s with m_freePeers := rest }).nextChunk, ?_, ?_⟩
    · unfold WarpPeerObserver.step WarpPeerObserver.downloadChunks
      rw [huncaught, hdownload, hfree]
      show some (if s.alive p then _ else _) = _
      rw [if_pos halive]
    · rw [hhead]
      unfold WarpPeerObserver.nextChunk
      split <;> exact update_self ..

/-! ### One peer, and a snapshot of one chunk -/

def warpHost : WarpHost where
  hostProtocolVersion := 1
  hostNetworkId := 0
  hostGenesisHash := 0
  daoForkBlock := 0
  sha3 b := BitVec.ofNat _ (BigEndian.ofBytes b)

def ran (turns : List (Turn Unit)) : WarpPeerObserver Unit := turns.foldl (fun s turn => (s.step warpHost turn).getD s) {}

/-- The turns that can all be taken -/
def runs : List (Turn Unit) → WarpPeerObserver Unit → Bool
  | [], _ => true
  | turn :: turns, s => (s.step warpHost turn).isSome && runs turns ((s.step warpHost turn).getD s)

variable {ok : WarpPeerObserver Unit → Turn Unit → Prop}

theorem reaches_foldl {s : WarpPeerObserver Unit} {turns : List (Turn Unit)}
    (h : Reaches warpHost ok s) (hok : ∀ s, ∀ turn ∈ turns, ok s turn) (hruns : runs turns s) :
    Reaches warpHost ok (turns.foldl (fun s turn => (s.step warpHost turn).getD s) s) := by
  induction turns generalizing s with
  | nil => exact h
  | cons turn turns ih =>
    obtain ⟨hstep, hruns⟩ := (Bool.and_eq_true _ _).mp hruns
    obtain ⟨t, ht⟩ := Option.isSome_iff_exists.1 hstep
    rw [ht] at hruns
    rw [foldl_cons, ht]
    exact ih (h.step (hok s turn mem_cons_self) ht) (fun s turn hturn => hok s turn (mem_cons_of_mem _ hturn)) hruns

theorem reaches_ran (turns : List (Turn Unit))
    (hok : ∀ s, ∀ turn ∈ turns, ok s turn) (hruns : runs turns {}) : Reaches warpHost ok (ran turns) :=
  reaches_foldl .start hok hruns

theorem reaches_next {turns : List (Turn Unit)} {turn : Turn Unit}
    (h : Reaches warpHost ok (ran turns)) (hok : ok (ran turns) turn) (hstep : ((ran turns).step warpHost turn).isSome) :
    Reaches warpHost ok (ran (turns ++ [turn])) := by
  obtain ⟨t, ht⟩ := Option.isSome_iff_exists.1 hstep
  have heq : ran (turns ++ [turn]) = t := by
    rw [ran, foldl_append]
    show ((ran turns).step warpHost turn).getD _ = t
    rw [ht]
    rfl
  rw [heq]
  exact h.step hok ht

/-- The status of a peer, and its manifest with the chunk 5 -/
def offered : List (Turn Unit) :=
  [.packet () .warpStatus [0xc7, 1, 0x80, 0x80, 0x80, 0x80, 0x80, 0x80], .validate 0,
    .packet () .snapshotManifest [0xc8, 0xc7, 2, 0xc1, 5, 0xc0, 0x80, 0x80, 7], .validate 0, .validate 0]

theorem chunks_tracked_offered : (ran (offered ++ [.download])).Tracked ∧
    ∃ t, (ran (offered ++ [.download])).step warpHost .download = some t ∧ t.m_requestedChunks () = some 5 := by
  have hoffered : Reaches warpHost (Ok warpHost) (ran offered) := by
    refine reaches_ran offered (fun s turn hturn => ?_) (by decide +kernel)
    simp only [offered, mem_cons, not_mem_nil, or_false] at hturn
    rcases hturn with rfl | rfl | rfl | rfl | rfl <;> exact True.intro
  have hdownload : (ran offered).download = .manifest := by decide +kernel
  have hok : Ok warpHost (ran offered) .download := by
    intro chunkHash p rest h
    rw [hdownload] at h
    cases h
  obtain ⟨htracked, hrequest⟩ := chunks_tracked (reaches_next hoffered hok (by decide +kernel))
  have hneeded : (ran (offered ++ [.download])).m_neededChunks = [5] := by decide +kernel
  have huncaught : (ran (offered ++ [.download])).uncaught = none := Option.isNone_iff_eq_none.1 (by decide +kernel)
  have hne : (ran (offered ++ [.download])).m_neededChunks ≠ [] := by decide +kernel
  have hfree : (ran (offered ++ [.download])).m_freePeers = [()] := by decide +kernel
  have halive : (ran (offered ++ [.download])).alive () := by decide +kernel
  obtain ⟨t, hstep, ht⟩ := hrequest () [] huncaught hne hfree halive
  rw [hneeded] at ht
  exact ⟨htracked, t, hstep, ht⟩

/-- The peer answers with another chunk when the download has ended. -/
theorem not_chunks_tracked : ¬ ∀ s : WarpPeerObserver Unit, Reaches warpHost (fun _ _ => True) s → s.Tracked := by
  intro htracked
  have hreaches : Reaches warpHost (fun _ _ => True)
      (ran (offered ++ [.download, .download, .packet () .snapshotData [0xc1, 6]])) :=
    reaches_ran _ (fun _ _ _ => trivial) (by decide +kernel)
  have hended : (ran (offered ++ [.download, .download, .packet () .snapshotData [0xc1, 6]])).download = .ended := by
    decide +kernel
  have hneeded : (ran (offered ++ [.download, .download, .packet () .snapshotData [0xc1, 6]])).m_neededChunks ≠ [] := by
    decide +kernel
  obtain ⟨chunkHash, hlooping⟩ := (htracked _ hreaches).looping hneeded
  rw [hended] at hlooping
  cases hlooping

end Kmdx.Warp.WarpPeerObserver
