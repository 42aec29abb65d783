import Kmdx.Sync.Bodies

/-!
# What is being downloaded

The chunks do not meet, and what is being downloaded is what peers have been asked for (`Tracked`), as long as no handler but
the release of a peer gives up a number that is being downloaded (`CallErases`).
-/

namespace Kmdx.Sync

open Wp Chunks

theorem Chunks.Separate.of_mergeInto {T : Type} {m m' : Chunks T} {n : Nat} {x : T} (h : Separate m)
    (hmerge : Chunks.mergeInto m n x = some m') : Separate m' := by
  have hnot : ¬ Has m n := fun hhas => by
    rw [Chunks.mergeInto, if_pos (h.haveItem_iff.2 hhas)] at hmerge
    cases hmerge
  obtain ⟨m₁, hmerge₁, hsep, -⟩ := h.mergeInto hnot x
  rw [hmerge, Option.some.injEq] at hmerge₁
  exact hmerge₁ ▸ hsep

/-- Numbers that are not being downloaded. -/
theorem Downloads.Ok.erases {d : Downloads} {l : List Nat} (h : d.Ok) (hl : ∀ n ∈ l, n ∉ d.numbers) :
    (l.foldl Downloads.erase d).Ok := by
  induction l with
  | nil => exact h
  | cons n l ih =>
    have heq : d.erase n = d := by rw [Downloads.erase, Finset.erase_eq_of_notMem (hl n List.mem_cons_self)]
    rw [List.foldl_cons, heq]
    exact ih fun j hj => hl j (List.mem_cons_of_mem n hj)

namespace BlockChainSync

variable {W H B : Type} {c : Host W H B} {s s' : BlockChainSync W H B} {peer n : Nat}

/-- The chunks do not meet, and what is being downloaded is what peers have been asked for. -/
structure Tracked (s : BlockChainSync W H B) : Prop where
  headers : Separate s.headers
  bodies : Separate s.bodies
  downloadingHeaders : s.downloadingHeaders.Ok
  downloadingBodies : s.downloadingBodies.Ok

namespace Tracked

theorem congr (h : Tracked s) (hheaders : s'.headers = s.headers) (hbodies : s'.bodies = s.bodies)
    (hdownloading : s'.downloadingHeaders = s.downloadingHeaders)
    (hdownloading' : s'.downloadingBodies = s.downloadingBodies) : Tracked s' :=
  ⟨hheaders ▸ h.headers, hbodies ▸ h.bodies, hdownloading ▸ h.downloadingHeaders, hdownloading' ▸ h.downloadingBodies⟩

theorem requested (h : Tracked s) (hs : Requested c s s') : Tracked s' :=
  ⟨hs.headers ▸ h.headers, hs.bodies ▸ h.bodies, hs.downloadingHeaders h.downloadingHeaders,
    hs.downloadingBodies h.downloadingBodies⟩

/-- Nothing is stored, and nothing is being downloaded. -/
theorem of_empty (hheaders : s.headers = []) (hbodies : s.bodies = []) (hdownloading : s.downloadingHeaders = {})
    (hdownloading' : s.downloadingBodies = {}) : Tracked s :=
  ⟨hheaders ▸ separate_nil, hbodies ▸ separate_nil, hdownloading ▸ .empty, hdownloading' ▸ .empty⟩

theorem synced {force : Bool} (h : Tracked s) : wp (syncPeer c peer force) (fun _ => Tracked) (fun _ => Tracked) s :=
  wp_mono (wp_syncPeer h.headers) (fun _ _ hs => h.requested hs) fun _ _ => False.elim

theorem continued (h : Tracked s) : wp (continueSync c) (fun _ => Tracked) (fun _ => Tracked) s :=
  wp_mono (wp_continueSync h.headers) (fun _ _ hs => h.requested hs) fun _ _ => False.elim

theorem wp_importBlocks {first i : Nat} {l : List (Header H × B)} (h : Tracked s) : wp (importBlocks c first i l)
    (fun done s' => Tracked s' ∧ (∀ k, done = some k → k = i + l.length ∧ s'.headers = s.headers ∧ s'.bodies = s.bodies))
    (fun _ => Tracked) s := by
  induction l generalizing s i with
  | nil =>
    refine ⟨h, ?_⟩
    rintro k ⟨⟩
    exact ⟨rfl, rfl, rfl⟩
  | cons p l ih =>
    obtain ⟨header, body⟩ := p
    rw [importBlocks, wp_bind, wp_get]
    generalize c.importBlock s.host header body = imported
    obtain ⟨result, host⟩ := imported
    dsimp only
    rw [wp_bind, wp_set]
    have h₁ : Tracked { s with host, collected := (header, body) :: s.collected } := h.congr rfl rfl rfl rfl
    -- The blocks behind an import that does not end the loop.
    have hnext : ∀ s₁, Tracked s₁ → s₁.headers = s.headers → s₁.bodies = s.bodies →
        wp (importBlocks c first (i + 1) l) (fun done s' => Tracked s' ∧
          (∀ k, done = some k → k = i + (l.length + 1) ∧ s'.headers = s.headers ∧ s'.bodies = s.bodies))
            (fun _ => Tracked) s₁ := by
      intro s₁ h₁ hheaders hbodies
      refine wp_mono (ih h₁) ?_ fun _ _ => id
      rintro done s' ⟨h', hdone⟩
      refine ⟨h', fun k hk => ?_⟩
      obtain ⟨hlength, hheaders', hbodies'⟩ := hdone k hk
      exact ⟨by omega, hheaders'.trans hheaders, hbodies'.trans hbodies⟩
    cases result with
    | success =>
      dsimp only
      rw [wp_ite]
      split
      · rw [wp_bind, wp_modify]
        exact hnext _ (h₁.congr rfl rfl rfl rfl) rfl rfl
      · exact hnext _ h₁ rfl rfl
    | malformed | badChain =>
      dsimp only
      rw [wp_bind]
      exact ⟨.of_empty rfl rfl rfl rfl, by rintro _ ⟨⟩⟩
    | alreadyKnown | futureTimeUnknown | unknownParent =>
      dsimp only
      rw [wp_ite]
      split
      · exact ⟨.of_empty rfl rfl rfl rfl, by rintro _ ⟨⟩⟩
      · exact ⟨h₁, by rintro _ ⟨⟩⟩
    | futureTimeKnown | alreadyInChain | overbidGasPrice | zeroSignature => exact hnext _ h₁ rfl rfl

end Tracked

/-- A new block is not being downloaded, or there are no headers behind it. -/
def NewBlockErases (s : BlockChainSync W H B) (n : Nat) : Prop :=
  removeItem s.headers n = [] ∨ n ∉ s.downloadingHeaders.numbers ∧ n ∉ s.downloadingBodies.numbers

namespace Tracked

theorem removeItem {T : Type} {m : Chunks T} (h : Separate m) : Separate (Chunks.removeItem m n) := by
  by_cases hhas : Has m n
  · obtain ⟨d, hd, hle, hlt⟩ := has_iff.1 hhas
    exact (h.removeItem hd hle hlt).1
  · rw [h.removeItem_of_not_has hhas]
    exact h

theorem wp_tookNewBlock {info : Header H} (h : Tracked s) (hok : NewBlockErases s n) :
    wp (tookNewBlock info n) (fun _ => Tracked) (fun _ => Tracked) s := by
  rw [tookNewBlock, wp_bind, wp_modify]
  have hlast : Tracked (if s.lastImportedBlock < n then
      { s with lastImportedBlock := n, lastImportedBlockHash := info.hash } else s) ∧
        NewBlockErases (if s.lastImportedBlock < n then
      { s with lastImportedBlock := n, lastImportedBlockHash := info.hash } else s) n := by
    split
    · exact ⟨h.congr rfl rfl rfl rfl, hok⟩
    · exact ⟨h, hok⟩
  generalize (if s.lastImportedBlock < n then _ else s) = s₁ at hlast ⊢
  obtain ⟨h₁, hok₁⟩ := hlast
  rw [wp_bind, wp_modify, wp_bind, wp_get, wp_ite]
  split
  · exact .of_empty rfl rfl rfl rfl
  · rename_i hne
    rw [List.isEmpty_iff] at hne
    obtain ⟨hnot, hnot'⟩ := hok₁.resolve_left hne
    exact ⟨removeItem h₁.headers, removeItem h₁.bodies, h₁.downloadingHeaders.erase hnot, h₁.downloadingBodies.erase hnot'⟩

theorem wp_restartSync {E : Exn → BlockChainSync W H B → Prop} : wp (restartSync c) (fun _ => Tracked) E s :=
  .of_empty rfl rfl rfl rfl

theorem wp_collectBlocks (h : Tracked s) : wp (collectBlocks c) (fun _ => Tracked) (fun _ => Tracked) s := by
  rw [collectBlocks, wp_bind, wp_get]
  split
  · rename_i first headers nextHeaders firstBody bodies nextBodies hheaders hbodies
    rw [wp_ite]
    split
    · exact h
    rename_i hgo
    rw [not_or, not_or, not_not, not_not, not_not] at hgo
    obtain ⟨-, rfl, -⟩ := hgo
    rw [wp_bind]
    refine wp_mono h.wp_importBlocks ?_ fun _ _ => id
    rintro done s₁ ⟨h₁, hdone⟩
    cases done with
    | none => exact h₁
    | some i =>
      obtain ⟨hi, hheaders₁, hbodies₁⟩ := hdone i rfl
      rw [Nat.zero_add, List.length_zip] at hi
      rw [hheaders] at hheaders₁
      rw [hbodies] at hbodies₁
      dsimp only
      rw [wp_bind, wp_get, wp_ite]
      split
      · exact .of_empty rfl rfl rfl rfl
      have h₂ : Tracked { s₁ with
          headers := leave (first + i) (headers.drop i) nextHeaders,
            bodies := leave (first + i) (bodies.drop i) nextBodies } :=
        ⟨(separate_leave (hheaders₁ ▸ h₁.headers) (k := i) (by omega)).1,
          (separate_leave (hbodies₁ ▸ h₁.bodies) (k := i) (by omega)).1, h₁.downloadingHeaders, h₁.downloadingBodies⟩
      rw [wp_bind, wp_modify, wp_bind, wp_get, wp_ite]
      split
      · rw [wp_bind, wp_get, wp_ite]
        split
        · exact h₂
        · exact .of_empty rfl rfl rfl rfl
      · exact h₂
  · exact h

theorem wp_onNewHashes {unknowns maxHeight : Nat} {hashes : List (H × Nat)} (h : Tracked s) :
    wp (onNewHashes c peer unknowns maxHeight hashes) (fun _ => Tracked) (fun _ => Tracked) s := by
  induction hashes generalizing s unknowns maxHeight with
  | nil => exact h
  | cons p l ih =>
    obtain ⟨x, height⟩ := p
    rw [onNewHashes, wp_bind, wp_get, wp_ite]
    split
    · exact ih h
    split
    · exact h
    · rw [wp_ite]
      split
      · rw [wp_bind, wp_set]
        exact ih (h.congr rfl rfl rfl rfl)
      · exact ih h
    · exact ih h

theorem wp_onPeerAborting (h : Tracked s) : wp (onPeerAborting c) (fun _ => Tracked) (fun _ => Tracked) s := by
  rw [onPeerAborting, wp_bind]
  exact Tracked.continued ⟨h.headers, h.bodies, h.downloadingHeaders.releases _, h.downloadingBodies.releases _⟩

theorem wp_unknownNewBlock {totalDifficulty : Option Nat} (h : Tracked s) :
    wp (unknownNewBlock c peer totalDifficulty) (fun _ => Tracked) (fun _ => Tracked) s := by
  unfold unknownNewBlock
  rw [wp_bind, wp_modify, wp_bind, wp_get]
  extract_lets resume
  have htell : ∀ s₁, Tracked s₁ → wp (resume ()) (fun _ => Tracked) (fun _ => Tracked) s₁ := by
    intro s₁ h₁
    dsimp only [resume]
    cases totalDifficulty with
    | none => exact h₁
    | some td =>
      dsimp only
      rw [wp_bind, wp_get, wp_ite]
      split
      · exact h₁.synced
      · exact h₁
  rw [wp_ite]
  split
  · rw [wp_bind]
    exact wp_mono wp_restartSync (fun _ s₁ h₁ => htell s₁ h₁) fun _ _ => id
  · refine htell _ ?_
    exact h.congr rfl rfl rfl rfl

theorem wp_onPeerNewHashes {hashes : List (H × Nat)} (h : Tracked s) :
    wp (onPeerNewHashes c peer hashes) (fun _ => Tracked) (fun _ => Tracked) s := by
  rw [onPeerNewHashes, wp_bind, wp_get, wp_ite]
  split
  · exact h
  rw [wp_bind]
  refine wp_mono h.wp_onNewHashes (fun unknowns s₁ h₁ => ?_) fun _ _ => id
  cases unknowns with
  | none => exact h₁
  | some unknowns =>
    dsimp only
    rw [wp_ite]
    split
    · exact h₁.synced
    · exact h₁

theorem wp_onPeerNewBlock {message : NewBlock H B} (h : Tracked s)
    (hok : ∀ info body td, message = .block info body td → info.number % 2 ^ 32 ≤ succ s.lastImportedBlock →
      (c.importBlock s.host info body).1 = .success → NewBlockErases s (info.number % 2 ^ 32)) :
    wp (onPeerNewBlock c peer message) (fun _ => Tracked) (fun _ => Tracked) s := by
  cases message with
  | notTwoFields => exact h
  | malformed => exact h
  | block info body td =>
    have hok := hok info body td rfl
    rw [onPeerNewBlock, wp_bind, wp_get]
    extract_lets n
    rw [wp_ite]
    split
    · exact h.synced
    rename_i hle
    generalize c.importBlock s.host info body = imported at hok ⊢
    obtain ⟨result, host⟩ := imported
    dsimp only
    rw [wp_bind, wp_set]
    have h₁ : Tracked { s with host } := h.congr rfl rfl rfl rfl
    cases result with
    | success => exact h₁.wp_tookNewBlock (hok (not_lt.1 hle) rfl)
    | futureTimeUnknown | unknownParent => exact h₁.wp_unknownNewBlock
    | futureTimeKnown | malformed | badChain | alreadyInChain | alreadyKnown | overbidGasPrice | zeroSignature => exact h₁

end Tracked

variable [DecidableEq H]

/-! ### Numbers that are given up -/

/-- The headers that a new one clears are not being downloaded, nor are their bodies. -/
def HeaderErases (c : Host W H B) (s : BlockChainSync W H B) (info : Header H) : Prop :=
  let n := succ (info.number % 2 ^ 32)
  stores c s info → s.haveCommonHeader → (findItem s.headers n).any (·.parentHash ≠ info.hash) →
    ∀ chunk ∈ startsAt s.headers n, ∀ j, n ≤ j → j < n + chunk.2.length →
      j ∉ s.downloadingHeaders.numbers ∧ j ∉ s.downloadingBodies.numbers

def HeadersErase (c : Host W H B) : BlockChainSync W H B → List (Option (Header H)) → Prop
  | s, some info :: items => HeaderErases c s info ∧ ∀ s', onHeader c info s = .ok false s' → HeadersErase c s' items
  | _, _ => True

def CallErases (c : Host W H B) (s : BlockChainSync W H B) : Call H B → Prop
  | .onPeerBlockHeaders peer items => peer ∉ s.daoChallengedPeers → s.state = .blocks →
    HeadersErase c (after (clearPeerDownload peer) s) items
  | .onPeerNewBlock _ (.block info body _) => info.number % 2 ^ 32 ≤ succ s.lastImportedBlock →
    (c.importBlock s.host info body).1 = .success → NewBlockErases s (info.number % 2 ^ 32)
  | _ => True

namespace Tracked

section

variable (h : Tracked s)
include h

theorem wp_clearFollowing {info : Header H} (hn : ∀ chunk ∈ startsAt s.headers n,
    ∀ j, n ≤ j → j < n + chunk.2.length → j ∉ s.downloadingHeaders.numbers ∧ j ∉ s.downloadingBodies.numbers) :
    wp (clearFollowing info n) (fun _ => Tracked) (fun _ => Tracked) s := by
  rw [clearFollowing, wp_bind, wp_get]
  cases hstart : startsAt s.headers n with
  | none => exact h
  | some chunk =>
    have hnumbers : ∀ j ∈ (List.range chunk.2.length).map (n + ·), j ∉ s.downloadingHeaders.numbers ∧
        j ∉ s.downloadingBodies.numbers := by
      intro j hj
      obtain ⟨i, hi, rfl⟩ := List.mem_map.1 hj
      exact hn chunk hstart _ (Nat.le_add_right n i) (Nat.add_lt_add_left (List.mem_range.1 hi) n)
    exact ⟨(h.headers.removeAllStartingWith n).1, (h.bodies.removeAllStartingWith n).1,
      h.downloadingHeaders.erases fun j hj => (hnumbers j hj).1, h.downloadingBodies.erases fun j hj => (hnumbers j hj).2⟩

theorem wp_storeHeader {info : Header H} : wp (storeHeader c info n) (fun _ => Tracked) (fun _ => Tracked) s := by
  rw [storeHeader, wp_bind, wp_get]
  cases hmerge : mergeInto s.headers n info with
  | none => exact h
  | some headers =>
    dsimp only
    rw [wp_bind, wp_modify, wp_ite]
    have h₁ : Tracked { s with headers } := ⟨h.headers.of_mergeInto hmerge, h.bodies,
        h.downloadingHeaders, h.downloadingBodies⟩
    split
    · rw [wp_bind, wp_get]
      dsimp only
      cases hmerge' : mergeInto s.bodies n c.emptyBody with
      | none => exact h₁
      | some bodies => exact ⟨h₁.headers, h.bodies.of_mergeInto hmerge', h₁.downloadingHeaders, h₁.downloadingBodies⟩
    · exact h₁.congr rfl rfl rfl rfl

theorem wp_onHeader {info : Header H} (hok : HeaderErases c s info) :
    wp (onHeader c info) (fun _ => Tracked) (fun _ => Tracked) s := by
  rw [onHeader, wp_bind, wp_get]
  extract_lets n
  rw [wp_ite]
  split
  · exact h
  rename_i hstart
  rw [wp_ite]
  split
  · exact h
  rename_i hhave
  rw [wp_ite]
  split
  · exact h
  rename_i hold
  rw [wp_ite]
  split
  · rw [wp_bind, wp_set]
    have hlast : Tracked { s with haveCommonHeader := true, lastImportedBlock := n, lastImportedBlockHash := info.hash } :=
      h.congr rfl rfl rfl rfl
    generalize BlockChainSync.mk _ _ _ _ _ _ _ _ _ _ _ _ _ _ _ _ _ = s₁ at hlast ⊢
    split
    · exact hlast
    · rw [wp_ite]
      split
      · split
        · exact hlast
        · rw [wp_ite]
          split
          · rw [wp_bind]
            exact .of_empty rfl rfl rfl rfl
          · exact hlast
      · exact hlast
  rename_i hknown
  rw [wp_ite]
  split
  · rw [wp_bind]
    exact .of_empty rfl rfl rfl rfl
  rename_i hmismatch
  have hstores := stores_of_not hstart hhave hold hknown hmismatch
  rw [wp_ite]
  split
  · rename_i hclears
    rw [wp_bind]
    refine wp_mono (h.wp_clearFollowing (hok hstores hclears.1 hclears.2)) (fun _ s₁ h₁ => ?_) fun _ _ => id
    rw [wp_bind]
    exact h₁.wp_storeHeader
  · rw [wp_bind]
    exact h.wp_storeHeader

theorem wp_onHeaders {items : List (Option (Header H))} (hok : HeadersErase c s items) :
    wp (onHeaders c items) (fun _ => Tracked) (fun _ => Tracked) s := by
  induction items generalizing s with
  | nil => exact h
  | cons item items ih =>
    cases item with
    | none => exact h
    | some info =>
      rw [HeadersErase] at hok
      rw [onHeaders, wp_bind]
      refine wp_mono (wp_run (h.wp_onHeader hok.1)) ?_ fun _ _ => id
      rintro stop s' ⟨hrun, h'⟩
      rw [wp_ite]
      split
      · exact h'
      · rename_i hstop
        rw [Bool.not_eq_true] at hstop
        exact ih h' (hok.2 s' (hstop ▸ hrun))

theorem wp_onBody {body : B} : wp (onBody c body) (fun _ => Tracked) (fun _ => Tracked) s := by
  rw [onBody, wp_bind, wp_get]
  cases s.headerIdToNumber.lookup (c.bodyId body) with
  | none => exact h
  | some n =>
    dsimp only
    rw [wp_ite]
    split
    · exact h
    rw [wp_ite]
    split
    · exact h
    rw [wp_bind, wp_set]
    cases hmerge : mergeInto s.bodies n body with
    | none => exact h.congr rfl rfl rfl rfl
    | some bodies => exact ⟨h.headers, h.bodies.of_mergeInto hmerge, h.downloadingHeaders, h.downloadingBodies⟩

theorem wp_onPeerStatus : wp (onPeerStatus c peer) (fun _ => Tracked) (fun _ => Tracked) s := by
  rw [onPeerStatus, wp_bind, wp_get]
  cases (s.peer peer).session with
  | none => exact h
  | some clientVersion =>
    dsimp only
    rw [wp_ite]
    split
    · exact h
    rw [wp_bind, requestDaoForkBlockHeader, wp_ite]
    split
    · exact h.synced
    · exact h.congr rfl rfl rfl rfl

theorem wp_onPeerBlockHeaders {items : List (Option (Header H))}
    (hok : peer ∉ s.daoChallengedPeers → s.state = .blocks → HeadersErase c (after (clearPeerDownload peer) s) items) :
    wp (onPeerBlockHeaders c peer items) (fun _ => Tracked) (fun _ => Tracked) s := by
  rw [onPeerBlockHeaders, wp_bind, wp_get, wp_ite]
  split
  · rw [wp_bind]
    refine wp_mono wp_verifyDaoChallengeResponse (fun fits s₁ hs₁ => ?_) fun e s₁ hs₁ => hs₁.2 ▸ h
    subst hs₁
    rw [wp_ite]
    split
    · rw [wp_bind]
      exact wp_mono h.synced (fun _ s₂ h₂ => h₂.congr rfl rfl rfl rfl) fun _ _ => id
    · exact h.congr rfl rfl rfl rfl
  · rename_i hdao
    rw [wp_bind]
    have hcleared : Tracked (after (clearPeerDownload peer) s) := h.requested (c := c) released_requested
    show wp _ _ _ (after (clearPeerDownload peer) s)
    rw [wp_bind, wp_get, wp_ite]
    split
    · exact hcleared
    rename_i hstate
    rw [not_not] at hstate
    rw [wp_bind]
    refine wp_mono (hcleared.wp_onHeaders (hok hdao hstate)) (fun stop s₁ h₁ => ?_) fun _ _ => id
    rw [wp_ite]
    split
    · exact h₁
    · rw [wp_bind]
      exact wp_mono h₁.wp_collectBlocks (fun _ s₂ h₂ => h₂.continued) fun _ _ => id

theorem wp_onPeerBlockBodies {items : List B} :
    wp (onPeerBlockBodies c peer items) (fun _ => Tracked) (fun _ => Tracked) s := by
  rw [onPeerBlockBodies, wp_bind]
  have hcleared : Tracked (after (clearPeerDownload peer) s) := h.requested (c := c) released_requested
  show wp _ _ _ (after (clearPeerDownload peer) s)
  rw [wp_bind, wp_get, wp_ite]
  split
  · exact hcleared
  rw [wp_bind]
  refine wp_mono (wp_forM (I := Tracked) (fun body _ s₁ h₁ => h₁.wp_onBody) hcleared) (fun _ s₁ h₁ => ?_) fun _ _ => id
  rw [wp_bind]
  exact wp_mono h₁.wp_collectBlocks (fun _ s₂ h₂ => h₂.continued) fun _ _ => id

theorem wp_handle {a : Call H B} (hok : CallErases c s a) :
    wp (handle c a) (fun _ => Tracked) (fun _ => Tracked) s := by
  cases a with
  | onPeerStatus peer => exact h.wp_onPeerStatus
  | onPeerBlockHeaders peer items => exact h.wp_onPeerBlockHeaders hok
  | onPeerBlockBodies peer items => exact h.wp_onPeerBlockBodies
  | onPeerNewBlock peer message =>
    refine h.wp_onPeerNewBlock ?_
    rintro info body td rfl
    exact hok
  | onPeerNewHashes peer hashes => exact h.wp_onPeerNewHashes
  | onBlockImported info =>
    rw [handle, onBlockImported, wp_bind, wp_get, wp_ite]
    split
    · exact h.congr rfl rfl rfl rfl
    · exact h
  | onPeerAborting => exact h.wp_onPeerAborting
  | onRoomAvailable =>
    rw [handle, onRoomAvailable, wp_bind]
    exact Tracked.continued (h.congr rfl rfl rfl rfl)
  | restartSync => exact .of_empty rfl rfl rfl rfl
  | abortSync =>
    rw [handle, abortSync, wp_bind]
    have h₁ : Tracked (after resetSync s) := .of_empty rfl rfl rfl rfl
    show wp _ _ _ (after resetSync s)
    rw [wp_bind, wp_get]
    exact wp_forM (I := Tracked) (fun _ _ s₂ h₂ => h₂.wp_onPeerAborting) h₁

end

theorem of_reaches {changes : W → W → Prop} (h : Reaches c changes (CallErases c) s) : Tracked s := by
  induction h with
  | constructed => exact .of_empty rfl rfl rfl rfl
  | network _ _ _ _ _ ih => exact ih.congr rfl rfl rfl rfl
  | call _ hok ih => exact wp_after (ih.wp_handle hok)

end Tracked

end BlockChainSync

end Kmdx.Sync
