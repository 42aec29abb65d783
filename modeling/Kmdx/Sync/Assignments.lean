import Kmdx.Sync.Tracked

/-!
# What peers have been asked for

The numbers recorded for a peer are those it has been asked for (`Recorded`), if the common block is found, and if none of the
numbers of the request is being downloaded but the last ones (`RequestOk`).
-/

namespace Kmdx.Sync.BlockChainSync

open Wp Chunks
open List hiding after

variable {W H B : Type} {c : Host W H B} {s s' : BlockChainSync W H B} {peer : Nat}

/-- What is being downloaded after the release of a peer is what the others have been asked for. -/
def Releases (d : Downloads) (peer : Nat) : Prop :=
  ∀ n, n ∈ (d.release peer).numbers ↔ ∃ q l, q ≠ peer ∧ d.peers.lookup q = some l ∧ n ∈ l

/-- What is recorded for a peer that has just been asked. -/
structure Recorded (peer : Nat) (s s' : BlockChainSync W H B) : Prop where
  headers : ∀ start count, s'.requests = (peer, .requestBlockHeaders start count) :: s.requests →
    s'.downloadingHeaders.peers.lookup peer = some (List.range' start count) ∧
    ∀ n, start ≤ n → n < start + count → haveItem s.headers n = false ∧
      ∀ q l, q ≠ peer → s'.downloadingHeaders.peers.lookup q = some l → n ∉ l
  bodies : ∀ hashes, s'.requests = (peer, .requestBlockBodies hashes) :: s.requests →
    ∃ blocks, s'.downloadingBodies.peers.lookup peer = some blocks ∧
      List.Forall₂ (fun n hash => ∃ x, findItem s.headers n = some x ∧ x.hash = hash) blocks hashes
  releases : ∀ q, Releases s'.downloadingHeaders q ∧ Releases s'.downloadingBodies q

/-- A request for blocks ends, what it asks for is recorded, and releases give back what has been recorded. -/
structure Assigned (c : Host W H B) (peer : Nat) (s : BlockChainSync W H B) : Prop where
  requests : ∃ s', requestBlocks c peer s = .ok () s' ∧ Recorded peer s s'
  releases : Releases s.downloadingHeaders peer ∧ Releases s.downloadingBodies peer

/-- If headers are asked for, the common block is found, and of the numbers that are looked at those that are being downloaded
are the last ones. -/
def RequestOk (c : Host W H B) (s : BlockChainSync W H B) : Prop :=
  c.knownFull s.host = false → s.neededBodies = [] → (searched c s).haveCommonHeader = true ∧
    ∀ start stop, Opens s.downloadingHeaders.numbers (searched c s).missingGaps start stop →
      ∀ m n, start < m → m < n → n < stop → m ∈ s.downloadingHeaders.numbers → n ∈ s.downloadingHeaders.numbers

theorem Downloads.Ok.releases {d : Downloads} (h : d.Ok) (peer : Nat) : Releases d peer := by
  intro n
  rw [(h.release peer).mem_iff]
  refine exists_congr fun q => exists_congr fun l => ?_
  rw [Downloads.Ok.lookup_release, ← and_assoc]
  refine and_congr_left fun _ => ?_
  split
  · rename_i heq
    simp [heq]
  · rename_i hne
    simp [hne]

/-! ### Headers -/

theorem filter_range' {p : Nat → Bool} {start len : Nat}
    (h : ∀ m n, start ≤ m → m < n → n < start + len → p m = false → p n = false) :
    (List.range' start len).filter p = List.range' start ((List.range' start len).filter p).length := by
  induction len generalizing start with
  | zero => rfl
  | succ len ih =>
    rw [List.range'_succ, filter_cons]
    split
    · have hrest : (List.range' (start + 1) len).filter p =
          List.range' (start + 1) ((List.range' (start + 1) len).filter p).length :=
        ih fun m n hm hmn hn => h m n (by omega) hmn (by omega)
      rw [length_cons, List.range'_succ, ← hrest]
    · rename_i hstart
      have hnil : (List.range' (start + 1) len).filter p = [] := filter_eq_nil_iff.2 fun n hn => by
        rw [mem_range'_1] at hn
        rw [h start n le_rfl (by omega) (by omega) (by simpa using hstart)]
        simp
      rw [hnil]
      rfl

theorem missing_eq_iff {start stop : Nat} (hfirst : start ∉ s.downloadingHeaders.numbers) :
    s.missing start stop = List.range' start (s.missing start stop).length ↔
      ∀ m n, start < m → m < n → n < stop → m ∈ s.downloadingHeaders.numbers → n ∈ s.downloadingHeaders.numbers := by
  have hmem : ∀ {n}, n ∈ s.missing start stop ↔ start ≤ n ∧ n < stop ∧ n ∉ s.downloadingHeaders.numbers := by
    intro n
    rw [missing, mem_filter, mem_range'_1, decide_eq_true_eq]
    constructor
    · rintro ⟨hn, hnot⟩
      exact ⟨hn.1, by omega, hnot⟩
    · rintro ⟨hle, hlt, hnot⟩
      exact ⟨by omega, hnot⟩
  constructor
  · intro heq m n hm hmn hn hin
    by_contra hnot
    have hrange : n ∈ List.range' start (s.missing start stop).length := heq ▸ hmem.2 ⟨by omega, hn, hnot⟩
    rw [mem_range'_1] at hrange
    have hmissing : m ∈ s.missing start stop := heq ▸ mem_range'_1.2 (by omega)
    exact (hmem.1 hmissing).2.2 hin
  · intro hlast
    refine filter_range' fun m n hm hmn hn hin => ?_
    rw [decide_eq_false_iff_not, not_not] at hin ⊢
    refine hlast m n (lt_of_le_of_ne hm fun heq => hfirst (heq ▸ hin)) hmn ?_ hin
    omega

/-! ### Bodies -/

theorem forall₂_hashesOf {blocks : List Nat} {first : Nat} {chunk : List (Header H)} {next : Chunks (Header H)}
    (hheaders : s.headers = (first, chunk) :: next) (hblocks : ∀ n ∈ blocks, first ≤ n ∧ n < first + chunk.length) :
    List.Forall₂ (fun n hash => ∃ x, At s.headers n x ∧ x.hash = hash) blocks (s.hashesOf blocks) := by
  rw [hashesOf, hheaders]
  dsimp only
  induction blocks with
  | nil => exact .nil
  | cons n blocks ih =>
    obtain ⟨⟨hle, hlt⟩, hblocks⟩ := forall_mem_cons.1 hblocks
    have hget : chunk[n - first]? = some chunk[n - first] := List.getElem?_eq_getElem (by omega)
    rw [filterMap_cons, hget]
    exact .cons ⟨_, ⟨(first, chunk), mem_cons_self, hle, hget⟩, rfl⟩ (ih hblocks)

theorem neededBodies_bounds (hneeded : s.neededBodies ≠ []) : ∃ first chunk next, s.headers = (first, chunk) :: next ∧
    ∀ n ∈ s.neededBodies, first ≤ n ∧ n < first + chunk.length := by
  rw [neededBodies] at hneeded ⊢
  split at hneeded
  · exact absurd rfl hneeded
  · rename_i first chunk next hheaders
    refine ⟨first, chunk, next, hheaders, fun n hn => ?_⟩
    split at hn
    · obtain ⟨i, hi, rfl⟩ := mem_map.1 (mem_filter.1 (mem_of_mem_take hn)).1
      exact ⟨Nat.le_add_right first i, Nat.add_lt_add_left (mem_range.1 hi) first⟩
    · cases hn

/-! ### Requests -/

theorem cons_ne_self {α : Type} {a : α} {l : List α} : l ≠ a :: l := fun h => by
  have := congrArg List.length h
  rw [length_cons] at this
  omega

theorem searched_requests : (searched c s).requests = s.requests := by
  rw [searched]
  split <;> rfl

theorem RequestsBlocks.recorded_iff (hheaders : Separate s.headers) (hok : s.downloadingHeaders.Ok)
    (hok' : s.downloadingBodies.Ok)
    (hnone : s.downloadingHeaders.peers.lookup peer = none) (hnone' : s.downloadingBodies.peers.lookup peer = none)
    (h : RequestsBlocks c peer s s') : Recorded peer s s' ↔ RequestOk c s := by
  obtain ⟨hrequested, -⟩ := h.requested hnone hnone'
  obtain ⟨hsearched, -, hdownloading⟩ := searched_requested (c := c) (s := s)
  have hreleases : ∀ q, Releases s'.downloadingHeaders q ∧ Releases s'.downloadingBodies q := fun q =>
    ⟨Downloads.Ok.releases (hrequested.downloadingHeaders hok) q, Downloads.Ok.releases (hrequested.downloadingBodies hok') q⟩
  cases h with
  | full hfull =>
    have hrecorded : Recorded peer s { s with state := .waiting } :=
      ⟨fun _ _ heq => absurd heq cons_ne_self, fun _ heq => absurd heq cons_ne_self, hreleases⟩
    exact iff_of_true hrecorded fun hnot => absurd hfull (Bool.eq_false_iff.1 hnot)
  | bodies hfull hneeded =>
    refine iff_of_true ⟨fun start count heq => ?_, fun hashes heq => ?_, hreleases⟩ fun _ hnil => absurd hnil hneeded
    · rw [asked, List.cons.injEq, Prod.mk.injEq] at heq
      cases heq.1.2
    · rw [asked, List.cons.injEq, Prod.mk.injEq, Request.requestBlockBodies.injEq] at heq
      obtain ⟨⟨-, rfl⟩, -⟩ := heq
      obtain ⟨first, chunk, next, hchunk, hbounds⟩ := neededBodies_bounds hneeded
      refine ⟨s.neededBodies, AList.lookup_insert _, ?_⟩
      exact (forall₂_hashesOf hchunk hbounds).imp fun n hash ⟨x, hx, hhash⟩ => ⟨x, hheaders.findItem_eq_some_iff.2 hx, hhash⟩
  | search hfull hneeded hwithout =>
    refine iff_of_false (fun hrecorded => ?_) fun hok => absurd (hok hfull hneeded).1 (Bool.eq_false_iff.1 hwithout)
    have hlookup := (hrecorded.headers s.searchStart 1 (congrArg (List.cons _) searched_requests)).1
    have hnone : (searched c s).downloadingHeaders.peers.lookup peer = none := hdownloading ▸ hnone
    rw [asked, hnone] at hlookup
    cases hlookup
  | nothing hfull hneeded hcommon hall =>
    have hsame : ∀ {r : Nat × Request H}, (searched c s).requests ≠ r :: s.requests := by
      rw [searched_requests]
      exact cons_ne_self
    refine iff_of_true ⟨fun _ _ heq => absurd heq hsame, fun _ heq => absurd heq hsame, hreleases⟩ fun _ _ => ⟨hcommon, ?_⟩
    exact fun start stop hopens => absurd hall hopens.not_all
  | @headers start stop _ hfull hneeded hcommon hopens hasked =>
    have hmissing := @missing_eq_iff _ _ _ (searched c s) start stop hasked.first
    rw [hdownloading] at hmissing
    have hs' := hasked.eq
    have hrequests : s'.requests = (peer, .requestBlockHeaders start ((searched c s).missing start stop).length) ::
        s.requests := by
      rw [hs', searched_requests]
    have hlookup : s'.downloadingHeaders.peers.lookup peer = some ((searched c s).missing start stop) := by
      rw [hs']
      exact AList.lookup_insert _
    constructor
    · intro hrecorded _ _
      refine ⟨hcommon, fun start' stop' hopens' => ?_⟩
      obtain ⟨rfl, rfl⟩ := hopens.unique hopens'
      have hrange := (hrecorded.headers _ _ hrequests).1
      rw [hlookup, Option.some_inj] at hrange
      exact hmissing.1 hrange
    · intro hrequest
      have hrange := hmissing.2 ((hrequest hfull hneeded).2 start stop hopens)
      refine ⟨fun start' count heq => ?_, fun hashes heq => ?_, hreleases⟩
      · rw [hrequests, List.cons.injEq, Prod.mk.injEq, Request.requestBlockHeaders.injEq] at heq
        obtain ⟨⟨-, rfl, rfl⟩, -⟩ := heq
        refine ⟨hrange ▸ hlookup, fun n hn hlt => ?_⟩
        have hmem : n ∈ (searched c s).missing start stop := hrange ▸ mem_range'_1.2 ⟨hn, hlt⟩
        refine ⟨Bool.eq_false_iff.2 fun hhave => ?_, fun q l hq hl hin => hq ?_⟩
        · have hstop := mem_range'_1.1 (mem_filter.1 hmem).1
          refine hasked.not_has n hn (by omega) ?_
          rw [hsearched.headers]
          exact hheaders.haveItem_iff.1 hhave
        · exact (hrequested.downloadingHeaders hok).apart hl hlookup hin hmem
      · rw [hrequests, List.cons.injEq, Prod.mk.injEq] at heq
        cases heq.1.2

variable [DecidableEq H]

/-- A request is recorded as it is made if and only if it is for the numbers that are recorded. -/
theorem assigned_iff {changes : W → W → Prop} (h : Reaches c changes (CallErases c) s) (peer : Nat) :
    Assigned c peer s ↔ RequestOk c (s.released peer) := by
  have htracked := Tracked.of_reaches h
  have hwp : wp (requestBlocks c peer) (fun _ => RequestsBlocks c peer (s.released peer)) (fun _ _ => False) s :=
    wp_requestBlocks htracked.headers
  obtain ⟨⟨⟩, s', hrun, hrequests⟩ := exists_ok_of_wp hwp
  have hnone : (s.released peer).downloadingHeaders.peers.lookup peer = none := lookup_released.1
  have hnone' : (s.released peer).downloadingBodies.peers.lookup peer = none := lookup_released.2
  have hiff : Recorded peer (s.released peer) s' ↔ RequestOk c (s.released peer) :=
    hrequests.recorded_iff htracked.headers (htracked.downloadingHeaders.release peer)
      (htracked.downloadingBodies.release peer) hnone hnone'
  have hsame : Recorded peer (s.released peer) s' ↔ Recorded peer s s' :=
    ⟨fun ⟨h, h', h''⟩ => ⟨h, h', h''⟩, fun ⟨h, h', h''⟩ => ⟨h, h', h''⟩⟩
  rw [← hiff, hsame]
  constructor
  · rintro ⟨⟨s'', hrun', hrecorded⟩, -⟩
    rw [hrun, EStateM.Result.ok.injEq] at hrun'
    exact hrun'.2 ▸ hrecorded
  · intro hrecorded
    exact ⟨⟨s', hrun, hrecorded⟩, Downloads.Ok.releases htracked.downloadingHeaders peer,
      Downloads.Ok.releases htracked.downloadingBodies peer⟩

/-- A first block that is known, and the third one: the two in between are asked for. -/
theorem assigned_fresh : Assigned fresh 1 (ran [.onPeerNewHashes 0 [(9, 9)], .onPeerBlockHeaders 0 [some (header 0 0 0 0)],
    .onPeerBlockHeaders 0 [some (header 3 5 4 1)]]) := by
  have hfirst : Reaches fresh (fun _ _ => True) (CallErases fresh) (ran [.onPeerNewHashes 0 [(9, 9)]]) :=
    reaches_ran [] (.constructed () (fun _ => freshPeer) [0] fun _ => false) trivial
  have hsecond : Reaches fresh (fun _ _ => True) (CallErases fresh)
      (ran [.onPeerNewHashes 0 [(9, 9)], .onPeerBlockHeaders 0 [some (header 0 0 0 0)]]) :=
    reaches_ran _ hfirst fun _ _ => ⟨fun _ _ hany => absurd hany (by decide +kernel), fun _ _ => trivial⟩
  have hthird : Reaches fresh (fun _ _ => True) (CallErases fresh) (ran [.onPeerNewHashes 0 [(9, 9)],
      .onPeerBlockHeaders 0 [some (header 0 0 0 0)], .onPeerBlockHeaders 0 [some (header 3 5 4 1)]]) :=
    reaches_ran _ hsecond fun _ _ => ⟨fun _ _ hany => absurd hany (by decide +kernel), fun _ _ => trivial⟩
  refine (assigned_iff hthird 1).2 fun _ _ => ⟨by decide +kernel, fun _ _ _ m n _ _ _ hm => ?_⟩
  have hnone : (released (ran [.onPeerNewHashes 0 [(9, 9)], .onPeerBlockHeaders 0 [some (header 0 0 0 0)],
      .onPeerBlockHeaders 0 [some (header 3 5 4 1)]]) 1).downloadingHeaders.numbers = ∅ := by decide +kernel
  rw [hnone] at hm
  exact absurd hm (Finset.notMem_empty m)

theorem reaches_foldl {changes : W → W → Prop} (calls : List (Call H B)) (h : Reaches c changes (fun _ _ => True) s) :
    Reaches c changes (fun _ _ => True) (calls.foldl (fun s a => after (handle c a) s) s) := by
  induction calls generalizing s with
  | nil => exact h
  | cons a calls ih => exact ih (h.call trivial)

/-- Two requests, a block that takes a header away, and one further on -/
def crossing : BlockChainSync Unit Nat (HeaderId Nat) :=
  [.onPeerNewHashes 0 [(9, 9)], .onPeerBlockHeaders 0 [some (header 0 0 0 0), some (header 3 5 4 1), some (header 8 11 10 1)],
    .onPeerBlockHeaders 0 [some (header 2 6 0 2), some (header 12 13 12 1)]].foldl (fun s a => after (handle fresh a) s)
    (constructed fresh () (fun _ => freshPeer) [0, 1, 2] fun _ => false)

theorem not_assigned : ¬ ∀ s, Reaches fresh (fun _ _ => True) (fun _ _ => True) s → ∀ peer, Assigned fresh peer s := by
  intro hassigned
  have hreaches : Reaches fresh (fun _ _ => True) (fun _ _ => True) crossing :=
    reaches_foldl _ (.constructed () (fun _ => freshPeer) [0, 1, 2] fun _ => false)
  obtain ⟨s', hrun, hrecorded⟩ := (hassigned crossing hreaches 3).requests
  have hs' : s' = after (requestBlocks fresh 3) crossing := by rw [after, hrun]
  have hrequests : s'.requests = (3, .requestBlockHeaders 3 5) :: crossing.requests := by
    rw [hs']
    decide +kernel
  have hlookup := (hrecorded.headers 3 5 hrequests).1
  rw [hs'] at hlookup
  revert hlookup
  decide +kernel

end Kmdx.Sync.BlockChainSync
