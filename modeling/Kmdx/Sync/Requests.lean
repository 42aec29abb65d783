import Kmdx.Sync.BlockChainSync

/-!
# What the requests to the peers change

A request leaves the headers and the bodies alone. The numbers that are being downloaded are those that peers have been
asked for (`Downloads.Ok`), and without a common header the search goes back below the first header (`Requested`).
-/

namespace Kmdx.Sync

open Wp Chunks List

/-- The numbers are those of the peers, each one of one peer, and each peer has one at least. -/
structure Downloads.Ok (d : Downloads) : Prop where
  mem_iff : ∀ n, n ∈ d.numbers ↔ ∃ p l, d.peers.lookup p = some l ∧ n ∈ l
  nonempty : ∀ {p l}, d.peers.lookup p = some l → l ≠ []
  apart : ∀ {p q l l' n}, d.peers.lookup p = some l → d.peers.lookup q = some l' → n ∈ l → n ∈ l' → p = q

namespace Downloads.Ok

variable {d : Downloads} {peer n : Nat} {blocks : List Nat}

theorem empty : Downloads.Ok {} := by
  refine ⟨fun n => ⟨fun hn => absurd hn (Finset.notMem_empty n), ?_⟩, ?_, ?_⟩
  · rintro ⟨p, l, hl, -⟩
    cases hl
  · intro p l hl
    cases hl
  · intro p q l l' n hl
    cases hl

theorem lookup_release (d : Downloads) (p : Nat) :
    (d.release peer).peers.lookup p = if p = peer then none else d.peers.lookup p := by
  rw [release]
  cases hpeer : d.peers.lookup peer with
  | none =>
    dsimp only
    split
    · rename_i heq
      rw [heq, hpeer]
    · rfl
  | some l =>
    dsimp only
    split
    · rename_i heq
      rw [heq, AList.lookup_erase]
    · rename_i hne
      rw [AList.lookup_erase_ne hne]

theorem release (h : d.Ok) (peer : Nat) : (d.release peer).Ok := by
  have hsub : ∀ {p l}, (d.release peer).peers.lookup p = some l → p ≠ peer ∧ d.peers.lookup p = some l := by
    intro p l hl
    rw [lookup_release] at hl
    split at hl
    · cases hl
    · exact ⟨‹_›, hl⟩
  refine ⟨fun n => ?_, fun hl => h.nonempty (hsub hl).2, fun hl hl' => h.apart (hsub hl).2 (hsub hl').2⟩
  simp only [lookup_release]
  rw [Downloads.release]
  cases hpeer : d.peers.lookup peer with
  | none =>
    dsimp only
    rw [h.mem_iff]
    refine exists_congr fun p => exists_congr fun l => and_congr_left fun _ => ?_
    by_cases heq : p = peer
    · rw [if_pos heq, heq, hpeer]
    · rw [if_neg heq]
  | some blocks =>
    dsimp only
    rw [Finset.mem_sdiff, mem_toFinset, h.mem_iff]
    constructor
    · rintro ⟨⟨p, l, hl, hn⟩, hnot⟩
      have hne : p ≠ peer := by
        rintro rfl
        rw [hpeer] at hl
        exact hnot (Option.some.inj hl ▸ hn)
      exact ⟨p, l, by rw [if_neg hne, hl], hn⟩
    · rintro ⟨p, l, hl, hn⟩
      split at hl
      · cases hl
      · rename_i hne
        exact ⟨⟨p, l, hl, hn⟩, fun hin => hne (h.apart hl hpeer hn hin)⟩

theorem releases (h : d.Ok) (peers : List Nat) : (peers.foldl Downloads.release d).Ok := by
  induction peers generalizing d with
  | nil => exact h
  | cons p peers ih => exact ih (h.release p)

theorem assign (h : d.Ok) (hpeer : d.peers.lookup peer = none) (hne : blocks ≠ []) (hnew : ∀ n ∈ blocks, n ∉ d.numbers) :
    (d.assign peer blocks).Ok := by
  have hlookup : ∀ {p l}, (d.assign peer blocks).peers.lookup p = some l ↔
      p = peer ∧ l = blocks ∨ p ≠ peer ∧ d.peers.lookup p = some l := by
    intro p l
    rw [Downloads.assign]
    dsimp only
    by_cases heq : p = peer
    · rw [heq, AList.lookup_insert]
      simp [eq_comm]
    · rw [AList.lookup_insert_ne heq]
      simp [heq]
  have hother : ∀ {p l n}, d.peers.lookup p = some l → n ∈ l → n ∉ blocks := fun hl hn hin =>
    hnew _ hin ((h.mem_iff _).2 ⟨_, _, hl, hn⟩)
  refine ⟨fun n => ?_, fun hl => ?_, fun hl hl' hn hn' => ?_⟩
  · simp only [hlookup]
    rw [Downloads.assign]
    dsimp only
    rw [Finset.mem_union, mem_toFinset, h.mem_iff]
    constructor
    · rintro (⟨p, l, hl, hn⟩ | hn)
      · refine ⟨p, l, .inr ⟨?_, hl⟩, hn⟩
        rintro rfl
        rw [hpeer] at hl
        cases hl
      · exact ⟨peer, blocks, .inl ⟨rfl, rfl⟩, hn⟩
    · rintro ⟨p, l, ⟨rfl, rfl⟩ | ⟨-, hl⟩, hn⟩
      · exact .inr hn
      · exact .inl ⟨p, l, hl, hn⟩
  · rcases hlookup.1 hl with ⟨-, rfl⟩ | ⟨-, hl⟩
    · exact hne
    · exact h.nonempty hl
  · rcases hlookup.1 hl with ⟨hp, hblocks⟩ | ⟨-, hl⟩ <;> rcases hlookup.1 hl' with ⟨hq, hblocks'⟩ | ⟨-, hl'⟩
    · exact hp.trans hq.symm
    · exact absurd (hblocks ▸ hn) (hother hl' hn')
    · exact absurd (hblocks' ▸ hn') (hother hl hn)
    · exact h.apart hl hl' hn hn'

/-- A number that is not being downloaded. -/
theorem erase (h : d.Ok) (hn : n ∉ d.numbers) : (d.erase n).Ok := by
  have heq : d.erase n = d := by rw [Downloads.erase, Finset.erase_eq_of_notMem hn]
  rw [heq]
  exact h

end Downloads.Ok

namespace BlockChainSync

variable {W H B : Type} {c : Host W H B} {s s' s'' : BlockChainSync W H B} {peer : Nat}

/-- Where the search for a common block goes on. -/
def searchStart (s : BlockChainSync W H B) : Nat :=
  match s.headers with
  | [] => s.lastImportedBlock
  | (first, _) :: _ => min s.lastImportedBlock (pred first)

/-- The last imported block stands. -/
structure Stands (s s' : BlockChainSync W H B) : Prop where
  haveCommonHeader : s'.haveCommonHeader = s.haveCommonHeader
  lastImportedBlock : s'.lastImportedBlock = s.lastImportedBlock

/-- The search for a common block has gone on. -/
structure SearchedBack (c : Host W H B) (s s' : BlockChainSync W H B) : Prop where
  without : s.haveCommonHeader = false
  haveCommonHeader : s'.haveCommonHeader = decide (s.searchStart ≤ succ c.chainStartBlock)
  lastImportedBlock : s'.lastImportedBlock = s.searchStart

/-- What requests to peers leave behind. -/
structure Requested (c : Host W H B) (s s' : BlockChainSync W H B) : Prop where
  host : s'.host = s.host
  headers : s'.headers = s.headers
  bodies : s'.bodies = s.bodies
  headerIdToNumber : s'.headerIdToNumber = s.headerIdToNumber
  collected : s'.collected = s.collected
  idle : s'.state = .idle → s.state = .idle
  downloadingHeaders : s.downloadingHeaders.Ok → s'.downloadingHeaders.Ok
  downloadingBodies : s.downloadingBodies.Ok → s'.downloadingBodies.Ok
  search : Stands s s' ∨ SearchedBack c s s'

theorem searchStart_congr (hheaders : s'.headers = s.headers) (hlast : s'.lastImportedBlock = s.lastImportedBlock) :
    s'.searchStart = s.searchStart := by
  rw [searchStart, searchStart, hheaders, hlast]

/-- The search does not go on twice from one place. -/
theorem SearchedBack.searchStart (h : SearchedBack c s s') (hheaders : s'.headers = s.headers) :
    s'.searchStart = s.searchStart := by
  have hlast := h.lastImportedBlock
  rw [BlockChainSync.searchStart, hheaders, hlast, BlockChainSync.searchStart]
  cases s.headers with
  | nil => rfl
  | cons d l => exact min_eq_left (min_le_right _ _)

namespace Requested

theorem refl (s : BlockChainSync W H B) : Requested c s s :=
  ⟨rfl, rfl, rfl, rfl, rfl, id, id, id, .inl ⟨rfl, rfl⟩⟩

theorem trans (h : Requested c s s') (h' : Requested c s' s'') : Requested c s s'' where
  host := h'.host.trans h.host
  headers := h'.headers.trans h.headers
  bodies := h'.bodies.trans h.bodies
  headerIdToNumber := h'.headerIdToNumber.trans h.headerIdToNumber
  collected := h'.collected.trans h.collected
  idle := h.idle ∘ h'.idle
  downloadingHeaders := h'.downloadingHeaders ∘ h.downloadingHeaders
  downloadingBodies := h'.downloadingBodies ∘ h.downloadingBodies
  search := by
    rcases h.search with hstands | hback <;> rcases h'.search with hstands' | hback'
    · exact .inl ⟨hstands'.1.trans hstands.1, hstands'.2.trans hstands.2⟩
    · have hstart := searchStart_congr h.headers hstands.2
      exact .inr ⟨hstands.1.symm.trans hback'.1, hstart ▸ hback'.2, hstart ▸ hback'.3⟩
    · exact .inr ⟨hback.1, hstands'.1.trans hback.2, hstands'.2.trans hback.3⟩
    · have hstart := hback.searchStart h.headers
      exact .inr ⟨hback.1, hstart ▸ hback'.2, hstart ▸ hback'.3⟩

end Requested

/-! ### The missing headers -/

/-- The numbers in front of each chunk, from `start` on: where they begin, and where they end -/
def gaps {T : Type} (start : Nat) : Chunks T → List (Nat × Nat)
  | [] => []
  | (first, chunk) :: next => (start, first) :: gaps (first + chunk.length) next

/-- From the first number on that is not being downloaded, as far as `maxRequestHeaders` reaches, counted from the beginning
of the gap -/
inductive Opens (d : Finset Nat) : List (Nat × Nat) → Nat → Nat → Prop
  | here {begin finish start : Nat} {gs : List (Nat × Nat)} : begin ≤ start → start < finish → start ∉ d →
    (∀ n, begin ≤ n → n < start → n ∈ d) → Opens d ((begin, finish) :: gs) start
      (min finish (begin + maxRequestHeaders * ((start - begin) / maxRequestHeaders + 1)))
  | later {begin finish start stop : Nat} {gs : List (Nat × Nat)} : (∀ n, begin ≤ n → n < finish → n ∈ d) →
    Opens d gs start stop → Opens d ((begin, finish) :: gs) start stop

/-- The numbers from `start` to `stop` that are not being downloaded -/
def missing (s : BlockChainSync W H B) (start stop : Nat) : List Nat :=
  (List.range' start (stop - start)).filter (· ∉ s.downloadingHeaders.numbers)

/-- A peer is asked for headers: for as many as are missing from `start` to `stop`, from `start` on. -/
structure AskedHeaders (peer start stop : Nat) (s s' : BlockChainSync W H B) : Prop where
  lt : start < stop
  first : start ∉ s.downloadingHeaders.numbers
  not_has : ∀ n, start ≤ n → n < stop → ¬ Has s.headers n
  eq : s' = { s with
    downloadingHeaders := s.downloadingHeaders.assign peer (s.missing start stop)
    peer := Function.update s.peer peer { s.peer peer with asking := .blockHeaders }
    requests := (peer, .requestBlockHeaders start (s.missing start stop).length) :: s.requests }

variable {start stop : Nat}

/-- What opens behind a whole window that is being downloaded -/
theorem Opens.window {d : Finset Nat} {gs : List (Nat × Nat)} {begin finish : Nat}
    (h : Opens d ((begin + maxRequestHeaders, finish) :: gs) start stop)
    (hg : ∀ n, begin ≤ n → n < begin + maxRequestHeaders → n ∈ d) : Opens d ((begin, finish) :: gs) start stop := by
  have hgap : ∀ {k}, (∀ n, begin + maxRequestHeaders ≤ n → n < k → n ∈ d) → ∀ n, begin ≤ n → n < k → n ∈ d := by
    intro k hk n hn hlt
    by_cases hwindow : n < begin + maxRequestHeaders
    · exact hg n hn hwindow
    · exact hk n (not_lt.1 hwindow) hlt
  cases h with
  | here hb hf hfirst hbefore =>
    have hstop : begin + maxRequestHeaders + maxRequestHeaders *
        ((start - (begin + maxRequestHeaders)) / maxRequestHeaders + 1) =
        begin + maxRequestHeaders * ((start - begin) / maxRequestHeaders + 1) := by
      rw [maxRequestHeaders] at hb ⊢
      omega
    rw [hstop]
    exact .here (by omega) hf hfirst (hgap hbefore)
  | later hall hopens => exact .later (hgap hall) hopens

theorem Opens.unique {d : Finset Nat} {gs : List (Nat × Nat)} {start' stop' : Nat} (h : Opens d gs start stop)
    (h' : Opens d gs start' stop') : start = start' ∧ stop = stop' := by
  induction h with
  | @here _ _ first _ hb hf hfirst hbefore =>
    cases h' with
    | here hb' _ hfirst' hbefore' =>
      rcases lt_trichotomy start' first with hlt | rfl | hlt
      · exact absurd (hbefore _ hb' hlt) hfirst'
      · exact ⟨rfl, rfl⟩
      · exact absurd (hbefore' _ hb hlt) hfirst
    | later hall => exact absurd (hall _ hb hf) hfirst
  | later hall _ ih =>
    cases h' with
    | here hb' hf' hfirst' => exact absurd (hall _ hb' hf') hfirst'
    | later _ hopens => exact ih hopens

theorem Opens.not_all {d : Finset Nat} {gs : List (Nat × Nat)} (h : Opens d gs start stop) :
    ¬ ∀ g ∈ gs, ∀ n, g.1 ≤ n → n < g.2 → n ∈ d := by
  induction h with
  | here hb hf hfirst => exact fun hall => hfirst (hall _ mem_cons_self _ hb hf)
  | later _ _ ih => exact fun hall => ih fun g hg => hall g (mem_cons_of_mem _ hg)

/-- A number that is not in the set stands behind those that are. -/
theorem skipped_lt {p : Nat → Bool} {count : Nat} (hlt : ((List.range count).takeWhile p).length < count) :
    p ((List.range count).takeWhile p).length = false := by
  rw [takeWhile_eq_take_findIdx_not, length_take, length_range] at hlt ⊢
  have hfind : (List.range count).findIdx (fun a => !p a) < (List.range count).length := by
    rw [length_range]
    omega
  have hnot := findIdx_getElem (w := hfind)
  rw [getElem_range, Bool.not_eq_true'] at hnot
  rw [length_range] at hfind
  rwa [min_eq_left hfind.le]

theorem of_lt_skipped {p : Nat → Bool} {count i : Nat} (hlt : i < ((List.range count).takeWhile p).length) : p i = true := by
  have hget : ((List.range count).takeWhile p)[i] = i := by
    rw [(List.takeWhile_prefix p).getElem hlt, getElem_range]
  exact all_eq_true.1 all_takeWhile _ (hget ▸ getElem_mem hlt)

theorem wp_requestHeaders {fuel bound : Nat} {l next : Chunks (Header H)} (hsep : Separate s.headers)
    (hsplit : s.headers = l ++ next) (hfront : ∀ d ∈ l, d.1 + d.2.length ≤ start) (hstart : ∀ d ∈ next.head?, start ≤ d.1)
    (hbound : ∀ d ∈ s.headers, d.1 ≤ bound) (hfuel : bound - start + next.length < fuel) :
    wp (requestHeaders peer fuel start next)
      (fun _ s' => (s' = s ∧ ∀ g ∈ gaps start next, ∀ n, g.1 ≤ n → n < g.2 → n ∈ s.downloadingHeaders.numbers) ∨
        ∃ start' stop, Opens s.downloadingHeaders.numbers (gaps start next) start' stop ∧ AskedHeaders peer start' stop s s')
      (fun _ _ => False) s := by
  induction fuel generalizing start l next with
  | zero => omega
  | succ fuel ih =>
    match next with
    | [] => exact .inl ⟨rfl, nofun⟩
    | (first, chunk) :: next =>
      have hle : start ≤ first := hstart _ rfl
      have hsepNext := (separate_append.1 (hsplit ▸ hsep)).2.1
      obtain ⟨-, hnext, hsepNext'⟩ := separate_cons.1 hsepNext
      rw [requestHeaders, wp_bind, wp_get]
      extract_lets count skipped blocks
      have hskipped : skipped ≤ count := by
        have := (takeWhile_sublist (l := List.range count) fun i =>
            decide (start + i ∈ s.downloadingHeaders.numbers)).length_le
        rwa [length_range] at this
      have hcount : count = min maxRequestHeaders (first - start) := rfl
      have hbefore : ∀ n, start ≤ n → n < start + skipped → n ∈ s.downloadingHeaders.numbers := by
        intro n hn hlt
        have hin := @of_lt_skipped (fun i => decide (start + i ∈ s.downloadingHeaders.numbers)) count (n - start)
          (show n - start < skipped by omega)
        rw [decide_eq_true_eq, Nat.add_sub_cancel' hn] at hin
        exact hin
      have hnot : ∀ n, start ≤ n → n < first → ¬ Has s.headers n := by
        intro n hn hlt hhas
        obtain ⟨d, hd, hdle, hdlt⟩ := has_iff.1 hhas
        rw [hsplit, mem_append, mem_cons] at hd
        rcases hd with hd | rfl | hd
        · have := hfront d hd
          omega
        · dsimp only at hdle
          omega
        · have := hnext d hd
          dsimp only at this
          omega
      have hblocks : blocks = s.missing (start + skipped) (start + count) := by
        rw [missing, Nat.add_sub_add_left, List.range'_eq_map_range]
      have hfirst : skipped < count → start + skipped ∉ s.downloadingHeaders.numbers := fun hlt =>
        of_decide_eq_false (skipped_lt (p := fun i => decide (start + i ∈ s.downloadingHeaders.numbers)) hlt)
      rw [wp_ite]
      split
      · rename_i hne
        have hlt : skipped < count := by
          refine lt_of_le_of_ne hskipped fun heq => hne ?_
          rw [hblocks, heq, missing, Nat.sub_self]
          rfl
        rw [wp_bind, wp_set, wp_ite, if_neg (by
          rw [hsep.haveItem_iff]
          exact hnot _ (by omega) (by omega))]
        have hstop : start + count =
            min first (start + maxRequestHeaders * ((start + skipped - start) / maxRequestHeaders + 1)) := by
          rw [hcount, maxRequestHeaders] at hlt ⊢
          omega
        refine .inr ⟨start + skipped, start + count, ?_, by omega, hfirst hlt, fun n hn hlt' => hnot n (by omega) (by omega),
          hblocks ▸ rfl⟩
        rw [hstop]
        exact .here (by omega) (by omega) (hfirst hlt) hbefore
      · rename_i hempty
        have heq : skipped = count := by
          -- The number behind those that are skipped would be asked for.
          by_contra hne
          have hlt : skipped < count := lt_of_le_of_ne hskipped hne
          refine hempty fun hnil => ?_
          have hmem : start + skipped ∈ blocks := by
            rw [hblocks]
            exact mem_filter.2 ⟨mem_range'_1.2 (by omega), decide_eq_true (hfirst hlt)⟩
          rw [hnil] at hmem
          cases hmem
        have hmax : 0 < maxRequestHeaders := by decide
        have hbounded := hbound (first, chunk) (hsplit ▸ mem_append_right _ mem_cons_self)
        rw [length_cons] at hfuel
        dsimp only at hbounded
        rw [wp_ite]
        split
        · refine wp_mono (ih (l := l ++ [(first, chunk)]) ?_ ?_ ?_ ?_) (fun _ s' h' => ?_) fun _ _ => id
          · rw [hsplit, append_assoc]
            rfl
          · intro d hd
            rcases mem_append.1 hd with hd | hd
            · have := hfront d hd
              omega
            · rw [mem_singleton.1 hd]
          · exact fun d hd => hnext d (List.mem_of_mem_head? hd)
          · omega
          · have hgap : ∀ n, start ≤ n → n < first → n ∈ s.downloadingHeaders.numbers := fun n hn hlt =>
                hbefore n hn (by omega)
            refine h'.imp (fun ⟨hs, hall⟩ => ⟨hs, fun g hg => ?_⟩) fun ⟨start', stop, hopens, hasked⟩ =>
              ⟨start', stop, .later hgap hopens, hasked⟩
            rcases mem_cons.1 hg with rfl | hg
            · exact hgap
            · exact hall g hg
        · have hwindow : skipped = maxRequestHeaders := by omega
          rw [hwindow] at hbefore ⊢
          refine wp_mono (ih (l := l) hsplit (fun d hd => (hfront d hd).trans (Nat.le_add_right _ _)) ?_ ?_)
            (fun _ s' h' => ?_) fun _ _ => id
          · rintro d ⟨⟩
            dsimp only
            omega
          · rw [length_cons]
            omega
          · refine h'.imp (fun ⟨hs, hall⟩ => ⟨hs, fun g hg n hn hlt => ?_⟩) fun ⟨start', stop, hopens, hasked⟩ =>
              ⟨start', stop, hopens.window hbefore, hasked⟩
            rcases mem_cons.1 hg with rfl | hg
            · by_cases hn' : n < start + maxRequestHeaders
              · exact hbefore n hn hn'
              · exact hall _ mem_cons_self n (not_lt.1 hn') hlt
            · exact hall g (mem_cons_of_mem _ hg) n hn hlt

/-- The gaps that are looked at -/
def missingGaps (s : BlockChainSync W H B) : List (Nat × Nat) :=
  let start := succ s.lastImportedBlock
  match s.headers with
  | [] => []
  | (first, chunk) :: next => if first ≤ start then gaps (first + chunk.length) next else gaps start s.headers

theorem wp_requestMissing (hsep : Separate s.headers) : wp (requestMissing peer)
    (fun _ s' => (s' = s ∧ ∀ g ∈ s.missingGaps, ∀ n, g.1 ≤ n → n < g.2 → n ∈ s.downloadingHeaders.numbers) ∨
      ∃ start stop, Opens s.downloadingHeaders.numbers s.missingGaps start stop ∧ AskedHeaders peer start stop s s')
    (fun _ _ => False) s := by
  rw [requestMissing, wp_bind, wp_get]
  extract_lets start fuel
  have hbound : ∀ d ∈ s.headers, d.1 ≤ (s.headers.map Prod.fst).max?.getD 0 := by
    intro d hd
    obtain ⟨k, hk⟩ := Option.isSome_iff_exists.1 (List.isSome_max?_of_mem (mem_map_of_mem (f := Prod.fst) hd))
    rw [hk]
    exact (List.max?_le_iff hk).1 le_rfl _ (mem_map_of_mem hd)
  have hfuel : fuel = (s.headers.map Prod.fst).max?.getD 0 + s.headers.length + 2 := rfl
  split
  · rename_i hheaders
    have hgaps : s.missingGaps = [] := by rw [missingGaps, hheaders]
    rw [hgaps]
    exact .inl ⟨rfl, nofun⟩
  · rename_i first chunk next hheaders
    have hgaps : s.missingGaps = if first ≤ start then gaps (first + chunk.length) next else gaps start s.headers := by
      rw [missingGaps, hheaders]
    rw [hgaps]
    obtain ⟨-, hnext, -⟩ := separate_cons.1 (hheaders ▸ hsep)
    have hlength := congrArg List.length hheaders
    rw [length_cons] at hlength
    rw [wp_ite]
    split
    · refine wp_requestHeaders (l := [(first, chunk)]) hsep hheaders
        ?_ (fun d hd => hnext d (List.mem_of_mem_head? hd)) hbound ?_
      · intro d hd
        rw [mem_singleton.1 hd]
      · omega
    · refine wp_requestHeaders (l := []) hsep rfl nofun ?_ hbound ?_
      · rw [hheaders]
        rintro d ⟨⟩
        dsimp only
        omega
      · omega

theorem notMem_of_mem_missing {n : Nat} (hn : n ∈ s.missing start stop) : n ∉ s.downloadingHeaders.numbers :=
  of_decide_eq_true (mem_filter.1 hn).2

theorem AskedHeaders.ne_nil (h : AskedHeaders peer start stop s s') : s.missing start stop ≠ [] :=
  ne_nil_of_mem (mem_filter.2 ⟨mem_range'_1.2 ⟨le_rfl, by have := h.lt; omega⟩, decide_eq_true h.first⟩)

theorem AskedHeaders.requested (hnone : s.downloadingHeaders.peers.lookup peer = none)
    (h : AskedHeaders peer start stop s s') : Requested c s s' := by
  have hne := h.ne_nil
  obtain ⟨-, -, -, rfl⟩ := h
  exact ⟨rfl, rfl, rfl, rfl, rfl, id, fun hok => hok.assign hnone hne fun n => notMem_of_mem_missing, id, .inl ⟨rfl, rfl⟩⟩

/-! ### Requests -/

theorem notMem_of_mem_neededBodies {n : Nat} (hn : n ∈ s.neededBodies) : n ∉ s.downloadingBodies.numbers := by
  rw [neededBodies] at hn
  split at hn
  · cases hn
  · split at hn
    · exact (of_decide_eq_true (mem_filter.1 (mem_of_mem_take hn)).2).1
    · cases hn

theorem neededBodies_of_without (hwithout : s.haveCommonHeader = false) : s.neededBodies = [] := by
  rw [neededBodies]
  split
  · rfl
  · rw [if_neg (by simp [hwithout])]

/-- A peer has been asked. -/
def asked (s : BlockChainSync W H B) (peer : Nat) (request : Request H) : BlockChainSync W H B :=
  { s with
    peer := Function.update s.peer peer { s.peer peer with asking := request.asking }
    requests := (peer, request) :: s.requests }

/-- The peer is released. -/
def released (s : BlockChainSync W H B) (peer : Nat) : BlockChainSync W H B :=
  { s with
    downloadingHeaders := s.downloadingHeaders.release peer, downloadingBodies := s.downloadingBodies.release peer
    daoChallengedPeers := s.daoChallengedPeers.erase peer }

/-- The search for a common block has gone on, if it is not found. -/
def searched (c : Host W H B) (s : BlockChainSync W H B) : BlockChainSync W H B :=
  if s.haveCommonHeader then s
  else { s with
    lastImportedBlock := s.searchStart, lastImportedBlockHash := c.numberHash s.host s.searchStart
    haveCommonHeader := s.searchStart ≤ succ c.chainStartBlock }

theorem searched_requested : Requested c s (searched c s) ∧ (s.haveCommonHeader = false → SearchedBack c s (searched c s)) ∧
    (searched c s).downloadingHeaders = s.downloadingHeaders := by
  rw [searched]
  split
  · rename_i hcommon
    exact ⟨.refl s, fun hwithout => absurd hcommon (Bool.eq_false_iff.1 hwithout), rfl⟩
  · rename_i hwithout
    rw [Bool.not_eq_true] at hwithout
    have hback : SearchedBack c s { s with
        lastImportedBlock := s.searchStart, lastImportedBlockHash := c.numberHash s.host s.searchStart
        haveCommonHeader := s.searchStart ≤ succ c.chainStartBlock } := ⟨hwithout, rfl, rfl⟩
    exact ⟨⟨rfl, rfl, rfl, rfl, rfl, id, id, id, .inr hback⟩, fun _ => hback, rfl⟩

/-- What a request for blocks does when the peer is released. -/
inductive RequestsBlocks (c : Host W H B) (peer : Nat) (s : BlockChainSync W H B) : BlockChainSync W H B → Prop
  | full : c.knownFull s.host = true → RequestsBlocks c peer s { s with state := .waiting }
  | bodies : c.knownFull s.host = false → s.neededBodies ≠ [] → RequestsBlocks c peer s (asked
    { s with downloadingBodies := s.downloadingBodies.assign peer s.neededBodies } peer
      (.requestBlockBodies (s.hashesOf s.neededBodies)))
  | search : c.knownFull s.host = false → s.neededBodies = [] → (searched c s).haveCommonHeader = false →
    RequestsBlocks c peer s (asked (searched c s) peer (.requestBlockHeaders s.searchStart 1))
  | nothing : c.knownFull s.host = false → s.neededBodies = [] → (searched c s).haveCommonHeader = true →
    (∀ g ∈ (searched c s).missingGaps, ∀ n, g.1 ≤ n → n < g.2 → n ∈ s.downloadingHeaders.numbers) →
    RequestsBlocks c peer s (searched c s)
  | headers {start stop : Nat} {s' : BlockChainSync W H B} : c.knownFull s.host = false → s.neededBodies = [] →
    (searched c s).haveCommonHeader = true → Opens s.downloadingHeaders.numbers (searched c s).missingGaps start stop →
    AskedHeaders peer start stop (searched c s) s' → RequestsBlocks c peer s s'

theorem wp_requestBlocks (hsep : Separate s.headers) :
    wp (requestBlocks c peer) (fun _ => RequestsBlocks c peer (s.released peer)) (fun _ _ => False) s := by
  rw [requestBlocks, wp_bind]
  show wp _ _ _ (s.released peer)
  generalize hs₁ : s.released peer = s₁
  have hsep : Separate s₁.headers := hs₁ ▸ hsep
  rw [wp_bind, wp_get, wp_ite]
  split
  · rename_i hfull
    exact .full hfull
  rename_i hfull
  rw [Bool.not_eq_true] at hfull
  rw [wp_bind, wp_get, wp_ite]
  split
  · rename_i hneeded
    exact .bodies hfull hneeded
  rename_i hneeded
  rw [ne_eq, not_not] at hneeded
  -- The headers that are missing, or one more step back.
  obtain ⟨hrequested, -, hdownloading⟩ := searched_requested (c := c) (s := s₁)
  have hmissing : (searched c s₁).haveCommonHeader = true →
      wp (requestMissing peer) (fun _ => RequestsBlocks c peer s₁) (fun _ _ => False) (searched c s₁) := by
    intro hcommon
    refine wp_mono (wp_requestMissing (hrequested.headers ▸ hsep)) (fun _ s' hasked => ?_) fun _ _ => id
    rw [hdownloading] at hasked
    rcases hasked with ⟨rfl, hall⟩ | ⟨start, stop, hopens, hasked⟩
    · exact .nothing hfull hneeded hcommon hall
    · exact .headers hfull hneeded hcommon hopens hasked
  rw [wp_bind, wp_get]
  extract_lets resume
  cases hcommon : s₁.haveCommonHeader with
  | true =>
    have hs : searched c s₁ = s₁ := by rw [searched, if_pos hcommon]
    rw [hs, hcommon] at hmissing
    rw [if_pos rfl, wp_bind, wp_pure, wp_bind, wp_get, wp_ite, if_pos hcommon]
    exact hmissing rfl
  | false =>
    have hs : searched c s₁ = { s₁ with
        lastImportedBlock := s₁.searchStart, lastImportedBlockHash := c.numberHash s₁.host s₁.searchStart
        haveCommonHeader := s₁.haveCommonHeader || s₁.searchStart ≤ succ c.chainStartBlock } := by
      rw [searched, hcommon]
      rfl
    rw [if_neg (by simp), searchBack, wp_bind, wp_bind, wp_get]
    extract_lets start
    have hstart : start = s₁.searchStart := rfl
    rw [hstart, wp_bind, wp_set, ← hs, wp_pure, wp_bind, wp_get, wp_ite]
    split
    · rename_i hcommon'
      exact hmissing hcommon'
    · rename_i hwithout
      rw [Bool.not_eq_true] at hwithout
      exact .search hfull hneeded hwithout

theorem released_requested : Requested c s (s.released peer) :=
  ⟨rfl, rfl, rfl, rfl, rfl, id, fun hok => hok.release peer, fun hok => hok.release peer, .inl ⟨rfl, rfl⟩⟩

theorem lookup_released : (s.released peer).downloadingHeaders.peers.lookup peer = none ∧
    (s.released peer).downloadingBodies.peers.lookup peer = none :=
  ⟨(Downloads.Ok.lookup_release _ peer).trans (if_pos rfl), (Downloads.Ok.lookup_release _ peer).trans (if_pos rfl)⟩

theorem RequestsBlocks.requested (hheaders : s.downloadingHeaders.peers.lookup peer = none)
    (hbodies : s.downloadingBodies.peers.lookup peer = none) (h : RequestsBlocks c peer s s') :
    Requested c s s' ∧ (c.knownFull s.host = false → s.haveCommonHeader = false → SearchedBack c s s') := by
  obtain ⟨hrequested, hback, hdownloading⟩ := searched_requested (c := c) (s := s)
  -- Asking changes nothing of the search.
  have hdone : ∀ {s₁}, Requested c (searched c s) s₁ → Stands (searched c s) s₁ →
      Requested c s s₁ ∧ (c.knownFull s.host = false → s.haveCommonHeader = false → SearchedBack c s s₁) := by
    intro s₁ hrequested' hstands
    refine ⟨hrequested.trans hrequested', fun _ hwithout => ?_⟩
    have hback := hback hwithout
    exact ⟨hwithout, hstands.haveCommonHeader.trans hback.haveCommonHeader,
      hstands.lastImportedBlock.trans hback.lastImportedBlock⟩
  cases h with
  | full hfull => exact ⟨⟨rfl, rfl, rfl, rfl, rfl, nofun, id, id, .inl ⟨rfl, rfl⟩⟩,
      fun hnot => by rw [hfull] at hnot; cases hnot⟩
  | bodies _ hneeded =>
    refine ⟨⟨rfl, rfl, rfl, rfl, rfl, id, id, fun hok => ?_, .inl ⟨rfl, rfl⟩⟩, fun _ hwithout => ?_⟩
    · exact hok.assign hbodies hneeded fun n hn => notMem_of_mem_neededBodies hn
    · exact absurd (neededBodies_of_without hwithout) hneeded
  | search => exact hdone ⟨rfl, rfl, rfl, rfl, rfl, id, id, id, .inl ⟨rfl, rfl⟩⟩ ⟨rfl, rfl⟩
  | nothing => exact hdone (.refl _) ⟨rfl, rfl⟩
  | headers _ _ _ _ hasked =>
    refine hdone (hasked.requested (hdownloading ▸ hheaders)) ?_
    rw [hasked.eq]
    exact ⟨rfl, rfl⟩

/-! ### The synchronisation with a peer, and with all of them -/

theorem wp_syncPeer {force : Bool} (hsep : Separate s.headers) :
    wp (syncPeer c peer force) (fun _ s' => Requested c s s') (fun _ _ => False) s := by
  rw [syncPeer, wp_bind, wp_get]
  extract_lets p td
  rw [wp_ite]
  split
  · exact .refl s
  rw [wp_ite]
  split
  · exact .refl s
  rw [wp_ite]
  split
  · refine ⟨rfl, rfl, rfl, rfl, rfl, fun hidle => ?_, id, id, .inl ⟨rfl, rfl⟩⟩
    by_contra hnot
    change (if s.state = .idle ∨ s.state = .notSynced then SyncState.blocks else s.state) = .idle at hidle
    split at hidle
    · cases hidle
    · exact hnot hidle
  rw [wp_ite]
  split
  · refine wp_mono (wp_requestBlocks hsep) (fun _ s' h => ?_) fun _ _ => id
    exact released_requested.trans (h.requested lookup_released.1 lookup_released.2).1
  · exact .refl s

theorem wp_continueSync (hsep : Separate s.headers) :
    wp (continueSync c) (fun _ s' => Requested c s s') (fun _ _ => False) s := by
  rw [continueSync, wp_bind, wp_get]
  refine wp_forM (fun peer _ s₁ h => ?_) (.refl s)
  exact wp_mono (wp_syncPeer (h.headers ▸ hsep)) (fun _ _ h' => h.trans h') fun _ _ => id

theorem wp_verifyDaoChallengeResponse {items : List (Option (Header H))} :
    wp (verifyDaoChallengeResponse c items) (fun _ s' => s' = s) (fun e s' => e = .thrown ∧ s' = s) s := by
  unfold verifyDaoChallengeResponse
  split
  · exact ⟨rfl, rfl⟩
  · rfl
  · rfl

end BlockChainSync

end Kmdx.Sync
