import Kmdx.Sync.Requests

/-!
# The bodies belong to the headers

Bodies are stored under numbers of headers that have their roots, if no id of another header stands for the number of a
header that is stored (`HeaderOk`), and if what a new block takes away of the headers is taken away of the bodies, too
(`NewBlockOk`). Ids of headers that are cleared stay, and a chunk of headers may have several chunks of bodies.
-/

namespace Kmdx.Sync.BlockChainSync

open Wp Chunks List

variable {W H B : Type} [DecidableEq H] {c : Host W H B} {s s' : BlockChainSync W H B} {peer n : Nat}

/-- The bodies are those of the headers, and so is what an id stands for. -/
structure Paired (c : Host W H B) (s : BlockChainSync W H B) : Prop where
  headers : Separate s.headers
  bodies : Separate s.bodies
  fits : ∀ {n b}, At s.bodies n b → ∃ h, At s.headers n h ∧ h.id = c.bodyId b
  ids : ∀ {id n h}, s.headerIdToNumber.lookup id = some n → At s.headers n h → h.id = id
  collected : ∀ p ∈ s.collected, p.1.id = c.bodyId p.2

/-- Where nothing fails but with an exception. -/
abbrev Throws (P : BlockChainSync W H B → Prop) : Exn → BlockChainSync W H B → Prop := fun e s => e = .thrown ∧ P s

namespace Paired

theorem congr (h : Paired c s) (hheaders : s'.headers = s.headers) (hbodies : s'.bodies = s.bodies)
    (hids : s'.headerIdToNumber = s.headerIdToNumber) (hcollected : s'.collected = s.collected) : Paired c s' := by
  refine ⟨hheaders ▸ h.headers, hbodies ▸ h.bodies, ?_, ?_, hcollected ▸ h.collected⟩
  · rw [hheaders, hbodies]
    exact h.fits
  · rw [hheaders, hids]
    exact h.ids

theorem requested (h : Paired c s) (hs : Requested c s s') : Paired c s' :=
  h.congr hs.headers hs.bodies hs.headerIdToNumber hs.collected

/-- Nothing is stored. -/
theorem of_empty (hcollected : ∀ p ∈ s.collected, p.1.id = c.bodyId p.2) (hheaders : s.headers = [])
    (hbodies : s.bodies = []) : Paired c s := by
  have hnil : ∀ {T : Type} {n : Nat} {x : T}, ¬ At ([] : Chunks T) n x := fun ⟨_, hc, _⟩ => not_mem_nil hc
  refine ⟨hheaders ▸ separate_nil, hbodies ▸ separate_nil, fun hb => ?_, fun _ hh => ?_, hcollected⟩
  · rw [hbodies] at hb
    exact absurd hb hnil
  · rw [hheaders] at hh
    exact absurd hh hnil

theorem has_of_body (h : Paired c s) (hb : Has s.bodies n) : Has s.headers n := by
  obtain ⟨b, hb⟩ := hb
  obtain ⟨x, hx, -⟩ := h.fits hb
  exact ⟨x, hx⟩

theorem storeHeader (h : Paired c s) {x : Header H} {headers : Chunks (Header H)} (hheaders : Separate headers)
    (hat : ∀ j y, At headers j y ↔ j = n ∧ y = x ∨ At s.headers j y)
    (hids : ∀ id, s.headerIdToNumber.lookup id = some n → id = x.id) : Paired c { s with headers } where
  headers := hheaders
  bodies := h.bodies
  fits hb := by
    obtain ⟨y, hy, hid⟩ := h.fits hb
    exact ⟨y, (hat _ _).2 (.inr hy), hid⟩
  ids hid hy := by
    rcases (hat _ _).1 hy with ⟨rfl, rfl⟩ | hy
    · exact (hids _ hid).symm
    · exact h.ids hid hy
  collected := h.collected

theorem storeBody (h : Paired c s) {x : Header H} {b : B} {bodies : Chunks B} (hx : At s.headers n x)
    (hid : x.id = c.bodyId b)
    (hbodies : Separate bodies) (hat : ∀ j y, At bodies j y ↔ j = n ∧ y = b ∨ At s.bodies j y) :
    Paired c { s with bodies } where
  headers := h.headers
  bodies := hbodies
  fits hb := by
    rcases (hat _ _).1 hb with ⟨rfl, rfl⟩ | hb
    · exact ⟨x, hx, hid⟩
    · exact h.fits hb
  ids := h.ids
  collected := h.collected

theorem insert_id (h : Paired c s) {x : Header H} (hx : At s.headers n x) :
    Paired c { s with headerIdToNumber := s.headerIdToNumber.insert x.id n } where
  headers := h.headers
  bodies := h.bodies
  fits := h.fits
  ids {id j y} hid hy := by
    dsimp only at hid
    by_cases heq : id = x.id
    · rw [heq, AList.lookup_insert] at hid
      cases hid
      rw [heq, h.headers.at_inj hx hy]
    · rw [AList.lookup_insert_ne heq] at hid
      exact h.ids hid hy
  collected := h.collected

theorem lookup_of_erase {m : AList fun _ : HeaderId H => Nat} {id id' : HeaderId H} {j : Nat}
    (hj : (m.erase id').lookup id = some j) : m.lookup id = some j := by
  by_cases heq : id = id'
  · rw [heq, AList.lookup_erase] at hj
    cases hj
  · rwa [AList.lookup_erase_ne heq] at hj

theorem erase_id (h : Paired c s) (id : HeaderId H) :
    Paired c { s with headerIdToNumber := s.headerIdToNumber.erase id } where
  headers := h.headers
  bodies := h.bodies
  fits := h.fits
  ids hid hy := h.ids (lookup_of_erase hid) hy
  collected := h.collected

end Paired

section

variable (hcollected : ∀ p ∈ s.collected, p.1.id = c.bodyId p.2) {E : Exn → BlockChainSync W H B → Prop}
include hcollected

theorem wp_resetSync : wp resetSync (fun _ => Paired c) E s := .of_empty hcollected rfl rfl

theorem wp_restartSync : wp (restartSync c) (fun _ => Paired c) E s := .of_empty hcollected rfl rfl

theorem wp_completeSync : wp completeSync (fun _ => Paired c) E s := .of_empty hcollected rfl rfl

end

/-! ### Headers -/

/-- A header is stored. -/
def stores (c : Host W H B) (s : BlockChainSync W H B) (info : Header H) : Bool :=
  let n := info.number % 2 ^ 32
  c.chainStartBlock ≤ n && !haveItem s.headers n && !(n ≤ s.lastImportedBlock && s.haveCommonHeader) &&
    !isKnown c s info.hash && !(s.haveCommonHeader && mismatches s info n)

theorem stores_of_not {info : Header H} (hstart : ¬info.number % 2 ^ 32 < c.chainStartBlock)
    (hhave : ¬haveItem s.headers (info.number % 2 ^ 32) = true)
    (hold : ¬(info.number % 2 ^ 32 ≤ s.lastImportedBlock ∧ s.haveCommonHeader = true))
    (hknown : ¬isKnown c s info.hash = true)
    (hmismatch : ¬(s.haveCommonHeader = true ∧ mismatches s info (info.number % 2 ^ 32) = true)) :
    stores c s info = true := by
  simp only [stores, Bool.and_eq_true, decide_eq_true_eq, Bool.not_eq_true', Bool.and_eq_false_iff, decide_eq_false_iff_not]
  refine ⟨⟨⟨⟨not_lt.1 hstart, Bool.eq_false_iff.2 hhave⟩, ?_⟩, Bool.eq_false_iff.2 hknown⟩, ?_⟩
  · exact (not_and_or.1 hold).imp_right Bool.eq_false_iff.2
  · exact (not_and_or.1 hmismatch).imp Bool.eq_false_iff.2 Bool.eq_false_iff.2

/-- No other id stands for the number of a header that is stored. -/
def HeaderOk (c : Host W H B) (s : BlockChainSync W H B) (info : Header H) : Prop :=
  stores c s info → ∀ id, s.headerIdToNumber.lookup id = some (info.number % 2 ^ 32) → id = info.id

/-- Of each header of a message, where it is looked at. -/
def HeadersOk (c : Host W H B) : BlockChainSync W H B → List (Option (Header H)) → Prop
  | s, some info :: items => HeaderOk c s info ∧ ∀ s', onHeader c info s = .ok false s' → HeadersOk c s' items
  | _, _ => True

theorem wp_clearFollowing {info : Header H} (h : Paired c s) :
    wp (clearFollowing info n) (fun _ s' => Paired c s' ∧ (∀ j x, At s'.headers j x → At s.headers j x) ∧
      ∀ id j, s'.headerIdToNumber.lookup id = some j → s.headerIdToNumber.lookup id = some j)
    (Throws (Paired c)) s := by
  rw [clearFollowing, wp_bind, wp_get]
  cases startsAt s.headers n with
  | none => exact ⟨rfl, h⟩
  | some chunk =>
    obtain ⟨hheaders, hatHeaders⟩ := h.headers.removeAllStartingWith n
    obtain ⟨hbodies, hatBodies⟩ := h.bodies.removeAllStartingWith n
    refine ⟨⟨hheaders, hbodies, fun hb => ?_, fun hid hx => ?_, h.collected⟩, fun j x hx => ((hatHeaders j x).1 hx).2,
      fun id j => Paired.lookup_of_erase⟩
    · obtain ⟨hlt, hb⟩ := (hatBodies _ _).1 hb
      obtain ⟨x, hx, hid⟩ := h.fits hb
      exact ⟨x, (hatHeaders _ _).2 ⟨hlt, hx⟩, hid⟩
    · exact h.ids (Paired.lookup_of_erase hid) ((hatHeaders _ _).1 hx).2

theorem wp_storeHeader {info : Header H} {E : Exn → BlockChainSync W H B → Prop} (h : Paired c s) (hnot : ¬ Has s.headers n)
    (hids : ∀ id, s.headerIdToNumber.lookup id = some n → id = info.id) :
    wp (storeHeader c info n) (fun _ => Paired c) E s := by
  obtain ⟨headers, hmerge, hheaders, hat⟩ := h.headers.mergeInto hnot info
  have hstored : Paired c { s with headers } := h.storeHeader hheaders hat hids
  have hinfo : At headers n info := (hat _ _).2 (.inl ⟨rfl, rfl⟩)
  rw [storeHeader, wp_bind, wp_get, hmerge]
  dsimp only
  rw [wp_bind, wp_modify, wp_ite]
  split
  · rename_i hempty
    obtain ⟨bodies, hmergeBodies, hbodies, hatBodies⟩ := h.bodies.mergeInto (fun hb => hnot (h.has_of_body hb)) c.emptyBody
    rw [wp_bind, wp_get]
    dsimp only
    rw [hmergeBodies]
    exact hstored.storeBody hinfo hempty hbodies hatBodies
  · exact hstored.insert_id hinfo

theorem wp_onHeader {info : Header H} (h : Paired c s) (hok : HeaderOk c s info) :
    wp (onHeader c info) (fun _ => Paired c) (Throws (Paired c)) s := by
  rw [onHeader, wp_bind, wp_get]
  extract_lets n
  rw [wp_ite]
  split
  · exact h
  rename_i hstart
  rw [wp_ite]
  split
  · exact h
  rename_i hhave
  rw [wp_ite]
  split
  · exact h
  rename_i hold
  rw [wp_ite]
  split
  · rename_i hknown
    rw [wp_bind, wp_set]
    have hlast : Paired c { s with haveCommonHeader := true, lastImportedBlock := n, lastImportedBlockHash := info.hash } :=
      h.congr rfl rfl rfl rfl
    generalize BlockChainSync.mk _ _ _ _ _ _ _ _ _ _ _ _ _ _ _ _ = s₁ at hlast ⊢
    split
    · exact hlast
    · rename_i first chunk next hheaders
      rw [wp_ite]
      split
      · split
        · exact absurd rfl (h.headers.nonempty (first, []) (hheaders ▸ mem_cons_self))
        · rw [wp_ite]
          split
          · rw [wp_bind]
            exact wp_restartSync hlast.collected
          · exact hlast
      · exact hlast
  rename_i hknown
  rw [wp_ite]
  split
  · rw [wp_bind]
    exact wp_restartSync h.collected
  rename_i hmismatch
  have hstores := stores_of_not hstart hhave hold hknown hmismatch
  have hnot : ¬ Has s.headers n := fun hhas => hhave (h.headers.haveItem_iff.2 hhas)
  rw [wp_ite]
  split
  · rw [wp_bind]
    refine wp_mono (wp_clearFollowing h) (fun _ s₁ ⟨h₁, hheaders, hids⟩ => ?_) fun _ _ => id
    rw [wp_bind]
    refine wp_storeHeader h₁ (fun ⟨x, hx⟩ => hnot ⟨x, hheaders n x hx⟩) fun id hid => ?_
    exact hok hstores id (hids id n hid)
  · rw [wp_bind]
    exact wp_storeHeader h hnot (hok hstores)

theorem wp_onHeaders {items : List (Option (Header H))} (h : Paired c s) (hok : HeadersOk c s items) :
    wp (onHeaders c items) (fun _ => Paired c) (Throws (Paired c)) s := by
  induction items generalizing s with
  | nil => exact h
  | cons item items ih =>
    cases item with
    | none => exact ⟨rfl, h⟩
    | some info =>
      rw [HeadersOk] at hok
      rw [onHeaders, wp_bind]
      refine wp_mono (wp_run (wp_onHeader h hok.1)) (fun stop s' ⟨hrun, h'⟩ => ?_) fun _ _ => id
      rw [wp_ite]
      split
      · exact h'
      · rename_i hstop
        rw [Bool.not_eq_true] at hstop
        exact ih h' (hok.2 s' (hstop ▸ hrun))

/-! ### Imports -/

theorem wp_importBlocks {first i : Nat} {l : List (Header H × B)} (h : Paired c s)
    (hl : ∀ p ∈ l, p.1.id = c.bodyId p.2) : wp (importBlocks c first i l)
    (fun done s' => Paired c s' ∧ (∀ k, done = some k → k = i + l.length ∧ s'.headers = s.headers ∧ s'.bodies = s.bodies))
    (Throws (Paired c)) s := by
  induction l generalizing s i with
  | nil =>
    refine ⟨h, ?_⟩
    rintro k ⟨⟩
    exact ⟨rfl, rfl, rfl⟩
  | cons p l ih =>
    obtain ⟨header, body⟩ := p
    obtain ⟨hp, hl'⟩ := forall_mem_cons.1 hl
    rw [importBlocks, wp_bind, wp_get]
    generalize c.importBlock s.host header body = imported
    obtain ⟨result, host⟩ := imported
    dsimp only
    rw [wp_bind, wp_set]
    have h₁ : Paired c { s with host, collected := (header, body) :: s.collected } :=
      ⟨h.headers, h.bodies, h.fits, h.ids, forall_mem_cons.2 ⟨hp, h.collected⟩⟩
    -- The blocks behind an import that does not end the loop.
    have hnext : ∀ s₁, Paired c s₁ → s₁.headers = s.headers → s₁.bodies = s.bodies →
        wp (importBlocks c first (i + 1) l) (fun done s' => Paired c s' ∧
          (∀ k, done = some k → k = i + (l.length + 1) ∧ s'.headers = s.headers ∧ s'.bodies = s.bodies))
            (Throws (Paired c)) s₁ := by
      intro s₁ h₁ hheaders hbodies
      refine wp_mono (ih h₁ hl') (fun done s' ⟨h', hdone⟩ => ⟨h', fun k hk => ?_⟩) fun _ _ => id
      obtain ⟨hlength, hheaders', hbodies'⟩ := hdone k hk
      exact ⟨by omega, hheaders'.trans hheaders, hbodies'.trans hbodies⟩
    cases result with
    | success =>
      dsimp only
      rw [wp_ite]
      split
      · rw [wp_bind, wp_modify]
        exact hnext _ (h₁.congr rfl rfl rfl rfl) rfl rfl
      · exact hnext _ h₁ rfl rfl
    | malformed | badChain =>
      dsimp only
      rw [wp_bind]
      exact wp_mono (wp_restartSync h₁.collected) (fun _ _ h' => ⟨h', nofun⟩) fun _ _ => id
    | alreadyKnown | futureTimeUnknown | unknownParent =>
      dsimp only
      rw [wp_ite]
      split
      · exact ⟨.of_empty h₁.collected rfl rfl, nofun⟩
      · exact ⟨h₁, nofun⟩
    | futureTimeKnown | alreadyInChain | overbidGasPrice | zeroSignature => exact hnext _ h₁ rfl rfl

/-- Without headers there are no bodies. -/
theorem Paired.bodies_eq_nil (h : Paired c s) (hheaders : s.headers = []) : s.bodies = [] := by
  refine eq_nil_iff_forall_not_mem.2 fun d hd => ?_
  obtain ⟨x, hx⟩ := h.has_of_body (has_iff.2 ⟨d, hd, le_rfl, Nat.lt_add_of_pos_right (h.bodies.length_pos hd)⟩)
  rw [hheaders] at hx
  obtain ⟨e, he, -⟩ := hx
  cases he

theorem separate_leave {T : Type} {m : Chunks T} {first k : Nat} {chunk : List T} (h : Separate ((first, chunk) :: m))
    (hk : k ≤ chunk.length) : Separate (leave (first + k) (chunk.drop k) m) ∧
      ∀ j x, At (leave (first + k) (chunk.drop k) m) j x ↔ At ((first, chunk) :: m) j x ∧ first + k ≤ j := by
  obtain ⟨-, hle, hm⟩ := separate_cons.1 h
  have hbehind : ∀ {j x}, At m j x → first + k ≤ j := fun hx =>
    (Nat.add_le_add_left hk first).trans (Separate.le_of_at hle hx)
  rw [leave]
  split
  · rename_i hempty
    rw [List.isEmpty_iff, drop_eq_nil_iff] at hempty
    refine ⟨hm, fun j x => ?_⟩
    rw [at_cons]
    constructor
    · exact fun hx => ⟨.inr hx, hbehind hx⟩
    · rintro ⟨⟨-, hget⟩ | hx, hj⟩
      · have := (List.getElem?_eq_some_iff.1 hget).1
        dsimp only at this
        omega
      · exact hx
  · rename_i hne
    rw [List.isEmpty_iff] at hne
    refine ⟨separate_cons.2 ⟨hne, fun d hd => ?_, hm⟩, fun j x => ?_⟩
    · have := hle d hd
      rw [length_drop]
      dsimp only at this ⊢
      omega
    · rw [at_cons, at_cons, List.getElem?_drop]
      dsimp only
      constructor
      · rintro (⟨hj, hget⟩ | hx)
        · rw [show k + (j - (first + k)) = j - first by omega] at hget
          exact ⟨.inl ⟨by omega, hget⟩, hj⟩
        · exact ⟨.inr hx, hbehind hx⟩
      · rintro ⟨⟨-, hget⟩ | hx, hj⟩
        · rw [show k + (j - (first + k)) = j - first by omega]
          exact .inl ⟨hj, hget⟩
        · exact .inr hx

/-- The first headers with the first bodies. -/
theorem Paired.zip (h : Paired c s) {first : Nat} {headers : List (Header H)} {bodies : List B} {nextHeaders nextBodies}
    (hheaders : s.headers = (first, headers) :: nextHeaders) (hbodies : s.bodies = (first, bodies) :: nextBodies) :
    ∀ p ∈ headers.zip bodies, p.1.id = c.bodyId p.2 := by
  intro p hp
  obtain ⟨k, hk⟩ := List.getElem?_of_mem hp
  obtain ⟨hheader, hbody⟩ := List.getElem?_zip_eq_some.1 hk
  have hat : ∀ {T : Type} {chunk : List T} {x : T} {m : Chunks T},
      chunk[k]? = some x → At ((first, chunk) :: m) (first + k) x := by
    intro T chunk x m hx
    refine ⟨(first, chunk), mem_cons_self, Nat.le_add_right first k, ?_⟩
    rwa [Nat.add_sub_cancel_left]
  have hheader' : At s.headers (first + k) p.1 := by
    rw [hheaders]
    exact hat hheader
  have hbody' : At s.bodies (first + k) p.2 := by
    rw [hbodies]
    exact hat hbody
  obtain ⟨x, hx, hid⟩ := h.fits hbody'
  rw [← h.headers.at_inj hx hheader']
  exact hid

theorem wp_collectBlocks (h : Paired c s) : wp (collectBlocks c) (fun _ => Paired c) (Throws (Paired c)) s := by
  rw [collectBlocks, wp_bind, wp_get]
  split
  · rename_i first headers nextHeaders firstBody bodies nextBodies hheaders hbodies
    rw [wp_ite]
    split
    · exact h
    rename_i hgo
    rw [not_or, not_or, not_not, not_not, not_not] at hgo
    obtain ⟨-, rfl, -⟩ := hgo
    rw [wp_bind]
    refine wp_mono (wp_importBlocks h (h.zip hheaders hbodies)) (fun done s₁ ⟨h₁, hdone⟩ => ?_) fun _ _ => id
    cases done with
    | none => exact h₁
    | some i =>
      obtain ⟨hi, hheaders₁, hbodies₁⟩ := hdone i rfl
      rw [Nat.zero_add, length_zip] at hi
      rw [hheaders] at hheaders₁
      rw [hbodies] at hbodies₁
      dsimp only
      rw [wp_bind, wp_get, wp_ite]
      split
      · exact wp_restartSync h₁.collected
      obtain ⟨hsep, hat⟩ := separate_leave (hheaders₁ ▸ h₁.headers) (k := i) (by omega)
      obtain ⟨hsepBodies, hatBodies⟩ := separate_leave (hbodies₁ ▸ h₁.bodies) (k := i) (by omega)
      have h₂ : Paired c { s₁ with
          headers := leave (first + i) (headers.drop i) nextHeaders,
            bodies := leave (first + i) (bodies.drop i) nextBodies } := by
        refine ⟨hsep, hsepBodies, fun hb => ?_, fun hid hx => ?_, h₁.collected⟩
        · obtain ⟨hb, hle⟩ := (hatBodies _ _).1 hb
          obtain ⟨x, hx, hid⟩ := h₁.fits (hbodies₁ ▸ hb)
          exact ⟨x, (hat _ _).2 ⟨hheaders₁ ▸ hx, hle⟩, hid⟩
        · exact h₁.ids hid (hheaders₁ ▸ ((hat _ _).1 hx).1)
      rw [wp_bind, wp_modify, wp_bind, wp_get, wp_ite]
      split
      · rename_i hempty
        rw [wp_bind, wp_get, wp_ite]
        split
        · rename_i hne
          rw [h₂.bodies_eq_nil (List.isEmpty_iff.1 hempty)] at hne
          cases hne
        · exact wp_completeSync h₂.collected
      · exact h₂
  · exact h

/-! ### Bodies -/

theorem wp_onBody {body : B} (h : Paired c s) : wp (onBody c body) (fun _ => Paired c) (Throws (Paired c)) s := by
  rw [onBody, wp_bind, wp_get]
  cases hlookup : s.headerIdToNumber.lookup (c.bodyId body) with
  | none => exact h
  | some n =>
    dsimp only
    rw [wp_ite]
    split
    · exact h
    rename_i hheader
    rw [wp_ite]
    split
    · exact h
    rename_i hbody
    rw [not_not, h.headers.haveItem_iff] at hheader
    rw [h.bodies.haveItem_iff] at hbody
    obtain ⟨x, hx⟩ := hheader
    obtain ⟨bodies, hmerge, hbodies, hat⟩ := h.bodies.mergeInto hbody body
    rw [wp_bind, wp_set, hmerge]
    exact (h.storeBody hx (h.ids hlookup hx) hbodies hat).erase_id (c.bodyId body)

/-! ### The handlers -/

theorem Paired.continued (h : Paired c s) : wp (continueSync c) (fun _ => Paired c) (Throws (Paired c)) s :=
  wp_mono (wp_continueSync h.headers) (fun _ _ hs => h.requested hs) fun _ _ => False.elim

theorem Paired.synced {force : Bool} (h : Paired c s) :
    wp (syncPeer c peer force) (fun _ => Paired c) (Throws (Paired c)) s :=
  wp_mono (wp_syncPeer h.headers) (fun _ _ hs => h.requested hs) fun _ _ => False.elim

theorem wp_onPeerBlockHeaders {items : List (Option (Header H))} (h : Paired c s)
    (hok : peer ∉ s.daoChallengedPeers → s.state = .blocks →
      HeadersOk c (after (clearPeerDownload peer) s) items) :
    wp (onPeerBlockHeaders c peer items) (fun _ => Paired c) (Throws (Paired c)) s := by
  rw [onPeerBlockHeaders, wp_bind, wp_get, wp_ite]
  split
  · rw [wp_bind]
    refine wp_mono wp_verifyDaoChallengeResponse (fun fits s₁ hs₁ => ?_) fun e s₁ hs₁ => ⟨hs₁.1, hs₁.2 ▸ h⟩
    subst hs₁
    rw [wp_ite]
    split
    · rw [wp_bind]
      exact wp_mono h.synced (fun _ s₂ h₂ => h₂.congr rfl rfl rfl rfl) fun _ _ => id
    · exact h.congr rfl rfl rfl rfl
  · rename_i hdao
    rw [wp_bind]
    have hcleared : Paired c (after (clearPeerDownload peer) s) := h.congr rfl rfl rfl rfl
    show wp _ _ _ (after (clearPeerDownload peer) s)
    rw [wp_bind, wp_get, wp_ite]
    split
    · exact hcleared
    rename_i hstate
    rw [not_not] at hstate
    rw [wp_bind]
    refine wp_mono (wp_onHeaders hcleared (hok hdao hstate)) (fun stop s₁ h₁ => ?_) fun _ _ => id
    rw [wp_ite]
    split
    · exact h₁
    · rw [wp_bind]
      exact wp_mono (wp_collectBlocks h₁) (fun _ s₂ h₂ => h₂.continued) fun _ _ => id

theorem wp_onPeerBlockBodies {items : List B} (h : Paired c s) :
    wp (onPeerBlockBodies c peer items) (fun _ => Paired c) (Throws (Paired c)) s := by
  rw [onPeerBlockBodies, wp_bind]
  have hcleared : Paired c (after (clearPeerDownload peer) s) := h.congr rfl rfl rfl rfl
  show wp _ _ _ (after (clearPeerDownload peer) s)
  rw [wp_bind, wp_get, wp_ite]
  split
  · exact hcleared
  rw [wp_bind]
  refine wp_mono (wp_forM (I := Paired c) (fun body _ s₁ h₁ => wp_onBody h₁) hcleared) (fun _ s₁ h₁ => ?_) fun _ _ => id
  rw [wp_bind]
  exact wp_mono (wp_collectBlocks h₁) (fun _ s₂ h₂ => h₂.continued) fun _ _ => id

/-- What a new block takes away of the headers, it takes away of the bodies. -/
def NewBlockOk (s : BlockChainSync W H B) (n : Nat) : Prop :=
  removeItem s.headers n = [] ∨ ∀ chunk ∈ s.headers, chunk.1 ≤ n → n < chunk.1 + chunk.2.length →
    ∀ j, n ≤ j → j < chunk.1 + chunk.2.length → Has s.bodies j → ∃ d ∈ s.bodies, d.1 ≤ n ∧ j < d.1 + d.2.length

section

variable (h : Paired c s)
include h

theorem Paired.removeItem (hok : ∀ chunk ∈ s.headers, chunk.1 ≤ n → n < chunk.1 + chunk.2.length →
    ∀ j, n ≤ j → j < chunk.1 + chunk.2.length → Has s.bodies j → ∃ d ∈ s.bodies, d.1 ≤ n ∧ j < d.1 + d.2.length) :
    Paired c { s with headers := removeItem s.headers n, bodies := removeItem s.bodies n } := by
  have hbodies : Separate (Chunks.removeItem s.bodies n) ∧ ∀ j b, At (Chunks.removeItem s.bodies n) j b → At s.bodies j b ∧
      ∀ d ∈ s.bodies, d.1 ≤ n → n ≤ j → d.1 + d.2.length ≤ j := by
    by_cases hhas : Has s.bodies n
    · obtain ⟨d, hd, hle, hlt⟩ := has_iff.1 hhas
      obtain ⟨hsep, hat⟩ := h.bodies.removeItem hd hle hlt
      refine ⟨hsep, fun j b hb => ⟨((hat j b).1 hb).1, fun e he hle' hj => ?_⟩⟩
      have hdj := ((hat j b).1 hb).2 hj
      by_contra hlt'
      have := h.bodies.eq_of_holds hd he (n := n) ⟨hle, hlt⟩ ⟨hle', by omega⟩
      rw [this] at hdj
      exact hlt' hdj
    · rw [h.bodies.removeItem_of_not_has hhas]
      refine ⟨h.bodies, fun j b hb => ⟨hb, fun e he hle hj => not_lt.1 fun hlt => hhas ?_⟩⟩
      exact has_iff.2 ⟨e, he, hle, by omega⟩
  obtain ⟨hsepBodies, hatBodies⟩ := hbodies
  by_cases hhas : Has s.headers n
  · obtain ⟨chunk, hchunk, hle, hlt⟩ := has_iff.1 hhas
    obtain ⟨hsep, hat⟩ := h.headers.removeItem hchunk hle hlt
    refine ⟨hsep, hsepBodies, fun {j b} hb => ?_, fun hid hx => h.ids hid ((hat _ _).1 hx).1, h.collected⟩
    obtain ⟨hb, hout⟩ := hatBodies j b hb
    obtain ⟨x, hx, hid⟩ := h.fits hb
    refine ⟨x, (hat j x).2 ⟨hx, fun hj => not_lt.1 fun hlt' => ?_⟩, hid⟩
    obtain ⟨d, hd, hdn, hdj⟩ := hok chunk hchunk hle hlt j hj hlt' ⟨b, hb⟩
    exact absurd (hout d hd hdn hj) (not_le.2 hdj)
  · rw [h.headers.removeItem_of_not_has hhas]
    exact ⟨h.headers, hsepBodies, fun hb => h.fits (hatBodies _ _ hb).1, h.ids, h.collected⟩

theorem wp_tookNewBlock {info : Header H} (hok : NewBlockOk s n) :
    wp (tookNewBlock info n) (fun _ => Paired c) (Throws (Paired c)) s := by
  rw [tookNewBlock, wp_bind, wp_modify]
  have hlast : Paired c (if s.lastImportedBlock < n then
      { s with lastImportedBlock := n, lastImportedBlockHash := info.hash } else s) ∧
        NewBlockOk (if s.lastImportedBlock < n then
      { s with lastImportedBlock := n, lastImportedBlockHash := info.hash } else s) n := by
    split
    · exact ⟨h.congr rfl rfl rfl rfl, hok⟩
    · exact ⟨h, hok⟩
  generalize (if s.lastImportedBlock < n then _ else s) = s₁ at hlast ⊢
  obtain ⟨h₁, hok₁⟩ := hlast
  rw [wp_bind, wp_modify, wp_bind, wp_get, wp_ite]
  split
  · exact .of_empty h₁.collected rfl rfl
  · rename_i hne
    rw [List.isEmpty_iff] at hne
    exact (h₁.removeItem (hok₁.resolve_left hne)).congr rfl rfl rfl rfl

theorem wp_unknownNewBlock {totalDifficulty : Option Nat} :
    wp (unknownNewBlock c peer totalDifficulty) (fun _ => Paired c) (Throws (Paired c)) s := by
  unfold unknownNewBlock
  rw [wp_bind, wp_modify, wp_bind, wp_get]
  extract_lets resume
  have htell : ∀ s₁, Paired c s₁ → wp (resume ()) (fun _ => Paired c) (Throws (Paired c)) s₁ := by
    intro s₁ h₁
    dsimp only [resume]
    cases totalDifficulty with
    | none => exact ⟨rfl, h₁⟩
    | some td =>
      dsimp only
      rw [wp_bind, wp_get, wp_ite]
      split
      · exact h₁.synced
      · exact h₁
  rw [wp_ite]
  split
  · rw [wp_bind]
    refine wp_mono (wp_restartSync ?_) (fun _ s₁ h₁ => htell s₁ h₁) fun _ _ => id
    exact h.collected
  · exact htell _ (h.congr rfl rfl rfl rfl)

theorem wp_onPeerNewBlock {message : NewBlock H B}
    (hok : ∀ info body td, message = .block info body td → info.number % 2 ^ 32 ≤ succ s.lastImportedBlock →
      (c.importBlock s.host info body).1 = .success → NewBlockOk s (info.number % 2 ^ 32)) :
    wp (onPeerNewBlock c peer message) (fun _ => Paired c) (Throws (Paired c)) s := by
  cases message with
  | notTwoFields => exact h
  | malformed => exact ⟨rfl, h⟩
  | block info body td =>
    have hok := hok info body td rfl
    rw [onPeerNewBlock, wp_bind, wp_get]
    extract_lets n
    rw [wp_ite]
    split
    · exact h.synced
    rename_i hle
    generalize c.importBlock s.host info body = imported at hok ⊢
    obtain ⟨result, host⟩ := imported
    dsimp only
    rw [wp_bind, wp_set]
    have h₁ : Paired c { s with host } := h.congr rfl rfl rfl rfl
    cases result with
    | success => exact wp_tookNewBlock h₁ (hok (not_lt.1 hle) rfl)
    | futureTimeUnknown | unknownParent => exact wp_unknownNewBlock h₁
    | futureTimeKnown | malformed | badChain | alreadyInChain | alreadyKnown | overbidGasPrice | zeroSignature => exact h₁

end

theorem wp_onNewHashes {unknowns maxHeight : Nat} {hashes : List (H × Nat)} (h : Paired c s) :
    wp (onNewHashes c peer unknowns maxHeight hashes) (fun _ => Paired c) (Throws (Paired c)) s := by
  induction hashes generalizing s unknowns maxHeight with
  | nil => exact h
  | cons p l ih =>
    obtain ⟨x, height⟩ := p
    rw [onNewHashes, wp_bind, wp_get, wp_ite]
    split
    · exact ih h
    split
    · exact h
    · rw [wp_ite]
      split
      · rw [wp_bind, wp_set]
        exact ih (h.congr rfl rfl rfl rfl)
      · exact ih h
    · exact ih h

theorem wp_onPeerNewHashes (h : Paired c s) {hashes : List (H × Nat)} :
    wp (onPeerNewHashes c peer hashes) (fun _ => Paired c) (Throws (Paired c)) s := by
  rw [onPeerNewHashes, wp_bind, wp_get, wp_ite]
  split
  · exact h
  rw [wp_bind]
  refine wp_mono (wp_onNewHashes h) (fun unknowns s₁ h₁ => ?_) fun _ _ => id
  cases unknowns with
  | none => exact h₁
  | some unknowns =>
    dsimp only
    rw [wp_ite]
    split
    · exact h₁.synced
    · exact h₁

theorem wp_onPeerStatus (h : Paired c s) : wp (onPeerStatus c peer) (fun _ => Paired c) (Throws (Paired c)) s := by
  rw [onPeerStatus, wp_bind, wp_get]
  cases (s.peer peer).session with
  | none => exact h
  | some clientVersion =>
    dsimp only
    rw [wp_ite]
    split
    · exact h
    rw [wp_bind, requestDaoForkBlockHeader, wp_ite]
    split
    · exact h.synced
    · exact h.congr rfl rfl rfl rfl

theorem wp_onPeerAborting (h : Paired c s) : wp (onPeerAborting c) (fun _ => Paired c) (Throws (Paired c)) s := by
  rw [onPeerAborting, wp_bind]
  exact Paired.continued (h.congr rfl rfl rfl rfl)

theorem wp_abortSync (h : Paired c s) : wp (abortSync c) (fun _ => Paired c) (Throws (Paired c)) s := by
  rw [abortSync, wp_bind]
  refine wp_mono (wp_resetSync h.collected (E := Throws (Paired c))) (fun _ s₁ h₁ => ?_) fun _ _ => id
  rw [wp_bind, wp_get]
  exact wp_forM (I := Paired c) (fun _ _ s₂ h₂ => wp_onPeerAborting h₂) h₁

/-! ### Runs -/

/-- The condition on a call. -/
def CallOk (c : Host W H B) (s : BlockChainSync W H B) : Call H B → Prop
  | .onPeerBlockHeaders peer items => peer ∉ s.daoChallengedPeers → s.state = .blocks →
    HeadersOk c (after (clearPeerDownload peer) s) items
  | .onPeerNewBlock _ (.block info body _) => info.number % 2 ^ 32 ≤ succ s.lastImportedBlock →
    (c.importBlock s.host info body).1 = .success → NewBlockOk s (info.number % 2 ^ 32)
  | _ => True

theorem wp_handle {a : Call H B} (h : Paired c s) (hok : CallOk c s a) :
    wp (handle c a) (fun _ => Paired c) (Throws (Paired c)) s := by
  cases a with
  | onPeerStatus peer => exact wp_onPeerStatus h
  | onPeerBlockHeaders peer items => exact wp_onPeerBlockHeaders h hok
  | onPeerBlockBodies peer items => exact wp_onPeerBlockBodies h
  | onPeerNewBlock peer message =>
    refine wp_onPeerNewBlock h ?_
    rintro info body td rfl
    exact hok
  | onPeerNewHashes peer hashes => exact wp_onPeerNewHashes h
  | onBlockImported info =>
    rw [handle, onBlockImported, wp_bind, wp_get, wp_ite]
    split
    · exact h.congr rfl rfl rfl rfl
    · exact h
  | onPeerAborting => exact wp_onPeerAborting h
  | onRoomAvailable =>
    rw [handle, onRoomAvailable, wp_bind]
    exact Paired.continued (h.congr rfl rfl rfl rfl)
  | restartSync => exact wp_restartSync h.collected
  | abortSync => exact wp_abortSync h

/-- The bodies are those of the headers, and so are those that have been handed to the block queue. -/
def Fits (c : Host W H B) (s : BlockChainSync W H B) : Prop :=
  (∀ n, haveItem s.bodies n → ∃ h b, findItem s.headers n = some h ∧ findItem s.bodies n = some b ∧ h.id = c.bodyId b) ∧
    ∀ p ∈ s.collected, p.1.id = c.bodyId p.2

theorem Paired.of_reaches {changes : W → W → Prop} (h : Reaches c changes (CallOk c) s) : Paired c s := by
  induction h with
  | constructed => exact .of_empty nofun rfl rfl
  | network _ _ _ _ _ ih => exact ih.congr rfl rfl rfl rfl
  | call _ hok ih => exact wp_after (wp_mono (wp_handle ih hok) (fun _ _ => id) fun _ _ => And.right)

theorem bodies_fit {changes : W → W → Prop} (h : Reaches c changes (CallOk c) s) :
    Fits c s ∧ ∀ a e s', CallOk c s a → handle c a s = .error e s' → e = .thrown := by
  have hpaired := Paired.of_reaches h
  refine ⟨⟨fun n hn => ?_, hpaired.collected⟩, fun a e s' hok hrun => (wp_error (wp_handle hpaired hok) hrun).1⟩
  obtain ⟨b, hb⟩ := hpaired.bodies.haveItem_iff.1 hn
  obtain ⟨x, hx, hid⟩ := hpaired.fits hb
  exact ⟨x, b, hpaired.headers.findItem_eq_some_iff.2 hx, hpaired.bodies.findItem_eq_some_iff.2 hb, hid⟩

/-! ### A stale id -/

/-- A chain that has its first block only, and a queue that takes everything. -/
def fresh : Host Unit Nat (HeaderId Nat) where
  blockStatus _ _ := .unknown
  importBlock _ _ _ := (.success, ())
  clear := id
  knownFull _ := false
  unknownFull _ := false
  isActive _ := false
  difficulty _ := 0
  isKnown _ h := h = 0
  number _ := 0
  numberHash _ _ := 0
  currentHash _ := 0
  totalDifficulty _ := 0
  genesisHash _ := 0
  isBanned _ _ := false
  protocolVersion := 63
  networkId := 0
  chainStartBlock := 0
  daoHardforkBlock := 0
  bodyId := id
  emptyBody := ⟨0, 0⟩

def freshPeer : Peer Nat where
  asking := .nothing
  totalDifficulty := 0
  latestHash := 0
  unknownNewBlocks := 0
  session := none
  genesisHash := 0
  protocolVersion := 63
  networkId := 0

def header (number hash parentHash id : Nat) : Header Nat :=
  { number, hash, parentHash, transactionsRoot := id, sha3Uncles := id, extraData := [] }

/-- What a run from the first block leaves behind. -/
def ran (calls : List (Call Nat (HeaderId Nat))) : BlockChainSync Unit Nat (HeaderId Nat) :=
  calls.foldl (fun s a => after (handle fresh a) s) (constructed fresh () (fun _ => freshPeer) [0] fun _ => false)

theorem reaches_ran {ok : BlockChainSync Unit Nat (HeaderId Nat) → Call Nat (HeaderId Nat) → Prop}
    {a : Call Nat (HeaderId Nat)}
    (calls : List (Call Nat (HeaderId Nat))) (h : Reaches fresh (fun _ _ => True) ok (ran calls)) (hok : ok (ran calls) a) :
    Reaches fresh (fun _ _ => True) ok (ran (calls ++ [a])) := by
  rw [ran, foldl_append]
  exact h.call hok

theorem bodies_fit_fresh : Fits fresh (ran [.onPeerNewHashes 0 [(9, 9)], .onPeerBlockHeaders 0 [some (header 0 0 0 0)],
    .onPeerBlockHeaders 0 [some (header 1 6 0 2)], .onPeerBlockBodies 0 [⟨2, 2⟩]]) := by
  have hfirst : Reaches fresh (fun _ _ => True) (CallOk fresh) (ran [.onPeerNewHashes 0 [(9, 9)]]) :=
    reaches_ran [] (.constructed () (fun _ => freshPeer) [0] fun _ => false) trivial
  have hsecond : Reaches fresh (fun _ _ => True) (CallOk fresh)
      (ran [.onPeerNewHashes 0 [(9, 9)], .onPeerBlockHeaders 0 [some (header 0 0 0 0)]]) :=
    reaches_ran _ hfirst fun _ _ => ⟨fun hstores => absurd hstores (by decide +kernel), fun _ _ => trivial⟩
  have hthird : Reaches fresh (fun _ _ => True) (CallOk fresh) (ran [.onPeerNewHashes 0 [(9, 9)],
      .onPeerBlockHeaders 0 [some (header 0 0 0 0)], .onPeerBlockHeaders 0 [some (header 1 6 0 2)]]) :=
    reaches_ran _ hsecond fun _ _ => ⟨fun _ _ hid => (nomatch hid), fun _ _ => trivial⟩
  exact (bodies_fit (reaches_ran (a := .onPeerBlockBodies 0 [⟨2, 2⟩]) _ hthird trivial)).1

/-- A new hash; the first block; a second block with the id 1, a first block that is not its parent, and the second block on
that with the id 3; the bodies that are asked for, and the one of the second block that has gone. -/
def stale : List (Call Nat (HeaderId Nat)) :=
  [.onPeerNewHashes 0 [(9, 9)],
    .onPeerBlockHeaders 0 [some (header 0 0 0 0)],
    .onPeerBlockHeaders 0 [some (header 2 5 4 1), some (header 1 6 0 2), some (header 2 7 6 3)],
    .onPeerBlockBodies 0 [⟨1, 1⟩, ⟨2, 2⟩]]

theorem not_bodies_fit : ¬ ∀ s, Reaches fresh (fun _ _ => True) (fun _ _ => True) s → Fits fresh s := by
  intro hfits
  have hreaches : ∀ calls, Reaches fresh (fun _ _ => True) (fun _ _ => True) (ran calls) := by
    intro calls
    induction calls using List.reverseRecOn with
    | nil => exact .constructed () (fun _ => freshPeer) [0] fun _ => false
    | append_singleton calls a ih => exact reaches_ran calls ih trivial
  have hstale := (hfits _ (hreaches stale)).2
  revert hstale
  decide +kernel

end Kmdx.Sync.BlockChainSync
