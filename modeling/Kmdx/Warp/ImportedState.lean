import Kmdx.Warp.SnapshotImporter

/-!
# The state that is imported

The accounts of the chunks, merged one by one: a part of an account that came before keeps its storage where the new one says
nothing, and the rest of it is that of the last part. As long as no hashes collide this is what the state trie holds
(`Imports`), so it holds exactly the accounts of the chunks if and only if the parts agree (`holdsExactly_iff`).
-/

namespace Kmdx.Snapshot

open Rlp Wp ExceptRules Function List

variable {c : Host} {s s' s'' : Importer} {r : AccountRecord} {rs rs' : List AccountRecord} {t t' : StorageTrie}
    {h : H256} {k : H256}
  {v : Bytes}

/-! ### What the chunks say -/

structure AccountRecord extends AccountFields where
  addressHash : H256

def recordOf (addressAndAccount : RLP) : Except Exn AccountRecord := do
  let (addressHash, addressAndAccount) ← readAddressHash addressAndAccount
  return { toAccountFields := ← readAccount addressAndAccount, addressHash }

def recordsOf (chunk : Bytes) : Except Exn (List AccountRecord) := do
  let accounts ← rlp (RLP.mk' chunk)
  (← rlp (itemsFrom 0 (← rlp (itemCount accounts.data)) accounts)).mapM recordOf

/-- The accounts of the chunks, in order. -/
def accountsOf (storage : SnapshotStorage) (stateChunkHashes : List H256) : Except Exn (List AccountRecord) := do
  return (← stateChunkHashes.mapM fun stateChunkHash => do recordsOf (← storage.readChunk stateChunkHash)).flatten

def CodeRecord.codeHash (c : Host) : CodeRecord → H256
  | none => emptySHA3 c
  | bytes code => c.sha3 code
  | hash h => h

/-! ### Accounts with their storage -/

structure Account where
  nonce : U256
  balance : U256
  storage : StorageTrie
  codeHash : H256

abbrev Accounts := H256 → Option Account

/-- What is stored in front of what was. -/
def overlaid (storage : SortedMap H256 Bytes) (t : StorageTrie) : StorageTrie := fun k => (storage.find? k).or (t k)

def storageAt (m : Accounts) (h : H256) : StorageTrie := (m h).elim (fun _ => none) Account.storage

/-- An account, or a part of one that is split. -/
def AccountRecord.addTo (c : Host) (m : Accounts) (r : AccountRecord) : Accounts :=
  update m r.addressHash (some {
    nonce := r.nonce
    balance := r.balance
    storage := overlaid r.storage (storageAt m r.addressHash)
    codeHash := r.code.codeHash c })

/-- What merging the records gives. -/
structure Merged (c : Host) (rs : List AccountRecord) (m : Accounts) : Prop where
  account : ∀ r ∈ rs, ∃ a, m r.addressHash = some a ∧ ∀ k v, (k, v) ∈ r.storage.entries → a.storage k ≠ none
  record : ∀ h a, m h = some a → ∃ r ∈ rs, r.addressHash = h ∧ a.nonce = r.nonce ∧ a.balance = r.balance ∧
    a.codeHash = r.code.codeHash c
  storage : ∀ h a k v, m h = some a → a.storage k = some v → ∃ r ∈ rs, r.addressHash = h ∧ (k, v) ∈ r.storage.entries

variable {m : Accounts}

theorem Merged.addTo (hm : Merged c rs m) (r : AccountRecord) : Merged c (rs ++ [r]) (r.addTo c m) := by
  have hmem : r ∈ rs ++ [r] := mem_append_right rs mem_cons_self
  refine ⟨fun r' hr' => ?_, fun h a ha => ?_, fun h a k v ha hv => ?_⟩
  · by_cases heq : r'.addressHash = r.addressHash
    · refine ⟨_, by rw [heq]; exact update_self .., fun k v hv hnone => ?_⟩
      obtain ⟨hfind, hold⟩ := Option.or_eq_none_iff.1 hnone
      rcases mem_append.1 hr' with hr' | hr'
      · obtain ⟨a, ha, hkeys⟩ := hm.account r' hr'
        rw [storageAt, ← heq, ha] at hold
        exact hkeys k v hv hold
      · rw [mem_singleton.1 hr', ← SortedMap.find?_eq_some_iff, hfind] at hv
        cases hv
    · have hr' : r' ∈ rs := by
        refine (mem_append.1 hr').resolve_right fun hr' => heq ?_
        rw [mem_singleton.1 hr']
      obtain ⟨a, ha, hkeys⟩ := hm.account r' hr'
      exact ⟨a, by rw [AccountRecord.addTo, update_of_ne heq, ha], hkeys⟩
  · by_cases heq : h = r.addressHash
    · rw [AccountRecord.addTo, heq, update_self] at ha
      cases ha
      exact ⟨r, hmem, heq.symm, rfl, rfl, rfl⟩
    · rw [AccountRecord.addTo, update_of_ne heq] at ha
      obtain ⟨r', hr', hrest⟩ := hm.record h a ha
      exact ⟨r', mem_append_left _ hr', hrest⟩
  · by_cases heq : h = r.addressHash
    · rw [AccountRecord.addTo, heq, update_self] at ha
      cases ha
      rcases Option.or_eq_some_iff.1 hv with hfind | ⟨-, hold⟩
      · exact ⟨r, hmem, heq.symm, SortedMap.find?_eq_some_iff.1 hfind⟩
      · rw [storageAt] at hold
        cases hacc : m r.addressHash with
        | none =>
          rw [hacc] at hold
          cases hold
        | some a =>
          rw [hacc] at hold
          obtain ⟨r', hr', hrest⟩ := hm.storage h a k v (heq ▸ hacc) hold
          exact ⟨r', mem_append_left _ hr', hrest⟩
    · rw [AccountRecord.addTo, update_of_ne heq] at ha
      obtain ⟨r', hr', hrest⟩ := hm.storage h a k v ha hv
      exact ⟨r', mem_append_left _ hr', hrest⟩

theorem merged_foldl (hm : Merged c rs m) (rs' : List AccountRecord) :
    Merged c (rs ++ rs') (rs'.foldl (AccountRecord.addTo c) m) := by
  induction rs' generalizing rs m with
  | nil => rwa [append_nil]
  | cons r rs' ih =>
    rw [append_cons]
    exact ih (hm.addTo r)

theorem merged_nil : Merged c [] fun _ => none := ⟨nofun, nofun, nofun⟩

/-! ### Calls that return -/

theorem rlp_eq_ok_iff {α : Type} {x : Except Rlp.Exn α} {a : α} : rlp x = .ok a ↔ x = .ok a := by
  cases x with
  | ok b => exact Except.ok.injEq b a ▸ Except.ok.injEq b a ▸ Iff.rfl
  | error e => exact iff_of_false nofun nofun

theorem exists_of_lift {α β : Type} {x : Except Exn α} {f : α → ImportM β} {b : β} (h : (liftM x >>= f) s = .ok b s') :
    ∃ a, x = .ok a ∧ f a s = .ok b s' := by
  cases x with
  | ok a => exact ⟨a, rfl, h⟩
  | error e => cases h

theorem of_get {β : Type} {f : Importer → ImportM β} {b : β} (h : (get >>= f) s = .ok b s') : f s s = .ok b s' := h

theorem throwIf_eq_ok {p : Prop} [Decidable p] {e : Exn} (h : (throwIf p e : ImportM Unit) s = .ok () s') : ¬p ∧ s = s' := by
  rw [throwIf] at h
  split_ifs at h with hp
  · cases h
  · cases h
    exact ⟨hp, rfl⟩

theorem of_throwIf {β : Type} {p : Prop} [Decidable p] {e : Exn} {f : Unit → ImportM β} {b : β}
    (h : (throwIf p e >>= f) s = .ok b s') : ¬p ∧ f () s = .ok b s' := by
  obtain ⟨_, _, hthrow, h⟩ := exists_of_bind_ok h
  obtain ⟨hp, rfl⟩ := throwIf_eq_ok hthrow
  exact ⟨hp, h⟩

/-! ### What a call does to the importer -/

/-- The database only grows, and the chain stays. -/
structure Grows (s s' : Importer) : Prop where
  storageTries : s.storageTries ⊆ s'.storageTries
  db : s.db ⊆ s'.db
  base : s'.base = s.base
  blocks : s'.blocks = s.blocks
  chainStartBlockNumber : s'.chainStartBlockNumber = s.chainStartBlockNumber

namespace Grows

theorem refl (s : Importer) : Grows s s := ⟨List.Subset.refl _, List.Subset.refl _, rfl, rfl, rfl⟩

theorem trans (hs : Grows s s') (hs' : Grows s' s'') : Grows s s'' :=
  ⟨fun _ ht => hs'.storageTries (hs.storageTries ht), fun _ hb => hs'.db (hs.db hb), hs'.base.trans hs.base,
    hs'.blocks.trans hs.blocks, hs'.chainStartBlockNumber.trans hs.chainStartBlockNumber⟩

end Grows

/-- What has the same hash is the same. -/
structure NoCollision (c : Host) (s : Importer) : Prop where
  storageTries : ∀ t ∈ s.storageTries, ∀ t' ∈ s.storageTries, c.storageRoot t = c.storageRoot t' → t = t'
  db : ∀ h b b', (h, b) ∈ s.db → (h, b') ∈ s.db → b = b'

theorem NoCollision.of_grows (hno : NoCollision c s') (hs : Grows s s') : NoCollision c s :=
  ⟨fun t ht t' ht' => hno.storageTries t (hs.storageTries ht) t' (hs.storageTries ht'),
    fun h b b' hb hb' => hno.db h b b' (hs.db hb) (hs.db hb')⟩

/-- An account as it is in the trie -/
def Account.toRlp (c : Host) (a : Account) : AccountRlp H256 where
  nonce := a.nonce
  balance := a.balance
  storageRoot := c.storageRoot a.storage
  codeHash := a.codeHash

/-- The trie is that of `m`, and the tries of the storage are there. -/
structure Represents (c : Host) (s : Importer) (m : Accounts) : Prop where
  trie : ∀ h, s.trie h = (m h).map (Account.toRlp c)
  storage : ∀ h, storageAt m h ∈ s.storageTries

/-- From `s` to `s'` the records have been imported. -/
structure Imports (c : Host) (rs : List AccountRecord) (s s' : Importer) : Prop where
  grows : Grows s s'
  represents : ∀ m, NoCollision c s' → Represents c s m → Represents c s' (rs.foldl (AccountRecord.addTo c) m)
  codes : ∀ r ∈ rs, ∀ b, r.code = .bytes b → (c.sha3 b, b) ∈ s'.db

theorem Imports.nil (s : Importer) : Imports c [] s s := ⟨.refl s, fun _ _ h => h, nofun⟩

theorem Imports.append (hrs : Imports c rs s s') (hrs' : Imports c rs' s' s'') : Imports c (rs ++ rs') s s'' := by
  refine ⟨hrs.grows.trans hrs'.grows, fun m hno hm => ?_, fun r hr b hb => ?_⟩
  · rw [foldl_append]
    exact hrs'.represents _ hno (hrs.represents m (hno.of_grows hrs'.grows) hm)
  · rcases mem_append.1 hr with hr | hr
    · exact hrs'.grows.db (hrs.codes r hr b hb)
    · exact hrs'.codes r hr b hb

/-! ### Accounts -/

/-- What is inserted, one after another. -/
def inserted (es : List (H256 × Bytes)) (t : StorageTrie) : StorageTrie := es.foldl (fun t e => update t e.1 (some e.2)) t

theorem foldlM_insertStorage (es : List (H256 × Bytes)) (s : Importer) (t : StorageTrie) :
    ∃ s', es.foldlM (fun t e => insertStorage c t e.1 e.2) t s = .ok (inserted es t) s' ∧ Grows s s' ∧ s'.trie = s.trie ∧
      (t ∈ s.storageTries → inserted es t ∈ s'.storageTries) := by
  induction es generalizing s t with
  | nil => exact ⟨s, rfl, .refl s, rfl, id⟩
  | cons e es ih =>
    obtain ⟨t₁, ht₁⟩ : ∃ t₁, t₁ = update t e.1 (some e.2) := ⟨_, rfl⟩
    obtain ⟨s₁, hs₁⟩ : ∃ s₁, s₁ = { s with storageTries := t₁ :: s.storageTries, db := c.storageNodes t₁ ++ s.db } := ⟨_, rfl⟩
    have hrun : insertStorage c t e.1 e.2 s = .ok t₁ s₁ := by
      rw [hs₁, ht₁]
      rfl
    have hgrows : Grows s s₁ := by
      rw [hs₁]
      exact ⟨subset_cons_self .., subset_append_right .., rfl, rfl, rfl⟩
    obtain ⟨s', hs', hgrows', htrie, hmem⟩ := ih s₁ t₁
    rw [foldlM_cons, run_bind, hrun, inserted, foldl_cons, ← ht₁]
    refine ⟨s', hs', hgrows.trans hgrows', htrie.trans (by rw [hs₁]), fun _ => hmem ?_⟩
    rw [hs₁]
    exact mem_cons_self

theorem inserted_eq_overlaid (storage : SortedMap H256 Bytes) (t : StorageTrie) :
    inserted storage.entries t = overlaid storage t := by
  funext k
  obtain ⟨es, hes⟩ := storage
  rw [overlaid, SortedMap.find?]
  dsimp only
  induction es generalizing t with
  | nil => rfl
  | cons e es ih =>
    obtain ⟨hlt, hes⟩ := pairwise_cons.1 hes
    rw [inserted, foldl_cons, ← inserted, ih _ hes, lookup_cons]
    by_cases hk : k = e.1
    · have hnone : es.lookup k = none := lookup_eq_none_iff.2 fun d hd => by
        rw [hk]
        exact bne_iff_ne.2 (hlt d hd).ne
      rw [hnone, hk, update_self, beq_self_eq_true]
      rfl
    · rw [update_of_ne hk, beq_false_of_ne hk]

theorem storageRoot_of_trie (hm : Represents c s m) (h : H256) :
    (s.trie h).elim (emptyTrie c) (·.storageRoot) = c.storageRoot (storageAt m h) := by
  rw [hm.trie, storageAt]
  cases m h <;> rfl

/-- A trie that is there is found by its root. -/
theorem find_storage (hno : NoCollision c s) (ht : t ∈ s.storageTries) :
    s.storageTries.find? (fun t' => c.storageRoot t' = c.storageRoot t) = some t := by
  cases hfind : s.storageTries.find? fun t' => c.storageRoot t' = c.storageRoot t with
  | none => exact absurd (List.find?_eq_none.1 hfind t ht) (by simp)
  | some t' =>
    have hroot := List.find?_some hfind
    rw [hno.storageTries t' (List.mem_of_find?_eq_some hfind) t ht (of_decide_eq_true hroot)]

/-- The trie with a new account is represented. -/
theorem Represents.set (hm : Represents c s m) (hs : Grows s s') (h : H256) (a : Account)
    (htrie : s'.trie = update s.trie h (some (a.toRlp c))) (ha : a.storage ∈ s'.storageTries) :
    Represents c s' (update m h (some a)) := by
  refine ⟨fun h' => ?_, fun h' => ?_⟩
  · rw [htrie]
    by_cases heq : h' = h
    · rw [heq, update_self, update_self, Option.map_some]
    · rw [update_of_ne heq, update_of_ne heq, hm.trie]
  · rw [storageAt]
    by_cases heq : h' = h
    · rw [heq, update_self]
      exact ha
    · rw [update_of_ne heq]
      exact hs.storageTries (hm.storage h')

theorem openStorage_spec {root : H256} (hrun : openStorage c root s = .ok t s') :
    s' = s ∧ s.storageTries.find? (fun t' => c.storageRoot t' = root) = some t := by
  have hrun := of_get hrun
  cases hfind : s.storageTries.find? fun t' => c.storageRoot t' = root with
  | none =>
    rw [hfind] at hrun
    cases hrun
  | some t' =>
    rw [hfind] at hrun
    cases hrun
    exact ⟨rfl, rfl⟩

theorem importStorage_spec {root root' : H256} {storage : SortedMap H256 Bytes}
    (hrun : importStorage c root storage s = .ok root' s') :
    Grows s s' ∧ s'.trie = s.trie ∧ (NoCollision c s' → t ∈ s.storageTries → root = c.storageRoot t →
      root' = c.storageRoot (overlaid storage t) ∧ overlaid storage t ∈ s'.storageTries) := by
  rw [importStorage] at hrun
  split at hrun
  · rename_i hnil
    cases hrun
    have hoverlaid : overlaid storage t = t := by
      funext k
      rw [overlaid, SortedMap.find?, hnil]
      rfl
    rw [hoverlaid]
    exact ⟨.refl s, rfl, fun _ ht hroot => ⟨hroot, ht⟩⟩
  · obtain ⟨t', s₁, hopen, hrun⟩ := exists_of_bind_ok hrun
    obtain ⟨s₂, hfold, hgrows, htrie, hmem⟩ := foldlM_insertStorage (c := c) storage.entries s₁ t'
    rw [run_bind, hfold] at hrun
    cases hrun
    obtain ⟨rfl, hfind⟩ := openStorage_spec hopen
    refine ⟨hgrows, htrie, fun hno ht hroot => ?_⟩
    rw [hroot, find_storage (hno.of_grows hgrows) ht] at hfind
    cases hfind
    rw [inserted_eq_overlaid] at hmem ⊢
    exact ⟨rfl, hmem ht⟩

theorem importAccount_spec {nonce balance : U256} {storage : SortedMap H256 Bytes} {codeHash : H256}
    (hrun : importAccount c h nonce balance storage codeHash s = .ok () s') : Grows s s' ∧
      ∀ m, NoCollision c s' → Represents c s m → Represents c s'
        (update m h (some { nonce, balance, storage := overlaid storage (storageAt m h), codeHash })) := by
  obtain ⟨root, s₁, hstorage, hrun⟩ := exists_of_bind_ok (of_get hrun)
  obtain ⟨_, _, ⟨⟩, ⟨⟩⟩ := exists_of_bind_ok hrun
  obtain ⟨trie, htrie⟩ : ∃ trie, trie = update s₁.trie h (some { nonce, balance, storageRoot := root, codeHash }) := ⟨_, rfl⟩
  have hlast : Grows s₁ { s₁ with trie, db := c.stateNodes trie ++ s₁.db } :=
    ⟨List.Subset.refl _, subset_append_right .., rfl, rfl, rfl⟩
  have hgrows := (importStorage_spec (t := fun _ => none) hstorage).1.trans hlast
  rw [← htrie]
  refine ⟨hgrows, fun m hno hm => ?_⟩
  obtain ⟨-, htrie₁, hafter⟩ := importStorage_spec (t := storageAt m h) hstorage
  obtain ⟨hroot, hmem⟩ := hafter (hno.of_grows hlast) (hm.storage h) (storageRoot_of_trie hm h)
  refine hm.set hgrows h _ ?_ hmem
  rw [htrie, htrie₁, hroot]
  rfl

theorem code_import_spec {code : CodeRecord} {codeHash : H256} (hrun : code.import c s = .ok codeHash s') :
    codeHash = code.codeHash c ∧ Grows s s' ∧ s'.trie = s.trie ∧ s'.storageTries = s.storageTries ∧
      ∀ b, code = .bytes b → (c.sha3 b, b) ∈ s'.db := by
  cases code with
  | none =>
    cases hrun
    exact ⟨rfl, .refl s, rfl, rfl, nofun⟩
  | bytes b =>
    obtain ⟨_, _, ⟨⟩, ⟨⟩⟩ := exists_of_bind_ok hrun
    refine ⟨rfl, ⟨List.Subset.refl _, subset_cons_self .., rfl, rfl, rfl⟩, rfl, rfl, ?_⟩
    rintro _ ⟨⟩
    exact mem_cons_self
  | hash codeHash =>
    obtain ⟨-, hrun⟩ := of_throwIf (of_get hrun)
    cases hrun
    exact ⟨rfl, .refl s, rfl, rfl, nofun⟩

theorem Represents.congr (hm : Represents c s m) (htrie : s'.trie = s.trie) (hstorage : s'.storageTries = s.storageTries) :
    Represents c s' m := ⟨by rw [htrie]; exact hm.trie, by rw [hstorage]; exact hm.storage⟩

/-! ### Chunks -/

theorem importAccountAt_spec {accountIndex : Nat} {x : RLP} (hrun : importAccountAt c accountIndex x s = .ok () s') :
    ∃ r, recordOf x = .ok r ∧ Imports c [r] s s' := by
  obtain ⟨⟨addressHash, x'⟩, haddress, hrun⟩ := exists_of_lift hrun
  obtain ⟨-, hrun⟩ := of_throwIf (of_get hrun)
  obtain ⟨r, haccount, hrun⟩ := exists_of_lift hrun
  obtain ⟨codeHash, s₁, hcode, hrun⟩ := exists_of_bind_ok hrun
  obtain ⟨rfl, hgrows₁, htrie, hstorage, hb⟩ := code_import_spec hcode
  obtain ⟨hgrows, hrep⟩ := importAccount_spec hrun
  refine ⟨⟨r, addressHash⟩, ?_, hgrows₁.trans hgrows, fun m hno hm => ?_, fun r' hr' b hcodeOf => ?_⟩
  · rw [recordOf, haddress, ok_bind]
    dsimp only
    rw [haccount]
    rfl
  · exact hrep m hno (hm.congr htrie hstorage)
  · rw [mem_singleton.1 hr'] at hcodeOf
    exact hgrows.db (hb b hcodeOf)

theorem importAccounts_spec {accountIndex left : Nat} {accounts : RLP}
    (hrun : importAccounts c accountIndex left accounts s = .ok () s') :
    ∃ xs rs, itemsFrom accountIndex left accounts = .ok xs ∧ xs.mapM recordOf = .ok rs ∧ Imports c rs s s' := by
  induction left generalizing accountIndex accounts s with
  | zero =>
    cases hrun
    exact ⟨[], [], rfl, rfl, .nil _⟩
  | succ left ih =>
    obtain ⟨⟨x, accounts'⟩, hindex, hrun⟩ := exists_of_lift hrun
    obtain ⟨_, s₁, hat, hrun⟩ := exists_of_bind_ok hrun
    obtain ⟨r, hr, himport⟩ := importAccountAt_spec hat
    obtain ⟨xs, rs, hxs, hrs, himports⟩ := ih hrun
    refine ⟨x :: xs, r :: rs, ?_, ?_, himport.append himports⟩
    · rw [itemsFrom, rlp_eq_ok_iff.1 hindex, ok_bind]
      dsimp only
      rw [hxs]
      rfl
    · rw [mapM_cons, hr, ok_bind, hrs]
      rfl

theorem importStateChunk_spec {chunk : Bytes} (hrun : importStateChunk c chunk s = .ok () s') :
    ∃ rs, recordsOf chunk = .ok rs ∧ Imports c rs s s' := by
  obtain ⟨accounts, haccounts, hrun⟩ := exists_of_lift hrun
  obtain ⟨n, hn, hrun⟩ := exists_of_lift hrun
  obtain ⟨xs, rs, hxs, hrs, himports⟩ := importAccounts_spec hrun
  refine ⟨rs, ?_, himports⟩
  rw [recordsOf, haccounts, ok_bind, hn, ok_bind, rlp_eq_ok_iff.2 hxs, ok_bind, hrs]

/-- The loop over the state chunks. -/
theorem importStateChunk_loop {storage : SnapshotStorage} {stateChunkHashes : List H256}
    (hrun : (stateChunkHashes.forM fun stateChunkHash => do
      let chunk ← liftM (storage.readChunk stateChunkHash)
      importStateChunk c chunk) s = .ok () s') :
    ∃ rs, accountsOf storage stateChunkHashes = .ok rs ∧ Imports c rs s s' := by
  induction stateChunkHashes generalizing s with
  | nil =>
    cases hrun
    exact ⟨[], rfl, .nil _⟩
  | cons stateChunkHash hashes ih =>
    obtain ⟨_, s₁, hchunk, hrun⟩ := exists_of_bind_ok hrun
    obtain ⟨chunk, hread, hchunk⟩ := exists_of_lift hchunk
    obtain ⟨rs, hrs, himports⟩ := importStateChunk_spec hchunk
    obtain ⟨rs', hrs', himports'⟩ := ih hrun
    obtain ⟨rss, hrss, hflat⟩ := bind_eq_ok_iff.1 hrs'
    refine ⟨rs ++ rs', ?_, himports.append himports'⟩
    rw [accountsOf, mapM_cons, hread, ok_bind, hrs, ok_bind, hrss]
    cases hflat
    rfl

theorem importStateChunks_spec {storage : SnapshotStorage} {stateChunkHashes : List H256} {root : H256}
    (hrun : importStateChunks c storage stateChunkHashes root s = .ok () s') :
    ∃ rs, accountsOf storage stateChunkHashes = .ok rs ∧ Imports c rs s s' ∧ stateRoot c s' = root := by
  obtain ⟨_, s₁, hloop, hrun⟩ := exists_of_bind_ok hrun
  obtain ⟨hroot, rfl⟩ := throwIf_eq_ok (of_get hrun)
  obtain ⟨rs, hrs, himports⟩ := importStateChunk_loop hloop
  exact ⟨rs, hrs, himports, not_not.1 hroot⟩

/-! ### What the state holds -/

/-- The state holds the accounts, each with its code and its storage, and no others. -/
structure HoldsExactly (c : Host) (s : Importer) (rs : List AccountRecord) : Prop where
  others : ∀ h a, s.trie h = some a → ∃ r ∈ rs, r.addressHash = h
  account : ∀ r ∈ rs, ∃ a, s.trie r.addressHash = some a ∧ a.nonce = r.nonce ∧ a.balance = r.balance ∧
    a.codeHash = r.code.codeHash c
  code : ∀ r ∈ rs, ∀ b, r.code = .bytes b → lookupCode s (r.code.codeHash c) = b
  storage : ∀ h a, s.trie h = some a → ∃ t, s.storageTries.find? (fun t => c.storageRoot t = a.storageRoot) = some t ∧
    ∀ k v, t k = some v ↔ ∃ r ∈ rs, r.addressHash = h ∧ (k, v) ∈ r.storage.entries

/-- The parts of an account that is split say the same of it, and no two of them have different values in one place. -/
def PartsAgree (c : Host) (rs : List AccountRecord) : Prop :=
  ∀ r ∈ rs, ∀ r' ∈ rs, r.addressHash = r'.addressHash → r.nonce = r'.nonce ∧ r.balance = r'.balance ∧
    r.code.codeHash c = r'.code.codeHash c ∧ ∀ k v v', (k, v) ∈ r.storage.entries → (k, v') ∈ r'.storage.entries → v = v'

theorem HoldsExactly.partsAgree (hs : HoldsExactly c s rs) : PartsAgree c rs := by
  intro r hr r' hr' haddress
  obtain ⟨a, ha, hnonce, hbalance, hcode⟩ := hs.account r hr
  obtain ⟨a', ha', hnonce', hbalance', hcode'⟩ := hs.account r' hr'
  rw [haddress, ha'] at ha
  cases ha
  refine ⟨hnonce.symm.trans hnonce', hbalance.symm.trans hbalance', hcode.symm.trans hcode', fun k v v' hv hv' => ?_⟩
  obtain ⟨t, -, ht⟩ := hs.storage _ _ ha'
  have hk := (ht k v).2 ⟨r, hr, haddress, hv⟩
  rw [(ht k v').2 ⟨r', hr', rfl, hv'⟩] at hk
  exact (Option.some.inj hk).symm

theorem lookupCode_of_mem (hno : NoCollision c s) {b : Bytes} (hb : (h, b) ∈ s.db) : lookupCode s h = b := by
  rw [lookupCode]
  cases hlookup : s.db.lookup h with
  | none =>
    have hnot := lookup_eq_none_iff.1 hlookup _ hb
    exact absurd rfl (bne_iff_ne.1 hnot)
  | some b' =>
    obtain ⟨l₁, l₂, heq, -⟩ := lookup_eq_some_iff.1 hlookup
    refine hno.db h b' b ?_ hb
    rw [heq]
    exact mem_append_right _ mem_cons_self

/-- Where nothing collides, what has been merged is held if and only if the parts agree. -/
theorem holdsExactly_iff (hno : NoCollision c s) (hm : Represents c s m) (hmerged : Merged c rs m)
    (hcodes : ∀ r ∈ rs, ∀ b, r.code = .bytes b → (c.sha3 b, b) ∈ s.db) : HoldsExactly c s rs ↔ PartsAgree c rs := by
  refine ⟨HoldsExactly.partsAgree, fun hagree => ⟨fun h a ha => ?_, fun r hr => ?_, fun r hr b hb => ?_, fun h a ha => ?_⟩⟩
  · rw [hm.trie] at ha
    obtain ⟨a', ha', -⟩ := Option.map_eq_some_iff.1 ha
    obtain ⟨r, hr, haddress, -⟩ := hmerged.record h a' ha'
    exact ⟨r, hr, haddress⟩
  · obtain ⟨a, ha, -⟩ := hmerged.account r hr
    obtain ⟨r', hr', haddress, hnonce, hbalance, hcode⟩ := hmerged.record _ a ha
    obtain ⟨hnonce', hbalance', hcode', -⟩ := hagree r' hr' r hr haddress
    refine ⟨a.toRlp c, ?_, hnonce.trans hnonce', hbalance.trans hbalance', hcode.trans hcode'⟩
    rw [hm.trie, ha, Option.map_some]
  · rw [hb]
    exact lookupCode_of_mem hno (hcodes r hr b hb)
  · rw [hm.trie] at ha
    obtain ⟨a', ha', rfl⟩ := Option.map_eq_some_iff.1 ha
    have hstorage : storageAt m h = a'.storage := by rw [storageAt, ha', Option.elim_some]
    refine ⟨a'.storage, ?_, fun k v => ⟨hmerged.storage h a' k v ha', ?_⟩⟩
    · have hfind := find_storage hno (hm.storage h)
      rw [hstorage] at hfind
      exact hfind
    · rintro ⟨r, hr, rfl, hv⟩
      obtain ⟨a, ha, hkeys⟩ := hmerged.account r hr
      rw [ha'] at ha
      cases ha
      obtain ⟨v', hv'⟩ := Option.ne_none_iff_exists'.1 (hkeys k v hv)
      obtain ⟨r', hr', haddress, hmem⟩ := hmerged.storage _ a' k v' ha' hv'
      obtain ⟨-, -, -, hsame⟩ := hagree r hr r' hr' haddress.symm
      rw [hv', hsame k v v' hv hmem]

end Kmdx.Snapshot
