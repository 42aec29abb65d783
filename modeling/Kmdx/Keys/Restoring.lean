import Kmdx.Keys.Bookkeeping

/-!
# What the keys file is good for

The file is one of a manager that has said the same of its accounts (`Filed`); so another manager gets them back from the file
and the directory (`restores`).
-/

namespace Kmdx.Keys

open Rlp P2p ExceptRules Wp

variable {R C : Type} {x : Cryptography R C} {accounts : Address → Option Account} {a : Address} {e : Account} {u : H128}
  {deprecated pass : Bytes} {P : Bytes → Prop} {km km' : KeyManager C} {written : View} {key : FixedHash 16}

/-- Two managers say the same but for the hints. -/
structure Agree (km km' : KeyManager C) : Prop where
  accounts : km.accounts = km'.accounts
  keyInfo : ∀ a, km.m_keyInfo.lookup a = km'.m_keyInfo.lookup a
  addrLookup : ∀ a, km.m_addrLookup.lookup a = km'.m_addrLookup.lookup a
  uuidLookup : ∀ u, km.m_uuidLookup.lookup u = km'.m_uuidLookup.lookup u
  deprecated : km.m_defaultPasswordDeprecated = km'.m_defaultPasswordDeprecated

/-- There is a password for the keys file. -/
structure Opened (x : Cryptography R C) (P : Bytes → Prop) (master : Bytes) (km : KeyManager C) : Prop where
  cached : (km.m_cachedPasswords.lookup km.m_master).isSome
  key_ne : km.m_keysFileKey ≠ 0
  key : km.m_keysFileKey = x.pbkdf2 16 master km.saltFile
  master : P master
  keyPassword : P (hashBytes 16 km.m_keysFileKey)
  defaultPassword : P km.m_defaultPasswordDeprecated

/-- The file of a manager is what one has written that agrees with it. -/
structure Filed (x : Cryptography R C) (P : Bytes → Prop) (master : Bytes) (written : View) (km : KeyManager C) : Prop where
  opened : Opened x P master km
  contents : ∃ km' : KeyManager C, km'.Fits ∧ km.keysFile = x.encryptSymNoAuth km.m_keysFileKey (Tree.list km'.parts).encode ∧
    km'.view = written ∧ Agree km' km

variable {master : Bytes}

theorem Filed.of_caches (h : Filed x P master written km) (hc : Kept.Caches km km') : Filed x P master written km' := by
  obtain ⟨km₀, hfits, hfile, hview, hagree⟩ := h.contents
  have haccounts : km'.accounts = km.accounts := by rw [KeyManager.accounts, hc.keyInfo, hc.keys, KeyManager.accounts]
  have hopened := h.opened
  constructor
  · constructor
    · rw [hc.master]
      exact hc.cachedPasswords _ hopened.cached
    · rw [hc.keysFileKey]
      exact hopened.key_ne
    · rw [hc.keysFileKey, hc.saltFile]
      exact hopened.key
    · exact hopened.master
    · rw [hc.keysFileKey]
      exact hopened.keyPassword
    · rw [hc.deprecated]
      exact hopened.defaultPassword
  · refine ⟨km₀, hfits, ?_, hview, hagree.accounts.trans haccounts.symm, ?_, ?_, ?_, ?_⟩
    · rw [hc.keysFile, hc.keysFileKey, hfile]
    · rw [hc.keyInfo]
      exact hagree.keyInfo
    · rw [hc.addrLookup]
      exact hagree.addrLookup
    · rw [hc.uuidLookup]
      exact hagree.uuidLookup
    · rw [hc.deprecated]
      exact hagree.deprecated

/-! ### Writing -/

namespace KeyManager

theorem run_writeKey {p : Bytes} (hfits : km.Fits) (hp : km.m_cachedPasswords.lookup km.m_master = some p) :
    writeKey x key km = .ok () { km with
      keysFile := x.encryptSymNoAuth key (Tree.list km.parts).encode
      m_keysFileKey := key
      m_cachedPasswords := km.m_cachedPasswords.insert (km.hashPassword x p) p } := by
  rw [writeKey, run_bind_of_ok run_get, run_bind_of_ok (run_lift_ok (output_eq hfits)), run_bind_of_ok (run_modify _)]
  have hdefault : defaultPassword x
      { km with keysFile := x.encryptSymNoAuth key (Tree.list km.parts).encode, m_keysFileKey := key } =
      .ok p { km with keysFile := x.encryptSymNoAuth key (Tree.list km.parts).encode, m_keysFileKey := key } := by
    rw [defaultPassword, run_bind_of_ok run_get, getPasswordByHash, run_bind_of_ok run_get]
    dsimp only
    rw [hp]
    rfl
  rw [run_bind_of_ok hdefault]
  rfl

/-- Whether it throws or not, only the file is another one, and a password may be cached. -/
theorem wp_writeKey_of_inv {I : KeyManager C → Prop} (h : I km)
    (hI : ∀ km keysFile m_keysFileKey m_cachedPasswords, I km → I { km with keysFile, m_keysFileKey, m_cachedPasswords }) :
    wp (writeKey x key) (fun _ => I) (fun _ => I) km := by
  have hwritten : ∀ out, I { km with keysFile := x.encryptSymNoAuth key out, m_keysFileKey := key } := fun out =>
      hI km _ key _ h
  rw [writeKey, wp_bind, wp_get, wp_bind]
  cases hout : (run km.streamRLP {} >>= RLPStream.output) with
  | error e => exact h
  | ok out =>
    refine wp_of_eq_ok (run_lift_ok rfl) ?_
    rw [wp_bind, wp_modify, wp_bind, defaultPassword, wp_bind, wp_get, getPasswordByHash, wp_bind, wp_get]
    dsimp only
    split
    · exact hI _ _ _ _ (hwritten out)
    · exact hwritten out

/-- Where it fits, it has been written. -/
theorem wp_writeKey (h : Kept x deprecated P accounts km) (hcached : (km.m_cachedPasswords.lookup km.m_master).isSome)
    (hkey : key ≠ 0)
    (hmaster : key = x.pbkdf2 16 master km.saltFile) (hp : P master) (hkeyPassword : P (hashBytes 16 key))
    (hdefault : P km.m_defaultPasswordDeprecated) :
    wp (writeKey x key) (fun _ km' => km'.Fits → Kept x deprecated P accounts km' ∧ Filed x P master km'.view km')
      (fun _ km' => ¬ km'.Fits) km := by
  by_cases hfits : km.Fits
  · obtain ⟨p, hcached⟩ := Option.isSome_iff_exists.1 hcached
    refine wp_of_eq_ok (run_writeKey hfits hcached) fun _ => ?_
    have hk := h.cachePassword (h.passwords _ _ hcached).2
    refine ⟨⟨hk.knows, hk.stores, hk.defaultPassword, hk.addrLookup, hk.uuidLookup, hk.keyInfo, hk.passwords⟩, ?_, ?_⟩
    · refine ⟨?_, hkey, hmaster, hp, hkeyPassword, hdefault⟩
      have hhash : km.hashPassword x p = km.m_master := (h.hashPassword p).trans (h.passwords _ _ hcached).1
      show ((km.m_cachedPasswords.insert (km.hashPassword x p) p).lookup km.m_master).isSome
      rw [hhash, AList.lookup_insert]
      rfl
    · exact ⟨km, hfits, rfl, rfl, rfl, fun _ => rfl, fun _ => rfl, fun _ => rfl, rfl⟩
  · have hnot : wp (writeKey x key) (fun _ km' => ¬ km'.Fits) (fun _ km' => ¬ km'.Fits) km :=
      wp_writeKey_of_inv hfits fun _ _ _ _ h => h
    exact wp_mono hnot (fun _ _ hnot hfits' => absurd hfits' hnot) fun _ _ => id

theorem wp_write (h : Kept x deprecated P accounts km) (ho : Opened x P master km) :
    wp (discard (write x)) (fun _ km' => km'.Fits → Kept x deprecated P accounts km' ∧ Filed x P master km'.view km')
      (fun _ km' => ¬ km'.Fits) km := by
  rw [wp_discard, write, wp_bind, wp_get]
  dsimp only
  rw [if_neg ho.key_ne, wp_bind]
  exact wp_writeKey h ho.cached ho.key_ne ho.key ho.master ho.keyPassword ho.defaultPassword

end KeyManager

/-! ### Loading -/

section Loading

variable (h : Kept x deprecated P accounts km) (hagree : Agree km' km)
include h hagree

theorem uuid_eq (ha : accounts a = some e) : km'.uuid a = e.uuid := by
  rw [KeyManager.uuid, hagree.addrLookup, h.addrLookup, ha]
  rfl

theorem account_of_entry {info : Σ _ : Address, KeyInfo} (hinfo : info ∈ km'.m_keyInfo.entries) :
    ∃ e, accounts info.1 = some e ∧ km'.uuid info.1 = e.uuid := by
  have hlookup := h.keyInfo info.1
  rw [← hagree.keyInfo, AList.mem_lookup_iff.2 hinfo] at hlookup
  obtain ⟨e, he, -⟩ := Option.map_eq_some_iff.1 hlookup.symm
  exact ⟨e, he, uuid_eq h hagree he⟩

/-- All keys that the file speaks of are in the directory. -/
theorem stored_of_entry {info : Σ _ : Address, KeyInfo} (hinfo : info ∈ km'.m_keyInfo.entries) :
    KeyManager.Stored (.load km.m_store.files) (km'.uuid info.1) := by
  obtain ⟨e, he, hu⟩ := account_of_entry h hagree hinfo
  obtain ⟨random, hk⟩ := h.stores.key _ e he
  rw [hu]
  exact ⟨h.knows.uuid _ e he, _, (h.stores.load.2 e.uuid).trans hk, (h.knows.address _ e he).1⟩

theorem entry_of_account (ha : accounts a = some e) : ∃ i, (⟨a, i⟩ : Σ _ : Address, KeyInfo) ∈ km'.m_keyInfo.entries := by
  have hlookup := h.keyInfo a
  rw [← hagree.keyInfo, ha] at hlookup
  obtain ⟨i, hi, -⟩ := Option.map_eq_some_iff.1 hlookup
  exact ⟨i, AList.mem_lookup_iff.1 hi⟩

/-- The manager that has loaded the file -/
def KeyManager.reloaded (x : Cryptography R C) (km km' : KeyManager C) (pass : Bytes) : KeyManager C :=
  .loaded x (.make km.m_store.files km.keysFile km.saltFile) km' pass

omit h hagree in
theorem cachedPasswords_reloaded : (KeyManager.reloaded x km km' pass).m_cachedPasswords =
    (((∅ : AList fun _ : FixedHash 32 => Bytes).insert
      (x.pbkdf2 32 km'.m_defaultPasswordDeprecated km'.m_defaultPasswordDeprecated)
      km'.m_defaultPasswordDeprecated).insert
        (x.pbkdf2 32 (hashBytes 16 (x.pbkdf2 16 pass km.saltFile)) km'.m_defaultPasswordDeprecated)
        (hashBytes 16 (x.pbkdf2 16 pass km.saltFile))).insert (x.pbkdf2 32 pass km'.m_defaultPasswordDeprecated) pass := rfl

theorem addrLookup_reloaded (a : Address) : (KeyManager.reloaded x km km' pass).m_addrLookup.lookup a =
    (accounts a).map (·.uuid) := by
  refine AList.lookup_insertAll_of_agree (g := fun a => (accounts a).map (·.uuid)) ?_ ?_
  · intro f hf
    obtain ⟨info, hinfo, rfl⟩ := List.mem_map.1 hf
    obtain ⟨e, he, hu⟩ := account_of_entry h hagree hinfo
    rw [he]
    exact congrArg some hu.symm
  · cases ha : accounts a with
    | some e =>
      obtain ⟨i, hi⟩ := entry_of_account h hagree ha
      rw [List.keys, List.map_map]
      exact .inl (List.mem_map_of_mem hi : Sigma.fst (⟨a, i⟩ : Σ _ : Address, KeyInfo) ∈ _)
    | none =>
      refine .inr (AList.lookup_insertAll_of_agree (g := fun a => (accounts a).map (·.uuid)) ?_ (.inr ?_) |>.trans ?_)
      · intro f hf
        obtain ⟨⟨u, k⟩, hk, rfl⟩ := List.mem_map.1 hf
        obtain ⟨e, he, rfl⟩ := h.stores.load.1.account u k (AList.mem_lookup_iff.2 hk)
        exact congrArg (Option.map _) he
      · rw [ha]
        rfl
      · rw [ha]

theorem uuidLookup_reloaded (u : H128) : (KeyManager.reloaded x km km' pass).m_uuidLookup.lookup u =
    km.m_uuidLookup.lookup u := by
  have hmake : (KeyManager.make km.m_store.files km.keysFile km.saltFile : KeyManager C).m_uuidLookup.lookup u =
      km.m_uuidLookup.lookup u := by
    refine (AList.lookup_insertAll_map (∅ : AList fun _ : H128 => Address) (SecretStore.load km.m_store.files).m_keys
      (fun _ k => k.address) u).trans ?_
    rw [h.stores.load.2 u, h.uuidLookup_eq u]
    cases km.m_store.m_keys.lookup u with
    | none => rfl
    | some k => rfl
  refine AList.lookup_insertAll_of_agree (g := fun u => km.m_uuidLookup.lookup u) ?_ (.inr hmake)
  intro f hf
  obtain ⟨info, hinfo, rfl⟩ := List.mem_map.1 hf
  obtain ⟨e, he, hu⟩ := account_of_entry h hagree hinfo
  exact (h.uuidLookup _ _).2 ⟨e, he, hu.symm⟩

omit h in
theorem keyInfo_reloaded (a : Address) : (KeyManager.reloaded x km km' pass).m_keyInfo.lookup a = km.m_keyInfo.lookup a := by
  refine (AList.lookup_insertAll_entries (∅ : AList fun _ : Address => KeyInfo) km'.m_keyInfo a).trans ?_
  rw [hagree.keyInfo a]
  cases km.m_keyInfo.lookup a with
  | none => rfl
  | some i => rfl

theorem kept_reloaded (ho : Opened x P pass km) : Kept x deprecated P accounts (KeyManager.reloaded x km km' pass) := by
  have hdeprecated : km'.m_defaultPasswordDeprecated = deprecated := hagree.deprecated.trans h.defaultPassword
  have hkey : x.pbkdf2 16 pass km.saltFile = km.m_keysFileKey := ho.key.symm
  refine ⟨h.knows, h.stores.load.1, hdeprecated, fun a => addrLookup_reloaded h hagree a, fun u a => ?_, fun a => ?_, ?_⟩
  · rw [uuidLookup_reloaded h hagree u]
    exact h.uuidLookup u a
  · rw [keyInfo_reloaded hagree a]
    exact h.keyInfo a
  · have hempty : ∀ i q, (∅ : AList fun _ : FixedHash 32 => Bytes).lookup i = some q →
        x.pbkdf2 32 q deprecated = i ∧ P q := by
      rintro i q ⟨⟩
    rw [cachedPasswords_reloaded, hdeprecated, hkey]
    have hfirst := Kept.passwords_insert hempty (h.defaultPassword ▸ ho.defaultPassword : P deprecated)
    exact Kept.passwords_insert (Kept.passwords_insert hfirst ho.keyPassword) ho.master

theorem filed_reloaded (ho : Opened x P pass km) (hfits : km'.Fits)
    (hfile : km.keysFile = x.encryptSymNoAuth km.m_keysFileKey (Tree.list km'.parts).encode) :
    Filed x P pass km'.view (KeyManager.reloaded x km km' pass) := by
  have hkept := kept_reloaded h hagree ho
  have hkey : x.pbkdf2 16 pass km.saltFile = km.m_keysFileKey := ho.key.symm
  have haccounts : km'.accounts = (KeyManager.reloaded x km km' pass).accounts := hagree.accounts.trans (h.accounts_eq hkept)
  refine ⟨⟨?_, ?_, rfl, ho.master, ?_, ?_⟩, km', hfits, ?_, rfl, haccounts, ?_, ?_, ?_, rfl⟩
  · rw [cachedPasswords_reloaded, show (KeyManager.reloaded x km km' pass).m_master =
      x.pbkdf2 32 pass km'.m_defaultPasswordDeprecated
      from rfl, AList.lookup_insert]
    rfl
  · show x.pbkdf2 16 pass km.saltFile ≠ 0
    rw [hkey]
    exact ho.key_ne
  · show P (hashBytes 16 (x.pbkdf2 16 pass km.saltFile))
    rw [hkey]
    exact ho.keyPassword
  · show P km'.m_defaultPasswordDeprecated
    rw [hagree.deprecated]
    exact ho.defaultPassword
  · show km.keysFile = x.encryptSymNoAuth (x.pbkdf2 16 pass km.saltFile) _
    rw [hkey]
    exact hfile
  · exact fun a => (hagree.keyInfo a).trans (keyInfo_reloaded hagree a).symm
  · exact fun a => (hagree.addrLookup a).trans ((h.addrLookup a).trans (addrLookup_reloaded h hagree a).symm)
  · exact fun u => (hagree.uuidLookup u).trans (uuidLookup_reloaded h hagree u).symm

theorem view_reloaded (ho : Opened x P pass km) : (KeyManager.reloaded x km km' pass).view = km'.view := by
  have hhints : ∀ i, (KeyManager.reloaded x km km' pass).m_passwordHint.lookup i = km'.m_passwordHint.lookup i := by
    intro i
    refine (AList.lookup_insertAll_entries (∅ : AList fun _ : FixedHash 32 => Bytes) km'.m_passwordHint i).trans ?_
    cases km'.m_passwordHint.lookup i with
    | none => rfl
    | some hint => rfl
  have haccounts := (kept_reloaded h hagree ho).accounts_eq h
  rw [KeyManager.view, KeyManager.view, View.mk.injEq]
  refine ⟨haccounts.trans hagree.accounts.symm, funext fun a => ?_, funext hhints, funext fun a => ?_, funext fun u => ?_⟩
  · exact (keyInfo_reloaded hagree a).trans (hagree.keyInfo a).symm
  · exact (addrLookup_reloaded h hagree a).trans ((h.addrLookup a).symm.trans (hagree.addrLookup a).symm)
  · exact (uuidLookup_reloaded h hagree u).trans (hagree.uuidLookup u).symm

end Loading

/-- Another manager says what has been written. -/
theorem restores (hx : x.Ideal) (h : Kept x deprecated P accounts km) (hf : Filed x P pass written km) :
    ∃ km', KeyManager.load x pass (.make km.m_store.files km.keysFile km.saltFile) = .ok true km' ∧
      Kept x deprecated P accounts km' ∧ Filed x P pass written km' ∧ km'.view = written := by
  obtain ⟨ho, km₀, hfits, hfile, hview, hagree⟩ := hf
  have hne : (Tree.list km₀.parts).encode ≠ [] := (@isItem_encode (.list km₀.parts) hfits).ne_nil
  have hkey : x.pbkdf2 16 pass km.saltFile = km.m_keysFileKey := ho.key.symm
  have hload : KeyManager.load x pass (.make km.m_store.files km.keysFile km.saltFile) =
      .ok true (.reloaded x km km₀ pass) := by
    refine KeyManager.run_load hfits (fun info hi => stored_of_entry h hagree hi) ?_ ?_
    · show km.keysFile ≠ []
      rw [hfile]
      exact hx.encryptSym_ne_nil _ _ hne
    · show x.decryptSymNoAuth (x.pbkdf2 16 pass km.saltFile) km.keysFile = _
      rw [hkey, hfile, hx.decrypt_encryptSym]
  refine ⟨_, hload, kept_reloaded h hagree ho, ?_, (view_reloaded h hagree ho).trans hview⟩
  rw [← hview]
  exact filed_reloaded h hagree ho hfits hfile

end Kmdx.Keys
