import Kmdx.Keys.Histories
import Kmdx.Keys.KeysFile

/-!
# What keeps the books right

The accounts determine all lookups and what is in the store, as long as no address has two keys (`Kept`).
-/

namespace Kmdx.Keys

open Rlp P2p ExceptRules Wp Function

variable {R C : Type} {x : Cryptography R C} {accounts : Address → Option Account} {a a' : Address}
    {e e' : Account} {u : H128}

/-- An ideal encryption: a key is decrypted with its password only. -/
structure Cryptography.Ideal (x : Cryptography R C) : Prop where
  decrypt_encrypt : ∀ m p r, x.decrypt (x.encrypt m p r) p = m
  decrypt_of_ne : ∀ m p r p', p' ≠ p → x.decrypt (x.encrypt m p r) p' = []
  decrypt_encryptSym : ∀ k b, x.decryptSymNoAuth k (x.encryptSymNoAuth k b) = b
  encryptSym_ne_nil : ∀ k b, b ≠ [] → x.encryptSymNoAuth k b ≠ []

/-! ### The store -/

/-- The key of an account -/
def Cryptography.keyOf (x : Cryptography R C) (a : Address) (e : Account) (random : R) : EncryptedKey C where
  encryptedKey := x.encrypt (hashBytes 32 e.secret) e.password random
  filename := some e.uuid
  address := a

/-- The keys of a store are the ones of the accounts. -/
structure Stores (x : Cryptography R C) (accounts : Address → Option Account) (st : SecretStore C) : Prop where
  key : ∀ a e, accounts a = some e → ∃ random, st.m_keys.lookup e.uuid = some (x.keyOf a e random)
  account : ∀ u k, st.m_keys.lookup u = some k → ∃ e, accounts k.address = some e ∧ e.uuid = u
  cached : ∀ u b, st.m_cached.lookup u = some b → ∃ a e, accounts a = some e ∧ e.uuid = u ∧ b = hashBytes 32 e.secret
  files : ∀ u, st.files.lookup u = (st.m_keys.lookup u).map fun k => (k.encryptedKey, k.address)

namespace Stores

variable {st : SecretStore C}

theorem eq_of_uuid (h : Stores x accounts st) (ha : accounts a = some e) (ha' : accounts a' = some e')
    (hu : e.uuid = e'.uuid) : a = a' := by
  obtain ⟨random, hk⟩ := h.key a e ha
  obtain ⟨random', hk'⟩ := h.key a' e' ha'
  rw [hu] at hk
  exact congrArg EncryptedKey.address (Option.some.inj (hk.symm.trans hk'))

theorem lookup_eq_none (h : Stores x accounts st) (hu : ∀ a e, accounts a = some e → e.uuid ≠ u) :
    st.m_keys.lookup u = none := by
  cases hk : st.m_keys.lookup u with
  | none => rfl
  | some k =>
    obtain ⟨e, he, heu⟩ := h.account u k hk
    exact absurd heu (hu _ e he)

/-- The file of a key has its name, if it has been saved. -/
theorem filename (h : Stores x accounts st) {k : EncryptedKey C} (hk : st.m_keys.lookup u = some k) :
    k.filename = some u := by
  obtain ⟨e, he, rfl⟩ := h.account u k hk
  obtain ⟨random, hk'⟩ := h.key _ e he
  rw [Option.some.inj (hk.symm.trans hk')]
  rfl

end Stores

namespace SecretStore

variable {st : SecretStore C}

theorem saveFile_eq {files : AList fun _ : H128 => C × Address} {k : Σ _ : H128, EncryptedKey C}
    (hk : k.2.filename = none ∨ k.2.filename = some k.1) :
    saveFile files k = files.insert k.1 (k.2.encryptedKey, k.2.address) := by
  rw [saveFile]
  rcases hk with hk | hk
  · rw [hk]
  · rw [hk]
    exact if_pos rfl

/-- Where no file has another name -/
theorem save_eq (h : ∀ u k, st.m_keys.lookup u = some k → k.filename = none ∨ k.filename = some u) :
    st.save = { st with
        m_keys := st.m_keys.insertAll (st.m_keys.entries.map fun k => ⟨k.1, { k.2 with filename := some k.1 }⟩)
        files := st.files.insertAll (st.m_keys.entries.map fun k => ⟨k.1, (k.2.encryptedKey, k.2.address)⟩) } := by
  have hfold : ∀ (ks : List (Σ _ : H128, EncryptedKey C)) (files : AList fun _ : H128 => C × Address),
      (∀ k ∈ ks, k.2.filename = none ∨ k.2.filename = some k.1) →
      ks.foldl saveFile files = files.insertAll (ks.map fun k => ⟨k.1, (k.2.encryptedKey, k.2.address)⟩) := by
    intro ks
    induction ks with
    | nil => exact fun _ _ => rfl
    | cons k ks ih =>
      intro files hks
      rw [List.foldl_cons, saveFile_eq (hks k List.mem_cons_self), ih _ fun k' hk' => hks k' (List.mem_cons_of_mem _ hk')]
      rfl
  rw [save, hfold _ _ fun k hk => h k.1 k.2 (AList.mem_lookup_iff.2 hk)]

theorem lookup_save (h : ∀ u k, st.m_keys.lookup u = some k → k.filename = none ∨ k.filename = some u) (u : H128) :
    st.save.m_keys.lookup u = (st.m_keys.lookup u).map fun k => { k with filename := some u } := by
  rw [save_eq h]
  refine (AList.lookup_insertAll_map st.m_keys st.m_keys (fun u k => { k with filename := some u }) u).trans ?_
  cases st.m_keys.lookup u with
  | none => rfl
  | some k => rfl

theorem files_save (h : ∀ u k, st.m_keys.lookup u = some k → k.filename = none ∨ k.filename = some u) (u : H128) :
    st.save.files.lookup u = ((st.m_keys.lookup u).map fun k => (k.encryptedKey, k.address)).or (st.files.lookup u) := by
  rw [save_eq h]
  exact AList.lookup_insertAll_map st.files st.m_keys (fun _ k => (k.encryptedKey, k.address)) u

end SecretStore

namespace Stores

variable {st : SecretStore C}

theorem map_filename (h : Stores x accounts st) (u : H128) :
    ((st.m_keys.lookup u).map fun k => { k with filename := some u }) = st.m_keys.lookup u := by
  cases hk : st.m_keys.lookup u with
  | none => rfl
  | some k => rw [Option.map_some, ← h.filename hk]

/-- What is in a store behind one key -/
structure Sets (st st' : SecretStore C) (u : H128) (k : EncryptedKey C) : Prop where
  m_keys : ∀ v, st'.m_keys.lookup v = if v = u then some k else st.m_keys.lookup v
  files : ∀ v, st'.files.lookup v = if v = u then some (k.encryptedKey, k.address) else st.files.lookup v

section

variable (h : Stores x accounts st)
include h

/-- A key that is put into the store, or changed, is saved. -/
theorem sets_save {k : EncryptedKey C} (hk : k.filename = none ∨ k.filename = some u)
    (m_cached : AList fun _ : H128 => Bytes) :
    Sets st ({ st with m_cached, m_keys := st.m_keys.insert u k } : SecretStore C).save u { k with filename := some u } := by
  have hnames : ∀ v k', (st.m_keys.insert u k).lookup v = some k' → k'.filename = none ∨ k'.filename = some v := by
    intro v k' hk'
    by_cases hv : v = u
    · subst hv
      rw [AList.lookup_insert] at hk'
      rwa [← Option.some.inj hk']
    · rw [AList.lookup_insert_ne hv] at hk'
      exact .inr (h.filename hk')
  constructor
  · intro v
    rw [SecretStore.lookup_save hnames]
    by_cases hv : v = u
    · subst hv
      rw [AList.lookup_insert, if_pos rfl]
      rfl
    · rw [AList.lookup_insert_ne hv, if_neg hv, h.map_filename]
  · intro v
    rw [SecretStore.files_save hnames]
    by_cases hv : v = u
    · subst hv
      rw [AList.lookup_insert, if_pos rfl]
      rfl
    · rw [AList.lookup_insert_ne hv, if_neg hv, h.files v]
      cases st.m_keys.lookup v with
      | none => rfl
      | some k => rfl

/-- The key is the only one of its address. -/
theorem update {st' : SecretStore C} {random : R} (hsets : Sets st st' e.uuid (x.keyOf a e random))
    (huuid : ∀ a' e', accounts a' = some e' → a' ≠ a → e'.uuid ≠ e.uuid)
    (hold : ∀ e', accounts a = some e' → e'.uuid = e.uuid)
    (hcached : ∀ v b, st'.m_cached.lookup v = some b → v = e.uuid ∧ b = hashBytes 32 e.secret ∨
      v ≠ e.uuid ∧ st.m_cached.lookup v = some b) : Stores x (Function.update accounts a (some e)) st' := by
  have hother : ∀ {a' e'}, accounts a' = some e' → e'.uuid ≠ e.uuid → Function.update accounts a (some e) a' = some e' := by
    intro a' e' he' hne
    rw [Function.update_of_ne]
    · exact he'
    · rintro rfl
      exact hne (hold e' he')
  constructor
  · intro a' e' ha'
    rw [hsets.m_keys]
    by_cases hnew : a' = a
    · subst hnew
      rw [update_self] at ha'
      cases ha'
      exact ⟨random, if_pos rfl⟩
    · rw [Function.update_of_ne hnew] at ha'
      rw [if_neg (huuid a' e' ha' hnew)]
      exact h.key a' e' ha'
  · intro u k hk
    rw [hsets.m_keys] at hk
    by_cases hu : u = e.uuid
    · rw [if_pos hu] at hk
      cases hk
      exact ⟨e, update_self _ _ _, hu.symm⟩
    · rw [if_neg hu] at hk
      obtain ⟨e', he', rfl⟩ := h.account u k hk
      exact ⟨e', hother he' hu, rfl⟩
  · intro v b hb
    rcases hcached v b hb with ⟨hv, hb⟩ | ⟨hv, hb⟩
    · exact ⟨a, e, update_self _ _ _, hv.symm, hb⟩
    · obtain ⟨a', e', he', hu, hb⟩ := h.cached v b hb
      exact ⟨a', e', hother he' (hu ▸ hv), hu, hb⟩
  · intro v
    rw [hsets.files, hsets.m_keys]
    split
    · rfl
    · exact h.files v

/-- A key for an address that has none -/
theorem importSecret {s : Secret} {pass : Bytes} {r : H128} (random : R)
    (hfresh : accounts (x.keyAddress s) = none) (hr : ∀ a e, accounts a = some e → e.uuid ≠ r) :
    Stores x (Function.update accounts (x.keyAddress s) (some ⟨r, s, pass⟩))
      (st.importSecret x (hashBytes 32 s) pass r random) := by
  have hsets := h.sets_save (u := r)
    (k := { encryptedKey := x.encrypt (hashBytes 32 s) pass random, filename := none,
            address := x.keyAddress (ofRef 32 (hashBytes 32 s)) })
    (.inl rfl) (st.m_cached.insert r (hashBytes 32 s))
  rw [show x.keyAddress (ofRef 32 (hashBytes 32 s)) = x.keyAddress s by rw [ofRef_hashBytes]] at hsets
  have himport : st.importSecret x (hashBytes 32 s) pass r random = ({ st with
      m_cached := st.m_cached.insert r (hashBytes 32 s)
      m_keys := st.m_keys.insert r { encryptedKey := x.encrypt (hashBytes 32 s) pass random, filename := none,
                                     address := x.keyAddress s } } : SecretStore C).save := by
    rw [SecretStore.importSecret, ofRef_hashBytes]
  rw [himport]
  refine update (e := ⟨r, s, pass⟩) h hsets (fun a e he _ => hr a e he) ?_ ?_
  · intro e he
    cases hfresh.symm.trans he
  · intro v b hb
    have hb : (st.m_cached.insert r (hashBytes 32 s)).lookup v = some b := hb
    by_cases hv : v = r
    · subst hv
      rw [AList.lookup_insert] at hb
      exact .inl ⟨rfl, (Option.some.inj hb).symm⟩
    · rw [AList.lookup_insert_ne hv] at hb
      exact .inr ⟨hv, hb⟩

/-- The key of an account with another password -/
theorem recode (ha : accounts a = some e) (newPass : Bytes) (random : R) :
    Stores x (History.withPassword accounts a newPass)
      (({ st with m_cached := st.m_cached.erase e.uuid } : SecretStore C).setEncryptedKey e.uuid
        (x.encrypt (hashBytes 32 e.secret) newPass random)).save := by
  obtain ⟨random', hk⟩ := h.key a e ha
  have hsets := h.sets_save
    (k := { x.keyOf a e random' with encryptedKey := x.encrypt (hashBytes 32 e.secret) newPass random })
    (.inr rfl) (st.m_cached.erase e.uuid)
  have hset : ({ st with m_cached := st.m_cached.erase e.uuid } : SecretStore C).setEncryptedKey e.uuid
      (x.encrypt (hashBytes 32 e.secret) newPass random) = { st with
        m_cached := st.m_cached.erase e.uuid
        m_keys := st.m_keys.insert e.uuid
          { x.keyOf a e random' with encryptedKey := x.encrypt (hashBytes 32 e.secret) newPass random } } := by
    rw [SecretStore.setEncryptedKey, hk]
    rfl
  rw [hset, History.withPassword, ha]
  refine update (e := { e with password := newPass }) h hsets ?_ ?_ ?_
  · exact fun a' e' he' hne hu => hne (h.eq_of_uuid he' ha hu)
  · intro e' he'
    cases ha.symm.trans he'
    rfl
  · intro v b hb
    have hb : (st.m_cached.erase e.uuid).lookup v = some b := hb
    by_cases hv : v = e.uuid
    · rw [hv, AList.lookup_erase] at hb
      cases hb
    · rw [AList.lookup_erase_ne hv] at hb
      exact .inr ⟨hv, hb⟩

theorem kill (ha : accounts a = some e) : Stores x (Function.update accounts a none) (st.kill e.uuid) := by
  obtain ⟨random, hk⟩ := h.key a e ha
  have hkill : st.kill e.uuid =
      { m_cached := st.m_cached.erase e.uuid, m_keys := st.m_keys.erase e.uuid, files := st.files.erase e.uuid } := by
    rw [SecretStore.kill]
    dsimp only
    rw [hk]
    rfl
  have hother : ∀ {a' e'}, accounts a' = some e' → e'.uuid ≠ e.uuid → Function.update accounts a none a' = some e' := by
    intro a' e' he' hne
    rw [Function.update_of_ne]
    · exact he'
    · rintro rfl
      cases ha.symm.trans he'
      exact hne rfl
  rw [hkill]
  constructor
  · intro a' e' ha'
    by_cases hnew : a' = a
    · subst hnew
      rw [update_self] at ha'
      cases ha'
    · rw [Function.update_of_ne hnew] at ha'
      rw [AList.lookup_erase_ne fun hu => hnew (h.eq_of_uuid ha' ha hu)]
      exact h.key a' e' ha'
  · intro u k hk
    by_cases hu : u = e.uuid
    · rw [hu, AList.lookup_erase] at hk
      cases hk
    · rw [AList.lookup_erase_ne hu] at hk
      obtain ⟨e', he', rfl⟩ := h.account u k hk
      exact ⟨e', hother he' hu, rfl⟩
  · intro u b hb
    by_cases hu : u = e.uuid
    · rw [hu, AList.lookup_erase] at hb
      cases hb
    · rw [AList.lookup_erase_ne hu] at hb
      obtain ⟨a', e', he', hu', hb⟩ := h.cached u b hb
      exact ⟨a', e', hother he' (hu' ▸ hu), hu', hb⟩
  · intro u
    by_cases hu : u = e.uuid
    · rw [hu, AList.lookup_erase, AList.lookup_erase]
      rfl
    · rw [AList.lookup_erase_ne hu, AList.lookup_erase_ne hu, h.files u]

/-- Where no account has the key -/
theorem kill_of_ne (hu : ∀ a e, accounts a = some e → e.uuid ≠ u) : Stores x accounts (st.kill u) := by
  have hkill : st.kill u = { st with m_cached := st.m_cached.erase u } := by
    rw [SecretStore.kill]
    dsimp only
    rw [h.lookup_eq_none hu]
  rw [hkill]
  refine ⟨h.key, h.account, fun v b hb => ?_, h.files⟩
  have hb : (st.m_cached.erase u).lookup v = some b := hb
  by_cases hv : v = u
  · rw [hv, AList.lookup_erase] at hb
    cases hb
  · rw [AList.lookup_erase_ne hv] at hb
    exact h.cached v b hb

/-- A key that has been decrypted -/
theorem cache (ha : accounts a = some e) :
    Stores x accounts { st with m_cached := st.m_cached.insert e.uuid (hashBytes 32 e.secret) } := by
  refine ⟨h.key, h.account, ?_, h.files⟩
  intro u b hb
  by_cases hu : u = e.uuid
  · rw [hu, AList.lookup_insert] at hb
    exact ⟨a, e, ha, hu.symm, (Option.some.inj hb).symm⟩
  · rw [AList.lookup_insert_ne hu] at hb
    exact h.cached u b hb

/-- The files are enough. -/
theorem load : Stores x accounts (.load st.files) ∧ ∀ u,
    (SecretStore.load st.files).m_keys.lookup u = st.m_keys.lookup u := by
  have hkeys : ∀ u, (SecretStore.load st.files).m_keys.lookup u = st.m_keys.lookup u := by
    intro u
    refine (AList.lookup_insertAll_map (∅ : AList fun _ : H128 => EncryptedKey C) st.files
      (fun u f => { encryptedKey := f.1, filename := some u, address := f.2 }) u).trans ?_
    rw [h.files u]
    cases hk : st.m_keys.lookup u with
    | none => rfl
    | some k =>
      show some _ = some k
      rw [← h.filename hk]
  refine ⟨⟨?_, ?_, fun u b hb => ?_, ?_⟩, hkeys⟩
  · intro a e ha
    rw [hkeys]
    exact h.key a e ha
  · intro u k hk
    rw [hkeys] at hk
    exact h.account u k hk
  · cases hb
  · intro u
    rw [hkeys]
    exact h.files u

end

end Stores

/-! ### The manager -/

/-- What the user knows. Of the passwords, no two have the same hash. -/
structure Knows (x : Cryptography R C) (deprecated : Bytes) (P : Bytes → Prop)
    (accounts : Address → Option Account) : Prop where
  address : ∀ a e, accounts a = some e → a ≠ 0 ∧ x.keyAddress e.secret = a
  uuid : ∀ a e, accounts a = some e → e.uuid ≠ 0
  password : ∀ a e, accounts a = some e → P e.password
  distinct : ∀ p p', P p → P p' → x.pbkdf2 32 p deprecated = x.pbkdf2 32 p' deprecated → p = p'

/-- A manager has the accounts that its user knows of. -/
structure Kept (x : Cryptography R C) (deprecated : Bytes) (P : Bytes → Prop) (accounts : Address → Option Account)
    (km : KeyManager C) : Prop where
  knows : Knows x deprecated P accounts
  stores : Stores x accounts km.m_store
  defaultPassword : km.m_defaultPasswordDeprecated = deprecated
  addrLookup : ∀ a, km.m_addrLookup.lookup a = (accounts a).map (·.uuid)
  uuidLookup : ∀ u a, km.m_uuidLookup.lookup u = some a ↔ ∃ e, accounts a = some e ∧ e.uuid = u
  keyInfo : ∀ a, (km.m_keyInfo.lookup a).map (·.passHash) = (accounts a).map fun e => x.pbkdf2 32 e.password deprecated
  passwords : ∀ i p, km.m_cachedPasswords.lookup i = some p → x.pbkdf2 32 p deprecated = i ∧ P p

namespace Kept

variable {deprecated : Bytes} {P : Bytes → Prop} {km : KeyManager C} {p pass : Bytes}

section

variable (h : Kept x deprecated P accounts km)
include h

theorem hashPassword (p : Bytes) : km.hashPassword x p = x.pbkdf2 32 p deprecated := by
  rw [KeyManager.hashPassword, h.defaultPassword]

theorem uuidLookup_eq (u : H128) : km.m_uuidLookup.lookup u = (km.m_store.m_keys.lookup u).map (·.address) := by
  cases hk : km.m_store.m_keys.lookup u with
  | none =>
    cases hu : km.m_uuidLookup.lookup u with
    | none => rfl
    | some a =>
      obtain ⟨e, he, rfl⟩ := (h.uuidLookup u a).1 hu
      obtain ⟨random, hk'⟩ := h.stores.key a e he
      cases hk.symm.trans hk'
  | some k => exact (h.uuidLookup u k.address).2 (h.stores.account u k hk)

theorem hasAccount_iff (a : Address) : km.hasAccount a = true ↔ accounts a ≠ none := by
  rw [KeyManager.hasAccount]
  cases he : accounts a with
  | some e =>
    have ha := (h.knows.address a e he).1
    have hinfo := h.keyInfo a
    rw [he] at hinfo
    obtain ⟨i, hi, -⟩ := Option.map_eq_some_iff.1 hinfo
    rw [if_neg ha, hi]
    exact iff_of_true rfl (Option.some_ne_none e)
  | none =>
    have hinfo := h.keyInfo a
    rw [he, Option.map_none, Option.map_eq_none_iff] at hinfo
    refine iff_of_false ?_ (not_not.2 rfl)
    split
    · exact Bool.false_ne_true
    · rw [hinfo, Option.isSome_none, Bool.false_or, List.any_eq_true]
      rintro ⟨⟨u, k⟩, hk, hka⟩
      obtain ⟨e, he', -⟩ := h.stores.account u k (AList.mem_lookup_iff.2 hk)
      rw [of_decide_eq_true hka, he] at he'
      cases he'

theorem mem_addresses_iff (a : Address) :
    a ∈ (km.m_keyInfo.keys ++ km.m_store.m_keys.entries.map fun k => k.2.address).toFinset ↔ accounts a ≠ none := by
  rw [List.mem_toFinset, List.mem_append, List.mem_map]
  constructor
  · rintro (ha | ⟨⟨u, k⟩, hk, rfl⟩) hnone
    · have hinfo := h.keyInfo a
      rw [hnone, Option.map_none, Option.map_eq_none_iff] at hinfo
      exact AList.lookup_eq_none.1 hinfo ha
    · obtain ⟨e, he, -⟩ := h.stores.account u k (AList.mem_lookup_iff.2 hk)
      cases hnone.symm.trans he
  · intro hsome
    obtain ⟨e, he⟩ := Option.ne_none_iff_exists'.1 hsome
    have hinfo := h.keyInfo a
    rw [he] at hinfo
    obtain ⟨i, hi, -⟩ := Option.map_eq_some_iff.1 hinfo
    exact .inl (AList.lookup_isSome.1 (Option.isSome_iff_exists.2 ⟨i, hi⟩))

theorem mem_accounts_iff (a : Address) : a ∈ km.accounts ↔ accounts a ≠ none := by
  rw [KeyManager.accounts, List.mem_filter, Finset.mem_sort, h.mem_addresses_iff, decide_eq_true_iff, and_iff_left_iff_imp]
  intro hsome
  obtain ⟨e, he⟩ := Option.ne_none_iff_exists'.1 hsome
  exact (BitVec.pos_iff_ne_zero a).2 (h.knows.address a e he).1

/-- The accounts of a manager are the ones that its user knows of. -/
theorem accounts_eq {km' : KeyManager C} (h' : Kept x deprecated P accounts km') : km.accounts = km'.accounts := by
  have hsame : (km.m_keyInfo.keys ++ km.m_store.m_keys.entries.map fun k => k.2.address).toFinset =
      (km'.m_keyInfo.keys ++ km'.m_store.m_keys.entries.map fun k => k.2.address).toFinset :=
    Finset.ext fun a => (h.mem_addresses_iff a).trans (h'.mem_addresses_iff a).symm
  rw [KeyManager.accounts, hsame, KeyManager.accounts]

end

/-! ### Passwords and secrets -/

theorem passwords_insert {m : AList fun _ : FixedHash 32 => Bytes}
    (hm : ∀ i q, m.lookup i = some q → x.pbkdf2 32 q deprecated = i ∧ P q) (hp : P p) (i : FixedHash 32) (q : Bytes)
    (hq : (m.insert (x.pbkdf2 32 p deprecated) p).lookup i = some q) : x.pbkdf2 32 q deprecated = i ∧ P q := by
  by_cases hi : i = x.pbkdf2 32 p deprecated
  · rw [hi, AList.lookup_insert] at hq
    cases hq
    exact ⟨hi.symm, hp⟩
  · rw [AList.lookup_insert_ne hi] at hq
    exact hm i q hq

theorem cachePassword (h : Kept x deprecated P accounts km) (hp : P p) :
    Kept x deprecated P accounts { km with m_cachedPasswords := km.m_cachedPasswords.insert (km.hashPassword x p) p } := by
  rw [h.hashPassword]
  exact ⟨h.knows, h.stores, h.defaultPassword, h.addrLookup, h.uuidLookup, h.keyInfo, passwords_insert h.passwords hp⟩

/-- Nothing but what is cached has changed. -/
structure Caches (km km' : KeyManager C) : Prop where
  keyInfo : km'.m_keyInfo = km.m_keyInfo
  passwordHint : km'.m_passwordHint = km.m_passwordHint
  addrLookup : km'.m_addrLookup = km.m_addrLookup
  uuidLookup : km'.m_uuidLookup = km.m_uuidLookup
  deprecated : km'.m_defaultPasswordDeprecated = km.m_defaultPasswordDeprecated
  keysFileKey : km'.m_keysFileKey = km.m_keysFileKey
  master : km'.m_master = km.m_master
  cachedPasswords : ∀ i, (km.m_cachedPasswords.lookup i).isSome → (km'.m_cachedPasswords.lookup i).isSome
  keys : km'.m_store.m_keys = km.m_store.m_keys
  files : km'.m_store.files = km.m_store.files
  keysFile : km'.keysFile = km.keysFile
  saltFile : km'.saltFile = km.saltFile

theorem Caches.refl (km : KeyManager C) : Caches km km := ⟨rfl, rfl, rfl, rfl, rfl, rfl, rfl, fun _ => id, rfl, rfl, rfl, rfl⟩

/-- What only caches, what it gives then, and whether it may throw -/
def Keeps {α : Type} (x : Cryptography R C) (deprecated : Bytes) (P : Bytes → Prop)
    (accounts : Address → Option Account) (km : KeyManager C) (T : α → Prop) (F : Prop) (y : M C α) : Prop :=
  wp y (fun b km' => T b ∧ Kept x deprecated P accounts km' ∧ Caches km km')
    (fun _ km' => F ∧ Kept x deprecated P accounts km' ∧ Caches km km') km

section

variable (h : Kept x deprecated P accounts km)
include h

theorem keeps_pure {α : Type} {T : α → Prop} {F : Prop} {b : α} (hb : T b) :
    Keeps x deprecated P accounts km T F (pure b) := ⟨hb, h, .refl km⟩

theorem keeps_cachePassword {F : Prop} (hp : P p) :
    Keeps x deprecated P accounts km (fun _ => True) F (KeyManager.cachePassword x p) := by
  refine ⟨trivial, h.cachePassword hp, rfl, rfl, rfl, rfl, rfl, rfl, rfl, fun i hi => ?_, rfl, rfl, rfl, rfl⟩
  show ((km.m_cachedPasswords.insert (km.hashPassword x p) p).lookup i).isSome
  by_cases hik : i = km.hashPassword x p
  · rw [hik, AList.lookup_insert]
    rfl
  · rwa [AList.lookup_insert_ne hik]

theorem keeps_askPassword {pass : Answers} (hpass : ∀ i p, pass i = some p → P p)
    (passHash : FixedHash 32) (n i : Nat) :
    Keeps x deprecated P accounts km (fun _ => True) True (KeyManager.askPassword x passHash pass n i) := by
  induction n generalizing i with
  | zero => exact keeps_pure h trivial
  | succ n ih =>
    rw [KeyManager.askPassword]
    cases hp : pass i with
    | none => exact ⟨trivial, h, .refl km⟩
    | some p =>
      dsimp only
      split
      · exact keeps_pure h trivial
      · rw [Keeps, wp_bind, wp_get]
        split
        · rw [wp_bind]
          exact wp_mono (keeps_cachePassword (F := True) h (hpass i p hp)) (fun _ _ hq => hq) fun _ _ hq => hq
        · exact ih (i + 1)

theorem keeps_getPassword {pass : Answers} (hpass : ∀ i p, pass i = some p → P p) (u : H128) :
    Keeps x deprecated P accounts km (fun _ => True) True (KeyManager.getPassword x u pass) := by
  rw [Keeps, KeyManager.getPassword, wp_bind, wp_get, KeyManager.getPasswordByHash, wp_bind, wp_get]
  split
  · exact keeps_pure h trivial
  · exact h.keeps_askPassword hpass _ 10 0

/-- The right password is the one that is given. -/
theorem keeps_getPassword_right (ha : accounts a = some e) :
    Keeps x deprecated P accounts km (· = e.password) False (KeyManager.getPassword x e.uuid fun _ => some e.password) := by
  have hP := h.knows.password a e ha
  have hhash : km.passHashOf e.uuid = x.pbkdf2 32 e.password deprecated := by
    have hinfo := h.keyInfo a
    rw [ha] at hinfo
    obtain ⟨i, hi, hpass⟩ := Option.map_eq_some_iff.1 hinfo
    rw [KeyManager.passHashOf, (h.uuidLookup e.uuid a).2 ⟨e, ha, rfl⟩]
    dsimp only
    rw [hi]
    exact hpass
  rw [Keeps, KeyManager.getPassword, wp_bind, wp_get, hhash, KeyManager.getPasswordByHash, wp_bind, wp_get]
  split
  · rename_i p hp
    obtain ⟨heq, hp⟩ := h.passwords _ _ hp
    exact keeps_pure h (h.knows.distinct p e.password hp hP heq)
  · rw [KeyManager.askPassword]
    dsimp only
    split
    · rename_i hempty
      exact keeps_pure h hempty.symm
    · rw [wp_bind, wp_get, if_pos (.inr (h.hashPassword e.password)), wp_bind]
      exact wp_mono (keeps_cachePassword (F := False) h hP) (fun _ _ hq => ⟨rfl, hq.2⟩) fun _ _ hq => hq

/-- A key that has been decrypted is cached, and its address is known. -/
theorem cacheKey (ha : accounts a = some e) {m_store : SecretStore C}
    (hstore : m_store = { km.m_store with m_cached := km.m_store.m_cached.insert e.uuid (hashBytes 32 e.secret) }) :
    Kept x deprecated P accounts { km with m_store } :=
  ⟨h.knows, hstore ▸ h.stores.cache ha, h.defaultPassword, h.addrLookup, h.uuidLookup, h.keyInfo, h.passwords⟩

theorem noteAddress_eq (ha : accounts a = some e) (m_cached : AList fun _ : H128 => Bytes)
    (address : Address) : (({ km.m_store with m_cached } : SecretStore C).noteAddress e.uuid address).2 =
      { km.m_store with m_cached } := by
  obtain ⟨random, hk⟩ := h.stores.key a e ha
  rw [SecretStore.noteAddress]
  dsimp only
  rw [hk]
  dsimp only
  rw [if_neg]
  exact (h.knows.address a e ha).1

end

/-- What the store gives for the uuid of an account, or of none -/
def Gives (accounts : Address → Option Account) (T : Bytes → Prop) (u : H128) (key : Bytes) : Prop :=
  (∀ a e, accounts a = some e → e.uuid = u → key = hashBytes 32 e.secret ∨ key = [] ∧ ∃ q, T q ∧ q ≠ e.password) ∧
    ((∀ a e, accounts a = some e → e.uuid ≠ u) → key = [])

theorem gives_of (h : Kept x deprecated P accounts km) {T : Bytes → Prop} {key : Bytes} (ha : accounts a = some e)
    (hkey : key = hashBytes 32 e.secret ∨ key = [] ∧ ∃ q, T q ∧ q ≠ e.password) : Gives accounts T e.uuid key := by
  refine ⟨fun a' e' ha' hu => ?_, fun hnone => absurd rfl (hnone a e ha)⟩
  cases h.stores.eq_of_uuid ha' ha hu
  cases ha.symm.trans ha'
  exact hkey

theorem keeps_storeSecret (hx : x.Ideal) (h : Kept x deprecated P accounts km) {T : Bytes → Prop} {F : Prop}
    {askPass : M C Bytes} (hask : Keeps x deprecated P accounts km T F askPass) (u : H128) (useCache : Bool) :
    Keeps x deprecated P accounts km (Gives accounts T u) F (KeyManager.storeSecret x u askPass useCache) := by
  rw [Keeps, KeyManager.storeSecret, wp_bind, wp_get]
  dsimp only
  cases hc : (if useCache then km.m_store.m_cached.lookup u else none) with
  | some key =>
    have hc : km.m_store.m_cached.lookup u = some key := by
      cases useCache with
      | false => cases hc
      | true => exact hc
    obtain ⟨a, e, he, rfl, hkey⟩ := h.stores.cached u key hc
    exact keeps_pure h (h.gives_of he (.inl hkey))
  | none =>
    cases hk : km.m_store.m_keys.lookup u with
    | none =>
      refine keeps_pure h ⟨fun a e he hu => ?_, fun _ => rfl⟩
      obtain ⟨random, hk'⟩ := h.stores.key a e he
      rw [hu] at hk'
      cases hk.symm.trans hk'
    | some k =>
      obtain ⟨e, he, rfl⟩ := h.stores.account u k hk
      obtain ⟨random, hk'⟩ := h.stores.key _ e he
      have hencrypted : k.encryptedKey = x.encrypt (hashBytes 32 e.secret) e.password random :=
        congrArg EncryptedKey.encryptedKey (Option.some.inj (hk.symm.trans hk'))
      dsimp only
      rw [wp_bind]
      refine wp_mono hask ?_ fun _ _ hf => hf
      rintro q km' ⟨hq, h', hcaches⟩
      by_cases hright : q = e.password
      · have hkey : x.decrypt k.encryptedKey q = hashBytes 32 e.secret := by rw [hencrypted, hright, hx.decrypt_encrypt]
        have hne : hashBytes 32 e.secret ≠ [] := List.ne_nil_of_length_pos (by rw [length_hashBytes]; decide)
        rw [hkey, if_pos hne, wp_bind, wp_modify, wp_bind, wp_modify]
        refine ⟨h'.gives_of he (.inl rfl), h'.cacheKey he (h'.noteAddress_eq he _ _), ?_⟩
        refine ⟨hcaches.keyInfo, hcaches.passwordHint, hcaches.addrLookup, hcaches.uuidLookup,
          hcaches.deprecated, hcaches.keysFileKey,
          hcaches.master, hcaches.cachedPasswords, ?_, ?_, hcaches.keysFile, hcaches.saltFile⟩
        · show (SecretStore.noteAddress _ _ _).2.m_keys = _
          rw [h'.noteAddress_eq he]
          exact hcaches.keys
        · show (SecretStore.noteAddress _ _ _).2.files = _
          rw [h'.noteAddress_eq he]
          exact hcaches.files
      · have hkey : x.decrypt k.encryptedKey q = [] := by rw [hencrypted, hx.decrypt_of_ne _ _ _ _ hright]
        rw [hkey, if_neg (not_not.2 rfl)]
        exact ⟨h'.gives_of he (.inr ⟨rfl, q, hq, hright⟩), h', hcaches⟩

end Kept

end Kmdx.Keys
