import Kmdx.Keys.Restoring
import Kmdx.Lib.Runs

/-!
# Whether the books stay right

They do as long as no address is imported twice, and no password is believed that is wrong for a cached key
(`books_of_cleans`): a second key stays in the store when the account is killed (`not_books`).
-/

namespace Kmdx.Keys

open Rlp P2p ExceptRules Wp Function

variable {R C : Type} {x : Cryptography R C} {accounts : Address → Option Account} {a : Address} {e : Account} {u : H128}
  {deprecated pass master : Bytes} {P : Bytes → Prop} {km km' : KeyManager C} {written : View}

/-! ### What changes -/

theorem Opened.of_eq (h : Opened x P master km)
    (hcached : ∀ i, (km.m_cachedPasswords.lookup i).isSome → (km'.m_cachedPasswords.lookup i).isSome)
    (hmaster : km'.m_master = km.m_master) (hkey : km'.m_keysFileKey = km.m_keysFileKey) (hsalt : km'.saltFile = km.saltFile)
    (hdeprecated : km'.m_defaultPasswordDeprecated = km.m_defaultPasswordDeprecated) : Opened x P master km' := by
  constructor
  · rw [hmaster]
    exact hcached _ h.cached
  · rw [hkey]
    exact h.key_ne
  · rw [hkey, hsalt]
    exact h.key
  · exact h.master
  · rw [hkey]
    exact h.keyPassword
  · rw [hdeprecated]
    exact h.defaultPassword

namespace Knows

theorem update (h : Knows x deprecated P accounts) (ha : a ≠ 0) (haddress : x.keyAddress e.secret = a) (hu : e.uuid ≠ 0)
    (hp : P e.password) : Knows x deprecated P (Function.update accounts a (some e)) := by
  have hcases : ∀ a' e', Function.update accounts a (some e) a' = some e' → a' = a ∧ e' = e ∨ accounts a' = some e' := by
    intro a' e' he'
    by_cases hnew : a' = a
    · subst hnew
      rw [Function.update_self] at he'
      exact .inl ⟨rfl, (Option.some.inj he').symm⟩
    · rw [update_of_ne hnew] at he'
      exact .inr he'
  constructor
  · intro a' e' he'
    rcases hcases a' e' he' with ⟨rfl, rfl⟩ | he'
    · exact ⟨ha, haddress⟩
    · exact h.address a' e' he'
  · intro a' e' he'
    rcases hcases a' e' he' with ⟨rfl, rfl⟩ | he'
    · exact hu
    · exact h.uuid a' e' he'
  · intro a' e' he'
    rcases hcases a' e' he' with ⟨rfl, rfl⟩ | he'
    · exact hp
    · exact h.password a' e' he'
  · exact h.distinct

theorem erase (h : Knows x deprecated P accounts) (a : Address) : Knows x deprecated P (Function.update accounts a none) := by
  have hold : ∀ a' e', Function.update accounts a none a' = some e' → accounts a' = some e' := by
    intro a' e' he'
    by_cases hnew : a' = a
    · subst hnew
      rw [Function.update_self] at he'
      cases he'
    · rwa [update_of_ne hnew] at he'
  exact ⟨fun a' e' he' => h.address a' e' (hold a' e' he'), fun a' e' he' => h.uuid a' e' (hold a' e' he'),
    fun a' e' he' => h.password a' e' (hold a' e' he'), h.distinct⟩

end Knows

namespace Kept

section

variable (h : Kept x deprecated P accounts km)
include h

/-- An account is entered under its address and its uuid. -/
theorem enter {m_store : SecretStore C} {i : KeyInfo} (hints : AList fun _ : FixedHash 32 => Bytes)
    (hknows : Knows x deprecated P (Function.update accounts a (some e)))
    (hstores : Stores x (Function.update accounts a (some e)) m_store)
    (hold : ∀ e', accounts a = some e' → e'.uuid = e.uuid) (hi : i.passHash = x.pbkdf2 32 e.password deprecated) :
    Kept x deprecated P (Function.update accounts a (some e)) { km with
      m_store, m_passwordHint := hints, m_keyInfo := km.m_keyInfo.insert a i, m_addrLookup := km.m_addrLookup.insert a e.uuid
      m_uuidLookup := km.m_uuidLookup.insert e.uuid a } := by
  refine ⟨hknows, hstores, h.defaultPassword, fun a' => ?_, fun u a' => ?_, fun a' => ?_, h.passwords⟩
  · by_cases hnew : a' = a
    · subst hnew
      rw [Function.update_self, AList.lookup_insert]
      rfl
    · rw [update_of_ne hnew, AList.lookup_insert_ne hnew]
      exact h.addrLookup a'
  · by_cases hu : u = e.uuid
    · subst hu
      rw [AList.lookup_insert, Option.some_inj]
      constructor
      · rintro rfl
        exact ⟨e, Function.update_self _ _ _, rfl⟩
      · rintro ⟨e', he', hu'⟩
        exact hstores.eq_of_uuid (Function.update_self _ _ _) he' hu'.symm
    · rw [AList.lookup_insert_ne hu, h.uuidLookup u a']
      refine exists_congr fun e' => ⟨fun he' => ⟨?_, he'.2⟩, fun he' => ⟨?_, he'.2⟩⟩
      · rw [update_of_ne]
        · exact he'.1
        · rintro rfl
          exact hu (he'.2.symm.trans (hold e' he'.1))
      · have hnew := he'.1
        rw [update_of_ne] at hnew
        · exact hnew
        · rintro rfl
          rw [Function.update_self] at hnew
          exact hu (he'.2.symm.trans (congrArg Account.uuid (Option.some.inj hnew).symm))
  · by_cases hnew : a' = a
    · subst hnew
      rw [Function.update_self, AList.lookup_insert, Option.map_some, hi]
      rfl
    · rw [update_of_ne hnew, AList.lookup_insert_ne hnew]
      exact h.keyInfo a'

/-- An account has another password. -/
theorem rekey (ha : accounts a = some e) {newPass : Bytes} (hp : P newPass) {m_store : SecretStore C}
    {i : KeyInfo} (hstores : Stores x (History.withPassword accounts a newPass) m_store)
    (hi : i.passHash = x.pbkdf2 32 newPass deprecated) :
    Kept x deprecated P (History.withPassword accounts a newPass)
      { km with m_store, m_keyInfo := km.m_keyInfo.insert a i } := by
  have haccounts : History.withPassword accounts a newPass =
      Function.update accounts a (some { e with password := newPass }) := by
    rw [History.withPassword, ha]
    rfl
  rw [haccounts] at hstores ⊢
  obtain ⟨hzero, haddress⟩ := h.knows.address a e ha
  have hentered := h.enter (e := { e with password := newPass }) (i := i) km.m_passwordHint
    (h.knows.update hzero haddress (h.knows.uuid a e ha) hp) hstores
      (fun e' he' => (congrArg Account.uuid (Option.some.inj (he'.symm.trans ha)) : e'.uuid = e.uuid)) hi
  refine ⟨hentered.knows, hentered.stores, hentered.defaultPassword, fun a' => ?_, fun u a' => ?_,
    hentered.keyInfo, h.passwords⟩
  · refine Eq.trans ?_ (hentered.addrLookup a')
    by_cases hnew : a' = a
    · rw [hnew, AList.lookup_insert]
      exact (h.addrLookup a).trans (congrArg _ ha)
    · rw [AList.lookup_insert_ne hnew]
  · rw [← hentered.uuidLookup u a']
    by_cases hu : u = e.uuid
    · rw [hu, AList.lookup_insert]
      show km.m_uuidLookup.lookup e.uuid = some a' ↔ _
      rw [(h.uuidLookup e.uuid a).2 ⟨e, ha, rfl⟩]
    · rw [AList.lookup_insert_ne hu]

theorem uuid_eq (a : Address) : km.uuid a = (accounts a).elim 0 (·.uuid) := by
  rw [KeyManager.uuid, h.addrLookup]
  cases accounts a with
  | some e => rfl
  | none => rfl

/-- The key of a killed account is of no other one. -/
theorem uuid_ne {a' : Address} (ha' : Function.update accounts a none a' = some e) :
    accounts a' = some e ∧ e.uuid ≠ km.uuid a := by
  have hnew : a' ≠ a := by
    rintro rfl
    rw [Function.update_self] at ha'
    cases ha'
  rw [update_of_ne hnew] at ha'
  refine ⟨ha', ?_⟩
  rw [h.uuid_eq]
  cases ha : accounts a with
  | some e' => exact fun hu => hnew (h.stores.eq_of_uuid ha' ha hu)
  | none => exact h.knows.uuid a' e ha'

/-- An account is gone. -/
theorem kill (a : Address) : Kept x deprecated P (Function.update accounts a none) { km with
      m_uuidLookup := km.m_uuidLookup.erase (km.uuid a), m_addrLookup := km.m_addrLookup.erase a,
        m_keyInfo := km.m_keyInfo.erase a
      m_store := km.m_store.kill (km.uuid a) } := by
  refine ⟨h.knows.erase a, ?_, h.defaultPassword, fun a' => ?_, fun u a' => ?_, fun a' => ?_, h.passwords⟩
  · rw [h.uuid_eq]
    cases ha : accounts a with
    | some e => exact h.stores.kill ha
    | none =>
      rw [update_eq_self_iff.2 ha.symm]
      exact h.stores.kill_of_ne h.knows.uuid
  · by_cases hnew : a' = a
    · subst hnew
      rw [Function.update_self, AList.lookup_erase]
      rfl
    · rw [update_of_ne hnew, AList.lookup_erase_ne hnew]
      exact h.addrLookup a'
  · by_cases hu : u = km.uuid a
    · rw [hu, AList.lookup_erase]
      refine iff_of_false (Option.some_ne_none a').symm ?_
      rintro ⟨e', he', hu'⟩
      exact (h.uuid_ne he').2 hu'
    · rw [AList.lookup_erase_ne hu, h.uuidLookup u a']
      refine exists_congr fun e' => ⟨fun he' => ⟨?_, he'.2⟩, fun he' => ⟨(h.uuid_ne he'.1).1, he'.2⟩⟩
      rw [update_of_ne]
      · exact he'.1
      · rintro rfl
        rw [h.uuid_eq, he'.1] at hu
        exact hu he'.2.symm
  · by_cases hnew : a' = a
    · subst hnew
      rw [Function.update_self, AList.lookup_erase]
      rfl
    · rw [update_of_ne hnew, AList.lookup_erase_ne hnew]
      exact h.keyInfo a'

/-- The hints of the passwords are not of the accounts. -/
theorem hints (m_passwordHint : AList fun _ : FixedHash 32 => Bytes) :
    Kept x deprecated P accounts { km with m_passwordHint } :=
  ⟨h.knows, h.stores, h.defaultPassword, h.addrLookup, h.uuidLookup, h.keyInfo, h.passwords⟩

end

end Kept

theorem Filed.hints (h : Filed x P master written km) (m_passwordHint : AList fun _ : FixedHash 32 => Bytes) :
    Filed x P master written { km with m_passwordHint } := by
  obtain ⟨km', hfits, hfile, hview, hagree⟩ := h.contents
  refine ⟨h.opened.of_eq (fun _ => id) rfl rfl rfl rfl, km', hfits, hfile, hview, ?_⟩
  exact ⟨hagree.accounts, hagree.keyInfo, hagree.addrLookup, hagree.uuidLookup, hagree.deprecated⟩

/-! ### Operations -/

/-- The manager says of the accounts what its user does, and so does its file if it could be written. -/
def Ends (x : Cryptography R C) (deprecated : Bytes) (P : Bytes → Prop) (master : Bytes) (accounts : Address → Option Account)
    (km : KeyManager C) : Prop := km.Fits → Kept x deprecated P accounts km ∧ Filed x P master km.view km

/-- The accounts are as they have been, and so is the file. -/
def Stays (x : Cryptography R C) (deprecated : Bytes) (P : Bytes → Prop) (master : Bytes)
    (accounts : Address → Option Account) (written : View)
    (km : KeyManager C) : Prop := Kept x deprecated P accounts km ∧ Filed x P master written km

theorem Stays.of_caches (hf : Filed x P master written km) (hk : Kept x deprecated P accounts km') (hc : Kept.Caches km km') :
    Stays x deprecated P master accounts written km' := ⟨hk, hf.of_caches hc⟩

namespace KeyManager

theorem wp_kill (h : Kept x deprecated P accounts km) (hf : Filed x P master written km) (a : Address) :
    wp (kill x a) (fun _ => Ends x deprecated P master (Function.update accounts a none)) (fun _ km' => ¬ km'.Fits) km := by
  rw [kill, wp_bind, wp_get, wp_bind, wp_modify]
  exact wp_write (h.kill a) (hf.opened.of_eq (fun _ => id) rfl rfl rfl rfl)

/-- Also if the file cannot be written. -/
theorem wp_kill_hasAccount (h : Kept x deprecated P accounts km) (a : Address) :
    wp (kill x a) (fun _ km' => km'.hasAccount a = false) (fun _ km' => km'.hasAccount a = false) km := by
  have hkilled := h.kill a
  have hgone := Bool.eq_false_iff.2 (mt (hkilled.hasAccount_iff a).1 (not_not.2 (Function.update_self a none accounts)))
  rw [kill, wp_bind, wp_get, wp_bind, wp_modify, wp_discard, write, wp_bind, wp_get]
  dsimp only
  split
  · exact hgone
  · rw [wp_bind]
    exact wp_writeKey_of_inv hgone fun _ _ _ _ h => h

theorem wp_secret (hx : x.Ideal) (h : Kept x deprecated P accounts km) (hf : Filed x P master written km) {pass : Answers}
    (hpass : ∀ i p, pass i = some p → P p) (a : Address) (usePasswordCache : Bool) :
    wp (secret x a pass usePasswordCache) (fun _ => Stays x deprecated P master accounts written)
      (fun _ => Stays x deprecated P master accounts written) km := by
  rw [secret, wp_bind, wp_get]
  cases km.m_addrLookup.lookup a with
  | none => exact ⟨h, hf⟩
  | some u =>
    dsimp only
    rw [secretOf]
    split
    · rw [wp_bind]
      exact wp_mono (h.keeps_storeSecret hx (h.keeps_getPassword hpass u) u usePasswordCache)
        (fun _ _ hq => .of_caches hf hq.2.1 hq.2.2) fun _ _ hq => .of_caches hf hq.2.1 hq.2.2
    · rw [wp_bind]
      refine wp_mono (h.keeps_storeSecret hx (T := fun _ => True) (F := True) ?_ u usePasswordCache)
        (fun _ _ hq => .of_caches hf hq.2.1 hq.2.2) fun _ _ hq => .of_caches hf hq.2.1 hq.2.2
      cases pass 0 with
      | some p => exact Kept.keeps_pure h trivial
      | none => exact ⟨trivial, h, .refl km⟩

theorem run_noteHint (pass hint : Bytes) (km : KeyManager C) :
    ∃ hints, noteHint x pass hint km = .ok ⟨⟩ { km with m_passwordHint := hints } := by
  rw [noteHint, run_modify]
  by_cases hhint : hint = []
  · exact ⟨_, congrArg (EStateM.Result.ok _) (if_neg (not_not.2 hhint))⟩
  · exact ⟨_, congrArg (EStateM.Result.ok _) (if_pos hhint)⟩

/-- A key is encrypted anew if it could be decrypted. -/
theorem wp_storeRecode (hx : x.Ideal) (h : Kept x deprecated P accounts km) {askPass : M C Bytes}
    (hask : Kept.Keeps x deprecated P accounts km (fun _ => True) True askPass) (u : H128) (newPass : Bytes) (random : R) :
    wp (storeRecode x u newPass askPass random)
      (fun done km' => ∃ km₀, Kept x deprecated P accounts km₀ ∧ Kept.Caches km km₀ ∧
        if done then ∃ a e m_store, accounts a = some e ∧ e.uuid = u ∧ km' = { km₀ with m_store } ∧
          Stores x (History.withPassword accounts a newPass) m_store
        else km' = km₀)
      (fun _ km' => Kept x deprecated P accounts km' ∧ Kept.Caches km km') km := by
  rw [storeRecode, wp_bind]
  refine wp_mono (h.keeps_storeSecret hx hask u true) ?_ fun _ _ hq => hq.2
  rintro key km₀ ⟨hgives, hk, hc⟩
  dsimp only
  split
  · exact ⟨km₀, hk, hc, rfl⟩
  · rename_i hkey
    rw [wp_bind, wp_modify, wp_bind, wp_modify]
    have hsome : ∃ a e, accounts a = some e ∧ e.uuid = u := by
      by_contra hnone
      exact hkey (hgives.2 fun a e he hu => hnone ⟨a, e, he, hu⟩)
    obtain ⟨a, e, he, hu⟩ := hsome
    rcases hgives.1 a e he hu with hkey' | ⟨hkey', -⟩
    · refine ⟨km₀, hk, hc, a, e, _, he, hu, rfl, ?_⟩
      rw [hkey', ← hu]
      exact hk.stores.recode he newPass random
    · exact absurd hkey' hkey

theorem wp_recode (hx : x.Ideal) (h : Kept x deprecated P accounts km) (hf : Filed x P master written km) {newPass : Bytes}
    (hp : P newPass) {pass : Answers} (hpass : ∀ i p, pass i = some p → P p) (a : Address) (hint : Bytes) (random : R) :
    wp (recode x a newPass hint pass random)
      (fun done km' => if done then Ends x deprecated P master (History.withPassword accounts a newPass) km'
        else Stays x deprecated P master accounts written km')
      (fun _ km' => km'.Fits → Stays x deprecated P master accounts written km') km := by
  obtain ⟨hints, hnote⟩ := run_noteHint (x := x) newPass hint km
  rw [recode, wp_bind]
  refine wp_of_eq_ok hnote ?_
  rw [wp_bind, wp_get, wp_bind]
  have hk := h.hints hints
  have hf := hf.hints hints
  refine wp_mono (wp_storeRecode hx hk (hk.keeps_getPassword hpass _) _ newPass random) ?_ ?_
  · rintro done km' ⟨km₀, hk₀, hc, hdone⟩
    cases done with
    | false =>
      cases hdone
      exact .of_caches hf hk₀ hc
    | true =>
      obtain ⟨a', e, m_store, he, hu, rfl, hstores⟩ := hdone
      have ha : a' = a := by
        rw [hk.uuid_eq] at hu
        cases ha : accounts a with
        | some e' =>
          rw [ha] at hu
          exact h.stores.eq_of_uuid he ha hu
        | none =>
          rw [ha] at hu
          exact absurd hu (h.knows.uuid a' e he)
      subst ha
      show wp (modify _ >>= _) _ _ _
      rw [wp_bind, wp_modify, wp_bind]
      have hrekeyed := hk₀.rekey he hp hstores
        (i := { (km₀.m_keyInfo.lookup a').getD {} with passHash := km₀.hashPassword x newPass }) (hk₀.hashPassword newPass)
      exact wp_mono (wp_write hrekeyed ((hf.of_caches hc).opened.of_eq (fun _ => id) rfl rfl rfl rfl)) (fun _ _ hq => hq)
        fun _ _ hq hfits => absurd hfits hq
  · exact fun _ _ hq _ => .of_caches hf hq.1 hq.2

theorem wp_importAddress (h : Kept x deprecated P accounts km) (ho : Opened x P master km) (ha : accounts a = some e)
    (accountName : Bytes)
    {passHash : FixedHash 32} (hpassHash : passHash = x.pbkdf2 32 e.password deprecated) (passwordHint : Bytes) :
    wp (importAddress x e.uuid accountName a passHash passwordHint) (fun _ => Ends x deprecated P master accounts)
      (fun _ km' => ¬ km'.Fits) km := by
  have hentered : ∀ hints, Kept x deprecated P accounts { km with
      m_passwordHint := hints, m_uuidLookup := km.m_uuidLookup.insert e.uuid a,
        m_addrLookup := km.m_addrLookup.insert a e.uuid
      m_keyInfo := km.m_keyInfo.insert a { (km.m_keyInfo.lookup a).getD {} with passHash, accountName } } := by
    intro hints
    have hsame : Function.update accounts a (some e) = accounts := update_eq_self_iff.2 ha.symm
    have hold : ∀ e', accounts a = some e' → e'.uuid = e.uuid := by
      intro e' he'
      cases ha.symm.trans he'
      rfl
    have hkept := h.enter (e := e) (i := { (km.m_keyInfo.lookup a).getD {} with passHash, accountName }) hints
        (hsame.symm ▸ h.knows)
      (hsame.symm ▸ h.stores) hold hpassHash
    rwa [hsame] at hkept
  rw [importAddress, wp_bind, wp_get]
  split
  · rw [wp_bind, wp_modify, wp_bind, wp_modify]
    exact wp_write (hentered _) (ho.of_eq (fun _ => id) rfl rfl rfl rfl)
  · rw [wp_bind, wp_modify]
    exact wp_write (hentered _) (ho.of_eq (fun _ => id) rfl rfl rfl rfl)

/-- With the right password of an account -/
theorem wp_importExisting_right (hx : x.Ideal) (h : Kept x deprecated P accounts km) (hf : Filed x P master written km)
    (ha : accounts a = some e) (info passwordHint : Bytes) :
    wp (importExisting x e.uuid info e.password passwordHint) (fun _ => Ends x deprecated P master accounts)
      (fun _ km' => ¬ km'.Fits) km := by
  have hask : Kept.Keeps x deprecated P accounts km (· = e.password) False (return e.password) := Kept.keeps_pure h rfl
  rw [importExisting, wp_bind]
  refine wp_mono (h.keeps_storeSecret hx hask e.uuid true) ?_ fun _ _ hq => hq.1.elim
  rintro key km₀ ⟨hgives, hk, hc⟩
  have hkey : key = hashBytes 32 e.secret := by
    rcases hgives.1 a e ha rfl with hkey | ⟨-, q, hq, hne⟩
    · exact hkey
    · exact absurd hq hne
  have hne : hashBytes 32 e.secret ≠ [] := List.ne_nil_of_length_pos (by rw [length_hashBytes]; decide)
  have ho := (hf.of_caches hc).opened
  have hcached := hk.keeps_cachePassword (F := False) (h.knows.password a e ha)
  dsimp only
  rw [hkey, if_neg hne, ofRef_hashBytes, (h.knows.address a e ha).2, wp_bind, wp_get, wp_bind, wp_get]
  have himport : ∀ km', Kept x deprecated P accounts km' → Kept.Caches km₀ km' →
      wp (importAddress x e.uuid info a (km₀.hashPassword x e.password) passwordHint)
        (fun _ => Ends x deprecated P master accounts) (fun _ km'' => ¬ km''.Fits) km' := by
    intro km' hk' hc'
    refine wp_importAddress hk' (ho.of_eq hc'.cachedPasswords hc'.master hc'.keysFileKey hc'.saltFile hc'.deprecated)
      ha info ?_ passwordHint
    exact hk.hashPassword e.password
  split
  · rw [wp_bind]
    exact wp_mono hcached (fun _ km' hq => himport km' hq.2.1 hq.2.2) fun _ _ hq => hq.1.elim
  · exact himport km₀ hk (.refl km₀)

/-- The password is the right one, or the key is neither cached nor decrypted. -/
theorem wp_importExisting (hx : x.Ideal) (h : Kept x deprecated P accounts km) (hf : Filed x P master written km)
    (hright : ∀ k, km.m_store.m_keys.lookup u = some k → (km.m_store.m_cached.lookup u).isSome →
      x.decrypt k.encryptedKey pass ≠ [])
    (info passwordHint : Bytes) :
    wp (importExisting x u info pass passwordHint)
      (fun _ km' => if km.opens x u pass then
          Ends x deprecated P master ((km.m_uuidLookup.lookup u).elim accounts fun a =>
            History.withPassword accounts a pass) km'
        else Stays x deprecated P master accounts written km')
      (fun _ km' => ¬ km'.Fits) km := by
  cases hk : km.m_store.m_keys.lookup u with
  | none =>
    have hcached : km.m_store.m_cached.lookup u = none := by
      cases hcached : km.m_store.m_cached.lookup u with
      | none => rfl
      | some b =>
        obtain ⟨a, e, he, rfl, -⟩ := h.stores.cached u b hcached
        obtain ⟨random, hk'⟩ := h.stores.key a e he
        cases hk.symm.trans hk'
    have hopens : km.opens x u pass = false := by
      rw [opens, hcached, hk]
      rfl
    have hsecret : storeSecret x u (return pass) true km = .ok [] km := by
      rw [storeSecret, run_bind_of_ok run_get]
      dsimp only
      rw [if_pos rfl, hcached, hk]
      rfl
    rw [importExisting, wp_bind, hopens]
    exact wp_of_eq_ok hsecret ⟨h, hf⟩
  | some k =>
    obtain ⟨e, he, rfl⟩ := h.stores.account u k hk
    obtain ⟨random, hk'⟩ := h.stores.key _ e he
    have hencrypted : k.encryptedKey = x.encrypt (hashBytes 32 e.secret) e.password random :=
      congrArg EncryptedKey.encryptedKey (Option.some.inj (hk.symm.trans hk'))
    by_cases hpass : pass = e.password
    · subst hpass
      have hne : hashBytes 32 e.secret ≠ [] := List.ne_nil_of_length_pos (by rw [length_hashBytes]; decide)
      have hopens : km.opens x e.uuid e.password = true := by
        rw [opens, hk, Option.any_some, hencrypted, hx.decrypt_encrypt, decide_eq_true hne, Bool.or_true]
      have hsame : History.withPassword accounts k.address e.password = accounts := by
        rw [History.withPassword, he]
        exact update_eq_self_iff.2 he.symm
      rw [hopens, (h.uuidLookup e.uuid k.address).2 ⟨e, he, rfl⟩, Option.elim_some, hsame]
      exact wp_importExisting_right hx h hf he info passwordHint
    · have hwrong : x.decrypt k.encryptedKey pass = [] := by rw [hencrypted, hx.decrypt_of_ne _ _ _ _ hpass]
      have hcached : km.m_store.m_cached.lookup e.uuid = none :=
        Option.not_isSome_iff_eq_none.1 fun hcached => hright k hk hcached hwrong
      have hopens : km.opens x e.uuid pass = false := by
        rw [opens, hcached, hk, Option.any_some, hwrong]
        rfl
      have hsecret : storeSecret x e.uuid (return pass) true km = .ok [] km := by
        rw [storeSecret, run_bind_of_ok run_get]
        dsimp only
        rw [if_pos rfl, hcached, hk]
        dsimp only
        rw [run_bind_of_ok (run_pure _), hwrong]
        rfl
      rw [importExisting, wp_bind, hopens]
      exact wp_of_eq_ok hsecret ⟨h, hf⟩

theorem wp_import (h : Kept x deprecated P accounts km) (ho : Opened x P master km) {s : Secret} {r : H128}
    (hzero : x.keyAddress s ≠ 0) (hnew : accounts (x.keyAddress s) = none) (hr : r ≠ 0)
    (hunused : ∀ a e, accounts a = some e → e.uuid ≠ r) (hp : P pass) (accountName passwordHint : Bytes) (random : R) :
    wp (import_ x s accountName pass passwordHint r random)
      (fun _ => Ends x deprecated P master (Function.update accounts (x.keyAddress s) (some ⟨r, s, pass⟩)))
        (fun _ km' => ¬ km'.Fits) km := by
  rw [import_, wp_bind, wp_get, wp_bind]
  refine wp_mono (h.keeps_cachePassword (F := False) hp) ?_ fun _ _ hq => hq.1.elim
  rintro - km₀ ⟨-, hk, hc⟩
  rw [wp_bind, wp_modify, wp_bind, wp_modify, wp_bind]
  have hold : ∀ e', accounts (x.keyAddress s) = some e' → e'.uuid = r := fun e' he' =>
      absurd (hnew.symm.trans he') (Option.some_ne_none e').symm
  have hentered := hk.enter (e := ⟨r, s, pass⟩) (i := { passHash := km.hashPassword x pass, accountName })
    (km₀.m_passwordHint.insert (km.hashPassword x pass) passwordHint) (h.knows.update hzero rfl hr hp)
    (hk.stores.importSecret random hnew hunused) hold (h.hashPassword pass)
  refine wp_mono (wp_write hentered ?_) (fun _ _ hq => hq) fun _ _ hq => hq
  exact ho.of_eq hc.cachedPasswords hc.master hc.keysFileKey hc.saltFile hc.deprecated

theorem wp_writePass (h : Kept x deprecated P accounts km) (hdefault : P km.m_defaultPasswordDeprecated)
    {salt : FixedHash 32} (hp : P pass)
    (hkey : x.pbkdf2 16 pass (hashBytes 32 salt) ≠ 0)
    (hkeyPassword : P (hashBytes 16 (x.pbkdf2 16 pass (hashBytes 32 salt)))) :
    wp (writePass x pass salt) (fun _ => Ends x deprecated P pass accounts) (fun _ km' => ¬ km'.Fits) km := by
  rw [writePass, wp_bind, wp_modify, wp_bind, cachePassword, wp_modify, wp_bind, wp_modify]
  generalize hashBytes 32 salt = saltFile at hkey hkeyPassword ⊢
  have hk := h.cachePassword hp
  have hkept : Kept x deprecated P accounts { km with
      saltFile, m_cachedPasswords := km.m_cachedPasswords.insert (km.hashPassword x pass) pass,
        m_master := km.hashPassword x pass } :=
    ⟨hk.knows, hk.stores, hk.defaultPassword, hk.addrLookup, hk.uuidLookup, hk.keyInfo, hk.passwords⟩
  have hcached : ((km.m_cachedPasswords.insert (km.hashPassword x pass) pass).lookup (km.hashPassword x pass)).isSome := by
    rw [AList.lookup_insert]
    rfl
  exact wp_writeKey hkept hcached hkey rfl hp hkeyPassword hdefault

end KeyManager

/-! ### Histories -/

namespace History

variable {h : History C} {op : Operation R}

/-- An operation gives no address a second key, and is given the right password for a key that is cached. All passwords are
among some. -/
def Clean (x : Cryptography R C) (P : Bytes → Prop) (h : History C) : Operation R → Prop
  | .import_ s _ pass _ r _ =>
    x.keyAddress s ≠ 0 ∧ h.km.hasAccount (x.keyAddress s) = false ∧ r ≠ 0 ∧ h.km.m_store.contains r = false ∧ P pass
  | .importExisting u _ pass _ => ∀ k, h.km.m_store.m_keys.lookup u = some k → (h.km.m_store.m_cached.lookup u).isSome →
    x.decrypt k.encryptedKey pass ≠ []
  | .recode _ newPass _ pass _ => P newPass ∧ ∀ i p, pass i = some p → P p
  | .kill _ => True
  | .secret _ pass _ => ∀ i p, pass i = some p → P p
  | .save pass salt =>
    P pass ∧ x.pbkdf2 16 pass (hashBytes 32 salt) ≠ 0 ∧ P (hashBytes 16 (x.pbkdf2 16 pass (hashBytes 32 salt)))
  | .load pass => pass = h.master

/-- The manager and its file are of the accounts. -/
structure Sound (x : Cryptography R C) (deprecated : Bytes) (P : Bytes → Prop) (h : History C) : Prop where
  kept : Kept x deprecated P h.accounts h.km
  filed : Filed x P h.master h.written h.km

theorem sound_of_wp
    (hw : wp (op.run x)
      (fun done km' => km'.Fits →
        Stays x deprecated P (h.masterAfter op) (if done then h.accountsAfter x op else h.accounts)
          (if done ∧ writes op then km'.view else h.written) km')
      (fun _ km' => km'.Fits → Stays x deprecated P (h.masterAfter op) h.accounts h.written km') h.km)
    (hfits : (h.after x op).km.Fits) : Sound x deprecated P (h.after x op) := by
  cases hrun : op.run x h.km with
  | ok done km' =>
    have hout : h.outcome x op = (done, km') := by rw [outcome, hrun]
    rw [after, hout] at hfits ⊢
    exact ⟨(wp_ok hw hrun hfits).1, (wp_ok hw hrun hfits).2⟩
  | error e km' =>
    have hout : h.outcome x op = (false, km') := by rw [outcome, hrun]
    rw [after, hout] at hfits ⊢
    exact ⟨(wp_error hw hrun hfits).1, (wp_error hw hrun hfits).2⟩

theorem Sound.account_eq_none (h' : Sound x deprecated P h) (ha : h.km.hasAccount a = false) : h.accounts a = none := by
  by_contra hsome
  exact Bool.false_ne_true (ha.symm.trans ((h'.kept.hasAccount_iff a).2 hsome))

/-- What a clean operation keeps -/
theorem Sound.after (hx : x.Ideal) (h' : Sound x deprecated P h) (hclean : Clean x P h op) (hfits : (h.after x op).km.Fits) :
    Sound x deprecated P (h.after x op) := by
  refine sound_of_wp ?_ hfits
  obtain ⟨hk, hf⟩ := h'
  cases op with
  | import_ s accountName pass passwordHint r random =>
    obtain ⟨hzero, hnew, hr, hunused, hp⟩ := hclean
    have hunused : ∀ a e, h.accounts a = some e → e.uuid ≠ r := by
      rintro a e he rfl
      obtain ⟨random, hkey⟩ := hk.stores.key a e he
      rw [SecretStore.contains, hkey] at hunused
      cases hunused
    rw [Operation.run, wp_bind, wp_discard]
    refine wp_mono (KeyManager.wp_import hk hf.opened hzero (Sound.account_eq_none ⟨hk, hf⟩ hnew) hr hunused hp
      accountName passwordHint random) ?_ ?_
    · exact fun _ _ hq => hq
    · exact fun _ _ hq hfits => absurd hfits hq
  | importExisting u info pass passwordHint =>
    rw [Operation.run, wp_bind, wp_get, wp_bind]
    refine wp_mono (KeyManager.wp_importExisting hx hk hf hclean info passwordHint) (fun _ km' hq => ?_) fun _ _ hq
      hfits => absurd hfits hq
    show km'.Fits → _
    cases hopens : h.km.opens x u pass with
    | false =>
      rw [hopens] at hq
      exact fun _ => hq
    | true =>
      rw [hopens] at hq
      exact hq
  | recode a newPass hint pass random =>
    refine wp_mono (KeyManager.wp_recode hx hk hf hclean.1 hclean.2 a hint random) (fun done km' hq => ?_) fun _ _ hq => hq
    cases done with
    | false => exact fun _ => hq
    | true => exact hq
  | kill a =>
    rw [Operation.run, wp_bind]
    exact wp_mono (KeyManager.wp_kill hk hf a) (fun _ _ hq => hq) fun _ _ hq hfits => absurd hfits hq
  | secret a pass usePasswordCache =>
    rw [Operation.run, wp_bind, wp_discard]
    exact wp_mono (KeyManager.wp_secret hx hk hf hclean a usePasswordCache) (fun _ _ hq _ => hq) fun _ _ hq _ => hq
  | save pass salt =>
    obtain ⟨hp, hkey, hkeyPassword⟩ := hclean
    rw [Operation.run, wp_bind]
    exact wp_mono (KeyManager.wp_writePass hk hf.opened.defaultPassword hp hkey hkeyPassword) (fun _ _ hq => hq)
      fun _ _ hq hfits => absurd hfits hq
  | load pass =>
    cases hclean
    obtain ⟨km', hload, hk', hf', -⟩ := restores hx hk hf
    rw [Operation.run, wp_bind, wp_get, wp_bind, wp_set]
    exact wp_of_eq_ok hload fun _ => ⟨hk', hf'⟩

/-! ### Books -/

theorem inverse_of_kept (hk : Kept x deprecated P accounts km) (a : Address) (u : H128) :
    km.m_addrLookup.lookup a = some u ↔ km.m_uuidLookup.lookup u = some a := by
  rw [hk.addrLookup, hk.uuidLookup, Option.map_eq_some_iff]

/-- The secret of an account is found with its password. -/
theorem run_secret (hx : x.Ideal) (hk : Kept x deprecated P accounts km) (ha : accounts a = some e)
    (usePasswordCache : Bool) :
    ∃ km', KeyManager.secret x a (fun _ => some e.password) usePasswordCache km = .ok e.secret km' := by
  have hsecret : ∀ {askPass : M C Bytes}, Kept.Keeps x deprecated P accounts km (· = e.password) False askPass →
      ∃ km', KeyManager.storeSecret x e.uuid askPass usePasswordCache km = .ok (hashBytes 32 e.secret) km' := by
    intro askPass hask
    obtain ⟨key, km', hrun, hgives, -⟩ := exists_ok_of_wp (wp_mono (hk.keeps_storeSecret hx hask e.uuid usePasswordCache)
      (fun _ _ hq => hq) fun _ _ hq => hq.1)
    rcases hgives.1 a e ha rfl with hkey | ⟨-, q, hq, hne⟩
    · exact ⟨km', hkey ▸ hrun⟩
    · exact absurd hq hne
  have hlookup : km.m_addrLookup.lookup a = some e.uuid := by rw [hk.addrLookup, ha, Option.map_some]
  rw [KeyManager.secret, run_bind_of_ok run_get, hlookup]
  dsimp only
  rw [KeyManager.secretOf]
  cases usePasswordCache with
  | true =>
    obtain ⟨km', hrun⟩ := hsecret (hk.keeps_getPassword_right ha)
    exact ⟨km', (run_bind_of_ok hrun _).trans (congrArg (EStateM.Result.ok · km') (ofRef_hashBytes e.secret))⟩
  | false =>
    obtain ⟨km', hrun⟩ := hsecret (Kept.keeps_pure hk rfl)
    exact ⟨km', (run_bind_of_ok hrun _).trans (congrArg (EStateM.Result.ok · km') (ofRef_hashBytes e.secret))⟩

theorem books_of_sound (hx : x.Ideal) (h' : Sound x deprecated P h) : Books x h := by
  have hk := h'.kept
  obtain ⟨km', hload, -, -, hview⟩ := restores hx hk h'.filed
  have hloads : h.outcome x (.load h.master) = (true, km') := by
    rw [outcome, Operation.run, run_bind_of_ok run_get, run_bind_of_ok (run_set _), hload]
  constructor
  · exact inverse_of_kept hk
  · intro u
    rw [hk.uuidLookup_eq, Option.isSome_map, SecretStore.contains]
  · exact fun a => (hk.hasAccount_iff a).trans (hk.mem_accounts_iff a).symm
  · intro a
    rw [hk.hasAccount_iff]
    constructor
    · intro hsome
      obtain ⟨e, he⟩ := Option.ne_none_iff_exists'.1 hsome
      exact ⟨e, he, (hk.knows.address a e he).2, run_secret hx hk he⟩
    · rintro ⟨e, he, -⟩
      rw [he]
      exact Option.some_ne_none e
  · intro a pass usePasswordCache ha
    have hlookup : h.km.m_addrLookup.lookup a = none := by rw [hk.addrLookup, h'.account_eq_none ha, Option.map_none]
    rw [KeyManager.secret, run_bind_of_ok run_get, hlookup]
    exact ⟨h.km, rfl⟩
  · intro a
    have hkill := KeyManager.wp_kill_hasAccount hk a
    cases hrun : KeyManager.kill x a h.km with
    | ok _ km' =>
      have hout : h.outcome x (.kill a) = (true, km') := by rw [outcome, Operation.run, run_bind_of_ok hrun, run_pure]
      have hgone := wp_ok hkill hrun
      rw [after, hout]
      exact hgone
    | error e km' =>
      have hout : h.outcome x (.kill a) = (false, km') := by rw [outcome, Operation.run, run_bind_of_error hrun]
      have hgone := wp_error hkill hrun
      rw [after, hout]
      exact hgone
  · rw [hloads]
  · rw [after, hloads]
    exact hview

/-! ### Runs -/

def step (x : Cryptography R C) (h : History C) (op : Operation R) : Option (History C) := some (h.after x op)

theorem kept_empty (hdistinct : ∀ p p', P p → P p' → x.pbkdf2 32 p deprecated = x.pbkdf2 32 p' deprecated → p = p') :
    Kept x deprecated P (fun _ => none) { KeyManager.make (∅ : AList fun _ : H128 => C × Address) [] [] with
      m_defaultPasswordDeprecated := deprecated } := by
  have hnone : ∀ {α : Type} {b : α} {Q : Prop}, none = some b → Q := fun hb => absurd hb.symm (Option.some_ne_none _)
  refine ⟨⟨?_, ?_, ?_, hdistinct⟩, ⟨?_, ?_, ?_, fun _ => rfl⟩, rfl, fun _ => rfl,
    fun u a => iff_of_false ?_ ?_, fun _ => rfl, ?_⟩
  · exact fun _ _ he => hnone he
  · exact fun _ _ he => hnone he
  · exact fun _ _ he => hnone he
  · exact fun _ _ he => hnone he
  · exact fun _ _ hk => hnone hk
  · exact fun _ _ hb => hnone hb
  · exact fun ha => hnone ha
  · exact fun ⟨_, he, _⟩ => hnone he
  · exact fun _ _ hp => hnone hp

theorem fits_of_empty (haccounts : km.m_keyInfo.entries = []) (hhints : km.m_passwordHint.entries = [])
    (hdeprecated : km.m_defaultPasswordDeprecated.length = 32) : km.Fits := by
  have hshort : km.m_defaultPasswordDeprecated.length < lengthLimit := by
    rw [hdeprecated]
    decide
  have hbytes := length_bytes_le_add hshort
  rw [KeyManager.Fits, KeyManager.parts, KeyManager.accountTrees, haccounts, KeyManager.hintTrees, hhints]
  have hone : (Tree.int 1).encode.length = 1 := by decide
  have hhead : (head 0xc0 0).length = 1 := by decide
  simp only [List.map_nil, Tree.payload, Tree.encode, List.length_append, List.length_nil, hone, hhead]
  rw [lengthLimit]
  omega

variable {salt random : FixedHash 32}

theorem run_create
    (hdistinct : ∀ p p', P p → P p' → x.pbkdf2 32 p (hashBytes 32 random) = x.pbkdf2 32 p' (hashBytes 32 random) →
      p = p') (hp : P pass)
    (hdefault : P (hashBytes 32 random)) (hkey : x.pbkdf2 16 pass (hashBytes 32 salt) ≠ 0)
    (hkeyPassword : P (hashBytes 16 (x.pbkdf2 16 pass (hashBytes 32 salt)))) :
    ∃ done km', KeyManager.create x pass random salt (.make ∅ [] []) = .ok done km' ∧
      Stays x (hashBytes 32 random) P pass (fun _ => none) km'.view km' := by
  have hlength : (hashBytes 32 random).length = 32 := length_hashBytes random
  refine exists_ok_of_wp ?_
  rw [KeyManager.create, wp_bind, wp_modify]
  generalize hashBytes 32 random = deprecated at hdistinct hdefault hlength ⊢
  have hends := KeyManager.wp_writePass (kept_empty (C := C) hdistinct) hdefault hp hkey hkeyPassword
  have hfits : wp (KeyManager.writePass x pass salt) (fun _ km' => km'.Fits) (fun _ km' => km'.Fits)
      { KeyManager.make (∅ : AList fun _ : H128 => C × Address) [] [] with m_defaultPasswordDeprecated := deprecated } := by
    rw [KeyManager.writePass, wp_bind, wp_modify, wp_bind, KeyManager.cachePassword, wp_modify, wp_bind, wp_modify]
    generalize hashBytes 32 salt = saltFile
    exact KeyManager.wp_writeKey_of_inv (fits_of_empty rfl rfl hlength) fun _ _ _ _ h => h
  exact wp_mono (wp_and hends hfits) (fun _ _ h => h.1 h.2) fun _ _ h => h.1 h.2

/-- What is assumed of the password that a manager is created with, and of what is drawn -/
structure Starts (x : Cryptography R C) (P : Bytes → Prop) (pass : Bytes) (random salt : FixedHash 32) : Prop where
  distinct : ∀ p p', P p → P p' → x.pbkdf2 32 p (hashBytes 32 random) = x.pbkdf2 32 p' (hashBytes 32 random) → p = p'
  password : P pass
  defaultPassword : P (hashBytes 32 random)
  key_ne : x.pbkdf2 16 pass (hashBytes 32 salt) ≠ 0
  keyPassword : P (hashBytes 16 (x.pbkdf2 16 pass (hashBytes 32 salt)))

theorem sound_created (h : Starts x P pass random salt) :
    Sound x (hashBytes 32 random) P (created x pass random salt) := by
  obtain ⟨done, km', hrun, hk, hf⟩ := run_create h.distinct h.password h.defaultPassword h.key_ne h.keyPassword
  have hcreated : created x pass random salt = ⟨km', fun _ => none, km'.view, pass⟩ := by rw [created, hrun]
  rw [hcreated]
  exact ⟨hk, hf⟩

theorem each_step_cons {Q : History C → Operation R → Prop} {ops : List (Operation R)} :
    Runs.Each (step x) Q h (op :: ops) ↔ Q h op ∧ Runs.Each (step x) Q (h.after x op) ops :=
  ⟨fun hrun => hrun _ rfl, fun hrun _ hstep => Option.some.inj hstep ▸ hrun⟩

/-- As long as no address has two keys, and no wrong password is believed, the books are right after every operation. -/
theorem books_of_clean (hx : x.Ideal) (hstarts : Starts x P pass random salt) (ops : List (Operation R))
    (hclean : Runs.Each (step x) (fun h op => Clean x P h op ∧ (h.after x op).km.Fits) (created x pass random salt) ops) :
    Runs.Always (step x) (Books x) (created x pass random salt) ops := by
  refine Runs.always_of_each (I := Sound x (hashBytes 32 random) P) ?_ (books_of_sound hx) (sound_created hstarts) hclean
  intro h op h' hsound hclean hstep
  cases hstep
  exact hsound.after hx hclean.1 hclean.2

/-- An encryption that writes its password down -/
def noted : Cryptography Unit (Bytes × Bytes) where
  toPublic := BitVec.setWidth _
  toAddress := BitVec.setWidth _
  encrypt m p _ := (m, p)
  decrypt e p := if p = e.2 then e.1 else []
  pbkdf2 size p _ := BitVec.ofNat (8 * size) (256 * p.length + (p.headD 0).toNat + 1)
  encryptSymNoAuth _ b := b
  decryptSymNoAuth _ b := b

theorem ideal_noted : noted.Ideal where
  decrypt_encrypt _ _ _ := if_pos rfl
  decrypt_of_ne _ _ _ _ hp := if_neg hp
  decrypt_encryptSym _ _ := rfl
  encryptSym_ne_nil _ _ hb := hb

def notedPasswords : List Bytes := [[1], [2], hashBytes 32 0, hashBytes 16 258]

theorem starts_noted : Starts noted (· ∈ notedPasswords) [1] 0 0 where
  distinct := by
    have hdistinct : ∀ p ∈ notedPasswords, ∀ p' ∈ notedPasswords,
        noted.pbkdf2 32 p (hashBytes 32 0) = noted.pbkdf2 32 p' (hashBytes 32 0) → p = p' := by decide +kernel
    exact fun p p' hp hp' => hdistinct p hp p' hp'
  password := by decide +kernel
  defaultPassword := by decide +kernel
  key_ne := by decide +kernel
  keyPassword := by decide +kernel

theorem books_noted : Runs.Always (step noted) (Books noted) (created noted [1] 0 0)
    [.import_ 5 [6] [1] [7] 1 (), .recode 5 [2] [] (fun _ => some [1]) (), .load [1], .kill 5] := by
  have hclean : Runs.Each (step noted) (fun h op => Clean noted (· ∈ notedPasswords) h op ∧ (h.after noted op).km.Fits)
      (created noted [1] 0 0)
      [.import_ 5 [6] [1] [7] 1 (), .recode 5 [2] [] (fun _ => some [1]) (), .load [1], .kill 5] := by
    rw [each_step_cons, each_step_cons, each_step_cons, each_step_cons]
    refine ⟨⟨?_, ?_⟩, ⟨⟨by decide +kernel, ?_⟩, ?_⟩, ⟨?_, ?_⟩, ⟨trivial, ?_⟩, trivial⟩
    · rw [Clean]
      decide +kernel
    · rw [KeyManager.Fits]
      decide +kernel
    · rintro i p ⟨⟩
      decide +kernel
    · rw [KeyManager.Fits]
      decide +kernel
    · rw [Clean]
      decide +kernel
    · rw [KeyManager.Fits]
      decide +kernel
    · rw [KeyManager.Fits]
      decide +kernel
  exact books_of_clean ideal_noted starts_noted _ hclean

/-- The second key of an address is listed as the first one is, which is not found from the address any more. -/
theorem not_books : noted.Ideal ∧ Starts noted (· ∈ notedPasswords) [1] 0 0 ∧
    ¬ Runs.Always (step noted) (Books noted) (created noted [1] 0 0)
    [.import_ 5 [] [1] [] 1 (), .import_ 5 [] [1] [] 2 ()] := by
  refine ⟨ideal_noted, starts_noted, fun h => ?_⟩
  have hbooks : Books noted (((created noted [1] 0 0).after noted (.import_ 5 [] [1] [] 1 ())).after noted
      (.import_ 5 [] [1] [] 2 ())) :=
    (h.2 _ rfl).2 _ rfl
  have hinverse := hbooks.inverse 5 1
  revert hinverse
  decide +kernel

end History

end Kmdx.Keys
