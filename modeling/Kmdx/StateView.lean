import Kmdx.State

/-!
# What a state says about an account

`State.view s a` is the account at `a` with the caches read through: overlay over storage trie, code
loaded. Every read of `State` returns a function of the view (`eval_balance` and so on), so two states
with equal views cannot be told apart (`SameObs.of_view`).
-/

namespace Kmdx

open Wp

structure AccountView (H : Type) where
  isAlive : Bool
  nonce : U256
  balance : U256
  storageRoot : H
  codeHash : H
  code : Bytes
  storage : U256 → U256

/-- The accounts of a state, none where no account exists. -/
abbrev World (H : Type) := Address → Option (AccountView H)

variable {H : Type} [Digest H]

/-- What the reads cannot tell is left out: whether the account is alive, and its storage root. -/
def AccountView.readable (v : AccountView H) : AccountView H :=
  { v with isAlive := true, storageRoot := emptyTrie }

namespace Account

def storageAt (db : OverlayDB H) (acc : Account H) (key : U256) : U256 :=
  (acc.storageOverlay.lookup key).getD (db.storageTrie acc.storageRoot key)

def codeAt (db : OverlayDB H) (acc : Account H) : Bytes :=
  if acc.codeHash = emptySHA3 then []
  else if acc.codeCache = [] then db.codes acc.codeHash
  else acc.codeCache

def view (db : OverlayDB H) (acc : Account H) : AccountView H where
  isAlive := acc.isAlive
  nonce := acc.nonce
  balance := acc.balance
  storageRoot := acc.storageRoot
  codeHash := acc.codeHash
  code := acc.codeAt db
  storage := acc.storageAt db

/-! ### Views after a change of the account -/

section
variable (db : OverlayDB H) (acc : Account H)

theorem storageAt_insert (p v : U256) (o : StorageOverlay) (h : acc.storageOverlay = o.insert p v) :
    acc.storageAt db = Function.update ({ acc with storageOverlay := o }.storageAt db) p v := by
  funext k
  by_cases hk : k = p
  · subst hk; simp [storageAt, h]
  · simp [storageAt, h, AList.lookup_insert_ne hk, Function.update_of_ne hk]

@[simp] theorem view_addBalance (x : U256) :
    (acc.addBalance x).view db = { acc.view db with balance := (acc.view db).balance + x } := rfl

@[simp] theorem view_setStorage (p v : U256) : (acc.setStorage p v).view db =
    { acc.view db with storage := Function.update (acc.view db).storage p v } := by
  have := storageAt_insert db (acc.setStorage p v) p v acc.storageOverlay rfl
  simp only [view, this]; rfl

/-- A word noted from the database changes nothing. -/
theorem view_setStorageCache (p : U256) (h : acc.storageOverlay.lookup p = none) :
    (acc.setStorageCache p (db.storageTrie acc.storageRoot p)).view db = acc.view db := by
  have := storageAt_insert db (acc.setStorageCache p (db.storageTrie acc.storageRoot p)) p _
    acc.storageOverlay rfl
  simp only [view, this]
  congr 1
  have hp : acc.storageAt db p = db.storageTrie acc.storageRoot p := by simp [storageAt, h]
  rw [← hp]
  exact Function.update_eq_self ..

@[simp] theorem view_setStorageRoot (root : H) : (acc.setStorageRoot root).view db =
    { acc.view db with storageRoot := root, storage := db.storageTrie root } := by
  simp only [view, setStorageRoot, changed]
  congr 1

@[simp] theorem view_clearStorage : acc.clearStorage.view db =
    { acc.view db with storageRoot := emptyTrie, storage := db.storageTrie emptyTrie } :=
  view_setStorageRoot db acc emptyTrie

@[simp] theorem view_setCode (c : Bytes) : (acc.setCode c).view db =
    { acc.view db with
      codeHash := sha3 c, code := if sha3 c = (emptySHA3 : H) then [] else c } := by
  simp only [view, setCode]
  congr 1
  simp only [codeAt]
  by_cases h : sha3 c = (emptySHA3 : H)
  · simp [h]
  · have hc : c ≠ [] := fun hc => h (by rw [hc]; rfl)
    simp [h, hc]

theorem view_noteCode (h : acc.codeHash ≠ emptySHA3) (hc : acc.codeCache = []) :
    (acc.noteCode (db.codes acc.codeHash)).view db = acc.view db := by
  simp only [view, noteCode]
  congr 1
  simp only [codeAt, h, hc, if_false, if_true]
  split <;> simp [*]

end

end Account

/-- A committed account. -/
def AccountRlp.view (db : OverlayDB H) (r : AccountRlp H) : AccountView H := (Account.ofRlp r).view db

theorem AccountRlp.view_eq (db : OverlayDB H) (r : AccountRlp H) : r.view db = {
    isAlive := true
    nonce := r.nonce
    balance := r.balance
    storageRoot := r.storageRoot
    codeHash := r.codeHash
    code := if r.codeHash = emptySHA3 then [] else db.codes r.codeHash
    storage := db.storageTrie r.storageRoot } := rfl

/-- An account made by `Account(_nonce, _balance)`. -/
def AccountView.new (db : OverlayDB H) (nonce balance : U256) : AccountView H :=
  (Account.mk' nonce balance).view db

namespace State

/-- The account `State::account` returns. -/
def peek (s : State H) (a : Address) : Option (Account H) :=
  match s.cache.lookup a with
  | some acc => some acc
  | none => if a ∈ s.nonExistingAccountsCache then none else (s.trieAt a).map .ofRlp

def view (s : State H) : World H := fun a => (s.peek a).map (Account.view s.db)

/-- What the state trie holds, the cache left out. -/
def trieView (s : State H) : World H := fun a => (s.trieAt a).map (AccountRlp.view s.db)

theorem peek_of_lookup {s : State H} {a : Address} {acc : Account H}
    (h : s.cache.lookup a = some acc) : s.peek a = some acc := by
  simp [peek, h]

theorem view_of_lookup {s : State H} {a : Address} {acc : Account H}
    (h : s.cache.lookup a = some acc) : s.view a = some (acc.view s.db) := by
  simp [view, peek_of_lookup h]

theorem view_of_not_cached {s : State H} {a : Address} (h : s.cache.lookup a = none)
    (hne : a ∈ s.nonExistingAccountsCache → s.trieAt a = none) : s.view a = s.trieView a := by
  by_cases ha : a ∈ s.nonExistingAccountsCache
  · simp [view, peek, h, ha, trieView, hne ha]
  · simp [view, peek, h, ha, trieView, Option.map_map, Function.comp_def]; rfl

/-! ### Reads -/

/-- The state `account a` leaves: `a` is cached, if there is such an account. -/
def load (s : State H) (a : Address) : State H :=
  match s.cache.lookup a with
  | some _ => s
  | none =>
    if a ∈ s.nonExistingAccountsCache then s
    else match s.trieAt a with
      | none => { s with nonExistingAccountsCache := insert a s.nonExistingAccountsCache }
      | some r =>
        { s.clearCacheIfTooLarge with
          cache := s.clearCacheIfTooLarge.cache.insert a (.ofRlp r)
          unchangedCacheEntries := s.clearCacheIfTooLarge.unchangedCacheEntries ++ [a] }

/-- `account a` returns the account seen at `a`. -/
theorem account_run (s : State H) (a : Address) : account a s = .ok (s.peek a) (s.load a) := by
  unfold account peek load
  rw [run_bind, run_get]
  dsimp only
  cases s.cache.lookup a with
  | some acc => rfl
  | none =>
    by_cases hn : a ∈ s.nonExistingAccountsCache
    · simp only [hn, if_true]; rfl
    · simp only [hn, if_false]
      cases s.trieAt a <;> rfl

theorem wp_account {s : State H} {a : Address} {Q : Option (Account H) → State H → Prop}
    {E : Exn → State H → Prop} : wp (account a) Q E s ↔ Q (s.peek a) (s.load a) := by
  unfold wp; rw [account_run]

omit [Digest H] in
/-- Purging touches the cache and the book-keeping of purges only. -/
theorem purge_frame (n : Nat) (s : State H) : ∃ cache entries engine, purge n s =
    { s with cache := cache, unchangedCacheEntries := entries, fixedHashEngine := engine } := by
  induction n generalizing s with
  | zero => exact ⟨_, _, _, rfl⟩
  | succ n ih =>
    obtain ⟨c, u, e, h⟩ := ih s.purgeOne
    have h1 : ∃ c u e, s.purgeOne =
        { s with cache := c, unchangedCacheEntries := u, fixedHashEngine := e } := by
      unfold purgeOne
      dsimp only
      split
      exacts [⟨_, _, _, rfl⟩, ⟨_, _, _, rfl⟩]
    obtain ⟨c₁, u₁, e₁, h1⟩ := h1
    exact ⟨c, u, e, by rw [purge, h, h1]⟩

theorem load_frame (s : State H) (a : Address) : ∃ cache entries ne engine, s.load a =
    { s with
      cache := cache, unchangedCacheEntries := entries, nonExistingAccountsCache := ne
      fixedHashEngine := engine } := by
  obtain ⟨c, u, e, h⟩ := purge_frame (s.unchangedCacheEntries.length - 1000) s
  unfold load clearCacheIfTooLarge
  rw [h]
  split
  · exact ⟨_, _, _, _, rfl⟩
  · split
    · exact ⟨_, _, _, _, rfl⟩
    · split
      exacts [⟨_, _, _, _, rfl⟩, ⟨_, _, _, _, rfl⟩]

theorem db_load (s : State H) (a : Address) : (s.load a).db = s.db := by
  obtain ⟨_, _, _, _, h⟩ := load_frame s a; rw [h]

theorem root_load (s : State H) (a : Address) : (s.load a).root = s.root := by
  obtain ⟨_, _, _, _, h⟩ := load_frame s a; rw [h]

theorem changeLog_load (s : State H) (a : Address) : (s.load a).changeLog = s.changeLog := by
  obtain ⟨_, _, _, _, h⟩ := load_frame s a; rw [h]

theorem accountStartNonce_load (s : State H) (a : Address) :
    (s.load a).accountStartNonce = s.accountStartNonce := by
  obtain ⟨_, _, _, _, h⟩ := load_frame s a; rw [h]

theorem trieAt_load (s : State H) (a b : Address) : (s.load a).trieAt b = s.trieAt b := by
  rw [trieAt, db_load, root_load]; rfl

section
variable (s : State H) (a : Address) (key : U256)

theorem eval_balance : eval (balance a) s = .ok ((s.view a).elim 0 (·.balance)) := by
  unfold eval balance view
  rw [run_bind, account_run]
  cases s.peek a <;> rfl

theorem eval_codeHash : eval (codeHash a) s = .ok ((s.view a).elim emptySHA3 (·.codeHash)) := by
  unfold eval codeHash view
  rw [run_bind, account_run]
  cases s.peek a <;> rfl

theorem eval_addressInUse : eval (addressInUse a) s = .ok (s.view a).isSome := by
  unfold eval addressInUse view
  rw [run_bind, account_run]
  cases s.peek a <;> rfl

theorem eval_accountNonemptyAndExisting : eval (accountNonemptyAndExisting a) s =
    .ok ((s.view a).elim false fun v => !(decide (v.nonce = 0) && decide (v.balance = 0) &&
      decide (v.codeHash = emptySHA3))) := by
  unfold eval accountNonemptyAndExisting view
  rw [run_bind, account_run]
  cases s.peek a <;> rfl

theorem eval_getNonce :
    eval (getNonce a) s = .ok ((s.view a).elim s.accountStartNonce (·.nonce)) := by
  unfold eval getNonce view
  rw [run_bind, account_run]
  cases h : s.peek a with
  | some acc => rfl
  | none =>
    simp only [Option.map_none, Option.elim_none, ← accountStartNonce_load s a]
    rfl

theorem eval_storage : eval (storage a key) s = .ok ((s.view a).elim 0 (·.storage key)) := by
  unfold eval storage view
  rw [run_bind, account_run]
  cases s.peek a with
  | none => rfl
  | some acc =>
    simp only [Option.map_some, Option.elim_some, Account.view, Account.storageAt]
    cases acc.storageOverlay.lookup key with
    | some v => rfl
    | none =>
      simp only [run_bind, run_get, Option.getD_none, ← db_load s a]
      rfl

theorem eval_code : eval (code a) s = .ok ((s.view a).elim [] (·.code)) := by
  unfold eval code view
  rw [run_bind, account_run]
  cases s.peek a with
  | none => rfl
  | some acc =>
    simp only [Option.map_some, Option.elim_some, Account.view, Account.codeAt, ← db_load s a]
    split_ifs <;> rfl

end

/-- Merging the overlay over the trie's words, one entry after the other. -/
theorem foldl_overlay (l : List (Σ _ : U256, U256)) (hl : l.NodupKeys)
    (f : U256 → Option U256) (key : U256) :
    l.foldl (fun ret (i : Σ _ : U256, U256) =>
      Function.update ret i.1 (if i.2 = 0 then none else some i.2)) f key =
      match l.dlookup key with
      | some v => if v = 0 then none else some v
      | none => f key := by
  induction l generalizing f with
  | nil => rfl
  | cons i l ih =>
    obtain ⟨k, v⟩ := i
    rw [List.nodupKeys_cons] at hl
    rw [List.foldl_cons, ih hl.2]
    by_cases hk : key = k
    · subst hk
      have hnone : l.dlookup key = none := by
        rw [List.dlookup_eq_none]; exact hl.1
      rw [hnone, List.dlookup_cons_eq]
      simp
    · rw [List.dlookup_cons_ne _ _ hk]
      split <;> simp [*]

theorem eval_storageMap (s : State H) (a : Address) : eval (storageMap a) s =
    .ok fun key => (s.view a).elim none fun v => if v.storage key = 0 then none else some (v.storage key) := by
  unfold eval storageMap view
  rw [run_bind, account_run]
  cases s.peek a with
  | none => rfl
  | some acc =>
    simp only [run_bind, run_get, Option.map_some, Option.elim_some, db_load]
    show Except.ok _ = Except.ok _
    congr 1
    funext key
    rw [foldl_overlay _ acc.storageOverlay.nodupKeys]
    have h : ∀ (o : Option U256) (w : U256), (match o with
        | some v => if v = 0 then none else some v
        | none => if w = 0 then none else some w) =
        if o.getD w = 0 then none else some (o.getD w) := by
      rintro (_ | v) w <;> rfl
    exact h (acc.storageOverlay.lookup key) _

/-- Nonce, balance, storage slots, code, code hash and existence of every address are the same. -/
structure SameObs (s t : State H) : Prop where
  balance : ∀ a, eval (balance a) s = eval (balance a) t
  getNonce : ∀ a, eval (getNonce a) s = eval (getNonce a) t
  storage : ∀ a key, eval (storage a key) s = eval (storage a key) t
  storageMap : ∀ a, eval (storageMap a) s = eval (storageMap a) t
  code : ∀ a, eval (code a) s = eval (code a) t
  codeHash : ∀ a, eval (codeHash a) s = eval (codeHash a) t
  addressInUse : ∀ a, eval (addressInUse a) s = eval (addressInUse a) t
  accountNonemptyAndExisting : ∀ a,
    eval (accountNonemptyAndExisting a) s = eval (accountNonemptyAndExisting a) t

theorem SameObs.of_readable {s t : State H}
    (h : ∀ a, (s.view a).map AccountView.readable = (t.view a).map AccountView.readable)
    (hn : s.accountStartNonce = t.accountStartNonce) : SameObs s t := by
  have key : ∀ a {α : Type} (none : α) (f : AccountView H → α), (∀ v, f v.readable = f v) →
      (s.view a).elim none f = (t.view a).elim none f := by
    intro a α none f hf
    have : ∀ o : Option (AccountView H), o.elim none f = (o.map AccountView.readable).elim none f := by
      rintro (_ | v)
      exacts [rfl, (hf v).symm]
    rw [this, h a, ← this]
  constructor <;> intros
  · rw [eval_balance, eval_balance, key _ _ _ fun _ => rfl]
  · rw [eval_getNonce, eval_getNonce, hn, key _ _ _ fun _ => rfl]
  · rw [eval_storage, eval_storage, key _ _ _ fun _ => rfl]
  · rw [eval_storageMap, eval_storageMap]
    exact congrArg _ (funext fun k => key _ none _ fun _ => rfl)
  · rw [eval_code, eval_code, key _ _ _ fun _ => rfl]
  · rw [eval_codeHash, eval_codeHash, key _ _ _ fun _ => rfl]
  · rename_i a
    have : ∀ o : Option (AccountView H), o.isSome = o.elim false fun _ => true := by
      rintro (_ | v) <;> rfl
    rw [eval_addressInUse, eval_addressInUse, this, this, key _ _ _ fun _ => rfl]
  · rw [eval_accountNonemptyAndExisting, eval_accountNonemptyAndExisting, key _ _ _ fun _ => rfl]

theorem SameObs.of_view {s t : State H} (h : s.view = t.view)
    (hn : s.accountStartNonce = t.accountStartNonce) : SameObs s t :=
  .of_readable (fun a => by rw [h]) hn

end State

end Kmdx
