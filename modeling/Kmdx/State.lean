import Kmdx.Account

/-!
# The account state (`libwing/State.h`, `libwing/State.cpp`)

A facade over the state trie: a cache of accounts, and a change log that `rollback` undoes by hand.
Reads go through `account`, which loads, caches and now and then purges, so they are calls too.

The database maps a digest to what it is the digest of. It is total: a node asked for by a hash that
was never stored reads as empty, where the source has `RootNotFound`. `mt19937` is not modelled: the
numbers `s_fixedHashEngine` has still to produce are a field of the state.
-/

namespace Kmdx

open Wp Function

structure OverlayDB (H : Type) where
  codes : H → Bytes
  storageTries : H → StorageTrie
  stateTries : H → StateTrie H

/-- `Change`: an atomic change log entry, with the fields its kind uses. -/
inductive Change (H : Type)
  | balance (address : Address) (value : U256)
  | storage (address : Address) (key value : U256)
  | storageRoot (address : Address) (value : H)
  | nonce (address : Address) (value : U256)
  | create (address : Address)
  | code (address : Address) (oldCode : Bytes)
  | touch (address : Address)

namespace Change

/-- `Change::address` -/
def address {H : Type} : Change H → Address
  | balance a _ | storage a _ _ | storageRoot a _ | nonce a _ | create a | code a _ | touch a => a

end Change

/-- `unordered_map<Address, Account>` -/
abbrev AccountMap (H : Type) := AList fun _ : Address => Account H

/-- `SecureTrieDB(_db, _root)`: `EmptyTrie` is the empty trie, whatever is stored. -/
def OverlayDB.storageTrie {H : Type} [Digest H] (db : OverlayDB H) (root : H) : StorageTrie :=
  if root = emptyTrie then fun _ => 0 else db.storageTries root

/-- A database with nothing in it. -/
def OverlayDB.empty {H : Type} : OverlayDB H where
  codes := fun _ => []
  storageTries := fun _ _ => 0
  stateTries := fun _ _ => none

structure State (H : Type) where
  db : OverlayDB H
  /-- `m_state.root()` -/
  root : H
  cache : AccountMap H
  unchangedCacheEntries : List Address
  nonExistingAccountsCache : Finset Address
  accountStartNonce : U256
  /-- `m_changeLog`, the back of the vector first. -/
  changeLog : List (Change H)
  /-- The numbers `s_fixedHashEngine` produces next. -/
  fixedHashEngine : Nat → Nat

/-- A call on the state; what it changed stays when it throws. -/
abbrev StateM (H : Type) := EStateM Exn (State H)

/-- `State::CommitBehaviour` -/
inductive CommitBehaviour
  | keepEmptyAccounts
  | removeEmptyAccounts
deriving DecidableEq

namespace State

variable {H : Type} [Digest H]

/-- `State(_accountStartNonce, _db, BaseState::PreExisting)` and `setRoot(_root)` -/
def preExisting (accountStartNonce : U256) (db : OverlayDB H) (root : H) (engine : Nat → Nat) :
    State H where
  db := db
  root := root
  cache := ∅
  unchangedCacheEntries := []
  nonExistingAccountsCache := ∅
  accountStartNonce := accountStartNonce
  changeLog := []
  fixedHashEngine := engine

/-- `State(_accountStartNonce, _db, BaseState::Empty)` -/
def empty (accountStartNonce : U256) (db : OverlayDB H) (engine : Nat → Nat) : State H :=
  let root := Digest.stateRoot fun _ => none
  preExisting accountStartNonce
    { db with stateTries := update db.stateTries root fun _ => none } root engine

/-- `State(State const& _s)` leaves the change log behind. -/
def copy (s : State H) : State H := { s with changeLog := [] }

/-- `m_state.at(_addr)` -/
def trieAt (s : State H) (a : Address) : Option (AccountRlp H) := s.db.stateTries s.root a

/-- `m_cache[a] = account` through a pointer or reference into the cache. -/
def put (a : Address) (account : Account H) : StateM H Unit :=
  modify fun s => { s with cache := s.cache.insert a account }

/-- `m_changeLog.emplace_back` -/
def log (c : Change H) : StateM H Unit :=
  modify fun s => { s with changeLog := c :: s.changeLog }

/-- `m_cache[a]`: `operator[]` makes a dead account where there is none. -/
def cacheAt (s : State H) (a : Address) : Account H := (s.cache.lookup a).getD .dead

/-- One turn of the loop of `clearCacheIfTooLarge`. -/
def purgeOne (s : State H) : State H :=
  let randomIndex := s.fixedHashEngine 0 % s.unchangedCacheEntries.length
  match s.unchangedCacheEntries[randomIndex]?, s.unchangedCacheEntries.getLast? with
  | some addr, some back =>
    { s with
      unchangedCacheEntries := (s.unchangedCacheEntries.set randomIndex back).dropLast
      fixedHashEngine := fun i => s.fixedHashEngine (i + 1)
      cache := match s.cache.lookup addr with
        | some acc => if acc.isDirty then s.cache else s.cache.erase addr
        | none => s.cache }
  | _, _ => s

/-- `while (m_unchangedCacheEntries.size() > 1000)`: a turn takes one entry out, so the excess is the
number of turns. -/
def purge : Nat → State H → State H
  | 0, s => s
  | n + 1, s => purge n s.purgeOne

def clearCacheIfTooLarge (s : State H) : State H := purge (s.unchangedCacheEntries.length - 1000) s

def account (a : Address) : StateM H (Option (Account H)) := do
  let s ← get
  match s.cache.lookup a with
  | some acc => return some acc
  | none =>
    if a ∈ s.nonExistingAccountsCache then return none
    match s.trieAt a with
    | none =>
      set { s with nonExistingAccountsCache := insert a s.nonExistingAccountsCache }
      return none
    | some r =>
      let s := s.clearCacheIfTooLarge
      set { s with
        cache := s.cache.insert a (.ofRlp r)
        unchangedCacheEntries := s.unchangedCacheEntries ++ [a] }
      return some (.ofRlp r)

def requireAccountStartNonce : StateM H U256 := do
  let s ← get
  if s.accountStartNonce = invalid256 then throw .invalidAccountStartNonceInState
  return s.accountStartNonce

def addressInUse (a : Address) : StateM H Bool := do
  let acc ← account a
  return acc.isSome

def accountNonemptyAndExisting (a : Address) : StateM H Bool := do
  match ← account a with
  | some acc => return !acc.isEmpty
  | none => return false

def addressHasCode (a : Address) : StateM H Bool := do
  match ← account a with
  | some acc => return decide (acc.codeHash ≠ emptySHA3)
  | none => return false

def balance (a : Address) : StateM H U256 := do
  match ← account a with
  | some acc => return acc.balance
  | none => return 0

def getNonce (a : Address) : StateM H U256 := do
  match ← account a with
  | some acc => return acc.nonce
  | none => return (← get).accountStartNonce

def createAccount (a : Address) (acc : Account H) : StateM H Unit := do
  if ← addressInUse a then throw .assertion
  modify fun s => { s with
    cache := s.cache.insert a acc
    nonExistingAccountsCache := s.nonExistingAccountsCache.erase a }
  log (.create a)

def createContract (a : Address) : StateM H Unit := do
  let nonce ← requireAccountStartNonce
  createAccount a (.mk' nonce 0)

def incNonce (a : Address) : StateM H Unit := do
  match ← account a with
  | some acc =>
    put a acc.incNonce
    log (.nonce a acc.nonce)
  | none =>
    -- This is possible if a transaction has gas price 0.
    let nonce ← requireAccountStartNonce
    createAccount a (.mk' (nonce + 1) 0)

def setNonce (a : Address) (newNonce : U256) : StateM H Unit := do
  match ← account a with
  | some acc =>
    put a (acc.setNonce newNonce)
    log (.nonce a acc.nonce)
  | none =>
    -- This is possible when a contract is being created.
    createAccount a (.mk' newNonce 0)

def addBalance (a : Address) (amount : U256) : StateM H Unit := do
  match ← account a with
  | some acc =>
    -- only the first touch of an empty account is logged
    if !acc.isDirty && acc.isEmpty then log (.touch a)
    put a (acc.addBalance amount)
  | none =>
    let nonce ← requireAccountStartNonce
    createAccount a (.mk' nonce amount)
  if amount ≠ 0 then log (.balance a amount)

def subBalance (a : Address) (value : U256) : StateM H Unit := do
  if value = 0 then return
  match ← account a with
  | some acc => if acc.balance < value then throw .notEnoughCash
  | none => throw .notEnoughCash
  addBalance a (0 - value)

def setBalance (a : Address) (value : U256) : StateM H Unit := do
  let original ← balance a
  addBalance a (value - original)

def transferBalance (sender receiver : Address) (value : U256) : StateM H Unit := do
  subBalance sender value
  addBalance receiver value

def kill (a : Address) : StateM H Unit := do
  match ← account a with
  | some acc => put a acc.kill
  | none => return

def storage (a : Address) (key : U256) : StateM H U256 := do
  match ← account a with
  | some acc =>
    match acc.storageOverlay.lookup key with
    | some v => return v
    | none =>
      -- Not in the storage cache - go to the DB.
      let ret := (← get).db.storageTrie acc.storageRoot key
      put a (acc.setStorageCache key ret)
      return ret
  | none => return 0

def setStorage (a : Address) (key value : U256) : StateM H Unit := do
  let old ← storage a key
  log (.storage a key old)
  modify fun s => { s with cache := s.cache.insert a ((s.cacheAt a).setStorage key value) }

def clearStorage (a : Address) : StateM H Unit := do
  modify fun s => { s with cache := s.cache.insert a (s.cacheAt a) }
  let oldHash := ((← get).cacheAt a).storageRoot
  if oldHash = emptyTrie then return
  log (.storageRoot a oldHash)
  modify fun s => { s with cache := s.cache.insert a (s.cacheAt a).clearStorage }

/-- `State::storage(Address)`. The source keys the map by `sha3(key)` and stores the key with the
value; this one is keyed by the key. -/
def storageMap (a : Address) : StateM H (U256 → Option U256) := do
  match ← account a with
  | some acc =>
    let memdb := (← get).db.storageTrie acc.storageRoot
    let ret := fun key => if memdb key = 0 then none else some (memdb key)
    return acc.storageOverlay.entries.foldl
      (fun ret i => update ret i.1 (if i.2 = 0 then none else some i.2)) ret
  | none => return fun _ => none

def code (a : Address) : StateM H Bytes := do
  match ← account a with
  | some acc =>
    if acc.codeHash = emptySHA3 then return []
    if acc.codeCache = [] then
      -- Load the code from the backend.
      let code := (← get).db.codes acc.codeHash
      put a (acc.noteCode code)
      return code
    return acc.codeCache
  | none => return []

def setCode (a : Address) (code' : Bytes) : StateM H Unit := do
  let oldCode ← code a
  log (.code a oldCode)
  modify fun s => { s with cache := s.cache.insert a ((s.cacheAt a).setCode code') }

def codeHash (a : Address) : StateM H H := do
  match ← account a with
  | some acc => return acc.codeHash
  | none => return emptySHA3

def savepoint : StateM H Nat := do return (← get).changeLog.length

/-- One turn of the loop of `rollback`: what it does for the entry at the back. -/
def undoChange (c : Change H) (s : State H) : State H :=
  let account := s.cacheAt c.address
  let s := { s with cache := s.cache.insert c.address account }
  match c with
  | .storage a key value => { s with cache := s.cache.insert a (account.setStorage key value) }
  | .storageRoot a value => { s with cache := s.cache.insert a (account.setStorageRoot value) }
  | .balance a value => { s with cache := s.cache.insert a (account.addBalance (0 - value)) }
  | .nonce a value => { s with cache := s.cache.insert a (account.setNonce value) }
  | .create a => { s with cache := s.cache.erase a }
  | .code a oldCode => { s with cache := s.cache.insert a (account.setCode oldCode) }
  | .touch a =>
    { s with
      cache := s.cache.insert a account.untouch
      unchangedCacheEntries := s.unchangedCacheEntries ++ [a] }

/-- `while (_savepoint != m_changeLog.size())`, over the entries of `m_changeLog` from the back. -/
def rollbackLoop (savepoint : Nat) : List (Change H) → State H → State H
  | [], s => s
  | c :: l, s =>
    if savepoint = (c :: l).length then s
    else rollbackLoop savepoint l { undoChange c s with changeLog := l }

def rollback (savepoint : Nat) : StateM H Unit :=
  modify fun s => rollbackLoop savepoint s.changeLog s

/-! ### Commit -/

/-- `storageDB.insert` or `storageDB.remove`: 0 is the absence of a word. -/
def storageInsert (p : OverlayDB H × H) (key value : U256) : OverlayDB H × H :=
  let t := update (p.1.storageTrie p.2) key value
  ({ p.1 with storageTries := update p.1.storageTries (Digest.storageRoot t) t },
    Digest.storageRoot t)

/-- `_state.insert` or `_state.remove` -/
def stateInsert (p : OverlayDB H × H) (a : Address) (r : Option (AccountRlp H)) : OverlayDB H × H :=
  let t := update (p.1.stateTries p.2) a r
  ({ p.1 with stateTries := update p.1.stateTries (Digest.stateRoot t) t },
    Digest.stateRoot t)

/-- The storage root that goes into the trie for `acc`. -/
def commitStorage (db : OverlayDB H) (acc : Account H) : OverlayDB H × H :=
  acc.storageOverlay.entries.foldl (fun p j => storageInsert p j.1 j.2) (db, acc.storageRoot)

def commitCode (db : OverlayDB H) (acc : Account H) : OverlayDB H :=
  if acc.hasNewCode then
    { db with codes := update db.codes acc.codeHash acc.codeCache }
  else db

/-- The body of the loop of `dev::eth::commit`. -/
def commitAccount (p : OverlayDB H × H) (a : Address) (acc : Account H) : OverlayDB H × H :=
  if !acc.isDirty then p
  else if !acc.isAlive then stateInsert p a none
  else
    let q := commitStorage p.1 acc
    stateInsert (commitCode q.1 acc, p.2) a
      (some { nonce := acc.nonce, balance := acc.balance, storageRoot := q.2, codeHash := acc.codeHash })

/-- `dev::eth::commit` -/
def commitCache (cache : AccountMap H) (p : OverlayDB H × H) : OverlayDB H × H :=
  cache.entries.foldl (fun p i => commitAccount p i.1 i.2) p

/-- `removeEmptyAccounts` on one account. -/
def killIfEmpty (acc : Account H) : Account H :=
  if acc.isDirty && acc.isEmpty then acc.kill else acc

def removeEmptyAccounts (s : State H) : State H :=
  { s with
    cache := ⟨s.cache.entries.map fun i => ⟨i.1, killIfEmpty i.2⟩, by
      simpa [List.NodupKeys, List.keys, comp_def] using s.cache.nodupKeys⟩ }

def commit (behaviour : CommitBehaviour) : StateM H Unit :=
  modify fun s =>
    let s := if behaviour = .removeEmptyAccounts then s.removeEmptyAccounts else s
    let p := commitCache s.cache (s.db, s.root)
    { s with db := p.1, root := p.2, changeLog := [], cache := ∅, unchangedCacheEntries := [] }

/-- `m_cache.clear()`, as `execute` does after a reverted transaction. -/
def clearCache : StateM H Unit := modify fun s => { s with cache := ∅ }

def setRoot (root : H) : StateM H Unit :=
  modify fun s =>
    { s with root := root, cache := ∅, unchangedCacheEntries := [], nonExistingAccountsCache := ∅ }

end State

end Kmdx
