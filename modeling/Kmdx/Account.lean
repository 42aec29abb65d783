import Kmdx.Core

/-!
# Accounts (`libwing/Account.h`, `libwing/Account.cpp`)

The cached form of an account. `storageOverlay` is laid over the trie named by `storageRoot`; it
holds the words written since the last commit together with the words read since then.
-/

namespace Kmdx

/-- `unordered_map<u256, u256>` -/
abbrev StorageOverlay := AList fun _ : U256 => U256

structure Account (H : Type) where
  isAlive : Bool
  isUnchanged : Bool
  hasNewCode : Bool
  nonce : U256
  balance : U256
  storageRoot : H
  codeHash : H
  storageOverlay : StorageOverlay
  codeCache : Bytes

namespace Account

variable {H : Type} [Digest H]

/-- `Account()`: a dead account. -/
def dead : Account H where
  isAlive := false
  isUnchanged := false
  hasNewCode := false
  nonce := 0
  balance := 0
  storageRoot := emptyTrie
  codeHash := emptySHA3
  storageOverlay := ∅
  codeCache := []

/-- `Account(u256 _nonce, u256 _balance)`: alive and changed. -/
def mk' (nonce balance : U256) : Account H :=
  { (dead : Account H) with isAlive := true, nonce := nonce, balance := balance }

/-- `Account(u256, u256, h256, h256, Unchanged)`, as `State::account` populates it from the trie. -/
def ofRlp (r : AccountRlp H) : Account H :=
  { (dead : Account H) with
    isAlive := true, isUnchanged := true, nonce := r.nonce, balance := r.balance
    storageRoot := r.storageRoot, codeHash := r.codeHash }

def isDirty (a : Account H) : Bool := !a.isUnchanged

def isEmpty (a : Account H) : Bool :=
  decide (a.nonce = 0) && decide (a.balance = 0) && decide (a.codeHash = emptySHA3)

def changed (a : Account H) : Account H := { a with isUnchanged := false }

def untouch (a : Account H) : Account H := { a with isUnchanged := true }

/-- `kill` keeps `m_codeCache` and `m_hasNewCode`. -/
def kill (a : Account H) : Account H :=
  { a with
    isAlive := false, storageOverlay := ∅, codeHash := emptySHA3, storageRoot := emptyTrie
    balance := 0, nonce := 0, isUnchanged := false }

def addBalance (a : Account H) (value : U256) : Account H :=
  { a with balance := a.balance + value }.changed

def incNonce (a : Account H) : Account H := { a with nonce := a.nonce + 1 }.changed

def setNonce (a : Account H) (nonce : U256) : Account H := { a with nonce := nonce }.changed

def setStorage (a : Account H) (p v : U256) : Account H :=
  { a with storageOverlay := a.storageOverlay.insert p v }.changed

/-- Does not mark the account: the value is the one in the database. -/
def setStorageCache (a : Account H) (p v : U256) : Account H :=
  { a with storageOverlay := a.storageOverlay.insert p v }

def clearStorage (a : Account H) : Account H :=
  { a with storageOverlay := ∅, storageRoot := emptyTrie }.changed

def setStorageRoot (a : Account H) (root : H) : Account H :=
  { a with storageOverlay := ∅, storageRoot := root }.changed

/-- Leaves `m_isUnchanged` as it is. -/
def setCode (a : Account H) (code : Bytes) : Account H :=
  { a with codeCache := code, hasNewCode := true, codeHash := sha3 code }

def noteCode (a : Account H) (code : Bytes) : Account H := { a with codeCache := code }

end Account

end Kmdx
