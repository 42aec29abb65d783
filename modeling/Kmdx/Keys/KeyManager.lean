import Kmdx.Keys.SecretStore
import Mathlib.Data.Finset.Sort

/-!
# The key manager (`libwingcore/KeyManager.h`, `KeyManager.cpp`)

Accounts with their names, the hints of passwords, and where the key of an account is in the store; all of it is in one
encrypted file, too. A password is asked for by a function, which may throw.
-/

namespace Kmdx.Keys

open Rlp P2p Wp

inductive Exn
  | rlp (e : Rlp.Exn)
  | passwordUnknown
  | outOfRange
deriving DecidableEq

structure KeyInfo where
  passHash : FixedHash 32 := 0
  accountName : Bytes := []
  passwordHint : Bytes := []
deriving DecidableEq

structure KeyManager (C : Type) where
  m_uuidLookup : AList fun _ : H128 => Address := ∅
  m_addrLookup : AList fun _ : Address => H128 := ∅
  m_keyInfo : AList fun _ : Address => KeyInfo := ∅
  m_passwordHint : AList fun _ : FixedHash 32 => Bytes := ∅
  m_cachedPasswords : AList fun _ : FixedHash 32 => Bytes := ∅
  m_defaultPasswordDeprecated : Bytes := []
  m_keysFileKey : FixedHash 16 := 0
  m_master : FixedHash 32 := 0
  m_store : SecretStore C := {}
  /-- The contents of `m_keysFile` and of the file of its salt, empty if they are not there -/
  keysFile : Bytes := []
  saltFile : Bytes := []

/-- What a function answers that is asked for a password again and again, `none` if it throws -/
abbrev Answers := Nat → Option Bytes

/-- `DontKnowThrow` -/
def dontKnowThrow : Answers := fun _ => none

abbrev M (C : Type) := EStateM Exn (KeyManager C)

instance liftRlp {C : Type} : MonadLift (Except Rlp.Exn) (M C) where
  monadLift
    | .ok a => pure a
    | .error e => throw (.rlp e)

namespace KeyManager

variable {R C : Type} (x : Cryptography R C)

/-- A manager of the files that are there -/
def make (files : AList fun _ : H128 => C × Address) (keysFile saltFile : Bytes) : KeyManager C :=
  let m_store := SecretStore.load files
  { m_store, keysFile, saltFile
    m_addrLookup := (∅ : AList fun _ : Address => H128).insertAll (m_store.m_keys.entries.map fun k => ⟨k.2.address, k.1⟩)
    m_uuidLookup := (∅ : AList fun _ : H128 => Address).insertAll (m_store.m_keys.entries.map fun k => ⟨k.1, k.2.address⟩) }

/-! ### Passwords -/

def hashPassword (pass : Bytes) (km : KeyManager C) : FixedHash 32 := x.pbkdf2 32 pass km.m_defaultPasswordDeprecated

def cachePassword (password : Bytes) : M C Unit :=
  modify fun km => { km with m_cachedPasswords := km.m_cachedPasswords.insert (km.hashPassword x password) password }

def noteHint (pass hint : Bytes) : M C Unit :=
  modify fun km => if hint ≠ [] then
    { km with m_passwordHint := km.m_passwordHint.insert (km.hashPassword x pass) hint } else km

/-- The loop of `getPassword`, so many times, from the answer at an index -/
def askPassword (passHash : FixedHash 32) (pass : Answers) : Nat → Nat → M C Bytes
  | 0, _ => return []
  | n + 1, i =>
    match pass i with
    | none => throw .passwordUnknown
    | some p => do
      if p = [] then
        return []
      if passHash = 0 ∨ (← get).hashPassword x p = passHash then
        cachePassword x p
        return p
      askPassword passHash pass n (i + 1)

def getPasswordByHash (passHash : FixedHash 32) (pass : Answers) : M C Bytes := do
  match (← get).m_cachedPasswords.lookup passHash with
  | some p => return p
  | none => askPassword x passHash pass 10 0

def passHashOf (uuid : H128) (km : KeyManager C) : FixedHash 32 :=
  match km.m_uuidLookup.lookup uuid with
  | some a => (km.m_keyInfo.lookup a).elim 0 (·.passHash)
  | none => 0

def getPassword (uuid : H128) (pass : Answers) : M C Bytes := do getPasswordByHash x ((← get).passHashOf uuid) pass

def defaultPassword : M C Bytes := do getPasswordByHash x (← get).m_master dontKnowThrow

/-! ### Secrets -/

/-- `m_store.secret`, which asks for a password if the key is not cached. -/
def storeSecret (uuid : H128) (pass : M C Bytes) (useCache : Bool := true) : M C Bytes := do
  let st := (← get).m_store
  match if useCache then st.m_cached.lookup uuid else none with
  | some key => return key
  | none =>
    match st.m_keys.lookup uuid with
    | none => return []
    | some k => do
      let key := x.decrypt k.encryptedKey (← pass)
      if key ≠ [] then
        modify fun km => { km with m_store := { km.m_store with m_cached := km.m_store.m_cached.insert uuid key } }
        modify fun km => { km with m_store := (km.m_store.noteAddress uuid (x.toAddress (x.toPublic (ofRef 32 key)))).2 }
      return key

def secretOf (uuid : H128) (pass : Answers) (usePasswordCache : Bool := true) : M C Secret := do
  if usePasswordCache then
    return ofRef 32 (← storeSecret x uuid (getPassword x uuid pass) usePasswordCache)
  else
    return ofRef 32 (← storeSecret x uuid (match pass 0 with | some p => pure p | none => throw .passwordUnknown)
      usePasswordCache)

def secret (address : Address) (pass : Answers) (usePasswordCache : Bool := true) : M C Secret := do
  match (← get).m_addrLookup.lookup address with
  | some uuid => secretOf x uuid pass usePasswordCache
  | none => throw .outOfRange

def uuid (address : Address) (km : KeyManager C) : H128 := (km.m_addrLookup.lookup address).getD 0

/-- `m_store.recode` -/
def storeRecode (uuid : H128) (newPass : Bytes) (pass : M C Bytes) (random : R) : M C Bool := do
  let s ← storeSecret x uuid pass
  if s = [] then
    return false
  modify fun km => { km with m_store := { km.m_store with m_cached := km.m_store.m_cached.erase uuid } }
  modify fun km => { km with m_store := (km.m_store.setEncryptedKey uuid (x.encrypt s newPass random)).save }
  return true

/-! ### The keys file -/

/-- An account in the file -/
def streamAccount (km : KeyManager C) (info : Σ _ : Address, KeyInfo) : List Op :=
  [.appendList 5, .append (hashBytes 20 info.1) false, .append (hashBytes 16 (km.uuid info.1)) false,
    .append (hashBytes 32 info.2.passHash) false, .append info.2.accountName false, .append info.2.passwordHint false]

def streamHint (i : Σ _ : FixedHash 32, Bytes) :
    List Op := [.appendList 2, .append (hashBytes 32 i.1) false, .append i.2 false]

def streamRLP (km : KeyManager C) : List Op :=
  .appendList 4 :: .appendInt 1 :: .appendList km.m_keyInfo.entries.length ::
    (km.m_keyInfo.entries.flatMap km.streamAccount ++ .appendList km.m_passwordHint.entries.length ::
      (km.m_passwordHint.entries.flatMap streamHint ++ [.append km.m_defaultPasswordDeprecated false]))

/-- With a key -/
def writeKey (key : FixedHash 16) : M C Unit := do
  let out ← (run (← get).streamRLP {} >>= RLPStream.output : Except Rlp.Exn Bytes)
  modify fun km => { km with keysFile := x.encryptSymNoAuth key out, m_keysFileKey := key }
  cachePassword x (← defaultPassword x)

/-- With a password -/
def writePass (pass : Bytes) (salt : FixedHash 32) : M C Unit := do
  let key := x.pbkdf2 16 pass (hashBytes 32 salt)
  modify fun km => { km with saltFile := hashBytes 32 salt }
  cachePassword x pass
  modify fun km => { km with m_master := km.hashPassword x pass }
  writeKey x key

/-- If it has been loaded -/
def write : M C Bool := do
  let key := (← get).m_keysFileKey
  if key = 0 then
    return false
  writeKey x key
  return true

def create (pass : Bytes) (random salt : FixedHash 32) : M C Unit := do
  modify fun km => { km with m_defaultPasswordDeprecated := hashBytes 32 random }
  writePass x pass salt

def stringAt (k : Nat) : Rlp.M Bytes := do toBytes (← item k).data

def countOf : Rlp.M Nat := do itemCount (← get).data

/-- The place of an account in the file -/
def accountPlace : Rlp.M (H128 × Address) := do
  let uuid ← hashAt 16 1
  let addr ← hashAt 20 0
  return (uuid, addr)

def accountInfo : Rlp.M KeyInfo := do
  let passHash ← hashAt 32 2
  let accountName ← stringAt 3
  let count ← countOf
  let passwordHint ← if count > 4 then stringAt 4 else pure []
  return { passHash, accountName, passwordHint }

def hintFields : Rlp.M (FixedHash 32 × Bytes) := do
  let passHash ← hashAt 32 0
  let hint ← stringAt 1
  return (passHash, hint)

/-- An account is loaded if its key is there; whether the store has to be saved. -/
def loadAccount (i : RLP) : M C Bool := do
  let (uuid, addr) ← eval accountPlace i
  if uuid ≠ 0 then
    if (← get).m_store.contains uuid then
      modify fun km => { km with
        m_addrLookup := km.m_addrLookup.insert addr uuid
        m_uuidLookup := km.m_uuidLookup.insert uuid addr }
      let info ← eval accountInfo i
      modify fun km => { km with m_keyInfo := km.m_keyInfo.insert addr info }
      let (noted, m_store) := (← get).m_store.noteAddress uuid addr
      modify fun km => { km with m_store }
      return noted
    else
      return false
  else
    let info ← eval accountInfo i
    modify fun km => { km with m_keyInfo := km.m_keyInfo.insert addr info }
    return false

def loadAccounts : List RLP → Bool → M C Bool
  | [], saveRequired => return saveRequired
  | i :: is, saveRequired => do
    let noted ← loadAccount i
    loadAccounts is (saveRequired || noted)

def loadHints : List RLP → M C Unit
  | [] => return
  | i :: is => do
    let (passHash, hint) ← eval hintFields i
    modify fun km => { km with m_passwordHint := km.m_passwordHint.insert passHash hint }
    loadHints is

/-- The contents of the file -/
def loadContents (s : RLP) : M C Unit := do
  let saveRequired ← loadAccounts (← elements (← eval (item 1) s).data) false
  if saveRequired then
    modify fun km => { km with m_store := km.m_store.save }
  loadHints (← elements (← eval (item 2) s).data)
  let password ← eval (stringAt 3) s
  modify fun km => { km with m_defaultPasswordDeprecated := password }

def loadFile (pass : Bytes) : M C Unit := do
  let key := x.pbkdf2 16 pass (← get).saltFile
  modify fun km => { km with m_keysFileKey := key }
  let s ← RLP.mk' (x.decryptSymNoAuth key (← get).keysFile)
  let version ← eval (intAt 4 0) s
  if version = 1 then
    loadContents s
  cachePassword x (← get).m_defaultPasswordDeprecated
  cachePassword x (hashBytes 16 (← get).m_keysFileKey)
  modify fun km => { km with m_master := km.hashPassword x pass }
  cachePassword x pass

/-- What is thrown is caught. -/
def load (pass : Bytes) : M C Bool := do
  if (← get).keysFile = [] then
    return false
  else
    tryCatch (do loadFile x pass; return true) fun _ => return false

/-! ### Operations -/

def recode (address : Address) (newPass hint : Bytes) (pass : Answers) (random : R) : M C Bool := do
  noteHint x newPass hint
  let u := (← get).uuid address
  if !(← storeRecode x u newPass (getPassword x u pass) random) then
    return false
  modify fun km => { km with
    m_keyInfo := km.m_keyInfo.insert address
      { (km.m_keyInfo.lookup address).getD {} with passHash := km.hashPassword x newPass } }
  discard (write x)
  return true

/-- With a uuid that is drawn -/
def import_ (s : Secret) (accountName pass passwordHint : Bytes) (r : H128) (random : R) : M C H128 := do
  let addr := x.keyAddress s
  let passHash := (← get).hashPassword x pass
  cachePassword x pass
  modify fun km => { km with
    m_passwordHint := km.m_passwordHint.insert passHash passwordHint
    m_store := km.m_store.importSecret x (hashBytes 32 s) pass r random }
  modify fun km => { km with
    m_keyInfo := km.m_keyInfo.insert addr { passHash, accountName }
    m_addrLookup := km.m_addrLookup.insert addr r
    m_uuidLookup := km.m_uuidLookup.insert r addr }
  discard (write x)
  return r

/-- With an address and the hash of a password -/
def importAddress (uuid : H128) (accountName : Bytes) (address : Address) (passHash : FixedHash 32)
    (passwordHint : Bytes) : M C Unit := do
  if ((← get).m_passwordHint.lookup passHash).isNone then
    modify fun km => { km with m_passwordHint := km.m_passwordHint.insert passHash passwordHint }
  modify fun km => { km with
    m_uuidLookup := km.m_uuidLookup.insert uuid address
    m_addrLookup := km.m_addrLookup.insert address uuid
    m_keyInfo := km.m_keyInfo.insert address { (km.m_keyInfo.lookup address).getD {} with passHash, accountName } }
  discard (write x)

/-- With a password -/
def importExisting (uuid : H128) (info pass passwordHint : Bytes) : M C Unit := do
  let key ← storeSecret x uuid (return pass)
  if key = [] then
    return
  let a := x.keyAddress (ofRef 32 key)
  let passHash := (← get).hashPassword x pass
  if ((← get).m_cachedPasswords.lookup passHash).isNone then
    cachePassword x pass
  importAddress x uuid info a passHash passwordHint

def kill (a : Address) : M C Unit := do
  let id := (← get).uuid a
  modify fun km => { km with
    m_uuidLookup := km.m_uuidLookup.erase id
    m_addrLookup := km.m_addrLookup.erase a
    m_keyInfo := km.m_keyInfo.erase a
    m_store := km.m_store.kill id }
  discard (write x)

/-! ### Accounts -/

theorem trans_address : IsTrans Address (· ≤ ·) := inferInstance

theorem antisymm_address : Std.Antisymm fun a b : Address => a ≤ b := inferInstance

theorem total_address : Std.Total fun a b : Address => a ≤ b := inferInstance

attribute [local instance] trans_address antisymm_address total_address

/-- In the order of a set, without the zero address -/
def accounts (km : KeyManager C) : List Address :=
  ((km.m_keyInfo.keys ++ km.m_store.m_keys.entries.map fun k => k.2.address).toFinset.sort (· ≤ ·)).filter (0 < ·)

def hasAccount (address : Address) (km : KeyManager C) : Bool :=
  if address = 0 then false
  else (km.m_keyInfo.lookup address).isSome || km.m_store.m_keys.entries.any fun k => k.2.address = address

end KeyManager

end Kmdx.Keys
