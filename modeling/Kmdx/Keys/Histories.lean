import Kmdx.Keys.KeyManager

/-!
# What a key manager is for

Beside the manager stands what its user knows: the accounts, each with its secret and the password that it has been given
last, the password of the keys file, and what the manager said when the file was written last.
-/

namespace Kmdx.Keys

open Rlp P2p

variable {R C : Type} (x : Cryptography R C)

/-- What a manager says of its accounts -/
structure View where
  accounts : List Address
  keyInfo : Address → Option KeyInfo
  passwordHint : FixedHash 32 → Option Bytes
  addrLookup : Address → Option H128
  uuidLookup : H128 → Option Address

def KeyManager.view (km : KeyManager C) : View where
  accounts := km.accounts
  keyInfo := km.m_keyInfo.lookup
  passwordHint := km.m_passwordHint.lookup
  addrLookup := km.m_addrLookup.lookup
  uuidLookup := km.m_uuidLookup.lookup

structure Account where
  uuid : H128
  secret : Secret
  password : Bytes

/-! ### Operations -/

inductive Operation (R : Type)
  /-- With the uuid that is drawn, and what the encryption takes -/
  | import_ (s : Secret) (accountName pass passwordHint : Bytes) (r : H128) (random : R)
  | importExisting (uuid : H128) (info pass passwordHint : Bytes)
  | recode (address : Address) (newPass hint : Bytes) (pass : Answers) (random : R)
  | kill (address : Address)
  | secret (address : Address) (pass : Answers) (usePasswordCache : Bool)
  | save (pass : Bytes) (salt : FixedHash 32)
  /-- By another manager of the same files -/
  | load (pass : Bytes)

/-- The key is cached, or the password is the right one. -/
def KeyManager.opens (km : KeyManager C) (uuid : H128) (pass : Bytes) : Bool :=
  (km.m_store.m_cached.lookup uuid).isSome || (km.m_store.m_keys.lookup uuid).any fun k => x.decrypt k.encryptedKey pass ≠ []

/-- Whether it has been done -/
def Operation.run : Operation R → M C Bool
  | .import_ s accountName pass passwordHint r random => do
    discard (KeyManager.import_ x s accountName pass passwordHint r random)
    return true
  | .importExisting uuid info pass passwordHint => do
    let opens := (← get).opens x uuid pass
    KeyManager.importExisting x uuid info pass passwordHint
    return opens
  | .recode address newPass hint pass random => KeyManager.recode x address newPass hint pass random
  | .kill address => do
    KeyManager.kill x address
    return true
  | .secret address pass usePasswordCache => do
    discard (KeyManager.secret x address pass usePasswordCache)
    return true
  | .save pass salt => do
    KeyManager.writePass x pass salt
    return true
  | .load pass => do
    let km ← get
    set (KeyManager.make km.m_store.files km.keysFile km.saltFile)
    KeyManager.load x pass

/-! ### Histories -/

structure History (C : Type) where
  km : KeyManager C
  accounts : Address → Option Account
  /-- As it has been when the keys file was written last -/
  written : View
  /-- The password of the keys file -/
  master : Bytes

namespace History

/-- Whether it has been done, and the manager then, after an exception, too -/
def outcome (h : History C) (op : Operation R) : Bool × KeyManager C :=
  match op.run x h.km with
  | .ok done km => (done, km)
  | .error _ km => (false, km)

/-- The password of an account is another one. -/
def withPassword (accounts : Address → Option Account) (address : Address) (password : Bytes) : Address → Option Account :=
  Function.update accounts address ((accounts address).map fun a => { a with password })

/-- What the user makes of an operation that has been done -/
def accountsAfter (h : History C) : Operation R → Address → Option Account
  | .import_ s _ pass _ r _ => Function.update h.accounts (x.keyAddress s) (some ⟨r, s, pass⟩)
  | .importExisting uuid _ pass _ => (h.km.m_uuidLookup.lookup uuid).elim h.accounts fun a => withPassword h.accounts a pass
  | .recode address newPass _ _ _ => withPassword h.accounts address newPass
  | .kill address => Function.update h.accounts address none
  | _ => h.accounts

/-- Whether an operation ends with the file -/
def writes : Operation R → Bool
  | .secret .. | .load _ => false
  | _ => true

def masterAfter (h : History C) : Operation R → Bytes
  | .save pass _ => pass
  | _ => h.master

def after (h : History C) (op : Operation R) : History C :=
  let (done, km) := h.outcome x op
  { km
    accounts := if done then h.accountsAfter x op else h.accounts
    written := if done ∧ writes op then km.view else h.written
    master := h.masterAfter op }

/-- A manager of an empty directory, which has been created with a password -/
def created (pass : Bytes) (random salt : FixedHash 32) : History C :=
  let km : KeyManager C := .make ∅ [] []
  let km :=
    match KeyManager.create x pass random salt km with
    | .ok _ km => km
    | .error _ km => km
  { km, accounts := fun _ => none, written := km.view, master := pass }

/-- The books of a manager are right. -/
structure Books (h : History C) : Prop where
  /-- The lookups are inverse to each other, and list the keys of the store. -/
  inverse : ∀ a u, h.km.m_addrLookup.lookup a = some u ↔ h.km.m_uuidLookup.lookup u = some a
  listed : ∀ u, (h.km.m_uuidLookup.lookup u).isSome = h.km.m_store.contains u
  accounts : ∀ a, h.km.hasAccount a = true ↔ a ∈ h.km.accounts
  /-- The password of an account gives its secret. -/
  secret : ∀ a, h.km.hasAccount a = true ↔ ∃ e, h.accounts a = some e ∧ x.keyAddress e.secret = a ∧
    ∀ usePasswordCache, ∃ km, KeyManager.secret x a (fun _ => some e.password) usePasswordCache h.km = .ok e.secret km
  /-- Without an account there is none. -/
  closed : ∀ a pass usePasswordCache, h.km.hasAccount a = false →
    ∃ km, KeyManager.secret x a pass usePasswordCache h.km = .error .outOfRange km
  killed : ∀ a, (h.after x (.kill a)).km.hasAccount a = false
  /-- Loading gives back what has been written. -/
  loads : (h.outcome x (.load h.master)).1 = true
  restored : (h.after x (.load h.master)).km.view = h.written

end History

end Kmdx.Keys
