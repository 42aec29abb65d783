import Kmdx.Lib.InsertAll
import Kmdx.P2p.DevCrypto

/-!
# Secret keys in a directory (`libdevcrypto/SecretStore.h`, `SecretStore.cpp`)

A file for each key, which is named by the uuid of the key. What asks for a password is in the key manager.
-/

namespace Kmdx.Keys

open Rlp P2p

abbrev H128 := FixedHash 16

/-- What `libdevcrypto` does for the keys; an encryption takes a salt and an IV. -/
structure Cryptography (R C : Type) where
  toPublic : Secret → Public
  toAddress : Public → Address
  encrypt : Bytes → Bytes → R → C
  /-- Empty if the password is wrong -/
  decrypt : C → Bytes → Bytes
  pbkdf2 (size : Nat) : Bytes → Bytes → FixedHash size
  encryptSymNoAuth : FixedHash 16 → Bytes → Bytes
  decryptSymNoAuth : FixedHash 16 → Bytes → Bytes

/-- The address of a `KeyPair`, which has one only if the secret is valid -/
def Cryptography.keyAddress {R C : Type} (x : Cryptography R C) (s : Secret) : Address :=
  if x.toPublic s = 0 then 0 else x.toAddress (x.toPublic s)

structure EncryptedKey (C : Type) where
  encryptedKey : C
  /-- The file, if it is one of the directory -/
  filename : Option H128
  address : Address

structure SecretStore (C : Type) where
  m_cached : AList fun _ : H128 => Bytes := ∅
  m_keys : AList fun _ : H128 => EncryptedKey C := ∅
  /-- The directory `m_path`: what is in the files -/
  files : AList fun _ : H128 => C × Address := ∅

namespace SecretStore

variable {R C : Type} (x : Cryptography R C)

def contains (st : SecretStore C) (uuid : H128) : Bool := (st.m_keys.lookup uuid).isSome

/-- The address of a key, if it is not known yet -/
def noteAddress (st : SecretStore C) (uuid : H128) (address : Address) : Bool × SecretStore C :=
  match st.m_keys.lookup uuid with
  | some k => if k.address = 0 then (true, { st with m_keys := st.m_keys.insert uuid { k with address } }) else (false, st)
  | none => (false, st)

/-- A key is written to its file, and a file that it has had under another name is removed. -/
def saveFile (files : AList fun _ : H128 => C × Address) (k : Σ _ : H128, EncryptedKey C) : AList fun _ :
    H128 => C × Address :=
  let saved := files.insert k.1 (k.2.encryptedKey, k.2.address)
  match k.2.filename with
  | some filename => if filename = k.1 then saved else saved.erase filename
  | none => saved

def save (st : SecretStore C) : SecretStore C :=
  { st with
    m_keys := st.m_keys.insertAll (st.m_keys.entries.map fun k => ⟨k.1, { k.2 with filename := some k.1 }⟩)
    files := st.m_keys.entries.foldl saveFile st.files }

def importSecret (s pass : Bytes) (r : H128) (random : R) (st : SecretStore C) : SecretStore C :=
  let key := { encryptedKey := x.encrypt s pass random, filename := none, address := x.keyAddress (ofRef 32 s) }
  { st with m_cached := st.m_cached.insert r s, m_keys := st.m_keys.insert r key }.save

def kill (uuid : H128) (st : SecretStore C) : SecretStore C :=
  let st := { st with m_cached := st.m_cached.erase uuid }
  match st.m_keys.lookup uuid with
  | some k => { st with files := k.filename.elim st.files st.files.erase, m_keys := st.m_keys.erase uuid }
  | none => st

/-- `m_keys[_uuid].encryptedKey = …` -/
def setEncryptedKey (uuid : H128) (encryptedKey : C) (st : SecretStore C) : SecretStore C :=
  let k := (st.m_keys.lookup uuid).elim { encryptedKey, filename := none, address := 0 } fun k => { k with encryptedKey }
  { st with m_keys := st.m_keys.insert uuid k }

/-- A store of the files in a directory -/
def load (files : AList fun _ : H128 => C × Address) : SecretStore C :=
  { files
    m_keys := (∅ : AList fun _ : H128 => EncryptedKey C).insertAll
      (files.entries.map fun f => ⟨f.1, { encryptedKey := f.2.1, filename := some f.1, address := f.2.2 }⟩) }

end SecretStore

end Kmdx.Keys
