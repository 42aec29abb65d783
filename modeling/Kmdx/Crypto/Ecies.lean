import Kmdx.Crypto.Kdf
import Kmdx.Lib.KeyStream

/-!
# ECIES (`Secp256k1PP::encryptECIES`, `decryptECIES` of `libdevcrypto/CryptoPP.cpp`)

A message has the byte 4, a public key, an IV, the cipher text and a tag. That the cipher text is empty is how the cipher
fails, too: so nothing is made of an empty text (`ecies_iff`).
-/

namespace Kmdx.Crypto

open Rlp P2p List

/-- What the two ends compute with; the symmetric cipher has a key stream for a key and an IV. -/
structure Suite where
  toPublic : Secret → Public
  /-- `ecdh::agree`, `none` if it returns false -/
  agree : Secret → Public → Option Secret
  sha256 : Bytes → FixedHash 32
  hmac : Bytes → Bytes → FixedHash 32
  keyStream : FixedHash 16 → FixedHash 16 → Nat → Byte

namespace Suite

variable (x : Suite)

/-- As `decryptSymNoAuth` -/
def encryptSymNoAuth (key iv : FixedHash 16) (plain : Bytes) : Bytes := KeyStream.process (x.keyStream key iv) 0 plain

/-- The key of the cipher, of a derived key -/
def eKey (key : Bytes) : FixedHash 16 := ofRef 16 (cropped key 0 16)

def mKey (key : Bytes) : Bytes := hashBytes 32 (x.sha256 (cropped key 16 16))

/-- What is left of the text, with the secret of the key pair that is created, and the IV that is drawn -/
def encryptIn (k : Public) (sharedMacData io_cipher : Bytes) (r : Secret) (iv : FixedHash 16) : Bytes :=
  -- the secret stays 0 if there is no agreement
  let z := (x.agree r k).getD 0
  let key := kdf x.sha256 z [] 32
  let cipherText := x.encryptSymNoAuth (eKey key) iv io_cipher
  if cipherText = [] then io_cipher
  else
    let cipherWithIV := hashBytes 16 iv ++ cipherText
    [0x04] ++ hashBytes 64 (x.toPublic r) ++ cipherWithIV ++
      hashBytes 32 (x.hmac (x.mKey key) (cipherWithIV ++ sharedMacData))

/-- What is returned, and what is left of the text -/
def decryptIn (k : Secret) (sharedMacData io_text : Bytes) : Bool × Bytes :=
  if io_text = [] ∨ io_text.getD 0 0 < 2 ∨ io_text.getD 0 0 > 4 then (false, io_text)
  else if io_text.length < 1 + 64 + 16 + 1 + 32 then (false, io_text)
  else
    match x.agree k (ofRef 64 (cropped io_text 1 64)) with
    | none => (false, io_text)
    | some z =>
      let key := kdf x.sha256 z [] 64
      let cipherLen := io_text.length - 1 - 64 - 16 - 32
      let cipherWithIV := cropped io_text 65 (16 + cipherLen)
      let cipherIV := cropped cipherWithIV 0 16
      let cipherNoIV := cropped cipherWithIV 16 cipherLen
      let msgMac := cropped io_text (65 + 16 + cipherLen) 32
      let mac := x.hmac (x.mKey key) (cipherWithIV ++ sharedMacData)
      if hashBytes 32 mac ≠ msgMac then (false, io_text)
      else (true, x.encryptSymNoAuth (eKey key) (ofRef 16 cipherIV) cipherNoIV)

/-- `dev::encryptECIES` -/
def encryptECIES (k : Public) (sharedMacData plain : Bytes) (r : Secret) (iv : FixedHash 16) :
    Bytes := x.encryptIn k sharedMacData plain r iv

/-- `dev::decryptECIES`, with what is in the buffer then -/
def decryptECIES (k : Secret) (sharedMacData cipher o_plaintext : Bytes) : Bool × Bytes :=
  let (done, io) := x.decryptIn k sharedMacData cipher
  if done then (true, io) else (false, o_plaintext)

/-! ### What is to be protected -/

/-- The fields of a message -/
def message (pub : Public) (iv : FixedHash 16) (cipherText : Bytes) (tag : FixedHash 32) : Bytes :=
  [0x04] ++ hashBytes 64 pub ++ (hashBytes 16 iv ++ cipherText) ++ hashBytes 32 tag

/-- The derived key of two ends -/
def sharedKey (k : Public) (r : Secret) : Bytes := kdf x.sha256 ((x.agree r k).getD 0) [] 32

def tagOf (key : Bytes) (iv : FixedHash 16) (cipherText sharedMacData : Bytes) : FixedHash 32 :=
  x.hmac (x.mKey key) (hashBytes 16 iv ++ cipherText ++ sharedMacData)

/-- Nothing is decrypted, and nothing is written. -/
def Refuses (k : Secret) (sharedMacData cipher : Bytes) : Prop :=
  x.decryptIn k sharedMacData cipher = (false, cipher) ∧ ∀ o_plaintext,
    x.decryptECIES k sharedMacData cipher o_plaintext = (false, o_plaintext)

/-- A text is protected, if no two of some byte strings have one tag. -/
structure Protects (k r : Secret) (sharedMacData plain : Bytes) (iv : FixedHash 16) (M : Set Bytes) : Prop where
  roundTrip : ∀ o_plaintext, x.decryptECIES k sharedMacData (x.encryptECIES (x.toPublic k) sharedMacData plain r iv)
    o_plaintext = (true, plain)
  /-- Only what is encrypted of it is in the message. -/
  encrypted : ∃ tag, x.encryptECIES (x.toPublic k) sharedMacData plain r iv =
    message (x.toPublic r) iv (x.encryptSymNoAuth (eKey (x.sharedKey (x.toPublic k) r)) iv plain) tag
  /-- Something else in place of the IV, the cipher text and the shared data, or in place of the tag, is noticed. -/
  tampered : ∀ (iv' : FixedHash 16) (cipherText' sharedMacData' : Bytes) (tag' : FixedHash 32) (cipherText : Bytes)
    (tag : FixedHash 32),
    x.encryptECIES (x.toPublic k) sharedMacData plain r iv = message (x.toPublic r) iv cipherText tag →
      cipherText'.length = cipherText.length →
    hashBytes 16 iv ++ cipherText ++ sharedMacData ∈ M → hashBytes 16 iv' ++ cipherText' ++ sharedMacData' ∈ M →
    (tag' = tag ∧ (iv', cipherText', sharedMacData') ≠ (iv, cipherText, sharedMacData) ∨
      tag' ≠ tag ∧ (iv', cipherText', sharedMacData') = (iv, cipherText, sharedMacData)) →
    x.Refuses k sharedMacData' (message (x.toPublic r) iv' cipherText' tag')

/-! ### What is read from a message -/

variable {x : Suite} {k r : Secret} {pub : Public} {iv : FixedHash 16} {sharedMacData cipherText plain : Bytes}
    {tag : FixedHash 32} {z : Secret}

theorem cropped_of_prefix {a b : Bytes} {start count : Nat} (h : a <+: b) (hle : start + count ≤ a.length) :
    cropped b start count = cropped a start count := by
  obtain ⟨rest, rfl⟩ := h
  rw [cropped, cropped, if_pos hle, if_pos (by rw [length_append]; omega), drop_append_of_le_length (by omega),
    take_append_of_le_length (by rw [length_drop]; omega)]

theorem cropped_middle {d a b c : Bytes} {start count : Nat} (h : d = a ++ (b ++ c)) (ha : a.length = start)
    (hb : b.length = count) : cropped d start count = b := by
  subst h ha hb
  rw [cropped, if_pos (by rw [length_append, length_append]; omega), drop_left, take_left]

/-- Both ends have the keys of the first digest. -/
theorem keys_eq (x : Suite) (z : Secret) : eKey (kdf x.sha256 z [] 64) = eKey (kdf x.sha256 z [] 32) ∧
    x.mKey (kdf x.sha256 z [] 64) = x.mKey (kdf x.sha256 z [] 32) := by
  have hprefix : kdf x.sha256 z [] 32 <+: kdf x.sha256 z [] 64 := by
    rw [kdf_of_covers (by decide), kdf_of_covers (by decide)]
    exact derived_prefix (by decide)
  have hlength : (kdf x.sha256 z [] 32).length = 32 := by
    rw [kdf_of_covers (by decide), derived, length_take, length_stream]
    rfl
  rw [eKey, eKey, mKey, mKey, cropped_of_prefix hprefix (by rw [hlength]; decide),
    cropped_of_prefix hprefix (by rw [hlength])]
  exact ⟨rfl, rfl⟩

theorem length_message : (message pub iv cipherText tag).length = 113 + cipherText.length := by
  rw [message, length_append, length_append, length_append, length_append, length_hashBytes,
    length_hashBytes, length_hashBytes]
  simp only [List.length_cons, List.length_nil]
  omega

theorem decryptIn_message (hcipherText : cipherText ≠ []) (hagree : x.agree k pub = some z) :
    x.decryptIn k sharedMacData (message pub iv cipherText tag) =
      if x.tagOf (kdf x.sha256 z [] 32) iv cipherText sharedMacData = tag then
        (true, x.encryptSymNoAuth (eKey (kdf x.sha256 z [] 32)) iv cipherText)
      else (false, message pub iv cipherText tag) := by
  have hpos : 0 < cipherText.length := length_pos_of_ne_nil hcipherText
  have hlength := @length_message pub iv cipherText tag
  have hmessage : message pub iv cipherText tag = [0x04] ++
      (hashBytes 64 pub ++ (hashBytes 16 iv ++ cipherText ++ hashBytes 32 tag)) := by
    rw [message, append_assoc, append_assoc]
  have hpub : cropped (message pub iv cipherText tag) 1 64 =
      hashBytes 64 pub := cropped_middle hmessage rfl (length_hashBytes pub)
  have hwithIV : cropped (message pub iv cipherText tag) 65 (16 + cipherText.length) = hashBytes 16 iv ++ cipherText := by
    refine cropped_middle (hmessage.trans (append_assoc _ _ _).symm) ?_ ?_
    · rw [length_append, length_hashBytes]
      rfl
    · rw [length_append, length_hashBytes]
  have hmac : cropped (message pub iv cipherText tag) (65 + 16 + cipherText.length) 32 = hashBytes 32 tag := by
    refine cropped_middle (a := [0x04] ++ hashBytes 64 pub ++ (hashBytes 16 iv ++ cipherText)) (c := [])
      ?_ ?_ (length_hashBytes tag)
    · rw [message, append_nil]
    · rw [length_append, length_append, length_append, length_hashBytes, length_hashBytes]
      simp only [List.length_cons, List.length_nil]
      omega
  have hiv : cropped (hashBytes 16 iv ++ cipherText) 0 16 = hashBytes 16 iv := cropped_first iv cipherText
  have hcipher : cropped (hashBytes 16 iv ++ cipherText) 16 cipherText.length = cipherText :=
    cropped_middle (c := []) (by rw [append_nil]) (length_hashBytes iv) rfl
  have hfirst : ¬(message pub iv cipherText tag = [] ∨ (message pub iv cipherText tag).getD 0 0 < 2 ∨
      (message pub iv cipherText tag).getD 0 0 > 4) := by
    have hbyte : (message pub iv cipherText tag).getD 0 0 = 4 := by
      rw [hmessage]
      rfl
    rw [hbyte, hmessage]
    simp
  have hlong : ¬(message pub iv cipherText tag).length < 1 + 64 + 16 + 1 + 32 := by
    rw [hlength]
    omega
  have hcipherLen : (message pub iv cipherText tag).length - 1 - 64 - 16 - 32 = cipherText.length := by
    rw [hlength]
    omega
  obtain ⟨heKey, hmKey⟩ := keys_eq x z
  rw [decryptIn, if_neg hfirst, if_neg hlong, hpub, ofRef_hashBytes, hagree]
  dsimp only
  rw [hcipherLen, hwithIV, hmac, hiv, hcipher, ofRef_hashBytes, hmKey, heKey, tagOf]
  by_cases htag : x.hmac (x.mKey (kdf x.sha256 z [] 32)) (hashBytes 16 iv ++ cipherText ++ sharedMacData) = tag
  · rw [if_pos htag, if_neg (not_not.2 (congrArg _ htag))]
  · have hne : hashBytes 32 (x.hmac (x.mKey (kdf x.sha256 z [] 32)) (hashBytes 16 iv ++ cipherText ++ sharedMacData)) ≠
        hashBytes 32 tag := by
      intro h
      rw [← ofRef_hashBytes tag, ← h, ofRef_hashBytes] at htag
      exact htag rfl
    rw [if_neg htag, if_pos hne]

theorem encryptSymNoAuth_ne_nil {key : FixedHash 16} (h : plain ≠ []) : x.encryptSymNoAuth key iv plain ≠ [] := by
  intro hnil
  have hlength := congrArg List.length hnil
  rw [encryptSymNoAuth, KeyStream.length_process] at hlength
  exact h (eq_nil_of_length_eq_zero hlength)

theorem encryptIn_of_ne_nil (h : plain ≠ []) : x.encryptIn pub sharedMacData plain r iv =
    message (x.toPublic r) iv (x.encryptSymNoAuth (eKey (x.sharedKey pub r)) iv plain)
      (x.tagOf (x.sharedKey pub r) iv (x.encryptSymNoAuth (eKey (x.sharedKey pub r)) iv plain) sharedMacData) := by
  rw [encryptIn]
  exact if_neg (encryptSymNoAuth_ne_nil h)

theorem refuses_of_decryptIn (h : x.decryptIn k sharedMacData cipherText = (false, cipherText)) :
    x.Refuses k sharedMacData cipherText := by
  refine ⟨h, fun o_plaintext => ?_⟩
  rw [decryptECIES, h]
  rfl

/-- What cannot hold all fields is refused. -/
theorem refuses_short (h : cipherText.length < 1 + 64 + 16 + 1 + 32) : x.Refuses k sharedMacData cipherText := by
  refine refuses_of_decryptIn ?_
  rw [decryptIn, if_pos h, ite_self]

theorem message_inj {pub' : Public} {iv' : FixedHash 16} {cipherText' : Bytes} {tag' : FixedHash 32}
    (h : message pub iv cipherText tag = message pub' iv' cipherText' tag') : cipherText = cipherText' ∧ tag = tag' := by
  obtain ⟨hfields, htag⟩ := append_inj' h (by rw [length_hashBytes, length_hashBytes])
  obtain ⟨-, hwithIV⟩ := append_inj hfields (by rw [length_append, length_append, length_hashBytes, length_hashBytes])
  obtain ⟨-, hcipherText⟩ := append_inj hwithIV (by rw [length_hashBytes, length_hashBytes])
  refine ⟨hcipherText, ?_⟩
  rw [← ofRef_hashBytes tag, htag, ofRef_hashBytes]

/-- What is authenticated determines its parts. -/
theorem fields_eq {iv' : FixedHash 16} {cipherText' sharedMacData' : Bytes} (hlength : cipherText'.length = cipherText.length)
    (h : hashBytes 16 iv' ++ cipherText' ++ sharedMacData' = hashBytes 16 iv ++ cipherText ++ sharedMacData) :
    (iv', cipherText', sharedMacData') = (iv, cipherText, sharedMacData) := by
  obtain ⟨hwithIV, rfl⟩ := append_inj h (by rw [length_append, length_append, length_hashBytes, length_hashBytes, hlength])
  obtain ⟨hiv, rfl⟩ := append_inj hwithIV (by rw [length_hashBytes, length_hashBytes])
  rw [← ofRef_hashBytes iv', hiv, ofRef_hashBytes]

/-- Whatever text there is, but for the empty one, is protected; a message that is too short is refused. -/
theorem ecies_iff (x : Suite) (hagree : ∀ a b, x.agree a (x.toPublic b) = x.agree b (x.toPublic a)) {k r : Secret}
    (hvalid : (x.agree r (x.toPublic k)).isSome) {M : Set Bytes} (hhmac : ∀ key, Set.InjOn (x.hmac key) M) :
    (∀ (sharedMacData plain : Bytes) (iv : FixedHash 16), x.Protects k r sharedMacData plain iv M ↔ plain ≠ []) ∧
    ∀ sharedMacData cipherText : Bytes, cipherText.length < 1 + 64 + 16 + 1 + 32 → x.Refuses k sharedMacData cipherText := by
  obtain ⟨z, hz⟩ := Option.isSome_iff_exists.1 hvalid
  have hz' : x.agree k (x.toPublic r) = some z := (hagree k r).trans hz
  have hshared : x.sharedKey (x.toPublic k) r = kdf x.sha256 z [] 32 := by rw [sharedKey, hz, Option.getD_some]
  refine ⟨fun sharedMacData plain iv => ⟨?_, fun hplain => ?_⟩, fun _ _ => refuses_short⟩
  · rintro h rfl
    have hround := h.roundTrip []
    have hempty : x.encryptECIES (x.toPublic k) sharedMacData [] r iv = [] := rfl
    rw [hempty, (refuses_short (by decide)).2] at hround
    cases hround
  · have hmessage : x.encryptECIES (x.toPublic k) sharedMacData plain r iv = _ := encryptIn_of_ne_nil hplain
    rw [hshared] at hmessage
    have hcipher : x.encryptSymNoAuth (eKey (kdf x.sha256 z [] 32)) iv plain ≠ [] := encryptSymNoAuth_ne_nil hplain
    refine ⟨fun o_plaintext => ?_, ⟨_, hshared ▸ hmessage⟩, ?_⟩
    · rw [hmessage, decryptECIES, decryptIn_message hcipher hz', if_pos rfl, encryptSymNoAuth, encryptSymNoAuth,
        KeyStream.process_process]
      rfl
    · intro iv' cipherText' sharedMacData' tag' cipherText tag hsame hlength hM hM' hchanged
      obtain ⟨hcipherText, htag⟩ := message_inj (hmessage.symm.trans hsame)
      have hne : cipherText' ≠ [] := by
        rw [← length_pos_iff, hlength, ← hcipherText]
        exact length_pos_iff.2 hcipher
      have hwrong : x.tagOf (kdf x.sha256 z [] 32) iv' cipherText' sharedMacData' ≠ tag' := by
        rw [hcipherText] at htag
        rcases hchanged with ⟨rfl, hdata⟩ | ⟨hne, hdata⟩
        · intro hcollides
          have hsame := hhmac _ hM' hM (hcollides.trans htag.symm)
          exact hdata (fields_eq hlength hsame)
        · rw [Prod.mk.injEq, Prod.mk.injEq] at hdata
          obtain ⟨rfl, rfl, rfl⟩ := hdata
          exact fun h => hne (h.symm.trans htag)
      refine refuses_of_decryptIn ?_
      rw [decryptIn_message hne hz', if_neg hwrong]

/-- With a tag that is the number of what is authenticated -/
def numbers : Suite where
  toPublic := BitVec.setWidth _
  agree a p := some (a ^^^ p.setWidth _)
  sha256 b := BitVec.ofNat _ (BigEndian.ofBytes b)
  hmac _ b := BitVec.ofNat _ (BigEndian.ofBytes b)
  keyStream _ _ i := UInt8.ofNat i + 1

theorem agree_numbers (a b : Secret) : numbers.agree a (numbers.toPublic b) = numbers.agree b (numbers.toPublic a) := by
  have hpublic : ∀ s : Secret, (s.setWidth 512).setWidth 256 = s := by
    intro s
    rw [BitVec.setWidth_setWidth_of_le _ (by decide), BitVec.setWidth_eq]
  show some (a ^^^ (b.setWidth 512).setWidth 256) = some (b ^^^ (a.setWidth 512).setWidth 256)
  rw [hpublic, hpublic, BitVec.xor_comm]

theorem hmac_numbers (key : Bytes) : Set.InjOn (numbers.hmac key) {b | b.length = 18} := by
  intro b hb b' hb' h
  have hlt : ∀ c : Bytes, c.length = 18 → BigEndian.ofBytes c % 2 ^ 256 = BigEndian.ofBytes c := by
    intro c hc
    refine Nat.mod_eq_of_lt ((BigEndian.ofBytes_lt c).trans_le ?_)
    rw [hc]
    decide
  have hnumber := congrArg BitVec.toNat h
  have hnumber : BigEndian.ofBytes b % 2 ^ 256 = BigEndian.ofBytes b' % 2 ^ 256 := hnumber
  rw [hlt b hb, hlt b' hb'] at hnumber
  have hb : b.length = 18 := hb
  have hb' : b'.length = 18 := hb'
  rw [← BigEndian.toBytes_ofBytes b, ← BigEndian.toBytes_ofBytes b', hnumber, hb, hb']

theorem ecies_numbers : numbers.Protects 5 7 [1] [2] 3 {b | b.length = 18} :=
  ((ecies_iff numbers agree_numbers rfl hmac_numbers).1 [1] [2] 3).2 (by decide)

/-- The empty text, of which nothing is made -/
theorem not_ecies : ¬ ∀ (x : Suite), (∀ a b, x.agree a (x.toPublic b) = x.agree b (x.toPublic a)) → ∀ (k r : Secret)
    (sharedMacData plain : Bytes) (iv : FixedHash 16), (x.agree r (x.toPublic k)).isSome → ∀ o_plaintext,
    x.decryptECIES k sharedMacData (x.encryptECIES (x.toPublic k) sharedMacData plain r iv) o_plaintext = (true, plain) := by
  intro h
  have hround := h numbers agree_numbers 5 7 [] [] 3 rfl [1]
  revert hround
  decide +kernel

end Suite

end Kmdx.Crypto
