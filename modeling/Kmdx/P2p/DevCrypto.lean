import Kmdx.Rlp.Fields

/-!
# Keys, signatures and hashes (`libdevcrypto/Common.h`)

The cryptography is a parameter. Hashes are read from buffers and written to them.
-/

namespace Kmdx.P2p

open Rlp ExceptRules

abbrev Secret := FixedHash 32

abbrev Public := FixedHash 64

abbrev Signature := FixedHash 65

/-- What `libdevcrypto` does; an encryption takes something random. -/
structure DevCrypto (R : Type) where
  toPublic : Secret → Public
  /-- `ecdh::agree`, which does not give a secret for each key -/
  agree : Secret → Public → Option Secret
  sign : Secret → FixedHash 32 → Signature
  recover : Signature → FixedHash 32 → Public
  sha3 : Bytes → FixedHash 32
  encryptECIES (k : Public) (sharedMacData plain : Bytes) (random : R) : Bytes
  decryptECIES (k : Secret) (sharedMacData cipher : Bytes) : Option Bytes

/-- `FixedHash(bytesConstRef)` -/
def ofRef (size : Nat) (b : Bytes) : FixedHash size := if b.length = size then BitVec.ofNat _ (BigEndian.ofBytes b) else 0

/-- The item at an index, as a hash -/
def hashAt (size k : Nat) : M (FixedHash size) := do return ofRef size (← toHash (← item k).data size)

/-- The item at an index, as a number of at most so many bytes -/
def intAt (size k : Nat) : M Nat := do toInt (← item k).data size

variable {size : Nat}

@[simp] theorem length_hashBytes (h : FixedHash size) : (hashBytes size h).length = size := BigEndian.length_toBytes size _

@[simp] theorem ofRef_hashBytes (h : FixedHash size) : ofRef size (hashBytes size h) = h := by
  have hpow : 2 ^ (8 * size) = 256 ^ size := by rw [pow_mul]; norm_num
  have hlt : h.toNat < 256 ^ size := hpow ▸ h.isLt
  rw [ofRef, if_pos (length_hashBytes h), hashBytes, BigEndian.ofBytes_toBytes, Nat.mod_eq_of_lt hlt, BitVec.ofNat_toNat,
    BitVec.setWidth_eq]

theorem hashBytes_ofRef {b : Bytes} (h : b.length = size) : hashBytes size (ofRef size b) = b := by
  have hpow : 2 ^ (8 * size) = 256 ^ size := by rw [pow_mul]; norm_num
  have hlt : BigEndian.ofBytes b < 2 ^ (8 * size) := by
    rw [hpow, ← h]
    exact BigEndian.ofBytes_lt b
  rw [ofRef, if_pos h, hashBytes, BitVec.toNat_ofNat, Nat.mod_eq_of_lt hlt, ← h, BigEndian.toBytes_ofBytes]

/-- What is long enough begins with a hash. -/
theorem exists_hashBytes_append (size : Nat) {b : Bytes} (h : size ≤ b.length) :
    ∃ (v : FixedHash size) (rest : Bytes), b = hashBytes size v ++ rest := by
  refine ⟨ofRef size (b.take size), b.drop size, ?_⟩
  rw [hashBytes_ofRef (List.length_take_of_le h), List.take_append_drop]

theorem take_hashBytes (h : FixedHash size) (x : Bytes) : (hashBytes size h ++ x).take size = hashBytes size h := by
  rw [List.take_append_of_le_length (by simp), List.take_of_length_le (by simp)]

theorem drop_hashBytes (h : FixedHash size) (x : Bytes) : (hashBytes size h ++ x).drop size = x := by
  rw [List.drop_append_of_le_length (by simp), List.drop_eq_nil_of_le (by simp), List.nil_append]

theorem cropped_first (a : FixedHash size) (x : Bytes) : cropped (hashBytes size a ++ x) 0 size = hashBytes size a := by
  rw [cropped, if_pos (by simp), List.drop_zero, take_hashBytes]

theorem cropped_append {a b : Bytes} {n start count : Nat} (ha : a.length = n) (hstart : n ≤ start) :
    cropped (a ++ b) start count = cropped b (start - n) count := by
  subst ha
  rw [cropped, cropped, List.length_append, List.drop_append, List.drop_eq_nil_of_le hstart, List.nil_append]
  by_cases hle : start - a.length + count ≤ b.length
  · rw [if_pos hle, if_pos (by omega)]
  · rw [if_neg hle, if_neg (by omega)]

theorem cropped_rest (a : FixedHash size) (x : Bytes) :
    cropped (hashBytes size a ++ x) size ((hashBytes size a ++ x).length - size) = x := by
  rw [cropped, if_pos (by simp), drop_hashBytes, List.take_of_length_le (by simp)]

theorem toHash_hashBytes {flags : Strictness} (hsize : size < lengthLimit) (v : FixedHash size) :
    toHash (bytes (hashBytes size v)) size flags = .ok (hashBytes size v) := by
  have hlen : (hashBytes size v).length < lengthLimit := by rwa [length_hashBytes]
  rw [toHash, requireGood_bytes hlen, ok_bind, payload_bytes hlen, ok_bind, isData_bytes hlen]
  simp

/-! ### The fields of a list -/

variable {α : Type} {d : Bytes} {is : List Bytes} {k : Nat}

/-- What is made of the item at an index -/
theorem reads_at (f : Bytes → Except Rlp.Exn α) {i : Bytes} {a : α}
    (hitem : Reads d is (item k) (.ok (RLP.of (is.getD k []))))
    (hget : is.getD k [] = i) (hf : f i = .ok a) : Reads d is (item k >>= fun r => liftM (f r.data)) (.ok a) := by
  subst hget
  have hlift : Reads d is (liftM (f (is.getD k []))) (f (is.getD k [])) := .lift _
  exact hitem.bind_ok (hf ▸ hlift : Reads d is (liftM (f (is.getD k []))) (.ok a))

theorem reads_hashAt {v : FixedHash size} (hsize : size < lengthLimit)
    (hitem : Reads d is (item k) (.ok (RLP.of (is.getD k []))))
    (hget : is.getD k [] = bytes (hashBytes size v)) : Reads d is (hashAt size k) (.ok v) := by
  have hlift : Reads d is (liftM (toHash (is.getD k []) size)) (toHash (is.getD k []) size) := .lift _
  have hread : toHash (is.getD k []) size = .ok (hashBytes size v) := hget ▸ toHash_hashBytes hsize v
  have hpure : Reads (ε := Rlp.Exn) d is (pure (ofRef size (hashBytes size v))) (.ok v) := (ofRef_hashBytes v).symm ▸ .pure v
  exact hitem.bind_ok ((hread ▸ hlift : Reads d is (liftM (toHash (is.getD k []) size)) (.ok _)).bind_ok hpure)

theorem toInt_nat {n : Nat} (hn : n < 256 ^ size) (hsize : size ≤ 32) : toInt (nat n) size = .ok n := by
  have hlt : n < 256 ^ 32 := hn.trans_le (Nat.pow_le_pow_right (by decide) hsize)
  exact (toInt_eq_ok_iff (isItem_nat hlt)).2 ⟨rfl, length_compact_le hn hsize⟩

theorem reads_intAt {n : Nat} (hn : n < 256 ^ size) (hsize : size ≤ 32)
    (hitem : Reads d is (item k) (.ok (RLP.of (is.getD k []))))
    (hget : is.getD k [] = nat n) : Reads d is (intAt size k) (.ok n) :=
  reads_at (toInt · size) hitem hget (toInt_nat hn hsize)

end Kmdx.P2p
