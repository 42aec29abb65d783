import Kmdx.P2p.DevCrypto

/-!
# Key derivation (`ecies::kdf` of `libdevcrypto/Common.cpp`)

The number of the rounds is counted in bits, from 7 bytes more, and as if a digest had 64 bytes; so the last bytes of most
keys are zeros (`kdf_iff`).
-/

namespace Kmdx.Crypto

open Rlp P2p

/-- `std::array<byte, 4>` -/
structure Counter where
  c0 : Byte
  c1 : Byte
  c2 : Byte
  c3 : Byte

namespace Counter

def data (ctr : Counter) : Bytes := [ctr.c0, ctr.c1, ctr.c2, ctr.c3]

/-- `++ctr[3] || ++ctr[2] || ++ctr[1] || ++ctr[0]` -/
def next (ctr : Counter) : Counter :=
  if ctr.c3 + 1 ≠ 0 then { ctr with c3 := ctr.c3 + 1 }
  else if ctr.c2 + 1 ≠ 0 then { ctr with c2 := ctr.c2 + 1, c3 := ctr.c3 + 1 }
  else if ctr.c1 + 1 ≠ 0 then { ctr with c1 := ctr.c1 + 1, c2 := ctr.c2 + 1, c3 := ctr.c3 + 1 }
  else ⟨ctr.c0 + 1, ctr.c1 + 1, ctr.c2 + 1, ctr.c3 + 1⟩

end Counter

variable (sha256 : Bytes → FixedHash 32) (z : Secret) (s1 : Bytes)

/-- The rounds, from a counter on -/
def digests : Nat → Counter → Bytes
  | 0, _ => []
  | n + 1, ctr => hashBytes 32 (sha256 (ctr.data ++ hashBytes 32 z ++ s1)) ++ digests n ctr.next

/-- `std::vector::resize` -/
def resize (k : Bytes) (size : Nat) : Bytes := k.take size ++ List.replicate (size - k.length) 0

/-- One less than the rounds -/
def reps (kdByteLen : UInt32) : UInt32 := (kdByteLen + 7) * 8 / 512

def kdf (kdByteLen : UInt32) : Bytes := resize (digests sha256 z s1 ((reps kdByteLen).toNat + 1) ⟨0, 0, 0, 1⟩) kdByteLen.toNat

/-! ### What is to be derived -/

/-- The digests of the numbers from one on -/
def stream (n i : Nat) : Bytes := (List.range' i n).flatMap fun i =>
    hashBytes 32 (sha256 (BigEndian.toBytes 4 i ++ hashBytes 32 z ++ s1))

/-- As many bytes of the digests of 1, 2, 3, ... -/
def derived (n : Nat) : Bytes := (stream sha256 z s1 n 1).take n

variable {sha256 z s1} {n i m : Nat}

theorem ofNat_succ (i : Nat) : UInt8.ofNat i + 1 = UInt8.ofNat (i + 1) := by
  refine UInt8.toNat_inj.1 ?_
  rw [UInt8.toNat_add, UInt8.toNat_ofNat', UInt8.toNat_ofNat']
  exact Nat.mod_add_mod i 256 1

theorem ofNat_ne_zero_iff (i : Nat) : UInt8.ofNat i ≠ 0 ↔ i % 256 ≠ 0 := by
  rw [ne_eq, ← UInt8.toNat_inj, UInt8.toNat_ofNat']
  rfl

/-- The carries are those of the number. -/
theorem data_next {ctr : Counter} (h : ctr.data = BigEndian.toBytes 4 i) : ctr.next.data = BigEndian.toBytes 4 (i + 1) := by
  obtain ⟨c0, c1, c2, c3⟩ := ctr
  have hbytes : ∀ n, BigEndian.toBytes 4 n =
      [UInt8.ofNat (n / 256 / 256 / 256), UInt8.ofNat (n / 256 / 256), UInt8.ofNat (n / 256), UInt8.ofNat n] :=
    fun _ => rfl
  rw [hbytes, Counter.data] at h
  simp only [List.cons.injEq, and_true] at h
  obtain ⟨rfl, rfl, rfl, rfl⟩ := h
  rw [hbytes, Counter.next]
  simp only [ofNat_succ, ofNat_ne_zero_iff]
  have hcarry : ∀ n, (n + 1) % 256 = 0 → (n + 1) / 256 = n / 256 + 1 := fun n hn => by omega
  have hnone : ∀ n, (n + 1) % 256 ≠ 0 → (n + 1) / 256 = n / 256 := fun n hn => by omega
  split
  · rename_i h3
    rw [hnone i h3]
    rfl
  · rename_i h3
    rw [hcarry i (not_not.1 h3)]
    split
    · rename_i h2
      rw [hnone _ h2]
      rfl
    · rename_i h2
      rw [hcarry _ (not_not.1 h2)]
      split
      · rename_i h1
        rw [hnone _ h1]
        rfl
      · rename_i h1
        rw [hcarry _ (not_not.1 h1)]
        rfl

theorem digests_eq {ctr : Counter} (h : ctr.data = BigEndian.toBytes 4 i) :
    digests sha256 z s1 n ctr = stream sha256 z s1 n i := by
  induction n generalizing i ctr with
  | zero => rfl
  | succ n ih => rw [digests, h, ih (data_next h), stream, stream, List.range'_succ, List.flatMap_cons]

theorem length_stream (n i : Nat) : (stream sha256 z s1 n i).length = 32 * n := by
  induction n generalizing i with
  | zero => rfl
  | succ n ih =>
    have hrest := ih (i + 1)
    rw [stream] at hrest
    rw [stream, List.range'_succ, List.flatMap_cons, List.length_append, length_hashBytes, hrest]
    omega

theorem stream_prefix (h : n ≤ m) : stream sha256 z s1 n i <+: stream sha256 z s1 m i := by
  obtain ⟨d, rfl⟩ := Nat.exists_eq_add_of_le h
  refine ⟨stream sha256 z s1 d (i + n), ?_⟩
  rw [stream, stream, stream, ← List.flatMap_append, ← List.range'_append_1]

/-- A round gives 32 bytes, and there is one for each 64 that are asked for, and 7 bytes more. -/
theorem reps_covers_iff (n : UInt32) : n.toNat ≤ 32 * ((reps n).toNat + 1) ↔ n.toNat ≤ 32 ∨ 57 ≤ n.toNat ∧ n.toNat ≤ 64 := by
  have hreps : (reps n).toNat = (n.toNat + 7) % 2 ^ 32 * 8 % 2 ^ 32 / 512 := by
    rw [reps, UInt32.toNat_div, UInt32.toNat_mul, UInt32.toNat_add]
    rfl
  have hlt := n.toNat_lt
  rw [hreps]
  omega

/-- A key is derived, and no byte of it is there for the length only. -/
structure Derives (sha256 : Bytes → FixedHash 32) (z : Secret) (s1 : Bytes) (n : UInt32) : Prop where
  eq : kdf sha256 z s1 n = derived sha256 z s1 n.toNat
  full : n.toNat ≤ (digests sha256 z s1 ((reps n).toNat + 1) ⟨0, 0, 0, 1⟩).length

theorem digests_one (n : Nat) : digests sha256 z s1 n ⟨0, 0, 0, 1⟩ = stream sha256 z s1 n 1 := digests_eq rfl

theorem take_stream (h : n ≤ 32 * m) : (stream sha256 z s1 m i).take n = (stream sha256 z s1 n i).take n := by
  have hmax : ∀ m', n ≤ 32 * m' → m' ≤ max n m → (stream sha256 z s1 (max n m) i).take n =
      (stream sha256 z s1 m' i).take n := by
    intro m' hm' hle
    obtain ⟨rest, hrest⟩ : stream sha256 z s1 m' i <+: stream sha256 z s1 (max n m) i := stream_prefix hle
    rw [← hrest, List.take_append_of_le_length (by rw [length_stream]; exact hm')]
  rw [← hmax m h (le_max_right n m), hmax n (by omega) (le_max_left n m)]

theorem kdf_of_covers {n : UInt32} (h : n.toNat ≤ 32 * ((reps n).toNat + 1)) :
    kdf sha256 z s1 n = derived sha256 z s1 n.toNat := by
  rw [kdf, resize, digests_one, length_stream, Nat.sub_eq_zero_of_le h, List.replicate_zero, List.append_nil, derived]
  exact take_stream h

theorem derived_prefix (h : m ≤ n) : derived sha256 z s1 m <+: derived sha256 z s1 n := by
  have htake : derived sha256 z s1 m = (derived sha256 z s1 n).take m := by
    rw [derived, derived, List.take_take, min_eq_left h]
    exact (take_stream (by omega)).symm
  rw [htake]
  exact List.take_prefix _ _

/-- The key is what it should be for the lengths that have rounds enough. -/
theorem kdf_iff (sha256 : Bytes → FixedHash 32) (z : Secret) (s1 : Bytes) :
    (∀ n : UInt32, Derives sha256 z s1 n ↔ n.toNat ≤ 32 ∨ 57 ≤ n.toNat ∧ n.toNat ≤ 64) ∧
    ∀ m n : UInt32, Derives sha256 z s1 m → Derives sha256 z s1 n → m ≤ n → kdf sha256 z s1 m <+: kdf sha256 z s1 n := by
  refine ⟨fun n => ?_, fun m n hm hn hle => ?_⟩
  · rw [← reps_covers_iff]
    constructor
    · intro h
      have hfull := h.full
      rwa [digests_one, length_stream] at hfull
    · exact fun h => ⟨kdf_of_covers h, by rwa [digests_one, length_stream]⟩
  · rw [hm.eq, hn.eq]
    exact derived_prefix hle

/-- For 40 bytes there is one round. -/
theorem not_derives : ¬ ∀ (sha256 : Bytes → FixedHash 32) (z : Secret) (s1 : Bytes) (n : UInt32),
    kdf sha256 z s1 n = derived sha256 z s1 n.toNat := by
  intro h
  have hkey := h (fun _ => -1) 0 [] 40
  revert hkey
  decide +kernel

end Kmdx.Crypto
