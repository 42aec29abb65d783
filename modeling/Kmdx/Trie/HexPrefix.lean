import Kmdx.Trie.Nibbles

/-!
# The encoding of nibbles is exact

Whichever way a sequence of nibbles is written down, and whichever function encodes it, the bytes are the same
(`Slice.encode_eq`), and the sequence and the flag are read back from them (`Slice.encode_exact`).
-/

namespace Kmdx

open Nibble List

/-- The indices are of a slice of something that is so long. -/
def Within (size begin_ : Nat) (end_ : Int) : Prop := begin_ ≤ endOf size end_ ∧ endOf size end_ ≤ size

/-- The ways to write a sequence of nibbles down -/
inductive Slice
  | bytes (s : NibbleSlice) (begin_ : Nat) (end_ : Int) (hoffset : s.offset ≤ s.data.length * 2)
    (h : Within s.size begin_ end_)
  | both (s₁ s₂ : NibbleSlice) (h₁ : s₁.offset ≤ s₁.data.length * 2) (h₂ : s₂.offset ≤ s₂.data.length * 2)
  | vector (hexVector : List Nibble) (begin_ : Nat) (end_ : Int) (h : Within hexVector.length begin_ end_)

namespace Slice

/-- What it holds -/
def toList : Slice → List Nibble
  | bytes s begin_ end_ _ _ => (s.toList.drop begin_).take ((endOf s.size end_).toNat - begin_)
  | both s₁ s₂ _ _ => s₁.toList ++ s₂.toList
  | vector hexVector begin_ end_ _ => (hexVector.drop begin_).take ((endOf hexVector.length end_).toNat - begin_)

def encode (leaf : Bool) : Slice → Bytes
  | bytes s begin_ end_ _ _ => hexPrefixEncode s leaf begin_ end_
  | both s₁ s₂ _ _ => hexPrefixEncodeBoth s₁ s₂ leaf
  | vector hexVector begin_ end_ _ => hexPrefixEncodeVector (hexVector.map toByte) leaf begin_ end_

end Slice

/-! ### One encoding -/

variable {leaf : Bool} {l : List Nibble} {size begin_ : Nat} {end_ : Int}

theorem Within.toNat_le (h : Within size begin_ end_) : (endOf size end_).toNat ≤ size := by
  rw [Within] at h
  omega

theorem shift_add : ∀ x y : Nibble, x.toByte * 16 + y.toByte = pair x y := by decide

/-- The pairs of the nibbles that are left. -/
def pairHex : Bytes → Bytes
  | x :: y :: hexVector => (x * 16 + y) :: pairHex hexVector
  | _ => []

theorem pairHex_map : ∀ l : List Nibble, pairHex (l.map toByte) = pack l
  | [] => rfl
  | [_] => rfl
  | x :: y :: l => by
    rw [map_cons, map_cons, pairHex, pairHex_map l, shift_add, pack]

/-- The loop goes through the pairs that are there. -/
theorem pairs_eq (b : Bytes) (i n : Nat) (h : i + 2 * n ≤ b.length) :
    ((List.range' i n 2).map fun i => b.getD i 0 * 16 + b.getD (i + 1) 0) = pairHex ((b.drop i).take (2 * n)) := by
  induction n generalizing i with
  | zero => rfl
  | succ n ih =>
    have hget : ∀ j, (hj : j < b.length) → b.getD j 0 = b[j] := by
      intro j hj
      rw [List.getD_eq_getElem?_getD, List.getElem?_eq_getElem hj]
      rfl
    have htwo : (b.drop i).take (2 * (n + 1)) = b[i] :: b[i + 1] :: (b.drop (i + 2)).take (2 * n) := by
      rw [drop_eq_getElem_cons (by omega), drop_eq_getElem_cons (by omega), Nat.mul_succ, take_succ_cons, take_succ_cons]
    rw [List.range'_succ, map_cons, ih (i + 2) (by omega), hget i (by omega), hget (i + 1) (by omega), htwo, pairHex]

theorem hexPrefixEncodeVector_eq (leaf : Bool) (h : Within l.length begin_ end_) :
    hexPrefixEncodeVector (l.map toByte) leaf begin_ end_ =
      hexPrefix leaf ((l.drop begin_).take ((endOf l.length end_).toNat - begin_)) := by
  have hle := h.toNat_le
  have hbegin : begin_ ≤ (endOf l.length end_).toNat := by
    rw [Within] at h
    omega
  rw [hexPrefixEncodeVector, length_map]
  generalize (endOf l.length end_).toNat = e at hle hbegin ⊢
  dsimp only
  by_cases hodd : (e - begin_) % 2 = 1
  · have hlist : (l.drop begin_).take (e - begin_) = l[begin_] :: (l.drop (begin_ + 1)).take (e - begin_ - 1) := by
      rw [drop_eq_getElem_cons (by omega), show e - begin_ = e - begin_ - 1 + 1 by omega, take_succ_cons, Nat.add_sub_cancel]
    have hlength : ((l.drop (begin_ + 1)).take (e - begin_ - 1)).length = e - begin_ - 1 := by
      rw [length_take, length_drop]
      omega
    have hfirst : (l.map toByte).getD begin_ 0 = l[begin_].toByte := by
      rw [List.getD_eq_getElem?_getD, List.getElem?_map, List.getElem?_eq_getElem (by omega)]
      rfl
    have hrounds : 2 * ((e - (begin_ + 1) + 1) / 2) = e - begin_ - 1 := by omega
    rw [if_pos hodd, decide_eq_true hodd, hlist, hexPrefix, hlength, if_pos (by omega),
      pairs_eq _ _ _ (by rw [length_map]; omega), hrounds, hfirst, ← map_drop, ← map_take, pairHex_map]
  · have hrounds : 2 * ((e - begin_ + 1) / 2) = e - begin_ := by omega
    have hlength : ((l.drop begin_).take (e - begin_)).length = e - begin_ := by
      rw [length_take, length_drop]
      omega
    rw [if_neg hodd, decide_eq_false hodd, pairs_eq _ _ _ (by rw [length_map]; omega), hrounds, ← map_drop, ← map_take,
      pairHex_map]
    cases hlist : (l.drop begin_).take (e - begin_) with
    | nil => rfl
    | cons x l' =>
      rw [hlist, length_cons] at hlength
      rw [hexPrefix, if_neg (by omega)]

namespace Slice

/-- Every function gives the one encoding. -/
theorem encode_eq (w : Slice) (leaf : Bool) : w.encode leaf = hexPrefix leaf w.toList := by
  cases w with
  | bytes s begin_ end_ hoffset h =>
    have hlist := nibblesFrom_toList s (i := begin_) h.toNat_le
    have hencode : hexPrefixEncode s leaf begin_ end_ =
        hexPrefix leaf (nibblesFrom s.data (begin_ + s.offset) ((endOf s.size end_).toNat + s.offset)) := by
      rw [← pushNibbles_eq, length_nibblesFrom]
      rfl
    exact hencode.trans (congrArg _ hlist)
  | both s₁ s₂ h₁ h₂ => exact hexPrefixEncodeBoth_eq s₁ s₂ leaf
  | vector hexVector begin_ end_ h => exact hexPrefixEncodeVector_eq leaf h

/-- The bytes do not depend on the way the sequence is written down; the sequence and the flag are read back from them. -/
theorem encode_exact :
    (∀ (w w' : Slice) (leaf : Bool), w.toList = w'.toList → w.encode leaf = w'.encode leaf) ∧
    (∀ (w : Slice) (leaf : Bool), (keyOf (w.encode leaf)).toList = w.toList ∧
      ((w.encode leaf).getD 0 0 &&& 0x20 ≠ 0 ↔ leaf = true)) ∧
    ∀ (w w' : Slice) (leaf leaf' : Bool), w.encode leaf = w'.encode leaf' → w.toList = w'.toList ∧ leaf = leaf' := by
  have hkey : ∀ (w : Slice) (leaf : Bool), (keyOf (w.encode leaf)).toList = w.toList := by
    intro w leaf
    rw [encode_eq, toList_keyOf_hexPrefix]
  have hflag : ∀ (w : Slice) (leaf : Bool), (w.encode leaf).getD 0 0 &&& 0x20 ≠ 0 ↔ leaf = true := by
    intro w leaf
    rw [encode_eq]
    exact leafFlag_hexPrefix leaf w.toList
  refine ⟨fun w w' leaf h => ?_, fun w leaf => ⟨hkey w leaf, hflag w leaf⟩, fun w w' leaf leaf' h => ⟨?_, ?_⟩⟩
  · rw [encode_eq, encode_eq, h]
  · rw [← hkey w leaf, h, hkey w' leaf']
  · rw [Bool.eq_iff_iff, ← hflag w leaf, h, hflag w' leaf']

end Slice

end Kmdx
