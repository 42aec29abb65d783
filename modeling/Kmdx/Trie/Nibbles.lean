import Kmdx.Core
import Kmdx.Lib.RadixTree

/-!
# Nibbles (`libdevcore/TrieCommon.h`, `TrieCommon.cpp`)

A key is looked at nibble by nibble, from an offset on. What the slice operations and the loops of `hexPrefixEncode`
compute is told by the list of the nibbles that a slice holds (`NibbleSlice.toList`). Nibbles are counted with natural
numbers: a key is not so long that an `unsigned` does not count them.
-/

namespace Kmdx

open List

abbrev Nibble := Fin 16

namespace Nibble

def high (b : Byte) : Nibble := ⟨b.toNat / 16, by have := b.toNat_lt; omega⟩

def low (b : Byte) : Nibble := ⟨b.toNat % 16, Nat.mod_lt _ (by decide)⟩

/-- The byte of two nibbles. -/
def pair (x y : Nibble) : Byte := UInt8.ofNat (16 * x.val + y.val)

/-- `_n << 4` -/
def shifted (n : Nibble) : Byte := UInt8.ofNat (16 * n.val)

def toByte (n : Nibble) : Byte := UInt8.ofNat n.val

end Nibble

open Nibble

/-- `nibble` -/
def nibble (data : Bytes) (i : Nat) : Nibble := if i % 2 = 1 then low (data.getD (i / 2) 0) else high (data.getD (i / 2) 0)

/-- `sharedNibbles`, with the numbers of nibbles that are left of both -/
def sharedFrom (first second : Bytes) : Nat → Nat → Nat → Nat → Nat
  | beginFirst, beginSecond, n + 1, m + 1 =>
    if nibble first beginFirst = nibble second beginSecond then sharedFrom first second (beginFirst + 1)
      (beginSecond + 1) n m + 1
    else 0
  | _, _, _, _ => 0

structure NibbleSlice where
  data : Bytes := []
  offset : Nat := 0

namespace NibbleSlice

/-- `operator[]` -/
def get (s : NibbleSlice) (i : Nat) : Nibble := nibble s.data (s.offset + i)

def size (s : NibbleSlice) : Nat := s.data.length * 2 - s.offset

def mid (s : NibbleSlice) (i : Nat) : NibbleSlice := { s with offset := s.offset + i }

def clear (_ : NibbleSlice) : NibbleSlice := {}

def shared (s k : NibbleSlice) : Nat := sharedFrom s.data k.data s.offset k.offset s.size k.size

def contains (s k : NibbleSlice) : Bool := s.shared k = k.size

/-- The loop of `isEarlierThan`, from `i` on, with the numbers of nibbles that are left of both. -/
def earlierFrom (s k : NibbleSlice) : Nat → Nat → Nat → Bool
  | i, n + 1, m + 1 =>
    if s.get i < k.get i then true
    else if s.get i > k.get i then false
    else earlierFrom s k (i + 1) n m
  | _, _, 0 => false
  | _, 0, _ + 1 => true

def isEarlierThan (s k : NibbleSlice) : Bool := earlierFrom s k 0 s.size k.size

/-- `operator==` -/
def same (s k : NibbleSlice) : Bool := k.size = s.size ∧ s.shared k = k.size

end NibbleSlice

/-- The nibbles that a loop of `hexPrefixEncode` goes through. -/
def nibblesFrom (data : Bytes) (begin_ end_ : Nat) : List Nibble := (List.range' begin_ (end_ - begin_)).map (nibble data)

/-- The loops of `hexPrefixEncode`: with `d` odd, the last byte waits for its second nibble. -/
def pushNibbles : Nat → Bytes → List Nibble → Bytes
  | _, ret, [] => ret
  | d, ret, n :: ns =>
    if d % 2 = 1 then pushNibbles (d + 1) (ret.dropLast ++ [ret.getLastD 0 ||| n.toByte]) ns
    else pushNibbles (d + 1) (ret ++ [n.shifted]) ns

/-- The first byte, without the nibble that may go into it. -/
def prefixByte (leaf odd : Bool) : Byte := ((if leaf then 2 else 0) ||| (if odd then 1 else 0)) * 16

/-- `hexPrefixEncode(NibbleSlice, bool, int, int)` -/
def hexPrefixEncode (s : NibbleSlice) (leaf : Bool) (beginNibble : Nat := 0) (endNibble : Int := -1) : Bytes :=
  let begin_ := beginNibble + s.offset
  let end_ := (if endNibble < 0 then s.size + 1 + endNibble else endNibble).toNat + s.offset
  let odd := (end_ - begin_) % 2 = 1
  pushNibbles (if odd then 1 else 2) [prefixByte leaf odd] (nibblesFrom s.data begin_ end_)

/-- `hexPrefixEncode(NibbleSlice, NibbleSlice, bool)` -/
def hexPrefixEncodeBoth (s₁ s₂ : NibbleSlice) (leaf : Bool) : Bytes :=
  let end₁ := s₁.data.length * 2
  let end₂ := s₂.data.length * 2
  let odd := (end₁ - s₁.offset + (end₂ - s₂.offset)) % 2 = 1
  pushNibbles (if odd then 1 else 2) [prefixByte leaf odd]
    (nibblesFrom s₁.data s₁.offset end₁ ++ nibblesFrom s₂.data s₂.offset end₂)

/-- Where a slice ends; a negative index counts from behind its size. -/
def endOf (size : Nat) (end_ : Int) : Int := if end_ < 0 then size + 1 + end_ else end_

/-- `hexPrefixEncode(bytes, bool, int, int)`: every byte is a nibble. -/
def hexPrefixEncodeVector (hexVector : Bytes) (leaf : Bool) (begin_ : Nat := 0) (end_ : Int := -1) : Bytes :=
  let e := (endOf hexVector.length end_).toNat
  let odd := (e - begin_) % 2 = 1
  let pairsFrom := fun i => (List.range' i ((e - i + 1) / 2) 2).map fun i =>
      hexVector.getD i 0 * 16 + hexVector.getD (i + 1) 0
  if odd then (prefixByte leaf odd ||| hexVector.getD begin_ 0) :: pairsFrom (begin_ + 1)
  else prefixByte leaf odd :: pairsFrom begin_

/-- `keyOf(bytesConstRef)` -/
def keyOf (hpe : Bytes) : NibbleSlice :=
  if hpe.length = 0 then ⟨hpe, 0⟩
  else if hpe.getD 0 0 &&& 0x10 ≠ 0 then ⟨hpe, 1⟩
  else ⟨hpe, 2⟩

/-! ### The nibbles of bytes -/

def nibbles (b : Bytes) : List Nibble := b.flatMap fun x => [high x, low x]

/-- What a slice holds. -/
def NibbleSlice.toList (s : NibbleSlice) : List Nibble := (nibbles s.data).drop s.offset

variable {s k : NibbleSlice} {data b b' : Bytes} {l : List Nibble} {leaf : Bool}

@[simp] theorem nibbles_nil : nibbles [] = [] := rfl

@[simp] theorem nibbles_cons (x : Byte) (b : Bytes) : nibbles (x :: b) = high x :: low x :: nibbles b := rfl

@[simp] theorem length_nibbles (b : Bytes) : (nibbles b).length = b.length * 2 := by
  induction b with
  | nil => rfl
  | cons x b ih =>
    rw [nibbles_cons, length_cons, length_cons, length_cons, ih]
    omega

theorem nibbles_append (b b' : Bytes) : nibbles (b ++ b') = nibbles b ++ nibbles b' := flatMap_append

theorem pair_high_low (x : Byte) : pair (high x) (low x) = x := by
  rw [pair, high, low, Nat.div_add_mod, UInt8.ofNat_toNat]

theorem toNat_pair (x y : Nibble) : (pair x y).toNat = 16 * x.val + y.val := by
  have hx := x.isLt
  have hy := y.isLt
  rw [pair, UInt8.toNat_ofNat', Nat.mod_eq_of_lt (by omega)]

@[simp] theorem high_pair (x y : Nibble) : high (pair x y) = x := by
  refine Fin.ext ?_
  change (pair x y).toNat / 16 = x.val
  rw [toNat_pair]
  have hy := y.isLt
  omega

@[simp] theorem low_pair (x y : Nibble) : low (pair x y) = y := by
  refine Fin.ext ?_
  change (pair x y).toNat % 16 = y.val
  rw [toNat_pair]
  have hy := y.isLt
  omega

theorem nibbles_prefix_iff : nibbles b <+: nibbles b' ↔ b <+: b' := by
  induction b generalizing b' with
  | nil => simp
  | cons x b ih =>
    cases b' with
    | nil => simp
    | cons y b' =>
      rw [nibbles_cons, nibbles_cons, cons_prefix_cons, cons_prefix_cons, cons_prefix_cons, ih, ← and_assoc]
      refine and_congr_left fun _ => ⟨fun h => ?_, fun h => by rw [h]; exact ⟨rfl, rfl⟩⟩
      rw [← pair_high_low x, ← pair_high_low y, h.1, h.2]

theorem nibbles_injective : Function.Injective nibbles := by
  intro b b' h
  have hlen := congrArg List.length h
  rw [length_nibbles, length_nibbles] at hlen
  exact (nibbles_prefix_iff.1 (h ▸ prefix_rfl)).eq_of_length (by omega)

theorem lt_iff_high_low (x y : Byte) : x < y ↔ high x < high y ∨ high x = high y ∧ low x < low y := by
  have hx := Nat.div_add_mod x.toNat 16
  have hy := Nat.div_add_mod y.toNat 16
  have hx' := Nat.mod_lt x.toNat (show 0 < 16 by decide)
  have hy' := Nat.mod_lt y.toNat (show 0 < 16 by decide)
  rw [UInt8.lt_iff_toNat_lt, Fin.lt_def, Fin.lt_def, Fin.ext_iff, high, high, low, low]
  dsimp only
  omega

/-- The words of nibbles are in the order of the bytes. -/
theorem nibbles_lt_iff : ∀ {b b' : Bytes}, nibbles b < nibbles b' ↔ b < b'
  | [], [] => iff_of_false (not_lt_nil _) (not_lt_nil _)
  | [], y :: b' => iff_of_true (nil_lt_cons _ _) (nil_lt_cons _ _)
  | x :: b, [] => iff_of_false (not_lt_nil _) (not_lt_nil _)
  | x :: b, y :: b' => by
    have heq : x = y ↔ high x = high y ∧ low x = low y := by
      refine ⟨fun h => h ▸ ⟨rfl, rfl⟩, fun h => ?_⟩
      rw [← pair_high_low x, ← pair_high_low y, h.1, h.2]
    rw [nibbles_cons, nibbles_cons, cons_lt_cons_iff, cons_lt_cons_iff, cons_lt_cons_iff, nibbles_lt_iff,
      lt_iff_high_low, heq]
    tauto

theorem nibble_add_two (x : Byte) (b : Bytes) (i : Nat) : nibble (x :: b) (i + 2) = nibble b i := by
  rw [nibble, nibble, Nat.add_mod_right, Nat.add_div_right i (by decide), getD_cons_succ]

theorem getElem?_nibbles : ∀ (b : Bytes) (i : Nat), i < b.length * 2 → (nibbles b)[i]? = some (nibble b i)
  | [], i, h => absurd h (by simp)
  | _ :: _, 0, _ => rfl
  | _ :: _, 1, _ => rfl
  | x :: b, i + 2, h => by
    rw [nibbles_cons, List.getElem?_cons_succ, List.getElem?_cons_succ, nibble_add_two]
    rw [length_cons] at h
    exact getElem?_nibbles b i (by omega)

theorem drop_nibbles {i : Nat} (h : i < b.length * 2) : (nibbles b).drop i = nibble b i :: (nibbles b).drop (i + 1) := by
  have hi : i < (nibbles b).length := by rwa [length_nibbles]
  have hget := getElem?_nibbles b i h
  rw [List.getElem?_eq_getElem hi, Option.some_inj] at hget
  rw [drop_eq_getElem_cons hi, hget]

theorem drop_nibbles_of_le {i : Nat} (h : b.length * 2 ≤ i) : (nibbles b).drop i = [] :=
  drop_eq_nil_of_le (by rwa [length_nibbles])

theorem nibblesFrom_eq (data : Bytes) {begin_ end_ : Nat} (h : end_ ≤ data.length * 2) :
    nibblesFrom data begin_ end_ = ((nibbles data).drop begin_).take (end_ - begin_) := by
  refine List.ext_getElem? fun i => ?_
  rw [nibblesFrom, List.getElem?_map, List.getElem?_take, List.getElem?_drop]
  split
  · rename_i hi
    rw [List.getElem?_range' hi, Nat.one_mul, getElem?_nibbles data _ (by omega)]
    rfl
  · rename_i hi
    rw [List.getElem?_eq_none (by rw [length_range']; omega)]
    rfl

/-! ### Slices -/

namespace NibbleSlice

@[simp] theorem toList_mk_zero (b : Bytes) : (mk b 0).toList = nibbles b := rfl

theorem toList_clear (s : NibbleSlice) : s.clear.toList = [] := rfl

theorem toList_mid (s : NibbleSlice) (i : Nat) : (s.mid i).toList = s.toList.drop i := by
  rw [toList, toList, mid, drop_drop]

@[simp] theorem length_toList (s : NibbleSlice) : s.toList.length = s.size := by
  rw [toList, length_drop, length_nibbles, size]

theorem size_eq_zero_iff : s.size = 0 ↔ s.toList = [] := by rw [← length_toList, length_eq_zero_iff]

theorem toList_eq_cons (h : 0 < s.size) : s.toList = s.get 0 :: (s.mid 1).toList := by
  rw [size] at h
  rw [toList, drop_nibbles (by omega)]
  rfl

theorem size_ne_zero {x : Nibble} (h : s.toList = x :: l) : s.size ≠ 0 := by
  rw [← length_toList, h]
  exact Nat.succ_ne_zero _

theorem get_zero {x : Nibble} (h : s.toList = x :: l) : s.get 0 = x ∧ (s.mid 1).toList = l := by
  rw [toList_eq_cons (Nat.pos_of_ne_zero (size_ne_zero h))] at h
  exact List.cons.inj h

theorem toList_from (s : NibbleSlice) (i : Nat) (h : i < s.size) : s.toList.drop i = s.get i :: s.toList.drop (i + 1) := by
  rw [size] at h
  rw [toList, drop_drop, drop_nibbles (by omega), drop_drop]
  rfl

theorem sharedFrom_eq (first second : Bytes) (i j n m : Nat) (hn : n = first.length * 2 - i)
    (hm : m = second.length * 2 - j) :
    sharedFrom first second i j n m = RadixTree.shared ((nibbles first).drop i) ((nibbles second).drop j) := by
  induction n generalizing i j m with
  | zero =>
    rw [drop_nibbles_of_le (by omega)]
    cases m <;> rfl
  | succ n ih =>
    cases m with
    | zero =>
      rw [drop_nibbles_of_le (b := second) (by omega), drop_nibbles (by omega)]
      rfl
    | succ m =>
      rw [drop_nibbles (b := first) (by omega), drop_nibbles (b := second) (by omega), sharedFrom, RadixTree.shared,
        ih (i + 1) (j + 1) m (by omega) (by omega)]

theorem shared_eq (s k : NibbleSlice) : s.shared k = RadixTree.shared s.toList k.toList :=
  sharedFrom_eq s.data k.data _ _ _ _ rfl rfl

theorem contains_iff : s.contains k = true ↔ k.toList <+: s.toList := by
  rw [contains, decide_eq_true_iff, shared_eq, RadixTree.shared_comm, ← length_toList, RadixTree.shared_eq_length_iff]

theorem same_iff : s.same k = true ↔ s.toList = k.toList := by
  rw [same, decide_eq_true_iff, shared_eq, RadixTree.shared_comm, ← length_toList, ← length_toList,
    RadixTree.shared_eq_length_iff]
  exact ⟨fun h => (h.2.eq_of_length h.1).symm, fun h => h ▸ ⟨rfl, prefix_rfl⟩⟩

theorem toList_drop_of_le {i : Nat} (h : s.size ≤ i) : s.toList.drop i = [] := drop_eq_nil_of_le (by rwa [length_toList])

theorem earlierFrom_iff (s k : NibbleSlice) (i n m : Nat) (hn : n = s.size - i) (hm : m = k.size - i) :
    earlierFrom s k i n m = true ↔ s.toList.drop i < k.toList.drop i := by
  induction n generalizing i m with
  | zero =>
    rw [toList_drop_of_le (s := s) (by omega)]
    cases m with
    | zero =>
      rw [toList_drop_of_le (by omega)]
      simp [earlierFrom]
    | succ m =>
      rw [toList_from k i (by omega)]
      simp [earlierFrom]
  | succ n ih =>
    cases m with
    | zero =>
      rw [toList_drop_of_le (s := k) (by omega)]
      simp [earlierFrom]
    | succ m =>
      rw [toList_from s i (by omega), toList_from k i (by omega), cons_lt_cons_iff, earlierFrom,
        ← ih (i + 1) m (by omega) (by omega)]
      rcases lt_trichotomy (s.get i) (k.get i) with hlt | heq | hgt
      · simp [hlt]
      · simp [heq]
      · simp [hgt, hgt.not_gt, hgt.ne']

/-- The order of words. -/
theorem isEarlierThan_iff : s.isEarlierThan k = true ↔ s.toList < k.toList := earlierFrom_iff s k 0 _ _ rfl rfl

end NibbleSlice

/-! ### The encoding -/

def pack : List Nibble → Bytes
  | x :: y :: l => pair x y :: pack l
  | _ => []

/-- The encoding of a list of nibbles. -/
def hexPrefix (leaf : Bool) : List Nibble → Bytes
  | [] => [prefixByte leaf false]
  | x :: l => if l.length % 2 = 0 then (prefixByte leaf true ||| x.toByte) :: pack l else prefixByte leaf
    false :: pack (x :: l)

theorem shifted_or_toByte : ∀ x y : Nibble, x.shifted ||| y.toByte = pair x y := by decide

theorem pushNibbles_even : ∀ (l : List Nibble) (d : Nat) (ret : Bytes),
    l.length % 2 = 0 → d % 2 = 0 → pushNibbles d ret l = ret ++ pack l
  | [], _, ret, _, _ => (append_nil ret).symm
  | [_], _, _, h, _ => absurd h (by simp)
  | x :: y :: l, d, ret, h, hd => by
    rw [pushNibbles, if_neg (by omega), pushNibbles, if_pos (by omega), dropLast_concat, getLastD_concat, shifted_or_toByte]
    rw [length_cons, length_cons] at h
    rw [pushNibbles_even l _ _ (by omega) (by omega), pack, append_assoc]
    rfl

theorem pushNibbles_eq (leaf : Bool) (l : List Nibble) :
    pushNibbles (if l.length % 2 = 1 then 1 else 2) [prefixByte leaf (l.length % 2 = 1)] l = hexPrefix leaf l := by
  cases l with
  | nil => rfl
  | cons x l =>
    rw [hexPrefix, length_cons]
    by_cases h : l.length % 2 = 0
    · have hodd : (l.length + 1) % 2 = 1 := by omega
      rw [if_pos hodd, if_pos h, decide_eq_true hodd, pushNibbles, if_pos rfl, pushNibbles_even l _ _ h rfl]
      rfl
    · have heven : ¬(l.length + 1) % 2 = 1 := by omega
      rw [if_neg heven, if_neg h, decide_eq_false heven, pushNibbles_even _ _ _ (by rw [length_cons]; omega) rfl]
      rfl

theorem length_nibblesFrom (data : Bytes) (begin_ end_ : Nat) : (nibblesFrom data begin_ end_).length = end_ - begin_ := by
  rw [nibblesFrom, length_map, length_range']

theorem nibblesFrom_of_le (data : Bytes) {begin_ end_ : Nat} (h : end_ ≤ begin_) : nibblesFrom data begin_ end_ = [] := by
  rw [nibblesFrom, Nat.sub_eq_zero_of_le h]
  rfl

theorem nibblesFrom_toList (s : NibbleSlice) {i e : Nat} (he : e ≤ s.size) :
    nibblesFrom s.data (i + s.offset) (e + s.offset) = (s.toList.drop i).take (e - i) := by
  by_cases hoff : s.offset ≤ s.data.length * 2
  · rw [NibbleSlice.size] at he
    rw [nibblesFrom_eq _ (by omega), NibbleSlice.toList, drop_drop, Nat.add_comm s.offset i, Nat.add_sub_add_right]
  · rw [NibbleSlice.size] at he
    have he0 : e = 0 := by omega
    rw [nibblesFrom_of_le _ (by omega), he0, Nat.zero_sub, take_zero]

/-- The encoding of what stands in a slice from a nibble on. -/
theorem hexPrefixEncode_from (s : NibbleSlice) (leaf : Bool) (i : Nat) :
    hexPrefixEncode s leaf i = hexPrefix leaf (s.toList.drop i) := by
  have hend : (if (-1 : Int) < 0 then (s.size : Int) + 1 + -1 else -1).toNat = s.size := by
    rw [if_pos (by decide)]
    omega
  have hlist : nibblesFrom s.data (i + s.offset) (s.size + s.offset) = s.toList.drop i := by
    rw [nibblesFrom_toList s le_rfl, take_of_length_le (by rw [length_drop, NibbleSlice.length_toList])]
  rw [hexPrefixEncode, hend, ← hlist, ← pushNibbles_eq, length_nibblesFrom]

theorem hexPrefixEncode_eq (s : NibbleSlice) (leaf : Bool) : hexPrefixEncode s leaf = hexPrefix leaf s.toList :=
  hexPrefixEncode_from s leaf 0

/-- The encoding of the first nibbles from one on. -/
theorem hexPrefixEncode_upTo (s : NibbleSlice) (leaf : Bool) (i : Nat) {e : Nat} (he : e ≤ s.size) :
    hexPrefixEncode s leaf i e = hexPrefix leaf ((s.toList.drop i).take (e - i)) := by
  have hend : (if (e : Int) < 0 then (s.size : Int) + 1 + e else e).toNat = e := by
    rw [if_neg (by omega)]
    omega
  rw [hexPrefixEncode, hend, ← nibblesFrom_toList s he, ← pushNibbles_eq, length_nibblesFrom]

theorem hexPrefixEncodeBoth_eq (s₁ s₂ : NibbleSlice) (leaf : Bool) :
    hexPrefixEncodeBoth s₁ s₂ leaf = hexPrefix leaf (s₁.toList ++ s₂.toList) := by
  have hlist : ∀ s : NibbleSlice, nibblesFrom s.data s.offset (s.data.length * 2) = s.toList := by
    intro s
    rw [nibblesFrom_eq _ le_rfl, NibbleSlice.toList, take_of_length_le]
    rw [length_drop, length_nibbles]
  rw [hexPrefixEncodeBoth, ← pushNibbles_eq, ← hlist s₁, ← hlist s₂, length_append, length_nibblesFrom, length_nibblesFrom]

/-! ### What is read from an encoding -/

theorem nibbles_pack : ∀ l : List Nibble, l.length % 2 = 0 → nibbles (pack l) = l
  | [], _ => rfl
  | [_], h => absurd h (by simp)
  | x :: y :: l, h => by
    rw [length_cons, length_cons] at h
    rw [pack, nibbles_cons, high_pair, low_pair, nibbles_pack l (by omega)]

theorem oddFlag_prefixByte : ∀ (leaf : Bool) (x : Nibble), (prefixByte leaf true ||| x.toByte) &&& 0x10 ≠ 0 ∧
    low (prefixByte leaf true ||| x.toByte) = x ∧
    ((prefixByte leaf true ||| x.toByte) &&& 0x20 ≠ 0 ↔ leaf = true) := by decide

theorem evenFlag_prefixByte : ∀ leaf : Bool, ¬prefixByte leaf false &&& 0x10 ≠ 0 ∧
    (prefixByte leaf false &&& 0x20 ≠ 0 ↔ leaf = true) := by
  decide

/-- The nibbles are read back. -/
@[simp] theorem toList_keyOf_hexPrefix (leaf : Bool) (l : List Nibble) : (keyOf (hexPrefix leaf l)).toList = l := by
  cases l with
  | nil => cases leaf <;> rfl
  | cons x l =>
    rw [hexPrefix]
    split
    · rename_i h
      obtain ⟨hodd, hlow, -⟩ := oddFlag_prefixByte leaf x
      rw [keyOf, if_neg (by simp), getD_cons_zero, if_pos hodd, NibbleSlice.toList, nibbles_cons, hlow, nibbles_pack l h]
      rfl
    · rename_i h
      have heven := (evenFlag_prefixByte leaf).1
      rw [keyOf, if_neg (by simp), getD_cons_zero, if_neg heven, NibbleSlice.toList, nibbles_cons,
        nibbles_pack _ (by rw [length_cons]; omega)]
      rfl

theorem pack_nibbles (b : Bytes) : pack (nibbles b) = b := by
  induction b with
  | nil => rfl
  | cons x b ih => rw [nibbles_cons, pack, pair_high_low, ih]

/-- The encoding of whole bytes -/
theorem hexPrefix_nibbles (b : Bytes) : hexPrefix false (nibbles b) = 0 :: b := by
  cases b with
  | nil => rfl
  | cons x b =>
    rw [nibbles_cons, hexPrefix, if_neg (by rw [length_cons, length_nibbles]; omega), ← nibbles_cons, pack_nibbles]
    rfl

/-- The flag is read back. -/
theorem leafFlag_hexPrefix (leaf : Bool) (l : List Nibble) : (hexPrefix leaf l).getD 0 0 &&& 0x20 ≠ 0 ↔ leaf = true := by
  cases l with
  | nil => exact (evenFlag_prefixByte leaf).2
  | cons x l =>
    rw [hexPrefix]
    split
    · exact (oddFlag_prefixByte leaf x).2.2
    · exact (evenFlag_prefixByte leaf).2

end Kmdx
