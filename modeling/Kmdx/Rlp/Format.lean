import Mathlib.Data.Nat.Digits.Lemmas
import Kmdx.Core

/-!
# Recursive length prefixes

A string or a list is its length and what is in it. The length stands in the first byte, or the length of
the length does; a byte below 0x80 is its own string. Of two items none is the beginning of the other one
(`Splits.unique`), so a list can be taken apart.
-/

namespace Kmdx.Rlp

open List

/-! ### Compact numbers -/

theorem ofBytes_eq_ofDigits (l : Bytes) : BigEndian.ofBytes l = Nat.ofDigits 256 (l.reverse.map UInt8.toNat) := by
  induction l using List.reverseRecOn with
  | nil => rfl
  | append_singleton l b ih =>
    rw [BigEndian.ofBytes_concat, reverse_concat, map_cons, Nat.ofDigits_cons, ih]
    ring

theorem toNat_ofNat_of_lt {n : Nat} (h : n < 256) : (UInt8.ofNat n).toNat = n := by
  rw [UInt8.toNat_ofNat']
  exact Nat.mod_eq_of_lt h

theorem map_toNat_map_ofNat {l : List Nat} (h : ∀ n ∈ l, n < 256) : (l.map UInt8.ofNat).map UInt8.toNat = l := by
  rw [map_map]
  conv_rhs => rw [← map_id l]
  exact map_congr_left fun n hn => toNat_ofNat_of_lt (h n hn)

theorem map_ofNat_map_toNat (l : Bytes) : (l.map UInt8.toNat).map UInt8.ofNat = l := by
  rw [map_map]
  conv_rhs => rw [← map_id l]
  exact map_congr_left fun b _ => UInt8.ofNat_toNat

@[simp] theorem ofBytes_compact (n : Nat) : BigEndian.ofBytes (compact n) = n := by
  have hdigits : ∀ d ∈ Nat.digits 256 n, d < 256 := fun d hd => Nat.digits_lt_base (by decide) hd
  rw [ofBytes_eq_ofDigits, compact, reverse_reverse, map_toNat_map_ofNat hdigits, Nat.ofDigits_digits]

theorem length_compact_le_iff {n k : Nat} : (compact n).length ≤ k ↔ n < 256 ^ k := by
  rw [compact, length_reverse, length_map]
  exact Nat.digits_length_le_iff (by decide) n

/-- Without leading zeros, a number has one spelling. -/
theorem compact_ofBytes {l : Bytes} (h : l.head? ≠ some 0) : compact (BigEndian.ofBytes l) = l := by
  have hdigits : Nat.digits 256 (BigEndian.ofBytes l) = l.reverse.map UInt8.toNat := by
    rw [ofBytes_eq_ofDigits]
    refine Nat.digits_ofDigits 256 (by decide) _ (fun n hn => ?_) fun hne => ?_
    · obtain ⟨b, -, rfl⟩ := mem_map.1 hn
      exact b.toNat_lt
    · cases l with
      | nil => exact absurd rfl hne
      | cons b l =>
        have hb : b ≠ 0 := fun hb => h (by rw [hb]; rfl)
        simp only [reverse_cons, map_append, map_cons, map_nil, getLast_concat]
        exact fun hzero => hb (UInt8.toNat_inj.1 hzero)
  rw [compact, hdigits, map_ofNat_map_toNat, reverse_reverse]

theorem head?_compact (n : Nat) : (compact n).head? ≠ some 0 := by
  intro h
  rw [compact, List.head?_reverse, List.getLast?_map, Option.map_eq_some_iff] at h
  obtain ⟨d, hd, hzero⟩ := h
  have hne : Nat.digits 256 n ≠ [] := fun hnil => by simp [hnil] at hd
  rw [List.getLast?_eq_some_getLast hne, Option.some_inj] at hd
  have hmem : (Nat.digits 256 n).getLast hne < 256 := Nat.digits_lt_base (by decide) (getLast_mem hne)
  have hlast : (Nat.digits 256 n).getLast hne ≠ 0 := Nat.getLast_digit_ne_zero 256 (by
    rintro rfl
    exact hne (Nat.digits_zero _))
  apply hlast
  rw [hd] at hmem ⊢
  have hnat := toNat_ofNat_of_lt hmem
  rw [hzero] at hnat
  exact hnat.symm

@[simp] theorem compact_zero : compact 0 = [] := rfl

/-! ### Items -/

/-- A string of bytes, or a list of items. -/
inductive Tree
  | data (b : Bytes)
  | list (items : List Tree)

namespace Tree

mutual
/-- With the length of a list from its finished payload. -/
def encode : Tree → Bytes
  | .data b => bytes b
  | .list ts => head 0xc0 (payload ts).length ++ payload ts

/-- What is in a list. -/
def payload : List Tree → Bytes
  | [] => []
  | t :: ts => encode t ++ payload ts
end

@[simp] theorem payload_nil : payload [] = [] := by rw [payload]

@[simp] theorem payload_cons (t : Tree) (ts : List Tree) : payload (t :: ts) = t.encode ++ payload ts := by rw [payload]

theorem payload_append (ts ts' : List Tree) : payload (ts ++ ts') = payload ts ++ payload ts' := by
  induction ts with
  | nil => rw [payload_nil, nil_append, nil_append]
  | cons t ts ih => rw [cons_append, payload_cons, payload_cons, ih, append_assoc]

theorem payload_eq_flatten (ts : List Tree) : payload ts = (ts.map encode).flatten := by
  induction ts with
  | nil => exact payload_nil
  | cons t ts ih => rw [payload_cons, ih, map_cons, flatten_cons]

theorem induct {P : Tree → Prop} (data : ∀ b, P (.data b)) (list : ∀ ts, (∀ t ∈ ts, P t) → P (.list ts)) : ∀ t, P t
  | .data b => data b
  | .list ts => list ts fun t _ => induct data list t

/-- The leaf for an integer. -/
def int (n : Nat) : Tree := .data (compact n)

end Tree

/-- `payloadOffset() + length()` must not overflow, and a length is checked to be less. -/
def lengthLimit : Nat := 2 ^ 64 - 1 - 0x100

/-- What is in the string or in the list is not too long. -/
def Tree.Fits : Tree → Prop
  | .data b => b.length < lengthLimit
  | .list ts => (payload ts).length < lengthLimit

/-- One item, whatever is in it. -/
inductive IsItem : Bytes → Prop
  | data (b : Bytes) : b.length < lengthLimit → IsItem (bytes b)
  | list (p : Bytes) : p.length < lengthLimit → IsItem (head 0xc0 p.length ++ p)

end Kmdx.Rlp
