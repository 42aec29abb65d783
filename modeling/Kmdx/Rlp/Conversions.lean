import Kmdx.Rlp.Items

/-!
# Reading a string

What `toBytes`, `toInt` and `toHash` give, and that nothing else is read as the same (`toInt_eq_ok_iff`,
`toHash_eq_ok_iff`).
-/

namespace Kmdx.Rlp

open ExceptRules

variable {d : Bytes}

theorem not_isData_of_isList (h : isList d = true) : isData d = false := by
  cases d with
  | nil => rfl
  | cons x d =>
    rw [isList_cons, decide_eq_true_iff] at h
    rw [isData_cons, decide_eq_false_iff_not]
    omega

theorem isList_eq_false (h : isData d = true) : isList d = false := by
  by_contra hlist
  rw [not_isData_of_isList (by simpa using hlist)] at h
  cases h

theorem length_bytes_le (b : Bytes) : b.length ≤ (bytes b).length := by
  rcases b with _ | ⟨x, _ | ⟨y, b⟩⟩
  · exact Nat.zero_le _
  · rw [bytes]
    split <;> simp
  · rw [bytes]
    · rw [List.length_append]
      exact Nat.le_add_left _ _
    · rintro _ ⟨⟩

/-- A string, with its bytes. -/
theorem begins_bytes (b : Bytes) (h : b.length < lengthLimit) : ∃ hd, bytes b = hd ++ b ∧ Begins hd b b.length := by
  match b with
  | [] => exact ⟨head 0x80 0, rfl, .string 0 [] h nofun⟩
  | [x] =>
    by_cases hx : x.toNat < 0x80
    · exact ⟨[], if_pos (UInt8.lt_iff_toNat_lt.2 hx), .single x [] hx⟩
    · exact ⟨head 0x80 1, if_neg fun hlt => hx (UInt8.lt_iff_toNat_lt.1 hlt),
        .string 1 [x] h fun _ => ⟨x, [], rfl, not_lt.1 hx⟩⟩
  | x :: y :: b => exact ⟨_, rfl, .string _ _ h (by simp)⟩

section

variable {b : Bytes} (h : b.length < lengthLimit)
include h

theorem isData_bytes : isData (bytes b) = true := by
  obtain ⟨hd', heq, hbegins⟩ := begins_bytes b h
  have hne : bytes b ≠ [] := heq ▸ hbegins.ne_nil
  exact (isData_or_isList hne).resolve_right fun hlist => by
    rw [isList_bytes b h] at hlist
    cases hlist

theorem payload_bytes : payload (bytes b) = .ok b := by
  obtain ⟨hd', heq, hbegins⟩ := begins_bytes b h
  rw [heq, hbegins.payload le_rfl, List.take_length]

theorem length_bytes : length (bytes b) = .ok b.length := by
  obtain ⟨hd', heq, hbegins⟩ := begins_bytes b h
  rw [heq, hbegins.length]

theorem toBytes_bytes {flags : Strictness} : toBytes (bytes b) flags = .ok b := by
  rw [toBytes, isData_bytes h, payload_bytes h, length_bytes h]
  simp

end

theorem requireGood_of_length {len : Nat} (h : length d = .ok len) (hd : d ≠ []) : requireGood d = .ok () := by
  obtain ⟨x, d, rfl⟩ := List.exists_cons_of_ne_nil hd
  rw [length_cons] at h
  obtain ⟨_, hgood, -⟩ := bind_eq_ok_iff.1 h
  exact hgood

theorem isInt_cons {x : UInt8} : isInt (x :: d) = requireGood (x :: d) >>= fun _ =>
    if x.toNat < 0x80 then .ok (decide (x.toNat ≠ 0))
    else if x.toNat = 0x80 then .ok true
    else if x.toNat ≤ 0xb7 then
      if (x :: d).length ≤ 1 then .error .badRLP else .ok (decide ((x :: d).getD 1 0 ≠ 0))
    else if x.toNat < 0xc0 then
      if (x :: d).length ≤ 1 + x.toNat - 0xb7 then .error .badRLP
      else .ok (decide ((x :: d).getD (1 + x.toNat - 0xb7) 0 ≠ 0))
    else .ok false := by
  simp [isInt]

section

variable {b : Bytes} (h : b.length < lengthLimit)
include h

theorem requireGood_bytes : requireGood (bytes b) = .ok () := by
  obtain ⟨hd', heq, hbegins⟩ := begins_bytes b h
  exact requireGood_of_length (length_bytes h) (heq ▸ hbegins.ne_nil)

/-- A string is an integer if it has no leading zero. -/
theorem isInt_bytes : isInt (bytes b) = .ok (decide (b.head? ≠ some 0)) := by
  have hgood := requireGood_bytes h
  rcases b with _ | ⟨x, _ | ⟨y, b⟩⟩
  · rfl
  · by_cases hx : x.toNat < 0x80
    · have hbytes : bytes [x] = [x] := if_pos (UInt8.lt_iff_toNat_lt.2 hx)
      have hzero : x.toNat ≠ 0 ↔ [x].head? ≠ some 0 := by simp [eq_iff_toNat]
      rw [hbytes] at hgood ⊢
      rw [isInt_cons, hgood, ok_bind, if_pos hx, decide_eq_decide.2 hzero]
    · have hbytes : bytes [x] = [0x81, x] := if_neg fun hlt => hx (UInt8.lt_iff_toNat_lt.1 hlt)
      have hzero : [(0x81 : UInt8), x].getD 1 0 ≠ 0 ↔ [x].head? ≠ some 0 := by simp
      rw [hbytes] at hgood ⊢
      rw [isInt_cons, hgood, ok_bind, decide_eq_decide.2 hzero]
      rfl
  · have hbytes : bytes (x :: y :: b) = head 0x80 (x :: y :: b).length ++ x :: y :: b := by
      rw [bytes]
      rintro _ ⟨⟩
    generalize hlen : (x :: y :: b).length = len at hbytes h
    rw [hbytes] at hgood ⊢
    have hlen' : 2 ≤ len := by
      rw [← hlen]
      simp
    by_cases hshort : len < 56
    · have hn : (UInt8.ofNat (0x80 + len)).toNat = 0x80 + len := toNat_ofNat_of_lt (by omega)
      rw [head_of_lt hshort, List.singleton_append] at hgood ⊢
      rw [isInt_cons, hgood, ok_bind, hn, if_neg (by omega), if_neg (by omega), if_pos (by omega), if_neg (by simp)]
      simp
    · obtain ⟨hpos, hle⟩ := compact_length (not_lt.1 hshort) (h.trans lengthLimit_lt)
      have hn : (UInt8.ofNat (0x80 + 55 + (compact len).length)).toNat = 0x80 + 55 + (compact len).length :=
        toNat_ofNat_of_lt (by omega)
      have hindex : 1 + (0x80 + 55 + (compact len).length) - 0xb7 = (compact len).length + 1 := by omega
      rw [head_of_le (not_lt.1 hshort), List.cons_append] at hgood ⊢
      rw [isInt_cons, hgood, ok_bind, hn, if_neg (by omega), if_neg (by omega), if_neg (by omega), if_pos (by omega), hindex,
        if_neg (by simp)]
      simp

theorem isNull_bytes : isNull (bytes b) = false := by
  obtain ⟨hd', heq, hbegins⟩ := begins_bytes b h
  exact isNull_of_ne_nil (heq ▸ hbegins.ne_nil)

theorem toInt_bytes (maxSize : Nat) : toInt (bytes b) maxSize =
    if b.head? = some 0 ∨ maxSize < b.length then .error .badCast else .ok (BigEndian.ofBytes b) := by
  rw [toInt, requireGood_bytes h, isInt_bytes h, payload_bytes h, isList_bytes b h, isNull_bytes h]
  by_cases hzero : b.head? = some 0
  · simp [hzero, strict]
  · by_cases hsize : maxSize < b.length <;> simp [hzero, hsize, strict]

end

theorem isList_eq_false_of_toInt {maxSize n : Nat} (h : toInt d maxSize = .ok n) : isList d = false := by
  obtain ⟨_, -, h⟩ := bind_eq_ok_iff.1 h
  obtain ⟨canon, -, h⟩ := bind_eq_ok_iff.1 h
  by_contra hlist
  simp [strict, hlist] at h

/-- What is read as an integer is its one spelling. -/
theorem toInt_eq_ok_iff {maxSize n : Nat} (h : IsItem d) : toInt d maxSize = .ok n ↔
    d = bytes (compact n) ∧ (compact n).length < lengthLimit ∧ (compact n).length ≤ maxSize := by
  constructor
  · intro hint
    obtain ⟨b, rfl, hlen⟩ := exists_of_not_isList h (isList_eq_false_of_toInt hint)
    rw [toInt_bytes hlen, ite_error_eq_ok_iff, not_or, not_lt] at hint
    obtain ⟨⟨hhead, hsize⟩, hn⟩ := hint
    have hb : compact n = b := by rw [← Except.ok.inj hn, compact_ofBytes hhead]
    rw [hb]
    exact ⟨rfl, hlen, hsize⟩
  · rintro ⟨rfl, hlen, hsize⟩
    rw [toInt_bytes hlen, if_neg, ofBytes_compact]
    exact not_or.2 ⟨head?_compact n, not_lt.2 hsize⟩

theorem toHash_bytes {b : Bytes} (h : b.length < lengthLimit) (size : Nat) : toHash (bytes b) size veryStrict =
    if b.length ≠ size then .error .badCast else .ok b := by
  rw [toHash, requireGood_bytes h, payload_bytes h, isData_bytes h]
  by_cases hsize : b.length = size
  · subst hsize
    simp [veryStrict]
  · simp [veryStrict, hsize, Ne.symm hsize]

theorem isData_of_toHash {size : Nat} {v : Bytes} (h : toHash d size veryStrict = .ok v) : isData d = true := by
  obtain ⟨_, -, h⟩ := bind_eq_ok_iff.1 h
  obtain ⟨p, -, h⟩ := bind_eq_ok_iff.1 h
  by_contra hdata
  simp [veryStrict, hdata] at h

/-- What is read as a hash is its one spelling. -/
theorem toHash_eq_ok_iff {size : Nat} {v : Bytes} (hsize : size < lengthLimit) (h : IsItem d) :
    toHash d size veryStrict = .ok v ↔ d = bytes v ∧ v.length = size := by
  constructor
  · intro hhash
    obtain ⟨b, rfl, hlen⟩ := exists_of_not_isList h (isList_eq_false (isData_of_toHash hhash))
    rw [toHash_bytes hlen, ite_error_eq_ok_iff, not_not] at hhash
    cases hhash.2
    exact ⟨rfl, hhash.1⟩
  · rintro ⟨rfl, rfl⟩
    rw [toHash_bytes hsize, if_neg (not_not.2 rfl)]

/-- `toBytes` of data gives its bytes. -/
theorem toBytes_of_isData {flags : Strictness} {v : Bytes} (h : IsItem d) (hdata : isData d = true)
    (hv : toBytes d flags = .ok v) : d = bytes v ∧ v.length < lengthLimit := by
  obtain ⟨b, rfl, hlen⟩ := exists_of_not_isList h (isList_eq_false hdata)
  rw [toBytes_bytes hlen] at hv
  cases hv
  exact ⟨rfl, hlen⟩

end Kmdx.Rlp
