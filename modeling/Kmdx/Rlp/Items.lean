import Kmdx.Rlp.Reader

/-!
# What the reader accepts

An item begins with a head and the length of what follows (`Begins`), and the reader finds the length if and only
if it begins like that (`length_eq_ok_iff`). So what it takes a list apart into are the items that the list is
made of (`Splits`).
-/

namespace Kmdx.Rlp

open ExceptRules List

variable {d rest hd : Bytes} {len k : Nat} {x : UInt8}

/-! ### Bytes and numbers -/

theorem eq_iff_toNat {x y : UInt8} : x = y ↔ x.toNat = y.toNat := UInt8.toNat_inj.symm

@[simp] theorem isNull_cons : isNull (x :: d) = false := rfl

@[simp] theorem isData_cons : isData (x :: d) = decide (x.toNat < 0xc0) := by
  simp [isData, UInt8.lt_iff_toNat_lt]

@[simp] theorem isList_cons : isList (x :: d) = decide (0xc0 ≤ x.toNat) := by
  simp [isList, UInt8.le_iff_toNat_le]

@[simp] theorem isSingleByte_cons : isSingleByte (x :: d) = decide (x.toNat < 0x80) := by
  simp [isSingleByte, UInt8.lt_iff_toNat_lt]

theorem lengthSize_cons : lengthSize (x :: d) =
    if x.toNat < 0xc0 then x.toNat - 0xb7 else x.toNat - 0xf7 := by
  simp only [lengthSize, isData_cons, isList_cons, decide_eq_true_eq, UInt8.lt_iff_toNat_lt, getD_cons_zero,
    UInt8.reduceToNat]
  split_ifs <;> omega

theorem payloadOffset_cons : payloadOffset (x :: d) =
    if x.toNat < 0x80 then 0 else 1 + if x.toNat < 0xc0 then x.toNat - 0xb7 else x.toNat - 0xf7 := by
  rw [payloadOffset, isSingleByte_cons, lengthSize_cons]
  simp

/-- `0x81` has a byte after it that is not its own string. -/
theorem requireGood_cons : requireGood (x :: d) = .ok () ↔ (x.toNat = 0x81 → ∃ y d', d = y :: d' ∧ 0x80 ≤ y.toNat) := by
  cases d with
  | nil =>
    by_cases hx : x.toNat = 0x81 <;> simp [requireGood, eq_iff_toNat, hx]
  | cons y d =>
    have hcons : (∃ y' d', y :: d = y' :: d' ∧ 0x80 ≤ y'.toNat) ↔ 0x80 ≤ y.toNat :=
      ⟨fun ⟨_, _, heq, hy⟩ => by cases heq; exact hy, fun hy => ⟨y, d, rfl, hy⟩⟩
    rw [hcons]
    by_cases hx : x.toNat = 0x81
    · simp [requireGood, eq_iff_toNat, UInt8.lt_iff_toNat_lt, hx]
    · simp [requireGood, eq_iff_toNat, hx]

theorem indirectLength_eq_ok_iff (hk : 0 < k) (hk' : k ≤ 8) : indirectLength (x :: d) k = .ok len ↔
    k ≤ d.length ∧ (d.take k).head? ≠ some 0 ∧ BigEndian.ofBytes (d.take k) = len ∧ 56 ≤ len ∧ len < lengthLimit := by
  obtain ⟨k, rfl⟩ := Nat.exists_eq_succ_of_ne_zero hk.ne'
  cases d with
  | nil => simp [indirectLength]
  | cons y d =>
    simp [indirectLength, -not_lt, -not_le]
    intro _ hy
    have hk : k < 8 := hk'
    constructor
    · rintro ⟨-, -, hle, hlt, rfl⟩
      exact ⟨rfl, hle, hlt⟩
    · rintro ⟨rfl, hle, hlt⟩
      exact ⟨hk, hy, hle, hlt, rfl⟩

/-! ### How an item begins -/

/-- An item begins with `hd`, `len` bytes of what follows are in it. -/
inductive Begins : Bytes → Bytes → Nat → Prop
  /-- The byte is its own string, so it is in it already. -/
  | single (x : UInt8) (rest : Bytes) : x.toNat < 0x80 → Begins [] (x :: rest) 1
  | string (len : Nat) (rest : Bytes) : len < lengthLimit → (len = 1 → ∃ y r, rest = y :: r ∧ 0x80 ≤ y.toNat) →
    Begins (head 0x80 len) rest len
  | list (len : Nat) (rest : Bytes) : len < lengthLimit → Begins (head 0xc0 len) rest len

theorem lengthLimit_lt : lengthLimit < 2 ^ 64 := by decide

theorem compact_length (h : 56 ≤ len) (h' : len < 2 ^ 64) : 0 < (compact len).length ∧ (compact len).length ≤ 8 := by
  constructor
  · rw [Nat.pos_iff_ne_zero]
    intro hzero
    have hlt := length_compact_le_iff.1 hzero.le
    omega
  · rw [length_compact_le_iff]
    exact h'

theorem lt_lengthLimit (h : len < 256) : len < lengthLimit := h.trans (by decide)

theorem length_cons : length (x :: d) = requireGood (x :: d) >>= fun _ =>
    if x.toNat < 0x80 then .ok 1
    else if x.toNat ≤ 0xb7 then .ok (x.toNat - 0x80)
    else if x.toNat < 0xc0 then indirectLength (x :: d) (x.toNat - 0xb7)
    else if x.toNat ≤ 0xf7 then .ok (x.toNat - 0xc0)
    else indirectLength (x :: d) (x.toNat - 0xf7) := by
  simp [length]

theorem requireGood_of_ne (hx : x.toNat ≠ 0x81) : requireGood (x :: d) = .ok () :=
  requireGood_cons.2 fun h => absurd h hx

/-- The length is in the first byte. -/
theorem head_of_lt {off : Nat} (h : len < 56) : head off len = [UInt8.ofNat (off + len)] := if_pos h

/-- The length of the length is in the first byte. -/
theorem head_of_le {off : Nat} (h : 56 ≤ len) : head off len = UInt8.ofNat (off + 55 + (compact len).length) :: compact len :=
  if_neg (not_lt.2 h)

theorem indirectLength_compact (h : 56 ≤ len) (h' : len < lengthLimit) :
    indirectLength (x :: (compact len ++ rest)) (compact len).length = .ok len := by
  obtain ⟨hpos, hle⟩ := compact_length h (h'.trans lengthLimit_lt)
  rw [indirectLength_eq_ok_iff hpos hle, take_left, ofBytes_compact]
  exact ⟨by simp, head?_compact len, rfl, h, h'⟩

theorem Begins.length (h : Begins hd rest len) : length (hd ++ rest) = .ok len := by
  cases h with
  | single x rest hx =>
    have hgood : requireGood (x :: rest) = .ok () := requireGood_of_ne (by omega)
    rw [nil_append, length_cons, hgood, ok_bind, if_pos hx]
  | string len rest hlen hone =>
    by_cases hshort : len < 56
    · have hx : (UInt8.ofNat (0x80 + len)).toNat = 0x80 + len := toNat_ofNat_of_lt (by omega)
      have hgood : requireGood (UInt8.ofNat (0x80 + len) :: rest) = .ok () :=
        requireGood_cons.2 fun h => hone (by omega)
      rw [head_of_lt hshort, singleton_append, length_cons, hgood, ok_bind, hx, if_neg (by omega), if_pos (by omega),
        Nat.add_sub_cancel_left]
    · have hlong : 56 ≤ len := not_lt.1 hshort
      obtain ⟨hpos, hle⟩ := compact_length hlong (hlen.trans lengthLimit_lt)
      have hx : (UInt8.ofNat (0x80 + 55 + (compact len).length)).toNat = 0x80 + 55 + (compact len).length :=
        toNat_ofNat_of_lt (by omega)
      have hgood := requireGood_of_ne (d := compact len ++ rest) (x := _) (by rw [hx]; omega)
      rw [head_of_le hlong, List.cons_append, length_cons, hgood, ok_bind, hx, if_neg (by omega),
        if_neg (by omega), if_pos (by omega), Nat.add_sub_cancel_left, indirectLength_compact hlong hlen]
  | list len rest hlen =>
    by_cases hshort : len < 56
    · have hx : (UInt8.ofNat (0xc0 + len)).toNat = 0xc0 + len := toNat_ofNat_of_lt (by omega)
      have hgood := requireGood_of_ne (d := rest) (x := _) (by rw [hx]; omega)
      rw [head_of_lt hshort, singleton_append, length_cons, hgood, ok_bind, hx,
        if_neg (by omega), if_neg (by omega), if_neg (by omega), if_pos (by omega),
        Nat.add_sub_cancel_left]
    · have hlong : 56 ≤ len := not_lt.1 hshort
      obtain ⟨hpos, hle⟩ := compact_length hlong (hlen.trans lengthLimit_lt)
      have hx : (UInt8.ofNat (0xc0 + 55 + (compact len).length)).toNat = 0xc0 + 55 + (compact len).length :=
        toNat_ofNat_of_lt (by omega)
      have hgood := requireGood_of_ne (d := compact len ++ rest) (x := _) (by rw [hx]; omega)
      rw [head_of_le hlong, List.cons_append, length_cons, hgood, ok_bind, hx, if_neg (by omega),
        if_neg (by omega), if_neg (by omega), if_neg (by omega), Nat.add_sub_cancel_left, indirectLength_compact hlong hlen]

/-- What `indirectLength` reads is a head. -/
theorem exists_head_of_indirectLength (off : Nat) (hx : x.toNat = off + 55 + k) (hk : 0 < k) (hk' : k ≤ 8)
    (h : indirectLength (x :: d) k = .ok len) : len < lengthLimit ∧ 56 ≤ len ∧ ∃ rest, x :: d = head off len ++ rest := by
  obtain ⟨hkd, hhead, hlen, hle, hlt⟩ := (indirectLength_eq_ok_iff hk hk').1 h
  have hcompact : compact len = d.take k := by rw [← hlen, compact_ofBytes hhead]
  refine ⟨hlt, hle, d.drop k, ?_⟩
  rw [head_of_le hle, hcompact, length_take_of_le hkd, ← hx, UInt8.ofNat_toNat, List.cons_append, take_append_drop]

/-- The reader finds a length in nothing else. -/
theorem begins_of_length (h : length d = .ok len) (hd : d ≠ []) : ∃ hd rest, d = hd ++ rest ∧ Begins hd rest len := by
  obtain ⟨x, d, rfl⟩ := exists_cons_of_ne_nil hd
  rw [length_cons, bind_eq_ok_iff] at h
  obtain ⟨_, hgood, h⟩ := h
  have hlt := x.toNat_lt
  by_cases h1 : x.toNat < 0x80
  · rw [if_pos h1] at h
    cases h
    exact ⟨[], x :: d, rfl, .single x d h1⟩
  rw [if_neg h1] at h
  by_cases h2 : x.toNat ≤ 0xb7
  · rw [if_pos h2] at h
    rw [← Except.ok.inj h]
    refine ⟨head 0x80 (x.toNat - 0x80), d, ?_, .string _ d (lt_lengthLimit (by omega)) fun hone => ?_⟩
    · have hx : 0x80 + (x.toNat - 0x80) = x.toNat := by omega
      rw [head_of_lt (by omega), hx, UInt8.ofNat_toNat]
      rfl
    · exact requireGood_cons.1 hgood (by omega)
  rw [if_neg h2] at h
  by_cases h3 : x.toNat < 0xc0
  · rw [if_pos h3] at h
    obtain ⟨hlen, hle, rest, hrest⟩ := exists_head_of_indirectLength 0x80 (by omega) (by omega) (by omega) h
    exact ⟨_, rest, hrest, .string len rest hlen (by omega)⟩
  rw [if_neg h3] at h
  by_cases h4 : x.toNat ≤ 0xf7
  · rw [if_pos h4] at h
    rw [← Except.ok.inj h]
    refine ⟨head 0xc0 (x.toNat - 0xc0), d, ?_, .list _ d (lt_lengthLimit (by omega))⟩
    have hx : 0xc0 + (x.toNat - 0xc0) = x.toNat := by omega
    rw [head_of_lt (by omega), hx, UInt8.ofNat_toNat]
    rfl
  · rw [if_neg h4] at h
    obtain ⟨hlen, -, rest, hrest⟩ := exists_head_of_indirectLength 0xc0 (by omega) (by omega) (by omega) h
    exact ⟨_, rest, hrest, .list len rest hlen⟩

theorem Begins.payloadOffset (h : Begins hd rest len) : payloadOffset (hd ++ rest) = hd.length := by
  cases h with
  | single x rest hx => rw [nil_append, payloadOffset_cons, if_pos hx]; rfl
  | string len rest hlen _ =>
    by_cases hshort : len < 56
    · have hx : (UInt8.ofNat (0x80 + len)).toNat = 0x80 + len := toNat_ofNat_of_lt (by omega)
      rw [head_of_lt hshort, singleton_append, payloadOffset_cons, hx, length_singleton]
      split_ifs <;> omega
    · obtain ⟨hpos, hle⟩ := compact_length (not_lt.1 hshort) (hlen.trans lengthLimit_lt)
      have hx : (UInt8.ofNat (0x80 + 55 + (compact len).length)).toNat = 0x80 + 55 + (compact len).length :=
        toNat_ofNat_of_lt (by omega)
      rw [head_of_le (not_lt.1 hshort), List.cons_append, payloadOffset_cons, hx, List.length_cons]
      split_ifs <;> omega
  | list len rest hlen =>
    by_cases hshort : len < 56
    · have hx : (UInt8.ofNat (0xc0 + len)).toNat = 0xc0 + len := toNat_ofNat_of_lt (by omega)
      rw [head_of_lt hshort, singleton_append, payloadOffset_cons, hx, length_singleton]
      split_ifs <;> omega
    · obtain ⟨hpos, hle⟩ := compact_length (not_lt.1 hshort) (hlen.trans lengthLimit_lt)
      have hx : (UInt8.ofNat (0xc0 + 55 + (compact len).length)).toNat = 0xc0 + 55 + (compact len).length :=
        toNat_ofNat_of_lt (by omega)
      rw [head_of_le (not_lt.1 hshort), List.cons_append, payloadOffset_cons, hx, List.length_cons]
      split_ifs <;> omega

theorem head_ne_nil {off : Nat} : head off len ≠ [] := by
  unfold head
  split <;> simp

theorem Begins.ne_nil (h : Begins hd rest len) : hd ++ rest ≠ [] := by
  cases h with
  | single x rest _ => exact cons_ne_nil x rest
  | string len rest _ _ => exact fun h => head_ne_nil (append_eq_nil_iff.1 h).1
  | list len rest _ => exact fun h => head_ne_nil (append_eq_nil_iff.1 h).1

/-- What is not null is data or a list. -/
theorem isData_or_isList (h : d ≠ []) : isData d = true ∨ isList d = true := by
  obtain ⟨x, d, rfl⟩ := exists_cons_of_ne_nil h
  rw [isData_cons, isList_cons, decide_eq_true_iff, decide_eq_true_iff]
  exact lt_or_ge _ _

theorem isNull_of_ne_nil (h : d ≠ []) : isNull d = false := by
  obtain ⟨x, d, rfl⟩ := exists_cons_of_ne_nil h
  rfl

theorem actualSize_eq (h : d ≠ []) : actualSize d = length d >>= fun l => .ok (payloadOffset d + l) := by
  obtain ⟨x, d, rfl⟩ := exists_cons_of_ne_nil h
  by_cases hx : x.toNat < 0x80
  · have hgood : requireGood (x :: d) = .ok () := requireGood_of_ne (by omega)
    simp [actualSize, length_cons, payloadOffset_cons, hgood, hx]
  · have hkind := isData_or_isList h
    rw [isData_cons, isList_cons] at hkind
    simp only [actualSize, isNull_cons, isSingleByte_cons, isData_cons, isList_cons, hx, hkind, decide_false,
      Bool.false_eq_true, if_false, if_true, pure_eq]

theorem Begins.actualSize (h : Begins hd rest len) : actualSize (hd ++ rest) = .ok (hd.length + len) := by
  rw [actualSize_eq h.ne_nil, h.length, ok_bind, h.payloadOffset]

/-- The size of an item is read off its beginning, and only then. -/
theorem begins_of_actualSize (h : actualSize d = .ok k) (hd : d ≠ []) :
    ∃ hd rest len, d = hd ++ rest ∧ Begins hd rest len ∧ k = hd.length + len := by
  rw [actualSize_eq hd, bind_eq_ok_iff] at h
  obtain ⟨len, hlen, h⟩ := h
  obtain ⟨hd', rest, rfl, hbegins⟩ := begins_of_length hlen hd
  rw [hbegins.payloadOffset] at h
  exact ⟨hd', rest, len, rfl, hbegins, (Except.ok.inj h).symm⟩

/-! ### Whole items -/

/-- What follows an item, or is cut off behind it, does not change how it begins. -/
theorem Begins.of_prefix {rest' : Bytes} (h : Begins hd rest len) (hlen : len ≤ rest'.length)
    (hpre : rest' <+: rest ∨ rest <+: rest') : Begins hd rest' len := by
  cases h with
  | single x rest hx =>
    cases rest' with
    | nil => cases hlen
    | cons y rest' =>
      have hxy : y = x := by
        rcases hpre with ⟨t, ht⟩ | ⟨t, ht⟩
        · exact (List.cons.inj ht).1
        · exact (List.cons.inj ht).1.symm
      rw [hxy]
      exact .single x rest' hx
  | string len rest hlt hone =>
    refine .string len rest' hlt fun h1 => ?_
    obtain ⟨y, r, rfl, hy⟩ := hone h1
    cases rest' with
    | nil => rw [h1] at hlen; cases hlen
    | cons z rest' =>
      have hzy : z = y := by
        rcases hpre with ⟨t, ht⟩ | ⟨t, ht⟩
        · exact (List.cons.inj ht).1
        · exact (List.cons.inj ht).1.symm
      exact ⟨z, rest', rfl, hzy ▸ hy⟩
  | list len rest hlt => exact .list len rest' hlt

theorem bytes_of_forall {b : Bytes} (h : ∀ x, b = [x] → 0x80 ≤ x.toNat) : bytes b = head 0x80 b.length ++ b := by
  match b with
  | [] => rfl
  | [x] =>
    have hx : ¬x < 0x80 := fun hlt => absurd (UInt8.lt_iff_toNat_lt.1 hlt) (not_lt.2 (h x rfl))
    rw [bytes, if_neg hx]
    rfl
  | x :: y :: b => rfl

/-- One item, and nothing more: the head, and the payload. -/
theorem isItem_iff : IsItem d ↔ ∃ hd p, d = hd ++ p ∧ Begins hd p p.length := by
  constructor
  · rintro (⟨b, hb⟩ | ⟨p, hp⟩)
    · match b with
      | [] => exact ⟨head 0x80 0, [], rfl, .string 0 [] hb nofun⟩
      | [x] =>
        by_cases hx : x < 0x80
        · refine ⟨[], [x], ?_, .single x [] (UInt8.lt_iff_toNat_lt.1 hx)⟩
          rw [bytes, if_pos hx, nil_append]
        · refine ⟨head 0x80 1, [x], ?_, .string 1 [x] hb fun _ => ⟨x, [], rfl, ?_⟩⟩
          · rw [bytes, if_neg hx]
          · exact UInt8.le_iff_toNat_le.1 (UInt8.not_lt.1 hx)
      | x :: y :: b => exact ⟨_, x :: y :: b, rfl, .string _ _ hb (by simp)⟩
    · exact ⟨_, p, rfl, .list _ p hp⟩
  · rintro ⟨hd, p, rfl, hbegins⟩
    generalize hlen : p.length = len at hbegins
    cases hbegins with
    | single x rest hx =>
      obtain rfl : rest = [] := length_eq_zero_iff.1 (Nat.succ.inj hlen)
      have hbytes : bytes [x] = [x] := if_pos (UInt8.lt_iff_toNat_lt.2 hx)
      rw [nil_append, ← hbytes]
      exact .data [x] (lt_lengthLimit (by simp))
    | string len rest hlt hone =>
      subst hlen
      rw [← bytes_of_forall fun x hx => ?_]
      · exact .data p hlt
      · obtain ⟨y, r, hyr, hy⟩ := hone (by rw [hx]; rfl)
        rw [hx] at hyr
        cases hyr
        exact hy
    | list len rest hlt =>
      subst hlen
      exact .list p hlt

theorem IsItem.ne_nil (h : IsItem d) : d ≠ [] := by
  obtain ⟨hd', p, rfl, hbegins⟩ := isItem_iff.1 h
  exact hbegins.ne_nil

theorem checkSize_tooSmall (d : Bytes) : checkSize d { throwOnFail := true, failIfTooSmall := true } =
    actualSize d >>= fun k => if k > d.length then .error .undersizeRLP else .ok d := rfl

theorem checkSize_veryStrict (d : Bytes) : checkSize d veryStrict = actualSize d >>= fun k =>
    if k < d.length then .error .oversizeRLP else if k > d.length then .error .undersizeRLP else .ok d := by
  simp only [checkSize, veryStrict, pure_eq, throw_eq, error_bind, ok_bind, if_true]
  cases actualSize d with
  | error e => rfl
  | ok k => rfl

@[simp] theorem actualSize_nil : actualSize [] = .ok 0 := rfl

@[simp] theorem sizeAsEncoded_nil : sizeAsEncoded [] = .ok 0 := rfl

theorem IsItem.actualSize_append (h : IsItem d) (rest : Bytes) : actualSize (d ++ rest) = .ok d.length := by
  obtain ⟨hd', p, rfl, hbegins⟩ := isItem_iff.1 h
  have hlonger : Begins hd' (p ++ rest) p.length := hbegins.of_prefix (by simp) (.inr (prefix_append p rest))
  rw [append_assoc, hlonger.actualSize, length_append]

theorem IsItem.sizeAsEncoded_append (h : IsItem d) (rest : Bytes) : sizeAsEncoded (d ++ rest) = .ok d.length := by
  have hle : ¬d.length > (d ++ rest).length := by simp
  rw [sizeAsEncoded, checkSize_tooSmall, h.actualSize_append, ok_bind, if_neg hle, ok_bind, h.actualSize_append]

/-- The size that is found is the one of an item at the beginning. -/
theorem exists_item_of_sizeAsEncoded (h : sizeAsEncoded d = .ok k) (hd : d ≠ []) :
    ∃ i rest, d = i ++ rest ∧ IsItem i ∧ i.length = k := by
  rw [sizeAsEncoded, checkSize_tooSmall, bind_eq_ok_iff] at h
  obtain ⟨d', hcheck, h⟩ := h
  rw [bind_eq_ok_iff] at hcheck
  obtain ⟨k', hk', hcheck⟩ := hcheck
  rw [ite_error_eq_ok_iff] at hcheck
  obtain ⟨hle, rfl⟩ := hcheck.imp_right Except.ok.inj
  obtain rfl : k' = k := Except.ok.inj (hk'.symm.trans h)
  obtain ⟨hd', rest, len, rfl, hbegins, rfl⟩ := begins_of_actualSize h hd
  have hlen : len ≤ rest.length := by
    rw [length_append] at hle
    omega
  have htake : (rest.take len).length = len := length_take_of_le hlen
  have hitem : Begins hd' (rest.take len) len := hbegins.of_prefix htake.ge (.inl (List.take_prefix len rest))
  refine ⟨hd' ++ rest.take len, rest.drop len, ?_, isItem_iff.2 ⟨hd', _, rfl, htake.symm ▸ hitem⟩, ?_⟩
  · rw [append_assoc, take_append_drop]
  · rw [length_append, htake]

theorem mk'_veryStrict {r : RLP} : RLP.mk' d = .ok r ↔ r = { data := d } ∧ (d = [] ∨ IsItem d) := by
  rw [RLP.mk', checkSize_veryStrict]
  constructor
  · intro h
    obtain ⟨d', hcheck, hr⟩ := bind_eq_ok_iff.1 h
    obtain ⟨k, hk, hcheck⟩ := bind_eq_ok_iff.1 hcheck
    rw [ite_error_eq_ok_iff, ite_error_eq_ok_iff] at hcheck
    obtain ⟨hge, hle, hd⟩ := hcheck
    cases hd
    refine ⟨(Except.ok.inj hr).symm, ?_⟩
    by_cases hnil : d = []
    · exact .inl hnil
    · obtain ⟨hd', rest, len, rfl, hbegins, rfl⟩ := begins_of_actualSize hk hnil
      have hlen : rest.length = len := by
        rw [length_append] at hge hle
        omega
      exact .inr (isItem_iff.2 ⟨hd', rest, rfl, hlen.symm ▸ hbegins⟩)
  · rintro ⟨rfl, rfl | hitem⟩
    · rfl
    · have hsize := hitem.actualSize_append []
      rw [append_nil] at hsize
      rw [hsize, ok_bind, if_neg (lt_irrefl _), if_neg (lt_irrefl _)]
      rfl

theorem mk'_tooSmall (h : d = [] ∨ IsItem d) :
    RLP.mk' d { throwOnFail := true, failIfTooSmall := true } = .ok { data := d } := by
  rw [RLP.mk', checkSize_tooSmall]
  rcases h with rfl | h
  · rfl
  · have hsize := h.actualSize_append []
    rw [append_nil] at hsize
    rw [hsize, ok_bind, if_neg (lt_irrefl _)]
    rfl

theorem Begins.payload (h : Begins hd rest len) (hlen : len ≤ rest.length) :
    payload (hd ++ rest) = .ok (rest.take len) := by
  have hle : ¬len > (hd ++ rest).length := by
    rw [length_append]
    omega
  have hin : hd.length + len ≤ (hd ++ rest).length := by
    rw [length_append]
    omega
  rw [Rlp.payload, h.length, ok_bind, if_neg hle, h.payloadOffset, cropped, if_pos hin, drop_left]
  rfl

/-! ### Lists of items -/

/-- The items that `p` is made of. -/
structure Splits (p : Bytes) (is : List Bytes) : Prop where
  eq : p = is.flatten
  items : ∀ i ∈ is, IsItem i

variable {p i : Bytes} {is : List Bytes}

theorem splits_nil : Splits [] [] := ⟨rfl, nofun⟩

theorem Splits.cons (h : Splits p is) (hi : IsItem i) : Splits (i ++ p) (i :: is) := by
  refine ⟨by rw [h.eq, flatten_cons], fun j hj => ?_⟩
  rcases mem_cons.1 hj with rfl | hj
  · exact hi
  · exact h.items j hj

theorem Splits.tail (h : Splits p (i :: is)) : IsItem i ∧ Splits is.flatten is ∧ p = i ++ is.flatten :=
  ⟨h.items i mem_cons_self, ⟨rfl, fun j hj => h.items j (mem_cons_of_mem _ hj)⟩, h.eq⟩

theorem Splits.eq_nil_iff (h : Splits p is) : p = [] ↔ is = [] := by
  cases is with
  | nil => simp [h.eq]
  | cons i is =>
    have hne := h.tail.1.ne_nil
    simp [h.tail.2.2, hne]

/-- A list is made of its items in one way. -/
theorem Splits.unique {is' : List Bytes} (h : Splits p is) (h' : Splits p is') : is = is' := by
  induction is generalizing p is' with
  | nil => exact (h'.eq_nil_iff.1 (h.eq_nil_iff.2 rfl)).symm
  | cons i is ih =>
    cases is' with
    | nil => exact h.eq_nil_iff.1 (h'.eq_nil_iff.2 rfl)
    | cons i' is' =>
      obtain ⟨hi, hrest, heq⟩ := h.tail
      obtain ⟨hi', hrest', heq'⟩ := h'.tail
      have hsize := hi.sizeAsEncoded_append is.flatten
      rw [← heq, heq', hi'.sizeAsEncoded_append] at hsize
      have hboth : i = i' ∧ is.flatten = is'.flatten :=
        append_inj (heq.symm.trans heq') (Except.ok.inj hsize).symm
      rw [hboth.1, ih hrest (hboth.2 ▸ hrest')]

theorem itemsFrom_of_splits {fuel : Nat} (h : Splits p is) (hfuel : p.length ≤ fuel) :
    itemsFrom fuel p = .ok is.length := by
  induction is generalizing p fuel with
  | nil =>
    obtain rfl := h.eq_nil_iff.2 rfl
    cases fuel <;> rfl
  | cons i is ih =>
    obtain ⟨hi, hrest, rfl⟩ := h.tail
    have hpos : 0 < i.length := length_pos_iff.2 hi.ne_nil
    have hne : i ++ is.flatten ≠ [] := fun hnil => hi.ne_nil (append_eq_nil_iff.1 hnil).1
    rw [length_append] at hfuel
    obtain ⟨fuel, rfl⟩ := Nat.exists_eq_succ_of_ne_zero (n := fuel) (by omega)
    rw [itemsFrom, if_neg hne, hi.sizeAsEncoded_append, ok_bind, drop_left, ih hrest (by omega), ok_bind]
    rfl

theorem splits_of_itemsFrom {fuel n : Nat} (h : itemsFrom fuel p = .ok n) (hfuel : p.length ≤ fuel) :
    ∃ is, Splits p is ∧ is.length = n := by
  induction fuel generalizing p n with
  | zero =>
    obtain rfl : p = [] := length_eq_zero_iff.1 (Nat.le_zero.1 hfuel)
    cases h
    exact ⟨[], splits_nil, rfl⟩
  | succ fuel ih =>
    rw [itemsFrom] at h
    split at h
    · rename_i hnil
      cases h
      exact ⟨[], hnil ▸ splits_nil, rfl⟩
    · rename_i hne
      obtain ⟨k, hk, h⟩ := bind_eq_ok_iff.1 h
      obtain ⟨m, hm, hn⟩ := bind_eq_ok_iff.1 h
      obtain ⟨i, rest, rfl, hi, rfl⟩ := exists_item_of_sizeAsEncoded hk hne
      have hpos : 0 < i.length := length_pos_iff.2 hi.ne_nil
      rw [drop_left] at hm
      rw [length_append] at hfuel
      obtain ⟨is, hsplits, hlen⟩ := ih hm (by omega)
      refine ⟨i :: is, hsplits.cons hi, ?_⟩
      rw [List.length_cons, hlen]
      exact Except.ok.inj hn

/-! ### Taking a list apart -/

/-- A list, with what is in it. -/
structure IsListOf (d p : Bytes) : Prop where
  eq : d = head 0xc0 p.length ++ p
  lt : p.length < lengthLimit

theorem IsListOf.begins (h : IsListOf d p) : Begins (head 0xc0 p.length) p p.length := .list _ p h.lt

theorem isList_head_list (h : len < lengthLimit) : isList (head 0xc0 len ++ rest) = true := by
  by_cases hshort : len < 56
  · have hx : (UInt8.ofNat (0xc0 + len)).toNat = 0xc0 + len := toNat_ofNat_of_lt (by omega)
    rw [head_of_lt hshort, singleton_append, isList_cons, hx]
    simp
  · obtain ⟨-, hle⟩ := compact_length (not_lt.1 hshort) (h.trans lengthLimit_lt)
    have hx : (UInt8.ofNat (0xc0 + 55 + (compact len).length)).toNat = 0xc0 + 55 + (compact len).length :=
      toNat_ofNat_of_lt (by omega)
    rw [head_of_le (not_lt.1 hshort), List.cons_append, isList_cons, hx, decide_eq_true_iff]
    omega

theorem isList_head_string (h : len < lengthLimit) : isList (head 0x80 len ++ rest) = false := by
  by_cases hshort : len < 56
  · have hx : (UInt8.ofNat (0x80 + len)).toNat = 0x80 + len := toNat_ofNat_of_lt (by omega)
    rw [head_of_lt hshort, singleton_append, isList_cons, hx, decide_eq_false_iff_not]
    omega
  · obtain ⟨-, hle⟩ := compact_length (not_lt.1 hshort) (h.trans lengthLimit_lt)
    have hx : (UInt8.ofNat (0x80 + 55 + (compact len).length)).toNat = 0x80 + 55 + (compact len).length :=
      toNat_ofNat_of_lt (by omega)
    rw [head_of_le (not_lt.1 hshort), List.cons_append, isList_cons, hx, decide_eq_false_iff_not]
    omega

theorem IsListOf.isList (h : IsListOf d p) : isList d = true := by
  rw [h.eq]
  exact isList_head_list h.lt

theorem isList_bytes (b : Bytes) (h : b.length < lengthLimit) : isList (bytes b) = false := by
  match b with
  | [] => rfl
  | [x] =>
    by_cases hx : x < 0x80
    · have hlt : x.toNat < 0x80 := UInt8.lt_iff_toNat_lt.1 hx
      rw [bytes, if_pos hx, isList_cons, decide_eq_false_iff_not]
      omega
    · rw [bytes, if_neg hx]
      rfl
  | x :: y :: b =>
    rw [bytes]
    · exact isList_head_string h
    · exact fun _ h => nomatch h

theorem exists_of_isList (h : IsItem d) (hlist : isList d = true) : ∃ p, IsListOf d p := by
  cases h with
  | data b hb =>
    rw [isList_bytes b hb] at hlist
    cases hlist
  | list p hp => exact ⟨p, rfl, hp⟩

theorem isListOf_of_mk' {r : RLP} (h : RLP.mk' d = .ok r) (hlist : isList d = true) : ∃ p, IsListOf d p := by
  rcases (mk'_veryStrict.1 h).2 with rfl | hitem
  · cases hlist
  · exact exists_of_isList hitem hlist

theorem exists_of_not_isList (h : IsItem d) (hlist : isList d = false) : ∃ b, d = bytes b ∧ b.length < lengthLimit := by
  cases h with
  | data b hb => exact ⟨b, rfl, hb⟩
  | list p hp =>
    rw [IsListOf.isList ⟨rfl, hp⟩] at hlist
    cases hlist

theorem IsListOf.length (h : IsListOf d p) : length d = .ok p.length := by
  conv_lhs => rw [h.eq]
  exact h.begins.length

theorem IsListOf.payload (h : IsListOf d p) : payload d = .ok p := by
  rw [h.eq, h.begins.payload le_rfl, take_length]

theorem IsListOf.payloadOffset (h : IsListOf d p) : payloadOffset d = (head 0xc0 p.length).length := by
  rw [h.eq, h.begins.payloadOffset]

theorem itemCount_of_splits (hlist : isList d = true) (hp : payload d = .ok p) (hsplits : Splits p is) :
    itemCount d = .ok is.length := by
  rw [Rlp.itemCount, items, if_pos hlist, if_pos hlist, hp, ok_bind, itemsFrom_of_splits hsplits le_rfl]

theorem IsListOf.itemCount (h : IsListOf d p) (hsplits : Splits p is) : itemCount d = .ok is.length :=
  itemCount_of_splits h.isList h.payload hsplits

theorem IsListOf.splits_of_itemCount {n : Nat} (h : IsListOf d p) (hcount : Rlp.itemCount d = .ok n) :
    ∃ is, Splits p is ∧ is.length = n := by
  rw [Rlp.itemCount, items, h.isList, if_pos rfl, if_pos rfl, h.payload, ok_bind] at hcount
  exact splits_of_itemsFrom hcount le_rfl

end Kmdx.Rlp
