import Kmdx.Rlp.Lists

/-!
# Reads stay inside

`vector_ref` asserts that an index is less than its size. With that assertion in every read, the reader is the same: no byte
that is not there is asked for (`Checked.actualSize_eq`, `Checked.forItems_eq_ok_iff`, `Checked.item_eq`).
-/

namespace Kmdx.Rlp.Checked

open ExceptRules

/-- `vector_ref::operator[]` -/
def byteAt (d : Bytes) (i : Nat) : Except Exn UInt8 := if i < d.length then return d.getD i 0 else throw .undefined

def isSingleByte (d : Bytes) : Except Exn Bool := do
  if isNull d then return false else return (← byteAt d 0) < 0x80

def isData (d : Bytes) : Except Exn Bool := do
  if isNull d then return false else return (← byteAt d 0) < 0xc0

def isList (d : Bytes) : Except Exn Bool := do
  if isNull d then return false else return 0xc0 ≤ (← byteAt d 0)

def requireGood (d : Bytes) : Except Exn Unit := do
  if isNull d then
    throw .badRLP
  if (← byteAt d 0) ≠ 0x81 then
    return
  if d.length < 2 then
    throw .badRLP
  if (← byteAt d 1) < 0x80 then
    throw .badRLP

def lengthSize (d : Bytes) : Except Exn Nat := do
  if ← isData d then
    if 0xb7 < (← byteAt d 0) then return (← byteAt d 0).toNat - 0xb7
  if ← isList d then
    if 0xf7 < (← byteAt d 0) then return (← byteAt d 0).toNat - 0xf7
  return 0

def payloadOffset (d : Bytes) : Except Exn Nat := do
  if ← isSingleByte d then return 0 else return 1 + (← lengthSize d)

/-- The loop over the bytes of a length -/
def readLength (d : Bytes) (lengthSize : Nat) : Except Exn Nat :=
  (List.range lengthSize).foldlM (fun ret i => return ret <<< 8 ||| (← byteAt d (i + 1)).toNat) 0

def indirectLength (d : Bytes) (lengthSize : Nat) : Except Exn Nat := do
  if d.length ≤ lengthSize then
    throw .badRLP
  if d.length > 1 then
    if (← byteAt d 1) = 0 then
      throw .badRLP
  if lengthSize > 8 then
    throw .undersizeRLP
  -- No leading zeroes.
  if (← byteAt d 1) = 0 then
    throw .badRLP
  let ret ← readLength d lengthSize
  -- Must be greater than the limit.
  if ret < 56 then
    throw .badRLP
  if ret ≥ lengthLimit then
    throw .undersizeRLP
  return ret

def length (d : Bytes) : Except Exn Nat := do
  if isNull d then
    return 0
  requireGood d
  let n := (← byteAt d 0).toNat
  if n < 0x80 then
    return 1
  else if n ≤ 0xb7 then
    return n - 0x80
  else if n < 0xc0 then
    indirectLength d (n - 0xb7)
  else if n ≤ 0xf7 then
    return n - 0xc0
  else
    indirectLength d (n - 0xf7)

def actualSize (d : Bytes) : Except Exn Nat := do
  if isNull d then
    return 0
  if ← isSingleByte d then
    return 1
  if (← isData d) ∨ (← isList d) then
    return (← payloadOffset d) + (← length d)
  return 0

def checkSize (d : Bytes) (s : Strictness) : Except Exn Bytes := do
  let d ← if s.failIfTooBig then do
      if (← actualSize d) < d.length then
        if s.throwOnFail then throw Exn.oversizeRLP else pure []
      else pure d
    else pure d
  if s.failIfTooSmall then do
    if (← actualSize d) > d.length then
      if s.throwOnFail then throw .undersizeRLP else return []
    else return d
  else return d

def mk' (d : Bytes) (s : Strictness := veryStrict) : Except Exn RLP :=
  return { data := ← checkSize d s }

def sizeAsEncoded (d : Bytes) : Except Exn Nat := do
  actualSize (← checkSize d { throwOnFail := true, failIfTooSmall := true })

def payload (d : Bytes) : Except Exn Bytes := do
  let l ← length d
  if l > d.length then
    throw .badRLP
  return cropped d (← payloadOffset d) l

def isInt (d : Bytes) : Except Exn Bool := do
  if isNull d then
    return false
  requireGood d
  let n := (← byteAt d 0).toNat
  if n < 0x80 then
    return n ≠ 0
  else if n = 0x80 then
    return true
  else if n ≤ 0xb7 then
    if d.length ≤ 1 then throw .badRLP else return (← byteAt d 1) ≠ 0
  else if n < 0xc0 then
    if d.length ≤ 1 + n - 0xb7 then throw .badRLP else return (← byteAt d (1 + n - 0xb7)) ≠ 0
  else
    return false

def toInt (d : Bytes) (maxSize : Nat) (flags : Strictness := strict) : Except Exn Nat := do
  requireGood d
  let canon ← isInt d
  if (!canon ∧ !flags.allowNonCanon) ∨ (← isList d) ∨ isNull d then
    if flags.throwOnFail then throw .badCast else return 0
  else do
    let p ← payload d
    if p.length > maxSize ∧ flags.failIfTooBig then
      if flags.throwOnFail then throw .badCast else return 0
    else return BigEndian.ofBytes p

/-! ### Iteration -/

/-- The bytes that are referred to, which have to be there -/
def view (d : Bytes) (start : Option Nat) (count : Nat) : Except Exn Bytes :=
  match start with
  | some start => if start + count ≤ d.length then return (d.drop start).take count else throw .undefined
  | none => if count = 0 then return [] else throw .undefined

def begin_ (d : Bytes) : Except Exn Iterator := do
  if ← isList d then do
    let pl ← payload d
    let n ← sizeAsEncoded pl
    let offset ← payloadOffset d
    let start := if offset + (← length d) ≤ d.length then some offset else none
    return ⟨start, n, pl.length - n⟩
  else return .end_ d

def next (d : Bytes) (it : Iterator) : Except Exn Iterator := do
  let start := it.start.map (· + it.count)
  if it.remaining ≠ 0 then do
    let n ← sizeAsEncoded (← view d start it.remaining)
    return ⟨start, n, it.remaining - n⟩
  else return ⟨start, 0, 0⟩

/-- `operator*` -/
def deref (d : Bytes) (it : Iterator) : Except Exn RLP := do mk' (← view d it.start it.count)

/-- A range-for loop with its body -/
def forItems (body : RLP → Except Exn Unit) (d : Bytes) : Nat → Iterator → Except Exn Unit
  | 0, _ => throw .diverges
  | fuel + 1, it => do
    if it.same (.end_ d) then
      return
    body (← deref d it)
    forItems body d fuel (← next d it)

/-! ### The items by their indices -/

/-- The loop of `operator[]`, for the items that are left to pass. -/
def seek : Nat → M Unit
  | 0 => return
  | k + 1 => do
    let r ← get
    if r.lastItem = [] then
      return
    let p ← payload r.data
    let rest := p.drop r.lastEnd
    set { r with lastItem := rest }
    let n ← sizeAsEncoded rest
    let item := cropped rest 0 n
    set { r with lastItem := item, lastEnd := r.lastEnd + item.length, lastIndex := r.lastIndex + 1 }
    seek k

/-- For an index before the last one, from the beginning. -/
def restart (i : Nat) : M Unit := do
  let r ← get
  if i < r.lastIndex then do
    let p ← payload r.data
    let n ← sizeAsEncoded p
    set { r with lastEnd := n, lastItem := cropped p 0 n, lastIndex := 0 }
  else return

/-- `operator[]` -/
def item (i : Nat) : M RLP := do
  restart i
  seek (i - (← get).lastIndex)
  mk' (← get).lastItem { throwOnFail := true, failIfTooSmall := true }

/-! ### Reading bytes -/

variable {d : Bytes} {i k : Nat} {x : UInt8} {α : Type}

theorem byteAt_of_lt (h : i < d.length) : byteAt d i = .ok (d.getD i 0) := if_pos h

@[simp] theorem byteAt_cons_zero : byteAt (x :: d) 0 = .ok x := byteAt_of_lt (Nat.zero_lt_succ _)

@[simp] theorem byteAt_cons_one {y : UInt8} : byteAt (x :: y :: d) 1 = .ok y := byteAt_of_lt (by simp)

@[simp] theorem isSingleByte_eq (d : Bytes) : isSingleByte d = .ok (Rlp.isSingleByte d) := by
  cases d <;> simp [isSingleByte, Rlp.isSingleByte, isNull]

@[simp] theorem isData_eq (d : Bytes) : isData d = .ok (Rlp.isData d) := by
  cases d <;> simp [isData, Rlp.isData, isNull]

@[simp] theorem isList_eq (d : Bytes) : isList d = .ok (Rlp.isList d) := by
  cases d <;> simp [isList, Rlp.isList, isNull]

@[simp] theorem requireGood_eq (d : Bytes) : requireGood d = Rlp.requireGood d := by
  cases d with
  | nil => rfl
  | cons x d =>
    cases d with
    | nil => simp [requireGood, Rlp.requireGood, isNull]
    | cons y d => simp [requireGood, Rlp.requireGood, isNull]

@[simp] theorem lengthSize_eq (d : Bytes) : lengthSize d = .ok (Rlp.lengthSize d) := by
  cases d with
  | nil => rfl
  | cons x d =>
    rw [lengthSize, Rlp.lengthSize, isData_eq, isList_eq, byteAt_cons_zero, List.getD_cons_zero]
    cases Rlp.isData (x :: d) <;> cases Rlp.isList (x :: d) <;> by_cases hdata : 0xb7 < x <;> by_cases hlist : 0xf7 < x <;>
      simp [hdata, hlist]

@[simp] theorem payloadOffset_eq (d : Bytes) : payloadOffset d = .ok (Rlp.payloadOffset d) := by
  simp only [payloadOffset, Rlp.payloadOffset, isSingleByte_eq, lengthSize_eq, ok_bind]
  split <;> rfl

theorem readLength_eq (hk : k < d.length) : readLength d k = .ok (BigEndian.ofBytes ((d.drop 1).take k)) := by
  unfold readLength
  induction k with
  | zero => rfl
  | succ k ih =>
    have hlt : (d.getD (k + 1) 0).toNat < 2 ^ 8 := UInt8.toNat_lt _
    have hget : (d.drop 1)[k]? = some (d.getD (k + 1) 0) := by
      rw [List.getElem?_drop, Nat.add_comm, List.getElem?_eq_getElem (by omega), List.getD_eq_getElem]
    rw [List.range_succ, List.foldlM_append, ih (by omega), ok_bind, List.take_add_one, hget, Option.toList_some,
      BigEndian.ofBytes_concat, List.foldlM_cons, byteAt_of_lt (by omega), ok_bind, ← Nat.shiftLeft_add_eq_or_of_lt hlt,
      Nat.shiftLeft_eq]
    rfl

theorem indirectLength_eq (hk : 0 < k) : indirectLength d k = Rlp.indirectLength d k := by
  by_cases hshort : d.length ≤ k
  · simp [indirectLength, Rlp.indirectLength, hshort]
  have hread := readLength_eq (not_le.1 hshort)
  cases d with
  | nil => exact absurd (Nat.zero_le k) hshort
  | cons x d =>
    cases d with
    | nil => exact absurd hk hshort
    | cons y d => by_cases hzero : y = 0 <;> simp [indirectLength, Rlp.indirectLength, hread, hzero]

@[simp] theorem length_eq (d : Bytes) : length d = Rlp.length d := by
  cases d with
  | nil => rfl
  | cons x d =>
    have hstring (h : ¬x.toNat ≤ 0xb7) : indirectLength (x :: d) (x.toNat - 0xb7) =
        Rlp.indirectLength (x :: d) (x.toNat - 0xb7) :=
      indirectLength_eq (by omega)
    have hlist (h : ¬x.toNat ≤ 0xf7) : indirectLength (x :: d) (x.toNat - 0xf7) =
        Rlp.indirectLength (x :: d) (x.toNat - 0xf7) :=
      indirectLength_eq (by omega)
    simp only [length, Rlp.length, requireGood_eq, byteAt_cons_zero, List.getD_cons_zero, ok_bind]
    split_ifs with h h2 h3 h4 h5
    · rfl
    · rfl
    · rfl
    · rw [hstring h3]
    · rfl
    · rw [hlist h5]

@[simp] theorem actualSize_eq (d : Bytes) : actualSize d = Rlp.actualSize d := by
  simp only [actualSize, Rlp.actualSize, isSingleByte_eq, isData_eq, isList_eq, payloadOffset_eq, length_eq, ok_bind]

@[simp] theorem checkSize_eq (d : Bytes) (s : Strictness) : checkSize d s = Rlp.checkSize d s := by
  simp only [checkSize, Rlp.checkSize, actualSize_eq]

@[simp] theorem mk'_eq (d : Bytes) (s : Strictness) : mk' d s = RLP.mk' d s := by
  rw [mk', RLP.mk', checkSize_eq]

@[simp] theorem sizeAsEncoded_eq (d : Bytes) : sizeAsEncoded d = Rlp.sizeAsEncoded d := by
  simp only [sizeAsEncoded, Rlp.sizeAsEncoded, checkSize_eq, actualSize_eq]

@[simp] theorem payload_eq (d : Bytes) : payload d = Rlp.payload d := by
  simp only [payload, Rlp.payload, length_eq, payloadOffset_eq, ok_bind]

@[simp] theorem isInt_eq (d : Bytes) : isInt d = Rlp.isInt d := by
  cases d with
  | nil => rfl
  | cons x d =>
    have hbyte (i : Nat) (h : ¬(x :: d).length ≤ i) : byteAt (x :: d) i = .ok ((x :: d).getD i 0) := byteAt_of_lt (not_le.1 h)
    simp only [isInt, Rlp.isInt, requireGood_eq, byteAt_cons_zero, List.getD_cons_zero, ok_bind]
    split_ifs with hnull hsmall hempty hshort hfirst hlong hrest
    · rfl
    · rfl
    · rfl
    · rfl
    · rw [hbyte _ hfirst, ok_bind]
    · rfl
    · rw [hbyte _ hrest, ok_bind]
    · rfl

@[simp] theorem toInt_eq (d : Bytes) (maxSize : Nat) (flags : Strictness) :
    toInt d maxSize flags = Rlp.toInt d maxSize flags := by
  simp only [toInt, Rlp.toInt, requireGood_eq, isInt_eq, isList_eq, payload_eq, ok_bind]

/-! ### Reading lists -/

variable {it : Iterator} {place fuel : Nat} {body : RLP → Except Exn Unit}

@[simp] theorem begin_eq (d : Bytes) : begin_ d = Iterator.begin_ d := by
  simp only [begin_, Iterator.begin_, isList_eq, payload_eq, sizeAsEncoded_eq, payloadOffset_eq, length_eq, ok_bind]

theorem view_some {start count : Nat} (h : start + count ≤ d.length) :
    view d (some start) count = .ok ((d.drop start).take count) :=
  if_pos h

theorem next_eq (h : it.At d place) : next d it = it.next d := by
  have hle := h.le
  have hsize := h.size
  rw [List.length_drop] at hsize
  rw [next, Iterator.next, h.start, Option.map_some, view_some (by omega), ok_bind, sizeAsEncoded_eq, behind_some]

theorem deref_eq (h : it.At d place) : deref d it = it.deref d := by
  have hle := h.le
  have hsize := h.size
  rw [List.length_drop] at hsize
  rw [deref, Iterator.deref, h.start, view_some (by omega), ok_bind, mk'_eq, behind_some]

/-- A loop ends well if it goes through the items, and its body returns for each of them. -/
theorem forItems_eq_ok_iff (h : it.At d place) :
    forItems body d fuel it = .ok () ↔ ∃ rs, Iterator.loop d fuel it = .ok rs ∧ ∀ r ∈ rs, body r = .ok () := by
  induction fuel generalizing it place with
  | zero =>
    constructor
    · intro hloop
      cases hloop
    · rintro ⟨rs, hloop, -⟩
      cases hloop
  | succ fuel ih =>
    rw [forItems, Iterator.loop, deref_eq h, next_eq h]
    by_cases hend : it.same (.end_ d) = true
    · rw [if_pos hend, if_pos hend]
      exact ⟨fun _ => ⟨[], rfl, by simp⟩, fun _ => rfl⟩
    rw [if_neg hend, if_neg hend]
    constructor
    · intro hloop
      obtain ⟨r, hr, hloop⟩ := bind_eq_ok_iff.1 hloop
      obtain ⟨⟨⟩, hbody, hloop⟩ := bind_eq_ok_iff.1 hloop
      obtain ⟨it', hnext, hloop⟩ := bind_eq_ok_iff.1 hloop
      obtain ⟨rs, hrs, hall⟩ := (ih (h.next hnext)).1 hloop
      refine ⟨r :: rs, ?_, List.forall_mem_cons.2 ⟨hbody, hall⟩⟩
      rw [hr, ok_bind, hnext, ok_bind, hrs]
      rfl
    · rintro ⟨rs, hloop, hall⟩
      obtain ⟨r, hr, hloop⟩ := bind_eq_ok_iff.1 hloop
      obtain ⟨it', hnext, hloop⟩ := bind_eq_ok_iff.1 hloop
      obtain ⟨rs', hrs, hloop⟩ := bind_eq_ok_iff.1 hloop
      cases hloop
      obtain ⟨hbody, hrest⟩ := List.forall_mem_cons.1 hall
      rw [hr, ok_bind, hbody, ok_bind, hnext, ok_bind]
      exact (ih (h.next hnext)).2 ⟨rs', hrs, hrest⟩

@[simp] theorem seek_eq (k : Nat) : seek k = Rlp.seek k := by
  induction k with
  | zero => rfl
  | succ k ih => simp only [seek, Rlp.seek, payload_eq, sizeAsEncoded_eq, ih]

@[simp] theorem item_eq (i : Nat) : item i = Rlp.item i := by
  simp only [item, Rlp.item, restart, Rlp.restart, payload_eq, sizeAsEncoded_eq, seek_eq, mk'_eq]

end Kmdx.Rlp.Checked
