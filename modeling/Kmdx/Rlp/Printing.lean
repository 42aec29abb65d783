import Kmdx.Rlp.Bounds
import Kmdx.Rlp.Conversions

/-!
# Printing (`libdevcore/RLP.cpp`)

`operator<<` goes into the lists of a list, which nothing has looked at before, and so it throws if one of them is not made of
items (`streamOut_iff`).
-/

namespace Kmdx.Rlp

open ExceptRules

/-- `toString` -/
def toString (d : Bytes) : Except Exn Bytes := do
  if ← Checked.isData d then do
    let p ← Checked.payload d
    return cropped p 0 (← Checked.length d)
  else return []

/-- Without the text. So many levels of lists are printed at most. -/
def streamOut : Nat → Bytes → Except Exn Unit
  | 0, _ => return
  | levels + 1, d => do
    if isNull d then
      return
    else if ← Checked.isInt d then do
      let _ ← Checked.toInt d intLimit laissezFaire
      return
    else if ← Checked.isData d then do
      let _ ← toString d
      return
    else if ← Checked.isList d then do
      Checked.forItems (fun i => streamOut levels i.data) d (d.length + 1) (← Checked.begin_ d)

/-- `operator<<` -/
def print (d : Bytes) : Except Exn Unit := streamOut 65 d

/-- On so many levels, the lists are made of items. -/
def Nested : Nat → Bytes → Prop
  | 0, _ => True
  | levels + 1, d => ∀ p, IsListOf d p → ∃ is, Splits p is ∧ ∀ i ∈ is, Nested levels i

variable {b d p : Bytes} {levels : Nat}

theorem isInt_of_isList (h : isList d = true) (hgood : requireGood d = .ok ()) : isInt d = .ok false := by
  cases d with
  | nil => rfl
  | cons x d =>
    rw [isList_cons, decide_eq_true_iff] at h
    rw [isInt_cons, hgood, ok_bind, if_neg (by omega), if_neg (by omega), if_neg (by omega), if_neg (by omega)]

theorem toString_bytes (h : b.length < lengthLimit) : toString (bytes b) = .ok b := by
  rw [toString, Checked.isData_eq, isData_bytes h, ok_bind, if_pos rfl, Checked.payload_eq, payload_bytes h, ok_bind,
    Checked.length_eq, length_bytes h, ok_bind, cropped, if_pos (by simp)]
  simp

theorem toInt_laissezFaire (h : b.length < lengthLimit) (maxSize : Nat) :
    toInt (bytes b) maxSize laissezFaire = .ok (BigEndian.ofBytes b) := by
  rw [toInt, requireGood_bytes h, isInt_bytes h, payload_bytes h, isList_bytes b h, isNull_bytes h]
  simp [laissezFaire]

theorem streamOut_bytes (h : b.length < lengthLimit) : streamOut levels (bytes b) = .ok () := by
  cases levels with
  | zero => rfl
  | succ levels =>
    have hnull : ¬isNull (bytes b) = true := by
      rw [isNull_bytes h]
      exact Bool.false_ne_true
    rw [streamOut, if_neg hnull, Checked.isInt_eq, isInt_bytes h, ok_bind, Checked.toInt_eq, toInt_laissezFaire h,
      Checked.isData_eq, isData_bytes h, toString_bytes h]
    split <;> rfl

theorem streamOut_list (h : IsListOf d p) : streamOut (levels + 1) d = .ok () ↔
    ∃ is, Splits p is ∧ ∀ i ∈ is, streamOut levels i = .ok () := by
  have hne : d ≠ [] := by
    rintro rfl
    cases h.isList
  have hnull : ¬isNull d = true := by
    rw [isNull_of_ne_nil hne]
    exact Bool.false_ne_true
  have hint := isInt_of_isList h.isList (requireGood_of_length h.length hne)
  rw [streamOut, if_neg hnull, Checked.isInt_eq, hint, ok_bind, if_neg Bool.false_ne_true, Checked.isData_eq,
    not_isData_of_isList h.isList, ok_bind, if_neg Bool.false_ne_true, Checked.isList_eq, h.isList, ok_bind, if_pos rfl,
    Checked.begin_eq]
  constructor
  · intro hloop
    obtain ⟨it, hit, hloop⟩ := bind_eq_ok_iff.1 hloop
    obtain ⟨rs, hrs, hall⟩ := (Checked.forItems_eq_ok_iff (h.at_begin hit)).1 hloop
    have helements : elements d = .ok rs := by rw [elements, hit, ok_bind, hrs]
    obtain ⟨is, hsplits, rfl⟩ := h.splits_of_elements helements
    exact ⟨is, hsplits, fun i hi => hall _ (List.mem_map_of_mem hi)⟩
  · rintro ⟨is, hsplits, hall⟩
    obtain ⟨it, hit, hloop⟩ := bind_eq_ok_iff.1 (h.elements hsplits)
    rw [hit, ok_bind]
    refine (Checked.forItems_eq_ok_iff (h.at_begin hit)).2 ⟨_, hloop, fun r hr => ?_⟩
    obtain ⟨i, hi, rfl⟩ := List.mem_map.1 hr
    exact hall i hi

/-- An item is printed if its lists are made of items, as far down as they are printed. -/
theorem streamOut_iff (h : IsItem d) : streamOut levels d = .ok () ↔ Nested levels d := by
  induction levels generalizing d with
  | zero => exact ⟨fun _ => trivial, fun _ => rfl⟩
  | succ levels ih =>
    by_cases hlist : isList d = true
    · obtain ⟨p, hp⟩ := exists_of_isList h hlist
      rw [streamOut_list hp]
      constructor
      · rintro ⟨is, hsplits, hall⟩ p' hp'
        obtain rfl : p = p' := Except.ok.inj (hp.payload.symm.trans hp'.payload)
        exact ⟨is, hsplits, fun i hi => (ih (hsplits.items i hi)).1 (hall i hi)⟩
      · intro hnested
        obtain ⟨is, hsplits, hall⟩ := hnested p hp
        exact ⟨is, hsplits, fun i hi => (ih (hsplits.items i hi)).2 (hall i hi)⟩
    · rw [Bool.not_eq_true] at hlist
      obtain ⟨b, rfl, hb⟩ := exists_of_not_isList h hlist
      refine iff_of_true (streamOut_bytes hb) fun p hp => ?_
      rw [hp.isList] at hlist
      cases hlist

end Kmdx.Rlp
