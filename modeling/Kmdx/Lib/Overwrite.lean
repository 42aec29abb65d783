import Mathlib.Data.List.GetD
import Mathlib.Order.Nat

/-!
# Writing into memory

A write over a part of a list, as `memcpy` does it, and the same in a memory without end. What is in the list is what
is in the memory without end (`getD_overwrite`).
-/

namespace Overwrite

open List

variable {α : Type} {l l' bs cs : List α} {m : Nat → α} {offset n p : Nat} {d : α}

/-- Writes `bs` over the elements from `offset` on, if they are all there. -/
def overwrite (l : List α) (offset : Nat) (bs : List α) : Option (List α) :=
  if bs.length = 0 ∨ offset + bs.length ≤ l.length then some (l.take offset ++ bs ++ l.drop (offset + bs.length)) else none

/-- Writes `bs` from `offset` on. -/
def store (m : Nat → α) (offset : Nat) (bs : List α) (p : Nat) : α :=
  if offset ≤ p then bs.getD (p - offset) (m p) else m p

theorem store_of_lt (h : p < offset) : store m offset bs p = m p := if_neg (not_le.2 h)

theorem store_of_le (h : offset + bs.length ≤ p) : store m offset bs p = m p := by
  rw [store, if_pos (by omega), getD_eq_default _ _ (by omega)]

theorem store_add {i : Nat} (h : i < bs.length) (d : α) : store m offset bs (offset + i) = bs.getD i d := by
  rw [store, if_pos (by omega), Nat.add_sub_cancel_left, getD_eq_getElem _ _ h, getD_eq_getElem _ _ h]

@[simp] theorem store_nil : store m offset [] = m := by
  funext p
  rw [store]
  split <;> rfl

/-- Two writes next to each other. -/
theorem store_append : store (store m offset bs) (offset + bs.length) cs = store m offset (bs ++ cs) := by
  funext p
  by_cases hlt : p < offset
  · rw [store_of_lt (by omega), store_of_lt hlt, store_of_lt hlt]
  · obtain ⟨i, rfl⟩ := Nat.exists_eq_add_of_le (not_lt.1 hlt)
    by_cases hi : i < bs.length
    · have happend : i < (bs ++ cs).length := by
        rw [length_append]
        omega
      rw [store_of_lt (by omega), store_add hi (m 0), store_add happend (m 0), getD_append _ _ _ _ hi]
    · by_cases hj : i < bs.length + cs.length
      · have happend : i < (bs ++ cs).length := by rwa [length_append]
        rw [show offset + i = offset + bs.length + (i - bs.length) by omega, store_add (by omega) (m 0),
          show offset + bs.length + (i - bs.length) = offset + i by omega, store_add happend (m 0),
          getD_append_right _ _ _ _ (not_lt.1 hi)]
      · rw [store_of_le (by omega), store_of_le (by omega), store_of_le (by rw [length_append]; omega)]

/-- A write succeeds inside of the list. -/
theorem overwrite_eq_some_iff : overwrite l offset bs = some l' ↔
    (bs.length = 0 ∨ offset + bs.length ≤ l.length) ∧ l.take offset ++ bs ++ l.drop (offset + bs.length) = l' := by
  rw [overwrite]
  split
  · rename_i h
    rw [Option.some_inj, and_iff_right h]
  · rename_i h
    exact ⟨nofun, fun h' => absurd h'.1 h⟩

theorem length_overwrite (h : overwrite l offset bs = some l') : l'.length = l.length := by
  obtain ⟨hbs | hle, rfl⟩ := overwrite_eq_some_iff.1 h
  · rw [length_eq_zero_iff.1 hbs, append_nil, length_nil, Nat.add_zero, take_append_drop]
  · rw [length_append, length_append, length_take, length_drop]
    omega

theorem getD_overwrite (h : overwrite l offset bs = some l') : l'.getD p d = store (fun p => l.getD p d) offset bs p := by
  obtain ⟨hbs | hle, rfl⟩ := overwrite_eq_some_iff.1 h
  · rw [length_eq_zero_iff.1 hbs, append_nil, length_nil, Nat.add_zero, take_append_drop, store_nil]
  · have htake : (l.take offset).length = offset := by
      rw [length_take]
      omega
    have hlen : (l.take offset ++ bs).length = offset + bs.length := by rw [length_append, htake]
    by_cases hlt : p < offset
    · rw [store_of_lt hlt, getD_append _ _ _ _ (by omega), getD_append _ _ _ _ (by omega), List.getD_eq_getElem?_getD,
        List.getElem?_take_of_lt hlt, ← List.getD_eq_getElem?_getD]
    · by_cases hin : p < offset + bs.length
      · rw [getD_append _ _ _ _ (by omega), getD_append_right _ _ _ _ (by omega), htake]
        obtain ⟨i, rfl⟩ := Nat.exists_eq_add_of_le (not_lt.1 hlt)
        rw [store_add (by omega) d, Nat.add_sub_cancel_left]
      · rw [store_of_le (not_lt.1 hin), getD_append_right _ _ _ _ (by omega), hlen, List.getD_eq_getElem?_getD,
          List.getElem?_drop, show offset + bs.length + (p - (offset + bs.length)) = p by omega, ← List.getD_eq_getElem?_getD]

/-- What is added at the end does not change what is read if it is the default. -/
theorem getD_append_replicate : (l ++ List.replicate n d).getD p d = l.getD p d := by
  by_cases h : p < l.length
  · exact getD_append _ _ _ _ h
  · rw [getD_append_right _ _ _ _ (not_lt.1 h), getD_eq_default l _ (not_lt.1 h), List.getD_eq_getElem?_getD,
      List.getElem?_replicate]
    split <;> rfl

end Overwrite
