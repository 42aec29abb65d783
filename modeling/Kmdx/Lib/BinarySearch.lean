import Mathlib.Data.List.Sort

/-!
# Binary search

`lowerBound` halves a range of a sorted list as `std::lower_bound` does, and `binarySearch` looks at where it ends.
-/

namespace BinarySearch

variable {α : Type} [LinearOrder α]

/-- `std::lower_bound` on the `len` elements from `first` on -/
def lowerBound (l : List α) (x : α) (first len : Nat) : Nat :=
  if _h : len = 0 then first
  else
    match l[first + len / 2]? with
    | some y => if y < x then lowerBound l x (first + len / 2 + 1) (len - len / 2 - 1) else lowerBound l x first (len / 2)
    | none => first
termination_by len
decreasing_by all_goals omega

/-- `std::binary_search` -/
def binarySearch (l : List α) (x : α) : Bool :=
  match l[lowerBound l x 0 l.length]? with
  | some y => !(decide (x < y))
  | none => false

variable {l : List α} {x : α}

/-- It ends between the elements that are smaller and those that are not. -/
theorem lowerBound_spec (hs : l.Pairwise (· ≤ ·)) (first len : Nat) (hlen : first + len ≤ l.length) :
    first ≤ lowerBound l x first len ∧ lowerBound l x first len ≤ first + len ∧
      (∀ (i : Nat) (y : α), first ≤ i → i < lowerBound l x first len → l[i]? = some y → y < x) ∧
      (∀ (i : Nat) (y : α), lowerBound l x first len ≤ i → i < first + len → l[i]? = some y → x ≤ y) := by
  have hsorted : ∀ (i j : Nat) (y z : α), i ≤ j → l[i]? = some y → l[j]? = some z → y ≤ z := by
    intro i j y z hij hy hz
    obtain ⟨hi, rfl⟩ := List.getElem?_eq_some_iff.1 hy
    obtain ⟨hj, rfl⟩ := List.getElem?_eq_some_iff.1 hz
    rcases hij.eq_or_lt with rfl | hlt
    · exact le_rfl
    · exact List.pairwise_iff_getElem.1 hs i j hi hj hlt
  induction len using Nat.strong_induction_on generalizing first with
  | _ len ih =>
    rw [lowerBound]
    split
    · rename_i h0
      exact ⟨le_rfl, by omega, fun i y _ _ => by omega, fun i y _ _ => by omega⟩
    · rename_i h0
      have hmid : first + len / 2 < l.length := by omega
      rw [List.getElem?_eq_getElem hmid]
      have hy : l[first + len / 2]? = some l[first + len / 2] := List.getElem?_eq_getElem hmid
      dsimp only
      split
      · rename_i hlt
        obtain ⟨hge, hle, hbelow, habove⟩ := ih (len - len / 2 - 1) (by omega) (first + len / 2 + 1) (by omega)
        refine ⟨by omega, by omega, fun i y hi hi' hiy => ?_, fun i y hi hi' hiy => habove i y hi (by omega) hiy⟩
        by_cases hleft : i ≤ first + len / 2
        · exact (hsorted i _ y _ hleft hiy hy).trans_lt hlt
        · exact hbelow i y (by omega) hi' hiy
      · rename_i hge
        obtain ⟨hge', hle, hbelow, habove⟩ := ih (len / 2) (by omega) first (by omega)
        refine ⟨hge', by omega, hbelow, fun i y hi hi' hiy => ?_⟩
        by_cases hleft : i < first + len / 2
        · exact habove i y hi hleft hiy
        · exact (not_lt.1 hge).trans (hsorted _ i _ y (by omega) hy hiy)

theorem binarySearch_iff (hs : l.Pairwise (· ≤ ·)) : binarySearch l x = true ↔ x ∈ l := by
  obtain ⟨-, -, hbelow, habove⟩ := lowerBound_spec (x := x) hs 0 l.length (by omega)
  rw [binarySearch]
  constructor
  · intro h
    split at h
    · rename_i y hy
      obtain ⟨hlt, rfl⟩ := List.getElem?_eq_some_iff.1 hy
      have hle := habove _ _ le_rfl (by omega) hy
      rw [Bool.not_eq_true', decide_eq_false_iff_not, not_lt] at h
      rw [le_antisymm hle h]
      exact List.getElem_mem hlt
    · cases h
  · intro hmem
    obtain ⟨i, hi, rfl⟩ := List.getElem_of_mem hmem
    have hget : l[i]? = some l[i] := List.getElem?_eq_getElem hi
    have hle : lowerBound l l[i] 0 l.length ≤ i := by
      by_contra hlt
      exact lt_irrefl _ (hbelow i _ (Nat.zero_le _) (by omega) hget)
    have hbound : lowerBound l l[i] 0 l.length < l.length := by omega
    rw [List.getElem?_eq_getElem hbound, Bool.not_eq_true', decide_eq_false_iff_not, not_lt]
    rcases hle.eq_or_lt with heq | hlt
    · simp only [heq, le_refl]
    · exact List.pairwise_iff_getElem.1 hs _ i hbound hi hlt

end BinarySearch
