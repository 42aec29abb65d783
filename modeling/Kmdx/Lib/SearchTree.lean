import Mathlib.Order.Lattice

/-!
# Search trees

The elements of a `std::multiset`, in order. Where a new one comes to stand depends on the shape of the tree if the
elements are not in order (any more): the search compares it with the elements on its way, and ends between two that it
has been compared with. All that is used of a tree is that (`Places`).
-/

namespace SearchTree

open List

variable {ε α κ : Type}

/-- A place behind an element that the new one is not less than, and in front of one that it is less than. -/
structure Places (less : List Bool) (i : Nat) : Prop where
  le : i ≤ less.length
  behind : ∀ b ∈ (less.take i).getLast?, b = false
  before : ∀ b ∈ (less.drop i).head?, b = true

/-- The shapes of the trees, and where a search in them ends. It may end with what a comparison throws. -/
structure Strategy (ε : Type) where
  Shape : Type
  empty : Shape
  /-- With the answers to "is the new one less?", of all elements in order. -/
  insert : Shape → List (Except ε Bool) → Except ε (Nat × Shape)
  erase : Shape → Nat → Shape
  insert_ok : ∀ shape less, ∃ i shape', insert shape (less.map .ok) = .ok (i, shape') ∧ Places less i

/-- In an ordered tree, the new element comes behind all that it is not less than. -/
theorem sorted_insert [LinearOrder κ] {key : α → κ} {l : List α} {x : α} {i : Nat} (hl : l.Pairwise fun a b => key a ≤ key b)
    (hi : Places (l.map fun y => decide (key x < key y)) i) :
    (l.take i ++ x :: l.drop i).Pairwise fun a b => key a ≤ key b := by
  have hbehind : ∀ a ∈ l.take i, key a ≤ key x := by
    intro a ha
    rcases eq_nil_or_concat (l.take i) with hnil | ⟨l', b, hconcat⟩
    · rw [hnil] at ha
      cases ha
    · have hb : key b ≤ key x := by
        have hlast := hi.behind (decide (key x < key b))
        rw [← map_take, hconcat, concat_eq_append, map_append, map_singleton, List.getLast?_concat] at hlast
        exact not_lt.1 (of_decide_eq_false (hlast rfl))
      have hsorted := hl.sublist (take_sublist i l)
      rw [hconcat, concat_eq_append, pairwise_append] at hsorted
      rw [hconcat, concat_eq_append, mem_append, mem_singleton] at ha
      rcases ha with ha | rfl
      · exact (hsorted.2.2 a ha b (mem_singleton_self b)).trans hb
      · exact hb
  have hbefore : ∀ a ∈ l.drop i, key x ≤ key a := by
    intro a ha
    cases hdrop : l.drop i with
    | nil =>
      rw [hdrop] at ha
      cases ha
    | cons b l' =>
      have hb : key x < key b := by
        have hhead := hi.before (decide (key x < key b))
        rw [← map_drop, hdrop] at hhead
        exact of_decide_eq_true (hhead rfl)
      have hsorted := hl.sublist (drop_sublist i l)
      rw [hdrop, pairwise_cons] at hsorted
      rw [hdrop, mem_cons] at ha
      rcases ha with rfl | ha
      · exact hb.le
      · exact hb.le.trans (hsorted.1 a ha)
  rw [pairwise_append, pairwise_cons]
  refine ⟨hl.sublist (take_sublist i l), ⟨hbefore, hl.sublist (drop_sublist i l)⟩, fun a ha b hb => ?_⟩
  rcases mem_cons.1 hb with rfl | hb
  · exact hbehind a ha
  · exact (hbehind a ha).trans (hbefore b hb)

/-- Two keys compare the elements of a list in the same way. -/
def Agree [LT κ] (f g : α → κ) (l : List α) : Prop := ∀ x ∈ l, ∀ y ∈ l, f x < f y ↔ g x < g y

/-- A key may change while the elements are in the tree, as long as they compare as before. -/
theorem Agree.sorted [LinearOrder κ] {f g : α → κ} {l : List α} (h : Agree f g l)
    (hl : l.Pairwise fun a b => f a ≤ f b) : l.Pairwise fun a b => g a ≤ g b :=
  hl.imp_of_mem fun {a b} ha hb hle => not_lt.1 fun hlt => not_lt.2 hle ((h b hb a ha).2 hlt)

/-! ### Searching from the front -/

/-- The first place in front of a greater element, or what the first comparison that throws throws. -/
def upperBound : List (Except ε Bool) → Except ε Nat
  | [] => .ok 0
  | .error e :: _ => .error e
  | .ok true :: _ => .ok 0
  | .ok false :: l => (upperBound l).map (· + 1)

theorem upperBound_ok (less : List Bool) : ∃ i, upperBound (ε := ε) (less.map .ok) = .ok i ∧ Places less i := by
  induction less with
  | nil => exact ⟨0, rfl, Nat.le_refl 0, nofun, nofun⟩
  | cons b less ih =>
    cases b with
    | true => exact ⟨0, rfl, Nat.zero_le _, nofun, fun b hb => (Option.some.inj hb).symm⟩
    | false =>
      obtain ⟨i, hi, hplaces⟩ := ih
      refine ⟨i + 1, ?_, Nat.succ_le_succ hplaces.le, fun b hb => ?_, hplaces.before⟩
      · change (upperBound (less.map .ok)).map (· + 1) = _
        rw [hi]
        rfl
      · have hbehind := hplaces.behind
        rw [take_succ_cons] at hb
        cases hless : less.take i with
        | nil =>
          rw [hless] at hb
          exact (Option.some.inj hb).symm
        | cons c l =>
          rw [hless, List.getLast?_cons_cons] at hb
          rw [hless] at hbehind
          exact hbehind b hb

/-- Trees that are lists. -/
def linear (ε : Type) : Strategy ε where
  Shape := Unit
  empty := ()
  insert _ less := (upperBound less).map fun i => (i, ())
  erase _ _ := ()
  insert_ok _ less := by
    obtain ⟨i, hi, hplaces⟩ := upperBound_ok (ε := ε) less
    exact ⟨i, (), by rw [hi]; rfl, hplaces⟩

end SearchTree
