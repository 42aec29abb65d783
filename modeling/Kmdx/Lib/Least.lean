import Mathlib.Data.List.Perm.Subperm
import Kmdx.Lib.SortedMap

/-!
# The least by a key

What is collected in a map of lists comes out in the order of the keys, and its first `k` are the least of what was put in.
They are the least of more than that exactly if everything left out has `k` others at most as great.
-/

/-! ### Lists under keys -/

namespace SortedMap

variable {α K : Type} [LinearOrder K] {m : SortedMap K (List α)} {f : α → K} {x : α}

/-- `m[k].push_back(x)` -/
def push (m : SortedMap K (List α)) (k : K) (x : α) : SortedMap K (List α) := m.insert k ((m.find? k).getD [] ++ [x])

/-- All that the lists hold, list by list -/
def values (m : SortedMap K (List α)) : List α := m.entries.flatMap Prod.snd

/-- Everything is under its key. -/
def Keyed (f : α → K) (m : SortedMap K (List α)) : Prop := ∀ e ∈ m.entries, ∀ x ∈ e.2, f x = e.1

theorem keyed_empty : Keyed f ∅ := nofun

theorem Keyed.push (h : Keyed f m) (x : α) : Keyed f (m.push (f x) x) := by
  intro e he y hy
  rcases mem_insert.1 he with rfl | ⟨he, _⟩
  · rcases List.mem_append.1 hy with hy | hy
    · cases hfound : m.find? (f x) with
      | none => simp [hfound] at hy
      | some ys =>
        rw [hfound] at hy
        exact h _ (find?_eq_some_iff.1 hfound) y hy
    · rw [List.mem_singleton.1 hy]
  · exact h e he y hy

theorem flatMap_insertEntry_perm (k : K) (x : α) : ∀ {es : List (K × List α)}, es.Pairwise (·.1 < ·.1) →
    ((insertEntry k ((es.lookup k).getD [] ++ [x]) es).flatMap Prod.snd).Perm (x :: es.flatMap Prod.snd)
  | [], _ => by simp [insertEntry]
  | e :: es, h => by
    obtain ⟨hlt, hes⟩ := List.pairwise_cons.1 h
    rw [insertEntry]
    split_ifs with hk hk'
    · -- behind the key that is looked for, there is none equal to it
      have hnot : (e :: es).lookup k = none := by
        rw [List.lookup_eq_none_iff]
        intro d hd
        rcases List.mem_cons.1 hd with rfl | hd
        · exact bne_iff_ne.2 hk.ne
        · exact bne_iff_ne.2 (hk.trans (hlt d hd)).ne
      simp [hnot]
    · rw [hk', List.lookup_cons_self]
      simp [List.perm_middle]
    · have hne : (k == e.1) = false := beq_false_of_ne hk'
      rw [List.lookup_cons, hne, List.flatMap_cons, List.flatMap_cons]
      exact ((flatMap_insertEntry_perm k x hes).append_left e.2).trans List.perm_middle

theorem values_push_perm (m : SortedMap K (List α)) (k : K) (x : α) : (m.push k x).values.Perm (x :: m.values) :=
  flatMap_insertEntry_perm k x m.sorted

theorem Keyed.pairwise_values (h : Keyed f m) : m.values.Pairwise (f · ≤ f ·) := by
  refine List.pairwise_flatMap.2 ⟨fun e he => ?_, m.sorted.imp_of_mem fun he hd hlt x hx y hy => ?_⟩
  · refine List.pairwise_of_forall_mem_list fun x hx y hy => ?_
    rw [h e he x hx, h e he y hy]
  · rw [h _ he x hx, h _ hd y hy]
    exact hlt.le

/-- What comes out of a map into which a list was put. -/
theorem Keyed.foldl_push (h : Keyed f m) (xs : List α) :
    Keyed f (xs.foldl (fun m x => m.push (f x) x) m) ∧ (xs.foldl (fun m x => m.push (f x) x) m).values.Perm
      (m.values ++ xs) := by
  induction xs generalizing m with
  | nil => simp [h]
  | cons x xs ih =>
    obtain ⟨hkeyed, hperm⟩ := ih (h.push x)
    refine ⟨hkeyed, hperm.trans (((values_push_perm m (f x) x).append_right xs).trans ?_)⟩
    exact List.perm_middle.symm

end SortedMap

/-! ### The first of them -/

variable {α K : Type} [LinearOrder K] {f : α → K} {k : Nat} {xs ys zs : List α}

/-- `ys` are `k` of `xs`, or all if there are fewer, whose keys are least, in the order of the keys. -/
structure LeastOf (k : Nat) (f : α → K) (xs ys : List α) : Prop where
  subset : ys ⊆ xs
  nodup : ys.Nodup
  sorted : ys.Pairwise (f · ≤ f ·)
  length_eq : ys.length = min k xs.length
  le : ∀ y ∈ ys, ∀ x ∈ xs, x ∉ ys → f y ≤ f x

theorem LeastOf.congr_perm (h : LeastOf k f xs ys) (hperm : xs.Perm zs) : LeastOf k f zs ys where
  subset _ hy := hperm.subset (h.subset hy)
  nodup := h.nodup
  sorted := h.sorted
  length_eq := by rw [h.length_eq, hperm.length_eq]
  le y hy x hx hnot := h.le y hy x (hperm.mem_iff.2 hx) hnot

theorem leastOf_take (hperm : zs.Perm xs) (hnodup : xs.Nodup) (hsorted : zs.Pairwise (f · ≤ f ·)) :
    LeastOf k f xs (zs.take k) where
  subset := fun _ hx => hperm.subset (List.take_subset k zs hx)
  nodup := (hperm.nodup_iff.2 hnodup).sublist (List.take_sublist k zs)
  sorted := hsorted.sublist (List.take_sublist k zs)
  length_eq := by rw [List.length_take, hperm.length_eq]
  le y hy x hx hnot := by
    rw [← List.take_append_drop k zs] at hsorted
    refine (List.pairwise_append.1 hsorted).2.2 y hy x ?_
    have hx := hperm.mem_iff.2 hx
    rw [← List.take_append_drop k zs] at hx
    exact (List.mem_append.1 hx).resolve_left hnot

/-- If some are left out, the least have been found exactly if each of those has `k` others before it. -/
theorem LeastOf.append_iff (h : LeastOf k f xs ys) (hnodup : (xs ++ zs).Nodup) :
    LeastOf k f (xs ++ zs) ys ↔ ∀ z ∈ zs, k ≤ xs.countP (f · ≤ f z) := by
  obtain ⟨hxs, _, hdisjoint⟩ := List.nodup_append.1 hnodup
  constructor
  · intro hall z hz
    have hnot : z ∉ ys := fun hy => hdisjoint z (h.subset hy) z hz rfl
    have hlength : ys.length = k := by
      have hlt := List.length_pos_of_mem hz
      have heq := h.length_eq.symm.trans hall.length_eq
      have hys := h.length_eq
      rw [List.length_append] at heq
      omega
    have hle : ∀ y ∈ ys, f y ≤ f z := fun y hy => hall.le y hy z (List.mem_append_right xs hz) hnot
    calc k = ys.countP (f · ≤ f z) := by rw [List.countP_eq_length.2 (by simpa using hle), hlength]
      _ ≤ xs.countP (f · ≤ f z) := (h.nodup.subperm h.subset).countP_le _
  · intro hall
    refine ⟨fun _ hy => List.mem_append_left zs (h.subset hy), h.nodup, h.sorted, ?_, fun y hy x hx hnot => ?_⟩
    · cases zs with
      | nil => rw [List.append_nil, h.length_eq]
      | cons z zs =>
        have hle := (hall z List.mem_cons_self).trans List.countP_le_length
        rw [h.length_eq, List.length_append]
        omega
    · rcases List.mem_append.1 hx with hx | hx
      · exact h.le y hy x hx hnot
      · -- else `y` is found besides the `k` that are at most as great as `x`
        by_contra! hlt
        have hys : xs.filter (f · ≤ f x) ⊆ ys := by
          intro x' hx'
          obtain ⟨hx', hle⟩ := List.mem_filter.1 hx'
          by_contra hnot'
          exact absurd (h.le y hy x' hx' hnot') (not_le.2 ((of_decide_eq_true hle).trans_lt hlt))
        have hmore : (y :: xs.filter (f · ≤ f x)).Nodup := by
          refine List.nodup_cons.2 ⟨fun hmem => ?_, hxs.filter _⟩
          exact absurd (of_decide_eq_true (List.mem_filter.1 hmem).2) (not_le.2 hlt)
        have hlength := (hmore.subperm (List.cons_subset.2 ⟨hy, hys⟩)).length_le
        have hk := hall x hx
        rw [List.countP_eq_length_filter] at hk
        rw [List.length_cons, h.length_eq] at hlength
        omega
