import Mathlib.Algebra.GroupWithZero.Nat
import Mathlib.Data.List.Basic

/-!
# `std::remove_if`

The algorithm moves the elements that stay to the front, by move assignments, and returns an iterator
behind them. What stands behind that iterator are elements that were removed and elements that were moved
from, `removedRange`. It is the range of the removed elements only if these were at the end already
(`removedRange_eq_filter_iff`).
-/

namespace RemoveIf

open List

variable {T : Type} (moved : T → T) (p : T → Bool)

/-- The loop of `remove_if`, with the array split at `result` and at `first`: `kept`, then `behind`, then
what was not looked at. `*result = move(*first)` overwrites the head of `behind`. -/
def loop : (kept behind rest : List T) → List T × List T
  | kept, behind, [] => (kept, behind)
  | kept, [], t :: rest => if p t then loop kept [t] rest else loop (kept ++ [t]) [] rest
  | kept, x :: behind, t :: rest =>
    if p t then loop kept (x :: behind ++ [t]) rest else loop (kept ++ [t]) (behind ++ [moved t]) rest

/-- The elements in front of the iterator that `remove_if` returns. -/
def keptRange (l : List T) : List T := (loop moved p [] [] l).1

/-- The elements from the iterator that `remove_if` returns on. -/
def removedRange (l : List T) : List T := (loop moved p [] [] l).2

variable {moved p} {l : List T}

theorem loop_fst (kept behind rest : List T) :
    (loop moved p kept behind rest).1 = kept ++ rest.filter (!p ·) := by
  induction rest generalizing kept behind with
  | nil => cases behind <;> simp [loop]
  | cons t rest ih =>
    cases behind <;> by_cases ht : p t <;> simp [loop, ht, ih]

/-- What stays is what `p` does not hold of, in order. -/
theorem keptRange_eq : keptRange moved p l = l.filter (!p ·) := by simp [keptRange, loop_fst]

theorem length_loop_snd (kept behind rest : List T) :
    (loop moved p kept behind rest).2.length = behind.length + (rest.filter p).length := by
  induction rest generalizing kept behind with
  | nil => cases behind <;> simp [loop]
  | cons t rest ih =>
    cases behind <;> by_cases ht : p t <;> simp [loop, ht, ih] <;> omega

/-- As many elements are left behind as are removed. -/
theorem length_removedRange : (removedRange moved p l).length = (l.filter p).length := by
  simp [removedRange, length_loop_snd]

/-- No element that stays stands behind one that is removed. -/
def AtEnd (p : T → Bool) (l : List T) : Prop := l.Pairwise fun t u => p t = true → p u = true

instance : Decidable (AtEnd p l) := inferInstanceAs (Decidable (l.Pairwise _))

theorem AtEnd.of_all (h : ∀ t ∈ l, p t = true) : AtEnd p l :=
  pairwise_iff_forall_sublist.2 fun hs _ => h _ (hs.subset (by simp))

/-- What stays is what stands in front. -/
theorem AtEnd.filter_prefix (h : AtEnd p l) : l.filter (!p ·) <+: l := by
  induction l with
  | nil => exact prefix_rfl
  | cons t l ih =>
    obtain ⟨ht, hl⟩ := pairwise_cons.1 h
    by_cases hp : p t
    · have hnone : (t :: l).filter (!p ·) = [] := by
        rw [filter_eq_nil_iff]
        intro u hu
        rcases mem_cons.1 hu with rfl | hu
        · simp [hp]
        · simp [ht u hu hp]
      rw [hnone]
      exact nil_prefix
    · rw [filter_cons_of_pos (by simpa using hp)]
      exact cons_prefix_cons.2 ⟨rfl, ih hl⟩

variable {kept behind rest before : List T}

theorem loop_snd_of_all (h : ∀ u ∈ rest, p u = true) : (loop moved p kept behind rest).2 = behind ++ rest := by
  induction rest generalizing kept behind with
  | nil => cases behind <;> simp [loop]
  | cons t rest ih =>
    have ht := h t (by simp)
    have hrest : ∀ u ∈ rest, p u = true := fun u hu => h u (by simp [hu])
    cases behind <;> simp [loop, ht, ih hrest]

theorem loop_snd_of_atEnd (h : AtEnd p l) : (loop moved p kept [] l).2 = l.filter p := by
  induction l generalizing kept with
  | nil => simp [loop]
  | cons t l ih =>
    obtain ⟨hall, hrest⟩ := pairwise_cons.1 h
    by_cases ht : p t
    · have hall : ∀ u ∈ l, p u = true := fun u hu => hall u hu ht
      simp [loop, ht, loop_snd_of_all hall, filter_eq_self.2 hall]
    · simp [loop, ht, ih hrest]

/-- Once an element that was moved from is behind the iterator, there always is one. -/
theorem exists_behind (hp : ∀ t, p (moved t) = p t)
    (hb : ∃ v ∈ behind, p v = false) : ∃ v ∈ (loop moved p kept behind rest).2, p v = false := by
  induction rest generalizing kept behind with
  | nil =>
    obtain ⟨v, hv, hpv⟩ := hb
    cases behind with
    | nil => cases hv
    | cons x behind => exact ⟨v, hv, hpv⟩
  | cons t rest ih =>
    obtain ⟨v, hv, hpv⟩ := hb
    cases behind with
    | nil => cases hv
    | cons x behind =>
      by_cases ht : p t
      · rw [loop, if_pos ht]
        exact ih ⟨v, mem_append_left _ hv, hpv⟩
      · rw [loop, if_neg ht]
        exact ih ⟨moved t, by simp, by simpa [hp] using ht⟩

theorem exists_moved (hp : ∀ t, p (moved t) = p t) (hb : behind ≠ [])
    (hrest : ∃ u ∈ rest, p u = false) : ∃ v ∈ (loop moved p kept behind rest).2, p v = false := by
  induction rest generalizing kept behind with
  | nil => obtain ⟨u, hu, -⟩ := hrest; cases hu
  | cons t rest ih =>
    obtain ⟨x, behind, rfl⟩ := exists_cons_of_ne_nil hb
    by_cases ht : p t
    · obtain ⟨u, hu, hpu⟩ := hrest
      have hu : u ∈ rest := (mem_cons.1 hu).resolve_left fun h => by simp [← h, hpu] at ht
      rw [loop, if_pos ht]
      exact ih (by simp) ⟨u, hu, hpu⟩
    · rw [loop, if_neg ht]
      exact exists_behind hp ⟨moved t, by simp, by simpa [hp] using ht⟩

theorem exists_of_not_atEnd (hp : ∀ t, p (moved t) = p t) (kept : List T) (h : ¬ AtEnd p l) :
    ∃ v ∈ (loop moved p kept [] l).2, p v = false := by
  induction l generalizing kept with
  | nil => exact absurd List.Pairwise.nil h
  | cons t l ih =>
    by_cases ht : p t
    · rw [loop, if_pos ht]
      refine exists_moved hp (by simp) ?_
      by_contra hno
      refine h (AtEnd.of_all fun u hu => ?_)
      rcases mem_cons.1 hu with rfl | hu
      · exact ht
      · by_contra hpu
        exact hno ⟨u, hu, by simpa using hpu⟩
    · rw [loop, if_neg ht]
      exact ih _ fun hl => h (pairwise_cons.2 ⟨fun _ _ h => absurd h ht, hl⟩)

/-- The elements behind the iterator are the removed ones exactly if those were at the end. -/
theorem removedRange_eq_filter_iff (hp : ∀ t, p (moved t) = p t) :
    removedRange moved p l = l.filter p ↔ AtEnd p l := by
  refine ⟨fun h => ?_, loop_snd_of_atEnd⟩
  by_contra hne
  obtain ⟨v, hv, hpv⟩ := exists_of_not_atEnd hp [] hne
  rw [show (loop moved p [] [] l).2 = l.filter p from h] at hv
  simp [(mem_filter.1 hv).2] at hpv

/-! ### Predicates on the array

A predicate that looks at the array sees the elements where the loop has moved them. -/

section
variable {q : List T → T → Bool}

/-- `loop`, for a predicate that is given the array as it is when an element is asked about -/
def loopOn (moved : T → T) (q : List T → T → Bool) : (kept behind rest : List T) → List T × List T
  | kept, behind, [] => (kept, behind)
  | kept, [], t :: rest => if q (kept ++ t :: rest) t then loopOn moved q kept [t] rest else loopOn moved q
    (kept ++ [t]) [] rest
  | kept, x :: behind, t :: rest =>
    if q (kept ++ (x :: behind) ++ t :: rest) t then loopOn moved q kept (x :: behind ++ [t]) rest
    else loopOn moved q (kept ++ [t]) (behind ++ [moved t]) rest

/-- The elements in front of the iterator that `remove_if` returns. -/
def keptRangeOn (moved : T → T) (q : List T → T → Bool) (l : List T) : List T := (loopOn moved q [] [] l).1

/-- What the loop has been over, `seen`, holds elements of `before` and such that were moved from. -/
def Seen (moved : T → T) (before seen : List T) : Prop := ∀ t ∈ seen, t ∈ before ∨ ∃ u ∈ before, t = moved u

theorem Seen.snoc (h : Seen moved before (kept ++ behind)) (t : T) :
    Seen moved (before ++ [t]) (kept ++ behind ++ [t]) := by
  intro v hv
  rcases mem_append.1 hv with hv | hv
  · rcases h v hv with hv | ⟨u, hu, rfl⟩
    · exact .inl (mem_append_left _ hv)
    · exact .inr ⟨u, mem_append_left _ hu, rfl⟩
  · exact .inl (mem_append_right _ hv)

theorem Seen.move {x : T} (h : Seen moved before (kept ++ x :: behind)) (t : T) :
    Seen moved (before ++ [t]) (kept ++ [t] ++ (behind ++ [moved t])) := by
  have hold : ∀ v ∈ kept ++ x :: behind, v ∈ before ++ [t] ∨ ∃ u ∈ before ++ [t], v = moved u := fun v hv =>
    h.snoc t v (mem_append_left _ hv)
  intro v hv
  simp only [mem_append, mem_singleton] at hv
  rcases hv with (hv | rfl) | hv | rfl
  · exact hold v (mem_append_left _ hv)
  · exact .inl (by simp)
  · exact hold v (mem_append_right _ (mem_cons_of_mem _ hv))
  · exact .inr ⟨t, by simp, rfl⟩

/-- Such a predicate is one on elements if what the loop has been over makes no difference to it. -/
theorem loopOn_eq (hs : Seen moved before (kept ++ behind))
    (hq : ∀ pre t post seen, before ++ rest = pre ++ t :: post → Seen moved pre seen → q (seen ++ t :: post) t = p t) :
    loopOn moved q kept behind rest = loop moved p kept behind rest := by
  induction rest generalizing before kept behind with
  | nil => cases behind <;> rfl
  | cons t rest ih =>
    have ht : q (kept ++ behind ++ t :: rest) t = p t := hq before t rest _ rfl hs
    have hq' : ∀ pre u post seen, before ++ [t] ++ rest = pre ++ u :: post → Seen moved pre seen →
        q (seen ++ u :: post) u = p u := fun pre u post seen h => hq pre u post seen (by simpa using h)
    cases behind with
    | nil =>
      rw [append_nil] at ht
      have hmore := hs.snoc t
      rw [append_nil] at hmore
      rw [loopOn, loop, ht, ih hmore hq', ih (by simpa using hmore) hq']
    | cons x behind =>
      rw [loopOn, loop, ht, ih (by simpa using hs.snoc t) hq', ih (hs.move t) hq']

theorem keptRangeOn_eq {l : List T}
    (hq : ∀ pre t post seen, l = pre ++ t :: post → Seen moved pre seen → q (seen ++ t :: post) t = p t) :
    keptRangeOn moved q l = l.filter (!p ·) := by
  have hnil : Seen moved ([] : List T) ([] ++ []) := by simp [Seen]
  rw [keptRangeOn, loopOn_eq hnil hq, loop_fst]
  rfl

end

/-! ### Sizes -/

section
variable {f : T → Nat}

/-- What an element counts for if it is removed. -/
def weight (f : T → Nat) (p : T → Bool) (t : T) : Nat := if p t then f t else 0

theorem sum_loop (hf : ∀ t, f (moved t) = 0) (kept behind : List T) (hb : ∀ t ∈ behind, f t = weight f p t) :
    ((loop moved p kept behind rest).2.map f).sum =
      (((behind ++ rest).map (weight f p)).drop (rest.filter (!p ·)).length).sum := by
  induction rest generalizing kept behind with
  | nil => cases behind <;> simp [loop, map_congr_left hb]
  | cons t rest ih =>
    by_cases ht : p t
    · have hb' : ∀ u ∈ behind ++ [t], f u = weight f p u := by
        intro u hu
        rcases mem_append.1 hu with hu | hu
        · exact hb u hu
        · obtain rfl := mem_singleton.1 hu
          simp [weight, ht]
      cases behind with
      | nil =>
        rw [loop, if_pos ht, filter_cons_of_neg (by simp [ht])]
        exact ih _ _ hb'
      | cons x behind =>
        rw [loop, if_pos ht, filter_cons_of_neg (by simp [ht]), ih _ _ hb', append_assoc]
        rfl
    · cases behind with
      | nil => simp [loop, ht, ih (kept ++ [t]) [] (by simp)]
      | cons x behind =>
        -- the slot of `t` now holds what it was moved from, and neither counts
        have hmoved : weight f p (moved t) = weight f p t := by simp [weight, hf, ht]
        have hb' : ∀ u ∈ behind ++ [moved t], f u = weight f p u := by
          intro u hu
          rcases mem_append.1 hu with hu | hu
          · exact hb u (mem_cons_of_mem _ hu)
          · obtain rfl := mem_singleton.1 hu
            simp [weight, hf]
        simpa [loop, ht, hmoved] using ih (kept ++ [t]) _ hb'

theorem sum_filter (l : List T) : ((l.filter p).map f).sum = (l.map (weight f p)).sum := by
  induction l with
  | nil => rfl
  | cons t l ih => by_cases ht : p t <;> simp [weight, ht, ih]

/-- What is missing from the size of the range are the removed elements that kept ones were moved onto. -/
theorem sum_removedRange (hf : ∀ t, f (moved t) = 0) :
    ((removedRange moved p l).map f).sum +
        (((l.take (keptRange moved p l).length).filter p).map f).sum =
      ((l.filter p).map f).sum := by
  rw [removedRange, sum_loop hf _ _ (by simp), sum_filter, sum_filter, keptRange_eq, map_take,
    nil_append, Nat.add_comm, ← sum_append, take_append_drop]

theorem sum_keptRange (moved : T → T) : ((keptRange moved p l).map f).sum + ((l.filter p).map f).sum = (l.map f).sum := by
  rw [keptRange_eq, Nat.add_comm]
  induction l with
  | nil => rfl
  | cons t l ih => by_cases ht : p t <;> simp [ht] <;> omega

end

end RemoveIf
