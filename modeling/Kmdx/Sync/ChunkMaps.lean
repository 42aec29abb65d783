import Kmdx.Sync.Chunks

/-!
# Chunks as maps

As long as the chunks stand apart from each other (`Spread`), they are a map from numbers to items (`items`), and the
functions are those of maps (`refines_map`).
-/

namespace Kmdx.Sync.Chunks

open List

variable {T : Type} {m m' : Chunks T} {n j : Nat} {x : T} {c : Nat × List T}

/-- The items under their numbers -/
def flatten (m : Chunks T) : List (Nat × T) := m.flatMap fun c => c.2.mapIdx fun i x => (c.1 + i, x)

/-- The partial map -/
def items (m : Chunks T) (n : Nat) : Option T := (flatten m).lookup n

/-- The chunks are nonempty, disjoint, and not adjacent. -/
structure Spread (m : Chunks T) : Prop where
  apart : m.Pairwise fun c d => c.1 + c.2.length < d.1
  nonempty : ∀ c ∈ m, c.2 ≠ []

theorem mem_flatten : (n, x) ∈ flatten m ↔ At m n x := by
  rw [flatten, mem_flatMap, At]
  refine exists_congr fun c => and_congr_right fun _ => ?_
  rw [mem_mapIdx]
  constructor
  · rintro ⟨i, hi, heq⟩
    rw [Prod.mk.injEq] at heq
    rw [← heq.1, ← heq.2, Nat.add_sub_cancel_left]
    exact ⟨Nat.le_add_right _ _, List.getElem?_eq_getElem hi⟩
  · rintro ⟨hle, hget⟩
    obtain ⟨hi, hx⟩ := List.getElem?_eq_some_iff.1 hget
    exact ⟨n - c.1, hi, by rw [hx, Nat.add_sub_cancel' hle]⟩

theorem Separate.items_eq_some_iff (h : Separate m) : items m n = some x ↔ At m n x := by
  have hmem : ∀ {y}, items m n = some y → At m n y := fun hy => by
    obtain ⟨l, r, hl, -⟩ := lookup_eq_some_iff.1 hy
    exact mem_flatten.1 (hl ▸ mem_append_right l mem_cons_self)
  refine ⟨hmem, fun hx => ?_⟩
  cases hitem : items m n with
  | none => exact absurd rfl (bne_iff_ne.1 (lookup_eq_none_iff.1 hitem _ (mem_flatten.2 hx)))
  | some y => rw [h.at_inj (hmem hitem) hx]

theorem Separate.items_eq (h : Separate m) {f : Nat → Option T} (hf : ∀ n x, f n = some x ↔ At m n x) : items m = f := by
  funext n
  refine Option.ext fun x => ?_
  rw [h.items_eq_some_iff, hf]

namespace Spread

theorem separate (h : Spread m) : Separate m := ⟨h.apart.imp Nat.le_of_lt, h.nonempty⟩

/-- Behind a chunk there is nothing. -/
theorem not_has_end (h : Spread m) (hc : c ∈ m) : ¬ Has m (c.1 + c.2.length) := by
  rw [has_iff]
  rintro ⟨d, hd, hle, hlt⟩
  have hsymm : Std.Symm fun c d : Nat × List T => c.1 + c.2.length < d.1 ∨ d.1 + d.2.length < c.1 := ⟨fun _ _ => Or.symm⟩
  have hpairs : m.Pairwise fun c d => c.1 + c.2.length < d.1 ∨ d.1 + d.2.length < c.1 := h.apart.imp .inl
  by_cases heq : c = d
  · rw [heq] at hlt
    omega
  · have hapart := hpairs.forall hc hd heq
    omega

end Spread

/-- Chunks stand apart if there is nothing behind each of them. -/
theorem Separate.spread (h : Separate m) (hend : ∀ c ∈ m, ¬ Has m (c.1 + c.2.length)) : Spread m := by
  refine ⟨h.apart.imp_of_mem fun {c d} hc hd hle => ?_, h.nonempty⟩
  refine Nat.lt_of_le_of_ne hle fun heq => hend c hc ?_
  rw [heq]
  exact has_iff.2 ⟨d, hd, le_rfl, Nat.lt_add_of_pos_right (h.length_pos hd)⟩

/-! ### Removing -/

theorem mem_removeAllStartingWith (hc : c ∈ removeAllStartingWith m n) : c ∈ m ∨ c.1 + c.2.length = n := by
  have hfront : ∀ {d}, d ∈ front m n → d ∈ m := fun hd => front_append m n ▸ mem_append_left _ hd
  rw [removeAllStartingWith] at hc
  split at hc
  · exact .inl (hfront hc)
  split at hc
  · rename_i d hspans
    obtain ⟨hd, hle, hlt⟩ := spans_eq_some hspans
    rcases mem_append.1 hc with hc | hc
    · exact .inl (hfront (hd ▸ mem_append_left _ hc))
    · right
      rw [mem_singleton.1 hc, length_take]
      omega
  · exact .inl (hfront hc)

theorem Spread.removeAllStartingWith (h : Spread m) (n : Nat) : Spread (removeAllStartingWith m n) := by
  obtain ⟨hsep, hat⟩ := h.separate.removeAllStartingWith n
  refine hsep.spread fun c hc ⟨x, hx⟩ => ?_
  obtain ⟨hlt, hx⟩ := (hat _ x).1 hx
  rcases mem_removeAllStartingWith hc with hc | hend
  · exact h.not_has_end hc ⟨x, hx⟩
  · exact absurd hend hlt.ne

/-! ### Adding -/

/-- A chunk that ends where the number stands is the last one in front. -/
theorem Separate.endsAt_eq (h : Separate m) (hc : c ∈ m) (hend : c.1 + c.2.length = n) : endsAt m n = some c := by
  have hlen := h.length_pos hc
  have hfront := h.mem_front.2 ⟨hc, (by omega : c.1 < n)⟩
  rcases eq_nil_or_concat (Chunks.front m n) with hnil | ⟨l, d, hconcat⟩
  · rw [hnil] at hfront
    cases hfront
  rw [concat_eq_append] at hconcat
  have hapart := (h.front n).apart
  have hd := (h.mem_front.1 (hconcat ▸ mem_append_right l (mem_singleton_self d) : d ∈ Chunks.front m n)).2
  rw [hconcat, pairwise_append] at hapart
  rw [hconcat, mem_append, mem_singleton] at hfront
  rcases hfront with hc | rfl
  · have := hapart.2.2 c hc d (mem_singleton_self d)
    omega
  · rw [endsAt, hconcat, List.getLast?_concat, Option.filter_some, if_pos (by simpa using hend)]

/-- Behind the number there is nothing if no chunk begins there. -/
theorem Separate.not_has_succ (h : Separate m) (hnot : ¬ Has m n)
    (hnext : (lowerBound m n).head?.filter (·.1 = n + 1) = none) : ¬ Has m (n + 1) := by
  rw [has_iff]
  rintro ⟨d, hd, hle, hlt⟩
  have hkey : d.1 = n + 1 := by
    by_contra hne
    exact hnot (has_iff.2 ⟨d, hd, by omega, by omega⟩)
  have hlower := h.mem_lowerBound.2 ⟨hd, (by omega : n ≤ d.1)⟩
  have hsorted := h.sorted
  rw [← front_append m n, pairwise_append] at hsorted
  cases hlist : lowerBound m n with
  | nil =>
    rw [hlist] at hlower
    cases hlower
  | cons e l =>
    have hne : e.1 ≠ n + 1 := fun heq => by
      rw [hlist, List.head?_cons, Option.filter_some, if_pos (by simpa using heq)] at hnext
      cases hnext
    rw [hlist, pairwise_cons] at hsorted
    obtain ⟨he, hle'⟩ := h.mem_lowerBound.1 (hlist ▸ mem_cons_self : e ∈ lowerBound m n)
    have hpos := h.length_pos he
    rw [hlist, mem_cons] at hlower
    rcases hlower with rfl | hd'
    · exact hne hkey
    · have := hsorted.2.1.1 d hd'
      exact hnot (has_iff.2 ⟨e, he, by omega, by omega⟩)

/-- A chunk behind the number -/
theorem Spread.of_lowerBound (h : Spread m) (hc : c ∈ lowerBound m n) :
    c.1 + c.2.length ≠ n ∧ ¬ Has m (c.1 + c.2.length) := by
  obtain ⟨hmem, hle⟩ := h.separate.mem_lowerBound.1 hc
  have hpos := h.separate.length_pos hmem
  exact ⟨by omega, h.not_has_end hmem⟩

/-- The chunk of a new item, and those behind it -/
theorem Spread.of_joined (h : Spread m) (hnot : ¬ Has m n) (hc : c ∈ (n, (joined m n x).1) :: (joined m n x).2) :
    c.1 + c.2.length ≠ n ∧ ¬ Has m (c.1 + c.2.length) := by
  rw [joined] at hc
  split at hc
  · rename_i next hnext
    obtain ⟨hhead, hkey⟩ := Option.filter_eq_some_iff.1 hnext
    rw [decide_eq_true_eq] at hkey
    have hmem : next ∈ lowerBound m n := List.mem_of_mem_head? hhead
    rcases mem_cons.1 hc with rfl | hc
    · have hend : n + (x :: next.2).length = next.1 + next.2.length := by
        rw [hkey, length_cons]
        omega
      dsimp only
      rw [hend]
      exact h.of_lowerBound hmem
    · exact h.of_lowerBound (mem_of_mem_tail hc)
  · rename_i hnone
    rcases mem_cons.1 hc with rfl | hc
    · exact ⟨Nat.succ_ne_self n, h.separate.not_has_succ hnot hnone⟩
    · exact h.of_lowerBound hc

theorem Spread.mergeInto (h : Spread m) (hnot : ¬ Has m n) (x : T) : ∃ m', mergeInto m n x = some m' ∧ Spread m' ∧
    ∀ j y, At m' j y ↔ j = n ∧ y = x ∨ At m j y := by
  obtain ⟨m', hmerge, hsep, hat⟩ := h.separate.mergeInto hnot x
  have hend : ∀ c ∈ m', c.1 + c.2.length ≠ n ∧ ¬ Has m (c.1 + c.2.length) := by
    intro c hc
    have hitem : haveItem m n = false := Bool.eq_false_iff.2 fun htrue => hnot (h.separate.haveItem_iff.1 htrue)
    rw [Chunks.mergeInto, hitem, if_neg (by simp)] at hmerge
    cases hends : endsAt m n with
    | none =>
      rw [hends, Option.some.injEq] at hmerge
      rcases mem_append.1 (hmerge ▸ hc) with hc | hc
      · have hmem := (h.separate.mem_front.1 hc).1
        refine ⟨fun heq => ?_, h.not_has_end hmem⟩
        rw [h.separate.endsAt_eq hmem heq] at hends
        cases hends
      · exact h.of_joined hnot hc
    | some d =>
      rw [hends, Option.some.injEq] at hmerge
      obtain ⟨hfront, hd⟩ := endsAt_eq_some hends
      rcases mem_append.1 (hmerge ▸ hc) with hc | hc
      · have hmem := (h.separate.mem_front.1 (hfront ▸ mem_append_left [d] hc : c ∈ front m n)).1
        have hlt := (h.separate.mem_front.1 (hfront ▸ mem_append_right _ (mem_singleton_self d) : d ∈ front m n)).2
        have hapart := (h.separate.front n).apart
        rw [hfront, pairwise_append] at hapart
        have hle := hapart.2.2 c hc d (mem_singleton_self d)
        exact ⟨by omega, h.not_has_end hmem⟩
      · rcases mem_cons.1 hc with rfl | hc
        · dsimp only
          rw [length_append, ← Nat.add_assoc, hd]
          exact h.of_joined hnot mem_cons_self
        · exact h.of_joined hnot (mem_cons_of_mem _ hc)
  refine ⟨m', hmerge, hsep.spread fun c hc => ?_, hat⟩
  rintro ⟨y, hy⟩
  rcases (hat _ y).1 hy with ⟨heq, -⟩ | hy
  · exact (hend c hc).1 heq
  · exact (hend c hc).2 ⟨y, hy⟩

/-! ### Maps -/

theorem Separate.items_eq_none_iff (h : Separate m) : items m n = none ↔ ¬ Has m n := by
  rw [Option.eq_none_iff_forall_ne_some, Has, not_exists]
  exact forall_congr' fun x => not_congr h.items_eq_some_iff

/-- The functions are those of maps, and keep the chunks apart. -/
theorem refines_map (h : Spread m) : (∀ n, haveItem m n = (items m n).isSome) ∧ (∀ n, findItem m n = items m n) ∧
    (∀ n x, items m n = none → ∃ m', mergeInto m n x = some m' ∧ items m' =
      Function.update (items m) n (some x) ∧ Spread m') ∧
    ∀ n, (items (removeAllStartingWith m n) = fun j => if j < n then items m j else none) ∧
      Spread (removeAllStartingWith m n) := by
  have hsep := h.separate
  refine ⟨fun n => ?_, fun n => ?_, fun n x hnone => ?_, fun n => ⟨?_, h.removeAllStartingWith n⟩⟩
  · rw [Bool.eq_iff_iff, hsep.haveItem_iff, Option.isSome_iff_exists]
    exact exists_congr fun x => hsep.items_eq_some_iff.symm
  · exact Option.ext fun x => hsep.findItem_eq_some_iff.trans hsep.items_eq_some_iff.symm
  · obtain ⟨m', hmerge, hspread, hat⟩ := h.mergeInto (hsep.items_eq_none_iff.1 hnone) x
    refine ⟨m', hmerge, hspread.separate.items_eq fun j y => ?_, hspread⟩
    rw [hat, Function.update_apply]
    split
    · rename_i heq
      rw [Option.some_inj, heq, ← hsep.items_eq_some_iff, hnone]
      simp [eq_comm]
    · rename_i hne
      rw [hsep.items_eq_some_iff]
      simp [hne]
  · obtain ⟨hsep', hat⟩ := hsep.removeAllStartingWith n
    refine hsep'.items_eq fun j y => ?_
    rw [hat, Option.ite_none_right_eq_some, hsep.items_eq_some_iff]

/-- A new item between two chunks -/
theorem refines_map_bridge : ∃ m', mergeInto [(1, [5, 6]), (4, [7])] 3 8 = some m' ∧
    items m' = Function.update (items [(1, [5, 6]), (4, [7])]) 3 (some 8) ∧ Spread m' := by
  have hspread : Spread [(1, [5, 6]), (4, [7])] := ⟨by decide, by decide⟩
  exact (refines_map hspread).2.2.1 3 8 (by decide)

end Kmdx.Sync.Chunks
