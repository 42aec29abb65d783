import Kmdx.Chain.BloomChunks

/-!
# The blooms of the index

A bloom of the index has a level and an item there: the block of this number, or a chunk of blocks. Each item is at its own
place (`bloomAt_editBloom`), and a chunk's bloom contains those of its blocks (`Covers`), whatever is cleared, rebuilt or
added.
-/

namespace Kmdx.Chain

open Cached List

variable {c d : Cached Nat BlocksBlooms} {level item n number beginDirty endDirty : Nat} {x y z bloom : LogBloom}

/-- `contains` -/
abbrev Contains (bloom b : LogBloom) : Prop := bloom &&& b = b

def bloomAt (c : Cached Nat BlocksBlooms) (level item : Nat) : LogBloom :=
  bloomsAt c (chunkId level (item / bloomIndexSize)) (bloomOffset item)

/-- The items of the two levels -/
inductive IsItem : Nat → Nat → Prop
  | block {n : Nat} : n < 2 ^ 32 → IsItem 0 n
  | chunk {i : Nat} : i < 2 ^ 28 → IsItem 1 i

/-- The bloom of a chunk contains those of its blocks. -/
def Covers (c : Cached Nat BlocksBlooms) : Prop := ∀ n < 2 ^ 32, Contains (bloomAt c 1 (n / bloomIndexSize)) (bloomAt c 0 n)

/-! ### Blooms that contain others -/

theorem contains_iff : Contains x y ↔ ∀ i < 2048, y.getLsbD i = true → x.getLsbD i = true := by
  unfold Contains
  constructor
  · intro h i _ hy
    rw [← h, BitVec.getLsbD_and, Bool.and_eq_true] at hy
    exact hy.1
  · intro h
    refine BitVec.eq_of_getLsbD_eq fun i hi => ?_
    rw [BitVec.getLsbD_and]
    cases hy : y.getLsbD i with
    | false => rw [Bool.and_false]
    | true => rw [h i hi hy, Bool.and_true]

theorem contains_refl (x : LogBloom) : Contains x x := BitVec.and_self

theorem contains_zero (x : LogBloom) : Contains x 0 := BitVec.and_zero

theorem Contains.trans (h : Contains x y) (h' : Contains y z) : Contains x z :=
  contains_iff.2 fun i hi hz => contains_iff.1 h i hi (contains_iff.1 h' i hi hz)

theorem contains_or_left (x y : LogBloom) : Contains (x ||| y) x :=
  contains_iff.2 fun i _ hx => by rw [BitVec.getLsbD_or, hx, Bool.true_or]

theorem contains_or_right (x y : LogBloom) : Contains (x ||| y) y :=
  contains_iff.2 fun i _ hy => by rw [BitVec.getLsbD_or, hy, Bool.or_true]

theorem Contains.or (h : Contains x y) (bloom : LogBloom) : Contains (x ||| bloom) (y ||| bloom) := by
  refine contains_iff.2 fun i hi hy => ?_
  rw [BitVec.getLsbD_or, Bool.or_eq_true] at hy ⊢
  exact hy.imp_left (contains_iff.1 h i hi)

theorem contains_foldl_of_left (l : List LogBloom) (h : Contains x y) : Contains (l.foldl (· ||| ·) x) y := by
  induction l generalizing x with
  | nil => exact h
  | cons z l ih => exact ih ((contains_or_left x z).trans h)

theorem contains_foldl {l : List LogBloom} (hy : y ∈ l) (x : LogBloom) : Contains (l.foldl (· ||| ·) x) y := by
  induction l generalizing x with
  | nil => cases hy
  | cons z l ih =>
    rcases mem_cons.1 hy with rfl | hy
    · exact contains_foldl_of_left l (contains_or_right x y)
    · exact ih hy (x ||| z)

theorem contains_collected (blooms : BlocksBlooms) (i : Fin bloomIndexSize) : Contains (collected blooms) (blooms i) :=
  contains_foldl ((mem_ofFn' ..).2 ⟨i, rfl⟩) 0

/-! ### The places -/

/-- No two items are at one place. -/
theorem place_injective {level' item' : Nat} (h : IsItem level item) (h' : IsItem level' item')
    (hid : chunkId level (item / bloomIndexSize) = chunkId level' (item' / bloomIndexSize))
    (hoffset : bloomOffset item = bloomOffset item') : level = level' ∧ item = item' := by
  have hmod : item % 16 = item' % 16 := congrArg Fin.val hoffset
  simp only [chunkId, bloomIndexSize] at hid
  cases h <;> cases h' <;> omega

theorem bloomsAt_query (c : Cached Nat BlocksBlooms) (id id' : Nat) : bloomsAt (c.query id) id' = bloomsAt c id' := by
  rw [bloomsAt, bloomsAt, (c.loads_query id).get_eq]

theorem bloomAt_query (c : Cached Nat BlocksBlooms) (id : Nat) : bloomAt (c.query id) = bloomAt c := by
  funext level item
  exact congrFun (bloomsAt_query c id _) _

theorem bloomAt_congr (h : ∀ id, bloomsAt d id = bloomsAt c id) : bloomAt d = bloomAt c := by
  funext level item
  exact congrFun (h _) _

/-- The other items are at other places. -/
theorem bloomAt_editBloom {level' item' : Nat} (h : IsItem level item) (h' : IsItem level' item') (f : LogBloom → LogBloom)
    (c : Cached Nat BlocksBlooms) : bloomAt (editBloom level item f c) level' item' =
      if level' = level ∧ item' = item then f (bloomAt c level item) else bloomAt c level' item' := by
  by_cases hid : chunkId level' (item' / bloomIndexSize) = chunkId level (item / bloomIndexSize)
  · have hblooms : bloomsAt (editBloom level item f c) (chunkId level (item / bloomIndexSize)) =
        Function.update (bloomsAt c (chunkId level (item / bloomIndexSize))) (bloomOffset item)
          (f (bloomsAt c (chunkId level (item / bloomIndexSize)) (bloomOffset item))) := by
      rw [bloomsAt, editBloom, get_edit_self]
      rfl
    rw [bloomAt, bloomAt, bloomAt, hid, hblooms]
    by_cases hoffset : bloomOffset item' = bloomOffset item
    · rw [if_pos (place_injective h' h hid hoffset), hoffset, Function.update_self]
    · rw [Function.update_of_ne hoffset, if_neg]
      rintro ⟨rfl, rfl⟩
      exact hoffset rfl
  · have hblooms : bloomsAt (editBloom level item f c) (chunkId level' (item' / bloomIndexSize)) =
        bloomsAt c (chunkId level' (item' / bloomIndexSize)) := by
      rw [bloomsAt, editBloom, get_edit_of_ne hid]
      exact bloomsAt_query ..
    have hne : ¬ (level' = level ∧ item' = item) := by
      rintro ⟨rfl, rfl⟩
      exact hid rfl
    rw [if_neg hne, bloomAt, bloomAt, hblooms]

theorem chunk_lt (h : n < 2 ^ 32) : n / bloomIndexSize < 2 ^ 28 := Nat.div_lt_of_lt_mul h

theorem isItem_chunk (h : n < 2 ^ 32) : IsItem 1 (n / bloomIndexSize) := .chunk (chunk_lt h)

/-! ### Clearing -/

theorem mem_dirtyItems (hle : beginDirty ≤ endDirty) (hlt : endDirty < 2 ^ 32) :
    n ∈ dirtyItems beginDirty endDirty ↔ beginDirty ≤ n ∧ n < endDirty := by
  unfold dirtyItems
  simp only [mem_map, mem_range]
  constructor
  · rintro ⟨i, hi, rfl⟩
    omega
  · rintro ⟨hbegin, hend⟩
    exact ⟨n - beginDirty, by omega, by omega⟩

/-- What clearing items of the lowest level leaves -/
theorem bloomAt_foldl_clearItem {items : List Nat} (hitems : ∀ item ∈ items, item < 2 ^ 32) (h : IsItem level n) :
    bloomAt (items.foldl clearItem c) level n = if level = 0 ∧ n ∈ items then 0 else bloomAt c level n := by
  induction items generalizing c with
  | nil => simp
  | cons item items ih =>
    have hitem := IsItem.block (hitems item mem_cons_self)
    rw [foldl_cons, ih fun item hi => hitems item (mem_cons_of_mem _ hi), clearItem, bloomAt_editBloom hitem h]
    simp only [mem_cons]
    split_ifs <;> first | rfl | (exfalso; tauto)

theorem bloomAt_rebuildItem (hitem : item < 2 ^ 28) (h : IsItem level n) : bloomAt (rebuildItem c item) level n =
    if level = 1 ∧ n = item then collected (bloomsAt c (chunkId 0 item)) else bloomAt c level n := by
  rw [rebuildItem, bloomAt_editBloom (.chunk hitem) h, bloomAt_query]

/-- The lowest level is left alone when the other one is rebuilt. -/
theorem bloomAt_foldl_rebuildItem {items : List Nat} (hitems : ∀ item ∈ items, item < 2 ^ 28) (hn : n < 2 ^ 32) :
    bloomAt (items.foldl rebuildItem c) 0 n = bloomAt c 0 n := by
  induction items generalizing c with
  | nil => rfl
  | cons item items ih =>
    rw [foldl_cons, ih fun item hi => hitems item (mem_cons_of_mem _ hi),
      bloomAt_rebuildItem (hitems item mem_cons_self) (.block hn), if_neg (by omega)]

theorem contains_bloomsAt (hn : n / bloomIndexSize = item) :
    Contains (collected (bloomsAt c (chunkId 0 item))) (bloomAt c 0 n) := by
  rw [bloomAt, hn]
  exact contains_collected _ _

/-- A chunk that is rebuilt covers its blocks, and others go on to. -/
theorem covers_foldl_rebuildItem {items : List Nat} (hitems : ∀ item ∈ items, item < 2 ^ 28)
    (hcovers : ∀ n < 2 ^ 32, n / bloomIndexSize ∈ items ∨ Contains (bloomAt c 1 (n / bloomIndexSize)) (bloomAt c 0 n)) :
    Covers (items.foldl rebuildItem c) := by
  induction items generalizing c with
  | nil => exact fun n hn => (hcovers n hn).resolve_left not_mem_nil
  | cons item items ih =>
    refine ih (fun item hi => hitems item (mem_cons_of_mem _ hi)) fun n hn => ?_
    have hitem := hitems item mem_cons_self
    rw [bloomAt_rebuildItem hitem (isItem_chunk hn), bloomAt_rebuildItem hitem (.block hn)]
    rw [if_neg (show ¬ (0 = 1 ∧ n = item) by omega)]
    by_cases hchunk : n / bloomIndexSize = item
    · rw [if_pos ⟨rfl, hchunk⟩]
      exact .inr (contains_bloomsAt hchunk)
    · rw [if_neg fun h => hchunk h.2]
      exact (hcovers n hn).imp_left fun hmem => (mem_cons.1 hmem).resolve_left hchunk

theorem mem_chunks (hle : beginDirty < endDirty) (hlt : endDirty < 2 ^ 32) :
    n ∈ dirtyItems (beginDirty / bloomIndexSize) ((endDirty + 2 ^ 32 - 1) % 2 ^ 32 / bloomIndexSize + 1) ↔
      beginDirty / bloomIndexSize ≤ n ∧ n ≤ (endDirty - 1) / bloomIndexSize := by
  have hend : (endDirty + 2 ^ 32 - 1) % 2 ^ 32 = endDirty - 1 := by omega
  have hchunks : (endDirty - 1) / bloomIndexSize < 2 ^ 28 := chunk_lt (by omega)
  rw [hend, mem_dirtyItems (Nat.le_succ_of_le (Nat.div_le_div_right (by omega))) (by omega), Nat.lt_succ_iff]

theorem lt_of_mem_chunks (hle : beginDirty < endDirty) (hlt : endDirty < 2 ^ 32)
    (hn : n ∈ dirtyItems (beginDirty / bloomIndexSize) ((endDirty + 2 ^ 32 - 1) % 2 ^ 32 / bloomIndexSize + 1)) :
    n < 2 ^ 28 := by
  have hchunks : (endDirty - 1) / bloomIndexSize < 2 ^ 28 := chunk_lt (by omega)
  exact ((mem_chunks hle hlt).1 hn).2.trans_lt hchunks

theorem bloomAt_clearBlockBlooms (hle : beginDirty < endDirty) (hlt : endDirty < 2 ^ 32) (hn : n < 2 ^ 32) :
    bloomAt (clearBlockBlooms c beginDirty endDirty) 0 n = if beginDirty ≤ n ∧ n < endDirty then 0 else bloomAt c 0 n := by
  unfold clearBlockBlooms
  dsimp only
  rw [bloomAt_foldl_rebuildItem (fun item hi => ?_) hn, bloomAt_foldl_clearItem (fun item hi => ?_) (.block hn)]
  · simp only [mem_dirtyItems hle.le hlt, true_and]
  · rw [mem_dirtyItems hle.le hlt] at hi
    omega
  · exact lt_of_mem_chunks hle hlt hi

theorem covers_clearBlockBlooms (h : Covers c) (hle : beginDirty < endDirty) (hlt : endDirty < 2 ^ 32) :
    Covers (clearBlockBlooms c beginDirty endDirty) := by
  have hitems : ∀ item ∈ dirtyItems beginDirty endDirty, item < 2 ^ 32 := by
    intro item hi
    rw [mem_dirtyItems hle.le hlt] at hi
    omega
  refine covers_foldl_rebuildItem (fun item => lt_of_mem_chunks hle hlt) fun n hn => ?_
  rw [bloomAt_foldl_clearItem hitems (isItem_chunk hn), bloomAt_foldl_clearItem hitems (.block hn), if_neg (by omega)]
  split
  · exact .inr (contains_zero _)
  · exact .inr (h n hn)

/-! ### Adding -/

theorem bloomAt_addBloom (hnumber : number < 2 ^ 32) (h : IsItem level n) : bloomAt (addBloom c number bloom) level n =
    if level = 0 ∧ n = number ∨ level = 1 ∧ n = number / bloomIndexSize then bloomAt c level n ||| bloom
    else bloomAt c level n := by
  unfold addBloom
  dsimp only
  rw [bloomAt_editBloom (isItem_chunk hnumber) h, bloomAt_editBloom (.block hnumber) (isItem_chunk hnumber),
    bloomAt_editBloom (.block hnumber) h, bloomAt_query, bloomAt_query]
  cases h with
  | block hn =>
    simp only [zero_ne_one, false_and, or_false, true_and, ite_false]
    split
    · rename_i heq
      rw [heq]
    · rfl
  | chunk hn =>
    simp only [one_ne_zero, false_and, false_or, true_and, ite_false]
    split
    · rename_i heq
      rw [heq]
    · rfl

theorem Covers.addBloom (h : Covers c) (hnumber : number < 2 ^ 32) : Covers (addBloom c number bloom) := by
  intro n hn
  rw [bloomAt_addBloom hnumber (isItem_chunk hn), bloomAt_addBloom hnumber (.block hn)]
  simp only [zero_ne_one, one_ne_zero, false_and, or_false, false_or, true_and]
  by_cases hself : n = number
  · rw [if_pos hself, if_pos (by rw [hself])]
    exact (h n hn).or bloom
  · rw [if_neg hself]
    split
    · exact (contains_or_left _ _).trans (h n hn)
    · exact h n hn

variable {H : Type} [BlockLogs H] {bs : List (VerifiedBlockRef H)}

theorem Covers.addBlooms (h : Covers c) (hbs : ∀ tbi ∈ bs, tbi.number < 2 ^ 32) : Covers (addBlooms c bs) := by
  induction bs generalizing c with
  | nil => exact h
  | cons tbi bs ih => exact ih (h.addBloom (hbs tbi mem_cons_self)) fun tbi' h' => hbs tbi' (mem_cons_of_mem _ h')

theorem bloomAt_addBlooms_of_ne (hbs : ∀ tbi ∈ bs, tbi.number < 2 ^ 32) (hn : n < 2 ^ 32) (hne : ∀ tbi ∈ bs, tbi.number ≠ n) :
    bloomAt (addBlooms c bs) 0 n = bloomAt c 0 n := by
  induction bs generalizing c with
  | nil => rfl
  | cons tbi bs ih =>
    refine (ih (fun tbi' h' => hbs tbi' (mem_cons_of_mem _ h')) fun tbi' h' => hne tbi' (mem_cons_of_mem _ h')).trans ?_
    rw [bloomAt_addBloom (hbs tbi mem_cons_self) (.block hn), if_neg]
    have := hne tbi mem_cons_self
    omega

/-- Of blocks with different numbers, each one's bloom is added to what was at its number. -/
theorem bloomAt_addBlooms {tbi : VerifiedBlockRef H} (hbs : ∀ tbi ∈ bs, tbi.number < 2 ^ 32)
    (hnodup : (bs.map VerifiedBlockRef.number).Nodup) (htbi : tbi ∈ bs) :
    bloomAt (addBlooms c bs) 0 tbi.number = bloomAt c 0 tbi.number ||| blockBloom tbi := by
  induction bs generalizing c with
  | nil => cases htbi
  | cons first bs ih =>
    have hrest : ∀ tbi' ∈ bs, tbi'.number < 2 ^ 32 := fun tbi' h' => hbs tbi' (mem_cons_of_mem _ h')
    have hfirst := hbs first mem_cons_self
    rw [map_cons, nodup_cons] at hnodup
    rcases mem_cons.1 htbi with rfl | htbi
    · refine (bloomAt_addBlooms_of_ne hrest hfirst fun tbi' h' heq => hnodup.1 (heq ▸ mem_map_of_mem h')).trans ?_
      rw [bloomAt_addBloom hfirst (.block hfirst), if_pos (.inl ⟨rfl, rfl⟩)]
    · refine (ih hrest hnodup.2 htbi).trans ?_
      rw [bloomAt_addBloom hfirst (.block (hrest tbi htbi)), if_neg]
      rintro (⟨-, heq⟩ | ⟨hlevel, -⟩)
      · exact hnodup.1 (heq ▸ mem_map_of_mem htbi)
      · exact absurd hlevel (by decide)

/-- What is written for the chunks is not seen: all of them are cached. -/
theorem bloomsAt_puts_alteredAll (c : Cached Nat BlocksBlooms) (bs : List (VerifiedBlockRef H)) (id : Nat) :
    bloomsAt ((addBlooms c bs).puts (alteredAll c bs)) id = bloomsAt (addBlooms c bs) id := by
  rw [bloomsAt, bloomsAt, Cached.get, Cached.get, cache_puts, db_puts]
  cases hlast : lastOf (alteredAll c bs) id with
  | none => rw [Option.none_or]
  | some blooms => rw [cache_of_lastOf hlast, Option.some_or, Option.some_or]

end Kmdx.Chain
