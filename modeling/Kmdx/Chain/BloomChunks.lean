import Kmdx.Chain.Garbage
import Kmdx.Chain.Lockstep

/-!
# The chunks of the bloom index, cached

Clearing and rebuilding blooms, and adding those of blocks, changes chunks in the cache (`clearedChunks`, `bloomChunks`).
Those that blocks go into are all written to the database, as they are cached in the end.
-/

namespace Kmdx.Chain

open Cached

variable {c d : Cached Nat BlocksBlooms} {dirty tied : Set Nat}

/-! ### Two caches -/

theorem bloomsAt_eq (h : Twins dirty tied c d) (id : Nat) : bloomsAt c id = bloomsAt d id := by
  rw [bloomsAt, bloomsAt, h.get_eq]

theorem twins_editBloom (h : Twins dirty tied c d) (level item : Nat) (f : LogBloom → LogBloom) :
    Twins (insert (chunkId level (item / bloomIndexSize)) dirty) (insert (chunkId level (item / bloomIndexSize)) tied)
      (editBloom level item f c) (editBloom level item f d) := by
  unfold editBloom
  dsimp only
  rw [bloomsAt_eq h]
  exact (h.query _).edit _ _

theorem twins_clearItem (item : Nat) (h : Twins dirty tied c d) :
    Twins (insert (chunkId 0 (item / bloomIndexSize)) dirty) (insert (chunkId 0 (item / bloomIndexSize)) tied)
      (clearItem c item) (clearItem d item) := twins_editBloom h 0 item _

theorem twins_rebuildItem (item : Nat) (h : Twins dirty tied c d) :
    Twins (insert (chunkId 1 (item / bloomIndexSize)) dirty) (insert (chunkId 1 (item / bloomIndexSize)) tied)
      (rebuildItem c item) (rebuildItem d item) := by
  unfold rebuildItem
  rw [bloomsAt_eq h]
  exact twins_editBloom (h.query _) 1 item _

theorem twins_clearBlockBlooms (h : Twins dirty tied c d) (beginDirty endDirty : Nat) :
    Twins ({id | id ∈ clearedChunks beginDirty endDirty} ∪ dirty) ({id | id ∈ clearedChunks beginDirty endDirty} ∪ tied)
      (clearBlockBlooms c beginDirty endDirty) (clearBlockBlooms d beginDirty endDirty) := by
  have hset : ∀ s : Set Nat, {id | id ∈ clearedChunks beginDirty endDirty} ∪ s =
      {id | id ∈ (dirtyItems (beginDirty / bloomIndexSize) (((endDirty + 2 ^ 32 - 1) % 2 ^ 32) / bloomIndexSize + 1)).map
          fun item => chunkId 1 (item / bloomIndexSize)} ∪
        ({id | id ∈ (dirtyItems beginDirty endDirty).map fun item => chunkId 0 (item / bloomIndexSize)} ∪ s) := by
    intro s
    ext id
    simp only [clearedChunks, Set.mem_union, Set.mem_ofPred_eq, List.mem_append]
    rw [or_assoc, or_left_comm]
  rw [hset, hset]
  exact (h.foldl twins_clearItem _).foldl twins_rebuildItem _

theorem twins_addBloom (h : Twins dirty tied c d) (number : Nat) (bloom : LogBloom) :
    Twins (insert (chunkId 1 (number / bloomIndexSize / bloomIndexSize)) (insert (chunkId 0 (number / bloomIndexSize)) dirty))
      (insert (chunkId 1 (number / bloomIndexSize / bloomIndexSize)) (insert (chunkId 0 (number / bloomIndexSize)) tied))
      (addBloom c number bloom) (addBloom d number bloom) := by
  unfold addBloom
  exact twins_editBloom (twins_editBloom ((h.query _).query _) 0 number _) 1 (number / bloomIndexSize) _

/-! ### One chunk -/

theorem cache_editBloom_of_ne {level item id : Nat} {f : LogBloom → LogBloom}
    (h : id ≠ chunkId level (item / bloomIndexSize)) : (editBloom level item f c).cache id = c.cache id := by
  unfold editBloom
  simp [Cached.edit, Cached.query, h]

theorem cache_editBloom_self {level item : Nat} {f : LogBloom → LogBloom} :
    (editBloom level item f c).cache (chunkId level (item / bloomIndexSize)) =
      some (bloomsAt (editBloom level item f c) (chunkId level (item / bloomIndexSize))) := by
  unfold editBloom
  rw [bloomsAt, get_edit_self, Option.getD_some]
  exact Function.update_self ..

variable {number : Nat} {bloom : LogBloom}

theorem cache_addBloom_of_ne {id : Nat} (h : id ≠ chunkId 0 (number / bloomIndexSize))
    (h' : id ≠ chunkId 1 (number / bloomIndexSize / bloomIndexSize)) : (addBloom c number bloom).cache id = c.cache id := by
  unfold addBloom
  rw [cache_editBloom_of_ne h', cache_editBloom_of_ne h]
  simp [Cached.query, h, h']

theorem cache_addBloom_self {id : Nat}
    (h : id = chunkId 0 (number / bloomIndexSize) ∨ id = chunkId 1 (number / bloomIndexSize / bloomIndexSize)) :
    (addBloom c number bloom).cache id = some (bloomsAt (addBloom c number bloom) id) := by
  unfold addBloom
  extract_lets e
  by_cases hone : id = chunkId 1 (number / bloomIndexSize / bloomIndexSize)
  · rw [hone]
    exact cache_editBloom_self
  · have hget : ∀ {e : Cached Nat BlocksBlooms} {f}, (editBloom 1 (number / bloomIndexSize) f e).cache id = e.cache id :=
      cache_editBloom_of_ne hone
    rw [bloomsAt, hget, h.resolve_right hone, cache_editBloom_self, ← h.resolve_right hone, Cached.get, hget,
      h.resolve_right hone, cache_editBloom_self]
    rfl

/-! ### The chunks of new canonical blocks -/

variable {H : Type} [BlockLogs H]

def addBlooms (c : Cached Nat BlocksBlooms) (bs : List (VerifiedBlockRef H)) : Cached Nat BlocksBlooms :=
  bs.foldl (fun c tbi => addBloom c tbi.number (blockBloom tbi)) c

/-- What is written for the chunks, when they are. -/
def alteredAll (c : Cached Nat BlocksBlooms) : List (VerifiedBlockRef H) → List (Nat × BlocksBlooms)
  | [] => []
  | tbi :: bs =>
    let c := addBloom c tbi.number (blockBloom tbi)
    alteredBlooms c tbi.number ++ alteredAll c bs

theorem twins_addBlooms (h : Twins dirty tied c d) (bs : List (VerifiedBlockRef H)) :
    Twins ({id | id ∈ bloomChunks bs} ∪ dirty) ({id | id ∈ bloomChunks bs} ∪ tied) (addBlooms c bs) (addBlooms d bs) ∧
      alteredAll c bs = alteredAll d bs := by
  induction bs generalizing c d dirty tied with
  | nil => exact ⟨by simpa [bloomChunks, addBlooms] using h, rfl⟩
  | cons tbi bs ih =>
    have hadd := twins_addBloom h tbi.number (blockBloom tbi)
    obtain ⟨htwins, haltered⟩ := ih hadd
    have hset : ∀ s : Set Nat, {id | id ∈ bloomChunks (tbi :: bs)} ∪ s = {id | id ∈ bloomChunks bs} ∪
        insert (chunkId 1 (tbi.number / bloomIndexSize / bloomIndexSize))
          (insert (chunkId 0 (tbi.number / bloomIndexSize)) s) := by
      intro s
      ext id
      simp only [bloomChunks, List.flatMap_cons, Set.mem_union, Set.mem_ofPred_eq, List.mem_append, List.mem_cons,
        List.not_mem_nil, or_false, Set.mem_insert_iff]
      rw [or_assoc, or_left_comm]
      refine or_congr Iff.rfl ?_
      rw [or_assoc, or_left_comm]
    refine ⟨?_, ?_⟩
    · rw [hset, hset]
      exact htwins
    · rw [alteredAll, alteredAll, haltered]
      simp only [alteredBlooms, List.map_cons, List.map_nil, bloomsAt_eq hadd]

theorem mem_alteredAll {bs : List (VerifiedBlockRef H)} {id : Nat} :
    id ∈ (alteredAll c bs).map Prod.fst ↔ id ∈ bloomChunks bs := by
  induction bs generalizing c with
  | nil => rfl
  | cons tbi bs ih =>
    rw [alteredAll, List.map_append, List.mem_append, ih]
    simp [bloomChunks, alteredBlooms, or_assoc]

/-- The last time a chunk is written it is as it is cached in the end. -/
theorem cache_of_lastOf {bs : List (VerifiedBlockRef H)} {id : Nat} {blooms : BlocksBlooms}
    (h : lastOf (alteredAll c bs) id = some blooms) : (addBlooms c bs).cache id = some blooms := by
  induction bs generalizing c with
  | nil => cases h
  | cons tbi bs ih =>
    let c' := addBloom c tbi.number (blockBloom tbi)
    have hframe : ∀ {c : Cached Nat BlocksBlooms} {bs : List (VerifiedBlockRef H)}, id ∉ bloomChunks bs →
        (addBlooms c bs).cache id = c.cache id := by
      intro c bs
      induction bs generalizing c with
      | nil => exact fun _ => rfl
      | cons tbi bs ih =>
        intro hid
        simp only [bloomChunks, List.flatMap_cons, List.mem_append, List.mem_cons, List.not_mem_nil, or_false, not_or] at hid
        exact (ih hid.2).trans (cache_addBloom_of_ne hid.1.1 hid.1.2)
    change lastOf (alteredBlooms c' tbi.number ++ alteredAll c' bs) id = _ at h
    rw [lastOf_append] at h
    cases hrest : lastOf (alteredAll c' bs) id with
    | some blooms' =>
      rw [hrest, Option.some_or] at h
      exact ih (hrest.trans h)
    | none =>
      rw [hrest, Option.none_or] at h
      obtain ⟨hid, hblooms⟩ := lastOf_map h
      have hcache := hframe (c := c') (mt mem_alteredAll.2 (lastOf_eq_none_iff.1 hrest))
      refine hcache.trans ?_
      rw [hblooms]
      exact cache_addBloom_self (by simpa using hid)

end Kmdx.Chain
