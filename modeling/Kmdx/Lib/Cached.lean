import Mathlib.Logic.Function.Basic

/-!
# A database with a cache in front of it

A query is answered from the cache, or from the database, and then it is in the cache. Nothing keeps what is
put into the database and what is cached together, so a cached answer may be out of date.
-/

structure Cached (K V : Type) where
  db : K → Option V := fun _ => none
  cache : K → Option V := fun _ => none

namespace Cached

open Function

variable {K V : Type} [DecidableEq K] {c c' c'' : Cached K V} {k k' : K} {v : V}

/-- What a query answers. -/
def get (c : Cached K V) (k : K) : Option V := (c.cache k).or (c.db k)

/-- What is left after a query. An absent key is not cached. -/
def query (c : Cached K V) (k : K) : Cached K V := { c with cache := update c.cache k (c.get k) }

/-- Written to the database only. -/
def put (c : Cached K V) (k : K) (v : V) : Cached K V := { c with db := update c.db k (some v) }

/-- Written to the cache only. -/
def edit (c : Cached K V) (k : K) (v : V) : Cached K V := { c with cache := update c.cache k (some v) }

def evict (c : Cached K V) (p : K → Bool) : Cached K V := { c with cache := fun k => if p k then none else c.cache k }

/-- Of what is not cached in `c`, some is in `c'`. -/
structure Loads (c c' : Cached K V) : Prop where
  db : c'.db = c.db
  cache : ∀ k, c'.cache k = c.cache k ∨ c.cache k = none ∧ c'.cache k = c.db k

omit [DecidableEq K] in
theorem Loads.refl (c : Cached K V) : Loads c c := ⟨rfl, fun _ => .inl rfl⟩

omit [DecidableEq K] in
theorem Loads.trans (h : Loads c c') (h' : Loads c' c'') : Loads c c'' := by
  refine ⟨h'.db.trans h.db, fun k => ?_⟩
  rcases h'.cache k with heq' | ⟨hnone', heq'⟩
  · rw [heq']
    exact h.cache k
  · rcases h.cache k with heq | ⟨hnone, heq⟩
    · exact .inr ⟨heq ▸ hnone', by rw [heq', h.db]⟩
    · exact .inr ⟨hnone, by rw [heq', h.db]⟩

theorem loads_query (c : Cached K V) (k : K) : Loads c (c.query k) := by
  refine ⟨rfl, fun k' => ?_⟩
  by_cases hk : k' = k
  · have hself : (c.query k).cache k = c.get k := update_self ..
    rw [hk, hself, get]
    cases hc : c.cache k with
    | none => exact .inr ⟨rfl, rfl⟩
    | some v => exact .inl rfl
  · exact .inl (update_of_ne hk _ _)

omit [DecidableEq K] in
/-- Loading is not seen. -/
theorem Loads.get_eq (h : Loads c c') (k : K) : c'.get k = c.get k := by
  rw [get, get, h.db]
  rcases h.cache k with heq | ⟨hnone, heq⟩
  · rw [heq]
  · rw [hnone, heq, Option.or_self, Option.none_or]

omit [DecidableEq K] in
theorem Loads.cache_eq (h : Loads c c') (hk : c.cache k = some v) : c'.cache k = some v := by
  rcases h.cache k with heq | ⟨hnone, -⟩
  · rw [heq, hk]
  · rw [hnone] at hk
    cases hk

/-- At `k`, `v` has been written to the cache, and some of what was not cached is loaded. -/
structure Edits (c c' : Cached K V) (k : K) (v : V) : Prop where
  db : c'.db = c.db
  self : c'.cache k = some v
  cache : ∀ k' ≠ k, c'.cache k' = c.cache k' ∨ c.cache k' = none ∧ c'.cache k' = c.db k'

omit [DecidableEq K] in
theorem Loads.edits (h : Loads c c') (hk : c.cache k = some v) : Edits c c' k v :=
  ⟨h.db, h.cache_eq hk, fun k' _ => h.cache k'⟩

theorem Loads.edits_of_edit (h : Loads ((c.query k).edit k v) c') : Edits c c' k v := by
  refine ⟨h.db, h.cache_eq (update_self ..), fun k' hk' => ?_⟩
  have hcache : ((c.query k).edit k v).cache k' = c.cache k' := by simp [edit, query, hk']
  have hload := h.cache k'
  rw [hcache] at hload
  exact hload

omit [DecidableEq K] in
theorem Loads.trans_edits (h : Loads c c') (h' : Edits c' c'' k v) : Edits c c'' k v := by
  refine ⟨h'.db.trans h.db, h'.self, fun k' hk' => ?_⟩
  rcases h'.cache k' hk' with heq' | ⟨hnone', heq'⟩
  · rw [heq']
    exact h.cache k'
  · rcases h.cache k' with heq | ⟨hnone, heq⟩
    · exact .inr ⟨heq ▸ hnone', by rw [heq', h.db]⟩
    · exact .inr ⟨hnone, by rw [heq', h.db]⟩

omit [DecidableEq K] in
theorem get_of_cache (h : c.cache k = some v) : c.get k = some v := by rw [get, h, Option.some_or]

omit [DecidableEq K] in
theorem get_of_cache_none (h : c.cache k = none) : c.get k = c.db k := by rw [get, h, Option.none_or]

theorem cache_query_self : (c.query k).cache k = c.get k := update_self ..

@[simp] theorem get_edit_self : (c.edit k v).get k = some v := get_of_cache (update_self ..)

theorem get_edit_of_ne (h : k' ≠ k) : (c.edit k v).get k' = c.get k' := by
  simp [get, edit, update_of_ne h]

theorem get_put_of_ne (h : k' ≠ k) : (c.put k v).get k' = c.get k' := by
  simp [get, put, update_of_ne h]

omit [DecidableEq K] in
theorem Edits.get_of_ne (h : Edits c c' k v) (hk : k' ≠ k) : c'.get k' = c.get k' := by
  rw [get, get, h.db]
  rcases h.cache k' hk with heq | ⟨hnone, heq⟩
  · rw [heq]
  · rw [hnone, heq, Option.or_self, Option.none_or]

omit [DecidableEq K] in
theorem Edits.cache_of_none (h : Edits c c' k v) (hk : c'.cache k' = none) : k' ≠ k ∧ c.cache k' = none := by
  have hne : k' ≠ k := by
    rintro rfl
    rw [h.self] at hk
    cases hk
  rcases h.cache k' hne with heq | ⟨hnone, -⟩
  · exact ⟨hne, heq ▸ hk⟩
  · exact ⟨hne, hnone⟩

theorem get_put_of_cache {v' : V} (h : c.cache k = some v') : (c.put k v).get k = some v' := get_of_cache h

theorem get_put_of_cache_none (h : c.cache k = none) : (c.put k v).get k = some v := by
  have hput : (c.put k v).cache k = none := h
  rw [get_of_cache_none hput]
  exact update_self ..

/-- What is put in is not seen if the key is cached. -/
theorem get_put_self (c : Cached K V) (k : K) (v : V) :
    (c.put k v).get k = some v ∧ c.cache k = none ∨ (c.put k v).get k = c.get k ∧ (c.cache k).isSome := by
  cases hk : c.cache k with
  | none => exact .inl ⟨get_put_of_cache_none hk, rfl⟩
  | some v' => exact .inr ⟨by rw [get_put_of_cache hk, get_of_cache hk], rfl⟩

omit [DecidableEq K] in
theorem get_evict_of_not {p : K → Bool} (h : p k = false) : (c.evict p).get k = c.get k := by
  simp [get, evict, h]

omit [DecidableEq K] in
theorem get_evict_of {p : K → Bool} (h : p k = true) : (c.evict p).get k = c.db k :=
  get_of_cache_none (by simp [evict, h])

end Cached
