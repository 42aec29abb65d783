import Kmdx.Lib.Cached
import Mathlib.Data.Set.Insert

/-!
# A cache that is emptied now and then

Two caches of one database: of the second nothing is evicted, of the first some is. They answer the same as long as what is
cached is what the database holds. Where it is not, what is dirty, nothing has been evicted.
-/

namespace Cached

open Function List

variable {K V : Type} [DecidableEq K] {c d : Cached K V} {k : K} {v : V} {dirty dirty' tied tied' : Set K}

/-- `c` and `d` are the two. What `d` has written to its cache and not to the database is in `dirty`, and in `tied` they are
the same. -/
structure Twins (dirty tied : Set K) (c d : Cached K V) : Prop where
  db : c.db = d.db
  sub : ∀ k, c.cache k = none ∨ c.cache k = d.cache k
  clean : ∀ k ∉ dirty, d.cache k = none ∨ d.cache k = d.db k
  same : ∀ k ∈ tied, c.cache k = d.cache k
  le : dirty ⊆ tied

namespace Twins

omit [DecidableEq K] in
theorem refl (h : ∀ k, c.cache k = none ∨ c.cache k = c.db k) : Twins ∅ tied c c :=
  ⟨rfl, fun _ => .inr rfl, fun k _ => h k, fun _ _ => rfl, Set.empty_subset _⟩

omit [DecidableEq K] in
theorem weaken (h : Twins dirty tied c d) (hclean : ∀ k ∉ dirty', d.cache k = none ∨ d.cache k = d.db k)
    (htied : tied' ⊆ tied) (hle : dirty' ⊆ tied') : Twins dirty' tied' c d :=
  ⟨h.db, h.sub, hclean, fun k hk => h.same k (htied hk), hle⟩

omit [DecidableEq K] in
theorem get_eq (h : Twins dirty tied c d) (k : K) : c.get k = d.get k := by
  rw [get, get, h.db]
  rcases h.sub k with hnone | heq
  · by_cases hk : k ∈ dirty
    · rw [h.same k (h.le hk)]
    · rw [hnone, Option.none_or]
      rcases h.clean k hk with hnone' | heq'
      · rw [hnone', Option.none_or]
      · rw [heq', Option.or_self]
  · rw [heq]

omit [DecidableEq K] in
/-- If nothing is dirty, the answer is what the database holds. -/
theorem get_eq_db (h : Twins ∅ tied c d) (k : K) : d.get k = d.db k := by
  rw [get]
  rcases h.clean k (Set.notMem_empty k) with hnone | heq
  · rw [hnone, Option.none_or]
  · rw [heq, Option.or_self]

theorem query (h : Twins dirty tied c d) (k : K) : Twins dirty tied (c.query k) (d.query k) := by
  have hget : (c.query k).cache k = (d.query k).cache k := by rw [cache_query_self, cache_query_self, h.get_eq]
  have hne : ∀ {c : Cached K V} {k' : K}, k' ≠ k → (c.query k).cache k' = c.cache k' := fun hk => update_of_ne hk _ _
  refine ⟨h.db, fun k' => ?_, fun k' hk' => ?_, fun k' hk' => ?_, h.le⟩
  · by_cases hk : k' = k
    · rw [hk]
      exact .inr hget
    · rw [hne hk, hne hk]
      exact h.sub k'
  · by_cases hk : k' = k
    · have hclean := h.clean k' hk'
      subst hk
      rw [cache_query_self, get]
      rcases hclean with hnone | heq
      · rw [hnone]
        exact .inr rfl
      · rw [heq, Option.or_self]
        exact .inr rfl
    · rw [hne hk]
      exact h.clean k' hk'
  · by_cases hk : k' = k
    · rw [hk, hget]
    · rw [hne hk, hne hk]
      exact h.same k' hk'

theorem edit (h : Twins dirty tied c d) (k : K) (v : V) :
    Twins (insert k dirty) (insert k tied) (c.edit k v) (d.edit k v) := by
  have hself : ∀ c : Cached K V, (c.edit k v).cache k = some v := fun _ => update_self ..
  have hne : ∀ {c : Cached K V} {k' : K}, k' ≠ k → (c.edit k v).cache k' = c.cache k' := fun hk => update_of_ne hk _ _
  refine ⟨h.db, fun k' => ?_, fun k' hk' => ?_, fun k' hk' => ?_, Set.insert_subset_insert h.le⟩
  · by_cases hk : k' = k
    · rw [hk, hself, hself]
      exact .inr rfl
    · rw [hne hk, hne hk]
      exact h.sub k'
  · rw [Set.mem_insert_iff, not_or] at hk'
    rw [hne hk'.1]
    exact h.clean k' hk'.2
  · by_cases hk : k' = k
    · rw [hk, hself, hself]
    · rw [hne hk, hne hk]
      exact h.same k' (hk'.resolve_left hk)

omit [DecidableEq K] in
theorem evict (h : Twins dirty tied c d) (p : K → Bool) : Twins dirty tied (c.evict p) (d.evict p) := by
  refine ⟨h.db, fun k => ?_, fun k hk => ?_, fun k hk => ?_, h.le⟩ <;> unfold Cached.evict
  · by_cases hp : p k = true
    · simp [hp]
    · simp only [hp]
      exact h.sub k
  · by_cases hp : p k = true
    · simp [hp]
    · simp only [hp]
      exact h.clean k hk
  · by_cases hp : p k = true
    · simp [hp]
    · simp only [hp]
      exact h.same k hk

omit [DecidableEq K] in
/-- What is not tied may be evicted. -/
theorem evict_left (h : Twins dirty tied c d) {p : K → Bool} (hp : ∀ k ∈ tied, p k = false) :
    Twins dirty tied (c.evict p) d := by
  refine ⟨h.db, fun k => ?_, h.clean, fun k hk => ?_, h.le⟩ <;> unfold Cached.evict
  · by_cases hpk : p k = true
    · simp [hpk]
    · simp only [hpk]
      exact h.sub k
  · simp only [hp k hk]
    exact h.same k hk

omit [DecidableEq K] in
/-- What a loop writes to the caches. -/
theorem foldl {α : Type} {f : Cached K V → α → Cached K V} {g : α → K}
    (hf : ∀ {dirty tied c d} a, Twins dirty tied c d → Twins (insert (g a) dirty) (insert (g a) tied) (f c a) (f d a))
    (l : List α) (h : Twins dirty tied c d) :
    Twins ({k | k ∈ l.map g} ∪ dirty) ({k | k ∈ l.map g} ∪ tied) (l.foldl f c) (l.foldl f d) := by
  induction l generalizing c d dirty tied with
  | nil => simpa using h
  | cons a l ih =>
    have hset : ∀ s : Set K, {k | k ∈ (a :: l).map g} ∪ s = {k | k ∈ l.map g} ∪ insert (g a) s := by
      intro s
      ext k
      simp only [Set.mem_union, Set.mem_ofPred_eq, map_cons, mem_cons, Set.mem_insert_iff]
      rw [or_assoc, or_left_comm]
    rw [hset, hset]
    exact ih (hf a h)

end Twins

/-! ### Batches -/

/-- A batch, written to the database. -/
def puts (c : Cached K V) (ws : List (K × V)) : Cached K V := ws.foldl (fun c w => c.put w.1 w.2) c

/-- What a batch writes to `k`, in the end. -/
def lastOf (ws : List (K × V)) (k : K) : Option V := ws.reverse.lookup k

theorem cache_puts (c : Cached K V) (ws : List (K × V)) : (c.puts ws).cache = c.cache := by
  induction ws generalizing c with
  | nil => rfl
  | cons w ws ih => exact ih (c.put w.1 w.2)

theorem lastOf_cons (w : K × V) (ws : List (K × V)) (k : K) :
    lastOf (w :: ws) k = (lastOf ws k).or (if k = w.1 then some w.2 else none) := by
  rw [lastOf, reverse_cons, lookup_append, lastOf, lookup_cons, lookup_nil]
  by_cases hk : k = w.1
  · simp [hk]
  · simp [beq_false_of_ne hk, hk]

theorem lastOf_append (ws ws' : List (K × V)) (k : K) : lastOf (ws ++ ws') k = (lastOf ws' k).or (lastOf ws k) := by
  rw [lastOf, reverse_append, lookup_append, lastOf, lastOf]

/-- A batch of what is at its keys -/
theorem lastOf_map {f : K → V} {l : List K} (h : lastOf (l.map fun k => (k, f k)) k = some v) : k ∈ l ∧ v = f k := by
  induction l with
  | nil => cases h
  | cons k' l ih =>
    rw [map_cons, lastOf_cons] at h
    cases hrest : lastOf (l.map fun k => (k, f k)) k with
    | some v' =>
      rw [hrest, Option.some_or] at h
      obtain ⟨hk, hv⟩ := ih (hrest.trans h)
      exact ⟨mem_cons_of_mem _ hk, hv⟩
    | none =>
      rw [hrest, Option.none_or] at h
      by_cases hk : k = k'
      · rw [if_pos hk] at h
        exact ⟨hk ▸ mem_cons_self, by rw [hk]; exact (Option.some.inj h).symm⟩
      · rw [if_neg hk] at h
        cases h

theorem db_puts (c : Cached K V) (ws : List (K × V)) (k : K) : (c.puts ws).db k = (lastOf ws k).or (c.db k) := by
  induction ws generalizing c with
  | nil => rfl
  | cons w ws ih =>
    have hput : (c.put w.1 w.2).db k = (if k = w.1 then some w.2 else none).or (c.db k) := by
      by_cases hk : k = w.1
      · rw [hk, if_pos rfl]
        exact update_self ..
      · rw [if_neg hk]
        exact update_of_ne hk _ _
    rw [lastOf_cons, Option.or_assoc, ← hput]
    exact ih (c.put w.1 w.2)

theorem lastOf_eq_none_iff {ws : List (K × V)} : lastOf ws k = none ↔ k ∉ ws.map Prod.fst := by
  rw [lastOf, lookup_eq_none_iff]
  simp only [mem_reverse, mem_map, not_exists, not_and]
  constructor
  · rintro h w hw rfl
    simpa using h w hw
  · intro h w hw
    simpa using fun heq : k = w.1 => h w hw heq.symm

/-- Where no key is written twice, what a batch writes is what is in it. -/
theorem lastOf_eq_some_iff {ws : List (K × V)} (h : (ws.map Prod.fst).Nodup) : lastOf ws k = some v ↔ (k, v) ∈ ws := by
  induction ws with
  | nil => simp [lastOf]
  | cons w ws ih =>
    obtain ⟨hnotMem, hnodup⟩ := nodup_cons.1 h
    rw [lastOf_cons, mem_cons, ← ih hnodup]
    by_cases hk : k = w.1
    · rw [hk, lastOf_eq_none_iff.2 hnotMem, Option.none_or, if_pos rfl, or_iff_left nofun, Prod.ext_iff]
      simp [eq_comm]
    · have hne : (k, v) ≠ w := fun heq => hk (congrArg Prod.fst heq)
      rw [if_neg hk, Option.or_none, or_iff_right hne]

/-- What is written to the database is clean, if it is what is cached. -/
theorem Twins.puts (h : Twins dirty tied c d) (ws : List (K × V))
    (hws : ∀ k v, lastOf ws k = some v → d.cache k = none ∨ d.cache k = some v) :
    Twins (dirty \ {k | k ∈ ws.map Prod.fst}) tied (c.puts ws) (d.puts ws) := by
  refine ⟨?_, fun k => ?_, fun k hk => ?_, fun k hk => ?_, fun _ hk => h.le hk.1⟩
  · funext k
    rw [db_puts, db_puts, h.db]
  · rw [cache_puts, cache_puts]
    exact h.sub k
  · rw [cache_puts, db_puts]
    cases hlast : lastOf ws k with
    | none =>
      rw [Option.none_or]
      exact h.clean k fun hmem => hk ⟨hmem, lastOf_eq_none_iff.1 hlast⟩
    | some v => exact hws k v hlast
  · rw [cache_puts, cache_puts]
    exact h.same k hk

theorem Twins.put (h : Twins dirty tied c d) (hk : d.cache k = none ∨ d.cache k = some v) :
    Twins (dirty \ {k}) tied (c.put k v) (d.put k v) := by
  have hset : {k' | k' ∈ [(k, v)].map Prod.fst} = ({k} : Set K) := by
    ext k'
    simp
  rw [← hset]
  refine h.puts [(k, v)] fun k' v' hlast => ?_
  rw [lastOf_cons] at hlast
  by_cases heq : k' = k
  · rw [if_pos heq] at hlast
    cases hlast
    rwa [heq]
  · rw [if_neg heq] at hlast
    cases hlast

end Cached
