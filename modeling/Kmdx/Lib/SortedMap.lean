import Mathlib.Data.List.Pairwise
import Mathlib.Data.List.Sort

/-!
# `std::map`

A map with its keys in increasing order, which is how it is iterated over.
-/

/-- A map with the entries by increasing key -/
structure SortedMap (K V : Type) [LinearOrder K] where
  entries : List (K × V)
  sorted : entries.Pairwise (·.1 < ·.1)

namespace SortedMap

open List

variable {K V : Type} [LinearOrder K] {m n : SortedMap K V} {k l : K} {v w : V} {es : List (K × V)}

@[ext] theorem ext (h : m.entries = n.entries) : m = n := by
  cases m
  cases n
  congr

instance : EmptyCollection (SortedMap K V) := ⟨⟨[], .nil⟩⟩

@[simp] theorem entries_empty : (∅ : SortedMap K V).entries = [] := rfl

/-- Entries in the order of their keys are determined by which they are. -/
theorem eq_of_mem_iff {es ds : List (K × V)} (hes : es.Pairwise (·.1 < ·.1)) (hds : ds.Pairwise (·.1 < ·.1))
    (hmem : ∀ e, e ∈ es ↔ e ∈ ds) : es = ds := by
  have : Std.Irrefl fun e d : K × V => e.1 < d.1 := ⟨fun e => lt_irrefl e.1⟩
  have : Std.Antisymm fun e d : K × V => e.1 < d.1 := ⟨fun e d h h' => absurd h h'.asymm⟩
  exact hes.eq_of_mem_iff hds hmem

def keys (m : SortedMap K V) : List K := m.entries.map Prod.fst

def find? (m : SortedMap K V) (k : K) : Option V := m.entries.lookup k

theorem pairwise_keys (m : SortedMap K V) : m.keys.Pairwise (· < ·) := pairwise_map.2 m.sorted

theorem find?_eq_some_iff : m.find? k = some v ↔ (k, v) ∈ m.entries := by
  obtain ⟨es, hes⟩ := m
  show es.lookup k = some v ↔ (k, v) ∈ es
  induction es with
  | nil => simp
  | cons e es ih =>
    obtain ⟨hlt, hes⟩ := pairwise_cons.1 hes
    by_cases hk : k = e.1
    · have hnot : (k, v) ∉ es := fun h => (hlt _ h).ne hk.symm
      rw [mem_cons, or_iff_left hnot, hk, lookup_cons, beq_self_eq_true]
      constructor
      · rintro ⟨⟩
        rfl
      · intro h
        rw [← h]
    · have hne : (k, v) ≠ e := fun h => hk (congrArg Prod.fst h)
      rw [lookup_cons, beq_false_of_ne hk, mem_cons, or_iff_right hne]
      exact ih hes

theorem isSome_find?_iff : (m.find? k).isSome ↔ k ∈ m.keys := by
  simp only [Option.isSome_iff_exists, find?_eq_some_iff, keys, mem_map, Prod.exists, exists_and_right, exists_eq_right]

/-- `m[k] = v`, on the entries -/
def insertEntry (k : K) (v : V) : List (K × V) → List (K × V)
  | [] => [(k, v)]
  | e :: es => if k < e.1 then (k, v) :: e :: es else if k = e.1 then (k, v) :: es else e :: insertEntry k v es

variable {e : K × V}

theorem mem_insertEntry (h : e ∈ insertEntry k v es) : e = (k, v) ∨ e ∈ es := by
  induction es with
  | nil => exact .inl (mem_singleton.1 h)
  | cons d es ih =>
    rw [insertEntry] at h
    split_ifs at h
    · exact (mem_cons.1 h).imp_right id
    · exact (mem_cons.1 h).imp_right (mem_cons_of_mem _)
    · rcases mem_cons.1 h with rfl | h
      · exact .inr mem_cons_self
      · exact (ih h).imp_right (mem_cons_of_mem _)

theorem pairwise_insertEntry (h : es.Pairwise (·.1 < ·.1)) : (insertEntry k v es).Pairwise (·.1 < ·.1) := by
  induction es with
  | nil => exact pairwise_singleton _ _
  | cons d es ih =>
    obtain ⟨hlt, hes⟩ := pairwise_cons.1 h
    rw [insertEntry]
    split_ifs with hk hk'
    · refine pairwise_cons.2 ⟨fun e he => ?_, h⟩
      rcases mem_cons.1 he with rfl | he
      · exact hk
      · exact hk.trans (hlt e he)
    · exact pairwise_cons.2 ⟨fun e he => hk' ▸ hlt e he, hes⟩
    · refine pairwise_cons.2 ⟨fun e he => ?_, ih hes⟩
      rcases mem_insertEntry he with rfl | he
      · exact lt_of_le_of_ne (not_lt.1 hk) (Ne.symm hk')
      · exact hlt e he

/-- `m[k] = v` -/
def insert (m : SortedMap K V) (k : K) (v : V) : SortedMap K V := ⟨insertEntry k v m.entries, pairwise_insertEntry m.sorted⟩

theorem insertEntry_of_gt (h : ∀ e ∈ es, e.1 < k) : insertEntry k v es = es ++ [(k, v)] := by
  induction es with
  | nil => rfl
  | cons d es ih =>
    have hd := h d mem_cons_self
    rw [insertEntry, if_neg hd.asymm, if_neg hd.ne', ih fun e he => h e (mem_cons_of_mem _ he)]
    rfl

/-- A key above all others goes to the end. -/
theorem entries_insert_of_gt (h : ∀ e ∈ m.entries, e.1 < k) : (m.insert k v).entries = m.entries ++ [(k, v)] :=
  insertEntry_of_gt h

theorem mem_insert : e ∈ (m.insert k v).entries ↔ e = (k, v) ∨ e ∈ m.entries ∧ e.1 ≠ k := by
  obtain ⟨es, hes⟩ := m
  show e ∈ insertEntry k v es ↔ e = (k, v) ∨ e ∈ es ∧ e.1 ≠ k
  induction es with
  | nil => simp [insertEntry]
  | cons d es ih =>
    obtain ⟨hlt, hes⟩ := pairwise_cons.1 hes
    have hrest : ∀ e ∈ es, d.1 < e.1 := hlt
    rw [insertEntry]
    split_ifs with hk hk'
    · have hne : ∀ e ∈ d :: es, e.1 ≠ k := by
        intro e he
        rcases mem_cons.1 he with rfl | he
        · exact hk.ne'
        · exact (hk.trans (hrest e he)).ne'
      rw [mem_cons]
      exact or_congr_right ⟨fun he => ⟨he, hne e he⟩, And.left⟩
    · subst hk'
      have hne : e ∈ es → e.1 ≠ d.1 := fun he => (hrest e he).ne'
      rw [mem_cons, mem_cons]
      constructor
      · rintro (h | h)
        · exact .inl h
        · exact .inr ⟨.inr h, hne h⟩
      · rintro (h | ⟨rfl | h, hd⟩)
        · exact .inl h
        · exact absurd rfl hd
        · exact .inr h
    · rw [mem_cons, mem_cons, ih hes]
      constructor
      · rintro (rfl | h | ⟨h, hd⟩)
        · exact .inr ⟨.inl rfl, Ne.symm hk'⟩
        · exact .inl h
        · exact .inr ⟨.inr h, hd⟩
      · rintro (h | ⟨rfl | h, hd⟩)
        · exact .inr (.inl h)
        · exact .inl rfl
        · exact .inr (.inr ⟨h, hd⟩)

def size (m : SortedMap K V) : Nat := m.entries.length

/-- `m.erase(std::next(m.begin(), n), m.end())` -/
def take (m : SortedMap K V) (n : Nat) : SortedMap K V := ⟨m.entries.take n, m.sorted.sublist (take_sublist ..)⟩

/-- From `m.lower_bound(k)` on -/
def lowerBound (m : SortedMap K V) (k : K) : List (K × V) := m.entries.dropWhile (·.1 < k)

theorem lowerBound_eq (m : SortedMap K V) (k : K) : m.lowerBound k = m.entries.filter (k ≤ ·.1) := by
  obtain ⟨es, hes⟩ := m
  show es.dropWhile (·.1 < k) = es.filter (k ≤ ·.1)
  induction es with
  | nil => rfl
  | cons d es ih =>
    obtain ⟨hlt, hes⟩ := pairwise_cons.1 hes
    by_cases hd : d.1 < k
    · rw [dropWhile_cons_of_pos (by simpa using hd), filter_cons_of_neg (by simpa using hd), ih hes]
    · rw [dropWhile_cons_of_neg (by simpa using hd), filter_eq_self.2]
      intro e he
      rcases mem_cons.1 he with rfl | he
      · simpa using hd
      · simpa using (not_lt.1 hd).trans (hlt e he).le

/-- `m.emplace(k, v)`, which leaves a key as it is. -/
def emplace (m : SortedMap K V) (k : K) (v : V) : SortedMap K V := if (m.find? k).isSome then m else m.insert k v

/-- `m.insert(first, last)` -/
def insertRange (m : SortedMap K V) (es : List (K × V)) : SortedMap K V := es.foldl (fun m e => m.emplace e.1 e.2) m

theorem mem_emplace (hkey : ∀ v', (k, v') ∈ m.entries → v' = v) :
    e ∈ (m.emplace k v).entries ↔ e ∈ m.entries ∨ e = (k, v) := by
  rw [emplace]
  split_ifs with h
  · obtain ⟨v', hv'⟩ := Option.isSome_iff_exists.1 h
    have hmem := find?_eq_some_iff.1 hv'
    obtain rfl := hkey v' hmem
    exact ⟨.inl, fun h => h.elim id fun h => h ▸ hmem⟩
  · have hne : e ∈ m.entries → e.1 ≠ k := by
      rintro he rfl
      exact h (isSome_find?_iff.2 (mem_map_of_mem he))
    rw [mem_insert, or_comm]
    exact or_congr_left ⟨And.left, fun he => ⟨he, hne he⟩⟩

/-- If a key only ever goes with one value, `insertRange` joins. -/
theorem mem_insertRange {P : K × V → Prop} (hP : ∀ e d, P e → P d → e.1 = d.1 → e = d) (hm : ∀ e ∈ m.entries, P e)
    (hes : ∀ e ∈ es, P e) : e ∈ (m.insertRange es).entries ↔ e ∈ m.entries ∨ e ∈ es := by
  induction es generalizing m with
  | nil => simp [insertRange]
  | cons d es ih =>
    have hd := hes d mem_cons_self
    have hemplace : ∀ {e}, e ∈ (m.emplace d.1 d.2).entries ↔ e ∈ m.entries ∨ e = d :=
      mem_emplace fun v' hv' => congrArg Prod.snd (hP (d.1, v') d (hm _ hv') hd rfl)
    have hm' : ∀ e ∈ (m.emplace d.1 d.2).entries, P e := fun e he => (hemplace.1 he).elim (hm e) fun h => h ▸ hd
    rw [insertRange, foldl_cons, mem_cons, ← or_assoc, ← hemplace]
    exact ih hm' fun e he => hes e (mem_cons_of_mem _ he)

/-- `m.erase(k)` -/
def erase (m : SortedMap K V) (k : K) : SortedMap K V := ⟨m.entries.filter (·.1 ≠ k), m.sorted.filter _⟩

theorem mem_erase : e ∈ (m.erase k).entries ↔ e ∈ m.entries ∧ e.1 ≠ k := by
  rw [erase, mem_filter, decide_eq_true_iff]

/-- `m.upper_bound(k)` -/
def upperBound (m : SortedMap K V) (k : K) : Option (K × V) := m.entries.find? (k < ·.1)

/-- `std::prev(m.upper_bound(k))`, unless that is the first. -/
def before (m : SortedMap K V) (k : K) : Option (K × V) := m.entries.reverse.find? (·.1 ≤ k)

theorem upperBound_eq_none (h : m.upperBound k = none) (he : e ∈ m.entries) : e.1 ≤ k := by
  simpa using List.find?_eq_none.1 h e he

theorem before_eq_none (h : m.before k = none) (he : e ∈ m.entries) : k < e.1 := by
  simpa using List.find?_eq_none.1 h e (mem_reverse.2 he)

theorem upperBound_eq_some {d : K × V} (h : m.upperBound k = some d) :
    d ∈ m.entries ∧ k < d.1 ∧ ∀ e ∈ m.entries, k < e.1 → e = d ∨ d.1 < e.1 := by
  obtain ⟨hlt, es, ds, heq, hnot⟩ := List.find?_eq_some_iff_append.1 h
  have hsorted := m.sorted
  rw [heq] at hsorted ⊢
  refine ⟨mem_append_right es mem_cons_self, of_decide_eq_true hlt, fun e he hk => ?_⟩
  rcases mem_append.1 he with he | he
  · exact absurd hk (by simpa using hnot e he)
  · refine (mem_cons.1 he).imp_right fun he => ?_
    exact (pairwise_cons.1 (pairwise_append.1 hsorted).2.1).1 e he

theorem before_eq_some {d : K × V} (h : m.before k = some d) :
    d ∈ m.entries ∧ d.1 ≤ k ∧ ∀ e ∈ m.entries, e.1 ≤ k → e = d ∨ e.1 < d.1 := by
  obtain ⟨hle, es, ds, heq, hnot⟩ := List.find?_eq_some_iff_append.1 h
  have hsorted := pairwise_reverse.2 m.sorted
  rw [heq] at hsorted
  have hmem : ∀ e, e ∈ m.entries ↔ e ∈ es ++ d :: ds := fun e => by rw [← heq, mem_reverse]
  refine ⟨(hmem d).2 (mem_append_right es mem_cons_self), of_decide_eq_true hle, fun e he hk => ?_⟩
  rcases mem_append.1 ((hmem e).1 he) with he | he
  · exact absurd hk (by simpa using hnot e he)
  · refine (mem_cons.1 he).imp_right fun he => ?_
    exact (pairwise_cons.1 (pairwise_append.1 hsorted).2.1).1 e he

end SortedMap
