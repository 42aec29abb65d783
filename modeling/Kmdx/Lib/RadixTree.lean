import Mathlib.Data.List.FinRange
import Mathlib.Data.List.Infix

/-!
# Radix trees

A map of words over `n` letters. Behind a branch there is a tree for each letter; a path without branches is one
extension, or is in the leaf. A canonical tree has a branch only where there are two ways to go on. What is put in
(`find_insert`) and taken out (`find_erase`) leaves the rest of the map alone and the tree canonical.
-/

inductive RadixTree (n : Nat) (V : Type)
  | empty
  | leaf (k : List (Fin n)) (v : V)
  | ext (k : List (Fin n)) (t : RadixTree n V)
  | branch (c : Fin n → RadixTree n V) (v : Option V)

namespace RadixTree

open List

open Function

variable {n : Nat} {V : Type} {k k' r : List (Fin n)} {i j : Fin n} {v w : V} {t : RadixTree n V}
  {c : Fin n → RadixTree n V} {o : Option V} {f : List (Fin n) → Option V}

/-! ### Words behind a word -/

/-- The map `f`, at the words that begin with `k`. -/
def behind (k : List (Fin n)) (f : List (Fin n) → Option V) (k' : List (Fin n)) : Option V :=
  if k <+: k' then f (k'.drop k.length) else none

@[simp] theorem behind_append (k r : List (Fin n)) : behind k f (k ++ r) = f r := by
  rw [behind, if_pos (prefix_append k r), drop_left]

theorem behind_of_not (h : ¬k <+: k') : behind k f k' = none := if_neg h

@[simp] theorem behind_nil (k' : List (Fin n)) : behind [] f k' = f k' := behind_append [] k'

@[simp] theorem behind_cons_nil : behind (i :: k) f [] = none := behind_of_not (by simp)

theorem behind_cons (k k' : List (Fin n)) : behind (i :: k) f (j :: k') = if i = j then behind k f k' else none := by
  simp only [behind, cons_prefix_cons, length_cons, drop_succ_cons, ← ite_and]

theorem behind_behind (k k' r : List (Fin n)) : behind (k ++ k') f r = behind k (behind k' f) r := by
  by_cases h : k <+: r
  · obtain ⟨r, rfl⟩ := h
    rw [behind_append]
    simp only [behind, prefix_append_right_inj, length_append, ← drop_drop, drop_left]
  · rw [behind_of_not h, behind_of_not fun hk => h ((prefix_append k k').trans hk)]

theorem behind_isSome (h : (behind k f k').isSome) : k <+: k' := by
  by_contra hk
  rw [behind_of_not hk] at h
  cases h

/-! ### Trees -/

/-- The value of a word. -/
def find : RadixTree n V → List (Fin n) → Option V
  | empty, _ => none
  | leaf k v, k' => if k = k' then some v else none
  | ext k t, k' => behind k t.find k'
  | branch _ v, [] => v
  | branch c _, i :: k' => (c i).find k'

/-- A way to go on at a branch: a letter, or to stop. -/
def InUse (c : Fin n → RadixTree n V) (v : Option V) : Option (Fin n) → Prop
  | none => v.isSome
  | some i => c i ≠ empty

def IsBranch : RadixTree n V → Prop
  | branch _ _ => True
  | _ => False

def Canonical : RadixTree n V → Prop
  | empty => True
  | leaf _ _ => True
  | ext k t => k ≠ [] ∧ t.IsBranch ∧ t.Canonical
  | branch c v => (∃ s s', s ≠ s' ∧ InUse c v s ∧ InUse c v s') ∧ ∀ i, (c i).Canonical

@[simp] theorem find_empty (k : List (Fin n)) : (empty : RadixTree n V).find k = none := rfl

theorem find_leaf : (leaf k v).find k' = if k = k' then some v else none := rfl

@[simp] theorem find_leaf_self : (leaf k v).find k = some v := if_pos rfl

theorem find_ext : (ext k t).find k' = behind k t.find k' := rfl

@[simp] theorem find_branch_nil : (branch c o).find [] = o := rfl

@[simp] theorem find_branch_cons : (branch c o).find (i :: k) = (c i).find k := rfl

theorem find_leaf_append (k k' r : List (Fin n)) : (leaf (k ++ k') v).find r = behind k (leaf k' v).find r := by
  by_cases h : k <+: r
  · obtain ⟨r, rfl⟩ := h
    rw [behind_append, find_leaf, find_leaf]
    simp only [append_cancel_left_eq]
  · rw [behind_of_not h, find_leaf, if_neg]
    rintro rfl
    exact h (prefix_append k k')

theorem IsBranch.exists_eq (h : t.IsBranch) : ∃ c o, t = branch c o := by
  cases t with
  | branch c o => exact ⟨c, o, rfl⟩
  | _ => exact h.elim

theorem IsBranch.ne_empty (h : t.IsBranch) : t ≠ empty := by
  rintro rfl
  exact h

/-- A tree with nothing in it is empty. -/
theorem Canonical.exists_find (h : t.Canonical) (hne : t ≠ empty) : ∃ k v, t.find k = some v := by
  induction t with
  | empty => exact absurd rfl hne
  | leaf k v => exact ⟨k, v, find_leaf_self⟩
  | ext k t ih =>
    obtain ⟨k', v, hv⟩ := ih h.2.2 h.2.1.ne_empty
    exact ⟨k ++ k', v, by rw [find_ext, behind_append, hv]⟩
  | branch c o ih =>
    obtain ⟨⟨s, -, -, hs, -⟩, hc⟩ := h
    cases s with
    | none =>
      obtain ⟨v, hv⟩ := Option.isSome_iff_exists.1 hs
      exact ⟨[], v, hv⟩
    | some i =>
      obtain ⟨k, v, hv⟩ := ih i (hc i) hs
      exact ⟨i :: k, v, hv⟩

/-! ### Paths -/

/-- The tree at the end of a path. -/
def prepend (k : List (Fin n)) : RadixTree n V → RadixTree n V
  | empty => empty
  | leaf k' v => leaf (k ++ k') v
  | ext k' t => ext (k ++ k') t
  | branch c v => if k = [] then branch c v else ext k (branch c v)

theorem find_prepend (k : List (Fin n)) (t : RadixTree n V) (k' : List (Fin n)) :
    (t.prepend k).find k' = behind k t.find k' := by
  cases t with
  | empty => exact (ite_self none).symm
  | leaf k₀ v => exact find_leaf_append k k₀ k'
  | ext k₀ t => exact behind_behind k k₀ k'
  | branch c v =>
    rw [prepend]
    split
    · rename_i hk
      rw [hk, behind_nil]
    · rfl

theorem Canonical.prepend (h : t.Canonical) (k : List (Fin n)) : (t.prepend k).Canonical := by
  cases t with
  | empty => trivial
  | leaf k₀ v => trivial
  | ext k₀ t => exact ⟨fun hnil => h.1 (append_eq_nil_iff.1 hnil).2, h.2⟩
  | branch c v =>
    rw [RadixTree.prepend]
    split
    · exact h
    · rename_i hk
      exact ⟨hk, trivial, h⟩

theorem prepend_ne_empty (h : t ≠ empty) (k : List (Fin n)) : t.prepend k ≠ empty := by
  cases t with
  | empty => exact absurd rfl h
  | branch c v =>
    rw [prepend]
    split <;> nofun
  | _ => nofun

theorem prepend_branch (hk : k ≠ []) : (branch c o).prepend k = ext k (branch c o) := if_neg hk

@[simp] theorem prepend_nil (t : RadixTree n V) : t.prepend [] = t := by
  cases t with
  | branch c v => rfl
  | _ => rfl

/-! ### Branches with one way to go on -/

/-- The ways that there are, the stop at last. -/
def slots (n : Nat) : List (Option (Fin n)) := (List.finRange n).map some ++ [none]

theorem mem_slots (s : Option (Fin n)) : s ∈ slots n := by
  rw [slots, mem_append]
  cases s with
  | none => exact .inr (mem_singleton_self _)
  | some i => exact .inl (mem_map_of_mem (mem_finRange i))

theorem nodup_slots : (slots n).Nodup := by
  refine nodup_append.2 ⟨(nodup_finRange n).map (Option.some_injective _), nodup_singleton _, ?_⟩
  intro s hs s' hs' heq
  obtain ⟨i, -, rfl⟩ := mem_map.1 hs
  cases (mem_singleton.1 hs').symm.trans heq.symm

/-- The only one in a list without duplicates that is `p`. -/
theorem filter_eq_singleton_iff {α : Type} {p : α → Bool} {l : List α} {a : α} (hl : l.Nodup) (ha : a ∈ l) :
    l.filter p = [a] ↔ p a ∧ ∀ b ∈ l, p b → b = a := by
  constructor
  · intro h
    have hmem : ∀ b, b ∈ l ∧ p b = true ↔ b = a := fun b => by rw [← mem_filter, h, mem_singleton]
    exact ⟨((hmem a).2 rfl).2, fun b hb hp => (hmem b).1 ⟨hb, hp⟩⟩
  · rintro ⟨hpa, huniq⟩
    refine perm_singleton.1 ((perm_ext_iff_of_nodup (hl.filter p) (nodup_singleton a)).2 fun b => ?_)
    rw [mem_filter, mem_singleton]
    exact ⟨fun hb => huniq b hb.1 hb.2, fun hb => hb ▸ ⟨ha, hpa⟩⟩

def isEmpty : RadixTree n V → Bool
  | empty => true
  | _ => false

theorem isEmpty_eq_false_iff : t.isEmpty = false ↔ t ≠ empty := by cases t <;> simp [isEmpty]

def inUse (c : Fin n → RadixTree n V) (v : Option V) : Option (Fin n) → Bool
  | none => v.isSome
  | some i => !(c i).isEmpty

variable {s : Option (Fin n)}

theorem inUse_iff : inUse c o s = true ↔ InUse c o s := by
  cases s with
  | none => exact Iff.rfl
  | some i => rw [inUse, Bool.not_eq_true', isEmpty_eq_false_iff, InUse]

/-- The way to go on, if there is only one. -/
def onlyInUse (c : Fin n → RadixTree n V) (v : Option V) : Option (Option (Fin n)) :=
  match (slots n).filter (inUse c v) with
  | [s] => some s
  | _ => none

theorem onlyInUse_eq_some_iff : onlyInUse c o = some s ↔ InUse c o s ∧ ∀ s', InUse c o s' → s' = s := by
  have hfilter : onlyInUse c o = some s ↔ (slots n).filter (inUse c o) = [s] := by
    rw [onlyInUse]
    split
    · rename_i s' heq
      rw [heq, Option.some_inj, List.cons.injEq, and_iff_left rfl]
    · rename_i hne
      exact iff_of_false nofun fun heq => hne s heq
  rw [hfilter, filter_eq_singleton_iff nodup_slots (mem_slots s)]
  simp only [inUse_iff, mem_slots, true_implies]

theorem onlyInUse_eq_none (h : ∃ s s', s ≠ s' ∧ InUse c o s ∧ InUse c o s') : onlyInUse c o = none := by
  obtain ⟨s, s', hne, hs, hs'⟩ := h
  refine Option.eq_none_iff_forall_ne_some.2 fun s₀ hs₀ => hne ?_
  have huniq := (onlyInUse_eq_some_iff.1 hs₀).2
  rw [huniq s hs, huniq s' hs']

theorem exists_two_of_onlyInUse_eq_none (hs : InUse c o s) (h : onlyInUse c o = none) :
    ∃ s s', s ≠ s' ∧ InUse c o s ∧ InUse c o s' := by
  by_contra hno
  refine absurd (onlyInUse_eq_some_iff.2 ⟨hs, fun s' hs' => ?_⟩) (h ▸ nofun)
  by_contra hne
  exact hno ⟨s', s, hne, hs', hs⟩

/-- The branch, or what is left of it where there is only one way to go on. -/
def contract (c : Fin n → RadixTree n V) (v : Option V) : RadixTree n V :=
  match onlyInUse c v with
  | none => branch c v
  | some none => v.elim empty (leaf [])
  | some (some i) => (c i).prepend [i]

theorem find_contract (c : Fin n → RadixTree n V) (o : Option V) (k : List (Fin n)) :
    (contract c o).find k = (branch c o).find k := by
  rw [contract]
  split
  · rfl
  · rename_i h
    obtain ⟨hsome, huniq⟩ := onlyInUse_eq_some_iff.1 h
    obtain ⟨v, rfl⟩ := Option.isSome_iff_exists.1 hsome
    cases k with
    | nil => rfl
    | cons i k =>
      have hi : c i = empty := by
        by_contra hne
        cases huniq (some i) hne
      rw [find_branch_cons, hi]
      rfl
  · rename_i i h
    obtain ⟨-, huniq⟩ := onlyInUse_eq_some_iff.1 h
    rw [find_prepend]
    cases k with
    | nil =>
      rw [behind_cons_nil, find_branch_nil, eq_comm, ← Option.not_isSome_iff_eq_none]
      exact fun hsome => nomatch huniq none hsome
    | cons j k =>
      rw [behind_cons, behind_nil, find_branch_cons]
      split
      · rename_i hij
        rw [hij]
      · rename_i hij
        have hj : c j = empty := by
          by_contra hne
          exact hij (Option.some_inj.1 (huniq (some j) hne)).symm
        rw [hj, find_empty]

theorem canonical_contract (hs : InUse c o s) (hc : ∀ i, (c i).Canonical) : (contract c o).Canonical := by
  rw [contract]
  split
  · rename_i h
    exact ⟨exists_two_of_onlyInUse_eq_none hs h, hc⟩
  · cases o <;> trivial
  · exact (hc _).prepend _

theorem contract_ne_empty (hs : InUse c o s) : contract c o ≠ empty := by
  rw [contract]
  split
  · nofun
  · rename_i h
    obtain ⟨v, rfl⟩ := Option.isSome_iff_exists.1 (onlyInUse_eq_some_iff.1 h).1
    nofun
  · rename_i h
    exact prepend_ne_empty (onlyInUse_eq_some_iff.1 h).1 _

theorem contract_of_canonical (h : (branch c o).Canonical) : contract c o = branch c o := by
  rw [contract, onlyInUse_eq_none h.1]

/-! ### Removal -/

def erase : RadixTree n V → List (Fin n) → RadixTree n V
  | empty, _ => empty
  | leaf k v, k' => if k = k' then empty else leaf k v
  | ext k t, k' => if k <+: k' then (t.erase (k'.drop k.length)).prepend k else ext k t
  | branch c _, [] => contract c none
  | branch c v, i :: k' => contract (update c i ((c i).erase k')) v

theorem erase_ext_append (k r : List (Fin n)) (t : RadixTree n V) : (ext k t).erase (k ++ r) = (t.erase r).prepend k := by
  rw [erase, if_pos (prefix_append k r), drop_left]

theorem find_erase (t : RadixTree n V) (k k' : List (Fin n)) : (t.erase k).find k' = if k' = k then none else t.find k' := by
  induction t generalizing k k' with
  | empty => exact (ite_self none).symm
  | leaf k₀ v =>
    rw [erase, find_leaf]
    split
    · rename_i hk
      rw [hk, find_empty]
      split <;> rename_i hk'
      · rfl
      · rw [if_neg fun h => hk' h.symm]
    · rename_i hk
      rw [find_leaf]
      split <;> rename_i hk'
      · rw [if_neg fun h => hk (hk'.trans h)]
      · exact (ite_self none).symm
  | ext k₀ t ih =>
    by_cases hk : k₀ <+: k
    · obtain ⟨r, rfl⟩ := hk
      rw [erase_ext_append, find_prepend, find_ext]
      by_cases hk' : k₀ <+: k'
      · obtain ⟨r', rfl⟩ := hk'
        rw [behind_append, behind_append, ih]
        simp only [append_cancel_left_eq]
      · rw [behind_of_not hk', behind_of_not hk', ite_self]
    · rw [erase, if_neg hk]
      split
      · rename_i hk'
        rw [hk', find_ext, behind_of_not hk]
      · rfl
  | branch c o ih =>
    cases k with
    | nil =>
      rw [erase, find_contract]
      cases k' with
      | nil => rfl
      | cons j k' => rfl
    | cons i k =>
      rw [erase, find_contract]
      cases k' with
      | nil => rfl
      | cons j k' =>
        rw [find_branch_cons, find_branch_cons]
        by_cases hij : j = i
        · subst hij
          rw [update_self, ih]
          simp only [List.cons.injEq, true_and]
        · rw [update_of_ne hij, if_neg fun h => hij (List.cons.inj h).1]

theorem exists_inUse_update (h : ∃ s s', s ≠ s' ∧ InUse c o s ∧ InUse c o s') (i : Fin n) (t : RadixTree n V) :
    ∃ s, InUse (update c i t) o s := by
  have hother : ∀ s, s ≠ some i → InUse c o s → InUse (update c i t) o s := by
    intro s hne hs
    cases s with
    | none => exact hs
    | some j =>
      rw [InUse, update_of_ne fun hji => hne (congrArg some hji)]
      exact hs
  obtain ⟨s, s', hne, hs, hs'⟩ := h
  by_cases hsi : s = some i
  · exact ⟨s', hother s' (fun hsi' => hne (hsi.trans hsi'.symm)) hs'⟩
  · exact ⟨s, hother s hsi hs⟩

theorem exists_inUse_none (h : ∃ s s', s ≠ s' ∧ InUse c o s ∧ InUse c o s') : ∃ s, InUse c none s := by
  obtain ⟨s, s', hne, hs, hs'⟩ := h
  cases s with
  | none =>
    cases s' with
    | none => exact absurd rfl hne
    | some i => exact ⟨some i, hs'⟩
  | some i => exact ⟨some i, hs⟩

theorem Canonical.erase (h : t.Canonical) (k : List (Fin n)) : (t.erase k).Canonical := by
  induction t generalizing k with
  | empty => trivial
  | leaf k₀ v =>
    rw [RadixTree.erase]
    split <;> trivial
  | ext k₀ t ih =>
    rw [RadixTree.erase]
    split
    · exact (ih h.2.2 _).prepend _
    · exact h
  | branch c o ih =>
    cases k with
    | nil =>
      obtain ⟨s, hs⟩ := exists_inUse_none h.1
      exact canonical_contract hs h.2
    | cons i k =>
      obtain ⟨s, hs⟩ := exists_inUse_update h.1 i ((c i).erase k)
      refine canonical_contract hs fun j => ?_
      by_cases hji : j = i
      · rw [hji, update_self]
        exact ih i (h.2 i) k
      · rw [update_of_ne hji]
        exact h.2 j

/-- What is not there is not taken out. -/
theorem Canonical.erase_of_find_eq_none (h : t.Canonical) (hk : t.find k = none) : t.erase k = t := by
  induction t generalizing k with
  | empty => rfl
  | leaf k₀ v =>
    rw [RadixTree.erase, if_neg]
    rintro rfl
    rw [find_leaf_self] at hk
    cases hk
  | ext k₀ t ih =>
    by_cases hpre : k₀ <+: k
    · obtain ⟨r, rfl⟩ := hpre
      rw [find_ext, behind_append] at hk
      obtain ⟨c, o, rfl⟩ := h.2.1.exists_eq
      rw [erase_ext_append, ih h.2.2 hk, prepend_branch h.1]
    · rw [RadixTree.erase, if_neg hpre]
  | branch c o ih =>
    cases k with
    | nil =>
      obtain rfl : o = none := hk
      exact contract_of_canonical h
    | cons i k =>
      rw [RadixTree.erase, ih i (h.2 i) hk, update_eq_self, contract_of_canonical h]

/-- Behind an extension there is always something left. -/
theorem IsBranch.erase_ne_empty (hb : t.IsBranch) (h : t.Canonical) (k : List (Fin n)) : t.erase k ≠ empty := by
  obtain ⟨c, o, rfl⟩ := hb.exists_eq
  cases k with
  | nil =>
    obtain ⟨s, hs⟩ := exists_inUse_none h.1
    exact contract_ne_empty hs
  | cons i k =>
    obtain ⟨s, hs⟩ := exists_inUse_update h.1 i ((c i).erase k)
    exact contract_ne_empty hs

/-! ### Insertion -/

/-- The number of letters that two words have in common at their beginnings. -/
def shared : List (Fin n) → List (Fin n) → Nat
  | i :: k, j :: k' => if i = j then shared k k' + 1 else 0
  | _, _ => 0

/-- The two words part behind what they share. -/
theorem exists_of_shared (k k' : List (Fin n)) :
    ∃ p r r', k = p ++ r ∧ k' = p ++ r' ∧ shared k k' = p.length ∧ (r = [] ∨ r.head? ≠ r'.head?) := by
  induction k generalizing k' with
  | nil => exact ⟨[], [], k', rfl, rfl, by simp [shared], .inl rfl⟩
  | cons i k ih =>
    cases k' with
    | nil => exact ⟨[], i :: k, [], rfl, rfl, by simp [shared], .inr (by simp)⟩
    | cons j k' =>
      rw [shared]
      split
      · rename_i hij
        obtain ⟨p, r, r', rfl, rfl, hlen, hhead⟩ := ih k'
        exact ⟨i :: p, r, r', rfl, by rw [hij]; rfl, by rw [hlen]; rfl, hhead⟩
      · rename_i hij
        exact ⟨[], i :: k, j :: k', rfl, rfl, rfl, .inr fun h => hij (Option.some_inj.1 h)⟩

theorem shared_append (p r r' : List (Fin n)) : shared (p ++ r) (p ++ r') = p.length + shared r r' := by
  induction p with
  | nil => simp
  | cons i p ih =>
    rw [cons_append, cons_append, shared, if_pos rfl, ih, length_cons]
    omega

theorem shared_eq_length_iff : shared k k' = k.length ↔ k <+: k' := by
  induction k generalizing k' with
  | nil => simp [shared]
  | cons i k ih =>
    cases k' with
    | nil => simp [shared]
    | cons j k' =>
      rw [shared, cons_prefix_cons, length_cons]
      split
      · rename_i hij
        rw [and_iff_right hij, ← ih]
        omega
      · rename_i hij
        simp [hij]

theorem shared_comm (k k' : List (Fin n)) : shared k k' = shared k' k := by
  induction k generalizing k' with
  | nil => cases k' <;> rfl
  | cons i k ih =>
    cases k' with
    | nil => rfl
    | cons j k' => simp only [shared, ih k', eq_comm]

theorem shared_eq_zero (h : k.head? ≠ k'.head?) : shared k k' = 0 := by
  cases k with
  | nil => rfl
  | cons i k =>
    cases k' with
    | nil => rfl
    | cons j k' => exact if_neg fun hij => h (congrArg some hij)

/-- A leaf or an extension as a branch. -/
def split : RadixTree n V → RadixTree n V
  | leaf [] v => branch (fun _ => empty) (some v)
  | leaf (i :: k) v => branch (update (fun _ => empty) i (leaf k v)) none
  | ext (i :: k) t => branch (update (fun _ => empty) i (t.prepend k)) none
  | t => t

/-- A new leaf, or the new value, beside what is at a branch. -/
def hang (k : List (Fin n)) (v : V) : RadixTree n V → RadixTree n V
  | branch c w =>
    match k with
    | [] => branch c (some v)
    | i :: k => branch (update c i (leaf k v)) w
  | t => t

def insert (v : V) : RadixTree n V → List (Fin n) → RadixTree n V
  | empty, k => leaf k v
  | leaf k₀ w, k =>
    if k₀ = k then leaf k v
    else (hang (k.drop (shared k k₀)) v (leaf (k₀.drop (shared k k₀)) w).split).prepend (k.take (shared k k₀))
  | ext k₀ t, k =>
    if k₀ <+: k then ext k₀ (t.insert v (k.drop k₀.length))
    else (hang (k.drop (shared k k₀)) v (ext (k₀.drop (shared k k₀)) t).split).prepend (k.take (shared k k₀))
  | branch c _, [] => branch c (some v)
  | branch c w, i :: k => branch (update c i ((c i).insert v k)) w

/-- What a leaf or an extension becomes as a branch: there is one way to go on. -/
structure SplitsInto (t : RadixTree n V) (s : Option (Fin n)) (c : Fin n → RadixTree n V) (o : Option V) : Prop where
  eq : t.split = branch c o
  inUse : InUse c o s
  only : ∀ s', InUse c o s' → s' = s
  find : ∀ k, (branch c o).find k = t.find k
  canonical : ∀ i, (c i).Canonical

theorem exists_splitsInto_leaf (k : List (Fin n)) (v : V) : ∃ c o, SplitsInto (leaf k v) k.head? c o := by
  cases k with
  | nil =>
    refine ⟨_, _, rfl, rfl, fun s hs => ?_, fun k => ?_, fun _ => trivial⟩
    · cases s with
      | none => rfl
      | some i => exact absurd rfl hs
    · cases k with
      | nil => rfl
      | cons j k => rfl
  | cons i k =>
    refine ⟨_, _, rfl, ?_, fun s hs => ?_, fun k' => ?_, fun j => ?_⟩
    · rw [List.head?_cons, InUse, update_self]
      nofun
    · cases s with
      | none => cases hs
      | some j =>
        by_contra hne
        exact hs (update_of_ne (fun hji => hne (congrArg some hji)) _ _)
    · cases k' with
      | nil => rfl
      | cons j k' =>
        rw [find_branch_cons, find_leaf]
        by_cases hji : j = i
        · subst hji
          rw [update_self, find_leaf]
          simp only [List.cons.injEq, true_and]
        · rw [update_of_ne hji, find_empty, if_neg fun h => hji (List.cons.inj h).1.symm]
    · by_cases hji : j = i
      · rw [hji, update_self]
        trivial
      · rw [update_of_ne hji]
        trivial

theorem exists_splitsInto_ext (hk : k ≠ []) (ht : t ≠ empty) (h : t.Canonical) :
    ∃ c o, SplitsInto (ext k t) k.head? c o := by
  cases k with
  | nil => exact absurd rfl hk
  | cons i k =>
    refine ⟨_, _, rfl, ?_, fun s hs => ?_, fun k' => ?_, fun j => ?_⟩
    · rw [List.head?_cons, InUse, update_self]
      exact prepend_ne_empty ht k
    · cases s with
      | none => cases hs
      | some j =>
        by_contra hne
        exact hs (update_of_ne (fun hji => hne (congrArg some hji)) _ _)
    · cases k' with
      | nil => rfl
      | cons j k' =>
        rw [find_branch_cons, find_ext, behind_cons]
        by_cases hji : j = i
        · rw [hji, update_self, find_prepend, if_pos rfl]
        · rw [update_of_ne hji, find_empty, if_neg fun h => hji h.symm]
    · by_cases hji : j = i
      · rw [hji, update_self]
        exact h.prepend k
      · rw [update_of_ne hji]
        trivial

theorem find_hang (h : SplitsInto t s c o) (hk : s ≠ k.head?) (k' : List (Fin n)) :
    (hang k v t.split).find k' = if k' = k then some v else t.find k' := by
  rw [h.eq, ← h.find]
  cases k with
  | nil =>
    cases k' with
    | nil => rfl
    | cons j k' => rfl
  | cons i k =>
    cases k' with
    | nil => rfl
    | cons j k' =>
      have hi : c i = empty := by
        by_contra hne
        exact hk (h.only (some i) hne).symm
      rw [hang, find_branch_cons, find_branch_cons]
      by_cases hji : j = i
      · subst hji
        rw [update_self, find_leaf, hi, find_empty]
        simp only [List.cons.injEq, true_and, eq_comm]
      · rw [update_of_ne hji, if_neg fun h => hji (List.cons.inj h).1]

theorem canonical_hang (h : SplitsInto t s c o) (hk : s ≠ k.head?) (v : V) : (hang k v t.split).Canonical := by
  rw [h.eq]
  cases k with
  | nil =>
    refine ⟨⟨none, s, fun hs => hk hs.symm, rfl, ?_⟩, h.canonical⟩
    have hs := h.inUse
    cases s with
    | none => rfl
    | some i => exact hs
  | cons i k =>
    refine ⟨⟨some i, s, fun hs => hk hs.symm, ?_, ?_⟩, fun j => ?_⟩
    · rw [InUse, update_self]
      nofun
    · have hs := h.inUse
      cases s with
      | none => exact hs
      | some j =>
        rw [InUse, update_of_ne fun hji => hk (congrArg some hji)]
        exact hs
    · by_cases hji : j = i
      · rw [hji, update_self]
        trivial
      · rw [update_of_ne hji]
        exact h.canonical j

theorem isBranch_hang (h : SplitsInto t s c o) (k : List (Fin n)) (v : V) : (hang k v t.split).IsBranch := by
  rw [h.eq]
  cases k <;> trivial

/-- The word parts from the leaf's or the extension's own behind the letters that they share. -/
theorem find_part {p k₀ : List (Fin n)} {t' : RadixTree n V} (ht : ∀ k', t'.find (p ++ k') = t.find k')
    (houtside : ∀ k', ¬p <+: k' → t'.find k' = none) (h : SplitsInto t k₀.head? c o) (hk : k₀.head? ≠ k.head?)
    (k' : List (Fin n)) : ((hang k v t.split).prepend p).find k' = if k' = p ++ k then some v else t'.find k' := by
  rw [find_prepend]
  by_cases hp : p <+: k'
  · obtain ⟨r, rfl⟩ := hp
    rw [behind_append, find_hang h hk, ht]
    simp only [append_cancel_left_eq]
  · rw [behind_of_not hp, if_neg, houtside k' hp]
    rintro rfl
    exact hp (prefix_append p k)

/-- Two words that are not one and the same part somewhere. -/
theorem exists_part (k k₀ : List (Fin n)) (h : k₀ ≠ k) : ∃ p r r₀,
    k = p ++ r ∧ k₀ = p ++ r₀ ∧ shared k k₀ = p.length ∧ r₀.head? ≠ r.head? := by
  obtain ⟨p, r, r₀, rfl, rfl, hlen, hhead⟩ := exists_of_shared k k₀
  refine ⟨p, r, r₀, rfl, rfl, hlen, ?_⟩
  rcases hhead with rfl | hhead
  · intro hnil
    rw [List.head?_nil, List.head?_eq_none_iff] at hnil
    exact h (by rw [hnil])
  · exact hhead.symm

theorem find_insert (h : t.Canonical) (v : V) (k k' : List (Fin n)) :
    (t.insert v k).find k' = if k' = k then some v else t.find k' := by
  induction t generalizing k k' with
  | empty =>
    rw [insert, find_leaf, find_empty]
    simp only [eq_comm]
  | leaf k₀ w =>
    rw [insert]
    split
    · rename_i hk
      subst hk
      rw [find_leaf, find_leaf]
      simp only [eq_comm (a := k₀)]
      split <;> rfl
    · rename_i hk
      obtain ⟨p, r, r₀, rfl, rfl, hlen, hhead⟩ := exists_part k k₀ hk
      rw [hlen, drop_left, drop_left, take_left]
      obtain ⟨c, o, hsplit⟩ := exists_splitsInto_leaf r₀ w
      refine find_part (fun k' => ?_) (fun k' hp => ?_) hsplit hhead k'
      · rw [find_leaf_append, behind_append]
      · rw [find_leaf_append, behind_of_not hp]
  | ext k₀ t ih =>
    rw [insert]
    split
    · rename_i hk
      obtain ⟨r, rfl⟩ := hk
      rw [drop_left, find_ext, find_ext]
      by_cases hk' : k₀ <+: k'
      · obtain ⟨r', rfl⟩ := hk'
        rw [behind_append, behind_append, ih h.2.2]
        simp only [append_cancel_left_eq]
      · rw [behind_of_not hk', behind_of_not hk', if_neg]
        rintro rfl
        exact hk' (prefix_append k₀ r)
    · rename_i hk
      obtain ⟨p, r, r₀, rfl, rfl, hlen, hhead⟩ := exists_part k k₀ fun heq => hk (heq ▸ prefix_rfl)
      rw [hlen, drop_left, drop_left, take_left]
      have hr₀ : r₀ ≠ [] := fun hnil => hk (by rw [hnil, append_nil]; exact prefix_append p r)
      obtain ⟨c, o, hsplit⟩ := exists_splitsInto_ext hr₀ h.2.1.ne_empty h.2.2
      refine find_part (fun k' => ?_) (fun k' hp => ?_) hsplit hhead k'
      · rw [find_ext, behind_behind, behind_append]
        rfl
      · rw [find_ext, behind_behind, behind_of_not hp]
  | branch c o ih =>
    cases k with
    | nil =>
      cases k' with
      | nil => rfl
      | cons j k' => rfl
    | cons i k =>
      cases k' with
      | nil => rfl
      | cons j k' =>
        rw [insert, find_branch_cons, find_branch_cons]
        by_cases hji : j = i
        · subst hji
          rw [update_self, ih j (h.2 j)]
          simp only [List.cons.injEq, true_and]
        · rw [update_of_ne hji, if_neg fun heq => hji (List.cons.inj heq).1]

theorem IsBranch.insert (h : t.IsBranch) (v : V) (k : List (Fin n)) : (t.insert v k).IsBranch := by
  obtain ⟨c, o, rfl⟩ := h.exists_eq
  cases k <;> trivial

theorem insert_ne_empty (h : t.Canonical) (v : V) (k : List (Fin n)) : t.insert v k ≠ empty := by
  intro hempty
  have hfind := find_insert h v k k
  rw [if_pos rfl, hempty] at hfind
  cases hfind

theorem Canonical.insert (h : t.Canonical) (v : V) (k : List (Fin n)) : (t.insert v k).Canonical := by
  induction t generalizing k with
  | empty => trivial
  | leaf k₀ w =>
    rw [RadixTree.insert]
    split
    · trivial
    · rename_i hk
      obtain ⟨p, r, r₀, rfl, rfl, hlen, hhead⟩ := exists_part k k₀ hk
      rw [hlen, drop_left, drop_left]
      obtain ⟨c, o, hsplit⟩ := exists_splitsInto_leaf r₀ w
      exact (canonical_hang hsplit hhead v).prepend _
  | ext k₀ t ih =>
    rw [RadixTree.insert]
    split
    · exact ⟨h.1, h.2.1.insert v _, ih h.2.2 _⟩
    · rename_i hk
      obtain ⟨p, r, r₀, rfl, rfl, hlen, hhead⟩ := exists_part k k₀ fun heq => hk (heq ▸ prefix_rfl)
      rw [hlen, drop_left, drop_left]
      have hr₀ : r₀ ≠ [] := fun hnil => hk (by rw [hnil, append_nil]; exact prefix_append p r)
      obtain ⟨c, o, hsplit⟩ := exists_splitsInto_ext hr₀ h.2.1.ne_empty h.2.2
      exact (canonical_hang hsplit hhead v).prepend _
  | branch c o ih =>
    obtain ⟨⟨s, s', hne, hs, hs'⟩, hc⟩ := h
    cases k with
    | nil =>
      refine ⟨⟨s, s', hne, ?_, ?_⟩, hc⟩
      · cases s with
        | none => rfl
        | some i => exact hs
      · cases s' with
        | none => rfl
        | some i => exact hs'
    | cons i k =>
      have hslot : ∀ s, InUse c o s → InUse (update c i ((c i).insert v k)) o s := by
        intro s hs
        cases s with
        | none => exact hs
        | some j =>
          rw [InUse]
          by_cases hji : j = i
          · rw [hji, update_self]
            exact insert_ne_empty (hc i) v k
          · rw [update_of_ne hji]
            exact hs
      refine ⟨⟨s, s', hne, hslot s hs, hslot s' hs'⟩, fun j => ?_⟩
      by_cases hji : j = i
      · rw [hji, update_self]
        exact ih i (hc i) k
      · rw [update_of_ne hji]
        exact hc j

end RadixTree
