import Mathlib.Data.Prod.Lex
import Kmdx.TransactionQueue

/-!
# What the indices of the transaction queue say

As long as every transaction has a sender, the two indices are the elements of `m_current`, nothing is current and
future, and the future transactions are counted (`Indexed`).
-/

namespace Kmdx.TransactionQueue

open Wp QueuedTransaction SearchTree Function List

variable {c : Containers} {T H V : Type}

/-! ### Maps by address and nonce -/

section

variable {m : ByAddressAndNonce V} {a : Address} {k k' : Address × Nat} {n : Nat} {v : V}

theorem lookup_insertNew_of_notMem (h : k ∉ m) : insertNew m k v = m.insert k v := if_neg h

theorem lookup_eraseSlots (ks : List (Address × Nat)) :
    (eraseSlots m ks).lookup k = if k ∈ ks then none else m.lookup k := by
  induction ks generalizing m with
  | nil => rfl
  | cons k' ks ih =>
    rw [eraseSlots, foldl_cons]
    change (eraseSlots (m.erase k') ks).lookup k = _
    rw [ih]
    by_cases hk : k = k'
    · subst hk
      simp [AList.lookup_erase]
    · simp [hk, AList.lookup_erase_ne hk]

theorem length_keys_erase (h : k ∈ m) : (m.erase k).keys.length + 1 = m.keys.length := by
  have hlen := @List.length_erase_of_mem _ instBEqOfDecidableEq _ _ _ (AList.mem_keys.1 h)
  have hpos := length_pos_of_mem (AList.mem_keys.1 h)
  rw [AList.keys_erase, hlen]
  omega

theorem length_keys_insert (h : k ∉ m) : (m.insert k v).keys.length = m.keys.length + 1 := by
  have herase := @List.erase_of_not_mem _ instBEqOfDecidableEq _ _ _ fun hk => h (AList.mem_keys.2 hk)
  rw [AList.keys_insert, length_cons, herase]

theorem length_keys_eraseSlots {ks : List (Address × Nat)} (hks : ks.Nodup) (h : ∀ k ∈ ks, k ∈ m) :
    (eraseSlots m ks).keys.length + ks.length = m.keys.length := by
  induction ks generalizing m with
  | nil => rfl
  | cons k ks ih =>
    rw [nodup_cons] at hks
    have hrest := ih (m := m.erase k) hks.2 fun k' hk' =>
      AList.mem_erase.2 ⟨fun heq => hks.1 (heq ▸ hk'), h k' (mem_cons_of_mem _ hk')⟩
    have hlen := length_keys_erase (h k mem_cons_self)
    rw [eraseSlots, foldl_cons]
    change (eraseSlots (m.erase k) ks).keys.length + _ = _
    rw [length_cons]
    omega

theorem mem_iff_exists_lookup : k ∈ m ↔ ∃ v, m.lookup k = some v := by
  rw [← AList.lookup_isSome, Option.isSome_iff_exists]

theorem mem_entriesOf : (n, v) ∈ entriesOf m a ↔ m.lookup (a, n) = some v := by
  rw [entriesOf, mem_insertionSort, mem_map, ← Option.mem_def, AList.mem_lookup_iff]
  constructor
  · rintro ⟨⟨⟨b, n'⟩, v'⟩, he, heq⟩
    rw [mem_filter, decide_eq_true_eq] at he
    obtain ⟨he, rfl⟩ := he
    cases heq
    exact he
  · intro he
    exact ⟨⟨(a, n), v⟩, mem_filter.2 ⟨he, decide_eq_true rfl⟩, rfl⟩

theorem pairwise_entriesOf : (entriesOf m a).Pairwise fun x y => x.1 < y.1 := by
  have htotal : Std.Total fun x y : Nat × V => x.1 ≤ y.1 := ⟨fun x y => le_total x.1 y.1⟩
  have htrans : IsTrans (Nat × V) fun x y => x.1 ≤ y.1 := ⟨fun x y z => le_trans⟩
  have hle : (entriesOf m a).Pairwise fun x y => x.1 ≤ y.1 := pairwise_insertionSort _ _
  have hne : (entriesOf m a).Pairwise fun x y => x.1 ≠ y.1 := by
    have hkeys : (m.entries.map Sigma.fst).Nodup := m.nodupKeys
    have hfilter : ((m.entries.filter (·.1.1 = a)).map fun e => (e.1.2, e.2)).Pairwise fun x y => x.1 ≠ y.1 := by
      rw [pairwise_map, pairwise_filter]
      refine (pairwise_map.1 hkeys).imp fun {x y} hxy hx hy heq => hxy ?_
      simp only [decide_eq_true_eq] at hx hy
      exact Prod.ext (hx.trans hy.symm) heq
    have hperm := perm_insertionSort (fun x y => x.1 ≤ y.1) ((m.entries.filter (·.1.1 = a)).map fun e => (e.1.2, e.2))
    exact (hperm.symm.pairwise_iff fun h => h.symm).1 hfilter
  exact (hle.and hne).imp fun h => lt_of_le_of_ne h.1 h.2

end

variable {s s' s₁ s₂ : TransactionQueue c T H} {t u : T} {a : Address} {n : Nat}

/-! ### Iterators -/

variable {E : Exn → TransactionQueue c T H → Prop}

theorem wp_liftM {α : Type} {x : Except Exn α} {v : α} {Q : α → TransactionQueue c T H → Prop} (hx : x = .ok v)
    (h : Q v s) : wp (liftM x : M c T H α) Q E s := by
  rw [hx]
  exact h

theorem wp_deref {handle : Option Nat} {Q : T → TransactionQueue c T H → Prop}
    (hs : (s.current.map Prod.fst).Nodup) (hn : handle = some n) (ht : (n, t) ∈ s.current) (h : Q t s) :
    wp (deref handle) Q E s := by
  subst hn
  have hfind : s.current.find? (fun e => some e.1 = some n) = some (n, t) := by
    cases hfound : s.current.find? fun e => some e.1 = some n with
    | none => exact absurd (List.find?_eq_none.1 hfound (n, t) ht) (by simp)
    | some e =>
      have he := List.find?_some hfound
      have hmem := List.mem_of_find?_eq_some hfound
      simp only [decide_eq_true_eq, Option.some.injEq] at he
      rw [inj_on_of_nodup_map hs hmem ht he]
  rw [deref, wp_bind, wp_get, hfind]
  exact h

theorem eraseP_eq_filter {l : List (Nat × T)} (h : (l.map Prod.fst).Nodup) (n : Nat) :
    l.eraseP (fun e => some e.1 = some n) = l.filter fun e => e.1 ≠ n := by
  induction l with
  | nil => rfl
  | cons e l ih =>
    rw [map_cons, nodup_cons] at h
    by_cases he : e.1 = n
    · have hall : ∀ e' ∈ l, decide (e'.1 ≠ n) = true := fun e' he' => by
        rw [decide_eq_true_eq]
        rintro rfl
        exact h.1 (mem_map.2 ⟨e', he', he.symm⟩)
      rw [eraseP_cons_of_pos (by simpa using he), filter_cons_of_neg (by simpa using he), filter_eq_self.2 hall]
    · rw [eraseP_cons_of_neg (by simpa using he), filter_cons_of_pos (by simpa using he), ih h.2]

theorem wp_eraseHandle {handle : Option Nat} {Q : Unit → TransactionQueue c T H → Prop}
    (hs : (s.current.map Prod.fst).Nodup) (hn : handle = some n)
    (ht : (n, t) ∈ s.current) (h : ∀ shape, Q () { s with current := s.current.filter fun e => e.1 ≠ n, shape }) :
    wp (eraseHandle handle) Q E s := by
  subst hn
  have herase : s.current.eraseP (fun e => some e.1 = some n) = _ := eraseP_eq_eraseIdx
  rw [eraseP_eq_filter hs] at herase
  rw [eraseHandle, wp_bind, wp_get]
  cases hfind : s.current.findIdx? fun e => some e.1 = some n with
  | none => exact absurd (List.findIdx?_eq_none_iff.1 hfind (n, t) ht) (by simp)
  | some i =>
    rw [hfind] at herase
    rw [wp_set]
    dsimp only at herase ⊢
    rw [← herase]
    exact h _

/-! ### The order -/

theorem lowest_eq_some_iff : s.lowest a = some n ↔
    (a, n) ∈ s.currentByAddressAndNonce ∧ ∀ n', (a, n') ∈ s.currentByAddressAndNonce → n ≤ n' := by
  have hmem : ∀ n, (a, n) ∈ s.currentByAddressAndNonce ↔ ∃ v, (n, v) ∈ entriesOf s.currentByAddressAndNonce a := fun n => by
    simp only [mem_entriesOf, mem_iff_exists_lookup]
  have hsorted := pairwise_entriesOf (m := s.currentByAddressAndNonce) (a := a)
  simp only [hmem]
  rw [lowest]
  cases hentries : entriesOf s.currentByAddressAndNonce a with
  | nil => simp
  | cons e l =>
    rw [hentries, pairwise_cons] at hsorted
    simp only [List.head?_cons, Option.map_some, Option.some.injEq, mem_cons]
    constructor
    · rintro rfl
      refine ⟨⟨e.2, .inl rfl⟩, ?_⟩
      rintro n' ⟨v, rfl | hv⟩
      · exact le_rfl
      · exact (hsorted.1 _ hv).le
    · rintro ⟨⟨v, hv⟩, hle⟩
      have hle' := hle e.1 ⟨e.2, .inl rfl⟩
      rcases hv with rfl | hv
      · rfl
      · exact absurd (hsorted.1 _ hv) (not_lt.2 hle')

/-- The slots that there are, and not what they point to. -/
theorem lowest_congr (h : ∀ n, (a, n) ∈ s.currentByAddressAndNonce ↔ (a, n) ∈ s'.currentByAddressAndNonce) :
    s.lowest a = s'.lowest a := by
  refine Option.ext fun n => ?_
  rw [lowest_eq_some_iff, lowest_eq_some_iff]
  simp only [h]

theorem isSome_lowest (h : (a, n) ∈ s.currentByAddressAndNonce) : (s.lowest a).isSome := by
  cases hlow : s.lowest a with
  | some n' => rfl
  | none =>
    obtain ⟨v, hv⟩ := mem_iff_exists_lookup.1 h
    rw [← mem_entriesOf] at hv
    rw [lowest, Option.map_eq_none_iff, List.head?_eq_none_iff] at hlow
    rw [hlow] at hv
    cases hv

variable [QueuedTransaction T H]

/-- Where a transaction stands in the order: its nonce height, then the higher gas price first. -/
def rank (s : TransactionQueue c T H) (t : T) : Nat ×ₗ Natᵒᵈ :=
  toLex ((nonce t + 2 ^ 256 - (s.lowest (sender' t)).getD 0) % 2 ^ 256, OrderDual.toDual (gasPrice t))

/-- A transaction that can be compared with others. -/
structure Comparable (s : TransactionQueue c T H) (t : T) : Prop where
  sender : (sender t).isSome
  slot : slot t ∈ s.currentByAddressAndNonce

theorem height_eq (h : Comparable s t) :
    s.height t = .ok ((nonce t + 2 ^ 256 - (s.lowest (sender' t)).getD 0) % 2 ^ 256) := by
  obtain ⟨a, ha⟩ := Option.isSome_iff_exists.1 h.sender
  obtain ⟨n, hn⟩ := Option.isSome_iff_exists.1 (isSome_lowest h.slot)
  have hsender : sender' t = a := by rw [sender', ha, Option.getD_some]
  rw [hsender] at hn
  simp only [height, ha, hn, hsender, Option.getD_some]

theorem priorityCompare_eq (ht : Comparable s t) (hu : Comparable s u) :
    s.priorityCompare t u = .ok (decide (s.rank t < s.rank u)) := by
  rw [priorityCompare, height_eq ht, height_eq hu]
  simp only [rank, Prod.Lex.toLex_lt_toLex, OrderDual.toDual_lt_toDual]
  rfl

/-! ### The current transactions -/

/-- The indices are the elements of `m_current`. -/
structure CurrentOk (s : TransactionQueue c T H) : Prop where
  nodes : (s.current.map Prod.fst).Nodup
  fresh : ∀ e ∈ s.current, e.1 < s.next
  sender : ∀ e ∈ s.current, (sender e.2).isSome
  byHash : ∀ h n, s.currentByHash h = some n ↔ ∃ t, (n, t) ∈ s.current ∧ digest t = h
  bySlot : ∀ k i, s.currentByAddressAndNonce.lookup k = some i ↔ ∃ n t, i = some n ∧ (n, t) ∈ s.current ∧ slot t = k

/-- `t` is an element of `m_current`. -/
def IsCurrent (s : TransactionQueue c T H) (t : T) : Prop := ∃ n, (n, t) ∈ s.current

namespace CurrentOk

theorem mem_slots (h : CurrentOk s) {k : Address × Nat} :
    k ∈ s.currentByAddressAndNonce ↔ ∃ t, IsCurrent s t ∧ slot t = k := by
  rw [mem_iff_exists_lookup]
  simp only [h.bySlot]
  constructor
  · rintro ⟨_, n, t, rfl, ht, hk⟩
    exact ⟨t, ⟨n, ht⟩, hk⟩
  · rintro ⟨t, ⟨n, ht⟩, hk⟩
    exact ⟨some n, n, t, rfl, ht, hk⟩

theorem eq_of_slot (h : CurrentOk s) {n n' : Nat} (ht : (n, t) ∈ s.current) (hu : (n', u) ∈ s.current)
    (heq : slot t = slot u) : n = n' ∧ t = u := by
  have hlookup := (h.bySlot (slot t) (some n)).2 ⟨n, t, rfl, ht, rfl⟩
  rw [heq, (h.bySlot (slot u) (some n')).2 ⟨n', u, rfl, hu, rfl⟩] at hlookup
  cases hlookup
  have heq' := inj_on_of_nodup_map h.nodes ht hu rfl
  exact ⟨rfl, congrArg Prod.snd heq'⟩

theorem comparable (h : CurrentOk s) {e : Nat × T} (he : e ∈ s.current) : Comparable s e.2 :=
  ⟨h.sender e he, h.mem_slots.2 ⟨e.2, ⟨e.1, he⟩, rfl⟩⟩

theorem currentByHash_eq_none_iff (h : CurrentOk s) : s.currentByHash (digest t) = none ↔ ¬ IsCurrent s t := by
  rw [Option.eq_none_iff_forall_ne_some]
  constructor
  · rintro hne ⟨n, ht⟩
    exact hne n ((h.byHash _ n).2 ⟨t, ht, rfl⟩)
  · intro hnot n hn
    obtain ⟨u, hu, heq⟩ := (h.byHash _ n).1 hn
    exact hnot ⟨n, QueuedTransaction.digest_injective heq ▸ hu⟩

end CurrentOk

/-- What the search ends with, where the transactions can be compared. -/
theorem wp_emplace {Q : Nat → TransactionQueue c T H → Prop} (ht : Comparable s t)
    (hs : ∀ e ∈ s.current, Comparable s e.2)
    (h : ∀ i shape, Places (s.current.map fun e => decide (s.rank t < s.rank e.2)) i →
      Q s.next { s with current := s.current.take i ++ (s.next, t) :: s.current.drop i, shape, next := s.next + 1 }) :
    wp (emplace t) Q E s := by
  have hcompare : (s.current.map fun e => s.priorityCompare t e.2) =
      (s.current.map fun e => decide (s.rank t < s.rank e.2)).map .ok := by
    rw [map_map]
    exact map_congr_left fun e he => priorityCompare_eq ht (hs e he)
  obtain ⟨i, shape, hinsert, hplaces⟩ := c.tree.insert_ok s.shape (s.current.map fun e => decide (s.rank t < s.rank e.2))
  rw [emplace, wp_bind, wp_get, wp_bind, hcompare]
  exact wp_liftM hinsert (h i shape hplaces)

variable [DecidableEq H]

/-- A transaction is put where the search for it ends, with its entries in the indices. -/
structure Added (t : T) (s s' : TransactionQueue c T H) : Prop where
  place : ∃ i, s'.current = s.current.take i ++ (s.next, t) :: s.current.drop i ∧
    Places (s.current.map fun e => decide (s'.rank t < s'.rank e.2)) i
  state : ∃ shape, s' = { s with
    current := s'.current, shape, next := s.next + 1
    currentByAddressAndNonce := s.currentByAddressAndNonce.insert (slot t) (some s.next)
    currentByHash := update s.currentByHash (digest t) (some s.next) }

namespace Added

theorem perm (h : Added t s s') : s'.current.Perm ((s.next, t) :: s.current) := by
  obtain ⟨i, hi, -⟩ := h.place
  rw [hi]
  have hsplit := take_append_drop i s.current
  exact perm_middle.trans (by rw [hsplit])

theorem mem_iff (h : Added t s s') {e : Nat × T} : e ∈ s'.current ↔ e = (s.next, t) ∨ e ∈ s.current := by
  rw [h.perm.mem_iff, mem_cons]

theorem isCurrent_iff (h : Added t s s') : IsCurrent s' u ↔ u = t ∨ IsCurrent s u := by
  simp only [IsCurrent, h.mem_iff, Prod.mk.injEq, exists_or]
  simp

theorem currentOk (h : Added t s s') (hs : CurrentOk s) (hsender : (sender t).isSome)
    (hslot : slot t ∉ s.currentByAddressAndNonce) : CurrentOk s' := by
  have hnot : ¬ IsCurrent s t := fun ht => hslot (hs.mem_slots.2 ⟨t, ht, rfl⟩)
  obtain ⟨shape, hstate⟩ := h.state
  have hslots : s'.currentByAddressAndNonce = s.currentByAddressAndNonce.insert (slot t) (some s.next) := by rw [hstate]
  have hhash : s'.currentByHash = update s.currentByHash (digest t) (some s.next) := by rw [hstate]
  have hnext : s'.next = s.next + 1 := by rw [hstate]
  have hfresh : ∀ u, (s.next, u) ∉ s.current := fun u hu => lt_irrefl _ (hs.fresh _ hu)
  refine ⟨?_, fun e he => ?_, fun e he => ?_, fun hash n => ?_, fun k i => ?_⟩
  · rw [(h.perm.map Prod.fst).nodup_iff, map_cons, nodup_cons]
    refine ⟨fun hmem => ?_, hs.nodes⟩
    obtain ⟨e, he, heq⟩ := mem_map.1 hmem
    change e.1 = s.next at heq
    exact hfresh e.2 (heq ▸ he)
  · rw [hnext]
    rcases h.mem_iff.1 he with rfl | he
    · exact Nat.lt_succ_self _
    · exact (hs.fresh e he).trans (Nat.lt_succ_self _)
  · rcases h.mem_iff.1 he with rfl | he
    · exact hsender
    · exact hs.sender e he
  · rw [hhash]
    by_cases heq : hash = digest t
    · subst heq
      rw [update_self, Option.some.injEq]
      constructor
      · rintro rfl
        exact ⟨t, h.mem_iff.2 (.inl rfl), rfl⟩
      · rintro ⟨u, hu, heq⟩
        rcases h.mem_iff.1 hu with hu | hu
        · exact (congrArg Prod.fst hu).symm
        · exact absurd ⟨n, QueuedTransaction.digest_injective heq ▸ hu⟩ hnot
    · rw [update_of_ne heq, hs.byHash]
      simp only [h.mem_iff, Prod.mk.injEq]
      refine exists_congr fun u => and_congr_left fun hu => ⟨.inr, fun hor => hor.resolve_left ?_⟩
      rintro ⟨-, rfl⟩
      exact heq hu.symm
  · rw [hslots]
    by_cases heq : k = slot t
    · subst heq
      rw [AList.lookup_insert, Option.some.injEq]
      constructor
      · rintro rfl
        exact ⟨s.next, t, rfl, h.mem_iff.2 (.inl rfl), rfl⟩
      · rintro ⟨n, u, rfl, hu, hk⟩
        rcases h.mem_iff.1 hu with hu | hu
        · cases hu
          rfl
        · exact absurd (hs.mem_slots.2 ⟨u, ⟨n, hu⟩, hk⟩) hslot
    · rw [AList.lookup_insert_ne heq, hs.bySlot]
      simp only [h.mem_iff, Prod.mk.injEq]
      refine exists_congr fun n => exists_congr fun u => and_congr_right fun _ => and_congr_left fun hu =>
        ⟨.inr, fun hor => hor.resolve_left ?_⟩
      rintro ⟨-, rfl⟩
      exact heq hu.symm

end Added

/-- A transaction is taken out, with its entries in the indices. -/
def Removed (n : Nat) (t : T) (s s' : TransactionQueue c T H) : Prop :=
  (n, t) ∈ s.current ∧ ∃ shape, s' = { s with
    current := s.current.filter fun e => e.1 ≠ n
    shape
    currentByAddressAndNonce := s.currentByAddressAndNonce.erase (slot t)
    currentByHash := update s.currentByHash (digest t) none
    known := s.known.erase (digest t) }

namespace Removed

theorem mem_iff (h : Removed n t s s') {e : Nat × T} : e ∈ s'.current ↔ e ∈ s.current ∧ e.1 ≠ n := by
  obtain ⟨-, shape, hstate⟩ := h
  have hcurrent : s'.current = s.current.filter fun e => e.1 ≠ n := by rw [hstate]
  rw [hcurrent, mem_filter, decide_eq_true_eq]

theorem isCurrent_iff (h : Removed n t s s') (hs : CurrentOk s) : IsCurrent s' u ↔ IsCurrent s u ∧ u ≠ t := by
  simp only [IsCurrent, h.mem_iff]
  constructor
  · rintro ⟨n', hu, hne⟩
    refine ⟨⟨n', hu⟩, ?_⟩
    rintro rfl
    exact hne (hs.eq_of_slot hu h.1 rfl).1
  · rintro ⟨⟨n', hu⟩, hne⟩
    refine ⟨n', hu, ?_⟩
    rintro rfl
    exact hne (congrArg Prod.snd (inj_on_of_nodup_map hs.nodes hu h.1 rfl))

theorem currentOk (h : Removed n t s s') (hs : CurrentOk s) : CurrentOk s' := by
  have hmem : ∀ {e : Nat × T}, e ∈ s'.current ↔ e ∈ s.current ∧ e.1 ≠ n := h.mem_iff
  obtain ⟨ht, shape, hstate⟩ := h
  have hcurrent : s'.current = s.current.filter fun e => e.1 ≠ n := by rw [hstate]
  have hnext : s'.next = s.next := by rw [hstate]
  have hslots : s'.currentByAddressAndNonce = s.currentByAddressAndNonce.erase (slot t) := by rw [hstate]
  have hhash : s'.currentByHash = update s.currentByHash (digest t) none := by rw [hstate]
  -- Another transaction has another number.
  have hother : ∀ {n' : Nat} {u : T}, (n', u) ∈ s.current → u ≠ t → n' ≠ n := by
    rintro n' u hu hne rfl
    exact hne (congrArg Prod.snd (inj_on_of_nodup_map hs.nodes hu ht rfl))
  refine ⟨?_, fun e he => ?_, fun e he => hs.sender e (hmem.1 he).1, fun hash n' => ?_, fun k i => ?_⟩
  · rw [hcurrent]
    exact hs.nodes.sublist (filter_sublist.map Prod.fst)
  · rw [hnext]
    exact hs.fresh e (hmem.1 he).1
  · rw [hhash]
    by_cases heq : hash = digest t
    · rw [heq, update_self]
      refine ⟨nofun, ?_⟩
      rintro ⟨u, hu, heq⟩
      obtain ⟨hu, hne⟩ := hmem.1 hu
      exact absurd (hs.eq_of_slot hu ht (congrArg slot (QueuedTransaction.digest_injective heq))).1 hne
    · rw [update_of_ne heq, hs.byHash]
      refine exists_congr fun u => and_congr_left fun hu =>
        ⟨fun hu' => hmem.2 ⟨hu', hother hu' ?_⟩, fun hu' => (hmem.1 hu').1⟩
      rintro rfl
      exact heq hu.symm
  · rw [hslots]
    by_cases heq : k = slot t
    · rw [heq, AList.lookup_erase]
      refine ⟨nofun, ?_⟩
      rintro ⟨n', u, -, hu, hk⟩
      obtain ⟨hu, hne⟩ := hmem.1 hu
      exact absurd (hs.eq_of_slot hu ht hk).1 hne
    · rw [AList.lookup_erase_ne heq, hs.bySlot]
      refine exists_congr fun n' => exists_congr fun u => and_congr_right fun _ => and_congr_left fun hu =>
        ⟨fun hu' => hmem.2 ⟨hu', hother hu' ?_⟩, fun hu' => (hmem.1 hu').1⟩
      rintro rfl
      exact heq hu.symm

end Removed

/-! ### What the lines of the program do -/

theorem wp_addCurrent {Q : Unit → TransactionQueue c T H → Prop} (hs : CurrentOk s)
    (hsender : (sender t).isSome) (hslot : slot t ∉ s.currentByAddressAndNonce) (h : ∀ s', Added t s s' → Q () s') :
    wp (addCurrent t) Q E s := by
  have hmem : ∀ {i : Option Nat} {k : Address × Nat}, k ∈ s.currentByAddressAndNonce.insert (slot t) i ↔
      k = slot t ∨ k ∈ s.currentByAddressAndNonce := AList.mem_insert _
  have hcomparable : ∀ {u : T}, (sender u).isSome → slot u = slot t ∨ slot u ∈ s.currentByAddressAndNonce →
      Comparable { s with currentByAddressAndNonce := s.currentByAddressAndNonce.insert (slot t) none } u :=
    fun hu hk => ⟨hu, hmem.2 hk⟩
  rw [addCurrent, wp_bind, wp_modify, lookup_insertNew_of_notMem hslot, wp_bind]
  refine wp_emplace (hcomparable hsender (.inl rfl))
    (fun e he => hcomparable (hs.sender e he) (.inr (hs.comparable he).slot)) fun i shape hplaces => ?_
  rw [wp_modify, AList.insert_insert]
  refine h _ ⟨⟨i, rfl, ?_⟩, shape, rfl⟩
  -- What a slot points to does not matter.
  have hrank : ∀ u : T,
      rank { s with currentByAddressAndNonce := s.currentByAddressAndNonce.insert (slot t) none } u =
        rank { s with
          current := s.current.take i ++ (s.next, t) :: s.current.drop i
          shape, next := s.next + 1
          currentByAddressAndNonce := s.currentByAddressAndNonce.insert (slot t) (some s.next)
          currentByHash := update s.currentByHash (digest t) (some s.next) } u := by
    intro u
    rw [rank, rank, lowest_congr]
    exact fun n => hmem.trans hmem.symm
  simp only [hrank] at hplaces
  exact hplaces

theorem wp_remove (hs : CurrentOk s) (h : H) {Q : Bool → TransactionQueue c T H → Prop}
    (hfalse : s.currentByHash h = none → Q false s)
    (htrue : ∀ n t s', digest t = h → Removed n t s s' → Q true s') : wp (remove h) Q E s := by
  rw [remove, wp_bind, wp_get]
  cases hhash : s.currentByHash h with
  | none => exact hfalse hhash
  | some n =>
    obtain ⟨t, ht, rfl⟩ := (hs.byHash h n).1 hhash
    have hentries : (entriesOf s.currentByAddressAndNonce (sender' t)).isEmpty = false := by
      have hlookup := (hs.bySlot (slot t) (some n)).2 ⟨n, t, rfl, ht, rfl⟩
      have hmem := mem_entriesOf.2 hlookup
      rw [← Bool.not_eq_true, List.isEmpty_iff]
      rintro hnil
      rw [hnil] at hmem
      cases hmem
    dsimp only
    rw [wp_bind]
    refine wp_deref hs.nodes rfl ht ?_
    rw [wp_bind, wp_get, hentries, wp_ite, if_neg (by simp), wp_bind, wp_modify, wp_bind]
    refine wp_eraseHandle hs.nodes rfl ht fun shape => ?_
    exact htrue n t _ rfl ⟨ht, shape, rfl⟩

end Kmdx.TransactionQueue
