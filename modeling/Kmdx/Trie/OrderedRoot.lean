import Kmdx.Rlp.RoundTrip
import Kmdx.Trie.TrieHash

/-!
# The root of a list (`orderedTrieRoot`)

The roots of the transactions and of the receipts of a block are the root of the map from the RLP of the places of
the list to what is there. Two tries with one root are the same trie, or among their nodes are two with one hash
(`Collide`, `eq_of_hashOf_item`); so the root of a list tells the list (`ordered_root_binds`).
-/

namespace Kmdx.Trie

open Rlp RadixTree Function List

/-! ### The functions -/

/-- `_map[k] = v`, of the entries in the order of their keys -/
def mapSet (k v : Bytes) : List (Bytes × Bytes) → List (Bytes × Bytes)
  | [] => [(k, v)]
  | e :: es => if k < e.1 then (k, v) :: e :: es else if k = e.1 then (k, v) :: es else e :: mapSet k v es

/-- The loop over `_data`: `j` is an `unsigned`. -/
def orderedMap : Nat → List Bytes → List (Bytes × Bytes) → List (Bytes × Bytes)
  | _, [], m => m
  | j, i :: data, m => orderedMap (j + 1) data (mapSet (Rlp.nat (j % 2 ^ 32)) i m)

def orderedTrieRoot [Sha3] (data : List Bytes) : Option H256 := hash256 (orderedMap 0 data [])

/-! ### Nodes -/

theorem twoItems_inj {leaf leaf' : Bool} {k k' : List Nibble} {x x' : Tree} (h : twoItems leaf k x = twoItems leaf' k' x') :
    leaf = leaf' ∧ k = k' ∧ x = x' := by
  have hleft := isTwo_of_eq (r := .of (some (.list (twoItems leaf k x)))) rfl
  have hright := isTwo_of_eq (r := .of (some (.list (twoItems leaf' k' x')))) rfl
  rw [← h] at hright
  refine ⟨hleft.isLeaf.symm.trans hright.isLeaf, hleft.key.symm.trans hright.key, ?_⟩
  exact head_eq_of_cons_eq (tail_eq_of_cons_eq h)

theorem branchItems_inj {f f' : Nibble → Tree} {x x' : Tree} (h : branchItems f x = branchItems f' x') : f = f' ∧ x = x' := by
  refine ⟨funext fun i => ?_, ?_⟩
  · have hi := getElem?_branchItems f x i
    rw [h, getElem?_branchItems] at hi
    exact (Option.some.inj hi).symm
  · have hlast := getElem?_branchItems_last f x
    rw [h, getElem?_branchItems_last] at hlast
    exact (Option.some.inj hlast).symm

theorem twoItems_ne_branchItems {leaf : Bool} {k : List Nibble} {x y : Tree} {f : Nibble → Tree} :
    twoItems leaf k x ≠ branchItems f y := by
  intro h
  have hlen := congrArg List.length h
  rw [length_branchItems] at hlen
  cases hlen

theorem getD_injective {o o' : Option Bytes} (ho : o ≠ some []) (ho' : o' ≠ some []) (h : o.getD [] = o'.getD []) :
    o = o' := by
  cases o with
  | none =>
    cases o' with
    | none => rfl
    | some v => exact absurd (congrArg some h.symm) ho'
  | some v =>
    cases o' with
    | none => exact absurd (congrArg some h) ho
    | some v' => exact congrArg some h

section
variable [Sha3] {t t' : RadixTree 16 Bytes} {c c' : Nibble → RadixTree 16 Bytes} {o : Option Bytes}
    {k : List Nibble} {v : Bytes}

/-- The nodes of a tree, root first -/
def nodes : RadixTree 16 Bytes → List Tree
  | .empty => [item .empty]
  | .leaf k v => [item (.leaf k v)]
  | .ext k t => item (.ext k t) :: nodes t
  | .branch c o => item (.branch c o) :: (List.finRange 16).flatMap fun i => nodes (c i)

theorem item_mem_nodes (t : RadixTree 16 Bytes) : item t ∈ nodes t := by
  cases t <;> exact mem_cons_self

theorem nodes_ext_subset (k : List Nibble) (t : RadixTree 16 Bytes) : nodes t ⊆ nodes (.ext k t) := subset_cons_self _ _

theorem nodes_child_subset (c : Nibble → RadixTree 16 Bytes) (o : Option Bytes) (i : Nibble) :
    nodes (c i) ⊆ nodes (.branch c o) :=
  fun _ hn => mem_cons_of_mem _ (mem_flatMap.2 ⟨i, mem_finRange i, hn⟩)

/-- Two nodes with one hash -/
def Collide (t t' : RadixTree 16 Bytes) : Prop := ∃ n ∈ nodes t, ∃ n' ∈ nodes t', n ≠ n' ∧ hashOf n = hashOf n'

theorem Collide.mono {u u' : RadixTree 16 Bytes} (h : Collide t t') (hu : nodes t ⊆ nodes u)
    (hu' : nodes t' ⊆ nodes u') : Collide u u' :=
  let ⟨n, hn, n', hn', hne, hhash⟩ := h
  ⟨n, hu hn, n', hu' hn', hne, hhash⟩

theorem item_eq_or_collide (h : hashOf (item t) = hashOf (item t')) : item t = item t' ∨ Collide t t' :=
  or_iff_not_imp_left.2 fun hne => ⟨_, item_mem_nodes t, _, item_mem_nodes t', hne, h⟩

/-- A hash is longer than the string that stands for nothing, and no list. -/
theorem ref_item_ne_hash (hlen : (item t).encode.length < 32) (h : H256) : item t ≠ .data h.1 := by
  by_cases ht : t = .empty
  · subst ht
    rw [item, rlpNull]
    intro heq
    have hlength := congrArg List.length (Tree.data.inj heq)
    rw [h.2] at hlength
    cases hlength
  · obtain ⟨ts, -, hitem⟩ := exists_item_eq ht
    rw [hitem]
    exact Tree.noConfusion

theorem eq_of_ref (h : ref (item t) = ref (item t')) : item t = item t' ∨ Collide t t' := by
  by_cases hlen : (item t).encode.length < 32
  · by_cases hlen' : (item t').encode.length < 32
    · rw [ref, ref, if_pos hlen, if_pos hlen'] at h
      exact .inl h
    · rw [ref, ref, if_pos hlen, if_neg hlen'] at h
      exact absurd h (ref_item_ne_hash hlen _)
  · by_cases hlen' : (item t').encode.length < 32
    · rw [ref, ref, if_neg hlen, if_pos hlen'] at h
      exact absurd h.symm (ref_item_ne_hash hlen' _)
    · rw [ref, ref, if_neg hlen, if_neg hlen'] at h
      exact item_eq_or_collide (Subtype.ext (Tree.data.inj h))

/-- The root node tells the tree, unless two of the nodes behind it have one hash. By induction on the tree: what a node
refers to is a node, or the hash of one. -/
theorem eq_of_item (hv : ValuedBranches t) (hv' : ValuedBranches t') (h : item t = item t') : t = t' ∨ Collide t t' := by
  induction t generalizing t' with
  | empty =>
    cases t' with
    | empty => exact .inl rfl
    | _ => cases h
  | leaf k v =>
    cases t' with
    | empty => cases h
    | leaf k' v' =>
      obtain ⟨-, rfl, hdata⟩ := twoItems_inj (Tree.list.inj h)
      rw [Tree.data.inj hdata]
      exact .inl rfl
    | ext k' t' => exact absurd (twoItems_inj (Tree.list.inj h)).1.symm Bool.false_ne_true
    | branch c' o' => exact absurd (Tree.list.inj h) twoItems_ne_branchItems
  | ext k t ih =>
    cases t' with
    | empty => cases h
    | leaf k' v' => exact absurd (twoItems_inj (Tree.list.inj h)).1 Bool.false_ne_true
    | ext k' t' =>
      obtain ⟨-, rfl, href⟩ := twoItems_inj (Tree.list.inj h)
      have hbehind : ValuedBranches t' := hv'
      rcases eq_of_ref href with hitem | hcollide
      · rcases ih hv hbehind hitem with rfl | hcollide
        · exact .inl rfl
        · exact .inr (hcollide.mono (nodes_ext_subset _ _) (nodes_ext_subset _ _))
      · exact .inr (hcollide.mono (nodes_ext_subset _ _) (nodes_ext_subset _ _))
    | branch c' o' => exact absurd (Tree.list.inj h) twoItems_ne_branchItems
  | branch c o ih =>
    cases t' with
    | empty => cases h
    | leaf k' v' => exact absurd (Tree.list.inj h).symm twoItems_ne_branchItems
    | ext k' t' => exact absurd (Tree.list.inj h).symm twoItems_ne_branchItems
    | branch c' o' =>
      obtain ⟨hrefs, hvalue⟩ := branchItems_inj (Tree.list.inj h)
      have hchild : ∀ i, c i = c' i ∨ Collide (c i) (c' i) := fun i =>
        (eq_of_ref (congrFun hrefs i)).elim (ih i (hv.2 i) (hv'.2 i)) .inr
      by_cases hall : ∀ i, c i = c' i
      · rw [getD_injective hv.1 hv'.1 (Tree.data.inj hvalue), funext hall]
        exact .inl rfl
      · obtain ⟨i, hi⟩ := not_forall.1 hall
        exact .inr (((hchild i).resolve_left hi).mono (nodes_child_subset c o i) (nodes_child_subset c' o' i))

theorem eq_of_hashOf_item (hv : ValuedBranches t) (hv' : ValuedBranches t') (h : hashOf (item t) = hashOf (item t')) :
    t = t' ∨ Collide t t' := (item_eq_or_collide h).elim (eq_of_item hv hv') .inr

end

/-! ### The map of a list -/

variable {s : List (Bytes × Bytes)} {m : Contents} {t : RadixTree 16 Bytes} {data : List Bytes} {i j : Nat} {k v : Bytes}

theorem lt_of_not_lt {k k' : Bytes} (h : ¬k < k') (hne : k ≠ k') : k' < k := (List.le_iff_lt_or_eq.1 h).resolve_right hne.symm

theorem mem_mapSet (hs : s.Pairwise fun d d' => d.1 < d'.1) (k v k' v' : Bytes) :
    (k', v') ∈ mapSet k v s ↔ k' = k ∧ v' = v ∨ k' ≠ k ∧ (k', v') ∈ s := by
  induction s with
  | nil => simp [mapSet]
  | cons e es ih =>
    obtain ⟨hlt, hes⟩ := pairwise_cons.1 hs
    rw [mapSet]
    split
    · rename_i hk
      have hother : (k', v') ∈ e :: es → k' ≠ k := by
        rintro hmem rfl
        rcases mem_cons.1 hmem with rfl | hmem
        · exact List.lt_irrefl _ hk
        · exact List.lt_irrefl _ (List.lt_trans hk (hlt _ hmem))
      rw [mem_cons, Prod.mk.injEq]
      exact or_congr_right ⟨fun hmem => ⟨hother hmem, hmem⟩, And.right⟩
    · split
      · rename_i hk
        have hother : (k', v') ∈ es → k' ≠ k := by
          rintro hmem rfl
          rw [hk] at hmem
          exact List.lt_irrefl e.1 (hlt (e.1, v') hmem)
        have hhead : k' ≠ k → (k', v') ≠ e := fun hne he => hne (by rw [hk, ← he])
        rw [mem_cons, Prod.mk.injEq, mem_cons]
        exact or_congr_right ⟨fun hmem => ⟨hother hmem, .inr hmem⟩, fun ⟨hne, hmem⟩ => hmem.resolve_left (hhead hne)⟩
      · rename_i hk hne
        have hhead : (k', v') = e → k' ≠ k := by
          rintro rfl rfl
          exact hne rfl
        rw [mem_cons, ih hes, mem_cons]
        constructor
        · rintro (he | h | ⟨hne', hmem⟩)
          · exact .inr ⟨hhead he, .inl he⟩
          · exact .inl h
          · exact .inr ⟨hne', .inr hmem⟩
        · rintro (h | ⟨hne', he | hmem⟩)
          · exact .inr (.inl h)
          · exact .inl he
          · exact .inr (.inr ⟨hne', hmem⟩)

theorem pairwise_mapSet (hs : s.Pairwise fun d d' => d.1 < d'.1) (k v : Bytes) :
    (mapSet k v s).Pairwise fun d d' => d.1 < d'.1 := by
  induction s with
  | nil => exact pairwise_singleton _ _
  | cons e es ih =>
    obtain ⟨hlt, hes⟩ := pairwise_cons.1 hs
    rw [mapSet]
    split
    · rename_i hk
      refine pairwise_cons.2 ⟨fun d hd => ?_, hs⟩
      rcases mem_cons.1 hd with rfl | hd
      · exact hk
      · exact List.lt_trans hk (hlt d hd)
    · split
      · rename_i hk
        exact pairwise_cons.2 ⟨fun d hd => by rw [hk]; exact hlt d hd, hes⟩
      · rename_i hk hne
        refine pairwise_cons.2 ⟨fun d hd => ?_, ih hes⟩
        rcases (mem_mapSet hes k v d.1 d.2).1 hd with ⟨heq, -⟩ | ⟨-, hd⟩
        · rw [heq]
          exact lt_of_not_lt hk hne
        · exact hlt d hd

theorem Lists.set (h : Lists s m) (k v : Bytes) : Lists (mapSet k v s) (update m k (some v)) where
  sorted := pairwise_mapSet h.sorted k v
  mem k' v' := by
    rw [mem_mapSet h.sorted]
    by_cases hk : k' = k
    · subst hk
      rw [update_self, Option.some_inj]
      simp [eq_comm]
    · rw [update_of_ne hk, ← h.mem]
      simp [hk]

/-- What the list maps the RLP of its places to, and what was there before -/
def orderedContents : Nat → List Bytes → Contents → Contents
  | _, [], m => m
  | j, i :: data, m => orderedContents (j + 1) data (update m (Rlp.nat (j % 2 ^ 32)) (some i))

/-- The trie with the same entries -/
def orderedTrie : Nat → List Bytes → RadixTree 16 Bytes → RadixTree 16 Bytes
  | _, [], t => t
  | j, i :: data, t => orderedTrie (j + 1) data (t.insert i (nibbles (Rlp.nat (j % 2 ^ 32))))

theorem lists_orderedMap (h : Lists s m) (j : Nat) (data : List Bytes) :
    Lists (orderedMap j data s) (orderedContents j data m) := by
  induction data generalizing j s m with
  | nil => exact h
  | cons i data ih => exact ih (h.set _ _) (j + 1)

theorem represents_orderedTrie (h : Represents t m) (ht : t.Canonical) (j : Nat) (data : List Bytes) :
    (orderedTrie j data t).Canonical ∧ Represents (orderedTrie j data t) (orderedContents j data m) := by
  induction data generalizing j t m with
  | nil => exact ⟨ht, h⟩
  | cons i data ih => exact ih (h.insert ht _ _) (ht.insert _ _) (j + 1)

/-! ### The keys -/

theorem isItem_nat (h : i < 2 ^ 32) : IsItem (Rlp.nat i) := by
  have hlen : (compact i).length ≤ 4 := length_compact_le_iff.2 (by simpa using h)
  exact .data _ (hlen.trans_lt (by decide))

theorem nat_injective (h : i < 2 ^ 32) (h' : j < 2 ^ 32) (heq : Rlp.nat i = Rlp.nat j) : i = j := by
  have hlen : ∀ {n}, n < 2 ^ 32 → (compact n).length < lengthLimit := fun hn =>
    (length_compact_le_iff (k := 4).2 (by simpa using hn)).trans_lt (by decide)
  have hi : toBytes (bytes (compact i)) = .ok (compact i) := toBytes_bytes (hlen h)
  have hj : toBytes (bytes (compact j)) = .ok (compact j) := toBytes_bytes (hlen h')
  rw [Rlp.nat, Rlp.nat] at heq
  rw [heq, hj, Except.ok.injEq] at hi
  rw [← ofBytes_compact i, ← hi, ofBytes_compact]

theorem eq_of_isItem_prefix {d d' : Bytes} (h : IsItem d) (h' : IsItem d') (hpre : d <+: d') : d = d' := by
  obtain ⟨rest, rfl⟩ := hpre
  have hlen := h'.actualSize_append []
  rw [append_nil, h.actualSize_append, Except.ok.injEq] at hlen
  exact (prefix_append d rest).eq_of_length hlen

/-- As long as `j` does not start again, each place has its own key. -/
theorem orderedContents_nat (hj : j + data.length ≤ 2 ^ 32) (hi : i < 2 ^ 32) :
    orderedContents j data m (Rlp.nat i) = if j ≤ i ∧ i < j + data.length then data[i - j]? else m (Rlp.nat i) := by
  induction data generalizing j m with
  | nil => rw [orderedContents, if_neg (by rw [length_nil]; omega)]
  | cons d data ih =>
    rw [List.length_cons] at hj ⊢
    rw [orderedContents, ih (by omega), Nat.mod_eq_of_lt (by omega)]
    by_cases heq : i = j
    · subst heq
      rw [if_neg (by omega), if_pos (by omega), update_self, Nat.sub_self]
      rfl
    · have hne : Rlp.nat i ≠ Rlp.nat j := fun h => heq (nat_injective hi (by omega) h)
      rw [update_of_ne hne]
      by_cases hin : j + 1 ≤ i ∧ i < j + 1 + data.length
      · rw [if_pos hin, if_pos (by omega), show i - j = i - (j + 1) + 1 by omega, List.getElem?_cons_succ]
      · rw [if_neg hin, if_neg (by omega)]

theorem entry_of_orderedContents (hk : orderedContents j data m k = some v) :
    m k = some v ∨ v ∈ data ∧ ∃ i < 2 ^ 32, k = Rlp.nat i := by
  induction data generalizing j m with
  | nil => exact .inl hk
  | cons d data ih =>
    rcases ih hk with hmem | ⟨hv, hkey⟩
    · by_cases heq : k = Rlp.nat (j % 2 ^ 32)
      · rw [heq, update_self, Option.some_inj] at hmem
        exact .inr ⟨hmem ▸ mem_cons_self, j % 2 ^ 32, Nat.mod_lt _ (by decide), heq⟩
      · rw [update_of_ne heq] at hmem
        exact .inl hmem
    · exact .inr ⟨mem_cons_of_mem _ hv, hkey⟩

theorem prefixFree_orderedContents (data : List Bytes) : PrefixFree (orderedContents 0 data fun _ => none) := by
  intro k k' hk hk' hpre
  obtain ⟨v, hv⟩ := Option.ne_none_iff_exists'.1 hk
  obtain ⟨v', hv'⟩ := Option.ne_none_iff_exists'.1 hk'
  obtain ⟨-, i, hi, rfl⟩ := (entry_of_orderedContents hv).resolve_left (Option.some_ne_none v).symm
  obtain ⟨-, i', hi', rfl⟩ := (entry_of_orderedContents hv').resolve_left (Option.some_ne_none v').symm
  exact eq_of_isItem_prefix (isItem_nat hi) (isItem_nat hi') hpre

/-- What the list maps to tells the list. -/
theorem orderedContents_injective {data' : List Bytes} (hlen : data.length ≤ 2 ^ 32) (hlen' : data'.length ≤ 2 ^ 32)
    (h : orderedContents 0 data (fun _ => none) = orderedContents 0 data' fun _ => none) : data = data' := by
  have hget : ∀ (l : List Bytes), l.length ≤ 2 ^ 32 → ∀ i < 2 ^ 32,
      orderedContents 0 l (fun _ => none) (Rlp.nat i) = l[i]? := by
    intro l hl i hi
    rw [orderedContents_nat (by rwa [Nat.zero_add]) hi, Nat.zero_add, Nat.sub_zero]
    split
    · rfl
    · rename_i hout
      exact (List.getElem?_eq_none (by omega)).symm
  refine List.ext_getElem? fun i => ?_
  by_cases hi : i < 2 ^ 32
  · rw [← hget data hlen i hi, h, hget data' hlen' i hi]
  · rw [List.getElem?_eq_none (by omega), List.getElem?_eq_none (by omega)]

/-! ### The size of the nodes -/

theorem length_pack_le (l : List Nibble) : (pack l).length ≤ l.length := by
  induction l using pack.induct with
  | case1 x y l ih =>
    rw [pack, List.length_cons, List.length_cons, List.length_cons]
    omega
  | case2 l h =>
    rw [pack]
    · exact Nat.zero_le _
    · exact h

theorem length_hexPrefix_le (leaf : Bool) (l : List Nibble) : (hexPrefix leaf l).length ≤ l.length + 1 := by
  cases l with
  | nil => exact le_rfl
  | cons x l =>
    rw [hexPrefix]
    split
    · exact Nat.succ_le_succ ((length_pack_le l).trans (Nat.le_succ _))
    · exact Nat.succ_le_succ (length_pack_le (x :: l))

theorem length_payload_le {b : Nat} {ts : List Tree} (h : ∀ t ∈ ts, t.encode.length ≤ b) :
    (Tree.payload ts).length ≤ ts.length * b := by
  induction ts with
  | nil => exact Nat.zero_le _
  | cons t ts ih =>
    have ht := h t mem_cons_self
    have hts := ih fun t ht => h t (mem_cons_of_mem _ ht)
    rw [Tree.payload_cons, List.length_append, List.length_cons, Nat.succ_mul]
    omega

section
variable [Sha3] {N : Nat} {n : Tree} {c : Nibble → RadixTree 16 Bytes} {o : Option Bytes}

theorem length_encode_ref_le (n : Tree) : (ref n).encode.length ≤ 41 := by
  rw [ref]
  split
  · omega
  · rw [Tree.encode]
    have hle := length_bytes_le_add (b := (hashOf n).1) (by rw [(hashOf n).2]; decide)
    rw [(hashOf n).2] at hle
    exact hle

omit [Sha3] in
theorem length_payload_twoItems_le (leaf : Bool) {k : List Nibble} (x : Tree) (hk : k.length + 1 < lengthLimit) :
    (Tree.payload (twoItems leaf k x)).length ≤ k.length + 10 + x.encode.length := by
  have hhex := length_hexPrefix_le leaf k
  have hdata := length_bytes_le_add (b := hexPrefix leaf k) (hhex.trans_lt hk)
  rw [twoItems, Tree.payload_cons, Tree.payload_cons, Tree.payload_nil, append_nil, List.length_append, Tree.encode]
  omega

theorem length_payload_branchItems_le {v : Bytes} (hv : v.length < lengthLimit) :
    (Tree.payload (branchItems (fun i => ref (item (c i))) (.data v))).length ≤ 16 * 41 + v.length + 9 := by
  have hrefs : (Tree.payload (List.ofFn fun i : Nibble => ref (item (c i)))).length ≤ 16 * 41 := by
    refine (length_payload_le fun t ht => ?_).trans_eq (by rw [length_ofFn])
    obtain ⟨i, rfl⟩ := mem_ofFn.1 ht
    exact length_encode_ref_le _
  have hdata := length_bytes_le_add hv
  rw [branchItems, Tree.payload_append, Tree.payload_cons, Tree.payload_nil, append_nil, List.length_append, Tree.encode]
  omega

/-- Where keys and values are not too long, no node is. -/
theorem fits_of_mem_nodes (ht : t.Canonical) (hN : N + 1024 ≤ lengthLimit) (h : ∀ e ∈ t.entries, e.1.length + e.2.length ≤ N)
    (hn : n ∈ nodes t) : n.Fits := by
  induction t with
  | empty =>
    rw [mem_singleton.1 hn]
    exact Nat.zero_lt_of_lt hN
  | leaf k v =>
    have hkv : k.length + v.length ≤ N := h (k, v) mem_cons_self
    have hdata := length_bytes_le_add (b := v) (by omega)
    have hle := length_payload_twoItems_le true (k := k) (.data v) (by omega)
    rw [Tree.encode] at hle
    rw [mem_singleton.1 hn]
    show (Tree.payload (twoItems true k (.data v))).length < lengthLimit
    omega
  | ext k t ih =>
    have hbelow : ∀ e ∈ t.entries, k.length + e.1.length + e.2.length ≤ N := fun e he => by
      have hle := h (k ++ e.1, e.2) (mem_map.2 ⟨e, he, rfl⟩)
      rwa [List.length_append] at hle
    rcases mem_cons.1 hn with rfl | hn
    · obtain ⟨e, he⟩ := exists_mem_entries ht.2.2 ht.2.1.ne_empty
      have hk := hbelow e he
      have href := length_encode_ref_le (item t)
      have hle := length_payload_twoItems_le false (k := k) (ref (item t)) (by omega)
      show (Tree.payload (twoItems false k (ref (item t)))).length < lengthLimit
      omega
    · exact ih ht.2.2 (fun e he => by have := hbelow e he; omega) hn
  | branch c o ih =>
    rcases mem_cons.1 hn with rfl | hn
    · have hv : (o.getD []).length ≤ N := by
        cases o with
        | none => exact Nat.zero_le _
        | some v =>
          have hle := h ([], v) (mem_append_left _ mem_cons_self)
          rwa [length_nil, Nat.zero_add] at hle
      have hle := length_payload_branchItems_le (c := c) (v := o.getD []) (by omega)
      show (Tree.payload (branchItems (fun i => ref (item (c i))) (.data (o.getD [])))).length < lengthLimit
      omega
    · obtain ⟨i, -, hn⟩ := mem_flatMap.1 hn
      refine ih i (ht.2 i) (fun e he => ?_) hn
      have hle := h ([i] ++ e.1, e.2)
        (mem_append_right _ (mem_flatMap.2 ⟨i, mem_finRange i, mem_map.2 ⟨e, he, rfl⟩⟩))
      rw [List.length_append] at hle
      exact (Nat.add_le_add_right (Nat.le_add_left _ _) _).trans hle

/-! ### The root -/

omit [Sha3] in
theorem lists_empty : Lists [] fun _ =>
    none := ⟨List.Pairwise.nil, fun _ _ => iff_of_false not_mem_nil (Option.some_ne_none _).symm⟩

variable {data data' : List Bytes}

omit [Sha3] in
theorem represents_ordered (data : List Bytes) : (orderedTrie 0 data .empty).Canonical ∧
    Represents (orderedTrie 0 data .empty) (orderedContents 0 data fun _ => none) :=
  represents_orderedTrie represents_empty trivial 0 data

/-- What `hash256` hashes of the list is the root node of the trie. -/
theorem orderedTrieRoot_eq (data : List Bytes) : orderedTrieRoot data = some (hashOf (item (orderedTrie 0 data .empty))) := by
  obtain ⟨ht, h⟩ := represents_ordered data
  rw [orderedTrieRoot, hash256, (lists_orderedMap lists_empty 0 data).eq h.lists, rlp256_byteEntries h ht]
  rfl

/-- The RLP of the nodes that `orderedTrieRoot` makes, for `sha3` -/
def nodeBytes (data : List Bytes) : List Bytes := (nodes (orderedTrie 0 data .empty)).map Tree.encode

theorem fits_ordered (hsize : ∀ d ∈ data, d.length < 2 ^ 63) (hn : n ∈ nodes (orderedTrie 0 data .empty)) : n.Fits := by
  obtain ⟨ht, h⟩ := represents_ordered data
  refine fits_of_mem_nodes (N := 2 ^ 63 + 26) ht (by decide) (fun e he => ?_) hn
  obtain ⟨k, hk⟩ := h.exists_nibbles he
  have hentry : orderedContents 0 data (fun _ => none) k = some e.2 := by
    rw [← h.find, ← hk]
    exact mem_entries.1 he
  obtain ⟨hmem, i, hi, rfl⟩ := (entry_of_orderedContents hentry).resolve_left (Option.some_ne_none _).symm
  have hcompact : (compact i).length ≤ 4 := length_compact_le_iff.2 (by simpa using hi)
  have hkey := length_bytes_le_add (b := compact i) (hcompact.trans_lt (by decide))
  have hdata := hsize e.2 hmem
  rw [hk, length_nibbles, Rlp.nat]
  omega

/-- Every list has a root, and two lists have one root only if they are the same, or if two of the nodes that are made
for them are different and have one hash. -/
theorem ordered_root_binds :
    (∀ data, ∃ root, orderedTrieRoot data = some root) ∧
    ∀ data data' : List Bytes, data.length ≤ 2 ^ 32 → data'.length ≤ 2 ^ 32 → (∀ d ∈ data, d.length < 2 ^ 63) →
      (∀ d ∈ data', d.length < 2 ^ 63) → orderedTrieRoot data = orderedTrieRoot data' → data = data' ∨
        ∃ x ∈ nodeBytes data, ∃ y ∈ nodeBytes data', x ≠ y ∧ Sha3.hash x = Sha3.hash y := by
  refine ⟨fun data => ⟨_, orderedTrieRoot_eq data⟩, fun data data' hlen hlen' hsize hsize' hroot => ?_⟩
  obtain ⟨ht, h⟩ := represents_ordered data
  obtain ⟨ht', h'⟩ := represents_ordered data'
  rw [orderedTrieRoot_eq, orderedTrieRoot_eq, Option.some_inj] at hroot
  rcases eq_of_hashOf_item (h.valuedBranches ht (prefixFree_orderedContents data))
    (h'.valuedBranches ht' (prefixFree_orderedContents data')) hroot with heq | ⟨x, hx, y, hy, hne, hhash⟩
  · refine .inl (orderedContents_injective hlen hlen' (funext fun k => ?_))
    rw [← h.find, heq, h'.find]
  · refine .inr ⟨x.encode, mem_map_of_mem hx, y.encode, mem_map_of_mem hy, fun hencode => hne ?_, hhash⟩
    exact Tree.encode_injective (fits_ordered hsize hx) (fits_ordered hsize' hy) hencode

end

attribute [local instance] padded

theorem ordered_root_binds_two : (∃ root, orderedTrieRoot [[1], [2]] = some root) ∧
    orderedTrieRoot [[1], [2]] ≠ orderedTrieRoot [[1], [3]] := by
  have hsmall : ∀ b : Byte, ∀ d ∈ [[1], [b]], d.length < 2 ^ 63 := by
    intro b d hd
    rcases mem_cons.1 hd with rfl | hd
    · decide
    · rw [mem_singleton.1 hd]
      exact Nat.one_lt_two_pow (by decide)
  have happart : ∀ x ∈ nodeBytes [[1], [2]], ∀ y ∈ nodeBytes [[1], [3]], Sha3.hash x = Sha3.hash y → x = y := by decide
  obtain ⟨hroot, hbinds⟩ := ordered_root_binds
  refine ⟨hroot [[1], [2]], fun heq => ?_⟩
  rcases hbinds [[1], [2]] [[1], [3]] (by decide) (by decide) (hsmall 2) (hsmall 3) heq with hlists
      | ⟨x, hx, y, hy, hne, hhash⟩
  · exact absurd hlists (by decide)
  · exact hne (happart x hx y hy hhash)

end Kmdx.Trie
