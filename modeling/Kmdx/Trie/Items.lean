import Kmdx.Trie.Nodes

/-!
# The items of a radix tree

`item` is the root node of a tree; what is behind it is written into the node or is in the database (`Stored`). What the
functions of the trie ask of a node is told by the tree. A lookup finds the value of the key (`does_at`).
-/

namespace Kmdx.Trie

open Rlp RadixTree Function
open List hiding isEmpty_iff

variable {r : RLP} {leaf : Bool} {k : List Nibble} {x y : Tree} {f : Nibble → Tree} {p : Option (List Tree × Nat)}

/-! ### Nodes of two items -/

/-- A leaf or an extension -/
def twoItems (leaf : Bool) (k : List Nibble) (x : Tree) : List Tree := [.data (hexPrefix leaf k), x]

/-- What is asked of a node of two items. -/
structure IsTwo (r : RLP) (leaf : Bool) (k : List Nibble) (x : Tree) : Prop where
  isEmpty : r.isEmpty = false
  isNull : r.isNull = false
  isNode : isNode r = true
  isList : r.isList = true
  isData : r.isData = false
  itemCount : r.itemCount = 2
  items : r.items = twoItems leaf k x
  sub : r.sub 1 = ⟨some x, some (twoItems leaf k x, 1)⟩
  key : (keyOfItem r).toList = k
  isLeaf : Trie.isLeaf r = leaf

theorem isTwo_of_eq (hr : r.tree = some (.list (twoItems leaf k x))) : IsTwo r leaf k x := by
  obtain ⟨t, p⟩ := r
  cases hr
  refine ⟨rfl, rfl, rfl, rfl, rfl, rfl, rfl, rfl, toList_keyOf_hexPrefix leaf k, ?_⟩
  rw [Bool.eq_iff_iff, ← leafFlag_hexPrefix leaf k]
  exact decide_eq_true_iff

namespace IsTwo

variable {key : NibbleSlice}

theorem contains_iff (h : IsTwo r leaf k x) : key.contains (keyOfItem r) = true ↔ k <+: key.toList := by
  rw [NibbleSlice.contains_iff, h.key]

theorem same_iff (h : IsTwo r leaf k x) : key.same (keyOfItem r) = true ↔ k = key.toList := by
  rw [NibbleSlice.same_iff, h.key, eq_comm]

theorem same_iff' (h : IsTwo r leaf k x) : (keyOfItem r).same key = true ↔ k = key.toList := by
  rw [NibbleSlice.same_iff, h.key]

theorem size_key (h : IsTwo r leaf k x) : (keyOfItem r).size = k.length := by rw [← NibbleSlice.length_toList, h.key]

theorem toList_mid (h : IsTwo r leaf k x) {rest : List Nibble} (hkey : key.toList = k ++ rest) :
    (key.mid (keyOfItem r).size).toList = rest := by
  rw [NibbleSlice.toList_mid, h.size_key, hkey, drop_left]

theorem toString_sub {v : Bytes} (h : IsTwo r leaf k (.data v)) : (r.sub 1).toString = v := by
  rw [h.sub]
  rfl

end IsTwo

theorem not_valueAt_ext (k : List Nibble) (x : Tree) : ¬ValueAt (twoItems false k x, 1) := by
  rintro (⟨-, hleaf, -⟩ | ⟨hlen, -⟩)
  · have hfalse := (isTwo_of_eq (r := .of (some (.list (twoItems false k x)))) rfl).isLeaf
    rw [hfalse] at hleaf
    cases hleaf
  · cases hlen

theorem valueAt_leaf (k : List Nibble) (x : Tree) : ValueAt (twoItems true k x, 1) :=
  .inl ⟨rfl, (isTwo_of_eq (r := .of (some (.list (twoItems true k x)))) rfl).isLeaf, rfl⟩

/-! ### Branches -/

def branchItems (f : Nibble → Tree) (x : Tree) : List Tree := List.ofFn f ++ [x]

@[simp] theorem length_branchItems (f : Nibble → Tree) (x : Tree) : (branchItems f x).length = 17 := by
  rw [branchItems, length_append, length_ofFn, length_singleton]

theorem getElem?_branchItems (f : Nibble → Tree) (x : Tree) (i : Nibble) : (branchItems f x)[i.val]? = some (f i) := by
  rw [branchItems, List.getElem?_append_left (by rw [length_ofFn]; exact i.isLt), List.getElem?_ofFn, dif_pos i.isLt]

theorem getElem?_branchItems_last (f : Nibble → Tree) (x : Tree) : (branchItems f x)[16]? = some x := by
  rw [branchItems, List.getElem?_append_right (by rw [length_ofFn]), length_ofFn]
  rfl

theorem set_branchItems (f : Nibble → Tree) (x y : Tree) (i : Nibble) :
    (branchItems f x).set i.val y = branchItems (update f i y) x := by
  rw [branchItems, branchItems, set_append_left _ _ (by rw [length_ofFn]; exact i.isLt)]
  refine congrArg (· ++ [x]) (ext_getElem (by simp) fun j hj hj' => ?_)
  rw [getElem_set, List.getElem_ofFn, List.getElem_ofFn]
  split <;> rename_i h
  · rw [show (⟨j, by rwa [length_ofFn] at hj'⟩ : Nibble) = i from Fin.ext h.symm, update_self]
  · rw [update_of_ne fun heq => h (congrArg Fin.val heq).symm]

theorem set_branchItems_last (f : Nibble → Tree) (x y : Tree) : (branchItems f x).set 16 y = branchItems f y := by
  rw [branchItems, set_append_right _ _ (by rw [length_ofFn]), length_ofFn]
  rfl

/-- What is asked of a branch. -/
structure IsSeventeen (r : RLP) (f : Nibble → Tree) (x : Tree) : Prop where
  isEmpty : r.isEmpty = false
  isNull : r.isNull = false
  isNode : isNode r = true
  isList : r.isList = true
  isData : r.isData = false
  itemCount : r.itemCount = 17
  items : r.items = branchItems f x
  sub : ∀ i : Nibble, r.sub i.val = ⟨some (f i), some (branchItems f x, i.val)⟩
  last : r.sub 16 = ⟨some x, some (branchItems f x, 16)⟩

theorem isSeventeen_of_eq (hr : r.tree = some (.list (branchItems f x))) : IsSeventeen r f x := by
  obtain ⟨t, p⟩ := r
  cases hr
  have hcount : RLP.itemCount ⟨some (.list (branchItems f x)), p⟩ = 17 := length_branchItems f x
  refine ⟨?_, rfl, ?_, rfl, rfl, hcount, rfl, fun i => ?_, ?_⟩
  · change (branchItems f x).isEmpty = false
    rw [List.isEmpty_eq_false_iff, ← List.length_pos_iff, length_branchItems]
    decide
  · rw [isNode, hcount]
    rfl
  · rw [RLP.sub]
    change RLP.mk (branchItems f x)[i.val]? (some (branchItems f x, i.val)) = _
    rw [getElem?_branchItems]
  · rw [RLP.sub]
    change RLP.mk (branchItems f x)[16]? (some (branchItems f x, 16)) = _
    rw [getElem?_branchItems_last]

theorem valueAt_branch (f : Nibble → Tree) (x : Tree) : ValueAt (branchItems f x, 16) := .inr ⟨length_branchItems f x, rfl⟩

theorem IsSeventeen.toString_last {v : Bytes} (h : IsSeventeen r f (.data v)) : (r.sub 16).toString = v := by
  rw [h.last]
  rfl

theorem not_valueAt_branch (f : Nibble → Tree) (x : Tree) (i : Nibble) : ¬ValueAt (branchItems f x, i.val) := by
  rintro (⟨hlen, -, -⟩ | ⟨-, hi⟩)
  · rw [length_branchItems] at hlen
    cases hlen
  · exact absurd hi i.isLt.ne

theorem length_encode_rlpNull : rlpNull.encode.length = 1 := by
  rw [rlpNull, Tree.encode]
  rfl

theorem isEmpty_of_rlpNull (hr : r.tree = some rlpNull) : r.isEmpty = true := by
  rw [RLP.isEmpty, hr]
  rfl

theorem replicate_rlpNull : List.replicate 17 rlpNull = branchItems (fun _ => rlpNull) rlpNull := rfl

/-! ### Trees -/

variable [Sha3] {s s' : TrieDB}

/-- The root node of a tree. -/
def item : RadixTree 16 Bytes → Tree
  | .empty => rlpNull
  | .leaf k v => .list (twoItems true k (.data v))
  | .ext k t => .list (twoItems false k (ref (item t)))
  | .branch c v => .list (branchItems (fun i => ref (item (c i))) (.data (v.getD [])))

/-- The nodes behind the root node are in it or in the database. -/
def Stored (s : TrieDB) : RadixTree 16 Bytes → Prop
  | .empty => True
  | .leaf _ _ => True
  | .ext _ t => Kept s (item t) ∧ Stored s t
  | .branch c _ => ∀ i, Kept s (item (c i)) ∧ Stored s (c i)

/-- So is the root node. -/
def Written (s : TrieDB) (t : RadixTree 16 Bytes) : Prop := Kept s (item t) ∧ Stored s t

variable {t : RadixTree 16 Bytes} {c : Nibble → RadixTree 16 Bytes} {o : Option Bytes} {v : Bytes}

theorem Stored.grew (h : Stored s t) (hgrew : Grew s s') : Stored s' t := by
  induction t with
  | empty => trivial
  | leaf k v => trivial
  | ext k t ih => exact ⟨h.1.grew hgrew, ih h.2⟩
  | branch c o ih => exact fun i => ⟨(h i).1.grew hgrew, ih i (h i).2⟩

theorem Written.grew (h : Written s t) (hgrew : Grew s s') : Written s' t := ⟨h.1.grew hgrew, h.2.grew hgrew⟩

@[simp] theorem ref_rlpNull : ref rlpNull = rlpNull := if_pos (by rw [length_encode_rlpNull]; decide)

theorem kept_rlpNull (s : TrieDB) : Kept s rlpNull := by
  intro h
  rw [length_encode_rlpNull] at h
  exact absurd h (by decide)

theorem written_empty (s : TrieDB) : Written s empty := ⟨kept_rlpNull s, trivial⟩

theorem exists_item_eq (h : t ≠ empty) : ∃ ts, ts ≠ [] ∧ item t = .list ts := by
  cases t with
  | empty => exact absurd rfl h
  | leaf k v => exact ⟨_, cons_ne_nil _ _, rfl⟩
  | ext k t => exact ⟨_, cons_ne_nil _ _, rfl⟩
  | branch c o => exact ⟨_, by rw [← List.length_pos_iff, length_branchItems]; decide, rfl⟩

/-- Only what is empty is empty. -/
theorem isEmpty_iff {n : RLP} (hn : n.tree = some (ref (item t))) : n.isEmpty = true ↔ t = empty := by
  by_cases h : t = empty
  · refine iff_of_true ?_ h
    rw [h, item, ref_rlpNull] at hn
    exact isEmpty_of_rlpNull hn
  · refine iff_of_false ?_ h
    obtain ⟨ts, hts, hitem⟩ := exists_item_eq h
    rw [hitem] at hn
    rw [isEmpty_ref hts hn]
    nofun

/-- The reference to a tree leads to it. -/
theorem does_deref_item {n : RLP} {p : List Tree × Nat} (hn : n.tree = some (ref (item t))) (ht : t ≠ empty)
    (hwritten : Written s t)
    (hp : n.place = some p) (hvalue : ¬ValueAt p) : Does (deref n) s fun d s' => d = some (item t) ∧ OnlyReads s s' := by
  obtain ⟨ts, -, hitem⟩ := exists_item_eq ht
  have hkept := hwritten.1
  rw [hitem] at hn hkept ⊢
  exact does_deref hn hkept hp hvalue

/-! ### What is referred to -/

/-- The hashes that stand in the root node of a tree and in the nodes behind it, each as often as it does -/
def held : RadixTree 16 Bytes → List H256
  | .empty => []
  | .leaf _ _ => []
  | .ext _ t => referred (item t) ++ held t
  | .branch c _ => (List.finRange 16).flatMap fun i => referred (item (c i)) ++ held (c i)

/-- So does the one that stands for the root node. -/
def outer (t : RadixTree 16 Bytes) : List H256 := referred (item t) ++ held t

@[simp] theorem referred_rlpNull : referred rlpNull = [] := if_pos (by rw [length_encode_rlpNull]; decide)

@[simp] theorem outer_empty : outer .empty = [] := by rw [outer, held, append_nil, item, referred_rlpNull]

theorem outer_leaf : outer (.leaf k v) = referred (item (.leaf k v)) := append_nil _

theorem held_branch : held (.branch c o) = (List.finRange 16).flatMap fun i => outer (c i) := rfl

theorem held_branch_empty : held (.branch (fun _ => .empty) o) = [] := by
  rw [held_branch, flatMap_eq_nil_iff]
  exact fun _ _ => outer_empty

/-- A place among the children -/
theorem exists_held_update (c : Nibble → RadixTree 16 Bytes) (i : Nibble) :
    ∃ l₀ l₁, ∀ t o, held (.branch (update c i t) o) = l₀ ++ (outer t ++ l₁) := by
  obtain ⟨is, js, hsplit⟩ := append_of_mem (mem_finRange i)
  have hnodup := nodup_finRange 16
  rw [hsplit, nodup_middle, nodup_cons, mem_append, not_or] at hnodup
  obtain ⟨⟨his, hjs⟩, -⟩ := hnodup
  have hothers : ∀ ks : List Nibble, i ∉ ks → ∀ t, (ks.flatMap fun j => outer (update c i t j)) =
      ks.flatMap fun j => outer (c j) :=
    fun ks hks t => flatMap_congr fun j hj => by
      rw [update_of_ne (ne_of_mem_of_not_mem hj hks)]
  refine ⟨is.flatMap fun j => outer (c j), js.flatMap fun j => outer (c j), fun t o => ?_⟩
  rw [held_branch, hsplit, flatMap_append, flatMap_cons, hothers is his, hothers js hjs, update_self]

theorem Pays.child {i : Nibble} {t' : RadixTree 16 Bytes} (h : Pays s s' (outer (c i)) (outer t')) (o o' : Option Bytes) :
    Pays s s' (held (.branch c o)) (held (.branch (update c i t') o')) := by
  obtain ⟨l₀, l₁, hheld⟩ := exists_held_update c i
  have hsame := hheld (c i) o
  rw [update_eq_self] at hsame
  rw [hsame, hheld]
  exact h.append l₀ l₁

/-- Where there is only one child -/
theorem held_branch_of_only {i : Nibble} (h : ∀ j, j ≠ i → c j = .empty) : held (.branch c o) = outer (c i) := by
  obtain ⟨l₀, l₁, hheld⟩ := exists_held_update c i
  have hsame := hheld (c i) o
  have hnone := hheld .empty o
  have hempty : update c i .empty = fun _ => .empty := by
    funext j
    by_cases hj : j = i
    · rw [hj, update_self]
    · rw [update_of_ne hj, h j hj]
  rw [hempty, held_branch_empty, outer_empty, nil_append] at hnone
  obtain ⟨rfl, rfl⟩ := append_eq_nil_iff.1 hnone.symm
  rwa [update_eq_self, nil_append, append_nil] at hsame

theorem held_single (i : Nibble) (t : RadixTree 16 Bytes) (o : Option Bytes) :
    held (.branch (update (fun _ => .empty) i t) o) = outer t := by
  rw [held_branch_of_only (i := i) fun j hj => update_of_ne hj _ _, update_self]

/-! ### Lookups -/

theorem reads_atAux (fuel : Nat) (r : RLP) (key : NibbleSlice) : Reads (atAux fuel r key) := by
  induction fuel generalizing r key with
  | zero => exact .fail _
  | succ fuel ih =>
    rw [atAux]
    dsimp only
    split_ifs
    · exact .pure _
    · exact .fail _
    · exact .pure _
    · exact (Reads.deref _).bind fun _ => ih _ _
    · exact .pure _
    · exact .pure _
    · exact .pure _
    · exact (Reads.deref _).bind fun _ => ih _ _

theorem reads_at (k : Bytes) : Reads (at_ k) :=
  Reads.bind (fun _ => .rfl) fun _ => (Reads.node _).bind fun _ => reads_atAux _ _ _

theorem does_atAux {fuel : Nat} {key : NibbleSlice} (ht : t.Canonical) (hs : Stored s t) (hr : r.tree = some (item t))
    (hfuel : key.toList.length < fuel) :
    Does (atAux fuel r key) s fun b s' => b = (t.find key.toList).getD [] ∧ OnlyReads s s' := by
  obtain ⟨fuel, rfl⟩ := Nat.exists_eq_succ_of_ne_zero (Nat.ne_zero_of_lt hfuel)
  induction t generalizing fuel r key s with
  | empty =>
    rw [atAux, isEmpty_of_rlpNull hr, Bool.true_or, if_pos rfl]
    exact .pure ⟨rfl, .rfl⟩
  | leaf k v =>
    have htwo := isTwo_of_eq hr
    rw [atAux, if_neg (by simp [htwo.isEmpty, htwo.isNull]), if_neg (by simp [htwo.isNode]), if_pos htwo.itemCount]
    dsimp only
    rw [htwo.isLeaf, Bool.and_true, Bool.not_true, Bool.and_false, find_leaf]
    by_cases hk : k = key.toList
    · rw [if_pos (htwo.same_iff.2 hk), if_pos hk, htwo.toString_sub]
      exact .pure ⟨rfl, .rfl⟩
    · rw [if_neg fun h => hk (htwo.same_iff.1 h), if_neg hk, if_neg nofun]
      exact .pure ⟨rfl, .rfl⟩
  | ext k t ih =>
    have htwo := isTwo_of_eq hr
    rw [atAux, if_neg (by simp [htwo.isEmpty, htwo.isNull]), if_neg (by simp [htwo.isNode]), if_pos htwo.itemCount]
    dsimp only
    rw [htwo.isLeaf, Bool.and_false, if_neg nofun, Bool.not_false, Bool.and_true, find_ext]
    by_cases hk : k <+: key.toList
    · rw [if_pos (htwo.contains_iff.2 hk), htwo.sub]
      obtain ⟨rest, hrest⟩ := hk
      have hmid := htwo.toList_mid hrest.symm
      refine Does.bind (does_deref_item rfl ht.2.1.ne_empty hs rfl (not_valueAt_ext k _)) ?_
      rintro _ s' hgrew - ⟨rfl, hreads⟩
      have hk : 0 < k.length := List.length_pos_iff.2 ht.1
      rw [← hrest, length_append] at hfuel
      obtain ⟨fuel, rfl⟩ := Nat.exists_eq_succ_of_ne_zero (n := fuel) (by omega)
      refine (ih (r := .of (some (item t))) ht.2.2 (hs.2.grew hgrew) rfl fuel (by rw [hmid]; omega)).mono ?_
      rintro b s'' - - ⟨rfl, hreads'⟩
      rw [hmid, ← hrest, behind_append]
      exact ⟨rfl, hreads.trans hreads'⟩
    · rw [if_neg fun h => hk (htwo.contains_iff.1 h), behind_of_not hk]
      exact .pure ⟨rfl, .rfl⟩
  | branch c o ih =>
    have hbranch := isSeventeen_of_eq hr
    rw [atAux, if_neg (by simp [hbranch.isEmpty, hbranch.isNull]), if_neg (by simp [hbranch.isNode]),
      if_neg (by rw [hbranch.itemCount]; decide)]
    by_cases hsize : key.size = 0
    · rw [if_pos hsize, NibbleSlice.size_eq_zero_iff.1 hsize, find_branch_nil, hbranch.toString_last]
      exact .pure ⟨rfl, .rfl⟩
    · have hcons := NibbleSlice.toList_eq_cons (s := key) (by omega)
      rw [if_neg hsize, hcons, find_branch_cons, hbranch.sub]
      dsimp only
      split
      · rename_i hempty
        rw [isEmpty_iff rfl] at hempty
        rw [hempty]
        exact .pure ⟨rfl, .rfl⟩
      · rename_i hempty
        rw [isEmpty_iff rfl] at hempty
        refine Does.bind (does_deref_item rfl hempty (hs (key.get 0)) rfl (not_valueAt_branch _ _ _)) ?_
        rintro _ s' hgrew - ⟨rfl, hreads⟩
        rw [hcons, List.length_cons] at hfuel
        obtain ⟨fuel, rfl⟩ := Nat.exists_eq_succ_of_ne_zero (n := fuel) (by omega)
        refine Does.mono (ih (key.get 0) (r := .of (some (item (c (key.get 0))))) (ht.2 _) ((hs _).2.grew hgrew) rfl fuel
          (by omega)) ?_
        rintro b s'' - - ⟨rfl, hreads'⟩
        exact ⟨rfl, hreads.trans hreads'⟩

end Kmdx.Trie
