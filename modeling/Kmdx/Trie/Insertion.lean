import Kmdx.Trie.Items

/-!
# Insertion

`mergeAt` makes the node of the tree with the new value (`does_mergeAt`): a leaf or an extension whose key parts from the
new one is cleft at the nibbles that they share, and what stands behind them becomes a branch.
-/

namespace Kmdx.Trie

open Rlp RadixTree Function
open List hiding isEmpty_iff

variable [Sha3] {s s' : TrieDB} {r n : RLP} {leaf inLine : Bool} {k k₀ p rest : List Nibble} {key : NibbleSlice}
    {x : Tree} {h : H256}
  {C C' : Prop} {l l' : List H256} {b : Tree} {s'' : TrieDB} {t t' u : RadixTree 16 Bytes}
    {c : Nibble → RadixTree 16 Bytes} {o : Option Bytes} {v w : Bytes} {i : Nibble} {fuel : Nat}

/-- The bytes of a node of `t`, and what is behind it is written. -/
def Yields (t : RadixTree 16 Bytes) (b : Tree) (s : TrieDB) : Prop := b = item t ∧ Stored s t

/-- So it is, and of the references, those in `l` are given up at most, and what is behind the node is counted, if `C`. -/
def Makes (C : Prop) (s : TrieDB) (l : List H256) (t : RadixTree 16 Bytes) (b : Tree) (s' : TrieDB) : Prop :=
  Yields t b s' ∧ (C → Pays s s' l (held t))

theorem Makes.after (h : Makes C s' l' t b s'') (hpays : Pays s s' l l') :
    Makes C s l t b s'' := h.imp_right fun h hC => hpays.trans (h hC)

theorem Makes.imp (h : Makes C s l t b s') (hC : C' → C) : Makes C' s l t b s' := h.imp_right fun h hC' => h (hC hC')

theorem ref_item_update (c : Nibble → RadixTree 16 Bytes) (i : Nibble) (t : RadixTree 16 Bytes) :
    (fun j => ref (item (update c i t j))) = update (fun j => ref (item (c j))) i (ref (item t)) := by
  funext j
  by_cases hj : j = i
  · rw [hj, update_self, update_self]
  · rw [update_of_ne hj, update_of_ne hj]

theorem set_branchItems_ref (c : Nibble → RadixTree 16 Bytes) (i : Nibble) (t : RadixTree 16 Bytes) (x : Tree) :
    (branchItems (fun j => ref (item (c j))) x).set i.val (ref (item t)) =
      branchItems (fun j => ref (item (update c i t j))) x := by
  rw [set_branchItems, ref_item_update]

/-- A branch with one way to go on. -/
theorem item_single (i : Nibble) (t : RadixTree 16 Bytes) :
    Tree.list ((List.replicate 17 rlpNull).set i.val (ref (item t))) =
      item (.branch (update (fun _ => .empty) i t) none) := by
  rw [replicate_rlpNull, set_branchItems, item, ref_item_update]
  refine congrArg (fun f => Tree.list (branchItems (update f i (ref (item t))) rlpNull)) (funext fun _ => ?_)
  exact ref_rlpNull.symm

theorem stored_update (hs : ∀ j, Written s (c j)) (ht : Written s t) : Stored s (.branch (update c i t) o) := by
  intro j
  by_cases hj : j = i
  · rw [hj, update_self]
    exact ht
  · rw [update_of_ne hj]
    exact hs j

/-! ### The steps -/

theorem does_place_empty (hr : r.tree = some rlpNull) (key : NibbleSlice) (v : Bytes) :
    Does (place r key v) s (Makes C s (outer .empty) (.leaf key.toList v)) := by
  rw [place]
  refine (does_killNode hr).bind fun _ _ _ _ hpays => ?_
  rw [referred_rlpNull] at hpays
  rw [if_pos (isEmpty_of_rlpNull hr), hexPrefixEncode_eq, outer_empty]
  exact .pure ⟨⟨rfl, trivial⟩, fun _ => hpays⟩

theorem does_place_leaf (hr : r.tree = some (item (.leaf k w))) (key : NibbleSlice) (v : Bytes) :
    Does (place r key v) s (Makes C s (outer (.leaf k w)) (.leaf k v)) := by
  have htwo := isTwo_of_eq hr
  rw [place]
  refine (does_killNode hr).bind fun _ _ _ _ hpays => ?_
  rw [if_neg (by simp [htwo.isEmpty]), if_neg (by simp [htwo.isNode]), if_pos htwo.itemCount, htwo.items, outer_leaf]
  exact .pure ⟨⟨rfl, trivial⟩, fun _ => hpays⟩

theorem does_place_branch (hr : r.tree = some (item (.branch c o))) (hs : Stored s (.branch c o))
    (key : NibbleSlice) (v : Bytes) :
    Does (place r key v) s (Makes C s (outer (.branch c o)) (.branch c (some v))) := by
  have hbranch := isSeventeen_of_eq hr
  rw [place]
  refine (does_killNode hr).bind fun _ s' hgrew _ hpays => ?_
  rw [if_neg (by simp [hbranch.isEmpty]), if_neg (by simp [hbranch.isNode]),
    if_neg (by rw [hbranch.itemCount]; decide), hbranch.items, set_branchItems_last]
  exact .pure ⟨⟨rfl, hs.grew hgrew⟩, fun _ => hpays.append_right _⟩

/-- The first `p.length` nibbles as an extension, and what is behind them as a node of its own. -/
theorem does_cleve (hr : r.tree = some (.list (twoItems leaf (p ++ k) x))) (hp : p ≠ [])
    (hitem : item t = .list (twoItems leaf k x))
    (hs : Stored s t) : Does (cleve r p.length) s fun b s' => Yields (.ext p t) b s' ∧
      Pays s s' (referred (.list (twoItems leaf (p ++ k) x))) (referred (item t)) := by
  have htwo := isTwo_of_eq hr
  have hsize : (keyOfItem r).size = p.length + k.length := by rw [htwo.size_key, length_append]
  have hle : p.length ≤ (keyOfItem r).size := by omega
  rw [cleve]
  refine (does_killNode hr).bind fun _ s' hgrew _ hpays => ?_
  dsimp only
  rw [if_neg (by simp [htwo.isList, htwo.itemCount, hp, hle]), hexPrefixEncode_from, hexPrefixEncode_upTo _ _ _ hle,
    htwo.key, htwo.items, htwo.isLeaf, drop_left, drop_zero, Nat.sub_zero, take_left]
  refine (does_streamNode (.list (twoItems leaf k x))).bind ?_
  rintro _ s'' hgrew' - ⟨rfl, hkept, hpays'⟩
  rw [← hitem] at hkept hpays' ⊢
  exact .pure ⟨⟨rfl, hkept, (hs.grew hgrew).grew hgrew'⟩, hpays.trans hpays'⟩

/-- A leaf or an extension, as it can be split. -/
structure Parts (t : RadixTree 16 Bytes) (leaf : Bool) (k : List Nibble) (x : Tree) : Prop where
  item : item t = .list (twoItems leaf k x)
  ne_nil : leaf = false → k ≠ []
  splits : ∃ c o, SplitsInto t k.head? c o
  does_branch : ∀ {s : TrieDB} {r : RLP}, r.tree = some (Trie.item t) → Stored s t →
    Does (Trie.branch r) s (Makes True s (outer t) t.split)

theorem parts_leaf (k : List Nibble) (v : Bytes) : Parts (.leaf k v) true k (.data v) where
  item := rfl
  ne_nil := nofun
  splits := exists_splitsInto_leaf k v
  does_branch := by
    intro s r hr _
    have htwo := isTwo_of_eq hr
    rw [Trie.branch, if_neg (by simp [htwo.isList, htwo.itemCount])]
    refine (does_killNode hr).bind fun _ s' _ _ hpays => ?_
    dsimp only
    rw [htwo.size_key, htwo.isLeaf, htwo.items, outer_leaf]
    cases k with
    | nil =>
      rw [if_pos length_nil, if_neg nofun]
      exact .pure ⟨⟨rfl, fun _ => written_empty _⟩, fun _ => hpays⟩
    | cons i k =>
      obtain ⟨hget, hmid⟩ := NibbleSlice.get_zero htwo.key
      rw [if_neg (by simp), if_pos (by simp), hexPrefixEncode_eq, hmid, hget]
      refine (does_streamNode (.list (twoItems true k (.data v)))).bind ?_
      rintro _ s'' - - ⟨rfl, hkept, hpays'⟩
      refine .pure ⟨⟨item_single i (.leaf k v), stored_update (fun _ => written_empty _) ⟨hkept, trivial⟩⟩, fun _ => ?_⟩
      rw [split, held_single, outer_leaf]
      exact hpays.trans hpays'

theorem parts_ext (hk : k ≠ []) (hbranch : t.IsBranch) (ht : t.Canonical) : Parts (.ext k t) false k (ref (item t)) where
  item := rfl
  ne_nil _ := hk
  splits := exists_splitsInto_ext hk hbranch.ne_empty ht
  does_branch := by
    intro s r hr hs
    have htwo := isTwo_of_eq hr
    rw [Trie.branch, if_neg (by simp [htwo.isList, htwo.itemCount])]
    refine (does_killNode hr).bind fun _ s' hgrew _ hpays => ?_
    have hs' := hs.grew hgrew
    have houter := hpays.append_right (outer t)
    dsimp only
    rw [htwo.size_key, htwo.isLeaf, htwo.items]
    cases k with
    | nil => exact absurd rfl hk
    | cons i k =>
      obtain ⟨hget, hmid⟩ := NibbleSlice.get_zero htwo.key
      rw [if_neg (by simp), Bool.false_or, hget]
      by_cases hnil : k = []
      · rw [if_neg (by simp [hnil])]
        rw [hnil, split, prepend_nil]
        refine .pure ⟨⟨item_single i t, stored_update (fun _ => written_empty _) hs'⟩, fun _ => ?_⟩
        rw [held_single, ← hnil]
        exact houter
      · have hlen : 0 < k.length := length_pos_iff.2 hnil
        rw [if_pos (by simp [hlen]), hexPrefixEncode_eq, hmid]
        refine (does_streamNode (.list (twoItems false k (ref (Trie.item t))))).bind ?_
        rintro _ s'' hgrew' - ⟨rfl, hkept, hpays'⟩
        obtain ⟨c, o, rfl⟩ := hbranch.exists_eq
        rw [split, prepend_branch hnil]
        refine .pure ⟨⟨item_single i (.ext k (.branch c o)),
          stored_update (fun _ => written_empty _) ⟨hkept, hs'.grew hgrew'⟩⟩, fun _ => ?_⟩
        rw [held_single]
        exact houter.trans (hpays'.append_right _)

/-! ### The recursion -/

/-- A node that is handed on is counted under its hash, unless it is short and stands in another one. -/
def Fits (inLine : Bool) (h : H256) (t : RadixTree 16 Bytes) : Prop :=
  (inLine = true → referred (item t) = []) ∧ (inLine = false → h = hashOf (item t))

theorem fits_inLine (hnone : referred (item t) = []) (h₀ : H256) : Fits true h₀ t :=
  ⟨fun _ => hnone, fun htrue => absurd htrue.symm Bool.false_ne_true⟩

theorem fits_hash (h : h₀ = hashOf (item t)) : Fits false h₀ t :=
  ⟨fun hfalse => absurd hfalse Bool.false_ne_true, fun _ => h⟩

/-- What is counted for a node: one that stands in another one is not, and neither is one that has just been made. -/
def due (inLine : Bool) (t : RadixTree 16 Bytes) : List H256 := (if inLine then [] else referred (item t)) ++ held t

theorem Fits.due_eq (h : Fits inLine h₀ t) : due inLine t = outer t := by
  cases inLine with
  | true => rw [outer, h.1 rfl]; rfl
  | false => rfl

theorem does_mergeAtAux {rec : RLP → H256 → NibbleSlice → Bool → M Tree} (hn : n.tree = some (ref (item t)))
    (hwritten : Written s t) {place : List Tree × Nat} (hplace : n.place = some place) (hvalue : ¬ValueAt place)
    (hrec : ∀ (r : RLP) (h : H256) (inLine : Bool) (s' : TrieDB), r.tree = some (item t) → Fits inLine h t → Stored s' t →
      Does (rec r h key inLine) s' (Makes C s' (outer t) t')) :
    Does (mergeAtAux rec n key) s fun b s' => (b = ref (item t') ∧ Written s' t') ∧ (C → Pays s s' (outer t) (outer t')) := by
  have hstream : ∀ (r : RLP) (h : H256) (inLine : Bool) (s' : TrieDB), r.tree = some (item t) → Fits inLine h t → Grew s s' →
      OnlyReads s s' → Does (do let b ← rec r h key inLine; streamNode b) s' fun b s' =>
        (b = ref (item t') ∧ Written s' t') ∧ (C → Pays s s' (outer t) (outer t')) := by
    intro r h inLine s' hr hfits hgrew hreads
    refine (hrec r h inLine s' hr hfits (hwritten.2.grew hgrew)).bind ?_
    rintro _ s'' - - ⟨⟨rfl, hstored⟩, hpays⟩
    refine (does_streamNode _).mono fun _ _ hgrew' _ hb => ⟨⟨hb.1, hb.2.1, hstored.grew hgrew'⟩, fun hC => ?_⟩
    exact (hreads.pays.trans (hpays hC)).trans (hb.2.2.append_right _)
  rw [mergeAtAux]
  by_cases hempty : t = empty
  · have htrue := (isEmpty_iff hn).2 hempty
    have htree : n.tree = some (item t) := by rw [hn, hempty, item, ref_rlpNull]
    rw [if_neg (by simp [htrue])]
    refine hstream n _ _ s htree (fits_inLine ?_ _) .rfl .rfl
    rw [hempty, item, referred_rlpNull]
  · have hfalse : n.isEmpty = false := by rwa [Bool.eq_false_iff, ne_eq, isEmpty_iff hn]
    obtain ⟨ts, -, hitem⟩ := exists_item_eq hempty
    have hkept := hwritten.1
    rw [hitem] at hn hkept hstream
    rw [hfalse, Bool.not_false, Bool.and_true]
    split
    · rename_i hlist
      rw [Bool.not_eq_true', ← Bool.not_eq_true, isList_ref_iff hn] at hlist
      rw [ref, if_neg hlist] at hn
      refine (does_toHash hn hplace hvalue (P := fun h s' => h = hashOf (.list ts) ∧ s' = s.note n.place) ⟨rfl, rfl⟩).bind ?_
      rintro _ _ hgrew - ⟨rfl, rfl⟩
      refine (does_node (s := s.note n.place) (hkept (not_lt.1 hlist))
        (P := fun d s' => d = some (.list ts) ∧ s' = s.note n.place) ⟨rfl, rfl⟩).bind ?_
      rintro _ _ - - ⟨rfl, rfl⟩
      exact hstream (.of (some (.list ts))) _ _ _ rfl (fits_hash (by rw [hitem]; rfl)) hgrew (onlyReads_note _)
    · rename_i hlist
      rw [Bool.not_eq_true', Bool.not_eq_false, isList_ref_iff hn] at hlist
      refine hstream n _ _ s ?_ (fits_inLine ?_ _) .rfl .rfl
      · rw [hn, ref, if_pos hlist]
      · rw [hitem, referred, if_pos hlist]

theorem does_mergeAt_empty (hr : r.tree = some rlpNull) (h : H256) (key : NibbleSlice) (inLine : Bool) :
    Does (mergeAt v (fuel + 1) r h key inLine) s (Makes C s (outer .empty) (.leaf key.toList v)) := by
  rw [mergeAt, if_pos (isEmpty_of_rlpNull hr)]
  exact does_place_empty hr key v

theorem does_mergeAt_branch_nil (hr : r.tree = some (item (.branch c o))) (hs : Stored s (.branch c o))
    (hkey : key.toList = [])
    (h : H256) (inLine : Bool) : Does (mergeAt v (fuel + 1) r h key inLine) s
      (Makes C s (outer (.branch c o)) (.branch c (some v))) := by
  have hbranch := isSeventeen_of_eq hr
  rw [mergeAt, if_neg (by simp [hbranch.isEmpty]), if_neg (by simp [hbranch.isNode]),
    if_neg (by rw [hbranch.itemCount]; decide), if_pos (NibbleSlice.size_eq_zero_iff.2 hkey)]
  exact does_place_branch hr hs key v

theorem does_mergeAt_branch_cons (hr : r.tree = some (item (.branch c o))) (hs : Stored s (.branch c o))
    (hkey : key.toList = i :: k) (hh : inLine = false → h = hashOf (item (.branch c o)))
    (hrec : ∀ (r : RLP) (h : H256) (key : NibbleSlice) (inLine : Bool) (s' : TrieDB),
      r.tree = some (item (c i)) → key.toList = k →
      Fits inLine h (c i) → Stored s' (c i) → Does (mergeAt v fuel r h key inLine) s' (Makes C s' (outer (c i)) t')) :
    Does (mergeAt v (fuel + 1) r h key inLine) s (Makes C s (due inLine (.branch c o)) (.branch (update c i t') o)) := by
  have hbranch := isSeventeen_of_eq hr
  obtain ⟨hget, hmid⟩ := NibbleSlice.get_zero hkey
  have hsize : key.size ≠ 0 := NibbleSlice.size_ne_zero hkey
  rw [mergeAt, if_neg (by simp [hbranch.isEmpty]), if_neg (by simp [hbranch.isNode]),
    if_neg (by rw [hbranch.itemCount]; decide), if_neg hsize]
  refine (does_killOuter hr hh).bind fun _ s' hgrew _ hpays => ?_
  have hs' := hs.grew hgrew
  dsimp only
  rw [hget, hbranch.sub, hbranch.items]
  refine (does_mergeAtAux rfl (hs' i) rfl (not_valueAt_branch _ _ _) fun r h inLine s'' hr' =>
    hrec r h _ inLine s'' hr' hmid).bind ?_
  rintro _ s'' hgrew' - ⟨⟨rfl, hwritten⟩, hpays'⟩
  refine .pure ⟨⟨?_, stored_update (fun j => Written.grew (hs' j) hgrew') hwritten⟩, fun hC => ?_⟩
  · rw [set_branchItems_ref, item]
  · exact (hpays.append_right _).trans ((hpays' hC).child o o)

theorem does_mergeAt_ext (hr : r.tree = some (item (.ext p t))) (hs : Stored s (.ext p t)) (hkey : key.toList = p ++ k)
    (hh : inLine = false → h = hashOf (item (.ext p t)))
    (hrec : ∀ (r : RLP) (h : H256) (key : NibbleSlice) (inLine : Bool) (s' : TrieDB),
      r.tree = some (item t) → key.toList = k →
      Fits inLine h t → Stored s' t → Does (mergeAt v fuel r h key inLine) s' (Makes C s' (outer t) t')) :
    Does (mergeAt v (fuel + 1) r h key inLine) s (Makes C s (due inLine (.ext p t)) (.ext p t')) := by
  have htwo := isTwo_of_eq hr
  have hmid := htwo.toList_mid hkey
  rw [mergeAt, if_neg (by simp [htwo.isEmpty]), if_neg (by simp [htwo.isNode]), if_pos htwo.itemCount]
  dsimp only
  rw [htwo.isLeaf, Bool.and_false, if_neg nofun, if_pos (by simp [htwo.contains_iff, hkey])]
  refine (does_killOuter hr hh).bind fun _ s' hgrew _ hpays => ?_
  rw [htwo.sub, htwo.items]
  refine (does_mergeAtAux rfl (Written.grew hs hgrew) rfl (not_valueAt_ext p _) fun r h inLine s'' hr' =>
    hrec r h _ inLine s'' hr' hmid).bind ?_
  rintro _ s'' - - ⟨⟨rfl, hwritten⟩, hpays'⟩
  exact .pure ⟨⟨rfl, hwritten⟩, fun hC => (hpays.append_right _).trans (hpays' hC)⟩

/-- Where nothing is shared, the leaf or the extension becomes a branch, and the new value goes into an empty place there.
A new value at the end of the branch itself gives up a reference to the branch, which has none. -/
theorem does_mergeAt_hang (hparts : Parts t leaf k₀ x) (hr : r.tree = some (item t)) (hs : Stored s t)
    (hhead : k₀.head? ≠ key.toList.head?) (h : H256) (inLine : Bool) :
    Does (mergeAt v (fuel + 3) r h key inLine) s (Makes (key.toList ≠ []) s (outer t) (hang key.toList v t.split)) := by
  obtain ⟨c, o, hsplit⟩ := hparts.splits
  have htwo := isTwo_of_eq (hr.trans (congrArg some hparts.item))
  have hsame : ¬k₀ = key.toList := fun heq => hhead (congrArg List.head? heq)
  have hcontains : leaf = false → ¬k₀ <+: key.toList := by
    intro hleaf hpre
    obtain ⟨j, k₁, rfl⟩ := exists_cons_of_ne_nil (hparts.ne_nil hleaf)
    obtain ⟨rest, hrest⟩ := hpre
    rw [← hrest] at hhead
    exact hhead rfl
  rw [mergeAt, if_neg (by simp [htwo.isEmpty]), if_neg (by simp [htwo.isNode]), if_pos htwo.itemCount]
  dsimp only
  rw [htwo.isLeaf, if_neg (by simp [htwo.same_iff', hsame]),
    if_neg (by simpa [htwo.contains_iff] using fun hpre hleaf => hcontains hleaf hpre),
    NibbleSlice.shared_eq, htwo.key, shared_eq_zero hhead.symm, if_neg nofun]
  refine (hparts.does_branch hr hs).bind ?_
  rintro _ s' - - ⟨⟨rfl, hs'⟩, hpays⟩
  rw [hsplit.eq] at hs' hpays ⊢
  cases hkey : key.toList with
  | nil =>
    exact (does_mergeAt_branch_nil (C := True) rfl hs' hkey _ _).mono fun _ _ _ _ hb => ⟨hb.1, fun hne => absurd rfl hne⟩
  | cons i k =>
    have hempty : c i = empty := by
      by_contra hne
      exact hhead (by rw [hkey]; exact (hsplit.only (some i) hne).symm)
    refine Does.mono (does_mergeAt_branch_cons (C := i :: k ≠ []) rfl hs' hkey
      (fun htrue => absurd htrue.symm Bool.false_ne_true) fun r h key' inLine s'' hr' hkey' _ _ => ?_)
      fun _ _ _ _ hb => hb.after (hpays trivial)
    rw [hempty] at hr' ⊢
    rw [← hkey']
    exact does_mergeAt_empty hr' h key' inLine

/-- The keys part behind `p`. -/
theorem does_mergeAt_part (hparts : Parts t leaf (p ++ k₀) x) (hparts' : Parts u leaf k₀ x) (hnil : p = [] → t = u)
    (hu : ∀ {s : TrieDB}, Stored s t → Stored s u) (hheld : held t = held u) (hr : r.tree = some (item t)) (hs : Stored s t)
    (hkey : key.toList = p ++ rest) (hhead : k₀.head? ≠ rest.head?) (h : H256) (inLine : Bool) :
    Does (mergeAt v (fuel + 5) r h key inLine) s (Makes (rest ≠ []) s (outer t) ((hang rest v u.split).prepend p)) := by
  by_cases hp : p = []
  · obtain rfl := hnil hp
    rw [hp, nil_append] at hkey
    rw [hp, prepend_nil, ← hkey]
    rw [← hkey] at hhead
    exact does_mergeAt_hang hparts' hr hs hhead h inLine
  · have htwo := isTwo_of_eq (hr.trans (congrArg some hparts.item))
    have hsame : ¬p ++ k₀ = key.toList := by
      rw [hkey, append_cancel_left_eq]
      exact fun heq => hhead (congrArg List.head? heq)
    have hcontains : leaf = false → ¬p ++ k₀ <+: key.toList := by
      intro hleaf hpre
      obtain ⟨j, k₁, rfl⟩ := exists_cons_of_ne_nil (hparts'.ne_nil hleaf)
      rw [hkey, prefix_append_right_inj] at hpre
      obtain ⟨rest', rfl⟩ := hpre
      exact hhead rfl
    have hshared : key.shared (keyOfItem r) = p.length := by
      rw [NibbleSlice.shared_eq, htwo.key, hkey, shared_append, shared_eq_zero hhead.symm, Nat.add_zero]
    rw [mergeAt, if_neg (by simp [htwo.isEmpty]), if_neg (by simp [htwo.isNode]), if_pos htwo.itemCount]
    dsimp only
    rw [htwo.isLeaf, if_neg (by simp [htwo.same_iff', hsame]),
      if_neg (by simpa [htwo.contains_iff] using fun hpre hleaf => hcontains hleaf hpre),
      hshared, if_pos (by simpa using hp)]
    refine (does_cleve (hr.trans (congrArg some hparts.item)) hp hparts'.item (hu hs)).bind ?_
    rintro _ s' - - ⟨⟨rfl, hs'⟩, hpays⟩
    rw [← hparts.item] at hpays
    have houter : Pays s s' (outer t) (outer u) := by
      rw [outer, hheld]
      exact hpays.append_right _
    obtain ⟨c, o, hsplit⟩ := hparts'.splits
    obtain ⟨c', o', hhang⟩ := (isBranch_hang hsplit rest v).exists_eq
    rw [hhang, prepend_branch hp, ← hhang]
    refine Does.mono (does_mergeAt_ext (C := rest ≠ []) rfl hs' hkey (fun htrue => absurd htrue.symm Bool.false_ne_true)
      fun r h key' inLine s'' hr' hkey' _ hs'' => ?_) fun _ _ _ _ hb => hb.after houter
    rw [← hkey'] at hhead ⊢
    exact does_mergeAt_hang hparts' hr' hs'' hhead h inLine

/-- What is stored does not go on behind the key. -/
def Apart (f : List Nibble → Option Bytes) (k : List Nibble) : Prop := ∀ k', f k' ≠ none → k <+: k' → k' = k

omit [Sha3] in
theorem Apart.ext (h : Apart (ext p t).find (p ++ rest)) : Apart t.find rest := fun k' hk' hpre =>
  append_cancel_left (h (p ++ k') (by rwa [find_ext, behind_append]) ((prefix_append_right_inj p).2 hpre))

omit [Sha3] in
theorem Apart.child (h : Apart (.branch c o : RadixTree 16 Bytes).find (i :: k)) : Apart (c i).find k := fun k' hk' hpre =>
  (List.cons.inj (h (i :: k') hk' (cons_prefix_cons.2 ⟨rfl, hpre⟩))).2

omit [Sha3] in
/-- Where a key parts from the way to something that is stored, it goes on. -/
theorem Apart.ne_nil (h : Apart t.find (p ++ rest)) (hk : t.find (p ++ (k₀ ++ k)) ≠ none)
    (hhead : k₀.head? ≠ rest.head?) : rest ≠ [] := by
  rintro rfl
  rw [append_nil] at h
  have hlonger := append_cancel_left ((h _ hk (prefix_append p _)).trans (append_nil p).symm)
  rw [(append_eq_nil_iff.1 hlonger).1] at hhead
  exact hhead rfl

/-- The new node is the one of the tree with the new value. -/
theorem does_mergeAt (ht : t.Canonical) (hs : Stored s t) (hr : r.tree = some (item t)) (hfuel : key.toList.length + 6 ≤ fuel)
    (hfits : Fits inLine h t) : Does (mergeAt v fuel r h key inLine) s
      (Makes (Apart t.find key.toList) s (outer t) (t.insert v key.toList)) := by
  obtain ⟨fuel, rfl⟩ := Nat.exists_eq_add_of_le' (show 6 ≤ fuel by omega)
  induction t generalizing fuel r key s h inLine with
  | empty => exact does_mergeAt_empty hr h key inLine
  | leaf k₀ w =>
    rw [RadixTree.insert]
    by_cases hk : k₀ = key.toList
    · have htwo := isTwo_of_eq hr
      rw [if_pos hk, ← hk, mergeAt, if_neg (by simp [htwo.isEmpty]), if_neg (by simp [htwo.isNode]), if_pos htwo.itemCount]
      dsimp only
      rw [htwo.isLeaf, if_pos (by simp [htwo.same_iff', hk])]
      exact does_place_leaf hr key v
    · obtain ⟨p, rest, r₀, hkey, rfl, hlen, hhead⟩ := exists_part key.toList k₀ hk
      rw [if_neg hk, hlen, hkey, drop_left, drop_left, take_left]
      refine Does.mono (does_mergeAt_part (parts_leaf (p ++ r₀) w) (parts_leaf r₀ w) (fun hp => by rw [hp]; rfl)
        (fun _ => trivial) rfl hr hs hkey hhead h inLine) fun _ _ _ _ hb => hb.imp fun hapart => ?_
      refine hapart.ne_nil (k := []) ?_ hhead
      rw [append_nil, find_leaf_self]
      exact Option.some_ne_none w
  | ext k₀ t ih =>
    rw [RadixTree.insert]
    by_cases hk : k₀ <+: key.toList
    · obtain ⟨rest, hrest⟩ := hk
      have hlen : 0 < k₀.length := length_pos_iff.2 ht.1
      rw [if_pos (hrest ▸ prefix_append k₀ rest)]
      rw [← hrest, length_append] at hfuel
      rw [← hrest, drop_left, ← hfits.due_eq]
      obtain ⟨fuel, rfl⟩ := Nat.exists_eq_succ_of_ne_zero (n := fuel) (by omega)
      refine does_mergeAt_ext hr hs hrest.symm hfits.2 fun r h key' inLine s' hr' hkey' hfits' hs' => ?_
      rw [← hkey']
      refine (ih ht.2.2 hs' hr' hfits' fuel (by rw [hkey']; omega)).mono fun _ _ _ _ hb => hb.imp Apart.ext
    · obtain ⟨p, rest, r₀, hkey, rfl, hlen, hhead⟩ := exists_part key.toList k₀ fun heq => hk (heq ▸ prefix_rfl)
      rw [if_neg hk, hlen, hkey, drop_left, drop_left, take_left]
      have hr₀ : r₀ ≠ [] := fun hnil => hk (by rw [hkey, hnil, append_nil]; exact prefix_append p rest)
      refine Does.mono (does_mergeAt_part (parts_ext ht.1 ht.2.1 ht.2.2) (parts_ext hr₀ ht.2.1 ht.2.2)
        (fun hp => by rw [hp]; rfl) id rfl hr hs hkey hhead h inLine) fun _ _ _ _ hb => hb.imp fun hapart => ?_
      obtain ⟨k, w, hw⟩ := ht.2.2.exists_find ht.2.1.ne_empty
      refine hapart.ne_nil (k := k) ?_ hhead
      rw [← append_assoc, find_ext, behind_append, hw]
      exact Option.some_ne_none w
  | branch c o ih =>
    cases hkey : key.toList with
    | nil => exact does_mergeAt_branch_nil hr hs hkey h inLine
    | cons i k =>
      rw [hkey, List.length_cons] at hfuel
      obtain ⟨fuel, rfl⟩ := Nat.exists_eq_succ_of_ne_zero (n := fuel) (by omega)
      rw [← hfits.due_eq]
      refine does_mergeAt_branch_cons hr hs hkey hfits.2 fun r h key' inLine s' hr' hkey' hfits' hs' => ?_
      rw [← hkey']
      exact (ih i (ht.2 i) hs' hr' hfits' fuel (by rw [hkey']; omega)).mono fun _ _ _ _ hb => hb.imp Apart.child

end Kmdx.Trie
