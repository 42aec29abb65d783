import Kmdx.Trie.Insertion

/-!
# Removal

Where the way to the key is `Passable`, `deleteAt` makes the node of the tree without the key (`does_deleteAt`), or finds
that the key is not there. Elsewhere it takes the value of a leaf or of a branch for the hash of a node, or reads behind
the end of the key.
-/

namespace Kmdx.Trie

open Rlp RadixTree Function
open List hiding isEmpty_iff

variable {r n : RLP} {k k₀ p rest : List Nibble} {key : NibbleSlice} {x : Tree} {t t' : RadixTree 16 Bytes}
  {c : Nibble → RadixTree 16 Bytes} {o : Option Bytes} {v : Bytes} {i : Nibble} {fuel : Nat}

/-- No value is in the way of a removal, and the key does not end at a branch without a value. -/
def Passable : RadixTree 16 Bytes → List Nibble → Prop
  | .empty, _ => True
  | .leaf k₀ _, k => k₀ <+: k → k₀ = k
  | .ext k₀ t, k => ∀ rest, k = k₀ ++ rest → Passable t rest
  | .branch _ o, [] => o.isSome
  | .branch c o, i :: k => Passable (c i) k ∧
  (o.isSome → (c i).find k ≠ none → (c i).erase k = .empty → ∃ j, j ≠ i ∧ c j ≠ .empty)

/-- The way in terms of what is stored: no proper prefix of the key is alone with it, and where the key is not stored, what
is stored behind it goes on with one nibble. -/
structure Clear (f : List Nibble → Option Bytes) (k : List Nibble) : Prop where
  beside : ∀ k₀, f k₀ ≠ none → k₀ <+: k → k₀ ≠ k → ∃ k₁, f k₁ ≠ none ∧ k₀ <+: k₁ ∧ k₁ ≠ k₀ ∧ k₁ ≠ k
  behind : f k = none → ∀ i j r r', f (k ++ i :: r) ≠ none → f (k ++ j :: r') ≠ none → i = j

theorem clear_behind_iff {f : List Nibble → Option Bytes} : Clear (RadixTree.behind p f) (p ++ rest) ↔ Clear f rest := by
  constructor
  · intro h
    refine ⟨fun k₀ hk₀ hpre hne => ?_, fun hnone i j r r' hi hj => ?_⟩
    · obtain ⟨k₁, hk₁, hpre₁, hne₁, hne₁'⟩ := h.beside (p ++ k₀) (by rwa [behind_append])
          (by simpa using hpre) (by simpa using hne)
      obtain ⟨q, rfl⟩ := (prefix_append p k₀).trans hpre₁
      rw [behind_append] at hk₁
      exact ⟨q, hk₁, by simpa using hpre₁, by simpa using hne₁, by simpa using hne₁'⟩
    · refine h.behind (by rwa [behind_append]) i j r r' ?_ ?_
      · rwa [append_assoc, behind_append]
      · rwa [append_assoc, behind_append]
  · intro h
    refine ⟨fun k₀ hk₀ hpre hne => ?_, fun hnone i j r r' hi hj => ?_⟩
    · obtain ⟨q, rfl⟩ := behind_isSome (Option.isSome_iff_ne_none.2 hk₀)
      rw [behind_append] at hk₀
      obtain ⟨k₁, hk₁, hpre₁, hne₁, hne₁'⟩ := h.beside q hk₀ (by simpa using hpre) (by simpa using hne)
      exact ⟨p ++ k₁, by rwa [behind_append], by simpa using hpre₁, by simpa using hne₁, by simpa using hne₁'⟩
    · rw [behind_append] at hnone
      rw [append_assoc, behind_append] at hi hj
      exact h.behind hnone i j r r' hi hj

theorem clear_of_not_prefix {f : List Nibble → Option Bytes} (h : ¬p <+: k) : Clear (RadixTree.behind p f) k := by
  have hstored : ∀ q, RadixTree.behind p f q ≠ none → p <+: q := fun q hq => behind_isSome (Option.isSome_iff_ne_none.2 hq)
  refine ⟨fun k₀ hk₀ hpre _ => absurd ((hstored k₀ hk₀).trans hpre) h, fun _ i j r r' hi hj => ?_⟩
  have hlonger : ∀ i r, p <+: k ++ i :: r → ∃ q, p = k ++ i :: q := by
    intro i r hp
    rcases prefix_or_prefix_of_prefix hp (prefix_append k (i :: r)) with hpk | ⟨q, rfl⟩
    · exact absurd hpk h
    · rw [prefix_append_right_inj] at hp
      cases q with
      | nil => exact absurd (by simp) h
      | cons a q =>
        rw [cons_prefix_cons] at hp
        exact ⟨q, by rw [hp.1]⟩
  obtain ⟨q, hq⟩ := hlonger i r (hstored _ hi)
  obtain ⟨q', hq'⟩ := hlonger j r' (hstored _ hj)
  rw [hq, append_cancel_left_eq] at hq'
  exact (List.cons.inj hq').1

theorem clear_branch_nil_iff (ht : (RadixTree.branch c o).Canonical) : Clear (RadixTree.branch c o).find [] ↔ o.isSome := by
  constructor
  · intro h
    by_contra hnone
    rw [Option.not_isSome_iff_eq_none] at hnone
    have hslot : ∀ s, InUse c o s → ∃ i r, s = some i ∧ (RadixTree.branch c o).find (i :: r) ≠ none := by
      intro s hs
      cases s with
      | none =>
        rw [hnone] at hs
        cases hs
      | some i =>
        obtain ⟨r, v, hv⟩ := (ht.2 i).exists_find hs
        exact ⟨i, r, rfl, by rw [find_branch_cons, hv]; nofun⟩
    obtain ⟨⟨s, s', hne, hs, hs'⟩, -⟩ := ht
    obtain ⟨i, r, rfl, hi⟩ := hslot s hs
    obtain ⟨j, r', rfl, hj⟩ := hslot s' hs'
    exact hne (congrArg some (h.behind hnone i j r r' hi hj))
  · intro h
    refine ⟨fun k₀ _ hpre hne => absurd (prefix_nil.1 hpre) hne, fun hnone => ?_⟩
    rw [find_branch_nil] at hnone
    rw [hnone] at h
    cases h

theorem clear_branch_cons_iff : Clear (RadixTree.branch c o).find (i :: k) ↔
    Clear (c i).find k ∧ (o.isSome → ∃ j r, (c j).find r ≠ none ∧ j :: r ≠ i :: k) := by
  constructor
  · intro h
    refine ⟨⟨fun k₀ hk₀ hpre hne => ?_, fun hnone a b r r' ha hb => h.behind hnone a b r r' ha hb⟩, fun hsome => ?_⟩
    · obtain ⟨k₁, hk₁, ⟨q, rfl⟩, hne₁, hne₁'⟩ := h.beside (i :: k₀) hk₀ (by simpa using hpre) (by simpa using hne)
      exact ⟨k₀ ++ q, hk₁, prefix_append k₀ q, by simpa using hne₁, by simpa using hne₁'⟩
    · obtain ⟨k₁, hk₁, -, hne₁, hne₁'⟩ := h.beside [] (Option.isSome_iff_ne_none.1 hsome) nil_prefix (cons_ne_nil i k).symm
      obtain ⟨j, r, rfl⟩ := exists_cons_of_ne_nil hne₁
      exact ⟨j, r, hk₁, hne₁'⟩
  · rintro ⟨h, hother⟩
    refine ⟨fun k₀ hk₀ hpre hne => ?_, fun hnone a b r r' ha hb => h.behind hnone a b r r' ha hb⟩
    cases k₀ with
    | nil =>
      obtain ⟨j, r, hr, hne'⟩ := hother (Option.isSome_iff_ne_none.2 hk₀)
      exact ⟨j :: r, hr, nil_prefix, cons_ne_nil j r, hne'⟩
    | cons j k₀ =>
      obtain ⟨rfl, hpre'⟩ := cons_prefix_cons.1 hpre
      obtain ⟨k₁, hk₁, hpre₁, hne₁, hne₁'⟩ := h.beside k₀ hk₀ hpre' fun heq => hne (by rw [heq])
      exact ⟨j :: k₁, hk₁, by simpa using hpre₁, by simpa using hne₁, by simpa using hne₁'⟩

/-- Beside a value, something else than the key is stored behind a branch. -/
theorem exists_other_iff (ht : (RadixTree.branch c o).Canonical) :
    (∃ j r, (c j).find r ≠ none ∧ j :: r ≠ i :: k) ↔
      ((c i).find k ≠ none → (c i).erase k = .empty → ∃ j, j ≠ i ∧ c j ≠ .empty) := by
  constructor
  · rintro ⟨j, r, hr, hne⟩ - hgone
    refine ⟨j, ?_, ?_⟩
    · rintro rfl
      have hfind := find_erase (c j) k r
      rw [hgone, if_neg fun heq => hne (by rw [heq])] at hfind
      exact hr hfind.symm
    · intro hempty
      rw [hempty] at hr
      exact hr rfl
  · intro h
    by_cases hfind : (c i).find k = none
    · -- Whatever else is in use at the branch, the key is not in it.
      obtain ⟨⟨s, s', hne, hs, hs'⟩, hc⟩ := ht
      have hletter : ∃ j, c j ≠ .empty := by
        cases s with
        | some j => exact ⟨j, hs⟩
        | none =>
          cases s' with
          | none => exact absurd rfl hne
          | some j => exact ⟨j, hs'⟩
      obtain ⟨j, hj⟩ := hletter
      obtain ⟨r, v, hr⟩ := (hc j).exists_find hj
      refine ⟨j, r, by rw [hr]; nofun, fun heq => ?_⟩
      obtain ⟨rfl, rfl⟩ := List.cons.inj heq
      rw [hr] at hfind
      cases hfind
    · by_cases hgone : (c i).erase k = .empty
      · obtain ⟨j, hji, hj⟩ := h hfind hgone
        obtain ⟨r, v, hr⟩ := (ht.2 j).exists_find hj
        exact ⟨j, r, by rw [hr]; nofun, fun heq => hji (List.cons.inj heq).1⟩
      · obtain ⟨r, v, hr⟩ := ((ht.2 i).erase k).exists_find hgone
        rw [find_erase] at hr
        split at hr
        · cases hr
        · rename_i hne
          exact ⟨i, r, by rw [hr]; nofun, fun heq => hne (List.cons.inj heq).2⟩

/-- The way is passable where what is stored is clear of it. -/
theorem passable_iff (ht : t.Canonical) (k : List Nibble) : Passable t k ↔ Clear t.find k := by
  induction t generalizing k with
  | empty => exact iff_of_true trivial ⟨fun _ hk₀ => absurd rfl hk₀, fun _ _ _ _ _ hi => absurd rfl hi⟩
  | leaf k₀ v =>
    have hstored : ∀ q, (leaf k₀ v).find q ≠ none → k₀ = q := fun q hq => by
      by_contra hne
      exact hq (if_neg hne)
    constructor
    · intro h
      refine ⟨fun q hq hpre hne => ?_, fun _ i j r r' hi hj => ?_⟩
      · obtain rfl := hstored q hq
        exact absurd (h hpre) hne
      · have heq := (hstored _ hi).symm.trans (hstored _ hj)
        rw [append_cancel_left_eq] at heq
        exact (List.cons.inj heq).1
    · intro h hpre
      by_contra hne
      obtain ⟨k₁, hk₁, -, hne₁, -⟩ := h.beside k₀ (by rw [find_leaf_self]; nofun) hpre hne
      exact hne₁ (hstored k₁ hk₁).symm
  | ext k₀ t ih =>
    by_cases hk : k₀ <+: k
    · obtain ⟨rest, rfl⟩ := hk
      change _ ↔ Clear (RadixTree.behind k₀ t.find) _
      rw [clear_behind_iff, ← ih ht.2.2 rest]
      refine ⟨fun h => h rest rfl, fun h rest' heq => ?_⟩
      rwa [← append_cancel_left heq]
    · refine iff_of_true (fun rest heq => absurd (heq ▸ prefix_append k₀ rest) hk) ?_
      exact clear_of_not_prefix hk
  | branch c o ih =>
    cases k with
    | nil => exact (clear_branch_nil_iff ht).symm
    | cons i k =>
      rw [clear_branch_cons_iff, ← ih i (ht.2 i) k]
      exact and_congr_right fun _ => forall_congr' fun _ => (exists_other_iff ht).symm

/-- Empty values are not stored. -/
def Valued (t : RadixTree 16 Bytes) : Prop := ∀ k v, t.find k = some v → v ≠ []

theorem Valued.ext (h : Valued (.ext p t)) : Valued t := fun k v hv => h (p ++ k) v (by rw [find_ext, behind_append, hv])

theorem Valued.child (h : Valued (.branch c o)) (i : Nibble) : Valued (c i) := fun k v hv => h (i :: k) v hv

/-- No branch has an empty value. -/
def ValuedBranches : RadixTree 16 Bytes → Prop
  | .ext _ t => ValuedBranches t
  | .branch c o => o ≠ some [] ∧ ∀ i, ValuedBranches (c i)
  | _ => True

theorem Valued.branches (h : Valued t) : ValuedBranches t := by
  induction t with
  | empty => trivial
  | leaf k v => trivial
  | ext k t ih => exact ih h.ext
  | branch c o ih => exact ⟨fun ho => h [] [] ho rfl, fun i => ih i (h.child i)⟩

/-- The value of a branch is not empty. -/
theorem isEmpty_last {f : Nibble → Tree} (h : IsSeventeen r f (.data (o.getD []))) (hv : ValuedBranches (.branch c o)) :
    (16 ≠ 255 && !(r.sub 16).isEmpty) = o.isSome := by
  rw [h.last]
  cases o with
  | none => rfl
  | some v =>
    have hfalse : v.isEmpty = false := isEmpty_eq_false_iff.2 fun hv' => hv.1 (congrArg some hv')
    change (true && !v.isEmpty) = true
    rw [hfalse]
    rfl

theorem low_toByte : ∀ i : Nibble, Nibble.low (UInt8.ofNat i.val) = i := by decide

/-- The index of a way to go on. -/
def indexOf : Option Nibble → Nat
  | none => 16
  | some i => i.val

theorem range_eq_map_slots : List.range 17 = (slots 16).map indexOf := by decide

variable [Sha3] {s s' : TrieDB}

/-- What `deleteAt` gives for the node of `t`. -/
def Removes (t : RadixTree 16 Bytes) (k : List Nibble) (s : TrieDB) : Option Tree → TrieDB → Prop
  | none, s' => t.find k = none ∧ OnlyReads s s'
  | some b, s' => t.find k ≠ none ∧ Yields (t.erase k) b s' ∧ Pays s s' (outer t) (held (t.erase k))

/-! ### The steps -/

theorem two_of_not_isBranch (ht : t ≠ empty) (hbranch : ¬t.IsBranch) :
    ∃ leaf k x, item t = .list (twoItems leaf k x) ∧ (∀ p, item (t.prepend p) = .list (twoItems leaf (p ++ k) x)) ∧
      (∀ p, held (t.prepend p) = held t) ∧ ∀ {s : TrieDB} (p), Stored s t → Stored s (t.prepend p) := by
  cases t with
  | empty => exact absurd rfl ht
  | leaf k v => exact ⟨true, k, .data v, rfl, fun _ => rfl, fun _ => rfl, fun _ => id⟩
  | ext k t => exact ⟨false, k, ref (item t), rfl, fun _ => rfl, fun _ => rfl, fun _ => id⟩
  | branch c o => exact absurd trivial hbranch

/-- A reference is to a leaf or to an extension, or to a branch. -/
theorem does_isTwoItemNode {place : List Tree × Nat} (hn : n.tree = some (ref (item t))) (ht : t ≠ empty)
    (hwritten : Written s t) (hp : n.place = some place) (hvalue : ¬ValueAt place) :
    Does (isTwoItemNode n) s fun b s' => (b = true ↔ ¬t.IsBranch) ∧ OnlyReads s s' := by
  have hcount : ∀ r : RLP, r.tree = some (item t) → (r.itemCount = 2 ↔ ¬t.IsBranch) := by
    intro r hr
    by_cases hbranch : t.IsBranch
    · obtain ⟨c, o, rfl⟩ := hbranch.exists_eq
      rw [(isSeventeen_of_eq hr).itemCount]
      exact iff_of_false (by decide) (not_not.2 hbranch)
    · obtain ⟨leaf, k, x, hitem, -⟩ := two_of_not_isBranch ht hbranch
      rw [(isTwo_of_eq (hr.trans (congrArg some hitem))).itemCount]
      exact iff_of_true rfl hbranch
  obtain ⟨ts, -, hitem⟩ := exists_item_eq ht
  have hkept := hwritten.1
  rw [hitem] at hn hkept hcount
  rw [isTwoItemNode]
  by_cases hlen : (Tree.list ts).encode.length < 32
  · rw [ref, if_pos hlen] at hn
    have hlist : n.isList = true := by rw [RLP.isList, hn]
    rw [RLP.isData, hn, if_neg (by rintro ⟨⟩)]
    refine .pure ⟨?_, .rfl⟩
    rw [hlist, Bool.true_and, decide_eq_true_iff]
    exact hcount n hn
  · rw [ref, if_neg hlen] at hn
    rw [RLP.isData, hn, if_pos rfl]
    refine (does_toHash hn hp hvalue (P := fun h s' => h = hashOf (.list ts) ∧ s' = s.note n.place) ⟨rfl, rfl⟩).bind ?_
    rintro _ _ _ - ⟨rfl, rfl⟩
    refine (does_node (s := s.note n.place) (hkept (not_lt.1 hlen))
      (P := fun d s' => d = some (.list ts) ∧ s' = s.note n.place) ⟨rfl, rfl⟩).bind ?_
    rintro _ _ - - ⟨rfl, rfl⟩
    refine .pure ⟨?_, onlyReads_note _⟩
    rw [decide_eq_true_iff]
    exact hcount _ rfl

theorem does_release {place : List Tree × Nat} (hn : n.tree = some (ref (item t))) (ht : t ≠ empty) (hwritten : Written s t)
    (hp : n.place = some place) (hvalue : ¬ValueAt place) :
    Does (release n) s fun d s' => d = some (item t) ∧ Pays s s' (referred (item t)) [] := by
  obtain ⟨ts, -, hitem⟩ := exists_item_eq ht
  have hkept := hwritten.1
  rw [hitem] at hn hkept ⊢
  rw [release]
  split
  · rename_i hlist
    rw [hn, referred, ref, if_pos ((isList_ref_iff hn).1 hlist), if_pos ((isList_ref_iff hn).1 hlist)]
    exact .pure ⟨rfl, .rfl⟩
  · rename_i hlist
    have hlen : ¬(Tree.list ts).encode.length < 32 := fun h => hlist ((isList_ref_iff hn).2 h)
    rw [ref, if_neg hlen] at hn
    rw [referred, if_neg hlen]
    refine (does_toHash hn hp hvalue (P := fun h s' => h = hashOf (.list ts) ∧ s' = s.note n.place) ⟨rfl, rfl⟩).bind ?_
    rintro _ _ _ - ⟨rfl, rfl⟩
    refine (does_node (s := s.note n.place) (hkept (not_lt.1 hlen))
      (P := fun d s' => d = some (.list ts) ∧ s' = s.note n.place) ⟨rfl, rfl⟩).bind ?_
    rintro _ _ - - ⟨rfl, rfl⟩
    exact (does_forceKillNode _).bind fun _ _ _ _ hpays => .pure ⟨rfl, (onlyReads_note n.place).pays.trans hpays⟩

/-- An extension and what stands behind it, as one node. -/
theorem does_graft (hr : r.tree = some (.list (twoItems false p (ref (item t))))) (ht : t ≠ empty) (hbranch : ¬t.IsBranch)
    (hwritten : Written s t) :
    Does (graft r) s fun b s' => Yields (t.prepend p) b s' ∧ Pays s s' (outer t) (held (t.prepend p)) := by
  have htwo := isTwo_of_eq hr
  obtain ⟨leaf, k, x, hitem, hprepend, hheld, hstored⟩ := two_of_not_isBranch ht hbranch
  rw [graft, if_neg (by simp [htwo.isList, htwo.itemCount]), htwo.sub]
  refine (does_release (t := t) rfl ht hwritten rfl (not_valueAt_ext p _)).bind ?_
  rintro _ s' hgrew - ⟨rfl, hpays⟩
  have hn := isTwo_of_eq (r := .of (some (item t))) (congrArg some hitem)
  dsimp only
  rw [if_neg (by simp [hn.itemCount]), hexPrefixEncodeBoth_eq, htwo.key, hn.key, hn.isLeaf, hn.items, hheld]
  exact .pure ⟨⟨(hprepend p).symm, hstored p (hwritten.2.grew hgrew)⟩, hpays.append_right _⟩

theorem merge_eq (h : IsSeventeen r (fun j => ref (item (c j))) x) (hi : c i ≠ empty) :
    merge r i.val = pure (.list (twoItems false [i] (ref (item (c i))))) := by
  have hempty : ¬(r.sub i.val).isEmpty = true := by
    rw [h.sub, isEmpty_iff (t := c i) rfl]
    exact hi
  have hkey : hexPrefixEncode ⟨[UInt8.ofNat i.val], 0⟩ false 1 2 = hexPrefix false [i] := by
    refine (hexPrefixEncode_upTo _ false 1 (e := 2) le_rfl).trans ?_
    rw [NibbleSlice.toList_mk_zero, nibbles_cons, low_toByte]
    rfl
  rw [merge, if_neg (by simp [h.isList, h.itemCount]), if_pos i.isLt.ne, if_neg hempty, hkey, h.sub]
  rfl

/-- The only child of a branch. -/
theorem does_collapse (h : IsSeventeen r (fun j => ref (item (c j))) x) (hi : c i ≠ empty) (hwritten : Written s (c i)) :
    Does (collapse r i.val) s fun b s' => Yields ((c i).prepend [i]) b s' ∧
      Pays s s' (outer (c i)) (held ((c i).prepend [i])) := by
  rw [collapse, h.sub]
  refine (does_isTwoItemNode (t := c i) rfl hi hwritten rfl (not_valueAt_branch _ _ _)).bind ?_
  rintro two s' hgrew - ⟨htwo, hreads⟩
  rw [merge_eq h hi]
  refine (Does.pure (P := fun b s'' => b = .list (twoItems false [i] (ref (item (c i)))) ∧ s'' = s') ⟨rfl, rfl⟩).bind ?_
  rintro _ _ - - ⟨rfl, rfl⟩
  have hwritten' := hwritten.grew hgrew
  split <;> rename_i hb
  · exact (does_graft rfl hi (htwo.1 hb) hwritten').mono fun _ _ _ _ h => ⟨h.1, hreads.pays.trans h.2⟩
  · obtain ⟨c', o', heq⟩ := (not_not.1 fun hbranch => hb (htwo.2 hbranch) : (c i).IsBranch).exists_eq
    rw [heq, prepend_branch (cons_ne_nil _ _), ← heq]
    exact .pure ⟨⟨rfl, hwritten'⟩, hreads.pays⟩

theorem uniqueInUse_eq {except : Nat} {u : Option Bytes} (hr : ∀ i, except ≠ indexOf (some i))
    (h : IsSeventeen r (fun j => ref (item (c j))) x)
    (hlast : (16 ≠ except && !(r.sub 16).isEmpty) = u.isSome) : uniqueInUse r except = (onlyInUse c u).map indexOf := by
  have hfilter : (List.range 17).filter (fun i => i ≠ except && !(r.sub i).isEmpty) =
      ((slots 16).filter (inUse c u)).map indexOf := by
    rw [range_eq_map_slots, filter_map]
    refine congrArg (List.map indexOf) (filter_congr fun s _ => ?_)
    cases s with
    | none => exact hlast
    | some i =>
      have hne : i.val ≠ except := fun heq => hr i heq.symm
      change (decide (i.val ≠ except) && !(r.sub i.val).isEmpty) = !(c i).isEmpty
      rw [decide_eq_true hne, Bool.true_and, h.sub, Bool.not_inj_iff, Bool.eq_iff_iff, isEmpty_iff rfl]
      cases c i <;> simp [RadixTree.isEmpty]
  rw [uniqueInUse, hfilter, onlyInUse]
  rcases (slots 16).filter (inUse c u) with _ | ⟨_, _ | ⟨_, _⟩⟩
  · rfl
  · rfl
  · rfl

/-! ### The recursion -/

theorem does_deleteAtAux {rec : RLP → NibbleSlice → M (Option Tree)} (hn : n.tree = some (ref (item t)))
    (hwritten : Written s t) {place : List Tree × Nat} (hp : n.place = some place) (hvalue : ¬ValueAt place)
    (hrec : ∀ (r : RLP) (s' : TrieDB), r.tree = some (item t) → Stored s' t → Does (rec r key) s' (Removes t key.toList s')) :
    Does (deleteAtAux rec n key) s fun b s' => match b with
      | none => t.find key.toList = none ∧ OnlyReads s s'
      | some b => t.find key.toList ≠ none ∧ (b = ref (item (t.erase key.toList)) ∧ Written s' (t.erase key.toList)) ∧
        Pays s s' (outer t) (outer (t.erase key.toList)) := by
  rw [deleteAtAux]
  split
  · rename_i hempty
    rw [(isEmpty_iff hn).1 hempty]
    exact .pure ⟨rfl, .rfl⟩
  · rename_i hempty
    have ht : t ≠ empty := fun heq => hempty ((isEmpty_iff hn).2 heq)
    refine (does_deref_item hn ht hwritten hp hvalue).bind ?_
    rintro _ s' hgrew - ⟨rfl, hreads⟩
    refine (hrec (.of (some (item t))) s' rfl (hwritten.2.grew hgrew)).bind ?_
    rintro (_ | b) s'' - - hb
    · exact .pure ⟨hb.1, hreads.trans hb.2⟩
    · obtain ⟨hfind, ⟨rfl, hstored⟩, hpays⟩ := hb
      refine (does_streamNode (item (t.erase key.toList))).bind ?_
      rintro _ _ hgrew' - ⟨rfl, hkept, hpays'⟩
      exact .pure ⟨hfind, ⟨rfl, hkept, hstored.grew hgrew'⟩, (hreads.pays.trans hpays).trans (hpays'.append_right _)⟩

/-- The branch without one of its values or subtrees: what is left of it. -/
theorem does_contract {u : Option Nat} (hu : u = (onlyInUse c o).map indexOf) (hvalue : onlyInUse c o ≠ some none)
    (h : IsSeventeen r (fun j => ref (item (c j))) x) (hs : Stored s (.branch c o)) {b : Tree} (hb : b = item (.branch c o)) :
    Does (match u with
      | some used => some <$> collapse r used
      | none => return some b) s fun b s' => ∃ b', b = some b' ∧ Yields (contract c o) b' s' ∧
        Pays s s' (held (.branch c o)) (held (contract c o)) := by
  rw [contract]
  rcases honly : onlyInUse c o with _ | _ | i
  · rw [hu, honly]
    exact .pure ⟨b, rfl, ⟨hb, hs⟩, .rfl⟩
  · exact absurd honly hvalue
  · obtain ⟨hi, hothers⟩ := onlyInUse_eq_some_iff.1 honly
    rw [hu, honly, held_branch_of_only (i := i) fun j hj => ?_]
    · exact (does_collapse h hi (hs i)).map fun b' s' hb' => ⟨b', rfl, hb'⟩
    · by_contra hne
      exact hj (Option.some_inj.1 (hothers (some j) hne))

/-- Where the way is passable, the new node is the one of the tree without the key. -/
theorem does_deleteAt (ht : t.Canonical) (hv : ValuedBranches t) (hs : Stored s t) (hr : r.tree = some (item t))
    (hpass : Passable t key.toList)
    (hfuel : key.toList.length < fuel) : Does (deleteAt fuel r key) s (Removes t key.toList s) := by
  obtain ⟨fuel, rfl⟩ := Nat.exists_eq_succ_of_ne_zero (Nat.ne_zero_of_lt hfuel)
  induction t generalizing fuel r key s with
  | empty =>
    rw [deleteAt, if_pos (isEmpty_of_rlpNull hr)]
    exact .pure ⟨rfl, .rfl⟩
  | leaf k₀ v =>
    have htwo := isTwo_of_eq hr
    rw [deleteAt, if_neg (by simp [htwo.isEmpty]), if_neg (by simp [htwo.isNode]), if_pos htwo.itemCount]
    dsimp only
    by_cases hk : k₀ = key.toList
    · rw [if_pos (by simp [htwo.same_iff', htwo.isLeaf, hk])]
      refine (does_killNode hr).bind fun _ s' _ _ hpays => .pure ⟨?_, ?_⟩
      · rw [hk, find_leaf_self]
        rintro ⟨⟩
      · rw [hk, RadixTree.erase, if_pos rfl, ← hk, outer_leaf]
        exact ⟨⟨rfl, trivial⟩, hpays⟩
    · rw [if_neg (by simp [htwo.same_iff', hk]), if_neg (by simpa [htwo.contains_iff] using fun hpre => hk (hpass hpre))]
      exact .pure ⟨if_neg hk, .rfl⟩
  | ext k₀ t ih =>
    have htwo := isTwo_of_eq hr
    rw [deleteAt, if_neg (by simp [htwo.isEmpty]), if_neg (by simp [htwo.isNode]), if_pos htwo.itemCount]
    dsimp only
    rw [if_neg (by simp [htwo.isLeaf])]
    by_cases hk : k₀ <+: key.toList
    · rw [if_pos (htwo.contains_iff.2 hk), htwo.sub]
      obtain ⟨rest, hrest⟩ := hk
      have hmid := htwo.toList_mid hrest.symm
      have hlen : 0 < k₀.length := length_pos_iff.2 ht.1
      have hfind : (ext k₀ t).find key.toList = t.find rest := by rw [← hrest, find_ext, behind_append]
      rw [← hrest, length_append] at hfuel
      obtain ⟨fuel, rfl⟩ := Nat.exists_eq_succ_of_ne_zero (n := fuel) (by omega)
      refine Does.bind (does_deleteAtAux (t := t) rfl hs rfl (not_valueAt_ext k₀ _) fun r' s' hr' hs' =>
        ih ht.2.2 hv hs' hr' (by rw [hmid]; exact hpass rest hrest.symm) fuel (by rw [hmid]; omega)) ?_
      rw [hmid]
      rintro (_ | b) s' - - hb
      · exact .pure ⟨hfind.trans hb.1, hb.2⟩
      · obtain ⟨hne, ⟨rfl, hwritten⟩, hpays⟩ := hb
        have herase := ht.2.1.erase_ne_empty ht.2.2 rest
        refine (does_killNode hr).bind fun _ s'' hgrew _ hpays' => ?_
        rw [htwo.items]
        have hitem : (twoItems false k₀ (ref (item t))).set 1 (ref (item (t.erase rest))) =
            twoItems false k₀ (ref (item (t.erase rest))) := rfl
        rw [hitem]
        refine (does_isTwoItemNode (t := t.erase rest) rfl herase (hwritten.grew hgrew) rfl (not_valueAt_ext k₀ _)).bind ?_
        rintro two s₃ hgrew' - ⟨htwo', hreads⟩
        have hwritten' := (hwritten.grew hgrew).grew hgrew'
        have houter : Pays s s₃ (outer (ext k₀ t)) (outer (t.erase rest)) :=
          ((hpays.append_left _).trans (hpays'.append_right _)).trans hreads.pays
        rw [← hrest] at hfind ⊢
        split <;> rename_i hb
        · refine (does_graft rfl herase (htwo'.1 hb) hwritten').map fun b s₄ hb => ⟨?_, ?_⟩
          · rwa [hfind]
          · rw [erase_ext_append]
            exact ⟨hb.1, houter.trans hb.2⟩
        · refine .pure ⟨by rwa [hfind], ?_⟩
          obtain ⟨c', o', heq⟩ := (not_not.1 fun hbranch => hb (htwo'.2 hbranch) : (t.erase rest).IsBranch).exists_eq
          rw [erase_ext_append, heq, prepend_branch ht.1, ← heq]
          exact ⟨⟨rfl, hwritten'⟩, houter⟩
    · rw [if_neg fun h => hk (htwo.contains_iff.1 h)]
      exact .pure ⟨behind_of_not hk, .rfl⟩
  | branch c o ih =>
    have hbranch := isSeventeen_of_eq hr
    rw [deleteAt, if_neg (by simp [hbranch.isEmpty]), if_neg (by simp [hbranch.isNode]),
      if_neg (by rw [hbranch.itemCount]; decide)]
    cases hkey : key.toList with
    | nil =>
      rw [hkey] at hpass
      obtain ⟨v, rfl⟩ := Option.isSome_iff_exists.1 hpass
      have hlast : (r.sub 16).isEmpty = false := by
        rw [hbranch.last]
        exact isEmpty_eq_false_iff.2 fun hv' => hv.1 (congrArg some hv')
      rw [if_pos (by simp [NibbleSlice.size_eq_zero_iff, hkey, hlast])]
      refine (does_killNode hr).bind fun _ s' hgrew _ hpays => ?_
      refine (does_contract (c := c) (o := none) ?_ ?_ hbranch (hs.grew hgrew) ?_).mono ?_
      · exact uniqueInUse_eq (fun i => i.isLt.ne') hbranch (by simp)
      · intro heq
        cases (onlyInUse_eq_some_iff.1 heq).1
      · rw [hbranch.items, set_branchItems_last]
        rfl
      · rintro _ s'' - - ⟨b, rfl, hb, hpays'⟩
        exact ⟨by rintro ⟨⟩, hb, (hpays.append_right _).trans hpays'⟩
    | cons i k =>
      rw [hkey] at hpass
      rw [hkey, List.length_cons] at hfuel
      obtain ⟨hget, hmid⟩ := NibbleSlice.get_zero hkey
      have hsize : key.size ≠ 0 := NibbleSlice.size_ne_zero hkey
      obtain ⟨fuel, rfl⟩ := Nat.exists_eq_succ_of_ne_zero (n := fuel) (by omega)
      rw [if_neg (by simp [hsize]), if_neg hsize]
      dsimp only
      rw [hget, hbranch.sub]
      refine Does.bind (does_deleteAtAux (t := c i) rfl (hs i) rfl (not_valueAt_branch _ _ _) fun r' s' hr' hs' =>
        ih i (ht.2 i) (hv.2 i) hs' hr' (by rw [hmid]; exact hpass.1) fuel (by rw [hmid]; omega)) ?_
      rw [hmid]
      rintro (_ | b) s' hgrew - hb
      · exact .pure hb
      · obtain ⟨hne, ⟨rfl, hwritten⟩, hpays⟩ := hb
        refine (does_killNode hr).bind fun _ s'' hgrew' _ hpays' => ?_
        rw [hbranch.items, set_branchItems_ref]
        have hnew := isSeventeen_of_eq (r := .of (some (.list
          (branchItems (fun j => ref (item (update c i ((c i).erase k) j))) (.data (o.getD [])))))) rfl
        refine (does_contract (c := update c i ((c i).erase k)) (o := o) ?_ ?_ hnew ?_ rfl).mono ?_
        · exact uniqueInUse_eq (fun j => by have := j.isLt; rw [indexOf]; omega) hnew (isEmpty_last hnew hv)
        · intro heq
          obtain ⟨hsome, huniq⟩ := onlyInUse_eq_some_iff.1 heq
          have hgone : (c i).erase k = empty := by
            by_contra hleft
            cases huniq (some i) (by rw [InUse, update_self]; exact hleft)
          obtain ⟨j, hji, hj⟩ := hpass.2 hsome hne hgone
          cases huniq (some j) (by rw [InUse, update_of_ne hji]; exact hj)
        · exact (stored_update (fun j => Written.grew (hs j) hgrew) hwritten).grew hgrew'
        · rintro _ s₃ - - ⟨b, rfl, hb, hpays''⟩
          exact ⟨hne, hb, (((hpays.child o o).append_left _).trans (hpays'.append_right _)).trans hpays''⟩

/-! ### Where the way is not passable -/

/-- A value is taken for a hash. -/
theorem strays_toHash {place : List Tree × Nat} (hp : n.place = some place) (hvalue : ValueAt place) : Strays n.toHash s := by
  rw [RLP.toHash, hp]
  exact Strays.bind (x := M.note (some place)) (fun _ => ⟨place, mem_cons_self, hvalue⟩) _

theorem strays_collapse {f : Nibble → Tree} {b : Bytes} (h : IsSeventeen r f (.data b)) : Strays (collapse r 16) s := by
  rw [collapse, h.last, isTwoItemNode]
  exact ((strays_toHash rfl (valueAt_branch f _)).bind _).bind _

theorem strays_deleteAtAux {rec : RLP → NibbleSlice → M (Option Tree)} (hn : n.tree = some (ref (item t))) (ht : t ≠ empty)
    (hwritten : Written s t) {place : List Tree × Nat} (hp : n.place = some place) (hvalue : ¬ValueAt place)
    (hrec : ∀ (r : RLP) (s' : TrieDB), r.tree = some (item t) → Stored s' t → Strays (rec r key) s') :
    Strays (deleteAtAux rec n key) s := by
  rw [deleteAtAux, if_neg fun hempty => ht ((isEmpty_iff hn).1 hempty)]
  refine (does_deref_item hn ht hwritten hp hvalue).strays ?_
  rintro _ s' hgrew - ⟨rfl, -⟩
  exact Strays.bind (hrec _ s' rfl (hwritten.2.grew hgrew)) _

/-- Elsewhere the removal throws or takes a value for a hash. -/
theorem strays_deleteAt (ht : t.Canonical) (hv : Valued t) (hs : Stored s t) (hr : r.tree = some (item t))
    (hpass : ¬Passable t key.toList) (hfuel : key.toList.length < fuel) : Strays (deleteAt fuel r key) s := by
  obtain ⟨fuel, rfl⟩ := Nat.exists_eq_succ_of_ne_zero (Nat.ne_zero_of_lt hfuel)
  induction t generalizing fuel r key s with
  | empty => exact absurd trivial hpass
  | leaf k₀ v =>
    have htwo := isTwo_of_eq hr
    have hpre : k₀ <+: key.toList := by
      by_contra hpre
      exact hpass fun h => absurd h hpre
    have hne : k₀ ≠ key.toList := fun heq => hpass fun _ => heq
    have hvalue : (RLP.mk (some (.data v)) (some (twoItems true k₀ (.data v), 1))).isEmpty = false :=
      isEmpty_eq_false_iff.2 (hv k₀ v find_leaf_self)
    rw [deleteAt, if_neg (by simp [htwo.isEmpty]), if_neg (by simp [htwo.isNode]), if_pos htwo.itemCount]
    dsimp only
    rw [if_neg (by simp [htwo.same_iff', hne]), if_pos (htwo.contains_iff.2 hpre), htwo.sub, deleteAtAux,
      if_neg (by simp [hvalue]), deref, if_neg (by rintro ⟨⟩)]
    exact (((strays_toHash rfl (valueAt_leaf k₀ _)).bind _).bind _).bind _
  | ext k₀ t ih =>
    have htwo := isTwo_of_eq hr
    have hex : ∃ rest, key.toList = k₀ ++ rest ∧ ¬Passable t rest := by
      by_contra hno
      refine hpass fun rest heq => ?_
      by_contra hrest
      exact hno ⟨rest, heq, hrest⟩
    obtain ⟨rest, hrest, hpass⟩ := hex
    have hmid := htwo.toList_mid hrest
    have hlen : 0 < k₀.length := length_pos_iff.2 ht.1
    rw [hrest, length_append] at hfuel
    obtain ⟨fuel, rfl⟩ := Nat.exists_eq_succ_of_ne_zero (n := fuel) (by omega)
    rw [deleteAt, if_neg (by simp [htwo.isEmpty]), if_neg (by simp [htwo.isNode]), if_pos htwo.itemCount]
    dsimp only
    rw [if_neg (by simp [htwo.isLeaf]), if_pos (htwo.contains_iff.2 (hrest ▸ prefix_append k₀ rest)), htwo.sub]
    refine Strays.bind (strays_deleteAtAux (t := t) rfl ht.2.1.ne_empty hs rfl (not_valueAt_ext k₀ _)
      fun r' s' hr' hs' => ?_) _
    exact ih ht.2.2 hv.ext hs' hr' (by rwa [hmid]) fuel (by rw [hmid]; omega)
  | branch c o ih =>
    have hbranch := isSeventeen_of_eq hr
    rw [deleteAt, if_neg (by simp [hbranch.isEmpty]), if_neg (by simp [hbranch.isNode]),
      if_neg (by rw [hbranch.itemCount]; decide)]
    cases hkey : key.toList with
    | nil =>
      rw [hkey] at hpass
      obtain rfl : o = none := Option.not_isSome_iff_eq_none.1 hpass
      have hlast : (r.sub 16).isEmpty = true := by
        rw [hbranch.last]
        rfl
      rw [if_neg (by simp [hlast]), if_pos (NibbleSlice.size_eq_zero_iff.2 hkey)]
      exact strays_fail _
    | cons i k =>
      rw [hkey] at hpass
      rw [hkey, List.length_cons] at hfuel
      obtain ⟨hget, hmid⟩ := NibbleSlice.get_zero hkey
      have hsize : key.size ≠ 0 := NibbleSlice.size_ne_zero hkey
      obtain ⟨fuel, rfl⟩ := Nat.exists_eq_succ_of_ne_zero (n := fuel) (by omega)
      rw [if_neg (by simp [hsize]), if_neg hsize]
      dsimp only
      rw [hget, hbranch.sub]
      by_cases hchild : Passable (c i) k
      · -- The child goes, and only the value of the branch is left.
        have hleft : o.isSome ∧ (c i).find k ≠ none ∧ (c i).erase k = .empty ∧ ∀ j, j ≠ i → c j = .empty := by
          refine ⟨?_, ?_, ?_, fun j hji => ?_⟩ <;> by_contra hno <;> refine hpass ⟨hchild, fun hsome hfind hgone => ?_⟩
          · exact absurd hsome hno
          · exact absurd hno hfind
          · exact absurd hgone hno
          · exact ⟨j, hji, hno⟩
        obtain ⟨hsome, hfind, hgone, hothers⟩ := hleft
        refine Does.strays (does_deleteAtAux (t := c i) rfl (hs i) rfl (not_valueAt_branch _ _ _) fun r' s' hr' hs' =>
          does_deleteAt (ht.2 i) (hv.child i).branches hs' hr' (by rwa [hmid]) (by rw [hmid]; omega)) ?_
        rw [hmid]
        rintro (_ | b) s' - - hb
        · exact absurd hb.1 hfind
        · obtain ⟨-, ⟨rfl, -⟩, -⟩ := hb
          refine (does_killNode hr).strays fun _ s'' _ _ _ => ?_
          rw [hbranch.items, set_branchItems_ref]
          have hnew := isSeventeen_of_eq (r := .of (some (.list
            (branchItems (fun j => ref (item (update c i ((c i).erase k) j))) (.data (o.getD [])))))) rfl
          have honly : onlyInUse (update c i ((c i).erase k)) o = some none := by
            refine onlyInUse_eq_some_iff.2 ⟨hsome, fun s hs => ?_⟩
            cases s with
            | none => rfl
            | some j =>
              by_cases hji : j = i
              · rw [hji, InUse, update_self] at hs
                exact absurd hgone hs
              · rw [InUse, update_of_ne hji] at hs
                exact absurd (hothers j hji) hs
          rw [uniqueInUse_eq (u := o) (fun j => by have := j.isLt; rw [indexOf]; omega) hnew
            (isEmpty_last hnew hv.branches), honly]
          exact Strays.bind (strays_collapse hnew) _
      · refine Strays.bind (strays_deleteAtAux (t := c i) rfl ?_ (hs i) rfl (not_valueAt_branch _ _ _)
          fun r' s' hr' hs' => ?_) _
        · intro hempty
          rw [hempty] at hchild
          exact hchild trivial
        · exact ih i (ht.2 i) (hv.child i) hs' hr' (by rwa [hmid]) fuel (by rw [hmid]; omega)

end Kmdx.Trie
