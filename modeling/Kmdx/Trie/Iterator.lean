import Kmdx.Lib.RadixWalk
import Kmdx.Trie.Holds

/-!
# Iterators over a trie (`GenericTrieDB::iterator`, `libdevcore/TrieDB.h`)

An iterator keeps the nodes from the root to where it is. `next` and `next(NibbleSlice)` go on in rounds. Without a key they
do the same (`round_clear`), and a round leaves what is ahead of the iterator (`does_round`).
-/

namespace Kmdx.Trie

open Rlp RadixTree

variable [Sha3]

/-- `iterator::Node` -/
structure TrailNode where
  rlp : Option Tree
  /-- as hexPrefixEncoding. -/
  key : Bytes
  /-- 255 -> entering, 16 -> actually at the node, 17 -> exiting, 0-15 -> actual children. -/
  child : Byte

namespace TrailNode

def setChild (b : TrailNode) (i : Nibble) : TrailNode := { b with child := i.toByte }

def setFirstChild (b : TrailNode) : TrailNode := { b with child := 16 }

def incrementChild (b : TrailNode) : TrailNode :=
  { b with child := if b.child = 16 then 0 else if b.child = 15 then 17 else b.child + 1 }

end TrailNode

structure Iterator where
  /-- `m_trail`, the last node first -/
  trail : List TrailNode
  /-- Whether `m_that` is set. -/
  that : Bool

/-- Whether a round of `next` is the last one. -/
inductive Round
  | done (it : Iterator)
  | again (it : Iterator) (k : NibbleSlice)

namespace Iterator

/-- `m_that->deref` -/
def deref (it : Iterator) (n : RLP) : M (Option Tree) := if it.that then Trie.deref n else M.fail .nullPointer

/-- The loop over the children of `b` at the end of a round, with what is below `b`. It passes over 17 of them at most. -/
def leadOn (rlp : RLP) (it : Iterator) : Nat → TrailNode → NibbleSlice → M Round
  | 0, _, _ => M.fail .diverges
  | rounds + 1, b, k =>
    -- finished here.
    if b.child = 17 then return .again it k.clear
    else if !(rlp.sub b.child.toNat).isEmpty then
      -- have a value at this node - exit now.
      if b.child = 16 then return .done { it with trail := b :: it.trail }
      -- lead-on to another node - enter child.
      else do
        let t ← it.deref (rlp.sub b.child.toNat)
        let node : TrailNode := ⟨t, hexPrefixEncodeBoth (keyOf b.key) ⟨[b.child], 1⟩ false, 255⟩
        return .again { it with trail := node :: b :: it.trail } k
    else it.leadOn rlp rounds b.incrementChild k.clear

/-- A round of `next(NibbleSlice)` -/
def round (it : Iterator) (k : NibbleSlice) : M Round :=
  match it.trail with
  | [] => return .done { it with that := false }
  | b :: trail =>
    let rlp := RLP.of b.rlp
    let popped := { it with trail }
    if b.child = 255 then
      -- Kill our search as soon as we hit an empty node.
      if rlp.isEmpty then return .again popped k.clear
      else if !isNode rlp then return .done { it with that := false }
      else if rlp.itemCount = 2 then
        let keyOfRLP := keyOfItem rlp
        if !k.contains keyOfRLP && !k.isEarlierThan keyOfRLP then return .again popped k.clear
        else
          let k := if k.contains keyOfRLP then k else k.clear
          let k := k.mid (min k.size keyOfRLP.size)
          let b := { b with key := hexPrefixEncodeBoth (keyOf b.key) keyOfRLP false }
          if isLeaf rlp then
            if k.size = 0 then return .done { it with trail := { b with child := 0 } :: trail }
            -- Still data in key we're supposed to be looking for when we're at a leaf. Go for next one.
            else return .again popped k.clear
          else do
            let t ← it.deref (rlp.sub 1)
            return .again { it with trail := { b with rlp := t } :: trail } k
      else if k.size ≠ 0 then popped.leadOn rlp 18 (b.setChild (k.get 0)) (k.mid 1)
      else popped.leadOn rlp 18 b.setFirstChild k
    else if !(rlp.isList && rlp.itemCount = 17) then return .again popped k.clear
    else popped.leadOn rlp 18 b.incrementChild k

/-- A round of `next()` -/
def roundFirst (it : Iterator) : M Round :=
  match it.trail with
  | [] => return .done { it with that := false }
  | b :: trail =>
    let rlp := RLP.of b.rlp
    let popped := { it with trail }
    if b.child = 255 then
      if rlp.isEmpty then return .again popped {}
      else if !isNode rlp then return .done { it with that := false }
      else if rlp.itemCount = 2 then
        let b := { b with key := hexPrefixEncodeBoth (keyOf b.key) (keyOfItem rlp) false }
        if isLeaf rlp then return .done { it with trail := { b with child := 0 } :: trail }
        else do
          let t ← it.deref (rlp.sub 1)
          return .again { it with trail := { b with rlp := t } :: trail } {}
      else popped.leadOn rlp 18 b.setFirstChild {}
    else if !(rlp.isList && rlp.itemCount = 17) then return .again popped {}
    else popped.leadOn rlp 18 b.incrementChild {}

/-- `next(NibbleSlice)` -/
def nextFrom : Nat → Iterator → NibbleSlice → M Iterator
  | 0, _, _ => M.fail .diverges
  | fuel + 1, it, k => do
    match ← it.round k with
    | .done it => return it
    | .again it k => nextFrom fuel it k

/-- `next()` -/
def next : Nat → Iterator → M Iterator
  | 0, _ => M.fail .diverges
  | fuel + 1, it => do
    match ← it.roundFirst with
    | .done it => return it
    | .again it _ => next fuel it

/-- one null byte is the HPE for the empty key. -/
def atRoot (root : Option Tree) : Iterator := ⟨[⟨root, [0], 255⟩], true⟩

/-- `at` -/
def entry (it : Iterator) : M (Bytes × Bytes) :=
  match it.trail with
  | [] => M.fail .assertion
  | b :: _ =>
    -- should be an integer number of bytes (i.e. not an odd number of nibbles).
    if b.key.length = 0 || b.key.getD 0 0 &&& 0x10 ≠ 0 then M.fail .assertion
    else
      let rlp := RLP.of b.rlp
      return (b.key.drop 1, (rlp.sub (if rlp.itemCount = 2 then 1 else 16)).payload)

end Iterator

/-- `begin` -/
def begin_ (fuel : Nat) : M Iterator := do
  let t ← node (← M.read).root
  (Iterator.atRoot t).next fuel

/-- `lower_bound` -/
def lowerBound (fuel : Nat) (key : Bytes) : M Iterator := do
  let t ← node (← M.read).root
  (Iterator.atRoot t).nextFrom fuel ⟨key, 0⟩

/-- What a loop from `it` to `end()` passes -/
def passed (fuel : Nat) : Nat → Iterator → M (List (Bytes × Bytes))
  | 0, _ => M.fail .diverges
  | rounds + 1, it =>
    if it.trail.isEmpty then return []
    else do
      let e ← it.entry
      let it ← it.next fuel
      let es ← passed fuel rounds it
      return e :: es

/-- What a loop passes from the beginning -/
def iterated (fuel : Nat) : M (List (Bytes × Bytes)) := do
  let it ← begin_ fuel
  passed fuel fuel it

/-- What a loop passes from a lower bound -/
def iteratedFrom (fuel : Nat) (key : Bytes) : M (List (Bytes × Bytes)) := do
  let it ← lowerBound fuel key
  passed fuel fuel it

/-! ### Rounds -/

variable {s s' : TrieDB} {it : Iterator} {b : TrailNode} {p : List Nibble} {f : Frame 16 Bytes} {fs : List (Frame 16 Bytes)}
  {t : RadixTree 16 Bytes} {c : Nibble → RadixTree 16 Bytes} {o : Option Bytes} {w i rounds : Nat} {k : NibbleSlice}
  {es : List (List Nibble × Bytes)}

/-- Without a key there is nothing to leave out. -/
theorem Iterator.round_clear (it : Iterator) : it.round {} = it.roundFirst := by
  have hearlier : ∀ k : NibbleSlice, (!({} : NibbleSlice).contains k && !({} : NibbleSlice).isEarlierThan k) = false := by
    intro k
    rw [Bool.and_eq_false_iff, Bool.not_eq_false', Bool.not_eq_false', NibbleSlice.contains_iff,
      NibbleSlice.isEarlierThan_iff]
    cases k.toList with
    | nil => exact .inl List.prefix_rfl
    | cons x l => exact .inr (List.nil_lt_cons x l)
  have hmid : ∀ k : NibbleSlice, (if ({} : NibbleSlice).contains k then ({} : NibbleSlice) else NibbleSlice.clear {}).mid
      (min (if ({} : NibbleSlice).contains k then ({} : NibbleSlice) else NibbleSlice.clear {}).size k.size) = {} := by
    intro k
    have hclear : NibbleSlice.clear {} = {} := rfl
    have hsize : min (NibbleSlice.size {}) k.size = 0 := Nat.zero_min _
    rw [hclear, ite_self, hsize]
    rfl
  rw [round, roundFirst]
  cases it.trail with
  | nil => rfl
  | cons b trail =>
    dsimp only
    rw [hearlier, hmid]
    rfl

/-- The child at which the loop comes to the `i`-th letter -/
def childAt (i : Nat) : Byte := if i = 16 then 17 else UInt8.ofNat i

/-- The child before that -/
def childBefore : Nat → Byte
  | 0 => 16
  | i + 1 => UInt8.ofNat i

omit [Sha3] in
theorem incrementChild_childBefore (hb : b.child = childBefore i) (hi : i ≤ 16) :
    b.incrementChild = { b with child := childAt i } := by
  have hall : ∀ i : Fin 17, (if childBefore i = 16 then 0 else if childBefore i = 15 then 17 else childBefore i + 1) =
      childAt i := by
    decide
  rw [TrailNode.incrementChild, hb, hall ⟨i, Nat.lt_succ_of_le hi⟩]

/-- `b` stands there in the state. -/
def ShowsNode (s : TrieDB) (b : TrailNode) : Frame 16 Bytes → Prop
  | .entering p t => b = ⟨some (item t), hexPrefix false p, 255⟩ ∧ t.Canonical ∧ Stored s t ∧ ValuedBranches t
  | .atLeaf p v => ∃ k, b = ⟨some (item (.leaf k v)), hexPrefix false p, 0⟩
  | .atBranch p c o i => b = ⟨some (item (.branch c o)), hexPrefix false p, childBefore i⟩ ∧ i ≤ 16 ∧
  Canonical (.branch c o) ∧
    Stored s (.branch c o) ∧ ValuedBranches (.branch c o)

theorem ShowsNode.grew (h : ShowsNode s b f) (hgrew : Grew s s') : ShowsNode s' b f := by
  cases f with
  | entering p t => exact ⟨h.1, h.2.1, h.2.2.1.grew hgrew, h.2.2.2⟩
  | atLeaf p v => exact h
  | atBranch p c o i => exact ⟨h.1, h.2.1, h.2.2.1, h.2.2.2.1.grew hgrew, h.2.2.2.2⟩

/-- The walk that the iterator stands for -/
structure Shows (s : TrieDB) (it : Iterator) (fs : List (Frame 16 Bytes)) : Prop where
  that : it.that = true
  trail : List.Forall₂ (ShowsNode s) it.trail fs

theorem Shows.grew (h : Shows s it fs) (hgrew : Grew s s') :
    Shows s' it fs := ⟨h.that, h.trail.imp fun _ _ hb => hb.grew hgrew⟩

theorem Shows.push (h : Shows s it fs) (hb : ShowsNode s b f) : Shows s { it with trail := b :: it.trail } (f :: fs) :=
  ⟨h.that, .cons hb h.trail⟩

/-- The iterator is at the first of the entries, with the others ahead of it. -/
def Found (w : Nat) (s : TrieDB) (it : Iterator) : List (List Nibble × Bytes) → Prop
  | [] => it.trail = []
  | e :: es => ∃ f fs, Shows s it (f :: fs) ∧ f.entry = some e ∧ ahead [] (f :: fs) = es ∧ weights (f :: fs) ≤ w

/-- What a round leads to, with `es` ahead of it -/
inductive Leads (w : Nat) (es : List (List Nibble × Bytes)) (bounded : Prop) (s : TrieDB) : Round → Prop
  | done {it : Iterator} : Found w s it es → Leads w es bounded s (.done it)
  | again {it : Iterator} {k : NibbleSlice} {fs : List (Frame 16 Bytes)} :
    Shows s it fs → weights fs < w → ahead k.toList fs = es →
    (k.toList ≠ [] → bounded) → Leads w es bounded s (.again it k)

theorem Leads.imp {bounded bounded' : Prop} {r : Round} (h : Leads w es bounded s r) (himp : bounded → bounded') :
    Leads w es bounded' s r := by
  cases h with
  | done hfound => exact .done hfound
  | again hshows hlt hes hk => exact .again hshows hlt hes fun hk' => himp (hk hk')

theorem leads_popped (h : Shows s it fs) (hw : weights fs < w) (hes : ahead [] fs = es) {bounded : Prop} :
    Leads w es bounded s (.again it k.clear) :=
  .again h hw hes fun hk => absurd rfl hk

theorem does_deref_iterator {n : RLP} {place : List Tree × Nat} (hthat : it.that = true)
    (hn : n.tree = some (ref (item t))) (ht : t ≠ empty)
    (hwritten : Written s t) (hp : n.place = some place) (hvalue : ¬ValueAt place) :
    Does (it.deref n) s fun d _ => d = some (item t) := by
  rw [Iterator.deref, if_pos hthat]
  exact (does_deref_item hn ht hwritten hp hvalue).mono fun _ _ _ _ h => h.1

omit [Sha3] in
theorem childAt_facts : ∀ i : Nibble, childAt i ≠ 17 ∧ childAt i ≠ 16 ∧ (childAt i).toNat = i.val ∧
    (if childAt i = 16 then 0 else if childAt i = 15 then 17 else childAt i + 1) = childAt (i + 1) ∧
    (NibbleSlice.mk [childAt i] 1).toList = [i] := by decide

section LeadOn

variable {rlp : RLP}

theorem leadOn_exit (h : b.child = 17) : it.leadOn rlp (rounds + 1) b k = pure (.again it k.clear) := by
  rw [Iterator.leadOn, if_pos h]

theorem leadOn_skip (h : b.child ≠ 17) (hempty : (rlp.sub b.child.toNat).isEmpty = true) :
    it.leadOn rlp (rounds + 1) b k = it.leadOn rlp rounds b.incrementChild k.clear := by
  rw [Iterator.leadOn, if_neg h, hempty, if_neg nofun]

theorem leadOn_value (h : b.child = 16) (hempty : (rlp.sub 16).isEmpty = false) :
    it.leadOn rlp (rounds + 1) b k = pure (.done { it with trail := b :: it.trail }) := by
  have hval : b.child.toNat = 16 := by rw [h]; rfl
  rw [Iterator.leadOn, if_neg (by rw [h]; decide), hval, hempty, Bool.not_false, if_pos rfl, if_pos h]

theorem leadOn_enter (h : b.child ≠ 17) (h' : b.child ≠ 16) (hempty : (rlp.sub b.child.toNat).isEmpty = false) :
    it.leadOn rlp (rounds + 1) b k = do
      let t ← it.deref (rlp.sub b.child.toNat)
      return .again { it with trail := ⟨t, hexPrefixEncodeBoth (keyOf b.key) ⟨[b.child], 1⟩ false, 255⟩ :: b
        :: it.trail } k := by
  rw [Iterator.leadOn, if_neg h, hempty, Bool.not_false, if_pos rfl, if_neg h']

end LeadOn

/-- From the `i`-th letter on, the loop leads to the first child that is there, or out of the branch. -/
theorem does_leadOn (hit : Shows s it fs) (hc : Canonical (.branch c o)) (hs : Stored s (.branch c o))
    (hv : ValuedBranches (.branch c o))
    (hi : i ≤ 16) (hw : weights (.atBranch p c o i :: fs) ≤ w) (hrounds : 16 - i < rounds) :
    Does (it.leadOn (.of (some (item (.branch c o)))) rounds ⟨some (item (.branch c o)), hexPrefix false p, childAt i⟩ k) s
      fun r s' => Leads w (ahead k.toList (.atBranch p c o i :: fs)) (k.toList ≠ []) s' r := by
  induction rounds generalizing i k with
  | zero => exact absurd hrounds (Nat.not_lt_zero _)
  | succ rounds ih =>
    rcases hi.eq_or_lt with rfl | hlt
    · -- All letters have been passed.
      rw [leadOn_exit rfl, ahead_atBranch_end]
      have hpos := (Frame.atBranch p c o 16).weight_pos
      rw [weights_cons] at hw
      exact .pure (leads_popped hit (by omega) rfl)
    · obtain ⟨hne17, hne16, hval, hincrement, hletter⟩ := childAt_facts ⟨i, hlt⟩
      have hsub := (isSeventeen_of_eq (r := .of (some (item (.branch c o)))) rfl).sub ⟨i, hlt⟩
      dsimp only at hne17 hne16 hval hincrement hletter hsub
      have hw' := hw
      rw [weights_cons, weight_atBranch hlt] at hw'
      have hempty : ((RLP.of (some (item (.branch c o)))).sub (childAt i).toNat).isEmpty = true ↔ c ⟨i, hlt⟩ = .empty := by
        rw [hval, hsub]
        exact isEmpty_iff rfl
      by_cases hchild : c ⟨i, hlt⟩ = .empty
      · rw [leadOn_skip hne17 (hempty.2 hchild), ahead_atBranch hlt, hchild, ahead_empty, TrailNode.incrementChild]
        dsimp only
        rw [hincrement]
        exact Does.mono (ih (k := k.clear) hlt (by rw [weights_cons]; omega) (by omega)) fun r s' _ _ h =>
          h.imp fun hk => absurd rfl hk
      · rw [leadOn_enter hne17 hne16 (Bool.eq_false_iff.2 fun h => hchild (hempty.1 h)), ahead_atBranch hlt]
        dsimp only
        rw [hval, hsub, hexPrefixEncodeBoth_eq, toList_keyOf_hexPrefix, hletter]
        refine Does.bind (does_deref_iterator (t := c ⟨i, hlt⟩) hit.that rfl hchild (hs _) rfl
          (not_valueAt_branch _ _ ⟨i, hlt⟩)) ?_
        rintro _ s' hgrew - rfl
        refine .pure (.again (((hit.grew hgrew).push ?_).push ?_) ?_ rfl id)
        · exact ⟨by rw [childAt, if_neg (by omega)]; rfl, hlt, hc, hs.grew hgrew, hv⟩
        · exact ⟨rfl, hc.2 _, (hs _).2.grew hgrew, hv.2 _⟩
        · rw [weights_cons, weights_cons]
          change (c ⟨i, hlt⟩).weight + _ < w
          omega

/-- What a round has to lead to -/
def Advances (s : TrieDB) (k : NibbleSlice) (fs : List (Frame 16 Bytes)) (x : M Round) : Prop :=
  Does x s fun r s' => Leads (weights fs) (ahead k.toList fs) (k.toList ≠ []) s' r

section Entering

variable {k₀ r : List Nibble} {v : Bytes} {leaf : Bool} {x : Tree}

/-- The node of a tree is to be entered. -/
abbrev Iterator.before (it : Iterator) (d : Tree) (p : List Nibble) :
    Iterator := { it with trail := ⟨some d, hexPrefix false p, 255⟩ :: it.trail }

omit [Sha3] in
theorem contains_of_remains (h : Remains k.toList k₀ r) {n : NibbleSlice} (hn : n.toList = k₀) :
    (k.contains n || k.isEarlierThan n) = true ∧
      ((if k.contains n then k else k.clear).mid (min (if k.contains n then k else k.clear).size n.size)).toList = r := by
  rcases h with heq | ⟨hlt, rfl⟩
  · have hcontains : k.contains n = true := NibbleSlice.contains_iff.2 (by rw [hn, heq]; exact List.prefix_append k₀ r)
    have hsize : min k.size n.size = k₀.length := by
      rw [← NibbleSlice.length_toList, ← NibbleSlice.length_toList, hn, heq, List.length_append]
      omega
    rw [hcontains, if_pos rfl, hsize, NibbleSlice.toList_mid, heq, List.drop_left]
    exact ⟨rfl, rfl⟩
  · have hcontains : k.contains n = false := by
      rw [Bool.eq_false_iff, Ne, NibbleSlice.contains_iff, hn]
      rintro ⟨r, hr⟩
      rw [← hr] at hlt
      exact List.not_lt_nil r ((append_lt_append_iff k₀).1 (by rwa [List.append_nil]))
    have hearlier : k.isEarlierThan n = true := NibbleSlice.isEarlierThan_iff.2 (by rwa [hn])
    rw [hcontains, hearlier, if_neg nofun, NibbleSlice.toList_mid, NibbleSlice.toList_clear]
    exact ⟨rfl, List.drop_nil⟩

variable {d : Tree} (it : Iterator) (p : List Nibble) (htwo : IsTwo (.of (some d)) leaf k₀ x)
include htwo

/-- A node of two items with what is before the key -/
theorem round_two_skip (hpre : ¬k₀ <+: k.toList) (hlt : ¬k.toList < k₀) :
    (it.before d p).round k = pure (.again it k.clear) := by
  have hcontains : k.contains (keyOfItem (.of (some d))) = false := by rwa [Bool.eq_false_iff, Ne, htwo.contains_iff]
  have hearlier : k.isEarlierThan (keyOfItem (.of (some d))) = false := by
    rwa [Bool.eq_false_iff, Ne, NibbleSlice.isEarlierThan_iff, htwo.key]
  rw [Iterator.round]
  dsimp only
  rw [if_pos rfl, htwo.isEmpty, if_neg nofun, htwo.isNode, Bool.not_true, if_neg nofun,
    if_pos htwo.itemCount, hcontains, hearlier, Bool.not_false, Bool.and_self, if_pos rfl]

theorem round_two (h : Remains k.toList k₀ r) : ∃ k' : NibbleSlice, k'.toList = r ∧ (it.before d p).round k =
    if leaf then
      if k'.size = 0 then pure (.done { it with trail := ⟨some d, hexPrefix false (p ++ k₀), 0⟩ :: it.trail })
      else pure (.again it k'.clear)
    else do
      let t ← it.deref ((RLP.of (some d)).sub 1)
      return .again { it with trail := ⟨t, hexPrefix false (p ++ k₀), 255⟩ :: it.trail } k' := by
  obtain ⟨hgoes, hk'⟩ := contains_of_remains h htwo.key
  refine ⟨_, hk', ?_⟩
  rw [Iterator.round]
  dsimp only
  rw [if_pos rfl, htwo.isEmpty, if_neg nofun, htwo.isNode, Bool.not_true, if_neg nofun, if_pos htwo.itemCount,
    ← Bool.not_or, hgoes, if_neg nofun, hexPrefixEncodeBoth_eq, toList_keyOf_hexPrefix, htwo.key, htwo.isLeaf]
  rfl

end Entering

theorem advances_leaf (p k₀ : List Nibble) (v : Bytes) (k : NibbleSlice) (hit : Shows s it fs) :
    Advances s k (.entering p (.leaf k₀ v) :: fs) ((it.before (item (.leaf k₀ v)) p).round k) := by
  have htwo := isTwo_of_eq (r := .of (some (item (.leaf k₀ v)))) rfl
  have hw : weights fs < weights (.entering p (.leaf k₀ v) :: fs) := Nat.lt_add_of_pos_left (weight_pos _)
  rw [Advances]
  rcases remains_or k.toList k₀ with ⟨r, hr⟩ | ⟨hpre, hlt⟩
  · obtain ⟨k', rfl, heq⟩ := round_two it p htwo hr
    rw [heq, if_pos rfl, ahead_leaf hr]
    split
    · rename_i hsize
      rw [if_pos (NibbleSlice.size_eq_zero_iff.1 hsize)]
      exact .pure (.done ⟨.atLeaf (p ++ k₀) v, fs, hit.push ⟨k₀, rfl⟩, rfl, rfl, le_rfl⟩)
    · rename_i hsize
      rw [if_neg fun hnil => hsize (NibbleSlice.size_eq_zero_iff.2 hnil)]
      exact .pure (leads_popped hit hw rfl)
  · rw [round_two_skip it p htwo hpre hlt, ahead_leaf_of_not_lt hpre hlt]
    exact .pure (leads_popped hit hw rfl)

theorem advances_ext {k₀ : List Nibble} (p : List Nibble) (k : NibbleSlice) (hit : Shows s it fs)
    (ht : Canonical (.ext k₀ t)) (hs : Stored s (.ext k₀ t))
    (hv : ValuedBranches (.ext k₀ t)) :
    Advances s k (.entering p (.ext k₀ t) :: fs) ((it.before (item (.ext k₀ t)) p).round k) := by
  have htwo := isTwo_of_eq (r := .of (some (item (.ext k₀ t)))) rfl
  rw [Advances]
  rcases remains_or k.toList k₀ with ⟨r, hr⟩ | ⟨hpre, hlt⟩
  · obtain ⟨k', rfl, heq⟩ := round_two it p htwo hr
    rw [heq, if_neg nofun, ahead_ext hr, htwo.sub]
    refine Does.bind (does_deref_iterator hit.that rfl ht.2.1.ne_empty hs rfl (not_valueAt_ext k₀ _)) ?_
    rintro _ s' hgrew - rfl
    refine .pure (.again ((hit.grew hgrew).push ?_) ?_ rfl fun hk' => ?_)
    · exact ⟨rfl, ht.2.2, hs.2.grew hgrew, hv⟩
    · rw [weights_cons, weights_cons]
      exact Nat.add_lt_add_right (Nat.lt_succ_self t.weight) _
    · intro hnil
      rw [hnil] at hr
      exact hk' hr.eq_nil
  · rw [round_two_skip it p htwo hpre hlt, ahead_ext_of_not_lt hpre hlt]
    exact .pure (leads_popped hit (Nat.lt_add_of_pos_left (weight_pos _)) rfl)

theorem advances_branch (p : List Nibble) (k : NibbleSlice) (hit : Shows s it fs) (hc : Canonical (.branch c o))
    (hs : Stored s (.branch c o)) (hv : ValuedBranches (.branch c o)) :
    Advances s k (.entering p (.branch c o) :: fs) ((it.before (item (.branch c o)) p).round k) := by
  have hbranch := isSeventeen_of_eq (r := .of (some (item (.branch c o)))) rfl
  have hw : ∀ i, weights (.atBranch p c o i :: fs) < weights (.entering p (.branch c o) :: fs) := fun i =>
    Nat.add_lt_add_right (weight_atBranch_lt p c o i) _
  rw [Advances, Iterator.round]
  dsimp only
  rw [if_pos rfl, hbranch.isEmpty, if_neg nofun, hbranch.isNode, Bool.not_true, if_neg nofun,
    if_neg (by rw [hbranch.itemCount]; decide)]
  cases hk : k.toList with
  | nil =>
    rw [if_neg (by rw [not_not, NibbleSlice.size_eq_zero_iff, hk]), ahead_branch_nil]
    cases o with
    | none =>
      have hempty : ((RLP.of (some (item (.branch c none)))).sub 16).isEmpty = true := by
        rw [hbranch.last]
        rfl
      rw [leadOn_skip (show (16 : Byte) ≠ 17 by decide) hempty]
      exact (does_leadOn (k := k.clear) hit hc hs hv (Nat.zero_le _) (hw 0).le (by omega)).mono fun r s' _ _ h =>
        h.imp fun hk => absurd rfl hk
    | some v =>
      have hempty : ((RLP.of (some (item (.branch c (some v))))).sub 16).isEmpty = false := by
        rw [hbranch.last]
        exact List.isEmpty_eq_false_iff.2 fun hnil => hv.1 (congrArg some hnil)
      rw [leadOn_value rfl hempty]
      exact .pure (.done ⟨.atBranch p c (some v) 0, fs, hit.push ⟨rfl, Nat.zero_le _, hc, hs, hv⟩, rfl, rfl, (hw 0).le⟩)
  | cons i b =>
    obtain ⟨hget, hmid⟩ := NibbleSlice.get_zero hk
    rw [if_pos (by rw [Ne, NibbleSlice.size_eq_zero_iff, hk]; exact List.cons_ne_nil i b), ahead_branch_cons, hget, ← hmid]
    have hchild : childAt i = i.toByte := if_neg i.isLt.ne
    rw [TrailNode.setChild, ← hchild]
    exact (does_leadOn hit hc hs hv i.isLt.le (hw i).le (by omega)).mono fun r s' _ _ h =>
      h.imp fun _ => List.cons_ne_nil i _

theorem round_nil (that : Bool) (k : NibbleSlice) :
    Iterator.round ⟨[], that⟩ k = pure (.done ⟨[], false⟩) := by rw [Iterator.round]

theorem round_empty (it : Iterator) (p : List Nibble) (k : NibbleSlice) :
    (it.before (item .empty) p).round k = pure (.again it k.clear) := by
  rw [Iterator.round]
  dsimp only
  rw [if_pos rfl, isEmpty_of_rlpNull rfl, if_pos rfl]

theorem round_atLeaf (it : Iterator) (p k₀ : List Nibble) (v : Bytes) (k : NibbleSlice) :
    Iterator.round { it with trail := ⟨some (item (.leaf k₀ v)), hexPrefix false p, 0⟩ :: it.trail } k =
      pure (.again it k.clear) := by
  rw [Iterator.round]
  dsimp only
  rw [if_neg (by decide), (isTwo_of_eq (r := .of (some (item (.leaf k₀ v)))) rfl).itemCount]
  rfl

theorem round_atBranch (it : Iterator) (p : List Nibble) (k : NibbleSlice) (hi : i ≤ 16) :
    Iterator.round { it with trail := ⟨some (item (.branch c o)), hexPrefix false p, childBefore i⟩ :: it.trail } k =
      it.leadOn (.of (some (item (.branch c o)))) 18 ⟨some (item (.branch c o)), hexPrefix false p, childAt i⟩ k := by
  have hbranch := isSeventeen_of_eq (r := .of (some (item (.branch c o)))) rfl
  have hinside : ∀ i : Fin 17, childBefore i ≠ 255 := by decide
  rw [Iterator.round]
  dsimp only
  rw [if_neg (hinside ⟨i, Nat.lt_succ_of_le hi⟩), hbranch.isList, hbranch.itemCount, incrementChild_childBefore rfl hi]
  rfl

/-- A round leaves what is ahead, and gets on. -/
theorem does_round (hit : Shows s it fs) : Advances s k fs (it.round k) := by
  obtain ⟨trail, that⟩ := it
  obtain ⟨hthat, htrail⟩ := hit
  cases htrail with
  | nil =>
    rw [Advances, round_nil]
    exact .pure (.done rfl)
  | @cons b f trail fs hb hrest =>
    have hpopped : Shows s ⟨trail, that⟩ fs := ⟨hthat, hrest⟩
    cases f with
    | entering p t =>
      obtain ⟨rfl, ht, hs, hv⟩ := hb
      cases t with
      | empty =>
        rw [Advances, round_empty ⟨trail, that⟩ p k, ahead_empty]
        exact .pure (leads_popped hpopped (Nat.lt_add_of_pos_left (weight_pos _)) rfl)
      | leaf k₀ v => exact (advances_leaf p k₀ v k hpopped :)
      | ext k₀ t => exact (advances_ext p k hpopped ht hs hv :)
      | branch c o => exact (advances_branch p k hpopped ht hs hv :)
    | atLeaf p v =>
      obtain ⟨k₀, rfl⟩ := hb
      rw [Advances, round_atLeaf ⟨trail, that⟩, ahead_atLeaf]
      exact .pure (leads_popped hpopped (Nat.lt_add_of_pos_left Nat.one_pos) rfl)
    | atBranch p c o i =>
      obtain ⟨rfl, hi, hc, hs, hv⟩ := hb
      rw [Advances, round_atBranch ⟨trail, that⟩ p k hi]
      exact does_leadOn hpopped hc hs hv hi le_rfl (by omega)

/-! ### Calls -/

theorem reads_deref_iterator (it : Iterator) (n : RLP) : Reads (it.deref n) := by
  rw [Iterator.deref]
  split
  · exact .deref n
  · exact .fail _

theorem reads_leadOn (rlp : RLP) (it : Iterator) (rounds : Nat) (b : TrailNode) (k : NibbleSlice) :
    Reads (it.leadOn rlp rounds b k) := by
  induction rounds generalizing b k with
  | zero => exact .fail _
  | succ rounds ih =>
    rw [Iterator.leadOn]
    split_ifs
    · exact .pure _
    · exact .pure _
    · exact (reads_deref_iterator it _).bind fun _ => .pure _
    · exact ih _ _

theorem reads_round (it : Iterator) (k : NibbleSlice) : Reads (it.round k) := by
  rw [Iterator.round]
  cases it.trail with
  | nil => exact .pure _
  | cons b trail =>
    dsimp only
    split_ifs
    any_goals exact .pure _
    any_goals exact reads_leadOn _ _ _ _ _
    all_goals exact (reads_deref_iterator it _).bind fun _ => .pure _

theorem reads_nextFrom (fuel : Nat) (it : Iterator) (k : NibbleSlice) : Reads (it.nextFrom fuel k) := by
  induction fuel generalizing it k with
  | zero => exact .fail _
  | succ fuel ih =>
    refine (reads_round it k).bind fun r => ?_
    cases r with
    | done it => exact .pure it
    | again it k => exact ih it k

theorem reads_next (fuel : Nat) (it : Iterator) : Reads (it.next fuel) := by
  induction fuel generalizing it with
  | zero => exact .fail _
  | succ fuel ih =>
    rw [Iterator.next, ← Iterator.round_clear]
    refine (reads_round it {}).bind fun r => ?_
    cases r with
    | done it => exact .pure it
    | again it k => exact ih it

theorem reads_entry (it : Iterator) : Reads it.entry := by
  rw [Iterator.entry]
  cases it.trail with
  | nil => exact .fail _
  | cons b trail =>
    dsimp only
    split
    · exact .fail _
    · exact .pure _

theorem reads_passed (fuel rounds : Nat) (it : Iterator) : Reads (passed fuel rounds it) := by
  induction rounds generalizing it with
  | zero => exact .fail _
  | succ rounds ih =>
    rw [passed]
    split
    · exact .pure _
    · exact (reads_entry it).bind fun _ => (reads_next fuel it).bind fun it' => (ih it').bind fun _ => .pure _

theorem Found.mono {w' : Nat} (h : Found w s it es) (hw : w ≤ w') : Found w' s it es := by
  cases es with
  | nil => exact h
  | cons e es =>
    obtain ⟨f, fs, hshows, hentry, hahead, hle⟩ := h
    exact ⟨f, fs, hshows, hentry, hahead, hle.trans hw⟩

theorem does_nextFrom {fuel : Nat} (hit : Shows s it fs) (hfuel : weights fs < fuel) :
    Does (it.nextFrom fuel k) s fun it' s' => Found (weights fs) s' it' (ahead k.toList fs) := by
  induction fuel generalizing it k fs s with
  | zero => exact absurd hfuel (Nat.not_lt_zero _)
  | succ fuel ih =>
    rw [Iterator.nextFrom]
    refine Does.bind (does_round hit) ?_
    rintro r s' - - hleads
    cases hleads with
    | done hfound => exact .pure hfound
    | again hshows hlt hes _ =>
      refine (ih hshows (by omega)).mono ?_
      intro it' s'' _ _ hfound
      rw [hes] at hfound
      exact hfound.mono hlt.le

theorem does_next {fuel : Nat} (hit : Shows s it fs) (hfuel : weights fs < fuel) :
    Does (it.next fuel) s fun it' s' => Found (weights fs) s' it' (ahead [] fs) := by
  induction fuel generalizing it fs s with
  | zero => exact absurd hfuel (Nat.not_lt_zero _)
  | succ fuel ih =>
    rw [Iterator.next, ← Iterator.round_clear]
    refine Does.bind (does_round hit) ?_
    rintro r s' - - hleads
    cases hleads with
    | done hfound => exact .pure hfound
    | again hshows hlt hes hk =>
      -- No key comes from none.
      rw [not_not.1 fun hne => hk hne rfl] at hes
      refine (ih hshows (by omega)).mono ?_
      intro it' s'' _ _ hfound
      rw [hes] at hfound
      exact hfound.mono hlt.le

end Kmdx.Trie
