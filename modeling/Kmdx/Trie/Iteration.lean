import Kmdx.Lib.Paging
import Kmdx.Trie.Iterator
import Kmdx.Trie.RemovalRun

/-!
# Loops over a trie

A loop from `begin()` passes all that is stored, in the order of the keys, and a loop from `lower_bound` what is not before
the bound (`iterates_in_order`).
-/

namespace Kmdx.Trie

open Rlp RadixTree Wp
open List hiding after

variable {m : Contents} {t : RadixTree 16 Bytes} {k b v : Bytes} {e : List Nibble × Bytes} {es : List (List Nibble × Bytes)}

/-- An entry, with the bytes of its key -/
def keyed (e : List Nibble × Bytes) : Bytes × Bytes := (pack e.1, e.2)

def byteEntries (t : RadixTree 16 Bytes) : List (Bytes × Bytes) := t.entries.map keyed

theorem Represents.exists_nibbles (h : Represents t m) (he : e ∈ t.entries) : ∃ k, e.1 = nibbles k := by
  refine h.key e.1 ?_
  rw [mem_entries.1 (show (e.1, e.2) ∈ t.entries from he)]
  exact Option.some_ne_none _

theorem Represents.mem_byteEntries (h : Represents t m) : (k, v) ∈ byteEntries t ↔ m k = some v := by
  rw [byteEntries, mem_map, ← h.find, ← mem_entries]
  constructor
  · rintro ⟨e, he, heq⟩
    obtain ⟨k', hk'⟩ := h.exists_nibbles he
    rw [keyed, hk', pack_nibbles] at heq
    cases heq
    rw [← hk']
    exact he
  · intro he
    exact ⟨_, he, by rw [keyed, pack_nibbles]⟩

theorem Represents.sorted_byteEntries (h : Represents t m) : (byteEntries t).Pairwise fun e e' => e.1 < e'.1 := by
  refine pairwise_map.2 ((sorted_entries t).imp_of_mem fun {e e'} he he' hlt => ?_)
  obtain ⟨k, hk⟩ := h.exists_nibbles he
  obtain ⟨k', hk'⟩ := h.exists_nibbles he'
  rw [hk, hk', nibbles_lt_iff] at hlt
  rw [keyed, keyed, hk, hk', pack_nibbles, pack_nibbles]
  exact hlt

theorem Represents.keyed_entriesFrom (h : Represents t m) (b : Bytes) :
    (t.entriesFrom (nibbles b)).map keyed = (byteEntries t).filter fun e => b ≤ e.1 := by
  rw [byteEntries, filter_map, entriesFrom]
  refine congrArg _ (filter_congr fun e he => ?_)
  obtain ⟨k, hk⟩ := h.exists_nibbles he
  rw [Function.comp, keyed, hk, pack_nibbles, decide_eq_decide, nibbles_lt_iff, List.not_lt]

/-- What begins at the key of one of the entries is the rest. -/
theorem filter_eq_drop_bytes {l : List (Bytes × Bytes)} (hl : l.Pairwise fun e e' => e.1 < e'.1) {n : Nat} {e : Bytes × Bytes}
    (he : (l.filter fun e => b ≤ e.1)[n]? = some e) : (l.filter fun d => e.1 ≤ d.1) = (l.filter fun e => b ≤ e.1).drop n := by
  have hle : ∀ k k' : Bytes, k ≤ k' ↔ nibbles k ≤ nibbles k' := fun k k' => by rw [← List.not_lt, ← nibbles_lt_iff, not_lt]
  simp only [hle] at he ⊢
  exact Paging.filter_eq_drop (hl.imp fun hlt => nibbles_lt_iff.2 hlt) he

/-! ### Keys that are no prefixes of other keys -/

def PrefixFree (m : Contents) : Prop := ∀ k k', m k ≠ none → m k' ≠ none → k <+: k' → k = k'

/-- A branch with a value has another way to go on. -/
theorem valuedBranches_of_prefixFree (ht : t.Canonical)
    (hfree : ∀ k k', t.find k ≠ none → t.find k' ≠ none → k <+: k' → k = k') : ValuedBranches t := by
  induction t with
  | empty => trivial
  | leaf k₀ v => trivial
  | ext k₀ t ih =>
    refine ih ht.2.2 fun k k' hk hk' hpre => ?_
    rw [← behind_append (f := t.find) k₀ k, ← find_ext] at hk
    rw [← behind_append (f := t.find) k₀ k', ← find_ext] at hk'
    exact append_cancel_left (hfree _ _ hk hk' ((prefix_append_right_inj k₀).2 hpre))
  | branch c o ih =>
    refine ⟨?_, fun i => ih i (ht.2 i) fun k k' hk hk' hpre => ?_⟩
    · rintro rfl
      have hletter : ∃ i, c i ≠ .empty := by
        obtain ⟨⟨s, s', hne, hs, hs'⟩, -⟩ := ht
        cases s with
        | some i => exact ⟨i, hs⟩
        | none =>
          cases s' with
          | some i => exact ⟨i, hs'⟩
          | none => exact absurd rfl hne
      obtain ⟨i, hi⟩ := hletter
      obtain ⟨k, v, hv⟩ := (ht.2 i).exists_find hi
      have hnil := hfree [] (i :: k) nofun (by rw [find_branch_cons, hv]; exact Option.some_ne_none v) nil_prefix
      cases hnil
    · exact (List.cons.inj (hfree (i :: k) (i :: k') hk hk' (cons_prefix_cons.2 ⟨rfl, hpre⟩))).2

theorem Represents.valuedBranches (h : Represents t m) (ht : t.Canonical) (hm : PrefixFree m) : ValuedBranches t := by
  refine valuedBranches_of_prefixFree ht fun ns ns' hns hns' hpre => ?_
  obtain ⟨k, rfl⟩ := h.key ns hns
  obtain ⟨k', rfl⟩ := h.key ns' hns'
  rw [h.find] at hns hns'
  rw [hm k k' hns hns' (nibbles_prefix_iff.1 hpre)]

theorem removable_of_prefixFree {P : Bytes → Prop} (hP : ∀ k k', P k → P k' → k <+: k' → k = k')
    (hm : ∀ k, m k ≠ none → P k) (hk : P k) : Removable m k where
  beside k₀ hk₀ hpre hne := absurd (hP k₀ k (hm k₀ hk₀) hk hpre) hne
  behind _ a _ r _ ha _ := by
    have hlonger := congrArg List.length (hP k (k ++ a :: r) hk (hm _ ha) (prefix_append k _))
    rw [length_append, List.length_cons] at hlonger
    omega

theorem Represents.apart (h : Represents t m) (hk : ∀ k', m k' ≠ none → k <+: k' → k = k') : Apart t.find (nibbles k) := by
  intro ns hns hpre
  obtain ⟨k', rfl⟩ := h.key ns hns
  rw [h.find] at hns
  rw [hk k' hns (nibbles_prefix_iff.1 hpre)]

/-! ### Loops -/

section States

variable [Sha3] {s s' : TrieDB} {it : Iterator} {fs : List (Frame 16 Bytes)} {w fuel rounds : Nat}

theorem entry_of_trail {node : TrailNode} {trail : List TrailNode} (htrail : it.trail = node :: trail)
    (hkey : node.key = 0 :: k)
    (hvalue : ((RLP.of node.rlp).sub (if (RLP.of node.rlp).itemCount = 2 then 1 else 16)).payload = v) :
    it.entry = pure (k, v) := by
  rw [Iterator.entry, htrail]
  dsimp only
  rw [hkey, if_neg (by simp), hvalue]
  rfl

/-- What the iterator is at -/
theorem does_entry (h : Found w s it (e :: es)) (hk : e.1 = nibbles k) : Does it.entry s fun d _ => d = keyed e := by
  obtain ⟨f, fs, ⟨-, htrail⟩, hentry, -, -⟩ := h
  obtain ⟨node, trail, hnode, -, heq⟩ := forall₂_cons_right_iff.1 htrail
  have hkeyed : keyed e = (k, e.2) := by rw [keyed, hk, pack_nibbles]
  rw [hkeyed]
  cases f with
  | entering p t => cases hentry
  | atLeaf p v =>
    cases hentry
    obtain ⟨k₀, rfl⟩ := hnode
    have htwo := isTwo_of_eq (r := .of (some (item (.leaf k₀ v)))) rfl
    dsimp only at hk
    rw [entry_of_trail heq (by rw [hk, hexPrefix_nibbles]) (by rw [if_pos htwo.itemCount, htwo.sub])]
    exact .pure rfl
  | atBranch p c o i =>
    cases o with
    | none => cases hentry
    | some v =>
      cases i with
      | succ i => cases hentry
      | zero =>
        cases hentry
        obtain ⟨rfl, -⟩ := hnode
        have hbranch := isSeventeen_of_eq (r := .of (some (item (.branch c (some v))))) rfl
        dsimp only at hk
        rw [entry_of_trail heq (by rw [hk, hexPrefix_nibbles]) (by rw [hbranch.itemCount, if_neg (by decide), hbranch.last])]
        exact .pure rfl

/-- A loop passes what is ahead. -/
theorem does_passed (h : Found w s it es) (hw : w < fuel) (hrounds : es.length < rounds)
    (hes : ∀ e ∈ es, ∃ k, e.1 = nibbles k) : Does (passed fuel rounds it) s fun ds _ => ds = es.map keyed := by
  induction rounds generalizing es it s with
  | zero => exact absurd hrounds (Nat.not_lt_zero _)
  | succ rounds ih =>
    rw [passed]
    cases es with
    | nil =>
      have hend : it.trail = [] := h
      rw [hend, isEmpty_nil, if_pos rfl]
      exact .pure rfl
    | cons e es =>
      obtain ⟨k, hk⟩ := hes e mem_cons_self
      have hentry := does_entry h hk
      obtain ⟨f, fs, hshows, -, rfl, hle⟩ := h
      have hmore : it.trail.isEmpty = false := by
        obtain ⟨node, trail, -, -, heq⟩ := forall₂_cons_right_iff.1 hshows.trail
        rw [heq]
        rfl
      rw [hmore, if_neg Bool.false_ne_true]
      refine hentry.bind ?_
      rintro _ s' hgrew - rfl
      refine (does_next (hshows.grew hgrew) (by omega)).bind fun it' s'' _ _ hfound => ?_
      refine (ih (hfound.mono hle) (by rw [List.length_cons] at hrounds; omega) fun d hd =>
        hes d (mem_cons_of_mem e hd)).bind ?_
      rintro _ _ - - rfl
      exact .pure rfl

/-- An iterator at the root stands in front of the tree. -/
theorem shows_atRoot (h : Rooted s m t) (hv : ValuedBranches t) :
    Shows s (Iterator.atRoot (some (item t))) [.entering [] t] :=
  ⟨rfl, .cons ⟨rfl, h.canonical, h.stored, hv⟩ .nil⟩

theorem does_iterated (h : Rooted s m t) (hv : ValuedBranches t) (hfuel : t.weight < fuel)
    (hrounds : t.entries.length < fuel) : Does (iterated fuel) s fun ds _ => ds = byteEntries t := by
  have hahead : ahead [] [.entering [] t] = t.entries := by rw [ahead_entering, entriesFrom_nil, under_nil, ahead, append_nil]
  have hbegin : Does (begin_ fuel) s fun it s' => Found t.weight s' it t.entries := by
    rw [begin_]
    refine Does.of_read ?_
    rw [h.root]
    refine Does.of_node h.inserted ?_
    have hnext := does_next (shows_atRoot h hv) hfuel
    rw [hahead] at hnext
    exact hnext
  exact hbegin.bind fun it s' _ _ hfound => does_passed hfound hfuel hrounds fun e he => h.represents.exists_nibbles he

theorem does_iteratedFrom (h : Rooted s m t) (hv : ValuedBranches t) (hfuel : t.weight < fuel)
    (hrounds : t.entries.length < fuel) (b : Bytes) :
    Does (iteratedFrom fuel b) s fun ds _ => ds = (byteEntries t).filter fun e => b ≤ e.1 := by
  have hahead : ahead (nibbles b) [.entering [] t] = t.entriesFrom (nibbles b) := by
    rw [ahead_entering, under_nil, ahead, append_nil]
  have hbound : Does (lowerBound fuel b) s fun it s' => Found t.weight s' it (t.entriesFrom (nibbles b)) := by
    rw [lowerBound]
    refine Does.of_read ?_
    rw [h.root]
    refine Does.of_node h.inserted ?_
    have hnext := does_nextFrom (k := ⟨b, 0⟩) (shows_atRoot h hv) hfuel
    rw [NibbleSlice.toList_mk_zero, hahead] at hnext
    exact hnext
  rw [← h.represents.keyed_entriesFrom]
  refine hbound.bind fun it s' _ _ hfound => does_passed hfound hfuel ?_ fun e he =>
    h.represents.exists_nibbles (mem_filter.1 he).1
  exact (length_filter_le _ _).trans_lt hrounds

/-- The state is a trie of the contents, whatever the values are. -/
def Keeps (s : TrieDB) (m : Contents) : Prop := ∃ t, Rooted s m t

def Op.key : Op → Bytes
  | .insert k _ => k
  | .remove k => k

omit [Sha3] in
theorem Op.write_of_ne {o : Op} (h : k ≠ o.key) : o.write m k = m k := by
  cases o <;> exact Function.update_of_ne h _ _

/-- So it is, and its nodes are counted. -/
def Counts (s : TrieDB) (m : Contents) : Prop := ∃ t, Rooted s m t ∧ Covers s (counted t)

theorem Counts.keeps (h : Counts s m) : Keeps s m := by
  obtain ⟨t, ht, -⟩ := h
  exact ⟨t, ht⟩

/-- So it is after each run whose keys are no prefixes of one another. -/
theorem does_runAll_prefixFree {P : Bytes → Prop} (hP : ∀ k k', P k → P k' → k <+: k' → k = k')
    {ops : List Op} (h : Counts s m) (hm : ∀ k, m k ≠ none → P k) (hops : ∀ o ∈ ops, P o.key) :
    Does (runAll ops) s fun _ s' => Counts s' (ops.foldl Op.write m) := by
  induction ops generalizing s m with
  | nil => exact .pure h
  | cons o ops ih =>
    obtain ⟨t, ht, hcovers⟩ := h
    have ho := hops o mem_cons_self
    have hrun : Does o.run s fun _ s' => Counts s' (o.write m) := by
      cases o with
      | insert k v =>
        have hapart : Apart t.find (nibbles k) := ht.represents.apart fun k' hk' => hP k k' ho (hm k' hk')
        exact (ht.does_insert k v).mono fun _ _ _ _ h => ⟨_, h.1, hcovers.pays (h.2 hapart)⟩
      | remove k =>
        have hfree : PrefixFree m := fun k k' hk hk' => hP k k' (hm k hk) (hm k' hk')
        exact (ht.does_remove (ht.represents.valuedBranches ht.canonical hfree) (removable_of_prefixFree hP hm ho)).mono
          fun _ _ _ _ h => ⟨_, h.1.1, hcovers.pays h.1.2⟩
    refine hrun.bind fun _ s' _ _ h => ih h (fun k hk => ?_) fun o ho => hops o (mem_cons_of_mem _ ho)
    by_cases hkey : k = o.key
    · rw [hkey]
      exact ho
    · exact hm k fun hnone => hk ((Op.write_of_ne hkey).trans hnone)

/-- Loops pass the entries of the trie, those from a lower bound if they begin there. A page that begins at one of them
goes on with the rest. -/
structure IteratesInOrder (s : TrieDB) (m : Contents) (ds : List (Bytes × Bytes)) (fuel : Nat) : Prop where
  sorted : ds.Pairwise fun d d' => d.1 < d'.1
  complete : ∀ k v, (k, v) ∈ ds ↔ m k = some v
  all : eval (iterated fuel).run s = .ok ds
  bound : ∀ b, eval (iteratedFrom fuel b).run s = .ok (ds.filter fun d => b ≤ d.1)
  page : ∀ b n d, (ds.filter fun d => b ≤ d.1)[n]? = some d →
    eval (iteratedFrom fuel d.1).run s = .ok ((ds.filter fun d => b ≤ d.1).drop n)

theorem reads_iterated (fuel : Nat) : Reads (iterated fuel) :=
  Reads.bind (Reads.bind (fun _ => .rfl) fun _ => (Reads.node _).bind fun _ => reads_next _ _) fun _ => reads_passed _ _ _

theorem reads_iteratedFrom (fuel : Nat) (b : Bytes) : Reads (iteratedFrom fuel b) :=
  Reads.bind (Reads.bind (fun _ => .rfl) fun _ => (Reads.node _).bind fun _ => reads_nextFrom _ _ _) fun _ =>
    reads_passed _ _ _

theorem Rooted.iterates (h : Rooted s m t) (hv : ValuedBranches t) (hno : NoCollision s) (hfuel : t.weight < fuel)
    (hrounds : t.entries.length < fuel) : IteratesInOrder s m (byteEntries t) fuel := by
  have hbound : ∀ b, eval (iteratedFrom fuel b).run s = .ok ((byteEntries t).filter fun d => b ≤ d.1) := by
    intro b
    obtain ⟨_, s', hrun, -, -, rfl⟩ := (does_iteratedFrom h hv hfuel hrounds b).run_of_reads (reads_iteratedFrom fuel b) hno
    exact eval_of_eq_ok hrun
  refine ⟨h.represents.sorted_byteEntries, fun k v => h.represents.mem_byteEntries, ?_, hbound, fun b n d hd => ?_⟩
  · obtain ⟨_, s', hrun, -, -, rfl⟩ := (does_iterated h hv hfuel hrounds).run_of_reads (reads_iterated fuel) hno
    exact eval_of_eq_ok hrun
  · rw [hbound, filter_eq_drop_bytes h.represents.sorted_byteEntries hd]

/-- In a trie where no key is a proper prefix of another one, loops pass what is stored in the order of the keys. -/
theorem iterates_in_order (h : Keeps s m) (hm : PrefixFree m) (hno : NoCollision s) :
    ∃ ds fuel₀, ∀ fuel ≥ fuel₀, IteratesInOrder s m ds fuel := by
  obtain ⟨t, ht⟩ := h
  refine ⟨byteEntries t, max t.weight t.entries.length + 1, fun fuel hfuel => ?_⟩
  exact ht.iterates (ht.represents.valuedBranches ht.canonical hm) hno (by omega) (by omega)

/-! ### After a run -/

/-- The keys of the calls are no proper prefixes of one another. -/
def KeysApart (ops : List Op) : Prop := ∀ o ∈ ops, ∀ o' ∈ ops, o.key <+: o'.key → o.key = o'.key

omit [Sha3] in
theorem exists_key_of_contents {ops : List Op} (hk : ops.foldl Op.write m k ≠ none) : m k ≠ none ∨ ∃ o ∈ ops, o.key = k := by
  induction ops generalizing m with
  | nil => exact .inl hk
  | cons o ops ih =>
    rcases ih hk with hm | ⟨o', ho', heq⟩
    · by_cases hkey : k = o.key
      · exact .inr ⟨o, mem_cons_self, hkey.symm⟩
      · exact .inl fun hnone => hm ((Op.write_of_ne hkey).trans hnone)
    · exact .inr ⟨o', mem_cons_of_mem o ho', heq⟩

omit [Sha3] in
theorem KeysApart.prefixFree {ops : List Op} (h : KeysApart ops) : PrefixFree (contents ops) := by
  intro k k' hk hk' hpre
  obtain ⟨o, ho, rfl⟩ := (exists_key_of_contents hk).resolve_left fun h => h rfl
  obtain ⟨o', ho', rfl⟩ := (exists_key_of_contents hk').resolve_left fun h => h rfl
  exact h o ho o' ho' hpre

theorem KeysApart.does_runAll {ops : List Op} (h : KeysApart ops) (root : H256) :
    Does (do init; runAll ops) (.empty root) fun _ s' => Counts s' (contents ops) := by
  refine does_init_tree.bind fun _ s' _ _ hinit => ?_
  refine does_runAll_prefixFree (P := fun k => ∃ o ∈ ops, o.key = k) ?_ ⟨.empty, hinit.1.rooted, hinit.2⟩
    (fun _ hk => absurd rfl hk) fun o ho => ⟨o, ho, rfl⟩
  rintro _ _ ⟨o, ho, rfl⟩ ⟨o', ho', rfl⟩ hpre
  exact h o ho o' ho' hpre

theorem KeysApart.keeps {ops : List Op} (h : KeysApart ops) {root : H256}
    (hno : NoCollision (after (do init; runAll ops).run (.empty root))) :
    Keeps (after (do init; runAll ops).run (.empty root)) (contents ops) := by
  obtain ⟨_, s', heq, -, hcounts⟩ := (h.does_runAll root).run hno
  rw [after, heq]
  exact hcounts.keeps

end States

attribute [local instance] padded

/-- Two keys that differ in their last nibbles -/
def twoInserts : List Op := [.insert [0x12] [1], .insert [0x13] [2]]

theorem iterates_in_order_two : ∃ ds fuel₀, ∀ fuel ≥ fuel₀,
    IteratesInOrder (after (do init; runAll twoInserts).run (.empty noRoot)) (contents twoInserts) ds fuel := by
  have hapart : KeysApart twoInserts := by
    unfold KeysApart
    decide
  have hno : NoCollision (after (do init; runAll twoInserts).run (.empty noRoot)) := by
    have hnodup : ((after (do init; runAll twoInserts).run (.empty noRoot)).inserted.map fun t =>
        (hashOf t).1).Nodup := by decide
    intro t ht t' ht' heq
    exact inj_on_of_nodup_map hnodup ht ht' (congrArg Subtype.val heq)
  exact iterates_in_order (hapart.keeps hno) hapart.prefixFree hno

end Kmdx.Trie
