import Kmdx.Trie.GenericTrieDB

/-!
# Trees in the database

`Tree.item` is the node of a radix tree, and `Written` says that the trees behind it can be looked up. Unless two nodes
have the same hash, a computation that `Does` something returns, takes no value for the hash of a node, and leaves what
is said.
-/

namespace Kmdx.Trie

open Rlp Wp

variable [Sha3] {α β : Type} {s s' s'' : TrieDB} {x : M α} {f : α → M β} {P P' : α → TrieDB → Prop} {Q : β → TrieDB → Prop}

/-! ### Rules -/

/-- No two of the nodes that have been inserted have the same hash. -/
def NoCollision (s : TrieDB) : Prop := ∀ t ∈ s.inserted, ∀ t' ∈ s.inserted, hashOf t = hashOf t' → t = t'

theorem Grew.noCollision (h : Grew s s') (hs' : NoCollision s') : NoCollision s :=
  fun t ht t' ht' => hs' t (h.inserted.subset ht) t' (h.inserted.subset ht')

/-- The value of a leaf or of a branch stands there. -/
def ValueAt (place : List Tree × Nat) : Prop :=
  place.1.length = 2 ∧ isLeaf (.of (some (.list place.1))) = true ∧ place.2 = 1 ∨ place.1.length = 17 ∧ place.2 = 16

/-- No value has been taken for a hash. -/
def Clean (s s' : TrieDB) : Prop := ∀ place ∈ s'.reads, ValueAt place → place ∈ s.reads

theorem Clean.rfl : Clean s s := fun _ h _ => h

theorem Clean.of_eq (h : s'.reads = s.reads) : Clean s s' := fun _ hp _ => h ▸ hp

theorem Clean.trans (h : Clean s s') (h' : Clean s' s'') : Clean s s'' := fun p hp hv => h p (h' p hp hv) hv

/-- Without a collision, `x` returns with `P`. -/
def Does (x : M α) (s : TrieDB) (P : α → TrieDB → Prop) : Prop :=
  wp x.run (fun a s' => NoCollision s' → Clean s s' ∧ P a s') (fun _ s' => ¬NoCollision s') s

theorem Does.pure {a : α} (h : P a s) : Does (Pure.pure a) s P := fun _ => ⟨.rfl, h⟩

theorem Does.mono (hx : Does x s P) (h : ∀ a s', Grew s s' → NoCollision s' → P a s' → P' a s') : Does x s P' :=
  wp_mono (wp_and (x.grew s) hx) (fun a s' hP hno => (hP.2 hno).imp_right (h a s' hP.1 hno)) fun _ _ hE => hE.2

theorem Does.bind (hx : Does x s P) (hf : ∀ a s', Grew s s' → NoCollision s' → P a s' → Does (f a) s' Q) :
    Does (x >>= f) s Q := by
  change wp (x.run >>= fun a => (f a).run) _ _ s
  rw [wp_bind]
  refine wp_mono (wp_and (x.grew s) hx) (fun a s' hP => ?_) fun _ _ hE => hE.2
  obtain ⟨hgrew, hP⟩ := hP
  by_cases hno : NoCollision s'
  · obtain ⟨hclean, hP⟩ := hP hno
    exact wp_mono (hf a s' hgrew hno hP) (fun b s'' hQ hno' => (hQ hno').imp_left hclean.trans) fun _ _ => id
  · -- Whatever comes then, the two nodes stay.
    refine wp_mono ((f a).grew s') (fun b s'' hgrew' hno' => ?_) fun e s'' hgrew' hno' => ?_
    · exact absurd (hgrew'.noCollision hno') hno
    · exact hno (hgrew'.noCollision hno')

theorem Does.map {g : α → β} (hx : Does x s P) (h : ∀ a s', P a s' → Q (g a) s') : Does (g <$> x) s Q :=
  hx.bind fun a s' _ _ ha => .pure (h a s' ha)

theorem does_insertNode {P : Unit → TrieDB → Prop} {t : Tree} (h : P () (s.insertNode t)) : Does (M.insertNode t) s P :=
  fun _ => ⟨.of_eq rfl, h⟩

theorem does_kill {P : Unit → TrieDB → Prop} {h : H256} (hP : P () (s.kill h)) :
    Does (M.kill h) s P := fun _ => ⟨.of_eq rfl, hP⟩

theorem does_setRoot {P : Unit → TrieDB → Prop} {h : H256} (hP : P () { s with root := h }) : Does (M.setRoot h) s P :=
  fun _ => ⟨.of_eq rfl, hP⟩

theorem does_note {P : Unit → TrieDB → Prop} {p : List Tree × Nat} (hp : ¬ValueAt p) (h : P () (s.note (some p))) :
    Does (M.note (some p)) s P :=
  fun _ => ⟨fun _ hp' hv => (List.mem_cons.1 hp').resolve_left fun heq => hp (heq ▸ hv), h⟩

/-! ### Going astray -/

/-- A value has been taken for a hash. -/
def Spoiled (s : TrieDB) : Prop := ∃ place ∈ s.reads, ValueAt place

theorem Grew.spoiled (h : Grew s s') (hs : Spoiled s) : Spoiled s' := by
  obtain ⟨p, hp, hvalue⟩ := hs
  exact ⟨p, h.reads.subset hp, hvalue⟩

/-- Without a collision, `x` throws or takes a value for a hash. -/
def Strays (x : M α) (s : TrieDB) : Prop := wp x.run (fun _ s' => NoCollision s' → Spoiled s') (fun _ _ => True) s

theorem strays_fail (e : Exn) : Strays (M.fail e : M α) s := trivial

theorem Strays.bind (hx : Strays x s) (f : α → M β) : Strays (x >>= f) s := by
  change wp (x.run >>= fun a => (f a).run) _ _ s
  rw [wp_bind]
  refine wp_mono hx (fun a s' hs' => ?_) fun _ _ _ => trivial
  exact wp_mono ((f a).grew s') (fun _ _ hgrew hno => hgrew.spoiled (hs' (hgrew.noCollision hno))) fun _ _ _ => trivial

theorem Does.strays (hx : Does x s P) (hf : ∀ a s', Grew s s' → NoCollision s' → P a s' → Strays (f a) s') :
    Strays (x >>= f) s := by
  change wp (x.run >>= fun a => (f a).run) _ _ s
  rw [wp_bind]
  refine wp_mono (wp_and (x.grew s) hx) (fun a s' hP => ?_) fun _ _ _ => trivial
  obtain ⟨hgrew, hP⟩ := hP
  by_cases hno : NoCollision s'
  · exact hf a s' hgrew hno (hP hno).2
  · exact wp_mono ((f a).grew s') (fun _ _ hgrew' hno' => absurd (hgrew'.noCollision hno') hno) fun _ _ _ => trivial

/-- Only what has been read is more. -/
structure OnlyReads (s s' : TrieDB) : Prop where
  root : s'.root = s.root
  main : s'.main = s.main
  inserted : s'.inserted = s.inserted

theorem OnlyReads.rfl : OnlyReads s s := ⟨Eq.refl _, Eq.refl _, Eq.refl _⟩

theorem OnlyReads.trans (h : OnlyReads s s') (h' : OnlyReads s' s'') : OnlyReads s s'' :=
  ⟨h'.root.trans h.root, h'.main.trans h.main, h'.inserted.trans h.inserted⟩

theorem OnlyReads.noCollision (h : OnlyReads s s') (hs : NoCollision s) : NoCollision s' := by
  rw [NoCollision, h.inserted]
  exact hs

/-- Calls that only read. -/
def Reads (x : M α) : Prop := ∀ s, wp x.run (fun _ s' => OnlyReads s s') (fun _ s' => OnlyReads s s') s

theorem Reads.pure (a : α) : Reads (Pure.pure a) := fun _ => .rfl

theorem Reads.fail (e : Exn) : Reads (M.fail e : M α) := fun _ => .rfl

theorem Reads.bind (hx : Reads x) (hf : ∀ a, Reads (f a)) : Reads (x >>= f) := by
  intro s
  change wp (x.run >>= fun a => (f a).run) _ _ s
  rw [wp_bind]
  exact wp_mono (hx s) (fun a s' h => wp_mono (hf a s') (fun _ _ => h.trans) fun _ _ => h.trans) fun _ _ => id

theorem Reads.node (h : H256) : Reads (Trie.node h) := fun _ => .rfl

theorem Reads.toHash (n : RLP) : Reads n.toHash := by
  refine Reads.bind (fun _ => ⟨rfl, rfl, rfl⟩) fun _ => ?_
  match n.tree with
  | none => exact .fail _
  | some (.list _) => exact .fail _
  | some (.data b) =>
    dsimp only
    split
    · exact .pure _
    · exact .fail _

theorem Reads.deref (n : RLP) : Reads (Trie.deref n) := by
  rw [Trie.deref]
  split
  · exact .pure _
  · exact (Reads.toHash n).bind fun h => .node h

/-- A call that only reads returns. -/
theorem Does.run_of_reads (hx : Does x s P) (hreads : Reads x) (hno : NoCollision s) :
    ∃ a s', x.run s = .ok a s' ∧ OnlyReads s s' ∧ Clean s s' ∧ P a s' := by
  refine exists_ok_of_wp (wp_mono (wp_and (hreads s) hx) (fun a s' h => ?_) fun e s' h => ?_)
  · exact ⟨h.1, h.2 (h.1.noCollision hno)⟩
  · exact h.2 (h.1.noCollision hno)

/-- A call at whose end no two nodes have the same hash has returned. -/
theorem Does.run (hx : Does x s P) (hno : NoCollision (after x.run s)) :
    ∃ a s', x.run s = .ok a s' ∧ Clean s s' ∧ P a s' := by
  rw [Does, wp] at hx
  rw [after] at hno
  split at hno
  · rename_i a s' heq
    rw [heq] at hx
    exact ⟨a, s', heq, hx hno⟩
  · rename_i e s' heq
    rw [heq] at hx
    exact absurd hno hx

/-! ### Nodes -/

theorem lookup_hashOf {t : Tree} (hno : NoCollision s) (ht : t ∈ s.inserted) : s.lookup (hashOf t) = some t := by
  obtain ⟨e, he⟩ := Option.isSome_iff_exists.1 (s.complete t ht)
  obtain ⟨hhash, hmem⟩ := s.sound _ e he
  rw [TrieDB.lookup, he, Option.map_some, hno e.1 hmem t ht hhash]

theorem does_node {t : Tree} {P : Option Tree → TrieDB → Prop} (ht : t ∈ s.inserted) (h : P (some t) s) :
    Does (node (hashOf t)) s P := by
  intro hno
  refine ⟨.rfl, ?_⟩
  rw [lookup_hashOf hno ht]
  exact h

theorem Does.of_read {f : TrieDB → M β} (h : Does (f s) s Q) : Does (M.read >>= f) s Q := h

theorem Strays.of_read {f : TrieDB → M β} (h : Strays (f s) s) : Strays (M.read >>= f) s := h

theorem Does.of_node {t : Tree} {f : Option Tree → M β} (ht : t ∈ s.inserted) (h : Does (f (some t)) s Q) :
    Does (node (hashOf t) >>= f) s Q := by
  refine (does_node ht (P := fun d s' => d = some t ∧ s = s') ⟨rfl, rfl⟩).bind ?_
  rintro _ _ - - ⟨rfl, rfl⟩
  exact h

theorem Strays.of_node {t : Tree} {f : Option Tree → M β} (ht : t ∈ s.inserted) (h : Strays (f (some t)) s) :
    Strays (node (hashOf t) >>= f) s := by
  refine (does_node ht (P := fun d s' => d = some t ∧ s = s') ⟨rfl, rfl⟩).strays ?_
  rintro _ _ - - ⟨rfl, rfl⟩
  exact h

/-- A short node itself, else its hash. -/
def ref (t : Tree) : Tree := if t.encode.length < 32 then t else .data (hashOf t).1

/-- What `streamNode` writes has been written. -/
def Kept (s : TrieDB) (t : Tree) : Prop := 32 ≤ t.encode.length → t ∈ s.inserted

theorem Kept.grew {t : Tree} (h : Kept s t) (hgrew : Grew s s') : Kept s' t := fun hlen => hgrew.inserted.subset (h hlen)

/-! ### Reference counts -/

/-- The reference count -/
def TrieDB.refs (s : TrieDB) (h : H256) : Nat := (s.main h).elim 0 Prod.snd

/-- The references that are given up are among those of `l`, and those of `l'` are new. -/
def Pays (s s' : TrieDB) (l l' : List H256) : Prop := ∀ h, s.refs h + l'.count h ≤ s'.refs h + l.count h

variable {l l' l₀ l₁ : List H256}

theorem Pays.rfl : Pays s s l l := fun _ => le_rfl

theorem Pays.trans (h : Pays s s' l l') (h' : Pays s' s'' l' l₁) : Pays s s'' l l₁ := fun x => by
  have hx := h x
  have hx' := h' x
  omega

/-- What else is referred to still is. -/
theorem Pays.append (h : Pays s s' l l') (l₀ l₁ : List H256) : Pays s s' (l₀ ++ (l ++ l₁)) (l₀ ++ (l' ++ l₁)) := fun x => by
  have hx := h x
  rw [List.count_append, List.count_append, List.count_append, List.count_append]
  omega

theorem Pays.append_right (h : Pays s s' l l') (l₁ : List H256) : Pays s s' (l ++ l₁) (l' ++ l₁) := h.append [] l₁

theorem Pays.append_left (h : Pays s s' l l') (l₀ : List H256) : Pays s s' (l₀ ++ l) (l₀ ++ l') := by
  have happend := h.append l₀ []
  rwa [List.append_nil, List.append_nil] at happend

theorem OnlyReads.pays (h : OnlyReads s s') : Pays s s' l l := fun x => by
  rw [TrieDB.refs, TrieDB.refs, h.main]

theorem refs_insertNode (s : TrieDB) (t : Tree) (h : H256) : (s.insertNode t).refs h = s.refs h + [hashOf t].count h := by
  rw [TrieDB.refs, TrieDB.refs, TrieDB.insertNode]
  dsimp only
  by_cases hh : h = hashOf t
  · rw [hh, Function.update_self, List.count_singleton_self]
    cases s.main (hashOf t) <;> rfl
  · rw [Function.update_of_ne hh, List.count_singleton, if_neg fun heq => hh (eq_of_beq heq).symm, Nat.add_zero]

/-- A count is at least one, or it stays at nothing. -/
theorem refs_le_kill (s : TrieDB) (h h' : H256) : s.refs h' ≤ (s.kill h).refs h' + [h].count h' := by
  rw [TrieDB.refs, TrieDB.refs, TrieDB.kill]
  dsimp only
  by_cases hh : h' = h
  · rw [hh, Function.update_self, List.count_singleton_self]
    cases s.main h with
    | none => exact Nat.zero_le _
    | some e => exact Nat.le_add_of_sub_le (le_refl (e.2 - 1))
  · rw [Function.update_of_ne hh]
    exact Nat.le_add_right _ _

/-- A short node is not counted where it stands. -/
def referred (t : Tree) : List H256 := if t.encode.length < 32 then [] else [hashOf t]

theorem does_forceInsertNode (t : Tree) :
    Does (forceInsertNode t) s fun h s' => h = hashOf t ∧ t ∈ s'.inserted ∧ Pays s s' [] [hashOf t] := by
  refine (does_insertNode (P := fun _ s' => t ∈ s'.inserted ∧ Pays s s' [] [hashOf t]) ⟨List.mem_cons_self, fun h => ?_⟩).bind
    fun _ _ _ _ h => .pure ⟨rfl, h⟩
  exact (refs_insertNode s t h).ge

theorem does_streamNode (t : Tree) : Does (streamNode t) s fun n s' => n = ref t ∧ Kept s' t ∧ Pays s s' [] (referred t) := by
  rw [streamNode, referred]
  split
  · rename_i hlen
    exact .pure ⟨(if_pos hlen).symm, fun hle => absurd hlen (not_lt.2 hle), .rfl⟩
  · rename_i hlen
    refine Does.bind (does_forceInsertNode t) fun _ s' _ _ h => ?_
    obtain ⟨rfl, hmem, hpays⟩ := h
    exact .pure ⟨(if_neg hlen).symm, fun _ => hmem, hpays⟩

theorem does_forceKillNode (h : H256) : Does (forceKillNode h) s fun _ s' => Pays s s' [h] [] :=
  does_kill fun h' => refs_le_kill s h h'

variable {d : RLP} {t : Tree}

theorem does_killNodeHash (hd : d.tree = some t) :
    Does (killNodeHash d (hashOf t)) s fun _ s' => Pays s s' (referred t) [] := by
  have hsize : d.size = t.encode.length := by
    rw [RLP.size, hd]
    rfl
  rw [killNodeHash, hsize, referred]
  split
  · rename_i hlen
    rw [if_neg (not_lt.2 hlen)]
    exact does_forceKillNode _
  · rename_i hlen
    rw [if_pos (not_le.1 hlen)]
    exact .pure .rfl

theorem does_killNode (hd : d.tree = some t) : Does (killNode d) s fun _ s' => Pays s s' (referred t) [] := by
  have hhash : d.hash = hashOf t := by
    rw [RLP.hash, hd]
    rfl
  rw [killNode, hhash]
  exact does_killNodeHash hd

theorem does_killOuter {inLine : Bool} {h : H256} (hd : d.tree = some t) (hh : inLine = false → h = hashOf t) :
    Does (killOuter inLine d h) s fun _ s' => Pays s s' (if inLine then [] else referred t) [] := by
  rw [killOuter]
  cases inLine with
  | true => exact .pure .rfl
  | false =>
    rw [hh rfl]
    exact does_killNodeHash hd

/-! ### Following a reference -/

variable {r n : RLP} {ts : List Tree}

theorem isList_ref_iff (hn : n.tree = some (ref (.list ts))) : n.isList = true ↔ (Tree.list ts).encode.length < 32 := by
  rw [RLP.isList, hn, ref]
  by_cases h : (Tree.list ts).encode.length < 32
  · rw [if_pos h]
    exact iff_of_true rfl h
  · rw [if_neg h]
    exact iff_of_false nofun h

theorem isEmpty_ref (hts : ts ≠ []) (hn : n.tree = some (ref (.list ts))) : n.isEmpty = false := by
  rw [RLP.isEmpty, hn, ref]
  split_ifs
  · cases ts with
    | nil => exact absurd rfl hts
    | cons t ts => rfl
  · obtain ⟨b, hb⟩ := hashOf (Tree.list ts)
    cases b with
    | nil => cases hb
    | cons x b => rfl

theorem does_toHash {h : H256} {p : List Tree × Nat} {P : H256 → TrieDB → Prop} (hn : n.tree = some (.data h.1))
    (hp : n.place = some p) (hvalue : ¬ValueAt p) (hP : P h (s.note n.place)) : Does n.toHash s P := by
  rw [RLP.toHash, hp]
  refine Does.bind (does_note (P := fun _ s' => s' = s.note n.place) hvalue (by rw [hp])) fun _ s' _ _ hs' => ?_
  rw [hn]
  dsimp only
  rw [dif_pos h.2.le]
  refine Does.pure ?_
  have hh : (⟨List.replicate (32 - h.1.length) 0 ++ h.1, by rw [h.2]; exact h.2⟩ : H256) = h := by
    refine Subtype.ext ?_
    dsimp only
    rw [h.2]
    rfl
  rw [hs']
  convert hP

theorem onlyReads_note (p : Option (List Tree × Nat)) : OnlyReads s (s.note p) := ⟨rfl, rfl, rfl⟩

/-- A reference leads to its node. -/
theorem does_deref {p : List Tree × Nat} (hn : n.tree = some (ref (.list ts))) (hkept : Kept s (.list ts))
    (hp : n.place = some p) (hvalue : ¬ValueAt p) : Does (deref n) s fun t s' => t = some (.list ts) ∧ OnlyReads s s' := by
  rw [deref]
  split
  · rename_i hlist
    refine .pure ⟨?_, .rfl⟩
    rw [hn, ref, if_pos ((isList_ref_iff hn).1 hlist)]
  · rename_i hlist
    have hlen : ¬(Tree.list ts).encode.length < 32 := fun h => hlist ((isList_ref_iff hn).2 h)
    rw [ref, if_neg hlen] at hn
    refine Does.bind (does_toHash hn hp hvalue (P := fun h s' => h = hashOf (.list ts) ∧ s' = s.note n.place) ⟨rfl, rfl⟩) ?_
    rintro _ _ _ _ ⟨rfl, rfl⟩
    exact does_node (hkept (not_lt.1 hlen)) ⟨rfl, onlyReads_note _⟩

end Kmdx.Trie
