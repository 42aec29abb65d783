import Kmdx.Trie.Removal

/-!
# What a trie holds

A state `Holds` a map of keys to values if the root is the hash of the canonical tree of the map, and all nodes of the
tree can be looked up. The calls keep that up (`does_insert`, `does_remove`), so it stands after every run whose removals
are `Removable` (`does_runAll`), and a lookup finds what was put in at last (`does_at`).
-/

namespace Kmdx.Trie

open Rlp RadixTree Wp Function

/-- What is stored under each key. -/
abbrev Contents := Bytes → Option Bytes

variable {m : Contents} {k k' : Bytes} {v : Bytes} {t : RadixTree 16 Bytes}

/-! ### Trees of keys -/

structure Represents (t : RadixTree 16 Bytes) (m : Contents) : Prop where
  find : ∀ k, t.find (nibbles k) = m k
  key : ∀ ns, t.find ns ≠ none → ∃ k, ns = nibbles k

theorem represents_empty : Represents .empty fun _ => none := ⟨fun _ => rfl, fun _ h => absurd rfl h⟩

theorem Represents.insert (h : Represents t m) (ht : t.Canonical) (k v : Bytes) :
    Represents (t.insert v (nibbles k)) (update m k (some v)) := by
  refine ⟨fun k' => ?_, fun ns hns => ?_⟩
  · rw [find_insert ht]
    by_cases hk : k' = k
    · rw [hk, if_pos rfl, update_self]
    · rw [if_neg fun heq => hk (nibbles_injective heq), update_of_ne hk, h.find]
  · rw [find_insert ht] at hns
    split at hns
    · rename_i heq
      exact ⟨k, heq⟩
    · exact h.key ns hns

theorem Represents.erase (h : Represents t m) (k : Bytes) : Represents (t.erase (nibbles k)) (update m k none) := by
  refine ⟨fun k' => ?_, fun ns hns => ?_⟩
  · rw [find_erase]
    by_cases hk : k' = k
    · rw [hk, if_pos rfl, update_self]
    · rw [if_neg fun heq => hk (nibbles_injective heq), update_of_ne hk, h.find]
  · rw [find_erase] at hns
    split at hns
    · exact absurd rfl hns
    · exact h.key ns hns

/-- No value is taken for the hash of a node when `k` is removed, and no nibble is read behind its end: of what is stored,
a proper prefix of `k` is a proper prefix of something else, too, and if `k` is not stored, then what begins with it
goes on with one nibble. -/
structure Removable (m : Contents) (k : Bytes) : Prop where
  beside : ∀ k₀, m k₀ ≠ none → k₀ <+: k → k₀ ≠ k → ∃ k₁, m k₁ ≠ none ∧ k₀ <+: k₁ ∧ k₁ ≠ k₀ ∧ k₁ ≠ k
  behind : m k = none → ∀ a b r r', m (k ++ a :: r) ≠ none → m (k ++ b :: r') ≠ none → Nibble.high a = Nibble.high b

theorem Represents.clear_iff (h : Represents t m) : Clear t.find (nibbles k) ↔ Removable m k := by
  constructor
  · intro hclear
    refine ⟨fun k₀ hk₀ hpre hne => ?_, fun hnone a b r r' ha hb => ?_⟩
    · obtain ⟨ns, hns, hpre₁, hne₁, hne₁'⟩ := hclear.beside (nibbles k₀) (by rwa [h.find]) (nibbles_prefix_iff.2 hpre)
        fun heq => hne (nibbles_injective heq)
      obtain ⟨k₁, rfl⟩ := h.key ns hns
      rw [h.find] at hns
      exact ⟨k₁, hns, nibbles_prefix_iff.1 hpre₁, fun heq => hne₁ (by rw [heq]), fun heq => hne₁' (by rw [heq])⟩
    · refine hclear.behind (by rw [h.find, hnone]) _ _ (Nibble.low a :: nibbles r) (Nibble.low b :: nibbles r') ?_ ?_
      · rwa [← nibbles_cons, ← nibbles_append, h.find]
      · rwa [← nibbles_cons, ← nibbles_append, h.find]
  · intro hm
    refine ⟨fun ns hns hpre hne => ?_, fun hnone i j r r' hi hj => ?_⟩
    · obtain ⟨k₀, rfl⟩ := h.key ns hns
      rw [h.find] at hns
      obtain ⟨k₁, hk₁, hpre₁, hne₁, hne₁'⟩ := hm.beside k₀ hns (nibbles_prefix_iff.1 hpre) fun heq => hne (by rw [heq])
      exact ⟨nibbles k₁, by rwa [h.find], nibbles_prefix_iff.2 hpre₁, fun heq => hne₁ (nibbles_injective heq),
        fun heq => hne₁' (nibbles_injective heq)⟩
    · rw [h.find] at hnone
      have hstored : ∀ i r, t.find (nibbles k ++ i :: r) ≠ none → ∃ a q, m (k ++ a :: q) ≠ none ∧ i = Nibble.high a := by
        intro i r hi
        obtain ⟨k₁, hk₁⟩ := h.key _ hi
        obtain ⟨q, rfl⟩ := nibbles_prefix_iff.1 (hk₁ ▸ List.prefix_append (nibbles k) (i :: r))
        rw [hk₁, h.find] at hi
        rw [nibbles_append, List.append_cancel_left_eq] at hk₁
        cases q with
        | nil => cases hk₁
        | cons a q => exact ⟨a, q, hi, (List.cons.inj hk₁).1⟩
      obtain ⟨a, q, ha, rfl⟩ := hstored i r hi
      obtain ⟨b, q', hb, rfl⟩ := hstored j r' hj
      exact hm.behind hnone a b q q' ha hb

theorem length_le_fuelFor (k : Bytes) : (NibbleSlice.mk k 0).toList.length + 6 ≤ fuelFor ⟨k, 0⟩ := by
  rw [NibbleSlice.length_toList, fuelFor]

/-! ### States -/

variable [Sha3] {s s' : TrieDB}

/-- The state is a trie of the contents. -/
structure HoldsTree (s : TrieDB) (m : Contents) (t : RadixTree 16 Bytes) : Prop where
  canonical : t.Canonical
  represents : Represents t m
  root : s.root = hashOf (item t)
  inserted : item t ∈ s.inserted
  stored : Stored s t
  valued : ∀ k v, m k = some v → v ≠ []

def Holds (s : TrieDB) (m : Contents) : Prop := ∃ t, HoldsTree s m t

/-- So it is, whatever the values are. -/
structure Rooted (s : TrieDB) (m : Contents) (t : RadixTree 16 Bytes) : Prop where
  canonical : t.Canonical
  represents : Represents t m
  root : s.root = hashOf (item t)
  inserted : item t ∈ s.inserted
  stored : Stored s t

theorem HoldsTree.rooted (h : HoldsTree s m t) : Rooted s m t := ⟨h.canonical, h.represents, h.root, h.inserted, h.stored⟩

theorem Rooted.holds (h : Rooted s m t) (hvalued : ∀ k v, m k = some v → v ≠ []) : Holds s m :=
  ⟨t, h.canonical, h.represents, h.root, h.inserted, h.stored, hvalued⟩

theorem HoldsTree.valued_tree (h : HoldsTree s m t) : Valued t := by
  intro ns v hv
  obtain ⟨k, rfl⟩ := h.represents.key ns (by rw [hv]; nofun)
  rw [h.represents.find] at hv
  exact h.valued k v hv

theorem Rooted.reads (h : Rooted s m t) (hreads : OnlyReads s s') (hgrew : Grew s s') : Rooted s' m t :=
  { h with
    root := hreads.root.trans h.root
    inserted := hgrew.inserted.subset h.inserted
    stored := h.stored.grew hgrew }

/-- The hashes that are referred to, the one of the root among them -/
def counted (t : RadixTree 16 Bytes) : List H256 := hashOf (item t) :: held t

/-- Each hash is counted as often as it stands in the list. -/
def Covers (s : TrieDB) (l : List H256) : Prop := ∀ h, l.count h ≤ s.refs h

theorem Covers.pays {l l' : List H256} (h : Covers s l) (hpays : Pays s s' l l') : Covers s' l' := fun x => by
  have hx := h x
  have hx' := hpays x
  omega

theorem Covers.refs_pos {l : List H256} (h : Covers s l) {x : H256} (hx : x ∈ l) :
    0 < s.refs x := (List.count_pos_iff.2 hx).trans_le (h x)

/-- The root is replaced. It is counted however short it is. -/
theorem does_setRoot_node {t₀ : RadixTree 16 Bytes} {s₀ : TrieDB} {C : Prop} {b : Tree}
    (hb : Makes C s₀ (outer t₀) t b s) (ht : t.Canonical) (hm : Represents t m) :
    Does (do killShortRoot (some (item t₀)) (hashOf (item t₀)); let h ← forceInsertNode b; M.setRoot h) s fun _ s' =>
      Rooted s' m t ∧ (C → Pays s₀ s' (counted t₀) (counted t)) := by
  obtain ⟨⟨rfl, hstored⟩, hpays⟩ := hb
  have hkill : Does (killShortRoot (some (item t₀)) (hashOf (item t₀))) s fun _ s' =>
      C → Pays s₀ s' (counted t₀) (held t) := by
    have hsize : (RLP.of (some (item t₀))).size = (item t₀).encode.length := rfl
    rw [killShortRoot, hsize, counted]
    rw [outer, referred] at hpays
    split
    · rename_i hlen
      rw [if_pos hlen] at hpays
      exact (does_forceKillNode _).mono fun _ _ _ _ hkill hC => ((hpays hC).append_left [_]).trans (hkill.append_right _)
    · rename_i hlen
      rw [if_neg hlen] at hpays
      exact .pure hpays
  refine hkill.bind fun _ s' hgrew _ hkill => ?_
  refine (does_forceInsertNode (item t)).bind ?_
  rintro _ s'' hgrew' - ⟨rfl, hmem, hinsert⟩
  refine does_setRoot ⟨⟨ht, hm, rfl, hmem, hstored.grew ⟨(hgrew.trans hgrew').inserted, (hgrew.trans hgrew').reads⟩⟩,
    fun hC => ?_⟩
  exact (hkill hC).trans (hinsert.append_right _)

theorem Rooted.does_insert (h : Rooted s m t) (k v : Bytes) : Does (insert k v) s fun _ s' =>
    Rooted s' (update m k (some v)) (t.insert v (nibbles k)) ∧
      (Apart t.find (nibbles k) → Pays s s' (counted t) (counted (t.insert v (nibbles k)))) := by
  rw [Trie.insert]
  refine Does.of_read ?_
  dsimp only
  rw [h.root]
  refine Does.of_node h.inserted ?_
  rw [if_neg nofun]
  have hfits : Fits false (hashOf (item t)) t := fits_hash rfl
  refine (does_mergeAt (r := .of (some (item t))) h.canonical h.stored rfl (length_le_fuelFor k) hfits).bind
    fun b s' _ _ hb => ?_
  rw [NibbleSlice.toList_mk_zero] at hb
  exact does_setRoot_node hb (h.canonical.insert v _) (h.represents.insert h.canonical k v)

theorem does_insert (h : Holds s m) (k : Bytes) (hv : v ≠ []) :
    Does (insert k v) s fun _ s' => Holds s' (update m k (some v)) := by
  obtain ⟨t, ht⟩ := h
  refine (ht.rooted.does_insert k v).mono fun _ s' _ _ h' => h'.1.holds fun k' v' hv' => ?_
  by_cases hk : k' = k
  · rw [hk, update_self] at hv'
    cases hv'
    exact hv
  · rw [update_of_ne hk] at hv'
    exact ht.valued k' v' hv'

/-- If nothing is there to be removed, then the tree is the same. -/
theorem Rooted.does_remove (h : Rooted s m t) (hv : ValuedBranches t) (hk : Removable m k) :
    Does (remove k) s fun _ s' => (Rooted s' (update m k none) (t.erase (nibbles k)) ∧
      Pays s s' (counted t) (counted (t.erase (nibbles k)))) ∧ (m k = none → OnlyReads s s') := by
  have hpass : Passable t (nibbles k) := (passable_iff h.canonical _).2 (h.represents.clear_iff.2 hk)
  rw [Trie.remove]
  refine Does.of_read ?_
  dsimp only
  rw [h.root]
  refine Does.of_node h.inserted ?_
  refine Does.bind (does_deleteAt (r := .of (some (item t))) h.canonical hv h.stored rfl hpass
    (by have := length_le_fuelFor k; omega)) ?_
  rintro (_ | b) s' hgrew - hb
  · obtain ⟨hnone, hreads⟩ := hb
    have hm : m k = none := (h.represents.find k).symm.trans hnone
    have hsame : update m k none = m := by rw [← hm, update_eq_self]
    have hkeep : t.erase (nibbles k) = t := h.canonical.erase_of_find_eq_none hnone
    refine .pure ⟨?_, fun _ => hreads⟩
    rw [hsame, hkeep]
    exact ⟨h.reads hreads hgrew, hreads.pays⟩
  · obtain ⟨hsome, hb, hpays⟩ := hb
    refine (does_setRoot_node (C := True) ⟨hb, fun _ => hpays⟩ (h.canonical.erase _)
      (h.represents.erase k)).mono fun _ _ _ _ h' =>
        ⟨h'.imp_right fun h' => h' trivial, fun hnone => absurd ((h.represents.find k).trans hnone) hsome⟩

theorem does_remove (h : Holds s m) (hk : Removable m k) :
    Does (remove k) s fun _ s' => Holds s' (update m k none) ∧ (m k = none → OnlyReads s s') := by
  obtain ⟨t, ht⟩ := h
  refine (ht.rooted.does_remove ht.valued_tree.branches hk).mono fun _ s' _ _ h' => h'.imp_left fun h' =>
    h'.1.holds fun k' v' hv' => ?_
  by_cases hk : k' = k
  · rw [hk, update_self] at hv'
    cases hv'
  · rw [update_of_ne hk] at hv'
    exact ht.valued k' v' hv'

theorem strays_remove (h : Holds s m) (hk : ¬Removable m k) : Strays (remove k) s := by
  obtain ⟨t, ht⟩ := h
  have hpass : ¬Passable t (NibbleSlice.mk k 0).toList := fun hpass =>
      hk (ht.represents.clear_iff.1 ((passable_iff ht.canonical _).1 hpass))
  rw [remove]
  refine Strays.of_read ?_
  dsimp only
  rw [ht.root]
  refine Strays.of_node ht.inserted ?_
  exact Strays.bind (strays_deleteAt (r := .of (some (item t))) ht.canonical ht.valued_tree ht.stored rfl hpass
    (by have := length_le_fuelFor k; omega)) _

/-- The value that is stored, or nothing. -/
theorem Rooted.does_at (h : Rooted s m t) (k : Bytes) : Does (at_ k) s fun b s' => b = (m k).getD [] ∧ OnlyReads s s' := by
  rw [at_]
  refine Does.of_read ?_
  rw [h.root]
  refine Does.of_node h.inserted ?_
  have hlen : (NibbleSlice.mk k 0).toList.length < fuelFor ⟨k, 0⟩ := by
    have hle := length_le_fuelFor k
    omega
  have hatAux := does_atAux (r := .of (some (item t))) h.canonical h.stored rfl hlen
  rw [NibbleSlice.toList_mk_zero, h.represents.find] at hatAux
  exact hatAux

theorem does_init_tree : Does init s fun _ s' => HoldsTree s' (fun _ => none) .empty ∧ Covers s' (counted .empty) := by
  rw [init]
  refine (does_forceInsertNode rlpNull).bind ?_
  rintro _ s' - - ⟨rfl, hmem, hpays⟩
  refine (does_setRoot (P := fun _ s'' => s'' = { s' with root := hashOf rlpNull }) rfl).bind ?_
  rintro _ _ - - rfl
  refine Does.of_node hmem ?_
  rw [if_neg nofun]
  refine .pure ⟨⟨trivial, represents_empty, rfl, hmem, trivial, nofun⟩, ?_⟩
  exact Covers.pays (s := s) (l := []) (fun _ => Nat.zero_le _) hpays

theorem does_init : Does init s fun _ s' => Holds s' fun _ => none := does_init_tree.mono fun _ _ _ _ h => ⟨.empty, h.1⟩

/-! ### Runs -/

/-- What is stored after a call. -/
def Op.write (m : Contents) : Op → Contents
  | .insert k v => update m k (some v)
  | .remove k => update m k none

def Op.Allowed (m : Contents) : Op → Prop
  | .insert _ v => v ≠ []
  | .remove k => Removable m k

/-- What was put in at last and not removed since. -/
def contents (ops : List Op) : Contents := ops.foldl Op.write fun _ => none

/-- Every call of the run is allowed in what is stored before it. -/
def AllAllowed : Contents → List Op → Prop
  | _, [] => True
  | m, o :: ops => o.Allowed m ∧ AllAllowed (o.write m) ops

end Kmdx.Trie
