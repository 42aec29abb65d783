import Mathlib.Logic.Equiv.List
import Kmdx.Chain.Insertion

/-!
# The tree of the blocks

`import` adds a block to the children of its parent whether it is there or not (`insert` looks first), so a block
that is imported again, because it lies above the head, is twice among them (`BlockChain.not_isTree`). But for
that the blocks are a tree, with heights and total difficulties, and the head has the greatest one
(`BlockChain.isTree`).
-/

namespace Kmdx.Chain

open Relation Function List

set_option linter.unusedSectionVars false

variable {H : Type} [DecidableEq H] [BlockSha3 H]

namespace BlockChain

/-- The stored blocks are a tree, and the head has the greatest total difficulty. -/
structure IsTree (s : BlockChain H) : Prop where
  parent : ∀ h b, s.blocks h = some b → hash b = h ∧ (s.detailsOf h).parent = b.parentHash
  number : ∀ h b, s.blocks h = some b → (s.detailsOf h).number = (s.detailsOf b.parentHash).number + 1
  totalDifficulty : ∀ h b, s.blocks h = some b →
    (s.detailsOf h).totalDifficulty = (s.detailsOf b.parentHash).totalDifficulty + b.difficulty
  children : ∀ h b, s.blocks h = some b → (s.detailsOf b.parentHash).children.count h = 1
  greatest : s.rewound = false → ∀ h ∈ s.imported,
    (s.detailsOf h).totalDifficulty ≤ (s.detailsOf s.lastBlockHash).totalDifficulty

/-- A block that `import` inserts is not among the children of its parent yet. -/
def Fresh (s : BlockChain H) : Event H → Prop
  | .import_ b mustBeNew valid => s.Accepts b mustBeNew valid → hash b ∉ (s.detailsOf b.parentHash).children
  | _ => True

variable {s t u : BlockChain H} {b : VerifiedBlockRef H} {d pd : BlockDetails H} {mustBeNew valid : Bool}

/-! ### What is stored -/

/-- The details of a block, but for its children. -/
def node (s : BlockChain H) (h : H) : BlockDetails H := { s.detailsOf h with children := [] }

def newNode (s : BlockChain H) (b : VerifiedBlockRef H) : BlockDetails H :=
  ⟨(s.node b.parentHash).number + 1, s.newTotalDifficulty b, b.parentHash, []⟩

def Present (s : BlockChain H) (h : H) : Prop := h = s.genesisHash ∨ (s.blocks h).isSome

/-- The same blocks are stored, and some of their details have been read. -/
structure Keeps (s t : BlockChain H) : Prop where
  genesis : t.genesis = s.genesis
  blocks : t.blocks = s.blocks
  details : s.extraDetails.Loads t.extraDetails

/-- `b` has been stored with `d`, and its parent with `pd`, which is cached. -/
structure Adds (s : BlockChain H) (b : VerifiedBlockRef H) (pd d : BlockDetails H) (t : BlockChain H) : Prop where
  genesis : t.genesis = s.genesis
  blocks : t.blocks = update s.blocks (hash b) (some b)
  details : ∃ c, s.extraDetails.Edits c b.parentHash pd ∧
    t.extraDetails = (c.put b.parentHash pd).put (hash b) d

/-- The blocks that are stored have heights and total difficulties, and details. -/
structure Tree (s : BlockChain H) : Prop where
  genesis : s.genesis.number = 0
  genesisNumber : (s.node s.genesisHash).number = 0
  present : ∀ h, (s.extraDetails.get h).isSome ↔ s.Present h
  hash_eq : ∀ {h b}, s.blocks h = some b → hash b = h
  parent : ∀ {h b}, s.blocks h = some b → s.Present b.parentHash
  node_eq : ∀ {h b}, s.blocks h = some b → s.node h = s.newNode b
  number : ∀ {h b}, s.blocks h = some b → (s.node h).number = b.number

theorem Keeps.of_loads (h : Loads s t) : s.Keeps t := by
  refine ⟨?_, ?_, h.details⟩ <;> rw [h.rest]

theorem Keeps.trans (h : s.Keeps t) (h' : t.Keeps u) : s.Keeps u :=
  ⟨h'.genesis.trans h.genesis, h'.blocks.trans h.blocks, h.details.trans h'.details⟩

theorem Keeps.detailsOf (h : s.Keeps t) : t.detailsOf = s.detailsOf := by
  funext x
  rw [BlockChain.detailsOf, BlockChain.detailsOf, h.details.get_eq]

theorem Keeps.node (h : s.Keeps t) : t.node = s.node := by
  funext x
  rw [BlockChain.node, BlockChain.node, h.detailsOf]

theorem newNode_congr (h : t.node b.parentHash = s.node b.parentHash) : t.newNode b = s.newNode b := by
  have htd : (t.node b.parentHash).totalDifficulty = (s.node b.parentHash).totalDifficulty := by rw [h]
  rw [newNode, newNode, h, newTotalDifficulty, newTotalDifficulty]
  exact congrArg (fun td => (⟨_, td + _, _, _⟩ : BlockDetails H)) htd

theorem Tree.congr (hs : s.Tree) (hgenesis : t.genesis = s.genesis) (hblocks : t.blocks = s.blocks)
    (hnode : t.node = s.node) (hget : ∀ x, (t.extraDetails.get x).isSome ↔ (s.extraDetails.get x).isSome) : t.Tree := by
  have hhash : t.genesisHash = s.genesisHash := by rw [genesisHash, genesisHash, hgenesis]
  have hpresent : ∀ x, t.Present x ↔ s.Present x := fun x => by rw [Present, Present, hblocks, hhash]
  constructor
  case genesis => rw [hgenesis, hs.genesis]
  case genesisNumber => rw [hhash, hnode, hs.genesisNumber]
  case present => exact fun x => by rw [hget, hpresent, hs.present]
  case hash_eq => exact fun hb => hs.hash_eq (hblocks ▸ hb)
  case parent => exact fun hb => (hpresent _).2 (hs.parent (hblocks ▸ hb))
  case node_eq =>
    intro x b hb
    rw [newNode_congr (congrFun hnode _), hnode, hs.node_eq (hblocks ▸ hb)]
  case number => exact fun hb => by rw [hnode, hs.number (hblocks ▸ hb)]

theorem Keeps.tree (h : s.Keeps t) (hs : s.Tree) : t.Tree :=
  hs.congr h.genesis h.blocks h.node fun x => by rw [h.details.get_eq]

theorem Keeps.present (h : s.Keeps t) (x : H) : t.Present x ↔ s.Present x := by
  rw [Present, Present, h.blocks, genesisHash, genesisHash, h.genesis]

/-! ### A block that is accepted -/

theorem present_of_accepts (h : s.Accepts b mustBeNew valid) : s.Present b.parentHash := by
  have hparent := h.parent
  rw [known, decide_eq_true_iff] at hparent
  exact hparent.imp_right And.left

section

variable (hs : s.Tree) (h : s.Accepts b mustBeNew valid)
include hs h

/-- The number in the header is the one in the details. -/
theorem Tree.number_of_accepts : b.number = (s.node b.parentHash).number + 1 := by
  obtain ⟨header, ⟨hgenesis, rfl⟩ | ⟨-, hheader⟩, hnumber⟩ := h.number
  · rw [hnumber, hs.genesis, hgenesis, hs.genesisNumber]
  · rw [hnumber, hs.number hheader]

theorem Tree.hash_ne_genesisHash : hash b ≠ s.genesisHash := by
  intro heq
  have hb : b = s.genesis := BlockSha3.hash_injective heq
  have hnumber := hs.number_of_accepts h
  rw [hb, hs.genesis] at hnumber
  exact absurd hnumber.symm (Nat.succ_ne_zero _)

/-- What is there of the block is what it is stored with. -/
theorem Tree.blocks_of_present (hb : s.Present (hash b)) : s.blocks (hash b) = some b := by
  obtain ⟨b', hb'⟩ := Option.isSome_iff_exists.1 (hb.resolve_left (hs.hash_ne_genesisHash h))
  rw [hb', BlockSha3.hash_injective (hs.hash_eq hb')]

theorem Tree.parentHash_ne : b.parentHash ≠ hash b := by
  intro heq
  have hb := hs.blocks_of_present h (heq ▸ present_of_accepts h)
  have hnumber := hs.number_of_accepts h
  rw [heq, hs.number hb] at hnumber
  exact absurd hnumber.symm (Nat.succ_ne_self _)

end

/-! ### A block that is stored -/

namespace Adds

theorem genesisHash (h : s.Adds b pd d t) : t.genesisHash = s.genesisHash := by
  rw [BlockChain.genesisHash, BlockChain.genesisHash, h.genesis]

theorem present (h : s.Adds b pd d t) (x : H) : t.Present x ↔ x = hash b ∨ s.Present x := by
  rw [Present, Present, h.blocks, h.genesisHash]
  by_cases hx : x = hash b
  · simp [hx]
  · simp [hx]

theorem get_parentHash (h : s.Adds b pd d t) (hne : b.parentHash ≠ hash b) :
    t.extraDetails.get b.parentHash = some pd := by
  obtain ⟨c, hc, ht⟩ := h.details
  rw [ht, Cached.get_put_of_ne hne, Cached.get_put_of_cache hc.self]

theorem get_of_ne {x : H} (h : s.Adds b pd d t) (hparent : x ≠ b.parentHash) (hx : x ≠ hash b) :
    t.extraDetails.get x = s.extraDetails.get x := by
  obtain ⟨c, hc, ht⟩ := h.details
  rw [ht, Cached.get_put_of_ne hx, Cached.get_put_of_ne hparent, hc.get_of_ne hparent]

/-- What is stored for the block itself is not seen if it was there, and has been read. -/
theorem get_hash (h : s.Adds b pd d t) (hne : b.parentHash ≠ hash b) :
    t.extraDetails.get (hash b) = some d ∧ s.extraDetails.cache (hash b) = none ∨
      t.extraDetails.get (hash b) = s.extraDetails.get (hash b) ∧ (s.extraDetails.get (hash b)).isSome := by
  obtain ⟨c, hc, ht⟩ := h.details
  rw [ht]
  rcases (c.put b.parentHash pd).get_put_self (hash b) d with ⟨hget, hcache⟩ | ⟨hget, hcache⟩
  · exact .inl ⟨hget, (hc.cache_of_none hcache).2⟩
  · have hget' : (c.put b.parentHash pd).get (hash b) = s.extraDetails.get (hash b) := by
      rw [Cached.get_put_of_ne hne.symm, hc.get_of_ne hne.symm]
    obtain ⟨v, hv⟩ := Option.isSome_iff_exists.1 hcache
    refine .inr ⟨hget.trans hget', ?_⟩
    rw [← hget', Cached.get_of_cache hv]
    rfl

end Adds

/-- The details of the new block are right, and those of its parent but for its children. -/
structure Fits (s : BlockChain H) (b : VerifiedBlockRef H) (pd d : BlockDetails H) : Prop where
  node : d = s.newNode b
  parent : { pd with children := [] } = s.node b.parentHash

section

variable (hs : s.Tree) (h : s.Accepts b mustBeNew valid) (ht : s.Adds b pd d t) (hfits : s.Fits b pd d)
include hs h ht hfits

theorem Tree.node_adds : t.node = update s.node (hash b) (s.newNode b) := by
  have hne := hs.parentHash_ne h
  funext x
  by_cases hx : x = hash b
  · subst hx
    rw [update_self]
    rcases ht.get_hash hne with ⟨hget, -⟩ | ⟨hget, hsome⟩
    · rw [node, detailsOf, hget, Option.getD_some, hfits.node]
      rfl
    · rw [node, detailsOf, hget]
      exact hs.node_eq (hs.blocks_of_present h ((hs.present _).1 hsome))
  · rw [update_of_ne hx, node, detailsOf]
    by_cases hparent : x = b.parentHash
    · rw [hparent, ht.get_parentHash hne]
      exact hfits.parent
    · rw [ht.get_of_ne hparent hx]
      rfl

/-- What was there is as before. -/
theorem Tree.node_of_present {x : H} (hx : s.Present x) : t.node x = s.node x := by
  rw [hs.node_adds h ht hfits]
  by_cases heq : x = hash b
  · subst heq
    rw [update_self, hs.node_eq (hs.blocks_of_present h hx)]
  · rw [update_of_ne heq]

theorem Tree.adds : t.Tree := by
  have hne := hs.parentHash_ne h
  have hnode := hs.node_adds h ht hfits
  have hkept : ∀ {x}, s.Present x → t.node x = s.node x := hs.node_of_present h ht hfits
  have hblocks : ∀ {x b'}, t.blocks x = some b' → x = hash b ∧ b' = b ∨ x ≠ hash b ∧ s.blocks x = some b' := by
    intro x b' hb'
    rw [ht.blocks] at hb'
    by_cases hx : x = hash b
    · subst hx
      rw [update_self] at hb'
      exact .inl ⟨rfl, (Option.some.inj hb').symm⟩
    · rw [update_of_ne hx] at hb'
      exact .inr ⟨hx, hb'⟩
  have hself : t.node (hash b) = s.newNode b := by rw [hnode, update_self]
  constructor
  case genesis => rw [ht.genesis, hs.genesis]
  case genesisNumber => rw [ht.genesisHash, hkept (.inl rfl), hs.genesisNumber]
  case present =>
    intro x
    rw [ht.present]
    by_cases hx : x = hash b
    · subst hx
      rcases ht.get_hash hne with ⟨hget, -⟩ | ⟨hget, hsome⟩
      · simp [hget]
      · simp [hget, hsome]
    · simp only [hx, false_or]
      by_cases hparent : x = b.parentHash
      · rw [hparent, ht.get_parentHash hne]
        simp [present_of_accepts h]
      · rw [ht.get_of_ne hparent hx, hs.present]
  case hash_eq =>
    intro x b' hb'
    rcases hblocks hb' with ⟨rfl, rfl⟩ | ⟨-, hb'⟩
    · rfl
    · exact hs.hash_eq hb'
  case parent =>
    intro x b' hb'
    rw [ht.present]
    rcases hblocks hb' with ⟨rfl, rfl⟩ | ⟨-, hb'⟩
    · exact .inr (present_of_accepts h)
    · exact .inr (hs.parent hb')
  case node_eq =>
    intro x b' hb'
    rcases hblocks hb' with ⟨rfl, rfl⟩ | ⟨hx, hb'⟩
    · rw [hself, newNode_congr (hkept (present_of_accepts h))]
    · rw [hnode, update_of_ne hx, newNode_congr (hkept (hs.parent hb')), hs.node_eq hb']
  case number =>
    intro x b' hb'
    rcases hblocks hb' with ⟨rfl, rfl⟩ | ⟨hx, hb'⟩
    · rw [hself, hs.number_of_accepts h]
      rfl
    · rw [hnode, update_of_ne hx, hs.number hb']

end

/-! ### The children -/

def children (s : BlockChain H) (h : H) : List H := (s.detailsOf h).children

/-- A block that has not been read has no children yet. -/
def Unread (s : BlockChain H) : Prop := ∀ h d, s.extraDetails.cache h = none → s.extraDetails.db h = some d → d.children = []

theorem Keeps.unread (h : s.Keeps t) (hs : s.Unread) : t.Unread := by
  intro x d hcache hdb
  rw [h.details.db] at hdb
  rcases h.details.cache x with heq | ⟨-, heq⟩
  · exact hs x d (heq ▸ hcache) hdb
  · rw [hcache, hdb] at heq
    cases heq

theorem Unread.children_eq {x : H} (hs : s.Unread) (hx : s.extraDetails.cache x = none) : s.children x = [] := by
  rw [children, detailsOf, Cached.get_of_cache_none hx]
  cases hdb : s.extraDetails.db x with
  | none => rfl
  | some d => exact hs x d hx hdb

theorem Unread.adds (hs : s.Unread) (ht : s.Adds b pd d t) (hd : d.children = []) : t.Unread := by
  intro x d' hcache hdb
  obtain ⟨c, hc, hdetails⟩ := ht.details
  rw [hdetails] at hcache hdb
  obtain ⟨hparent, hcache⟩ := hc.cache_of_none hcache
  by_cases hx : x = hash b
  · subst hx
    have hself : ((c.put b.parentHash pd).put (hash b) d).db (hash b) = some d := update_self ..
    rw [hself] at hdb
    exact Option.some.inj hdb ▸ hd
  · have hother : ((c.put b.parentHash pd).put (hash b) d).db x = s.extraDetails.db x := by
      simp [Cached.put, hx, hparent, hc.db]
    rw [hother] at hdb
    exact hs x d' hcache hdb

/-- The children that are stored are among the children, once. -/
structure Children (s : BlockChain H) : Prop where
  nodup : ∀ h, (s.children h).Nodup
  mem : ∀ {h b}, s.blocks h = some b → h ∈ s.children b.parentHash
  /-- A block that has not been read has no children yet. -/
  uncached : ∀ {h d}, s.extraDetails.cache h = none → s.extraDetails.db h = some d → d.children = []

theorem Children.nodup_withChild (hs : s.Children) (h : hash b ∉ s.children b.parentHash) :
    (s.withChild b).children.Nodup := by
  have hnodup := (hs.nodup b.parentHash).concat h
  rw [concat_eq_append] at hnodup
  exact hnodup

theorem Children.unread (hs : s.Children) : s.Unread := fun _ _ => hs.uncached

theorem Keeps.children (h : s.Keeps t) (hs : s.Children) : t.Children where
  nodup x := by
    rw [BlockChain.children, h.detailsOf]
    exact hs.nodup x
  mem hb := by
    rw [BlockChain.children, h.detailsOf]
    exact hs.mem (h.blocks ▸ hb)
  uncached := h.unread hs.unread _ _

theorem Children.children_adds (hs : s.Children) (ht : s.Adds b pd d t) (hne : b.parentHash ≠ hash b)
    (hd : d.children = []) : t.children = update s.children b.parentHash pd.children := by
  funext x
  by_cases hx : x = hash b
  · subst hx
    rw [update_of_ne hne.symm]
    rcases ht.get_hash hne with ⟨hget, hcache⟩ | ⟨hget, -⟩
    · rw [hs.unread.children_eq hcache, children, detailsOf, hget]
      exact hd
    · rw [children, detailsOf, hget]
      rfl
  · by_cases hparent : x = b.parentHash
    · rw [hparent, update_self, children, detailsOf, ht.get_parentHash hne]
      rfl
    · rw [update_of_ne hparent, children, detailsOf, ht.get_of_ne hparent hx]
      rfl

/-- If the new block is a child of its parent then, and the others are as before. -/
theorem Children.adds (hs : s.Children) (ht : s.Adds b pd d t) (hne : b.parentHash ≠ hash b) (hd : d.children = [])
    (hnodup : pd.children.Nodup) (hmem : hash b ∈ pd.children) (hsub : s.children b.parentHash ⊆ pd.children) :
    t.Children := by
  have hchildren := hs.children_adds ht hne hd
  constructor
  case nodup =>
    intro x
    rw [hchildren]
    by_cases hx : x = b.parentHash
    · rw [hx, update_self]
      exact hnodup
    · rw [update_of_ne hx]
      exact hs.nodup x
  case mem =>
    intro x b' hb'
    rw [hchildren]
    rw [ht.blocks] at hb'
    by_cases hx : x = hash b
    · subst hx
      rw [update_self] at hb'
      cases hb'
      rw [update_self]
      exact hmem
    · rw [update_of_ne hx] at hb'
      by_cases hparent : b'.parentHash = b.parentHash
      · rw [hparent, update_self]
        exact hsub (hparent ▸ hs.mem hb')
      · rw [update_of_ne hparent]
        exact hs.mem hb'
  case uncached => exact hs.unread.adds ht hd _ _

/-! ### Steps -/

/-- Only the index differs. -/
def Indexed (s t : BlockChain H) : Prop :=
  t = { s with extraTransactionAddress := t.extraTransactionAddress, extraBlockHash := t.extraBlockHash }

theorem Indexed.trans (h : s.Indexed t) (h' : t.Indexed u) : s.Indexed u := by
  rw [Indexed, h', h]

theorem indexed_canonWrites (bs : List (VerifiedBlockRef H)) : s.Indexed ((bs.flatMap canonWrites).foldl commit s) := by
  have hwrites : ∀ w ∈ bs.flatMap canonWrites, ∀ s : BlockChain H, s.Indexed (s.commit w) := by
    intro w hw s
    obtain ⟨b, -, hw⟩ := mem_flatMap.1 hw
    rcases mem_append.1 hw with hw | hw
    · obtain ⟨_, -, rfl⟩ := mem_map.1 hw
      rfl
    · rw [mem_singleton.1 hw]
      rfl
  generalize bs.flatMap canonWrites = ws at hwrites ⊢
  induction ws generalizing s with
  | nil => rfl
  | cons w ws ih =>
    have hrest := ih (s := s.commit w) fun w' hw' => hwrites w' (mem_cons_of_mem _ hw')
    exact (hwrites w mem_cons_self s).trans hrest

theorem indexed_reverted (common : H) : s.Indexed (s.reverted common) := by
  unfold reverted
  split <;> rfl

/-- What an insertion leaves of the head. -/
structure Heads (s : BlockChain H) (b : VerifiedBlockRef H) (td : U256) (t : BlockChain H) : Prop where
  imported : t.imported = s.imported
  rewound : t.rewound = s.rewound
  head : t.lastBlockHash = s.lastBlockHash ∧ td ≤ (s.detailsOf s.lastBlockHash).totalDifficulty ∨
    t.lastBlockHash = hash b ∧ s.Better td

theorem lastBlockHash_withHead : (s.withHead b).lastBlockHash = hash b := by
  unfold withHead
  split
  · assumption
  · rfl

theorem withHead_eq : s.withHead b =
    { s with lastBlockHash := (s.withHead b).lastBlockHash, lastBlockNumber := (s.withHead b).lastBlockNumber } := by
  unfold withHead
  split <;> rfl

theorem adds_of_loads {c : BlockChain H} (hc : Loads (s.pushed b) c) :
    s.Adds b (s.withChild b) d (c.stored b (s.withChild b) d) where
  genesis := by rw [hc.rest]; rfl
  blocks := by rw [hc.rest]; rfl
  details := ⟨c.extraDetails, hc.details.edits_of_edit, rfl⟩

theorem Adds.of_indexed (h : s.Adds b pd d t) (hu : t.Indexed u) : s.Adds b pd d u := by
  rw [hu]
  exact ⟨h.genesis, h.blocks, h.details⟩

theorem Inserts.adds {td : U256} (h : s.Inserts b td t) : s.Adds b (s.withChild b) (newDetails b td) t := by
  cases h with
  | side c hc _ => exact adds_of_loads hc
  | best c u r bs hc _ hu =>
    have hstored := adds_of_loads (d := newDetails b td) (hc.trans hu.loads)
    have hindexed : (u.stored b (s.withChild b) (newDetails b td)).Indexed
        ((u.reverted r.2.1).stored b (s.withChild b) (newDetails b td)) := by
      have hreverted := indexed_reverted (s := u) r.2.1
      generalize u.reverted r.2.1 = v at hreverted ⊢
      rw [hreverted]
      rfl
    have hall := hstored.of_indexed (hindexed.trans (indexed_canonWrites bs))
    rw [withHead_eq]
    exact ⟨hall.genesis, hall.blocks, hall.details⟩

theorem Inserts.heads {td : U256} (h : s.Inserts b td t) : s.Heads b td t := by
  cases h with
  | side c hc hle =>
    rw [hc.rest]
    exact ⟨rfl, rfl, .inl ⟨rfl, hle⟩⟩
  | best c u r bs hc hbetter hu =>
    have hindexed := (indexed_reverted (s := u) r.2.1)
    have hwrites := indexed_canonWrites (s := (u.reverted r.2.1).stored b (s.withChild b) (newDetails b td)) bs
    refine ⟨?_, ?_, .inr ⟨lastBlockHash_withHead, hbetter⟩⟩
    · rw [withHead_eq, hwrites, stored, hindexed, (hc.trans hu.loads).rest]
      rfl
    · rw [withHead_eq, hwrites, stored, hindexed, (hc.trans hu.loads).rest]
      rfl

theorem Tree.fits (hs : s.Tree) (h : s.Accepts b mustBeNew valid) :
    s.Fits b (s.withChild b) (newDetails b (s.newTotalDifficulty b)) := by
  refine ⟨?_, rfl⟩
  rw [newDetails, newNode, ← hs.number_of_accepts h, Nat.mod_eq_of_lt (Nat.lt_of_le_pred (by decide) h.le)]

/-- A block that is among the children has been pushed before, so its parent is cached. -/
theorem InsertsSide.stores (h : s.InsertsSide b t) (hs : s.Unread) : ∃ pd, s.Adds b pd (s.newNode b) t ∧
    s.Fits b pd (s.newNode b) ∧ (pd = s.detailsOf b.parentHash ∧ hash b ∈ s.children b.parentHash ∨
      pd = s.withChild b ∧ hash b ∉ s.children b.parentHash) ∧
    t = { s with blocks := t.blocks, extraDetails := t.extraDetails } := by
  cases h with
  | present c hc hmem =>
    have hcache : s.extraDetails.cache b.parentHash ≠ none := by
      intro hnone
      have hnil : (s.detailsOf b.parentHash).children = [] := hs.children_eq hnone
      rw [hnil] at hmem
      exact not_mem_nil hmem
    obtain ⟨v, hv⟩ := Option.ne_none_iff_exists'.1 hcache
    have hself : s.extraDetails.cache b.parentHash = some (s.detailsOf b.parentHash) := by
      rw [detailsOf, Cached.get_of_cache hv, hv]
      rfl
    refine ⟨s.detailsOf b.parentHash, ?_, ⟨rfl, rfl⟩, .inl ⟨rfl, hmem⟩, ?_⟩
    · rw [hc.rest]
      exact ⟨rfl, rfl, _, hc.details.edits hself, rfl⟩
    · rw [hc.rest]
      rfl
  | absent c hc hmem =>
    have hchild : c.withChild b = s.withChild b := by rw [withChild, withChild, hc.detailsOf]
    refine ⟨s.withChild b, ?_, ⟨rfl, rfl⟩, .inr ⟨rfl, hmem⟩, ?_⟩
    · have hadds := adds_of_loads (d := s.newNode b) (Loads.refl (c.pushed b))
      rw [hchild] at hadds
      obtain ⟨e, he, ht⟩ := hadds.details
      refine ⟨?_, ?_, e, hc.details.trans_edits he, ht⟩
      · exact (Keeps.of_loads hc).genesis
      · have hblocks := (Keeps.of_loads hc).blocks
        rw [← hblocks]
        rfl
    · rw [hc.rest]
      rfl

theorem InsertsSide.adds (h : s.InsertsSide b t) (hs : s.Children) :
    ∃ pd, s.Adds b pd (s.newNode b) t ∧ s.Fits b pd (s.newNode b) ∧ pd.children.Nodup ∧ hash b ∈ pd.children ∧
      s.children b.parentHash ⊆ pd.children ∧ t.imported = s.imported ∧ t.rewound = s.rewound ∧
      t.lastBlockHash = s.lastBlockHash := by
  obtain ⟨pd, hadds, hfits, hpd, hrest⟩ := h.stores hs.unread
  have hhead : t.imported = s.imported ∧ t.rewound = s.rewound ∧ t.lastBlockHash = s.lastBlockHash := by
    rw [hrest]
    exact ⟨rfl, rfl, rfl⟩
  rcases hpd with ⟨rfl, hmem⟩ | ⟨rfl, hmem⟩
  · exact ⟨_, hadds, hfits, hs.nodup _, hmem, List.Subset.refl _, hhead⟩
  · exact ⟨_, hadds, hfits, hs.nodup_withChild hmem, mem_append_right _ (mem_singleton_self _),
      subset_append_left _ _, hhead⟩

/-! ### An import that is abandoned -/

theorem get_pushed_parentHash : (s.pushed b).extraDetails.get b.parentHash = some (s.withChild b) := Cached.get_edit_self

theorem get_pushed_of_ne {x : H} (hx : x ≠ b.parentHash) : (s.pushed b).extraDetails.get x = s.extraDetails.get x := by
  rw [pushed, Cached.get_edit_of_ne hx, (s.extraDetails.loads_query b.parentHash).get_eq]

theorem children_pushed : (s.pushed b).children =
    update s.children b.parentHash (s.children b.parentHash ++ [hash b]) := by
  funext x
  by_cases hx : x = b.parentHash
  · rw [hx, update_self, children, detailsOf, get_pushed_parentHash]
    rfl
  · rw [update_of_ne hx, children, detailsOf, get_pushed_of_ne hx]
    rfl

theorem node_pushed : (s.pushed b).node = s.node := by
  funext x
  by_cases hx : x = b.parentHash
  · rw [hx, node, detailsOf, get_pushed_parentHash]
    rfl
  · rw [node, detailsOf, get_pushed_of_ne hx]
    rfl

theorem Tree.pushed (hs : s.Tree) (h : s.Accepts b mustBeNew valid) : (s.pushed b).Tree := by
  refine hs.congr rfl rfl node_pushed fun x => ?_
  by_cases hx : x = b.parentHash
  · rw [hx, get_pushed_parentHash, hs.present]
    simp [present_of_accepts h]
  · rw [get_pushed_of_ne hx]

theorem Children.pushed (hs : s.Children) (h : hash b ∉ s.children b.parentHash) : (s.pushed b).Children := by
  constructor
  case nodup =>
    intro x
    rw [children_pushed]
    by_cases hx : x = b.parentHash
    · rw [hx, update_self]
      exact hs.nodup_withChild h
    · rw [update_of_ne hx]
      exact hs.nodup x
  case mem =>
    intro x b' hb'
    rw [children_pushed]
    by_cases hx : b'.parentHash = b.parentHash
    · rw [hx, update_self]
      exact mem_append_left _ (hx ▸ hs.mem hb')
    · rw [update_of_ne hx]
      exact hs.mem hb'
  case uncached =>
    intro x d hcache hdb
    have hedits : s.extraDetails.Edits (s.pushed b).extraDetails b.parentHash (s.withChild b) :=
      (Cached.Loads.refl _).edits_of_edit
    exact hs.uncached (hedits.cache_of_none hcache).2 hdb

/-! ### Runs -/

/-- The tree, with its head. -/
structure Sound (s : BlockChain H) : Prop where
  tree : s.Tree
  children : s.Children
  imported : ∀ h ∈ s.imported, s.Present h
  last : s.rewound = false → s.Present s.lastBlockHash
  greatest : s.rewound = false → ∀ h ∈ s.imported, (s.node h).totalDifficulty ≤ (s.node s.lastBlockHash).totalDifficulty

theorem Sound.blocks (h : s.Sound) : s.IsTree where
  parent x b hb := by
    refine ⟨h.tree.hash_eq hb, ?_⟩
    change (s.node x).parent = _
    rw [h.tree.node_eq hb]
    rfl
  number x b hb := by
    change (s.node x).number = _
    rw [h.tree.node_eq hb]
    rfl
  totalDifficulty x b hb := by
    change (s.node x).totalDifficulty = _
    rw [h.tree.node_eq hb]
    rfl
  children _ _ hb := count_eq_one_of_mem (h.children.nodup _) (h.children.mem hb)
  greatest := h.greatest

theorem Start.sound (h : Start s) : s.Sound := by
  have hget : ∀ x, s.extraDetails.get x = if x = hash s.genesis then some ⟨0, s.genesis.difficulty, 0, []⟩ else none := by
    intro x
    rw [h.opened]
    by_cases hx : x = hash s.genesis
    · simp [hx]
    · simp [hx, Cached.get, Cached.edit, Cached.put]
  have hblocks : ∀ x, s.blocks x = none := fun x => by rw [h.opened]
  have hlast : s.lastBlockHash = s.genesisHash := by rw [h.opened]; rfl
  have himported : s.imported = [] := by rw [h.opened]
  have hchildren : ∀ x, s.children x = [] := by
    intro x
    rw [children, detailsOf, hget]
    split <;> rfl
  constructor
  case tree =>
    refine ⟨h.number, ?_, fun x => ?_, ?_, ?_, ?_, ?_⟩
    · rw [node, detailsOf, hget, genesisHash, if_pos rfl]
      rfl
    · rw [hget, Present, hblocks, genesisHash]
      by_cases hx : x = hash s.genesis <;> simp [hx]
    all_goals
      intro x b hb
      rw [hblocks] at hb
      cases hb
  case children =>
    refine ⟨fun x => ?_, ?_, ?_⟩
    · rw [hchildren]
      exact .nil
    · intro x b hb
      rw [hblocks] at hb
      cases hb
    · intro x d _ hdb
      rw [h.opened] at hdb
      by_cases hx : x = hash s.genesis
      · have hd : ⟨0, s.genesis.difficulty, 0, []⟩ = d := by simpa [Cached.edit, Cached.put, hx] using hdb
        rw [← hd]
      · simp [Cached.edit, Cached.put, hx] at hdb
  case imported =>
    intro x hx
    rw [himported] at hx
    cases hx
  case last => exact fun _ => .inl hlast
  case greatest =>
    intro _ x hx
    rw [himported] at hx
    cases hx

/-- Steps that store nothing. -/
theorem Sound.of_same (h : s.Sound) (htree : t.Tree) (hchildren : t.Children) (hpresent : ∀ x, t.Present x ↔ s.Present x)
    (hnode : t.node = s.node) (himported : t.imported = s.imported)
    (hhead : t.rewound = false → s.rewound = false ∧ t.lastBlockHash = s.lastBlockHash) : t.Sound where
  tree := htree
  children := hchildren
  imported x hx := (hpresent x).2 (h.imported x (himported ▸ hx))
  last ht := by
    obtain ⟨hs, heq⟩ := hhead ht
    rw [hpresent, heq]
    exact h.last hs
  greatest ht x hx := by
    obtain ⟨hs, heq⟩ := hhead ht
    rw [hnode, heq]
    exact h.greatest hs x (himported ▸ hx)

theorem Sound.keeps (h : s.Sound) (ht : s.Keeps t) (himported : t.imported = s.imported)
    (hhead : t.rewound = false → s.rewound = false ∧ t.lastBlockHash = s.lastBlockHash) : t.Sound :=
  h.of_same (ht.tree h.tree) (ht.children h.children) ht.present ht.node himported hhead

theorem Sound.loads (h : s.Sound) (ht : Loads s t) : t.Sound := by
  refine h.keeps (.of_loads ht) ?_ fun hrewound => ?_
  · rw [ht.rest]
  · rw [ht.rest] at hrewound ⊢
    exact ⟨hrewound, rfl⟩

theorem Sound.loadsCleared (h : s.Sound) (ht : s.LoadsCleared t) : t.Sound := by
  obtain ⟨u, hu, rfl | ⟨first, rfl⟩⟩ := ht
  · exact h.loads hu
  · exact (h.loads hu).keeps ⟨rfl, rfl, .refl _⟩ rfl fun hrewound => ⟨hrewound, rfl⟩

theorem Sound.adds (h : s.Sound) (ha : s.Accepts b mustBeNew valid) (ht : s.Adds b pd d t) (hfits : s.Fits b pd d)
    (hchildren : t.Children) (hrewound : t.rewound = s.rewound)
    (himported : ∀ x ∈ t.imported, x = hash b ∨ x ∈ s.imported)
    (hhead : t.lastBlockHash = s.lastBlockHash ∧
        (hash b ∈ t.imported → hash b ∈ s.imported ∨
          s.newTotalDifficulty b ≤ (s.node s.lastBlockHash).totalDifficulty) ∨
      t.lastBlockHash = hash b ∧ (s.node s.lastBlockHash).totalDifficulty ≤ s.newTotalDifficulty b) : t.Sound := by
  have hnode := h.tree.node_adds ha ht hfits
  have hkept : ∀ {x}, s.Present x → t.node x = s.node x := h.tree.node_of_present ha ht hfits
  have hself : t.node (hash b) = s.newNode b := by rw [hnode, update_self]
  constructor
  case tree => exact h.tree.adds ha ht hfits
  case children => exact hchildren
  case imported => exact fun x hx => (ht.present x).2 ((himported x hx).imp_right (h.imported x))
  case last =>
    intro hfalse
    rw [ht.present]
    rcases hhead with ⟨heq, -⟩ | ⟨heq, -⟩
    · exact .inr (heq ▸ h.last (hrewound ▸ hfalse))
    · exact .inl heq
  case greatest =>
    intro hfalse x hx
    rw [hrewound] at hfalse
    have hold : ∀ x ∈ s.imported, (t.node x).totalDifficulty ≤ (s.node s.lastBlockHash).totalDifficulty := by
      intro x hx
      rw [hkept (h.imported x hx)]
      exact h.greatest hfalse x hx
    rcases hhead with ⟨heq, hle⟩ | ⟨heq, hle⟩
    · rw [heq, hkept (h.last hfalse)]
      rcases himported x hx with rfl | hx'
      · rcases hle hx with hmem | hle
        · exact hold _ hmem
        · rw [hself]
          exact hle
      · exact hold x hx'
    · rw [heq, hself]
      rcases himported x hx with rfl | hx'
      · rw [hself]
        exact BitVec.le_refl _
      · exact BitVec.le_trans (hold x hx') hle

theorem Better.le {td : U256} (h : s.Better td) : (s.detailsOf s.lastBlockHash).totalDifficulty ≤ td :=
  h.elim BitVec.le_of_lt fun ⟨_, heq⟩ => heq ▸ BitVec.le_refl _

/-- `import` of a block that is not among the children of its parent. -/
theorem Sound.inserts (h : s.Sound) (ha : s.Accepts b mustBeNew valid) (hfresh : hash b ∉ s.children b.parentHash)
    (ht : s.Inserts b (s.newTotalDifficulty b) t) : ({ t with imported := hash b :: t.imported } : BlockChain H).Sound := by
  have hne := h.tree.parentHash_ne ha
  have hheads := ht.heads
  have hadds : s.Adds b (s.withChild b) (newDetails b (s.newTotalDifficulty b)) { t with imported := hash b :: t.imported } :=
    ⟨ht.adds.genesis, ht.adds.blocks, ht.adds.details⟩
  refine h.adds ha hadds (h.tree.fits ha) ?_ hheads.rewound (fun x hx => ?_) ?_
  · refine h.children.adds hadds hne rfl ?_ ?_ ?_
    · exact h.children.nodup_withChild hfresh
    · exact mem_append_right _ (mem_singleton_self _)
    · exact subset_append_left _ _
  · rw [← hheads.imported]
    exact mem_cons.1 hx
  · exact hheads.head.imp (fun hside => ⟨hside.1, fun _ => .inr hside.2⟩) fun hbest => ⟨hbest.1, hbest.2.le⟩

theorem Accepts.loads (h : s.Accepts b mustBeNew valid) (ht : Loads s t) : t.Accepts b mustBeNew valid where
  new hnew := by rw [ht.known, h.new hnew]
  parent := by rw [ht.known, h.parent]
  notNull := by rw [ht.detailsOf, h.notNull]
  le := h.le
  number := by
    obtain ⟨header, hheader, hnumber⟩ := h.number
    rw [ht.rest]
    exact ⟨header, hheader, hnumber⟩
  valid := h.valid

theorem Sound.step {e : Event H} (h : s.Sound) (hfresh : s.Fresh e) (hstep : s.step e = some t) : t.Sound := by
  have hchildren : ∀ {u}, Loads s u → u.children = s.children := by
    intro u hu
    funext x
    rw [BlockChain.children, BlockChain.children, hu.detailsOf]
  cases does_step hstep with
  | loads ht => exact h.loads ht
  | abandons u hu ha ht =>
    have hsound := h.loads hu
    have hnew := hfresh ha
    change _ ∉ s.children _ at hnew
    rw [← hchildren hu] at hnew
    have hpushed := hsound.of_same (hsound.tree.pushed (ha.loads hu)) (hsound.children.pushed hnew) (fun _ => Iff.rfl)
      node_pushed rfl fun hrewound => ⟨hrewound, rfl⟩
    exact hpushed.loadsCleared ht
  | imports u v hu ha hv =>
    have htd : ∀ b, s.newTotalDifficulty b = u.newTotalDifficulty b := fun b => by
      rw [newTotalDifficulty, newTotalDifficulty, hu.detailsOf]
    rw [htd] at hv
    refine (h.loads hu).inserts (ha.loads hu) ?_ hv
    rw [hchildren hu]
    exact hfresh ha
  | inserts ha ht =>
    obtain ⟨pd, hadds, hfits, hnodup, hmem, hsub, himported, hrewound, hlast⟩ := ht.adds h.children
    have hne := h.tree.parentHash_ne ha
    refine h.adds ha hadds hfits (h.children.adds hadds hne rfl hnodup hmem hsub) hrewound ?_ ?_
    · exact fun x hx => .inr (himported ▸ hx)
    · exact .inl ⟨hlast, fun hb => .inl (himported ▸ hb)⟩
  | rewinds hlt => exact h.keeps ⟨rfl, rfl, .refl _⟩ rfl nofun
  | numberHash hi => exact h.keeps ⟨rfl, rfl, .refl _⟩ rfl fun hrewound => ⟨hrewound, rfl⟩
  | transactionLocation => exact h.keeps ⟨rfl, rfl, .refl _⟩ rfl fun hrewound => ⟨hrewound, rfl⟩

/-- In the runs that import no block twice below one parent, the blocks are a tree. -/
theorem isTree (hs : Start s) (h : Reaches Fresh s t) : t.IsTree := by
  have hsound : t.Sound := by
    induction h with
    | refl => exact hs.sound
    | tail _ hstep ih =>
      obtain ⟨e, hfresh, hstep⟩ := hstep
      exact ih.step hfresh hstep
  exact hsound.blocks

end BlockChain

/-! ### A chain of which all hashes can be computed -/

namespace Numbered

def fields (b : VerifiedBlockRef Nat) : Nat × Nat × Nat × Nat × List Nat × List Nat :=
  (b.parentHash, b.number, b.difficulty.toNat, b.gasUsed, b.transactions, b.rest.map UInt8.toNat)

theorem fields_injective : Injective fields := by
  rintro ⟨parent, number, difficulty, gas, transactions, rest⟩ ⟨parent', number', difficulty', gas', transactions', rest'⟩ h
  simp only [fields, Prod.mk.injEq] at h
  obtain ⟨rfl, rfl, hdifficulty, rfl, rfl, hrest⟩ := h
  rw [BitVec.eq_of_toNat_eq hdifficulty, map_injective_iff.2 (fun _ _ => UInt8.toNat_inj.1) hrest]

scoped instance : BlockSha3 Nat where
  hash b := Encodable.encode (fields b) + 1
  hash_injective _ _ h := fields_injective (Encodable.encode_injective (Nat.succ_injective h))
  hash_ne_zero _ := Nat.succ_ne_zero _

@[reducible] def genesisBlock : VerifiedBlockRef Nat := ⟨0, 0, 1, 0, [], []⟩

@[reducible] def opened : BlockChain Nat where
  genesis := genesisBlock
  tieBreakingGas := false
  extraDetails := ({} : Cached Nat (BlockDetails Nat)).put (hash genesisBlock) ⟨0, 1, 0, []⟩ |>.edit
    (hash genesisBlock) ⟨0, 1, 0, []⟩
  lastBlockHash := hash genesisBlock

theorem start_opened : opened.Start := ⟨rfl, rfl, rfl⟩

/-- A block on top of another one. -/
@[reducible] def child (b : VerifiedBlockRef Nat) (difficulty : U256) (transactions : List Nat := []) :
    VerifiedBlockRef Nat :=
  ⟨hash b, b.number + 1, difficulty, 0, transactions, []⟩

/-- `import` of a block that passes the checks. -/
@[reducible] def importOf (b : VerifiedBlockRef Nat) : Event Nat := .import_ b true true

/-- No block is imported that is among the children of its parent. -/
def isNew (s : BlockChain Nat) : Event Nat → Bool
  | .import_ b _ _ => hash b ∉ (s.detailsOf b.parentHash).children
  | _ => true

end Numbered

namespace BlockChain

open Numbered

/-- The run of a chain of two blocks, with each block in its parent's place once. -/
theorem isTree_two : ∃ t, opened.run [importOf (child genesisBlock 1), importOf (child (child genesisBlock 1) 1)] isNew =
    some t ∧ t.lastBlockNumber = 2 ∧ t.IsTree := by
  have hrun : ∃ t, opened.run [importOf (child genesisBlock 1), importOf (child (child genesisBlock 1) 1)] isNew =
      some t ∧ t.lastBlockNumber = 2 := by decide +kernel
  obtain ⟨t, ht, hnumber⟩ := hrun
  refine ⟨t, ht, hnumber, isTree start_opened (Reaches.run (fun s e _ hfresh => ?_) ht)⟩
  cases e with
  | import_ b _ _ => exact fun _ => by simpa [isNew] using hfresh
  | _ => trivial

/-- With a block of height 1 for the head, a block of height 2 on a side chain is imported twice. -/
theorem not_isTree : ¬ ∀ (H : Type) [DecidableEq H] [BlockSha3 H] (s t : BlockChain H), Start s →
    Reaches (fun _ _ => True) s t → t.IsTree := by
  intro h
  let side := child genesisBlock 1
  have hrun : ∃ t, opened.run [importOf (child genesisBlock 10), importOf side, importOf (child side 1),
      importOf (child side 1)] = some t ∧ t.blocks (hash (child side 1)) = some (child side 1) ∧
      (t.detailsOf (hash side)).children.count (hash (child side 1)) = 2 := by decide +kernel
  obtain ⟨t, ht, hblocks, hcount⟩ := hrun
  have htree := h Nat opened t start_opened (Reaches.run (fun _ _ _ _ => trivial) ht)
  have hone : (t.detailsOf (hash side)).children.count (hash (child side 1)) = 1 := htree.children _ _ hblocks
  rw [hcount] at hone
  exact absurd hone (by decide)

end BlockChain

end Kmdx.Chain
