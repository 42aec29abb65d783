import Kmdx.Chain.Becoming

/-!
# The canonical chain

As long as the head is there (`Headed`), it has an ancestor at each height up to its own, the canonical block of that height.
The head may move on to another block, or back: what becomes canonical then is what an insertion is routed through (`Moves`).
-/

namespace Kmdx.Chain.BlockChain

open Wp Ancestry Function List

set_option linter.unusedSectionVars false

variable {H : Type} [DecidableEq H] [BlockSha3 H] {s t u c c' : BlockChain H} {b tbi : VerifiedBlockRef H}
    {d pd : BlockDetails H}
  {mustBeNew valid : Bool} {bs : List (VerifiedBlockRef H)} {x y : H} {k n i : Nat}

/-- The ancestor of the head at the height `n` -/
def canonical (s : BlockChain H) (n : Nat) : H := s.parentOf^[s.lastBlockNumber - n] s.lastBlockHash

/-- The head is there, with the number that is kept for it. -/
structure Headed (s : BlockChain H) : Prop where
  tree : s.Tree
  unread : s.Unread
  last : s.Present s.lastBlockHash
  number : s.level s.lastBlockHash = s.lastBlockNumber
  lt : s.lastBlockNumber < invalidNumber

/-- The blocks that are there and have a number -/
def Placed (s : BlockChain H) (x : H) : Prop := s.Present x ∧ s.level x < invalidNumber

/-! ### The tree -/

theorem Tree.blocks_of_ne (hs : s.Tree) (hx : s.Present x) (hne : x ≠ s.genesisHash) :
    ∃ b, s.blocks x = some b ∧ hash b = x ∧ s.parentOf x = b.parentHash ∧ s.level x = b.number ∧
      s.level x = s.level b.parentHash + 1 ∧ s.Present b.parentHash := by
  obtain ⟨b, hb⟩ := Option.isSome_iff_exists.1 (hx.resolve_left hne)
  obtain ⟨hlevel, -, hparent, -⟩ := BlockDetails.mk.inj (hs.node_eq hb)
  exact ⟨b, hb, hs.hash_eq hb, hparent, hs.number hb, hlevel, hs.parent hb⟩

theorem Tree.blockTree (hs : s.Tree) : s.BlockTree s.Placed := by
  refine ⟨⟨hs.genesisNumber, fun hx hne => ?_, fun hx hne => ?_⟩, fun {x} hx => ?_, fun hx => ?_⟩
  · obtain ⟨b, -, -, hparent, -, hlevel, hpresent⟩ := hs.blocks_of_ne hx.1 hne
    have hlt := hx.2
    rw [hparent]
    exact ⟨hpresent, by omega⟩
  · obtain ⟨b, -, -, hparent, -, hlevel, -⟩ := hs.blocks_of_ne hx.1 hne
    rw [hparent, hlevel]
  · by_cases hgenesis : x = s.genesisHash
    · rw [hgenesis]
      exact BlockSha3.hash_ne_zero _
    · obtain ⟨b, -, hhash, -⟩ := hs.blocks_of_ne hx.1 hgenesis
      rw [← hhash]
      exact BlockSha3.hash_ne_zero _
  · exact decide_eq_false (Nat.ne_of_lt hx.2)

/-- Of a block that is stored again nothing is changed. -/
theorem Tree.blocks_adds (hs : s.Tree) (ha : s.Accepts b mustBeNew valid) (ht : s.Adds b pd d t) {x : H}
    {tbi : VerifiedBlockRef H} (hx : s.blocks x = some tbi) : t.blocks x = some tbi := by
  rw [ht.blocks]
  by_cases hxb : x = hash b
  · rw [hxb, update_self, ← hs.blocks_of_present ha (hxb ▸ .inr (by rw [hx]; rfl)), ← hxb, hx]
  · rw [update_of_ne hxb, hx]

theorem Like.level (h : s.Like t) : s.level = t.level := by
  funext x
  exact (BlockDetails.mk.inj (congrFun h.node x)).1

theorem Like.parentOf (h : s.Like t) : s.parentOf = t.parentOf := by
  funext x
  exact (BlockDetails.mk.inj (congrFun h.node x)).2.2.1

theorem BlockTree.like {known : H → Prop} (h : s.BlockTree known) (hlike : t.Like s) : t.BlockTree known := by
  have hgenesis : t.genesisHash = s.genesisHash := by rw [genesisHash, genesisHash, hlike.genesis]
  refine ⟨?_, h.ne_zero, fun {x} hx => ?_⟩
  · rw [hgenesis, hlike.parentOf, hlike.level]
    exact h.tree
  · have hnumber : (t.detailsOf x).number = (s.detailsOf x).number := congrFun hlike.level x
    rw [BlockDetails.isNull, hnumber]
    exact h.isNull hx

/-- Where all blocks of `s` have the same parents, they have the same ancestors. -/
theorem Tree.iterate_congr (hs : s.Tree) (hparent : ∀ y, s.Present y → t.parentOf y = s.parentOf y) (hx : s.Present x)
    (hk : k ≤ s.level x) : t.parentOf^[k] x = s.parentOf^[k] x := by
  induction k with
  | zero => rfl
  | succ k ih =>
    rw [iterate_succ_apply', iterate_succ_apply', ih (Nat.le_of_succ_le hk)]
    exact hparent _ (hs.iterate hx (Nat.le_of_succ_le hk)).1

/-! ### The canonical blocks -/

theorem canonical_last (s : BlockChain H) : s.canonical s.lastBlockNumber = s.lastBlockHash := by
  rw [BlockChain.canonical, Nat.sub_self]
  rfl

/-- Below a canonical block are those that were below it. -/
theorem iterate_canonical (hn : n ≤ s.lastBlockNumber) (hi : i ≤ n) :
    s.parentOf^[n - i] (s.canonical n) = s.canonical i := by
  rw [BlockChain.canonical, ← iterate_add_apply]
  exact congrArg (fun k => s.parentOf^[k] s.lastBlockHash) (by omega)

namespace Headed

theorem placed (h : s.Headed) : s.Placed s.lastBlockHash := ⟨h.last, h.number ▸ h.lt⟩

theorem placed_canonical (h : s.Headed) (hn : n ≤ s.lastBlockNumber) :
    s.Placed (s.canonical n) ∧ s.level (s.canonical n) = n := by
  have hlevel := h.number
  obtain ⟨hplaced, hiterate⟩ := h.tree.blockTree.tree.iterate h.placed (i := s.lastBlockNumber - n) (by omega)
  exact ⟨hplaced, hiterate.trans (by omega)⟩

theorem canonical_zero (h : s.Headed) : s.canonical 0 = s.genesisHash := by
  obtain ⟨hplaced, hlevel⟩ := h.placed_canonical (Nat.zero_le _)
  exact h.tree.blockTree.tree.eq_root hplaced hlevel

theorem canonical_of_ancestor (h : s.Headed) (hx : Ancestor s.parentOf s.level x s.lastBlockHash) :
    s.level x ≤ s.lastBlockNumber ∧ s.canonical (s.level x) = x := by
  obtain ⟨hle, hsteps⟩ := (h.tree.blockTree.tree.ancestor_iff h.placed).1 hx
  rw [h.number] at hle hsteps
  exact ⟨hle, hsteps⟩

theorem blocks_canonical (h : s.Headed) (hpos : 0 < n) (hn : n ≤ s.lastBlockNumber) :
    ∃ tbi, s.blocks (s.canonical n) = some tbi ∧ tbi.number = n ∧ hash tbi = s.canonical n := by
  obtain ⟨hplaced, hlevel⟩ := h.placed_canonical hn
  obtain ⟨tbi, hblocks, hhash, -, hnumber, -⟩ := h.tree.blocks_of_ne hplaced.1
    (h.tree.blockTree.tree.ne_root (by omega))
  exact ⟨tbi, hblocks, hnumber.symm.trans hlevel, hhash⟩

end Headed

/-! ### The head moves -/

/-- From `s` to `t` the head has moved. Up to the height `n` the chains are the same, and above it `bs` are the canonical
blocks of `t`, from the head down. -/
structure Moves (s t : BlockChain H) (n : Nat) (bs : List (VerifiedBlockRef H)) : Prop where
  le : n ≤ s.lastBlockNumber
  le' : n ≤ t.lastBlockNumber
  below : ∀ i ≤ n, t.canonical i = s.canonical i
  numbers : bs.map VerifiedBlockRef.number = (List.range' (n + 1) (t.lastBlockNumber - n)).reverse
  hashes : ∀ tbi ∈ bs, hash tbi = t.canonical tbi.number
  stored : ∀ tbi ∈ bs, t.blocks (hash tbi) = some tbi
  blocks : ∀ {x tbi}, s.blocks x = some tbi → t.blocks x = some tbi

theorem Moves.mem_iff (h : s.Moves t n bs) : (∃ tbi ∈ bs, tbi.number = i) ↔ n < i ∧ i ≤ t.lastBlockNumber := by
  have hle := h.le'
  rw [← mem_map (f := VerifiedBlockRef.number), h.numbers, mem_reverse, mem_range'_1]
  omega

/-- A head that stays -/
theorem Moves.of_last (hlast : t.lastBlockHash = s.lastBlockHash) (hnumber : t.lastBlockNumber = s.lastBlockNumber)
    (hs : s.Headed) (hparent : ∀ y, s.Present y → t.parentOf y = s.parentOf y)
    (hblocks : ∀ {x tbi}, s.blocks x = some tbi → t.blocks x = some tbi) : s.Moves t s.lastBlockNumber [] := by
  refine ⟨le_refl _, hnumber.ge, fun i hi => ?_, ?_, nofun, nofun, hblocks⟩
  · rw [canonical, canonical, hlast, hnumber]
    have hlevel := hs.number
    exact hs.tree.iterate_congr hparent hs.last (by omega)
  · rw [hnumber, Nat.sub_self]
    rfl

/-! ### What an insertion is routed through -/

theorem route_of_run {r : List H × H × Nat} {known : H → Prop} (h : c.BlockTree known) (hx : known x) (hy : known y)
    (hrun : treeRoute x y c = .ok r c') : IsLca c.parentOf c.level x y r.2.1 ∧
      r.1 = path c.parentOf c.level x r.2.1 ++ [r.2.1] ++ (path c.parentOf c.level y r.2.1).reverse := by
  have hwith : treeRouteWith true true true x y c = .ok (some r) c' := by rw [treeRoute_eq h hx hy, run_map, hrun]
  obtain ⟨-, a, ha, hr⟩ := wp_ok (reads_treeRouteWith h hx hy) hwith
  rw [Option.some_inj] at hr
  subst hr
  exact ⟨ha, by simp [routeRet, routeBack]⟩

/-- Of the new head and the way from the common block to it, nothing is the common block. -/
theorem takeWhile_route {r : List H × H × Nat} (hs : s.Tree) (ha : s.Accepts b mustBeNew valid)
    (hparent : s.Placed b.parentHash) (hlca : Ancestor s.parentOf s.level r.2.1 b.parentHash)
    (hr : r.1 = path s.parentOf s.level x r.2.1 ++ [r.2.1] ++ (path s.parentOf s.level b.parentHash r.2.1).reverse) :
    (r.1 ++ [hash b]).reverse.takeWhile (· ≠ r.2.1) = hash b :: path s.parentOf s.level b.parentHash r.2.1 := by
  have htree := hs.blockTree.tree
  obtain ⟨hle, -⟩ := (htree.ancestor_iff hparent).1 hlca
  have hnumber : b.number = s.level b.parentHash + 1 := hs.number_of_accepts ha
  have hnew : hash b ≠ r.2.1 := by
    intro heq
    have hpresent : s.Present (hash b) := heq ▸ (htree.known_of_ancestor hparent hlca).1
    have hlevel : s.level (hash b) = b.number := hs.number (hs.blocks_of_present ha hpresent)
    rw [heq] at hlevel
    omega
  have hway : ∀ y ∈ hash b :: path s.parentOf s.level b.parentHash r.2.1, decide (y ≠ r.2.1) = true := by
    intro y hy
    rw [decide_eq_true_iff]
    rcases mem_cons.1 hy with rfl | hy
    · exact hnew
    · obtain ⟨k, hk, rfl⟩ := mem_iterate.1 hy
      have hlevel := (htree.iterate hparent (i := k) (by omega)).2
      intro heq
      rw [heq] at hlevel
      omega
  have hreverse : (r.1 ++ [hash b]).reverse = (hash b :: path s.parentOf s.level b.parentHash r.2.1) ++
      r.2.1 :: (path s.parentOf s.level x r.2.1).reverse := by
    rw [hr]
    simp
  rw [hreverse, takeWhile_append_of_pos hway, takeWhile_cons_of_neg (by simp), append_nil]

/-- The blocks that are met on the way down from `x` -/
theorem Tree.blocks_iterate (hs : s.Tree) (hx : s.Present x) (hk : k ≤ s.level x)
    (hbs : List.Forall₂ (fun h tbi => s.blocks h = some tbi) (List.iterate s.parentOf x k) bs) :
    bs.map VerifiedBlockRef.number = (List.range' (s.level x - k + 1) k).reverse ∧
      ∀ tbi ∈ bs, s.blocks (hash tbi) = some tbi ∧ ∃ i, tbi.number + i = s.level x ∧ hash tbi = s.parentOf^[i] x := by
  induction k generalizing x bs with
  | zero =>
    cases hbs
    exact ⟨rfl, nofun⟩
  | succ k ih =>
    rw [List.iterate] at hbs
    cases hbs with
    | cons hb hbs =>
      rename_i tbi bs
      have hne : x ≠ s.genesisHash := hs.blockTree.tree.ne_root (by omega)
      obtain ⟨b, hb', hhash, hparent, hnumber, hlevel, hpresent⟩ := hs.blocks_of_ne hx hne
      have heq : tbi = b := Option.some.inj (hb.symm.trans hb')
      subst heq
      rw [hparent] at hbs
      obtain ⟨hnumbers, hall⟩ := ih hpresent (by omega) hbs
      refine ⟨?_, fun tbi' htbi' => ?_⟩
      · have hstart : s.level x - (k + 1) + 1 = s.level tbi.parentHash - k + 1 := by omega
        have hend : s.level tbi.parentHash - k + 1 + 1 * k = tbi.number := by omega
        rw [map_cons, hnumbers, hstart, List.range'_concat, reverse_append, hend]
        rfl
      · rcases mem_cons.1 htbi' with rfl | htbi'
        · exact ⟨hhash ▸ hb, 0, hnumber.symm, hhash⟩
        · obtain ⟨hstored, i, hsum, hhash'⟩ := hall tbi' htbi'
          refine ⟨hstored, i + 1, by omega, ?_⟩
          rw [hhash', iterate_succ_apply, hparent]

/-- The new block becomes the head. -/
theorem Headed.moves {a : H} (hs : s.Headed) (ha : s.Accepts b mustBeNew valid) (ht : s.Adds b pd d t) (hfits : s.Fits b pd d)
    (hlast : t.lastBlockHash = hash b) (hnumber : t.lastBlockNumber = b.number) (hlt : b.number < invalidNumber)
    (hlca : IsLca s.parentOf s.level s.lastBlockHash b.parentHash a)
    (hbs : List.Forall₂ (s.IsBlock b) (hash b :: path s.parentOf s.level b.parentHash a) bs) :
    t.Headed ∧ s.Moves t (s.level a) bs := by
  have htree := hs.tree.adds ha ht hfits
  have hself : t.blocks (hash b) = some b := by rw [ht.blocks, update_self]
  have hpresent : t.Present (hash b) := .inr (by rw [hself]; rfl)
  have hlevel : t.level (hash b) = b.number := htree.number hself
  have hheaded : t.Headed := ⟨htree, hs.unread.adds ht (hfits.node ▸ rfl),
      hlast ▸ hpresent, by rw [hlast, hlevel, hnumber], hnumber ▸ hlt⟩
  have hb : b.number = s.level b.parentHash + 1 := hs.tree.number_of_accepts ha
  have hparent : s.Placed b.parentHash := ⟨present_of_accepts ha, by omega⟩
  obtain ⟨hle, hdown⟩ := (hs.tree.blockTree.tree.ancestor_iff hparent).1 hlca.right
  obtain ⟨hle', hcanonical⟩ := hs.canonical_of_ancestor hlca.left
  have hparents : ∀ y, s.Present y → t.parentOf y = s.parentOf y := fun y hy =>
    (BlockDetails.mk.inj (hs.tree.node_of_present ha ht hfits hy)).2.2.1
  have hstep : t.parentOf (hash b) = b.parentHash := (BlockDetails.mk.inj (htree.node_eq hself)).2.2.1
  have hiterate : ∀ {k}, k ≤ s.level b.parentHash → t.parentOf^[k + 1] (hash b) = s.parentOf^[k] b.parentHash := by
    intro k hk
    rw [iterate_succ_apply, hstep]
    exact hs.tree.iterate_congr hparents hparent.1 hk
  have hnew : ∀ {k}, k ≤ s.level b.parentHash + 1 →
      hash b :: List.iterate s.parentOf b.parentHash k = List.iterate t.parentOf (hash b) (k + 1) := by
    intro k hk
    rw [List.iterate, hstep]
    refine congrArg _ (ext_getElem (by simp) fun i hi _ => ?_)
    rw [length_iterate] at hi
    rw [getElem_iterate, getElem_iterate]
    exact (hs.tree.iterate_congr hparents hparent.1 (by omega)).symm
  have hblocks : ∀ {x tbi}, s.blocks x = some tbi → t.blocks x = some tbi := hs.tree.blocks_adds ha ht
  have hbelow : ∀ i ≤ s.level a, t.canonical i = s.canonical i := by
    intro i hi
    have hsteps : t.lastBlockNumber - i = s.level b.parentHash - i + 1 := by omega
    have hsplit : s.level b.parentHash - i = s.level a - i + (s.level b.parentHash - s.level a) := by omega
    rw [BlockChain.canonical, hlast, hsteps, hiterate (Nat.sub_le _ _), hsplit, iterate_add_apply, hdown,
      ← iterate_canonical hle' hi, hcanonical]
  rw [path, hnew (by omega)] at hbs
  -- None of these is the genesis block, so all of them are stored.
  have hstored : List.Forall₂ (fun h tbi => t.blocks h = some tbi)
      (List.iterate t.parentOf (hash b) (s.level b.parentHash - s.level a + 1)) bs := by
    have hpos : ∀ h ∈ List.iterate t.parentOf (hash b) (s.level b.parentHash - s.level a + 1), t.level h ≠ 0 := by
      intro h hh
      obtain ⟨k, hk, rfl⟩ := mem_iterate.1 hh
      have hlevel' := (htree.blockTree.tree.iterate (x := hash b) (i := k) ⟨hpresent, hlevel ▸ hlt⟩ (by omega)).2
      omega
    refine (forall₂_and_left _ _).2 ⟨hpos, hbs⟩ |>.imp fun h tbi htbi => ?_
    obtain ⟨hpos, ⟨rfl, rfl⟩ | ⟨-, ⟨hgenesis, -⟩ | ⟨-, hsome⟩⟩⟩ := htbi
    · exact hself
    · rw [hgenesis, ← ht.genesisHash] at hpos
      exact absurd htree.genesisNumber hpos
    · exact hblocks hsome
  obtain ⟨hnumbers, hall⟩ := htree.blocks_iterate hpresent (by omega) hstored
  have hstart : t.level (hash b) - (s.level b.parentHash - s.level a + 1) = s.level a := by omega
  have hlength : s.level b.parentHash - s.level a + 1 = t.lastBlockNumber - s.level a := by omega
  rw [hstart, hlength] at hnumbers
  refine ⟨hheaded, hle', by omega, hbelow, hnumbers, fun tbi htbi => ?_, fun tbi htbi => (hall tbi htbi).1, hblocks⟩
  obtain ⟨-, i, hsum, hhash⟩ := hall tbi htbi
  rw [hhash, BlockChain.canonical, hlast]
  exact congrArg (fun k => t.parentOf^[k] (hash b)) (by omega)

/-- A block is stored, and the head stays. -/
theorem Headed.stored (hs : s.Headed) (ha : s.Accepts b mustBeNew valid) (ht : s.Adds b pd d t) (hfits : s.Fits b pd d)
    (hlast : t.lastBlockHash = s.lastBlockHash) (hnumber : t.lastBlockNumber = s.lastBlockNumber) :
    t.Headed ∧ s.Moves t s.lastBlockNumber [] := by
  have hnode : ∀ y, s.Present y → t.node y = s.node y := fun y hy => hs.tree.node_of_present ha ht hfits hy
  have hlevel : t.level s.lastBlockHash = s.level s.lastBlockHash := (BlockDetails.mk.inj (hnode _ hs.last)).1
  refine ⟨⟨hs.tree.adds ha ht hfits, hs.unread.adds ht (hfits.node ▸ rfl), ?_, ?_, ?_⟩,
    .of_last hlast hnumber hs (fun y hy => ?_) ?_⟩
  · rw [hlast, ht.present]
    exact .inr hs.last
  · rw [hlast, hlevel, hs.number, hnumber]
  · rw [hnumber]
    exact hs.lt
  · exact (BlockDetails.mk.inj (hnode y hy)).2.2.1
  · exact hs.tree.blocks_adds ha ht

/-- The head is set back to a canonical block. -/
theorem Headed.back (hs : s.Headed) (hn : n ≤ s.lastBlockNumber) (hkeeps : s.Keeps t)
    (hlast : t.lastBlockHash = s.canonical n) (hnumber : t.lastBlockNumber = n) : t.Headed ∧ s.Moves t n [] := by
  obtain ⟨hplaced, hlevel⟩ := hs.placed_canonical hn
  have hparent : t.parentOf = s.parentOf := by
    funext x
    exact (BlockDetails.mk.inj (congrFun hkeeps.node x)).2.2.1
  have hcanonical : ∀ i ≤ n, t.canonical i = s.canonical i := by
    intro i hi
    rw [BlockChain.canonical, hlast, hnumber, hparent, iterate_canonical hn hi]
  refine ⟨⟨hkeeps.tree hs.tree, hkeeps.unread hs.unread, ?_, ?_, ?_⟩, hn, hnumber.ge, hcanonical, ?_, nofun, nofun,
    fun hx => hkeeps.blocks ▸ hx⟩
  · rw [hlast, hkeeps.present]
    exact hplaced.1
  · rw [hlast, hnumber, level, hkeeps.detailsOf]
    exact hlevel
  · rw [hnumber]
    exact hn.trans_lt hs.lt
  · rw [hnumber, Nat.sub_self]
    rfl

/-! ### The index by numbers -/

/-- What is kept under a number is the canonical block, and nothing is cached for a number above the head. -/
structure Listed (s : BlockChain H) : Prop where
  db : ∀ n, 0 < n → n ≤ s.lastBlockNumber → s.extraBlockHash.db n = some (s.canonical n)
  cache : ∀ n h, s.extraBlockHash.cache n = some h → 0 < n ∧ n ≤ s.lastBlockNumber ∧ h = s.canonical n

theorem Listed.get (hs : s.Listed) (hpos : 0 < n) (hn : n ≤ s.lastBlockNumber) :
    s.extraBlockHash.get n = some (s.canonical n) := by
  cases hcache : s.extraBlockHash.cache n with
  | none => rw [Cached.get_of_cache_none hcache, hs.db n hpos hn]
  | some h => rw [Cached.get_of_cache hcache, (hs.cache n h hcache).2.2]

/-- The index after a batch of what has become canonical, if nothing else is cached than what is canonical in both chains. -/
theorem Listed.moves (hs : s.Listed) (hm : s.Moves t n bs)
    (hdb : t.extraBlockHash.db = (s.extraBlockHash.puts (bs.map fun tbi => (tbi.number, hash tbi))).db)
    (hcache : ∀ i h, t.extraBlockHash.cache i = some h → 0 < i ∧ i ≤ n ∧ s.extraBlockHash.get i = some h) : t.Listed := by
  have hle := hm.le
  have hle' := hm.le'
  constructor
  case db =>
    intro i hpos hi
    have hbatch : (bs.map fun tbi => (tbi.number, hash tbi)) = (bs.map VerifiedBlockRef.number).map fun k =>
        (k, t.canonical k) := by
      rw [map_map]
      exact map_congr_left fun tbi htbi => by rw [comp_apply, ← hm.hashes tbi htbi]
    rw [hdb, Cached.db_puts, hbatch]
    cases hlast : Cached.lastOf ((bs.map VerifiedBlockRef.number).map fun k => (k, t.canonical k)) i with
    | some h => rw [Option.some_or, (Cached.lastOf_map hlast).2]
    | none =>
      have hnot : ¬ ∃ tbi ∈ bs, tbi.number = i := by
        rw [← mem_map (f := VerifiedBlockRef.number)]
        have hmem := Cached.lastOf_eq_none_iff.1 hlast
        rw [map_map] at hmem
        exact fun hi => hmem (by rw [← map_id (bs.map VerifiedBlockRef.number)] at hi; exact hi)
      rw [hm.mem_iff] at hnot
      rw [Option.none_or, hs.db i hpos (by omega), hm.below i (by omega)]
  case cache =>
    intro i h hi
    obtain ⟨hpos, hin, hget⟩ := hcache i h hi
    rw [hs.get hpos (hin.trans hle), Option.some_inj] at hget
    exact ⟨hpos, hin.trans hle', by rw [← hget, hm.below i hin]⟩

/-- What is cached is canonical in both chains: above the common block it has been evicted. -/
theorem Listed.cache_cleared (hs : s.Listed) {h : H} (hcache : (s.cleared (n + 1)).extraBlockHash.cache i = some h) :
    0 < i ∧ i ≤ n ∧ s.extraBlockHash.get i = some h := by
  simp only [cleared, Cached.evict] at hcache
  split at hcache
  · cases hcache
  · rename_i hkept
    obtain ⟨hpos, hle, -⟩ := hs.cache i h hcache
    rw [decide_eq_true_iff] at hkept
    exact ⟨hpos, by omega, Cached.get_of_cache hcache⟩

theorem Listed.loads (hs : s.Listed) (ht : Loads s t) : t.Listed := by
  have hcanonical : t.canonical = s.canonical := by
    funext i
    rw [canonical, canonical, ht.parentOf]
    rw [ht.rest]
  rw [ht.rest] at hcanonical ⊢
  exact ⟨fun i hpos hi => hcanonical ▸ hs.db i hpos hi, fun i h hi => hcanonical ▸ hs.cache i h hi⟩

/-- A query for the hash of a height that the chain has -/
theorem Listed.query (hs : s.Listed) (hpos : 0 < n) (hn : n ≤ s.lastBlockNumber) :
    Listed { s with extraBlockHash := s.extraBlockHash.query n } := by
  refine ⟨hs.db, fun i h hi => ?_⟩
  by_cases heq : i = n
  · subst heq
    have hget : s.extraBlockHash.get i = some h := Cached.cache_query_self.symm.trans hi
    rw [hs.get hpos hn] at hget
    exact ⟨hpos, hn, (Option.some.inj hget).symm⟩
  · have hne : (s.extraBlockHash.query n).cache i = s.extraBlockHash.cache i := update_of_ne heq _ _
    exact hs.cache i h (hne.symm.trans hi)

theorem Headed.rewind (hs : s.Headed) (hl : s.Listed) (hlt : n < s.lastBlockNumber) :
    (s.rewoundTo n).Headed ∧ s.Moves (s.rewoundTo n) n [] ∧ (s.rewoundTo n).Listed := by
  have hget : (s.cleared (n + 1)).extraBlockHash.get n = s.extraBlockHash.get n := Cached.get_evict_of_not (by simp)
  have hlast : (s.rewoundTo n).lastBlockHash = s.canonical n := by
    change (if n = 0 then s.genesisHash else ((s.cleared (n + 1)).extraBlockHash.get n).getD 0) = _
    split
    · rename_i hzero
      rw [hzero, hs.canonical_zero]
    · rename_i hpos
      rw [hget, hl.get (Nat.pos_of_ne_zero hpos) hlt.le, Option.getD_some]
  obtain ⟨hheaded, hmoves⟩ := hs.back (t := s.rewoundTo n) hlt.le ⟨rfl, rfl, .refl _⟩ hlast rfl
  refine ⟨hheaded, hmoves, hl.moves hmoves ?_ fun i h hi => ?_⟩
  · change (if n = 0 then (s.cleared (n + 1)).extraBlockHash else (s.cleared (n + 1)).extraBlockHash.query n).db =
      s.extraBlockHash.db
    split <;> rfl
  · change
      (if n = 0 then (s.cleared (n + 1)).extraBlockHash else (s.cleared (n + 1)).extraBlockHash.query n).cache i = _ at hi
    split at hi
    · exact hl.cache_cleared hi
    · rename_i hpos
      by_cases hin : i = n
      · rw [hin, Cached.cache_query_self, hget] at hi
        exact ⟨by omega, hin.le, hin ▸ hi⟩
      · have hne : ((s.cleared (n + 1)).extraBlockHash.query n).cache i = (s.cleared (n + 1)).extraBlockHash.cache i :=
          update_of_ne hin _ _
        exact hl.cache_cleared (hne ▸ hi)

end Kmdx.Chain.BlockChain
