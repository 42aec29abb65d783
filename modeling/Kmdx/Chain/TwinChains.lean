import Kmdx.Chain.FullRuns

/-!
# Full chains in lockstep

`s` has lost some of what `t` has cached. An insertion does the same to both, and in the end what it has written to the caches
of `t` is in the database, but for chunks of the bloom index that are cleared and not written (`Extends`).
-/

namespace Kmdx.Chain

open Wp Cached

set_option linter.unusedSectionVars false

variable {H : Type} [DecidableEq H] [BlockSha3 H] {s t : BlockChain H} {b : VerifiedBlockRef H} {d pd : BlockDetails H}
  {mustBeNew valid : Bool} {pending : Set H}

namespace BlockChain

/-! ### What is written -/

theorem twin_pushed (h : Twin ∅ s t) : Twin {b.parentHash} (s.pushed b) (t.pushed b) := by
  have hchild : s.withChild b = t.withChild b := by rw [withChild, withChild, h.detailsOf]
  refine ⟨?_, h.addresses, ?_⟩
  · have hedit := (h.details.query b.parentHash).edit b.parentHash (t.withChild b)
    rw [insert_empty_eq] at hedit
    rw [pushed, pushed, hchild]
    exact hedit
  · rw [pushed, h.rest]
    rfl

/-- What is pending is written. -/
theorem twin_stored (h : Twin pending s t) (hpending : pending ⊆ {b.parentHash})
    (hparent : t.extraDetails.cache b.parentHash = some pd)
    (hself : t.extraDetails.cache (hash b) = none ∨ t.extraDetails.cache (hash b) = some d) :
    Twin ∅ (s.stored b pd d) (t.stored b pd d) := by
  have hblocks : s.blocks = t.blocks := akin_twin.blocks h
  refine ⟨?_, h.addresses, ?_⟩
  · have hput := (h.details.put (.inr hparent)).put (k := hash b) (v := d) hself
    exact hput.weaken (fun k _ => hput.clean k fun hk => hk.1.2 (hpending hk.1.1)) (Set.empty_subset _) (Set.Subset.refl _)
  · rw [stored, hblocks, h.rest]
    rfl

theorem twin_cleared (h : Twin pending s t) (firstInvalid : Nat) :
    Twin pending (s.cleared firstInvalid) (t.cleared firstInvalid) := by
  refine ⟨h.details, h.addresses.evict _, ?_⟩
  rw [h.rest]
  rfl

theorem foldl_canonWrites (s : BlockChain H) (bs : List (VerifiedBlockRef H)) : (bs.flatMap canonWrites).foldl commit s =
    { s with
      extraTransactionAddress := s.extraTransactionAddress.puts (addresses bs)
      extraBlockHash := s.extraBlockHash.puts (bs.map fun tbi => (tbi.number, hash tbi)) } := by
  induction bs generalizing s with
  | nil => rfl
  | cons tbi bs ih =>
    have hone : ∀ (s : BlockChain H) (l : List (H × TransactionAddress H)),
        (l.map fun w => ExtrasWrite.transactionAddress w.1 w.2).foldl commit s =
          { s with extraTransactionAddress := s.extraTransactionAddress.puts l } := by
      intro s l
      induction l generalizing s with
      | nil => rfl
      | cons w l ih => exact ih _
    have hwrites : canonWrites tbi =
        ((tbi.transactions.zipIdx.map fun ti => (ti.1, (⟨hash tbi, ti.2⟩ : TransactionAddress H))).map
        fun w => ExtrasWrite.transactionAddress w.1 w.2) ++ [.blockHash tbi.number (hash tbi)] := by
      rw [canonWrites, List.map_map]
      rfl
    rw [List.flatMap_cons, List.foldl_append, hwrites, List.foldl_append, hone, ih]
    simp only [addresses, List.flatMap_cons, puts, List.foldl_append, List.map_cons, List.foldl_cons, List.foldl_nil, commit]

theorem twin_canonWrites (bs : List (VerifiedBlockRef H)) (h : Twin pending s t)
    (hbs : ∀ tx ta, lastOf (addresses bs) tx = some ta →
      t.extraTransactionAddress.cache tx = none ∨ t.extraTransactionAddress.cache tx = some ta) :
    Twin pending ((bs.flatMap canonWrites).foldl commit s) ((bs.flatMap canonWrites).foldl commit t) := by
  have hhash : s.extraBlockHash = t.extraBlockHash := by rw [h.rest]
  rw [foldl_canonWrites, foldl_canonWrites]
  refine ⟨h.details, ?_, ?_⟩
  · have hputs := h.addresses.puts _ hbs
    rw [Set.empty_sdiff] at hputs
    exact hputs
  · rw [h.rest]

theorem twin_withHead (h : Twin pending s t) : Twin pending (s.withHead b) (t.withHead b) := by
  have hlast : s.lastBlockHash = t.lastBlockHash := by rw [h.rest]
  unfold withHead
  rw [hlast]
  split
  · exact h
  · refine ⟨h.details, h.addresses, ?_⟩
    rw [h.rest]

/-! ### What is cached before -/

/-- The details of the new block, if they are there, are what they are stored as. -/
theorem Tree.cache_hash {c : Cached H (BlockDetails H)} (hs : t.Tree) (ha : t.Accepts b mustBeNew valid)
    (hclean : ∀ k, t.extraDetails.cache k = none ∨ t.extraDetails.cache k = t.extraDetails.db k)
    (hchildren : (t.detailsOf (hash b)).children = [])
    (hc : c.cache (hash b) = t.extraDetails.cache (hash b) ∨
      t.extraDetails.cache (hash b) = none ∧ c.cache (hash b) = t.extraDetails.db (hash b)) :
    c.cache (hash b) = none ∨ c.cache (hash b) = some (newDetails b (t.newTotalDifficulty b)) := by
  have hdb : c.cache (hash b) = none ∨ c.cache (hash b) = t.extraDetails.db (hash b) := by
    rcases hc with heq | ⟨-, heq⟩
    · rw [heq]
      exact hclean _
    · exact .inr heq
  rcases hdb with hnone | heq
  · exact .inl hnone
  · cases hd : t.extraDetails.db (hash b) with
    | none => exact .inl (heq.trans hd)
    | some d =>
      have hget : t.extraDetails.get (hash b) = some d := by
        rw [Cached.get, hd]
        rcases hclean (hash b) with hnone | heq
        · rw [hnone, Option.none_or]
        · rw [heq, hd, Option.or_self]
      have hpresent : t.Present (hash b) := (hs.present _).1 (by rw [hget]; rfl)
      have hnode := hs.node_eq (hs.blocks_of_present ha hpresent)
      rw [← (hs.fits ha).node, node, hchildren.symm] at hnode
      have hdetails : t.detailsOf (hash b) = d := by rw [detailsOf, hget]; rfl
      rw [heq, hd, ← hnode, hdetails]
      exact .inr rfl

end BlockChain

/-! ### Full chains -/

variable [BlockLogs H]

namespace FullChain

variable {s t : FullChain H} {u v : List (CacheID H → Bool)} {dirty tied : Set Nat} {td : U256}

/-- `s` has lost some of what `t` has cached. What has been noted as used is as it was. -/
structure Twin (u v : List (CacheID H → Bool)) (pending : Set H) (dirty tied : Set Nat) (s t : FullChain H) : Prop where
  chain : BlockChain.Twin pending s.chain t.chain
  receipts : Twins ∅ ∅ s.extraReceipts t.extraReceipts
  logBlooms : Twins ∅ ∅ s.extraLogBlooms t.extraLogBlooms
  blooms : Twins dirty tied s.extraBlocksBlooms t.extraBlocksBlooms
  left : s.cacheUsage = u
  right : t.cacheUsage = v

/-- What is stored with a block is what follows from it. -/
structure Logged (t : FullChain H) : Prop where
  receipts : ∀ h v, t.extraReceipts.db h = some v → ∃ b, hash b = h ∧ v = (BlockLogs.receipts b).map Prod.fst
  logBlooms : ∀ h v, t.extraLogBlooms.db h = some v → ∃ b, hash b = h ∧ v = (BlockLogs.receipts b).map Prod.snd

theorem Twin.withChain {pending' : Set H} {c d : BlockChain H} (h : Twin u v pending dirty tied s t)
    (hc : BlockChain.Twin pending' c d) : Twin u v pending' dirty tied { s with chain := c } { t with chain := d } :=
  ⟨hc, h.receipts, h.logBlooms, h.blooms, h.left, h.right⟩

theorem twin_storeLogs (h : Twin u v pending dirty tied s t) (hlogged : Logged t) (b : VerifiedBlockRef H) :
    Twin u v pending dirty tied (storeLogs b s) (storeLogs b t) := by
  refine ⟨h.chain, ?_, ?_, h.blooms, h.left, h.right⟩
  · have hput := h.receipts.put (k := hash b) (v := (BlockLogs.receipts b).map Prod.fst) ?_
    · rwa [Set.empty_sdiff] at hput
    rcases h.receipts.clean (hash b) (Set.notMem_empty _) with hnone | heq
    · exact .inl hnone
    · cases hdb : t.extraReceipts.db (hash b) with
      | none => exact .inl (heq.trans hdb)
      | some w =>
        obtain ⟨b', hb', rfl⟩ := hlogged.receipts _ _ hdb
        rw [heq, hdb, BlockSha3.hash_injective hb']
        exact .inr rfl
  · have hput := h.logBlooms.put (k := hash b) (v := (BlockLogs.receipts b).map Prod.snd) ?_
    · rwa [Set.empty_sdiff] at hput
    rcases h.logBlooms.clean (hash b) (Set.notMem_empty _) with hnone | heq
    · exact .inl hnone
    · cases hdb : t.extraLogBlooms.db (hash b) with
      | none => exact .inl (heq.trans hdb)
      | some w =>
        obtain ⟨b', hb', rfl⟩ := hlogged.logBlooms _ _ hdb
        rw [heq, hdb, BlockSha3.hash_injective hb']
        exact .inr rfl

theorem Logged.storeLogs (h : Logged t) (b : VerifiedBlockRef H) : Logged (storeLogs b t) := by
  constructor
  case receipts =>
    intro x w hw
    by_cases hx : x = hash b
    · subst hx
      have hself : (FullChain.storeLogs b t).extraReceipts.db (hash b) = some ((BlockLogs.receipts b).map Prod.fst) :=
        Function.update_self ..
      rw [hself] at hw
      exact ⟨b, rfl, (Option.some.inj hw).symm⟩
    · have hne : (FullChain.storeLogs b t).extraReceipts.db x = t.extraReceipts.db x := Function.update_of_ne hx _ _
      exact h.receipts x w (hne ▸ hw)
  case logBlooms =>
    intro x w hw
    by_cases hx : x = hash b
    · subst hx
      have hself : (FullChain.storeLogs b t).extraLogBlooms.db (hash b) = some ((BlockLogs.receipts b).map Prod.snd) :=
        Function.update_self ..
      rw [hself] at hw
      exact ⟨b, rfl, (Option.some.inj hw).symm⟩
    · have hne : (FullChain.storeLogs b t).extraLogBlooms.db x = t.extraLogBlooms.db x := Function.update_of_ne hx _ _
      exact h.logBlooms x w (hne ▸ hw)

theorem Logged.congr (h : Logged t) (hreceipts : s.extraReceipts.db = t.extraReceipts.db)
    (hblooms : s.extraLogBlooms.db = t.extraLogBlooms.db) : Logged s :=
  ⟨fun x w hw => h.receipts x w (hreceipts ▸ hw), fun x w hw => h.logBlooms x w (hblooms ▸ hw)⟩

theorem twin_side (h : Twin u v {b.parentHash} dirty tied s t) (hlogged : Logged t)
    (hparent : t.chain.extraDetails.cache b.parentHash = some pd)
    (hself : t.chain.extraDetails.cache (hash b) = none ∨ t.chain.extraDetails.cache (hash b) = some d) :
    Twin u v ∅ dirty tied (s.withSide b pd d) (t.withSide b pd d) :=
  twin_storeLogs (h.withChain (BlockChain.twin_stored h.chain (Set.Subset.refl _) hparent hself))
    ⟨hlogged.receipts, hlogged.logBlooms⟩ b

/-- Clearing the blooms of dead blocks changes chunks in the cache only. -/
theorem twin_reverted (h : Twin u v pending dirty tied s t) (last common : H) :
    ∃ cleared : Set Nat, (common = last → cleared = ∅) ∧
      (common ≠ last → cleared = {id | id ∈ clearedChunks (((t.chain.detailsOf common).number + 1) % 2 ^ 32)
        ((t.chain.lastBlockNumber + 1) % 2 ^ 32)}) ∧
      Twin u v pending (cleared ∪ dirty) (cleared ∪ tied) (s.reverted last common) (t.reverted last common) := by
  by_cases hcommon : common = last
  · refine ⟨∅, fun _ => rfl, fun hne => absurd hcommon hne, ?_⟩
    rw [Set.empty_union, Set.empty_union, reverted, reverted, if_neg (not_not.2 hcommon), if_neg (not_not.2 hcommon)]
    exact h
  · refine ⟨_, fun heq => absurd heq hcommon, fun _ => rfl, ?_⟩
    have hlast : s.chain.lastBlockNumber = t.chain.lastBlockNumber := by rw [h.chain.rest]
    rw [reverted, reverted, if_pos hcommon, if_pos hcommon, h.chain.detailsOf, hlast]
    refine ⟨BlockChain.twin_cleared (h.chain.queried common) _, h.receipts, h.logBlooms, ?_, h.left, h.right⟩
    exact twins_clearBlockBlooms h.blooms _ _

theorem twin_best (bs : List (VerifiedBlockRef H)) (h : Twin u v {b.parentHash} dirty tied s t) (hlogged : Logged t)
    (hparent : t.chain.extraDetails.cache b.parentHash = some pd)
    (hself : t.chain.extraDetails.cache (hash b) = none ∨ t.chain.extraDetails.cache (hash b) = some d)
    (hbs : ∀ tx ta, lastOf (BlockChain.addresses bs) tx = some ta →
      t.chain.extraTransactionAddress.cache tx = none ∨ t.chain.extraTransactionAddress.cache tx = some ta) :
    Twin u v ∅ (dirty \ {id | id ∈ bloomChunks bs}) tied (s.withBest b pd d bs) (t.withBest b pd d bs) := by
  have hchain := BlockChain.twin_withHead (b := b)
    (BlockChain.twin_canonWrites bs (BlockChain.twin_stored h.chain (Set.Subset.refl _) hparent hself) hbs)
  obtain ⟨hblooms, haltered⟩ := twins_addBlooms h.blooms bs
  have hlogs := twin_storeLogs (b := b) (⟨hchain, h.receipts, h.logBlooms, hblooms, h.left, h.right⟩ :
    Twin u v ∅ _ _ { s with chain := _, extraBlocksBlooms := addBlooms s.extraBlocksBlooms bs }
      { t with chain := _, extraBlocksBlooms := addBlooms t.extraBlocksBlooms bs }) ⟨hlogged.receipts, hlogged.logBlooms⟩
  unfold withBest
  rw [haltered]
  refine ⟨hlogs.chain, hlogs.receipts, hlogs.logBlooms, ?_, hlogs.left, hlogs.right⟩
  have hput := hblooms.puts (alteredAll t.extraBlocksBlooms bs) fun id blooms hlast => .inr (cache_of_lastOf hlast)
  have hkeys : {id | id ∈ (alteredAll t.extraBlocksBlooms bs).map Prod.fst} = {id | id ∈ bloomChunks bs} :=
    Set.ext fun _ => mem_alteredAll
  rw [hkeys] at hput
  refine hput.weaken (fun id hid => ?_) Set.subset_union_right fun id hid => h.blooms.le hid.1
  by_cases hmem : id ∈ bloomChunks bs
  · exact hput.clean id fun hid' => hid'.2 hmem
  · exact hput.clean id fun hid' => hid ⟨hid'.1.resolve_left hmem, hmem⟩

/-! ### Insertion -/

/-- Twins, of which nothing is pending, and the second holds a tree. -/
structure Abreast (u v : List (CacheID H → Bool)) (dirty tied : Set Nat) (s t : FullChain H) : Prop
    extends Twin u v ∅ dirty tied s t where
  tree : t.chain.Tree
  logged : Logged t

theorem loads_reverted (s : FullChain H) (last common : H) :
    s.chain.extraDetails.Loads (s.reverted last common).chain.extraDetails := by
  unfold reverted
  split
  · exact s.chain.extraDetails.loads_query common
  · exact .refl _

theorem reverted_frame (s : FullChain H) (last common : H) :
    (s.reverted last common).chain.genesis = s.chain.genesis ∧ (s.reverted last common).chain.blocks = s.chain.blocks ∧
      (s.reverted last common).extraReceipts = s.extraReceipts ∧ (s.reverted last common).extraLogBlooms =
        s.extraLogBlooms := by
  unfold reverted
  split <;> exact ⟨rfl, rfl, rfl, rfl⟩

theorem adds_best {c : FullChain H} {bs : List (VerifiedBlockRef H)} (hgenesis : c.chain.genesis = t.chain.genesis)
    (hblocks : c.chain.blocks = t.chain.blocks) (hedits : t.chain.extraDetails.Edits c.chain.extraDetails b.parentHash pd) :
    t.chain.Adds b pd d (c.withBest b pd d bs).chain := by
  have hstored : t.chain.Adds b pd d (c.chain.stored b pd d) := by
    refine ⟨hgenesis, ?_, _, hedits, rfl⟩
    rw [← hblocks]
    rfl
  have hall := hstored.of_indexed (BlockChain.indexed_canonWrites bs)
  change t.chain.Adds b pd d
    (((bs.flatMap BlockChain.canonWrites).foldl BlockChain.commit (c.chain.stored b pd d)).withHead b)
  rw [BlockChain.withHead_eq]
  exact ⟨hall.genesis, hall.blocks, hall.details⟩

theorem abreast_insertBlockAndExtras (h : Abreast u v dirty tied s t) (ha : t.chain.Accepts b mustBeNew valid)
    (hchildren : (t.chain.detailsOf (hash b)).children = [])
    (hbest : ∃ best c, BlockChain.isBest b (t.chain.newTotalDifficulty b) t.chain.lastBlockHash t.chain = .ok best c ∧
      (best = true → t.Extends b)) (hpinned : ∀ id, t.Pinned id → id ∈ dirty) :
    ∃ s' t', insertBlockAndExtras b (t.chain.newTotalDifficulty b) s = .ok () s' ∧
      insertBlockAndExtras b (t.chain.newTotalDifficulty b) t = .ok () t' ∧ Abreast u v dirty tied s' t' := by
  obtain ⟨best, c, hrun, hextends⟩ := hbest
  have hlast : s.chain.lastBlockHash = t.chain.lastBlockHash := by rw [h.chain.rest]
  have hchild : s.chain.withChild b = t.chain.withChild b := by
      rw [BlockChain.withChild, BlockChain.withChild, h.chain.detailsOf]
  have hclean := fun k => h.chain.details.clean k (Set.notMem_empty k)
  have hpushed := BlockChain.twin_pushed (b := b) h.chain
  obtain ⟨_, t₂, ht₂, rfl, hlike₂⟩ :=
    both_ok (BlockChain.akin_like.isBest b _ _ _ _ (BlockChain.like_pushed t.chain b)) hrun
  obtain ⟨best, s₂, hs₂, rfl, htwin₂⟩ := both_ok (BlockChain.akin_twin.isBest b _ _ _ _ hpushed) ht₂
  obtain ⟨hload₂, -⟩ := wp_ok (BlockChain.reads_isBest b (t.chain.newTotalDifficulty b) (s := t.chain.pushed b)) ht₂
  rw [← hlast] at hs₂
  cases best with
  | false =>
    refine ⟨_, _, run_side hs₂, run_side ht₂, ?_⟩
    rw [hchild]
    refine ⟨?_, ?_, ?_⟩
    · exact twin_side (h.withChain htwin₂) ⟨h.logged.receipts, h.logged.logBlooms⟩ hload₂.details.edits_of_edit.self
        (h.tree.cache_hash ha hclean hchildren (hload₂.details.edits_of_edit.cache _ (h.tree.parentHash_ne ha).symm))
    · exact h.tree.adds ha (BlockChain.adds_of_loads hload₂) (h.tree.fits ha)
    · exact (h.logged.storeLogs b).congr rfl rfl
  | true =>
    have hextends := hextends rfl
    obtain ⟨r, t₃, ht₃⟩ := BlockChain.total_treeRoute t.chain.lastBlockHash b.parentHash t₂
    obtain ⟨r, s₃, hs₃, rfl, htwin₃⟩ := both_ok (BlockChain.akin_twin.treeRoute _ _ _ _ htwin₂) ht₃
    obtain ⟨hload₃, -⟩ := wp_ok (BlockChain.reads_treeRoute _ _) ht₃
    have hload := hload₂.trans hload₃
    have hlike₃ := (BlockChain.like_of_loads hload).trans (BlockChain.like_pushed t.chain b)
    have hroute : t.chain.routeTo b = r := by
      have hlast₂ : t₂.lastBlockHash = t.chain.lastBlockHash := by rw [hload₂.rest]; rfl
      have hlike := (BlockChain.like_of_loads hload₂).trans (BlockChain.like_pushed t.chain b)
      rw [← hlike.routeTo hlast₂, BlockChain.routeTo, hlast₂, ht₃]
    have hbs := h.tree.forall₂_becoming ha
    rw [hroute] at hbs
    have hbs₃ := hbs.imp fun h' tbi (htbi : t.chain.IsBlock b h' tbi) =>
        show t₃.IsBlock b h' tbi by rw [hload.rest]; exact htbi
    have hbs₃' := hbs₃.imp fun h' tbi (htbi : t₃.IsBlock b h' tbi) => show s₃.IsBlock b h' tbi by rw [htwin₃.rest]; exact htbi
    rw [← hlast] at hs₃
    refine ⟨_, _, run_best hs₂ hs₃ hbs₃', run_best ht₂ ht₃ hbs₃, ?_⟩
    rw [hchild, hlast]
    obtain ⟨cleared, hsame, hdiffer, htwin⟩ := twin_reverted (h.withChain htwin₃) t.chain.lastBlockHash r.2.1
    obtain ⟨hgenesis, hblocks, hreceipts, hlogBlooms⟩ := reverted_frame { t with chain := t₃ } t.chain.lastBlockHash r.2.1
    replace hgenesis : _ = t.chain.genesis := hgenesis.trans hlike₃.genesis
    replace hblocks : _ = t.chain.blocks := hblocks.trans hlike₃.blocks
    have hlogged : Logged (({ t with chain := t₃ } : FullChain H).reverted t.chain.lastBlockHash r.2.1) :=
      h.logged.congr (congrArg Cached.db hreceipts) (congrArg Cached.db hlogBlooms)
    have hnumber : (t₃.detailsOf r.2.1).number = (t.chain.detailsOf r.2.1).number :=
      (BlockDetails.mk.inj (congrFun hlike₃.node r.2.1)).1
    have hlastNumber : t₃.lastBlockNumber = t.chain.lastBlockNumber := by rw [hload.rest]; rfl
    have hedits := (hload.details.trans (loads_reverted { t with chain := t₃ } t.chain.lastBlockHash r.2.1)).edits_of_edit
    have hbest := twin_best (b := b) (t.chain.becoming b) htwin ?_ hedits.self
      (h.tree.cache_hash ha hclean hchildren (hedits.cache _ (h.tree.parentHash_ne ha).symm)) ?_
    · refine ⟨⟨hbest.chain, hbest.receipts, hbest.logBlooms, ?_, hbest.left, hbest.right⟩, ?_, ?_⟩
      · refine hbest.blooms.weaken (fun id hid => ?_) Set.subset_union_right h.blooms.le
        by_cases hcleared : id ∈ cleared ∧ id ∉ bloomChunks (t.chain.becoming b)
        · exfalso
          by_cases hcommon : r.2.1 = t.chain.lastBlockHash
          · rw [hsame hcommon] at hcleared
            exact hcleared.1
          · have hmem := hdiffer hcommon ▸ hcleared.1
            refine hid (hpinned id (hextends.blooms ?_ id ?_ hcleared.2))
            · rw [BlockChain.Reverts, hroute]
              exact hcommon
            · rw [hroute, ← hnumber, ← hlastNumber]
              exact hmem
        · exact hbest.blooms.clean id fun hmem => hcleared ⟨hmem.1.resolve_right hid, hmem.2⟩
      · exact h.tree.adds ha (adds_best hgenesis hblocks hedits) (h.tree.fits ha)
      · exact (hlogged.storeLogs b).congr rfl rfl
    · exact hlogged
    · intro tx ta hta
      by_cases hcommon : r.2.1 = t.chain.lastBlockHash
      · rw [reverted, if_neg (not_not.2 hcommon)]
        have haddresses : t₃.extraTransactionAddress = t.chain.extraTransactionAddress := by rw [hload.rest]; rfl
        change t₃.extraTransactionAddress.cache tx = none ∨ t₃.extraTransactionAddress.cache tx = some ta
        rw [haddresses]
        cases hcache : t.chain.extraTransactionAddress.cache tx with
        | none => exact .inl rfl
        | some ta' =>
          have hextends := hextends.addresses (by rw [BlockChain.Reverts, hroute]; exact not_not.2 hcommon) tx ta'
              ta hcache hta
          rw [hextends]
          exact .inr rfl
      · rw [reverted, if_pos hcommon]
        exact .inl rfl

end FullChain

end Kmdx.Chain
