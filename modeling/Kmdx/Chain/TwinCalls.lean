import Kmdx.Chain.TwinChains

/-!
# The calls of a chain, in lockstep

All calls do the same to twins, and leave twins (`both_body`), as long as none of them leaves something in the caches that a
collection could uncover (`Unseen`).
-/

namespace Kmdx.Chain

open Wp Cached

set_option linter.unusedSectionVars false

variable {H : Type} [DecidableEq H] [BlockSha3 H]

namespace BlockChain

variable {s t : BlockChain H} {b : VerifiedBlockRef H} {mustBeNew valid : Bool} {α β : Type}

/-! ### Insertion on a side chain -/

theorem both_reads {x : M H α} {f g : α → M H β} {R : α → Prop} {Q : β → β → BlockChain H → BlockChain H → Prop}
    {E : Exn → BlockChain H → BlockChain H → Prop} (h : Twin ∅ s t) (hx : Agree (Twin ∅) x x) (hr : Reads x R t)
    (hf : ∀ a s' t', Twin ∅ s' t' → Loads t t' → R a → both (f a) (g a) Q E s' t')
    (hE : ∀ e s' t', Twin ∅ s' t' → Loads t t' → E e s' t') : both (x >>= f) (x >>= g) Q E s t := by
  refine both_bind (both_mono (both_and (hx s t h) hr) ?_ fun e s' t' ⟨htwin, hloads⟩ => hE e s' t' htwin hloads)
  rintro a _ s' t' ⟨⟨rfl, htwin⟩, hloads, hR⟩
  exact hf a s' t' htwin hloads hR

/-- The child is pushed, or it is there, and then what is stored is stored. -/
theorem both_pushNewChild (h : Twin ∅ s t) (htree : t.Tree) (ha : t.Accepts b mustBeNew valid)
    (hchildren : (t.detailsOf (hash b)).children = []) :
    both (do
        let parentDetails ← pushNewChild b.parentHash (hash b) (t.detailsOf b.parentHash)
        modify fun s => { s with blocks := Function.update s.blocks (hash b) (some b) }
        modify fun s => [ExtrasWrite.details b.parentHash parentDetails,
          .details (hash b) (newDetails b (t.newTotalDifficulty b))].foldl commit s : M H Unit)
      (do
        let parentDetails ← pushNewChild b.parentHash (hash b) (t.detailsOf b.parentHash)
        modify fun s => { s with blocks := Function.update s.blocks (hash b) (some b) }
        modify fun s => [ExtrasWrite.details b.parentHash parentDetails,
          .details (hash b) (newDetails b (t.newTotalDifficulty b))].foldl commit s : M H Unit)
      (fun _ _ c d => Twin ∅ c d ∧ d.Tree) (fun _ _ _ => False) (s.queried b.parentHash) (t.queried b.parentHash) := by
  have hclean := fun k => h.details.clean k (Set.notMem_empty k)
  have hpushed := twin_pushed (b := b) h
  have hchild : s.withChild b = t.withChild b := by rw [withChild, withChild, h.detailsOf]
  by_cases hmem : hash b ∈ (t.detailsOf b.parentHash).children
  · have hpresent : (t.extraDetails.get b.parentHash).isSome := (htree.present _).2 (present_of_accepts ha)
    obtain ⟨d, hd⟩ := Option.isSome_iff_exists.1 hpresent
    have hparent : (t.queried b.parentHash).extraDetails.cache b.parentHash = some (t.detailsOf b.parentHash) := by
      rw [queried, cache_query_self, detailsOf, hd]
      rfl
    have hloads := loads_query t b.parentHash
    simp only [pushNewChild, if_pos hmem]
    refine ⟨twin_stored (h.queried b.parentHash) (Set.empty_subset _) hparent ?_, ?_⟩
    · exact htree.cache_hash ha hclean hchildren (hloads.details.cache _)
    · refine htree.adds ha ⟨rfl, rfl, _, ⟨hloads.details.db, hparent, fun k _ => hloads.details.cache k⟩, rfl⟩ ?_
      exact ⟨(htree.fits ha).node, rfl⟩
  · have hpush : ∀ {s : BlockChain H}, pushChild b.parentHash (hash b) (s.queried b.parentHash) =
        .ok (s.withChild b) (s.pushed b) := by
      intro s
      obtain ⟨_, _, hrun, rfl, rfl⟩ := exists_ok_of_wp (wp_pushChild (s := s) b)
      exact hrun
    simp only [pushNewChild, if_neg hmem]
    unfold both
    rw [run_bind, run_bind, hpush, hpush, hchild]
    have hedits := (Cached.Loads.refl (t.pushed b).extraDetails).edits_of_edit
    refine ⟨twin_stored hpushed (Set.Subset.refl _) hedits.self ?_, ?_⟩
    · exact htree.cache_hash ha hclean hchildren (hedits.cache _ (htree.parentHash_ne ha).symm)
    · exact htree.adds ha (adds_of_loads (.refl _)) (htree.fits ha)

theorem both_insert {validReceipts : Bool} (h : Twin ∅ s t) (htree : t.Tree)
    (hchildren : validReceipts = true → t.Accepts b mustBeNew valid → (t.detailsOf (hash b)).children = []) :
    both (insert b mustBeNew validReceipts valid) (insert b mustBeNew validReceipts valid)
      (fun _ _ c d => Twin ∅ c d ∧ d.Tree) (fun _ c d => Twin ∅ c d ∧ d.Tree) s t := by
  have hkept : ∀ {c d : BlockChain H}, Twin ∅ c d → Loads t d → Twin ∅ c d ∧ d.Tree :=
    fun htwin hloads => ⟨htwin, (Keeps.of_loads hloads).tree htree⟩
  unfold insert
  refine both_reads h (agree_checkBlockIsNew b mustBeNew) (reads_checkBlockIsNew b mustBeNew) (fun _ s₁ t₁ h₁ hl₁ hnew => ?_)
    fun _ _ _ => hkept
  refine both_reads h₁ (agree_isKnown _ _) (reads_isKnown _ _) (fun k s₂ t₂ h₂ hl₂ hk => ?_) fun _ _ _ hc hl =>
    hkept hc (hl₁.trans hl)
  have hl₂ := hl₁.trans hl₂
  rw [hl₁.known] at hk
  refine both_ite Iff.rfl (fun _ => ⟨rfl, hkept h₂ hl₂⟩) fun hparent => ?_
  refine both_ite Iff.rfl (fun _ => ⟨rfl, hkept h₂ hl₂⟩) fun hreceipts => ?_
  refine both_reads h₂ (agree_details _) (reads_details _) (fun pd s₃ t₃ h₃ hl₃ hpd => ?_) fun _ _ _ hc hl =>
    hkept hc (hl₂.trans hl)
  have hl₃ := hl₂.trans hl₃
  rw [hl₂.detailsOf] at hpd
  refine both_ite Iff.rfl (fun _ => ⟨rfl, hkept h₃ hl₃⟩) fun hnull => ?_
  refine both_reads h₃ (akin_twin.verifyBlock b) (reads_verifyBlock b) (fun _ s₄ t₄ h₄ hl₄ hverify => ?_)
    fun _ _ _ hc hl => hkept hc (hl₃.trans hl)
  have hl₄ := hl₃.trans hl₄
  obtain ⟨hle, header, hheader, hnumber⟩ := hverify
  refine both_ite Iff.rfl (fun _ => ⟨rfl, hkept h₄ hl₄⟩) fun hvalid => ?_
  have haccepts : t.Accepts b mustBeNew valid :=
    ⟨hnew, by rw [← hk]; simpa using hparent, by rw [← hpd]; simpa using hnull, hle,
      ⟨header, hl₃.parentHeader hheader, hnumber⟩, by simpa using hvalid⟩
  have htree₄ := (hkept h₄ hl₄).2
  have hdetails : (⟨pd.number + 1, pd.totalDifficulty + b.difficulty, b.parentHash, []⟩ : BlockDetails H) =
      newDetails b (t₄.newTotalDifficulty b) := by
    rw [(htree₄.fits (haccepts.loads hl₄)).node, newNode, newTotalDifficulty, node, hl₄.detailsOf, hpd]
  rw [hdetails]
  refine both_bind ?_
  change both _ _ _ _ (s₄.queried b.parentHash) (t₄.queried b.parentHash)
  rw [h₄.details.get_eq]
  refine both_mono (both_pushNewChild h₄ htree₄ (haccepts.loads hl₄) ?_) (fun _ _ _ _ => id) fun _ _ _ => False.elim
  rw [hl₄.detailsOf]
  exact hchildren (by simpa using hreceipts) haccepts

/-! ### Queries -/

theorem wp_numberHash (i : Nat) : wp (numberHash i) (fun _ => t.Keeps) (fun _ => t.Keeps) t := by
  unfold numberHash
  rw [wp_bind, wp_get, wp_ite]
  split
  · exact ⟨rfl, rfl, .refl _⟩
  · exact ⟨rfl, rfl, .refl _⟩

theorem wp_transactionLocation (h : H) : wp (transactionLocation h) (fun _ => t.Keeps) (fun _ => t.Keeps) t := by
  unfold transactionLocation
  rw [wp_bind, wp_get, wp_bind, wp_set, wp_ite]
  split
  · exact ⟨rfl, rfl, .refl _⟩
  · exact ⟨rfl, rfl, .refl _⟩

end BlockChain

/-! ### Full chains -/

variable [BlockLogs H]

namespace FullChain

variable {s t : FullChain H} {b : VerifiedBlockRef H} {mustBeNew valid : Bool} {u v : List (CacheID H → Bool)}
    {dirty tied : Set Nat}
  {α β : Type}

theorem both_lift {x y : M H α} {Q : α → α → BlockChain H → BlockChain H → Prop}
    {E : Exn → BlockChain H → BlockChain H → Prop} (h : both x y Q E s.chain t.chain) :
    both (lift x) (lift y) (fun a b s' t' => ∃ c d, Q a b c d ∧ s' = { s with chain := c } ∧ t' = { t with chain := d })
      (fun e s' t' => ∃ c d, E e c d ∧ s' = { s with chain := c } ∧ t' = { t with chain := d }) s t := by
  unfold both at h
  unfold both lift
  cases hx : x s.chain <;> cases hy : y t.chain <;> rw [hx, hy] at h
  · exact ⟨_, _, h, rfl, rfl⟩
  · exact h.elim
  · exact h.elim
  · exact ⟨h.1, _, _, h.2, rfl, rfl⟩

theorem Abreast.withChain {c d : BlockChain H} (h : Abreast u v dirty tied s t)
    (hc : BlockChain.Twin ∅ c d) (htree : d.Tree) :
    Abreast u v dirty tied { s with chain := c } { t with chain := d } :=
  ⟨h.toTwin.withChain hc, htree, ⟨h.logged.receipts, h.logged.logBlooms⟩⟩

/-- Some details have been read. -/
structure Loads (s t : FullChain H) : Prop where
  chain : s.chain.Loads t.chain
  rest : t = { s with chain := t.chain }

theorem Loads.trans {w : FullChain H} (h : Loads s t) (h' : Loads t w) : Loads s w := by
  refine ⟨h.chain.trans h'.chain, ?_⟩
  rw [h'.rest, h.rest]

theorem Loads.pinned_iff (h : Loads s t) (id : Nat) : t.Pinned id ↔ s.Pinned id := by
  have hnoted : t.Noted id ↔ s.Noted id := by rw [Noted, Noted, h.rest]
  have hblooms : t.extraBlocksBlooms = s.extraBlocksBlooms := by rw [h.rest]
  exact ⟨fun hpinned => ⟨mt hnoted.2 hpinned.noted, hblooms ▸ hpinned.loaded⟩,
    fun hpinned => ⟨mt hnoted.1 hpinned.noted, hblooms ▸ hpinned.loaded⟩⟩

/-- A call that only reads, and what follows -/
theorem both_reads {x : M H α} {f : α → FM H β} {R : α → Prop} {Q : β → β → FullChain H → FullChain H → Prop}
    {E : Exn → FullChain H → FullChain H → Prop} (h : Abreast u v dirty tied s t) (hx : Agree (BlockChain.Twin ∅) x x)
    (hr : BlockChain.Reads x R t.chain)
    (hf : ∀ a s' t', Abreast u v dirty tied s' t' → Loads t t' → R a → both (f a) (f a) Q E s' t')
    (hE : ∀ e s' t', Abreast u v dirty tied s' t' → E e s' t') : both (lift x >>= f) (lift x >>= f) Q E s t := by
  refine both_bind (both_mono (both_lift (both_and (hx _ _ h.chain) hr)) ?_ ?_)
  · rintro a _ s' t' ⟨c, d, ⟨⟨rfl, htwin⟩, hloads, hR⟩, rfl, rfl⟩
    exact hf a _ _ (h.withChain htwin ((BlockChain.Keeps.of_loads hloads).tree h.tree)) ⟨hloads, rfl⟩ hR
  · rintro e s' t' ⟨c, d, ⟨htwin, hloads⟩, rfl, rfl⟩
    exact hE e _ _ (h.withChain htwin ((BlockChain.Keeps.of_loads hloads).tree h.tree))

/-! ### Import -/

theorem Extends.loads (h : s.Extends b) (ht : Loads s t) : t.Extends b := by
  have hlike := BlockChain.like_of_loads ht.chain
  have hlast : t.chain.lastBlockHash = s.chain.lastBlockHash := by rw [ht.chain.rest]
  have hnumber : t.chain.lastBlockNumber = s.chain.lastBlockNumber := by rw [ht.chain.rest]
  have haddresses : t.chain.extraTransactionAddress = s.chain.extraTransactionAddress := by rw [ht.chain.rest]
  have hreverts : t.chain.Reverts b ↔ s.chain.Reverts b := by
    rw [BlockChain.Reverts, BlockChain.Reverts, hlike.routeTo hlast, hlast]
  constructor
  case addresses =>
    intro hnot tx ta ta' hcache hlastOf
    refine h.addresses (mt hreverts.2 hnot) tx ta ta' (haddresses ▸ hcache) ?_
    rw [← hlike.becoming hlast]
    exact hlastOf
  case blooms =>
    intro hrev id hid hwritten
    rw [hlike.becoming hlast] at hwritten
    rw [hlike.routeTo hlast, ht.chain.detailsOf, hnumber] at hid
    exact (ht.pinned_iff id).2 (h.blooms (hreverts.1 hrev) id hid hwritten)

theorem both_import (h : Abreast u v dirty tied s t) (hunseen : t.Unseen (.import_ b mustBeNew valid))
    (hpinned : ∀ id, t.Pinned id → id ∈ dirty) :
    both (import_ b mustBeNew valid) (import_ b mustBeNew valid) (fun _ _ => Abreast u v dirty tied)
      (fun _ => Abreast u v dirty tied) s t := by
  unfold import_
  refine both_reads h (BlockChain.agree_checkBlockIsNew b mustBeNew) (BlockChain.reads_checkBlockIsNew b mustBeNew)
    (fun _ s₁ t₁ h₁ hl₁ hnew => ?_) fun _ _ _ => id
  refine both_reads h₁ (BlockChain.agree_isKnown _ _) (BlockChain.reads_isKnown _ _)
    (fun k s₂ t₂ h₂ hl₂ hk => ?_) fun _ _ _ => id
  have hl₂ := hl₁.trans hl₂
  rw [hl₁.chain.known] at hk
  refine both_ite Iff.rfl (fun _ => ⟨rfl, h₂⟩) fun hparent => ?_
  refine both_reads h₂ (BlockChain.agree_details _) (BlockChain.reads_details _)
    (fun pd s₃ t₃ h₃ hl₃ hpd => ?_) fun _ _ _ => id
  have hl₃ := hl₂.trans hl₃
  rw [hl₂.chain.detailsOf] at hpd
  refine both_ite Iff.rfl (fun _ => ⟨rfl, h₃⟩) fun hnull => ?_
  refine both_reads h₃ (BlockChain.akin_twin.verifyBlock b) (BlockChain.reads_verifyBlock b)
    (fun _ s₄ t₄ h₄ hl₄ hverify => ?_) fun _ _ _ => id
  have hl₄ := hl₃.trans hl₄
  obtain ⟨hle, header, hheader, hnumber⟩ := hverify
  refine both_ite Iff.rfl (fun _ => ⟨rfl, h₄⟩) fun hvalid => ?_
  have haccepts : t.chain.Accepts b mustBeNew valid :=
    ⟨hnew, by rw [← hk]; simpa using hparent, by rw [← hpd]; simpa using hnull, hle,
      ⟨header, hl₃.chain.parentHeader hheader, hnumber⟩, by simpa using hvalid⟩
  obtain ⟨hchildren, best, c, hrun, hextends⟩ := hunseen haccepts
  have htd : pd.totalDifficulty + b.difficulty = t₄.chain.newTotalDifficulty b := by
    rw [BlockChain.newTotalDifficulty, hl₄.chain.detailsOf, hpd]
  have htd' : t.chain.newTotalDifficulty b = t₄.chain.newTotalDifficulty b := by
    rw [BlockChain.newTotalDifficulty, BlockChain.newTotalDifficulty, hl₄.chain.detailsOf]
  have hlast : t₄.chain.lastBlockHash = t.chain.lastBlockHash := by rw [hl₄.chain.rest]
  obtain ⟨best, c', hrun', rfl, -⟩ := both_ok
      (BlockChain.akin_like.isBest b _ _ _ _ (BlockChain.like_of_loads hl₄.chain)) hrun
  rw [htd', ← hlast] at hrun'
  obtain ⟨s', t', hs, ht, hdone⟩ := abreast_insertBlockAndExtras h₄ (haccepts.loads hl₄.chain)
    (by rw [hl₄.chain.detailsOf]; exact hchildren) ⟨best, c', hrun', fun hbest => (hextends hbest).loads hl₄⟩
    fun id hid => hpinned id ((hl₄.pinned_iff id).1 hid)
  rw [htd]
  refine both_bind ?_
  unfold both
  rw [hs, ht]
  refine hdone.withChain ?_ ?_
  · refine ⟨hdone.chain.details, hdone.chain.addresses, ?_⟩
    rw [hdone.chain.rest]
  · exact hdone.tree.congr rfl rfl rfl fun _ => Iff.rfl

/-! ### The other calls -/

section

variable (h : Abreast u v dirty tied s t)
include h

/-- A call that keeps the details of blocks -/
theorem both_keeps {x : M H α} (hx : Agree (BlockChain.Twin ∅) x x)
    (hk : wp x (fun _ => t.chain.Keeps) (fun _ => t.chain.Keeps) t.chain) :
    both (lift x) (lift x) (fun a a' s' t' => a = a' ∧ Abreast u v dirty tied s' t')
      (fun _ => Abreast u v dirty tied) s t := by
  refine both_mono (both_lift (both_and (hx _ _ h.chain) hk)) ?_ ?_
  · rintro a a' s' t' ⟨c, d, ⟨⟨heq, htwin⟩, hkeeps⟩, rfl, rfl⟩
    exact ⟨heq, h.withChain htwin (hkeeps.tree h.tree)⟩
  · rintro e s' t' ⟨c, d, ⟨htwin, hkeeps⟩, rfl, rfl⟩
    exact h.withChain htwin (hkeeps.tree h.tree)

theorem both_insert {validReceipts : Bool} (hunseen : t.Unseen (.insert b mustBeNew validReceipts valid)) :
    both (insert b mustBeNew validReceipts valid) (insert b mustBeNew validReceipts valid) (fun _ _ => Abreast u v dirty tied)
      (fun _ => Abreast u v dirty tied) s t := by
  unfold insert
  refine both_bind (both_mono (both_lift (BlockChain.both_insert h.chain h.tree hunseen)) ?_ ?_)
  · rintro _ _ s' t' ⟨c, d, ⟨htwin, htree⟩, rfl, rfl⟩
    have hdone := h.withChain htwin htree
    exact ⟨twin_storeLogs hdone.toTwin hdone.logged b, htree, hdone.logged.storeLogs b⟩
  · rintro e s' t' ⟨c, d, ⟨htwin, htree⟩, rfl, rfl⟩
    exact h.withChain htwin htree

theorem both_rewind {newHead : Nat} (hunseen : t.Unseen (.rewind newHead))
    (hpinned : ∀ id, t.Pinned id → id ∈ dirty) :
    both (rewind newHead) (rewind newHead) (fun _ _ => Abreast u v dirty tied) (fun _ => Abreast u v dirty tied) s t := by
  have hlast : s.chain.lastBlockNumber = t.chain.lastBlockNumber := by rw [h.chain.rest]
  unfold rewind
  rw [both_get, hlast]
  refine both_ite Iff.rfl (fun _ => h) fun hlt => ?_
  have hclears := hunseen (not_le.1 hlt)
  let t₁ : FullChain H := { t with
    chain := t.chain.cleared (newHead + 1)
    extraBlocksBlooms := clearBlockBlooms t.extraBlocksBlooms (newHead + 1) ((t.chain.lastBlockNumber + 1) % 2 ^ 32) }
  let s₁ : FullChain H := { s with
    chain := s.chain.cleared (newHead + 1)
    extraBlocksBlooms := clearBlockBlooms s.extraBlocksBlooms (newHead + 1) ((s.chain.lastBlockNumber + 1) % 2 ^ 32) }
  have h₁ : Abreast u v dirty tied s₁ t₁ := by
    have hblooms := twins_clearBlockBlooms h.blooms (newHead + 1) ((t.chain.lastBlockNumber + 1) % 2 ^ 32)
    refine ⟨⟨BlockChain.twin_cleared h.chain _, h.receipts, h.logBlooms, ?_, h.left, h.right⟩, ?_, h.logged.congr rfl rfl⟩
    · change Twins dirty tied (clearBlockBlooms s.extraBlocksBlooms (newHead + 1) ((s.chain.lastBlockNumber + 1) % 2 ^ 32)) _
      rw [hlast]
      refine hblooms.weaken (fun id hid => hblooms.clean id fun hmem => hid ?_) Set.subset_union_right h.blooms.le
      exact hmem.elim (fun hcleared => hpinned id (hclears id hcleared List.not_mem_nil)) fun hdirty => hdirty
    · exact h.tree.congr rfl rfl rfl fun _ => Iff.rfl
  refine both_bind (x := clearCachesDuringChainReversion (newHead + 1))
    (y := clearCachesDuringChainReversion (newHead + 1)) ?_
  change both _ _ _ _ s₁ t₁
  refine both_bind (both_mono (both_keeps h₁ (BlockChain.agree_numberHash newHead) (BlockChain.wp_numberHash newHead)) ?_
    fun _ _ _ => id)
  rintro a _ s' t' ⟨rfl, hdone⟩
  refine hdone.withChain ⟨hdone.chain.details, hdone.chain.addresses, ?_⟩ (hdone.tree.congr rfl rfl rfl fun _ => Iff.rfl)
  rw [hdone.chain.rest]

theorem both_opened :
    both opened opened (fun _ _ => Abreast u v dirty tied) (fun _ => Abreast u v dirty tied) s t := by
  have hgenesis : s.chain.genesisHash = t.chain.genesisHash := by
    rw [BlockChain.genesisHash, BlockChain.genesisHash, BlockChain.akin_twin.genesis h.chain]
  have hlast : s.chain.lastBlockHash = t.chain.lastBlockHash := by rw [h.chain.rest]
  unfold opened
  rw [both_get, hgenesis, hlast]
  refine both_reads h (BlockChain.agree_details _) (BlockChain.reads_details _) (fun d s₁ t₁ h₁ hl₁ hd => ?_) fun _ _ _ => id
  have hnumber : d.number = 0 := by
    rw [hd]
    exact h.tree.genesisNumber
  have hnull : ¬ d.isNull = true := by
    rw [BlockDetails.isNull, hnumber]
    decide
  rw [if_neg hnull]
  refine both_reads h₁ (BlockChain.akin_twin.numberOf _) (R := fun _ => True) ?_ (fun n s₂ t₂ h₂ hl₂ _ => ?_) fun _ _ _ => id
  · exact ⟨BlockChain.loads_query _ _, trivial⟩
  · refine h₂.withChain ⟨h₂.chain.details, h₂.chain.addresses, ?_⟩ (h₂.tree.congr rfl rfl rfl fun _ => Iff.rfl)
    rw [h₂.chain.rest]

theorem both_body {e : Call H} (hunseen : t.Unseen e) (hpinned : ∀ id, t.Pinned id → id ∈ dirty) :
    both (body e) (body e) (fun _ _ => Abreast u v dirty tied) (fun _ => Abreast u v dirty tied) s t := by
  cases e with
  | import_ b mustBeNew valid => exact both_import h hunseen hpinned
  | insert b mustBeNew validReceipts valid => exact both_insert h hunseen
  | rewind newHead => exact both_rewind h hunseen hpinned
  | reopen => exact both_opened h
  | details x =>
    refine both_bind (both_mono (both_keeps h (BlockChain.agree_details x) ?_) (fun _ _ _ _ h' => h'.2) fun _ _ _ => id)
    exact wp_mono (BlockChain.reads_details x) (fun _ _ hl => .of_loads hl.1) fun _ _ => .of_loads
  | receipts x =>
    exact ⟨⟨h.chain, h.receipts.query x, h.logBlooms, h.blooms, h.left, h.right⟩, h.tree, h.logged.congr rfl rfl⟩
  | logBlooms x =>
    exact ⟨⟨h.chain, h.receipts, h.logBlooms.query x, h.blooms, h.left, h.right⟩, h.tree, h.logged.congr rfl rfl⟩
  | numberHash i =>
    exact both_bind (both_mono (both_keeps h (BlockChain.agree_numberHash i) (BlockChain.wp_numberHash i))
      (fun _ _ _ _ h' => h'.2) fun _ _ _ => id)
  | transactionLocation x =>
    exact both_bind (both_mono (both_keeps h (BlockChain.agree_transactionLocation x) (BlockChain.wp_transactionLocation x))
      (fun _ _ _ _ h' => h'.2) fun _ _ _ => id)
  | blocksBlooms id =>
    exact ⟨⟨h.chain, h.receipts, h.logBlooms, h.blooms.query id, h.left, h.right⟩, h.tree, h.logged.congr rfl rfl⟩

end

end FullChain

end Kmdx.Chain
