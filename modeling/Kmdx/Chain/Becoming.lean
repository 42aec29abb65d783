import Kmdx.Chain.Garbage
import Kmdx.Chain.Lockstep
import Kmdx.Chain.TreeRoute

/-!
# The blocks that become canonical

They can be told before the insertion (`becoming`): what is read on the way does not change the route to the new block, and
all the blocks on it are there.
-/

namespace Kmdx.Chain.BlockChain

open Wp List

set_option linter.unusedSectionVars false

variable {H : Type} [DecidableEq H] [BlockSha3 H] {s t u : BlockChain H} {b new tbi : VerifiedBlockRef H} {h : H}
  {mustBeNew valid : Bool}

/-! ### Chains with the same route -/

theorem Like.trans (h : s.Like t) (h' : t.Like u) : s.Like u :=
  ⟨h.genesis.trans h'.genesis, h.blocks.trans h'.blocks, h.tieBreakingGas.trans h'.tieBreakingGas, h.node.trans h'.node⟩

theorem like_of_loads (h : Loads s t) : t.Like s := by
  refine ⟨?_, ?_, ?_, (Keeps.of_loads h).node⟩ <;> rw [h.rest]

theorem like_pushed (s : BlockChain H) (b : VerifiedBlockRef H) : (s.pushed b).Like s := ⟨rfl, rfl, rfl, node_pushed⟩

theorem Like.routeTo (h : s.Like t) (hlast : s.lastBlockHash = t.lastBlockHash) : s.routeTo b = t.routeTo b := by
  obtain ⟨r, t', ht⟩ := total_treeRoute t.lastBlockHash b.parentHash t
  obtain ⟨_, s', hs, rfl, -⟩ := both_ok (akin_like.treeRoute _ _ s t h) ht
  rw [BlockChain.routeTo, BlockChain.routeTo, hlast, hs, ht]

theorem Like.becoming (h : s.Like t) (hlast : s.lastBlockHash = t.lastBlockHash) : s.becoming b = t.becoming b := by
  have hnew : s.newOrBlock? b = t.newOrBlock? b := by
    funext x
    rw [newOrBlock?, newOrBlock?, genesisHash, genesisHash, h.genesis, h.blocks]
  rw [BlockChain.becoming, BlockChain.becoming, h.routeTo hlast, hnew]

/-! ### The blocks of the route -/

/-- The blocks below a stored block are stored. -/
theorem Tree.iterate (hs : s.Tree) {x : H} (hx : s.Present x) {k : Nat} (hk : k ≤ (s.detailsOf x).number) :
    s.Present (s.parentOf^[k] x) ∧ (s.detailsOf (s.parentOf^[k] x)).number + k = (s.detailsOf x).number := by
  induction k with
  | zero => exact ⟨hx, rfl⟩
  | succ k ih =>
    obtain ⟨hpresent, hnumber⟩ := ih (Nat.le_of_succ_le hk)
    rw [Function.iterate_succ_apply']
    generalize s.parentOf^[k] x = y at hpresent hnumber ⊢
    have hne : y ≠ s.genesisHash := by
      rintro rfl
      have hzero : (s.detailsOf s.genesisHash).number = 0 := hs.genesisNumber
      omega
    obtain ⟨b, hb⟩ := Option.isSome_iff_exists.1 (hpresent.resolve_left hne)
    obtain ⟨hlevel, -, hparent, -⟩ := BlockDetails.mk.inj (hs.node_eq hb)
    change (s.detailsOf y).number = (s.detailsOf b.parentHash).number + 1 at hlevel
    change s.parentOf y = b.parentHash at hparent
    rw [hparent]
    exact ⟨hs.parent hb, by omega⟩

theorem run_block (hb : h = s.genesisHash ∧ tbi = s.genesis ∨ h ≠ s.genesisHash ∧ s.blocks h = some tbi) :
    block h s = .ok tbi s := by
  unfold block
  rw [run_bind, run_get]
  dsimp only
  rcases hb with ⟨hgenesis, rfl⟩ | ⟨hgenesis, hb⟩
  · rw [if_pos hgenesis]
    rfl
  · rw [if_neg hgenesis, hb]
    rfl

theorem Present.run_block (hh : s.Present h) : ∃ tbi, block h s = .ok tbi s := by
  by_cases hgenesis : h = s.genesisHash
  · exact ⟨s.genesis, BlockChain.run_block (.inl ⟨hgenesis, rfl⟩)⟩
  · obtain ⟨tbi, htbi⟩ := Option.isSome_iff_exists.1 (hh.resolve_left hgenesis)
    exact ⟨tbi, BlockChain.run_block (.inr ⟨hgenesis, htbi⟩)⟩

theorem run_newOrBlock (hb : s.IsBlock new h tbi) :
    newOrBlock new h s = .ok tbi s := by
  unfold newOrBlock
  rcases hb with ⟨hh, rfl⟩ | ⟨hh, hb⟩
  · rw [if_pos hh]
    rfl
  · rw [if_neg hh]
    exact run_block hb

theorem isBlock_of_newOrBlock? (hb : s.newOrBlock? new h = some tbi) : s.IsBlock new h tbi := by
  unfold newOrBlock? at hb
  split at hb
  · rename_i heq
    exact .inl ⟨heq, (Option.some.inj hb).symm⟩
  · rename_i hne
    split at hb
    · rename_i hgenesis
      exact .inr ⟨hne, .inl ⟨hgenesis, (Option.some.inj hb).symm⟩⟩
    · rename_i hgenesis
      exact .inr ⟨hne, .inr ⟨hgenesis, hb⟩⟩

theorem Present.newOrBlock? (hh : s.Present h) : (s.newOrBlock? new h).isSome := by
  unfold BlockChain.newOrBlock?
  split
  · rfl
  · split
    · rfl
    · exact hh.resolve_left ‹_›

theorem forall₂_filterMap {hs : List H} (hfound : ∀ h ∈ hs, (s.newOrBlock? new h).isSome) :
    List.Forall₂ (s.IsBlock new) hs (hs.filterMap (s.newOrBlock? new)) := by
  induction hs with
  | nil => exact .nil
  | cons h hs ih =>
    obtain ⟨tbi, htbi⟩ := Option.isSome_iff_exists.1 (hfound h mem_cons_self)
    rw [filterMap_cons_some htbi]
    exact .cons (isBlock_of_newOrBlock? htbi) (ih fun h' hh' => hfound h' (mem_cons_of_mem _ hh'))

theorem run_isBest {td : U256} {last : H} (hbetter : td > (s.detailsOf last).totalDifficulty) :
    isBest b td last s = .ok true (s.queried last) := by
  have hd : details last s = .ok (s.detailsOf last) (s.queried last) := rfl
  unfold isBest
  rw [run_bind, hd]
  dsimp only
  rw [if_pos hbetter]
  rfl

theorem treeRoute_of_null {x y : H} (h : x = 0 ∨ (s.detailsOf x).isNull = true) :
    ∃ t, treeRoute x y s = .ok ([], 0, 0) t := by
  unfold treeRoute
  by_cases hzero : x = 0 ∨ y = 0
  · rw [if_pos hzero]
    exact ⟨s, rfl⟩
  · rw [if_neg hzero]
    have hd : details x s = .ok (s.detailsOf x) (s.queried x) := rfl
    have hd' : details y (s.queried x) = .ok ((s.queried x).detailsOf y) ((s.queried x).queried y) := rfl
    rw [run_bind, hd]
    dsimp only
    rw [run_bind, hd']
    dsimp only
    rw [if_pos (.inl (h.resolve_left fun hx => hzero (.inl hx)))]
    exact ⟨_, rfl⟩

/-- All blocks from the new one down to the common one are there. -/
theorem Tree.forall₂_becoming (hs : s.Tree) (ha : s.Accepts b mustBeNew valid) : List.Forall₂ (s.IsBlock b)
    (((s.routeTo b).1 ++ [hash b]).reverse.takeWhile (· ≠ (s.routeTo b).2.1)) (s.becoming b) := by
  refine forall₂_filterMap fun h hh => ?_
  have hself : (s.newOrBlock? b (hash b)).isSome := by rw [newOrBlock?, if_pos rfl]; rfl
  obtain ⟨r, t, hrun⟩ := total_treeRoute s.lastBlockHash b.parentHash s
  have hroute : s.routeTo b = r := by rw [routeTo, hrun]
  rw [hroute, reverse_append, reverse_singleton, singleton_append] at hh
  by_cases hnull : s.lastBlockHash = 0 ∨ (s.detailsOf s.lastBlockHash).isNull = true
  · obtain ⟨t', hrun'⟩ := treeRoute_of_null (y := b.parentHash) hnull
    rw [hrun'] at hrun
    cases hrun
    have hmem := takeWhile_sublist _ |>.subset hh
    rw [reverse_nil, mem_singleton] at hmem
    rw [hmem]
    exact hself
  · rw [not_or, Bool.not_eq_true] at hnull
    have hparent : s.Present b.parentHash := present_of_accepts ha
    have hparent0 : b.parentHash ≠ 0 := by
      rcases hparent with heq | hsome
      · rw [heq]
        exact BlockSha3.hash_ne_zero _
      · obtain ⟨b', hb'⟩ := Option.isSome_iff_exists.1 hsome
        rw [← hs.hash_eq hb']
        exact BlockSha3.hash_ne_zero _
    obtain ⟨-, hr⟩ := wp_ok (reads_treeRoute _ _) hrun
    obtain ⟨i, j, hroute⟩ := hr hnull.1 hparent0 hnull.2 ha.notNull
    have hj : j ≤ (s.detailsOf b.parentHash).number := by
      have hlevel := hroute.level
      have hle := hroute.le
      omega
    -- Above the common block, which is the last one of the way down from the head, there is only the way up to the new one.
    have hdown : (List.iterate s.parentOf s.lastBlockHash (i + 1)).reverse =
        r.2.1 :: (List.iterate s.parentOf s.lastBlockHash i).reverse := by
      rw [hroute.common, iterate_add, reverse_append]
      rfl
    rw [hroute.route, reverse_append, reverse_reverse, hdown, ← cons_append, takeWhile_append] at hh
    have hmem : h ∈ hash b :: List.iterate s.parentOf b.parentHash j := by
      split at hh
      · rw [takeWhile_cons_of_neg (by simp), append_nil] at hh
        exact hh
      · exact takeWhile_sublist _ |>.subset hh
    rcases mem_cons.1 hmem with rfl | hmem
    · exact hself
    · obtain ⟨k, hk, rfl⟩ := mem_iterate.1 hmem
      exact (hs.iterate hparent (hk.le.trans hj)).1.newOrBlock?

end Kmdx.Chain.BlockChain
