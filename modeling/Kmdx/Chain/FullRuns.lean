import Kmdx.Chain.BloomChunks
import Kmdx.Chain.Becoming

/-!
# What an insertion leaves of a full chain

Once it is known which block is the best one, and which route leads there, an insertion writes what it has to and returns.
-/

namespace Kmdx.Chain

open Wp

set_option linter.unusedSectionVars false

variable {H : Type} [DecidableEq H] [BlockSha3 H] [BlockLogs H]

namespace FullChain

variable {s t : FullChain H} {b new : VerifiedBlockRef H}

theorem run_lift {α : Type} {x : M H α} {a : α} {c : BlockChain H} (h : x s.chain = .ok a c) :
    lift x s = .ok a { s with chain := c } := by
  rw [lift, h]

theorem run_lift_bind {α β : Type} {x : M H α} {a : α} {c : BlockChain H} {f : α → FM H β} (h : x s.chain = .ok a c) :
    (lift x >>= f) s = f a { s with chain := c } := by
  rw [run_bind, run_lift h]

/-- With the blooms of the blocks above the common one cleared, if that is not the last one -/
def reverted (s : FullChain H) (last common : H) : FullChain H :=
  if common ≠ last then
    let firstInvalid := ((s.chain.detailsOf common).number + 1) % 2 ^ 32
    { s with
      chain := (s.chain.queried common).cleared firstInvalid
      extraBlocksBlooms := clearBlockBlooms s.extraBlocksBlooms firstInvalid ((s.chain.lastBlockNumber + 1) % 2 ^ 32) }
  else s

theorem run_clearIfReverted (last common : H) : clearIfReverted last common s = .ok () (s.reverted last common) := by
  unfold clearIfReverted reverted
  rw [run_ite]
  split
  · rfl
  · rfl

theorem isBlock_reverted {last common h : H} {tbi : VerifiedBlockRef H} :
    (s.reverted last common).chain.IsBlock new h tbi ↔ s.chain.IsBlock new h tbi := by
  unfold reverted
  split <;> rfl

theorem run_canonize {hs : List H} {bs : List (VerifiedBlockRef H)} (hbs : List.Forall₂ (s.chain.IsBlock new) hs bs) :
    canonize new hs s = .ok (bs.flatMap BlockChain.canonWrites, alteredAll s.extraBlocksBlooms bs)
      { s with extraBlocksBlooms := addBlooms s.extraBlocksBlooms bs } := by
  induction hs generalizing s bs with
  | nil =>
    cases hbs
    rfl
  | cons h hs ih =>
    cases hbs with
    | cons hb hbs =>
      rename_i tbi bs
      unfold canonize
      rw [run_lift_bind (BlockChain.run_newOrBlock hb)]
      have hrest := ih (s := { s with extraBlocksBlooms := addBloom s.extraBlocksBlooms tbi.number (blockBloom tbi) }) hbs
      rw [run_bind, run_modify]
      dsimp only
      rw [run_bind, run_get]
      dsimp only
      rw [run_bind, hrest]
      rfl

/-- The block is stored, and the chunks of the new canonical blocks are. -/
def withSide (s : FullChain H) (b : VerifiedBlockRef H) (parentDetails details : BlockDetails H) : FullChain H :=
  storeLogs b { s with chain := s.chain.stored b parentDetails details }

def withBest (s : FullChain H) (b : VerifiedBlockRef H) (parentDetails details : BlockDetails H)
    (bs : List (VerifiedBlockRef H)) : FullChain H :=
  storeBlooms (alteredAll s.extraBlocksBlooms bs) (storeLogs b { s with
    chain := ((bs.flatMap BlockChain.canonWrites).foldl BlockChain.commit (s.chain.stored b parentDetails details)).withHead b
    extraBlocksBlooms := addBlooms s.extraBlocksBlooms bs })

variable {td : U256}

theorem run_pushed : insertBlockAndExtras b td s =
    (do
      if ← lift (BlockChain.isBest b td s.chain.lastBlockHash) then
        let writes ← reindex b s.chain.lastBlockHash
        lift (modify fun s => { s with blocks := Function.update s.blocks (hash b) (some b) })
        lift (modify fun c =>
          ([ExtrasWrite.details b.parentHash (s.chain.withChild b), .details (hash b) (BlockChain.newDetails b td)] ++
          writes.1).foldl BlockChain.commit c)
        modify fun s => storeBlooms writes.2 (storeLogs b s)
        lift (modify fun s =>
          if s.lastBlockHash = hash b then s
          else { s with lastBlockHash := hash b, lastBlockNumber := b.number % 2 ^ 32 })
      else
        lift (modify fun s => { s with blocks := Function.update s.blocks (hash b) (some b) })
        lift (modify fun c => [ExtrasWrite.details b.parentHash (s.chain.withChild b),
          .details (hash b) (BlockChain.newDetails b td)].foldl BlockChain.commit c)
        modify (storeLogs b) : FM H Unit) { s with chain := s.chain.pushed b } := by
  have hpush : BlockChain.pushChild b.parentHash (hash b) (s.chain.queried b.parentHash) =
      .ok (s.chain.withChild b) (s.chain.pushed b) := by
    obtain ⟨_, _, hrun, rfl, rfl⟩ := exists_ok_of_wp (BlockChain.wp_pushChild (s := s.chain) b)
    exact hrun
  unfold insertBlockAndExtras
  rw [run_bind, run_get]
  dsimp only
  have hdetails : BlockChain.details b.parentHash s.chain =
    .ok (s.chain.detailsOf b.parentHash) (s.chain.queried b.parentHash) := rfl
  rw [run_lift_bind hdetails]
  rw [run_lift_bind (s := { s with chain := s.chain.queried b.parentHash }) hpush]
  rfl

theorem run_side {c : BlockChain H} (hbest : BlockChain.isBest b td s.chain.lastBlockHash (s.chain.pushed b) = .ok false c) :
    insertBlockAndExtras b td s =
      .ok () (({ s with chain := c } : FullChain H).withSide b (s.chain.withChild b) (BlockChain.newDetails b td)) := by
  rw [run_pushed, run_lift_bind (s := { s with chain := s.chain.pushed b }) hbest]
  rfl

theorem run_best {c c' : BlockChain H} {r : List H × H × Nat} {bs : List (VerifiedBlockRef H)}
    (hbest : BlockChain.isBest b td s.chain.lastBlockHash (s.chain.pushed b) = .ok true c)
    (hroute : BlockChain.treeRoute s.chain.lastBlockHash b.parentHash c = .ok r c')
    (hbs : List.Forall₂ (c'.IsBlock b) ((r.1 ++ [hash b]).reverse.takeWhile (· ≠ r.2.1)) bs) :
    insertBlockAndExtras b td s =
      .ok () ((({ s with chain := c' } : FullChain H).reverted s.chain.lastBlockHash r.2.1).withBest b (s.chain.withChild b)
        (BlockChain.newDetails b td) bs) := by
  have hreindex : reindex b s.chain.lastBlockHash { s with chain := c } =
      .ok (bs.flatMap BlockChain.canonWrites,
          alteredAll (({ s with chain := c' } : FullChain H).reverted s.chain.lastBlockHash r.2.1).extraBlocksBlooms bs)
        { ({ s with chain := c' } : FullChain H).reverted s.chain.lastBlockHash r.2.1 with
          extraBlocksBlooms := addBlooms
            (({ s with chain := c' } : FullChain H).reverted s.chain.lastBlockHash r.2.1).extraBlocksBlooms bs } := by
    unfold reindex
    rw [run_lift_bind (s := { s with chain := c }) hroute]
    dsimp only
    rw [run_bind, run_clearIfReverted]
    exact run_canonize (hbs.imp fun _ _ => isBlock_reverted.2)
  rw [run_pushed, run_lift_bind (s := { s with chain := s.chain.pushed b }) hbest, if_pos rfl, run_bind, hreindex]
  dsimp only
  generalize ({ s with chain := c' } : FullChain H).reverted s.chain.lastBlockHash r.2.1 = u
  have hcommit : ∀ c : BlockChain H,
      ([ExtrasWrite.details b.parentHash (s.chain.withChild b), .details (hash b) (BlockChain.newDetails b td)] ++
      bs.flatMap BlockChain.canonWrites).foldl BlockChain.commit c =
        (bs.flatMap BlockChain.canonWrites).foldl BlockChain.commit
        ([ExtrasWrite.details b.parentHash (s.chain.withChild b), .details (hash b) (BlockChain.newDetails b td)].foldl
          BlockChain.commit c) :=
    fun _ => List.foldl_append
  simp only [hcommit]
  rfl

end FullChain

end Kmdx.Chain
