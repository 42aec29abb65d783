import Kmdx.Chain.BloomIndex
import Kmdx.Chain.Canonical
import Kmdx.Chain.TwinCalls

/-!
# How the calls turn the canonical chain

A call cuts the canonical chain back to some height and puts blocks on top of that, or none (`Turns`): so does `rewind`, an
insertion of a new head, and any other call, which cuts nothing. The index by numbers and that of blooms go with it.
-/

namespace Kmdx.Chain

open Wp Cached

set_option linter.unusedSectionVars false

variable {H : Type} [DecidableEq H] [BlockSha3 H]

namespace BlockChain

variable {s t u : BlockChain H} {b : VerifiedBlockRef H} {bs : List (VerifiedBlockRef H)} {n : Nat}

theorem total_isBest (b : VerifiedBlockRef H) (td : U256) (hlast : s.Present s.lastBlockHash) :
    ∃ best t, isBest b td s.lastBlockHash s = .ok best t := by
  have hd : details s.lastBlockHash s = .ok (s.detailsOf s.lastBlockHash) (s.queried s.lastBlockHash) := rfl
  unfold isBest
  rw [run_bind, hd]
  dsimp only
  rw [run_ite]
  split
  · exact ⟨_, _, rfl⟩
  · rw [run_bind, run_get]
    dsimp only
    rw [run_ite]
    split
    · obtain ⟨last, hblock⟩ := Present.run_block (s := s.queried s.lastBlockHash) hlast
      rw [run_bind, hblock]
      exact ⟨_, _, rfl⟩
    · exact ⟨_, _, rfl⟩

theorem lastBlockNumber_withHead (hsame : s.lastBlockHash = hash b → s.lastBlockNumber = b.number) (hlt : b.number < 2 ^ 32) :
    (s.withHead b).lastBlockNumber = b.number := by
  unfold withHead
  split
  · rename_i heq
    exact hsame heq
  · exact Nat.mod_eq_of_lt hlt

/-- The same head of the same blocks -/
theorem Headed.congr (hs : s.Headed) (hkeeps : s.Keeps t) (hlast : t.lastBlockHash = s.lastBlockHash)
    (hnumber : t.lastBlockNumber = s.lastBlockNumber) : t.Headed :=
  (hs.back (le_refl _) hkeeps (hlast.trans (canonical_last s).symm) hnumber).1

theorem Listed.stays (hs : s.Listed) (hm : s.Moves t s.lastBlockNumber []) (h : t.extraBlockHash = s.extraBlockHash) :
    t.Listed := by
  refine hs.moves hm (congrArg Cached.db h) fun i x hi => ?_
  rw [h] at hi
  obtain ⟨hpos, hle, -⟩ := hs.cache i x hi
  exact ⟨hpos, hle, Cached.get_of_cache hi⟩

end BlockChain

variable [BlockLogs H]

namespace FullChain

variable {s t u : FullChain H} {b : VerifiedBlockRef H} {bs : List (VerifiedBlockRef H)} {n : Nat} {mustBeNew valid : Bool}
  {α β : Type}

/-- The index of blooms, with those above the height `n` cleared, if that is not the head's -/
def cutBlooms (s : FullChain H) (n : Nat) : Cached Nat BlocksBlooms :=
  if n = s.chain.lastBlockNumber then s.extraBlocksBlooms
  else clearBlockBlooms s.extraBlocksBlooms (n + 1) (s.chain.lastBlockNumber + 1)

/-- From `s` to `t` the chain has been cut back to `n`, and `bs` have become canonical. -/
structure Turns (s t : FullChain H) (n : Nat) (bs : List (VerifiedBlockRef H)) : Prop where
  headed : t.chain.Headed
  listed : t.chain.Listed
  moves : s.chain.Moves t.chain n bs
  blooms : ∀ id, bloomsAt t.extraBlocksBlooms id = bloomsAt (addBlooms (s.cutBlooms n) bs) id

/-- The chain stays as it is. -/
theorem Turns.stays (hheaded : t.chain.Headed) (hlisted : t.chain.Listed)
    (hm : s.chain.Moves t.chain s.chain.lastBlockNumber [])
    (hblooms : ∀ id, bloomsAt t.extraBlocksBlooms id = bloomsAt s.extraBlocksBlooms id) :
    s.Turns t s.chain.lastBlockNumber [] := by
  refine ⟨hheaded, hlisted, hm, fun id => ?_⟩
  rw [hblooms, cutBlooms, if_pos rfl]
  rfl

theorem moves_of_keeps (hs : s.chain.Headed) (hkeeps : s.chain.Keeps t.chain)
    (hlast : t.chain.lastBlockHash = s.chain.lastBlockHash)
    (hnumber : t.chain.lastBlockNumber = s.chain.lastBlockNumber) : s.chain.Moves t.chain s.chain.lastBlockNumber [] :=
  (hs.back (le_refl _) hkeeps (hlast.trans (BlockChain.canonical_last _).symm) hnumber).2

theorem Loads.turns (h : Loads s t) (hs : s.chain.Headed) (hl : s.chain.Listed) : s.Turns t s.chain.lastBlockNumber [] := by
  have hkeeps := BlockChain.Keeps.of_loads h.chain
  have hlast : t.chain.lastBlockHash = s.chain.lastBlockHash := by rw [h.chain.rest]
  have hnumber : t.chain.lastBlockNumber = s.chain.lastBlockNumber := by rw [h.chain.rest]
  have hblooms : t.extraBlocksBlooms = s.extraBlocksBlooms := by rw [h.rest]
  exact .stays (hs.congr hkeeps hlast hnumber) (hl.loads h.chain) (moves_of_keeps hs hkeeps hlast hnumber)
    fun id => by rw [hblooms]

/-- What is loaded before does not matter. -/
theorem Turns.of_loads (h : u.Turns t n bs) (hu : Loads s u) : s.Turns t n bs := by
  have hblooms : u.extraBlocksBlooms = s.extraBlocksBlooms := by rw [hu.rest]
  have hnumber : u.chain.lastBlockNumber = s.chain.lastBlockNumber := by rw [hu.chain.rest]
  have hblocks : u.chain.blocks = s.chain.blocks := by rw [hu.chain.rest]
  have hcanonical : u.chain.canonical = s.chain.canonical := by
    funext i
    rw [BlockChain.canonical, BlockChain.canonical, hu.chain.parentOf]
    rw [hu.chain.rest]
  have hcut : u.cutBlooms n = s.cutBlooms n := by rw [cutBlooms, cutBlooms, hnumber, hblooms]
  obtain ⟨hle, hle', hbelow, hnumbers, hhashes, hstored, hsub⟩ := h.moves
  refine ⟨h.headed, h.listed, ⟨hnumber ▸ hle, hle', ?_, hnumbers, hhashes, hstored, fun hx => hsub (hblocks ▸ hx)⟩,
    hcut ▸ h.blooms⟩
  rw [← hcanonical]
  exact hbelow

/-! ### A new head -/

theorem turns_side (hs : s.chain.Headed) (hl : s.chain.Listed) (ha : s.chain.Accepts b mustBeNew valid) {c : BlockChain H}
    (hc : BlockChain.Loads (s.chain.pushed b) c) :
    s.Turns (({ s with chain := c } : FullChain H).withSide b (s.chain.withChild b)
      (BlockChain.newDetails b (s.chain.newTotalDifficulty b))) s.chain.lastBlockNumber [] ∧
      s.chain.Adds b (s.chain.withChild b) (BlockChain.newDetails b (s.chain.newTotalDifficulty b))
        (({ s with chain := c } : FullChain H).withSide b (s.chain.withChild b)
          (BlockChain.newDetails b (s.chain.newTotalDifficulty b))).chain := by
  let t := ({ s with chain := c } : FullChain H).withSide b (s.chain.withChild b)
    (BlockChain.newDetails b (s.chain.newTotalDifficulty b))
  have hadds : s.chain.Adds b (s.chain.withChild b) (BlockChain.newDetails b (s.chain.newTotalDifficulty b)) t.chain :=
    BlockChain.adds_of_loads hc
  have hlast : t.chain.lastBlockHash = s.chain.lastBlockHash := by
    change c.lastBlockHash = _
    rw [hc.rest]
    rfl
  have hnumber : t.chain.lastBlockNumber = s.chain.lastBlockNumber := by
    change c.lastBlockNumber = _
    rw [hc.rest]
    rfl
  have hhash : t.chain.extraBlockHash = s.chain.extraBlockHash := by
    change c.extraBlockHash = _
    rw [hc.rest]
    rfl
  obtain ⟨hheaded, hmoves⟩ := hs.stored ha hadds (hs.tree.fits ha) hlast hnumber
  exact ⟨.stays hheaded (hl.stays hmoves hhash) hmoves fun _ => rfl, hadds⟩

/-- What is left of the index when the chain is cut back to the common block -/
theorem reverted_index (hs : s.chain.Headed) {c : BlockChain H} (hc : c.Like s.chain)
    (hnumber : c.lastBlockNumber = s.chain.lastBlockNumber)
    (hhash : c.extraBlockHash = s.chain.extraBlockHash) {a : H} (hle : s.chain.level a ≤ s.chain.lastBlockNumber)
    (ha : s.chain.canonical (s.chain.level a) = a) :
    (({ s with chain := c } : FullChain H).reverted s.chain.lastBlockHash a).extraBlocksBlooms =
      s.cutBlooms (s.chain.level a) ∧
      ((({ s with chain := c } : FullChain H).reverted s.chain.lastBlockHash a).chain.extraBlockHash =
        s.chain.extraBlockHash ∧
          s.chain.level a = s.chain.lastBlockNumber ∨
        (({ s with chain := c } : FullChain H).reverted s.chain.lastBlockHash a).chain.extraBlockHash =
          (s.chain.cleared (s.chain.level a + 1)).extraBlockHash) := by
  have hlt := hs.lt
  have hlevel : (c.detailsOf a).number = s.chain.level a := congrFun hc.level a
  have hfirst : (s.chain.level a + 1) % 2 ^ 32 = s.chain.level a + 1 := Nat.mod_eq_of_lt
      (by unfold invalidNumber at hlt; omega)
  have hend : (s.chain.lastBlockNumber + 1) % 2 ^ 32 = s.chain.lastBlockNumber + 1 :=
    Nat.mod_eq_of_lt (by unfold invalidNumber at hlt; omega)
  unfold reverted cutBlooms
  by_cases hcommon : a = s.chain.lastBlockHash
  · have hsame : s.chain.level a = s.chain.lastBlockNumber := by rw [hcommon, hs.number]
    rw [if_neg (not_not.2 hcommon), if_pos hsame]
    exact ⟨rfl, .inl ⟨hhash, hsame⟩⟩
  · have hne : s.chain.level a ≠ s.chain.lastBlockNumber := by
      intro heq
      rw [heq, BlockChain.canonical_last] at ha
      exact hcommon ha.symm
    rw [if_pos hcommon, if_neg hne]
    dsimp only
    rw [hlevel, hfirst, hnumber, hend]
    refine ⟨rfl, .inr ?_⟩
    change c.extraBlockHash.evict (fun i => s.chain.level a + 1 ≤ i ∧ i < c.lastBlockNumber + 1) =
      s.chain.extraBlockHash.evict fun i => s.chain.level a + 1 ≤ i ∧ i < s.chain.lastBlockNumber + 1
    rw [hhash, hnumber]

theorem turns_best (hs : s.chain.Headed) (hl : s.chain.Listed) (ha : s.chain.Accepts b mustBeNew valid)
    (hlt : b.number < invalidNumber) {c : BlockChain H} {a : H} (hc : BlockChain.Loads (s.chain.pushed b) c)
    (hlca : Ancestry.IsLca s.chain.parentOf s.chain.level s.chain.lastBlockHash b.parentHash a)
    (hbs : List.Forall₂ (s.chain.IsBlock b) (hash b :: Ancestry.path s.chain.parentOf s.chain.level b.parentHash a) bs) :
    s.Turns ((({ s with chain := c } : FullChain H).reverted s.chain.lastBlockHash a).withBest b (s.chain.withChild b)
      (BlockChain.newDetails b (s.chain.newTotalDifficulty b)) bs) (s.chain.level a) bs ∧
      s.chain.Adds b (s.chain.withChild b) (BlockChain.newDetails b (s.chain.newTotalDifficulty b))
        ((({ s with chain := c } : FullChain H).reverted s.chain.lastBlockHash a).withBest b (s.chain.withChild b)
          (BlockChain.newDetails b (s.chain.newTotalDifficulty b)) bs).chain := by
  have hlike := (BlockChain.like_of_loads hc).trans (BlockChain.like_pushed s.chain b)
  have hlast : c.lastBlockHash = s.chain.lastBlockHash := by rw [hc.rest]; rfl
  have hnumber : c.lastBlockNumber = s.chain.lastBlockNumber := by rw [hc.rest]; rfl
  have hhash : c.extraBlockHash = s.chain.extraBlockHash := by rw [hc.rest]; rfl
  obtain ⟨hle, hcanonical⟩ := hs.canonical_of_ancestor hlca.left
  obtain ⟨hblooms, hhashes⟩ := reverted_index hs hlike hnumber hhash hle hcanonical
  obtain ⟨hgenesis, hblocks, -, -⟩ := reverted_frame { s with chain := c } s.chain.lastBlockHash a
  have hhead : (({ s with chain := c } : FullChain H).reverted s.chain.lastBlockHash a).chain.lastBlockHash =
      c.lastBlockHash ∧
      (({ s with chain := c } : FullChain H).reverted s.chain.lastBlockHash a).chain.lastBlockNumber = c.lastBlockNumber := by
    unfold reverted
    split <;> exact ⟨rfl, rfl⟩
  have hedits := (hc.details.trans (loads_reverted { s with chain := c } s.chain.lastBlockHash a)).edits_of_edit
  generalize ({ s with chain := c } : FullChain H).reverted s.chain.lastBlockHash a = u at *
  have hadds : s.chain.Adds b (s.chain.withChild b) (BlockChain.newDetails b (s.chain.newTotalDifficulty b)) (u.withBest b
      (s.chain.withChild b) (BlockChain.newDetails b (s.chain.newTotalDifficulty b)) bs).chain :=
    adds_best (hgenesis.trans hlike.genesis) (hblocks.trans hlike.blocks) hedits
  have hwrites := BlockChain.foldl_canonWrites (u.chain.stored b (s.chain.withChild b)
    (BlockChain.newDetails b (s.chain.newTotalDifficulty b))) bs
  have hchain : (u.withBest b (s.chain.withChild b) (BlockChain.newDetails b (s.chain.newTotalDifficulty b)) bs).chain =
    ((bs.flatMap BlockChain.canonWrites).foldl BlockChain.commit (u.chain.stored b (s.chain.withChild b)
      (BlockChain.newDetails b (s.chain.newTotalDifficulty b)))).withHead b := rfl
  rw [hwrites] at hchain
  have hindex : (u.withBest b (s.chain.withChild b) (BlockChain.newDetails b (s.chain.newTotalDifficulty b))
      bs).chain.extraBlockHash = u.chain.extraBlockHash.puts (bs.map fun tbi => (tbi.number, hash tbi)) := by
    rw [hchain, BlockChain.withHead_eq]
    rfl
  obtain ⟨hheaded, hmoves⟩ := hs.moves ha hadds (hs.tree.fits ha) (by rw [hchain, BlockChain.lastBlockHash_withHead])
    (by
      rw [hchain]
      refine BlockChain.lastBlockNumber_withHead (fun hsame => ?_) (hlt.trans (by decide))
      have hsame : s.chain.lastBlockHash = hash b := hlast.symm.trans (hhead.1.symm.trans hsame)
      have hlevel : s.chain.level (hash b) = b.number := hs.tree.number (hs.tree.blocks_of_present ha (hsame ▸ hs.last))
      exact (hhead.2.trans hnumber).trans (by rw [← hs.number, hsame, hlevel])) hlt hlca hbs
  refine ⟨⟨hheaded, hl.moves hmoves ?_ fun i x hi => ?_, hmoves, fun id => ?_⟩, hadds⟩
  · rw [hindex]
    rcases hhashes with ⟨heq, -⟩ | heq
    · rw [heq]
    · rw [heq]
      funext i
      rw [db_puts, db_puts]
      rfl
  · rw [hindex, cache_puts] at hi
    rcases hhashes with ⟨heq, hsame⟩ | heq
    · rw [heq] at hi
      obtain ⟨hpos, hi', -⟩ := hl.cache i x hi
      exact ⟨hpos, hsame ▸ hi', Cached.get_of_cache hi⟩
    · rw [heq] at hi
      exact hl.cache_cleared hi
  · rw [← hblooms]
    exact bloomsAt_puts_alteredAll u.extraBlocksBlooms bs id

/-- Nothing is thrown, as the head is there. -/
theorem turns_insertBlockAndExtras (hs : s.chain.Headed) (hl : s.chain.Listed) (ha : s.chain.Accepts b mustBeNew valid)
    (hlt : b.number < invalidNumber) :
    ∃ t n bs, insertBlockAndExtras b (s.chain.newTotalDifficulty b) s = .ok () t ∧ s.Turns t n bs ∧
      s.chain.Adds b (s.chain.withChild b) (BlockChain.newDetails b (s.chain.newTotalDifficulty b)) t.chain := by
  obtain ⟨best, c, hbest⟩ := BlockChain.total_isBest (s := s.chain.pushed b) b (s.chain.newTotalDifficulty b) hs.last
  obtain ⟨hload, -⟩ := wp_ok (BlockChain.reads_isBest b (s.chain.newTotalDifficulty b) (s := s.chain.pushed b)) hbest
  cases best with
  | false => exact ⟨_, _, _, run_side hbest, turns_side hs hl ha hload⟩
  | true =>
    obtain ⟨r, c', hroute⟩ := BlockChain.total_treeRoute s.chain.lastBlockHash b.parentHash c
    obtain ⟨hload', -⟩ := wp_ok (BlockChain.reads_treeRoute _ _) hroute
    have hlike := (BlockChain.like_of_loads hload).trans (BlockChain.like_pushed s.chain b)
    have hnumber : b.number = s.chain.level b.parentHash + 1 := hs.tree.number_of_accepts ha
    have hparent : s.chain.Placed b.parentHash := ⟨BlockChain.present_of_accepts ha, by omega⟩
    obtain ⟨hlca, hr⟩ := BlockChain.route_of_run (hs.tree.blockTree.like hlike) hs.placed hparent hroute
    rw [hlike.parentOf, hlike.level] at hlca hr
    have hlast : c.lastBlockHash = s.chain.lastBlockHash := by rw [hload.rest]; rfl
    have hrouteTo : s.chain.routeTo b = r := by
      rw [← hlike.routeTo hlast, BlockChain.routeTo, hlast, hroute]
    have hbs := hs.tree.forall₂_becoming ha
    rw [hrouteTo] at hbs
    have hbs' := hbs.imp fun x tbi (htbi : s.chain.IsBlock b x tbi) => show c'.IsBlock b x tbi by
      rw [(hload.trans hload').rest]
      exact htbi
    rw [BlockChain.takeWhile_route hs.tree ha hparent hlca.right hr] at hbs
    exact ⟨_, _, _, run_best hbest hroute hbs', turns_best hs hl ha hlt (hload.trans hload') hlca hbs⟩

/-! ### The calls -/

theorem wp_lift {x : M H α} {Q : α → FullChain H → Prop} {E : Exn → FullChain H → Prop}
    (h : wp x (fun a c => Q a { s with chain := c }) (fun e c => E e { s with chain := c }) s.chain) : wp (lift x) Q E s := by
  unfold wp at h
  unfold wp lift
  cases hx : x s.chain <;> rw [hx] at h <;> exact h

/-- A call that only reads, and what follows -/
theorem wp_reads {x : M H α} {f : α → FM H β} {R : α → Prop} {Q : β → FullChain H → Prop} {E : Exn → FullChain H → Prop}
    (hr : BlockChain.Reads x R s.chain) (hf : ∀ a t, Loads s t → R a → wp (f a) Q E t) (hE : ∀ e t, Loads s t → E e t) :
    wp (lift x >>= f) Q E s := by
  rw [wp_bind]
  exact wp_lift (wp_mono hr (fun a c hc => hf a _ ⟨hc.1, rfl⟩ hc.2) fun e c hc => hE e _ ⟨hc, rfl⟩)

/-- An import that is not refused comes to the insertion. -/
theorem wp_import_of {Q : FullChain H → Prop} (hne : b.number ≠ invalidNumber) (hload : ∀ {t}, Loads s t → Q t)
    (hinsert : ∀ {u : FullChain H}, Loads s u → u.chain.Accepts b mustBeNew valid → b.number < invalidNumber →
      ∃ t, insertBlockAndExtras b (u.chain.newTotalDifficulty b) u = .ok () t ∧
        Q { t with chain := { t.chain with imported := hash b :: t.chain.imported } }) :
    wp (import_ b mustBeNew valid) (fun _ => Q) (fun _ => Q) s := by
  unfold import_
  refine wp_reads (BlockChain.reads_checkBlockIsNew b mustBeNew) (fun _ t₁ hl₁ hnew => ?_) fun _ _ => hload
  refine wp_reads (BlockChain.reads_isKnown _ _) (fun k t₂ hl₂ hk => ?_) fun _ _ ht => hload (hl₁.trans ht)
  have hl₂ := hl₁.trans hl₂
  rw [hl₁.chain.known] at hk
  rw [wp_ite]
  split
  · exact hload hl₂
  rename_i hparent
  refine wp_reads (BlockChain.reads_details _) (fun pd t₃ hl₃ hpd => ?_) fun _ _ ht => hload (hl₂.trans ht)
  have hl₃ := hl₂.trans hl₃
  rw [hl₂.chain.detailsOf] at hpd
  rw [wp_ite]
  split
  · exact hload hl₃
  rename_i hnull
  refine wp_reads (BlockChain.reads_verifyBlock b) (fun _ t₄ hl₄ hverify => ?_) fun _ _ ht => hload (hl₃.trans ht)
  have hl₄ := hl₃.trans hl₄
  obtain ⟨hle, header, hheader, hnumber⟩ := hverify
  rw [wp_ite]
  split
  · exact hload hl₄
  rename_i hvalid
  have haccepts : s.chain.Accepts b mustBeNew valid :=
    ⟨hnew, by rw [← hk]; simpa using hparent, by rw [← hpd]; simpa using hnull, hle,
      ⟨header, hl₃.chain.parentHeader hheader, hnumber⟩, by simpa using hvalid⟩
  have htd : pd.totalDifficulty + b.difficulty = t₄.chain.newTotalDifficulty b := by
    rw [BlockChain.newTotalDifficulty, hl₄.chain.detailsOf, hpd]
  obtain ⟨t, hrun, ht⟩ := hinsert hl₄ (haccepts.loads hl₄.chain) (Nat.lt_of_le_of_ne hle hne)
  rw [htd, wp_bind]
  exact wp_of_eq_ok hrun ht

theorem wp_import (hs : s.chain.Headed) (hl : s.chain.Listed) (hne : b.number ≠ invalidNumber) :
    wp (import_ b mustBeNew valid) (fun _ t => ∃ n bs, s.Turns t n bs) (fun _ t => ∃ n bs, s.Turns t n bs) s := by
  refine wp_import_of hne (fun ht => ⟨_, _, ht.turns hs hl⟩) fun hu ha hlt => ?_
  have hturns := hu.turns hs hl
  obtain ⟨t, n, bs, hrun, ht, -⟩ := turns_insertBlockAndExtras hturns.headed hturns.listed ha hlt
  have ht := ht.of_loads hu
  refine ⟨t, hrun, n, bs, ht.headed.congr ⟨rfl, rfl, .refl _⟩ rfl rfl, ⟨ht.listed.db, ht.listed.cache⟩, ?_, ht.blooms⟩
  exact ⟨ht.moves.le, ht.moves.le', ht.moves.below, ht.moves.numbers, ht.moves.hashes, ht.moves.stored, ht.moves.blocks⟩

theorem wp_insert {validReceipts : Bool} (hs : s.chain.Headed) (hl : s.chain.Listed) :
    wp (insert b mustBeNew validReceipts valid) (fun _ t => ∃ n bs, s.Turns t n bs)
      (fun _ t => ∃ n bs, s.Turns t n bs) s := by
  unfold insert
  rw [wp_bind]
  refine wp_lift (wp_mono (BlockChain.wp_insert b mustBeNew validReceipts valid) ?_ fun _ c hc =>
    ⟨_, _, Loads.turns ⟨hc, rfl⟩ hs hl⟩)
  rintro _ c ⟨ha, hinserts⟩
  obtain ⟨pd, hadds, hfits, -, hrest⟩ := hinserts.stores hs.unread
  have hhash : c.extraBlockHash = s.chain.extraBlockHash := by rw [hrest]
  obtain ⟨hheaded, hmoves⟩ := hs.stored ha hadds hfits (by rw [hrest]) (by rw [hrest])
  exact ⟨_, _, .stays (t := storeLogs b { s with chain := c }) hheaded (hl.stays hmoves hhash) hmoves fun _ => rfl⟩

theorem wp_rewind {newHead : Nat} (hs : s.chain.Headed) (hl : s.chain.Listed) :
    wp (rewind newHead) (fun _ t => ∃ n bs, s.Turns t n bs) (fun _ t => ∃ n bs, s.Turns t n bs) s := by
  unfold rewind
  rw [wp_bind, wp_get, wp_ite]
  split
  · exact ⟨_, _, Loads.turns ⟨.refl _, rfl⟩ hs hl⟩
  rename_i hlt
  have hlt := not_le.1 hlt
  obtain ⟨hheaded, hmoves, hlisted⟩ := hs.rewind hl hlt
  have hend : (s.chain.lastBlockNumber + 1) % 2 ^ 32 = s.chain.lastBlockNumber + 1 := by
    have hmax := hs.lt
    unfold invalidNumber at hmax
    omega
  have hturns : s.Turns { s with chain := s.chain.rewoundTo newHead, extraBlocksBlooms := s.cutBlooms newHead } newHead [] :=
    ⟨hheaded, hlisted, hmoves, fun _ => rfl⟩
  rw [cutBlooms, if_neg hlt.ne, ← hend, BlockChain.rewoundTo] at hturns
  unfold clearCachesDuringChainReversion BlockChain.numberHash
  rw [wp_bind, wp_bind]
  refine wp_lift ?_
  rw [BlockChain.clearCachesDuringChainReversion, wp_modify, wp_modify, wp_bind]
  refine wp_lift ?_
  simp only [wp_bind, wp_get, wp_ite]
  split
  · rename_i hzero
    simp only [if_pos hzero] at hturns
    exact ⟨newHead, [], hturns⟩
  · rename_i hpos
    simp only [if_neg hpos] at hturns
    exact ⟨newHead, [], hturns⟩

/-- No call is for a block without a number, or for the hash of a height that the chain does not have, and the chain is not
opened again in between. -/
def Counted (s : FullChain H) : Call H → Prop
  | .import_ b _ _ => b.number ≠ invalidNumber
  | .numberHash i => i ≤ s.chain.lastBlockNumber
  | .reopen => False
  | _ => True

theorem wp_numberHash {i : Nat} (hs : s.chain.Headed) (hl : s.chain.Listed) (hi : i ≤ s.chain.lastBlockNumber) :
    wp (lift (BlockChain.numberHash i)) (fun _ t => ∃ n bs, s.Turns t n bs) (fun _ t => ∃ n bs, s.Turns t n bs) s := by
  refine wp_lift ?_
  unfold BlockChain.numberHash
  simp only [wp_bind, wp_get, wp_ite]
  split
  · exact ⟨_, _, Loads.turns ⟨.refl _, rfl⟩ hs hl⟩
  rename_i hpos
  let t : FullChain H := { s with chain := { s.chain with extraBlockHash := s.chain.extraBlockHash.query i } }
  have hmoves : s.chain.Moves t.chain s.chain.lastBlockNumber [] := moves_of_keeps hs ⟨rfl, rfl, .refl _⟩ rfl rfl
  have hlisted : t.chain.Listed := hl.query (Nat.pos_of_ne_zero hpos) hi
  exact ⟨_, _, .stays (hs.congr ⟨rfl, rfl, .refl _⟩ rfl rfl) hlisted hmoves fun _ => rfl⟩

/-- A query that leaves the chain alone -/
theorem turns_query (hs : s.chain.Headed) (hl : s.chain.Listed) (hchain : t.chain = s.chain)
    (hblooms : ∀ id, bloomsAt t.extraBlocksBlooms id = bloomsAt s.extraBlocksBlooms id) :
    s.Turns t s.chain.lastBlockNumber [] := by
  have hmoves : s.chain.Moves s.chain s.chain.lastBlockNumber [] := moves_of_keeps (t := s) hs ⟨rfl, rfl, .refl _⟩ rfl rfl
  rw [← hchain] at hs hl hmoves
  exact .stays hs hl (hchain ▸ hmoves) hblooms

theorem wp_body (hs : s.chain.Headed) (hl : s.chain.Listed) {e : Call H} (hcounted : s.Counted e) :
    wp (body e) (fun _ t => ∃ n bs, s.Turns t n bs) (fun _ t => ∃ n bs, s.Turns t n bs) s := by
  cases e with
  | import_ b mustBeNew valid => exact wp_import hs hl hcounted
  | insert b mustBeNew validReceipts valid => exact wp_insert hs hl
  | rewind newHead => exact wp_rewind hs hl
  | reopen => exact hcounted.elim
  | details x =>
    exact wp_reads (BlockChain.reads_details x) (fun _ _ ht _ => ⟨_, _, ht.turns hs hl⟩) fun _ _ ht => ⟨_, _, ht.turns hs hl⟩
  | receipts x => exact ⟨_, _, turns_query hs hl rfl fun _ => rfl⟩
  | logBlooms x => exact ⟨_, _, turns_query hs hl rfl fun _ => rfl⟩
  | numberHash i => exact (wp_bind _ _).2 (wp_numberHash hs hl hcounted)
  | transactionLocation x =>
    refine (wp_bind _ _).2 (wp_lift ?_)
    unfold BlockChain.transactionLocation
    rw [wp_bind, wp_get, wp_bind, wp_set, wp_ite]
    have hkeeps : ∀ c : BlockChain H,
        c = { s.chain with extraTransactionAddress := s.chain.extraTransactionAddress.query x } →
        ∃ n bs, s.Turns { s with chain := c } n bs := by
      rintro c rfl
      exact ⟨_, _, .stays (hs.congr ⟨rfl, rfl, .refl _⟩ rfl rfl) ⟨hl.db, hl.cache⟩
        (moves_of_keeps hs ⟨rfl, rfl, .refl _⟩ rfl rfl) fun _ => rfl⟩
    split
    · exact hkeeps _ rfl
    · exact hkeeps _ rfl
  | blocksBlooms id => exact ⟨_, _, turns_query hs hl rfl fun id' => bloomsAt_query _ id id'⟩

/-- What the body of a counted call leaves, if the notes do not matter. -/
theorem of_step {Q : FullChain H → Prop} {e : Call H} (hcounted : s.Counted e)
    (hbody : wp (body e) (fun _ => Q) (fun _ => Q) s)
    (hnoted : ∀ {u : FullChain H} (usage : List (CacheID H → Bool)), Q u → Q { u with cacheUsage := usage })
    (hstep : s.step e = some t) :
    Q t := by
  have hat : s.atBody e = s := by
    cases e with
    | reopen => exact hcounted.elim
    | _ => rfl
  rw [step, hat, noting] at hstep
  unfold wp at hbody
  cases hrun : body e s with
  | ok a u =>
    rw [hrun] at hbody hstep
    exact Option.some.inj hstep ▸ hnoted _ hbody
  | error exn u =>
    rw [hrun] at hbody hstep
    cases exn with
    | exit => cases hstep
    | _ => exact Option.some.inj hstep ▸ hnoted _ hbody

theorem turns_of_step (hs : s.chain.Headed) (hl : s.chain.Listed) {e : Call H} (hcounted : s.Counted e)
    (hstep : s.step e = some t) : ∃ n bs, s.Turns t n bs := by
  refine of_step hcounted (wp_body hs hl hcounted) ?_ hstep
  rintro u usage ⟨n, bs, h⟩
  exact ⟨n, bs, h.headed, h.listed, h.moves, h.blooms⟩

theorem Start.headed (h : Start s) : s.chain.Headed ∧ s.chain.Listed := by
  have hlast : s.chain.lastBlockHash = s.chain.genesisHash := congrArg BlockChain.lastBlockHash h.chain.opened
  have hnumber : s.chain.lastBlockNumber = 0 := congrArg BlockChain.lastBlockNumber h.chain.opened
  have hhash : s.chain.extraBlockHash = {} := congrArg BlockChain.extraBlockHash h.chain.opened
  have hsound := h.chain.sound
  refine ⟨⟨hsound.tree, hsound.children.unread, .inl hlast, ?_, by rw [hnumber]; decide⟩,
    fun n hpos hn => ?_, fun n x hx => ?_⟩
  · rw [hlast, hnumber]
    exact hsound.tree.genesisNumber
  · omega
  · rw [hhash] at hx
    cases hx

end FullChain

end Kmdx.Chain
