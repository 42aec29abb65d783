import Kmdx.Chain.BloomSearch
import Kmdx.Chain.Collections
import Kmdx.Chain.Turns

/-!
# The index of blooms and the canonical chain

Whatever is inserted, reverted and rewound, the index holds the bloom of each canonical block but the genesis block, and no
other (`Bloomed`). So a search finds what it should up to the last block it is asked for (`search_exact`), where what is
searched for are the logs of a block or its author.
-/

namespace Kmdx.Chain

open Wp

set_option linter.unusedSectionVars false

variable {H : Type} [DecidableEq H] [BlockSha3 H] [BlockLogs H]

/-- The canonical block at the height `n` -/
def BlockChain.canonicalBlock (s : BlockChain H) (n : Nat) : Option (VerifiedBlockRef H) :=
  if s.canonical n = s.genesisHash then some s.genesis else s.blocks (s.canonical n)

/-- What is in the index for a canonical block. The genesis block has never been inserted. -/
def indexBloom (tbi : VerifiedBlockRef H) : LogBloom := if tbi.number = 0 then 0 else blockBloom tbi

namespace FullChain

variable {s t : FullChain H} {bs : List (VerifiedBlockRef H)} {latest n i : Nat}

/-- The index holds the blooms of the canonical blocks. -/
structure Bloomed (s : FullChain H) : Prop where
  covers : Covers s.extraBlocksBlooms
  canonical : ∀ n tbi, 0 < n → n ≤ s.chain.lastBlockNumber → s.chain.blocks (s.chain.canonical n) = some tbi →
    bloomAt s.extraBlocksBlooms 0 n = blockBloom tbi
  rest : ∀ n < 2 ^ 32, n = 0 ∨ s.chain.lastBlockNumber < n → bloomAt s.extraBlocksBlooms 0 n = 0

theorem Bloomed.covers_cutBlooms (h : s.Bloomed) (hs : s.chain.Headed) (hn : n ≤ s.chain.lastBlockNumber) :
    Covers (s.cutBlooms n) := by
  have hlt := hs.lt
  unfold invalidNumber at hlt
  unfold cutBlooms
  split
  · exact h.covers
  · exact covers_clearBlockBlooms h.covers (by omega) (by omega)

/-- Above the height where the chain is cut there are no blooms any more, and below they are what they were. -/
theorem Bloomed.bloomAt_cutBlooms (h : s.Bloomed) (hs : s.chain.Headed) (hn : n ≤ s.chain.lastBlockNumber) (hi : i < 2 ^ 32) :
    bloomAt (s.cutBlooms n) 0 i = if n < i then 0 else bloomAt s.extraBlocksBlooms 0 i := by
  have hlt := hs.lt
  unfold invalidNumber at hlt
  unfold cutBlooms
  by_cases hlast : n = s.chain.lastBlockNumber
  · rw [if_pos hlast]
    split
    · exact h.rest i hi (.inr (by omega))
    · rfl
  · rw [if_neg hlast, bloomAt_clearBlockBlooms (by omega) (by omega) hi]
    by_cases hcut : n + 1 ≤ i ∧ i < s.chain.lastBlockNumber + 1
    · rw [if_pos hcut, if_pos (by omega)]
    · rw [if_neg hcut]
      split
      · exact h.rest i hi (.inr (by omega))
      · rfl

theorem Bloomed.turns (h : s.Bloomed) (hs : s.chain.Headed) (ht : s.Turns t n bs) : t.Bloomed := by
  have hblooms := bloomAt_congr ht.blooms
  have hle := ht.moves.le
  have hlt := ht.headed.lt
  unfold invalidNumber at hlt
  have hnumber : ∀ tbi ∈ bs, n < tbi.number ∧ tbi.number ≤ t.chain.lastBlockNumber :=
    fun tbi htbi => ht.moves.mem_iff.1 ⟨tbi, htbi, rfl⟩
  have hnumber' : ∀ tbi ∈ bs, tbi.number < 2 ^ 32 := fun tbi htbi => by
    have := (hnumber tbi htbi).2
    omega
  have hnodup : (bs.map VerifiedBlockRef.number).Nodup := by
    rw [ht.moves.numbers, List.nodup_reverse]
    exact List.nodup_range'
  constructor
  case covers =>
    intro k hk
    rw [hblooms]
    exact (h.covers_cutBlooms hs hle).addBlooms hnumber' k hk
  case canonical =>
    intro k tbi hpos hk htbi
    rw [hblooms]
    by_cases hkn : k ≤ n
    · obtain ⟨tbi', hstored, -, -⟩ := hs.blocks_canonical hpos (hkn.trans hle)
      have hsame : tbi' = tbi := by
        rw [ht.moves.below k hkn, ht.moves.blocks hstored, Option.some_inj] at htbi
        exact htbi
      rw [bloomAt_addBlooms_of_ne hnumber' (by omega) fun tbi' h' => by have := (hnumber tbi' h').1; omega,
        h.bloomAt_cutBlooms hs hle (by omega), if_neg (by omega)]
      exact h.canonical k tbi hpos (hkn.trans hle) (hsame ▸ hstored)
    · obtain ⟨tbi', htbi', hk'⟩ := ht.moves.mem_iff.2 ⟨not_le.1 hkn, hk⟩
      have hsame : tbi' = tbi := by
        rw [← hk', ← ht.moves.hashes tbi' htbi', ht.moves.stored tbi' htbi', Option.some_inj] at htbi
        exact htbi
      subst hsame
      rw [← hk', bloomAt_addBlooms hnumber' hnodup htbi', h.bloomAt_cutBlooms hs hle (hnumber' _ htbi'),
        if_pos (hnumber _ htbi').1]
      exact BitVec.zero_or
  case rest =>
    intro k hk hrest
    have hle' := ht.moves.le'
    rw [hblooms, bloomAt_addBlooms_of_ne hnumber' hk fun tbi htbi => by have := hnumber tbi htbi; omega,
      h.bloomAt_cutBlooms hs hle hk]
    split
    · rfl
    · exact h.rest k hk (.inl (by omega))

theorem Start.bloomed (h : Start s) : s.Bloomed := by
  have hnumber : s.chain.lastBlockNumber = 0 := congrArg BlockChain.lastBlockNumber h.chain.opened
  have hblooms : s.extraBlocksBlooms = {} := congrArg FullChain.extraBlocksBlooms h.opened
  have hzero : ∀ level item, bloomAt s.extraBlocksBlooms level item = 0 := by
    intro level item
    rw [hblooms]
    rfl
  refine ⟨fun k _ => ?_, fun k tbi hpos hk _ => ?_, fun k _ _ => hzero 0 k⟩
  · rw [hzero, hzero]
    exact contains_zero _
  · omega

/-- The canonical chain, and both of its indexes, in any state that a run reaches. -/
theorem bloomed_of_leads {es : List (Call H)} (hs : s.chain.Headed) (hl : s.chain.Listed) (h : s.Bloomed)
    (hleads : Leads Counted s es t) : t.chain.Headed ∧ t.Bloomed := by
  induction hleads with
  | nil s => exact ⟨hs, h⟩
  | cons hcounted hstep _ ih =>
    obtain ⟨n, bs, ht⟩ := turns_of_step hs hl hcounted hstep
    exact ih ht.headed ht.listed (h.turns hs ht)

theorem Bloomed.bloomAt_eq (h : s.Bloomed) (hs : s.chain.Headed) (hn : n ≤ s.chain.lastBlockNumber) :
    ∃ tbi, s.chain.canonicalBlock n = some tbi ∧ bloomAt s.extraBlocksBlooms 0 n = indexBloom tbi := by
  by_cases hzero : n = 0
  · subst hzero
    refine ⟨s.chain.genesis, if_pos hs.canonical_zero, ?_⟩
    rw [indexBloom, if_pos hs.tree.genesis, h.rest 0 (by decide) (.inl rfl)]
  · obtain ⟨tbi, hstored, hnumber, hhash⟩ := hs.blocks_canonical (Nat.pos_of_ne_zero hzero) hn
    have hne : s.chain.canonical n ≠ s.chain.genesisHash := by
      intro hgenesis
      have hsame : tbi = s.chain.genesis := BlockSha3.hash_injective (hhash.trans hgenesis)
      rw [hsame, hs.tree.genesis] at hnumber
      exact hzero hnumber.symm
    refine ⟨tbi, by rw [BlockChain.canonicalBlock, if_neg hne, hstored], ?_⟩
    rw [indexBloom, hnumber, if_neg hzero]
    exact h.canonical n tbi (Nat.pos_of_ne_zero hzero) hn hstored

/-- After any run, a search up to a block of the chain answers with rising numbers, of which up to that block none is missing
and none is too many. -/
theorem search_exact {es : List (Call H)} (h : Start s) (hl : Leads Counted s es t) (b : LogBloom) (earliest : Nat)
    (hlast : latest ≤ t.chain.lastBlockNumber) (hmax : latest ≤ 2 ^ 32 - 256) :
    ∃ ns, eval (withBlockBloom b earliest latest) t = .ok ns ∧ ns.Pairwise (· < ·) ∧
      ∀ n ≤ latest, n ∈ ns ↔ earliest ≤ n ∧ ∃ tbi, t.chain.canonicalBlock n = some tbi ∧ Contains (indexBloom tbi) b := by
  obtain ⟨hheaded, hbloomed⟩ := bloomed_of_leads h.headed.1 h.headed.2 h.bloomed hl
  obtain ⟨c, -, hrun⟩ := finds_withBlockBloom (s := t) b earliest latest
  refine ⟨_, eval_of_eq_ok hrun, sorted_found hmax, fun n hn => ?_⟩
  rw [mem_found hbloomed.covers hmax hn]
  obtain ⟨tbi, htbi, hbloom⟩ := hbloomed.bloomAt_eq hheaded (hn.trans hlast)
  rw [hbloom, htbi]
  simp only [Option.some_inj, exists_eq_left']

open Numbered

theorem leads_twoImports {t : FullChain Nat} (h : fullyOpened.run (twoImports.map .call) = some t) :
    Leads Counted fullyOpened twoImports t := by
  refine leads_of_run (fun e he s => ?_) h
  simp only [List.mem_cons, List.not_mem_nil, or_false] at he
  rcases he with rfl | rfl <;> exact show (_ : Nat) ≠ _ by decide

/-- The author of both blocks is found. -/
theorem search_exact_two : ∃ t, fullyOpened.run (twoImports.map .call) = some t ∧
    ∃ ns, eval (withBlockBloom 1 0 2) t = .ok ns ∧ ns.Pairwise (· < ·) ∧ ∀ n ≤ 2, n ∈ ns ↔ 0 ≤ n ∧
      ∃ tbi, t.chain.canonicalBlock n = some tbi ∧ Contains (indexBloom tbi) 1 := by
  have hrun : ∃ t, fullyOpened.run (twoImports.map .call) = some t ∧ t.chain.lastBlockNumber = 2 := by
    decide +kernel
  obtain ⟨t, ht, hnumber⟩ := hrun
  exact ⟨t, ht, search_exact start_fullyOpened (leads_twoImports ht) 1 0 hnumber.ge (by decide)⟩

/-- The block whose author is found has no logs. -/
theorem not_search_exact : ¬ ∀ (H : Type) [DecidableEq H] [BlockSha3 H] [BlockLogs H] (s t : FullChain H)
    (es : List (Call H)),
    Start s → Leads Counted s es t → ∀ (b : LogBloom) (earliest latest : Nat),
      earliest ≤ latest → latest ≤ t.chain.lastBlockNumber →
    ∃ ns, eval (withBlockBloom b earliest latest) t = .ok ns ∧ ns.Pairwise (· < ·) ∧ ∀ n, n ∈ ns ↔ earliest ≤ n ∧ n ≤ latest ∧
      ∃ tbi, t.chain.canonicalBlock n = some tbi ∧ Contains (BlockLogs.logBloom tbi) b := by
  intro h
  have hrun : ∃ t, fullyOpened.step (.import_ (child genesisBlock 1) true true) = some t ∧ t.chain.lastBlockNumber = 1 ∧
      (eval (withBlockBloom 1 0 1) t).toOption = some [1] := by
    decide +kernel
  obtain ⟨t, ht, hnumber, hsearch⟩ := hrun
  obtain ⟨ns, hns, -, hmem⟩ := h Nat fullyOpened t _ start_fullyOpened (.cons (by change _ ≠ _; decide) ht (.nil t)) 1 0 1
    (by decide) hnumber.ge
  rw [hns] at hsearch
  have hone : ns = [1] := Option.some.inj hsearch
  obtain ⟨-, -, tbi, -, hcontains⟩ := (hmem 1).1 (hone ▸ List.mem_singleton_self 1)
  exact absurd hcontains (show ¬ Contains (0 : LogBloom) 1 by decide +kernel)

end FullChain

end Kmdx.Chain
