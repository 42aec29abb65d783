import Kmdx.Chain.Turns
import Kmdx.Chain.HeaderRequests

/-!
# The walk down the canonical chain

A walk from a canonical block down meets the canonical blocks below it in steps, whether it follows the parents or the index
(`learns_collect`), and of the heights that are asked for none is missing and none is too many (`down_eq`, `reverse_down`).
-/

namespace Kmdx.Chain

open Wp List

set_option linter.unusedSectionVars false

variable {H : Type} [DecidableEq H] [BlockSha3 H]

namespace BlockChain

variable {s t u : BlockChain H} {α β : Type} {a : α} {b : β} {x : M H α} {f : α → M H β} {n i k step : Nat}

/-! ### Questions -/

/-- The head, the blocks and the index are right. -/
structure Served (s : BlockChain H) : Prop where
  headed : s.Headed
  listed : s.Listed
  genesis : s.parentOf s.genesisHash = 0

/-- `t` is `s`, with more in its caches. -/
structure Asked (s t : BlockChain H) : Prop where
  keeps : s.Keeps t
  last : t.lastBlockHash = s.lastBlockHash
  number : t.lastBlockNumber = s.lastBlockNumber
  listed : t.Listed

/-- The answer to `x` is `a`, however much is cached. -/
def Learns (s : BlockChain H) (x : M H α) (a : α) : Prop := ∀ t, s.Asked t → ∃ u, x t = .ok a u ∧ s.Asked u

theorem Asked.refl (hl : s.Listed) : s.Asked s := ⟨⟨rfl, rfl, .refl _⟩, rfl, rfl, hl⟩

theorem Asked.loads (h : s.Asked t) (hu : Loads t u) : s.Asked u := by
  have hlast : u.lastBlockHash = t.lastBlockHash := by rw [hu.rest]
  have hnumber : u.lastBlockNumber = t.lastBlockNumber := by rw [hu.rest]
  exact ⟨h.keeps.trans (.of_loads hu), hlast.trans h.last, hnumber.trans h.number, h.listed.loads hu⟩

theorem Asked.genesisHash (h : s.Asked t) : t.genesisHash = s.genesisHash := by
  rw [BlockChain.genesisHash, BlockChain.genesisHash, h.keeps.genesis]

theorem Asked.canonical_eq (h : s.Asked t) : t.canonical = s.canonical := by
  have hparent : t.parentOf = s.parentOf := by
    funext y
    rw [parentOf, parentOf, h.keeps.detailsOf]
  funext i
  rw [BlockChain.canonical, BlockChain.canonical, hparent, h.last, h.number]

theorem Learns.pure (a : α) : s.Learns (pure a : M H α) a := fun t ht => ⟨t, rfl, ht⟩

theorem Learns.bind (hx : s.Learns x a) (hf : s.Learns (f a) b) : s.Learns (x >>= f) b := by
  intro t ht
  obtain ⟨u, hrun, hu⟩ := hx t ht
  rw [run_bind_of_ok hrun]
  exact hf u hu

theorem Learns.get {f : BlockChain H → M H β} (hf : ∀ t, s.Asked t → s.Learns (f t) b) : s.Learns (get >>= f) b :=
  fun t ht => hf t ht t ht

theorem learns_details (y : H) : s.Learns (details y) (s.detailsOf y) := fun t ht =>
  ⟨_, by rw [← ht.keeps.detailsOf]; rfl, ht.loads (loads_query t y)⟩

theorem learns_numberOf (y : H) : s.Learns (numberOf y) (s.level y) := (learns_details y).bind (.pure _)

theorem total_isKnown (y : H) (isCurrent : Bool) : Total (isKnown y isCurrent) := by
  intro t
  unfold isKnown
  simp only [run_bind, run_get, run_ite]
  split
  · exact ⟨_, _, rfl⟩
  · split
    · exact ⟨_, _, rfl⟩
    · split
      · exact ⟨_, _, rfl⟩
      · split
        · exact ⟨_, _, rfl⟩
        · exact ⟨_, _, rfl⟩

/-! ### Canonical blocks -/

/-- What is `step` below the canonical block of the height `n`. -/
def below (s : BlockChain H) (n step : Nat) : H := if step ≤ n then s.canonical (n - step) else 0

theorem below_zero (s : BlockChain H) (n : Nat) : s.below n 0 = s.canonical n := if_pos (Nat.zero_le n)

theorem below_succ (s : BlockChain H) (n step : Nat) : s.below (n + 1) (step + 1) = s.below n step := by
  unfold below
  rw [Nat.add_sub_add_right]
  simp only [Nat.add_le_add_iff_right]

namespace Served

variable (hs : s.Served)

include hs

theorem headed_of_asked (ht : s.Asked t) : t.Headed := hs.headed.congr ht.keeps ht.last ht.number

theorem canonical_ne_zero (hn : n ≤ s.lastBlockNumber) : s.canonical n ≠ 0 :=
  hs.headed.tree.blockTree.ne_zero (hs.headed.placed_canonical hn).1

theorem parentOf_canonical (hn : n + 1 ≤ s.lastBlockNumber) : s.parentOf (s.canonical (n + 1)) = s.canonical n := by
  have hsteps := iterate_canonical hn (Nat.le_succ n)
  rwa [Nat.add_sub_cancel_left] at hsteps

/-- There is nothing under `h256()`. -/
theorem detailsOf_zero : s.detailsOf 0 = nullBlockDetails := by
  have habsent : ¬s.Present 0 := by
    rintro (hgenesis | hsome)
    · exact BlockSha3.hash_ne_zero _ hgenesis.symm
    · obtain ⟨b, hb⟩ := Option.isSome_iff_exists.1 hsome
      exact BlockSha3.hash_ne_zero b (hs.headed.tree.hash_eq hb)
  have hget : s.extraDetails.get 0 = none := by
    rw [← Option.not_isSome_iff_eq_none, hs.headed.tree.present]
    exact habsent
  rw [detailsOf, hget]
  rfl

theorem known_canonical (hn : n ≤ s.lastBlockNumber) : s.known (s.canonical n) true = true := by
  obtain ⟨⟨hpresent, -⟩, hlevel⟩ := hs.headed.placed_canonical hn
  rw [known, decide_eq_true_iff]
  rcases hpresent with hgenesis | hblocks
  · exact .inl hgenesis
  · refine .inr ⟨hblocks, (hs.headed.tree.present _).2 (.inr hblocks), fun _ => ?_⟩
    exact hlevel.le.trans hn

theorem learns_isKnown (hn : n ≤ s.lastBlockNumber) : s.Learns (isKnown (s.canonical n)) true := by
  intro t ht
  obtain ⟨known, u, hrun⟩ := total_isKnown (s.canonical n) true t
  obtain ⟨hload, hknown⟩ := wp_ok (reads_isKnown (s.canonical n) true) hrun
  have hserved : t.Served := ⟨hs.headed_of_asked ht, ht.listed, ?_⟩
  · rw [← ht.canonical_eq, hserved.known_canonical (ht.number ▸ hn)] at hknown
    exact ⟨u, hknown ▸ hrun, ht.loads hload⟩
  · rw [parentOf, ht.keeps.detailsOf, ht.genesisHash]
    exact hs.genesis

theorem learns_numberHash (hn : n ≤ s.lastBlockNumber) : s.Learns (numberHash n) (s.canonical n) := by
  intro t ht
  unfold numberHash
  rw [run_bind, run_get]
  dsimp only
  by_cases hzero : n = 0
  · rw [if_pos hzero, hzero, hs.headed.canonical_zero, ← ht.genesisHash]
    exact ⟨t, rfl, ht⟩
  · rw [if_neg hzero, run_bind, run_set]
    have hn' : n ≤ t.lastBlockNumber := ht.number ▸ hn
    have hget : (t.extraBlockHash.get n).getD 0 = s.canonical n := by
      rw [ht.listed.get (Nat.pos_of_ne_zero hzero) hn', ht.canonical_eq, Option.getD_some]
    exact ⟨{ t with extraBlockHash := t.extraBlockHash.query n }, hget ▸ rfl,
      ⟨ht.keeps.genesis, ht.keeps.blocks, ht.keeps.details⟩, ht.last, ht.number,
        ht.listed.query (Nat.pos_of_ne_zero hzero) hn'⟩

/-! ### The walk down -/

omit hs in
theorem learns_parents_succ {limitBlock : Nat} {y : H} {r : H × Nat}
    (hr : s.Learns (if s.level y < limitBlock then pure (y, step + 1) else parents limitBlock step (s.parentOf y)) r) :
    s.Learns (parents limitBlock (step + 1) y) r := (learns_details y).bind hr

theorem learns_parents_zero {limitBlock : Nat} (hlimit : limitBlock ≤ invalidNumber) (step : Nat) :
    s.Learns (parents limitBlock step 0) (0, 0) := by
  induction step with
  | zero => exact .pure _
  | succ step ih =>
    have hlevel : s.level 0 = invalidNumber := congrArg BlockDetails.number hs.detailsOf_zero
    have hparent : s.parentOf 0 = 0 := congrArg BlockDetails.parent hs.detailsOf_zero
    refine learns_parents_succ ?_
    rw [hlevel, hparent, if_neg (not_lt.2 hlimit)]
    exact ih

/-- Along the parents the walk comes to its end, or to a block from which the rest of it is left. -/
theorem learns_parents {limitBlock : Nat} (hlimit : limitBlock ≤ invalidNumber) (hn : n ≤ s.lastBlockNumber) (step : Nat) :
    s.Learns (parents limitBlock step (s.canonical n)) (s.below n step, 0) ∨
      ∃ i rest, i + rest = step ∧ 0 < rest ∧ i ≤ n ∧ s.Learns (parents limitBlock step (s.canonical n))
        (s.canonical (n - i), rest) := by
  induction step generalizing n with
  | zero =>
    rw [below_zero]
    exact .inl (.pure _)
  | succ step ih =>
    obtain ⟨-, hlevel⟩ := hs.headed.placed_canonical hn
    by_cases hlow : n < limitBlock
    · refine .inr ⟨0, step + 1, Nat.zero_add _, Nat.succ_pos _, Nat.zero_le _, learns_parents_succ ?_⟩
      rw [hlevel, if_pos hlow]
      exact .pure _
    · have hparent : ∀ {r : H × Nat}, s.Learns (parents limitBlock step (s.parentOf (s.canonical n))) r →
          s.Learns (parents limitBlock (step + 1) (s.canonical n)) r := by
        intro r hr
        refine learns_parents_succ ?_
        rw [hlevel, if_neg hlow]
        exact hr
      cases n with
      | zero =>
        have hzero : s.parentOf (s.canonical 0) = 0 := by rw [hs.headed.canonical_zero, hs.genesis]
        refine .inl (hparent ?_)
        rw [hzero]
        exact hs.learns_parents_zero hlimit step
      | succ n =>
        rw [below_succ]
        rw [hs.parentOf_canonical hn] at hparent
        rcases ih (Nat.le_of_succ_le hn) with hend | ⟨i, rest, hsum, hpos, hi, hrest⟩
        · exact .inl (hparent hend)
        · refine .inr ⟨i + 1, rest, by omega, hpos, Nat.succ_le_succ hi, hparent ?_⟩
          rwa [Nat.add_sub_add_right]

theorem learns_nextHash (hn : n ≤ s.lastBlockNumber) : s.Learns (nextHash (s.canonical n) step) (s.below n step) := by
  refine .get fun t ht => ?_
  rw [ht.number]
  have hlt := hs.headed.lt
  have hlimit : (if s.lastBlockNumber > blockNumberUsageLimit then s.lastBlockNumber - blockNumberUsageLimit else 0) ≤
      invalidNumber := by
    split <;> omega
  rcases hs.learns_parents hlimit hn step with hend | ⟨i, rest, hsum, hpos, hi, hrest⟩
  · exact hend.bind (.pure _)
  · refine hrest.bind ?_
    dsimp only
    rw [if_neg hpos.ne']
    refine (learns_numberOf _).bind ?_
    obtain ⟨-, hlevel⟩ := hs.headed.placed_canonical (n := n - i) (by omega)
    rw [hlevel]
    by_cases hrest : rest ≤ n - i
    · rw [if_pos hrest, below, if_pos (by omega), show n - step = n - i - rest by omega]
      exact hs.learns_numberHash (by omega)
    · rw [if_neg hrest, below, if_neg (by omega)]
      exact .pure _

end Served

/-- The heights that are met on the way down, `k` at most -/
def down (step : Nat) : Nat → Nat → List Nat
  | 0, _ => []
  | k + 1, n => n :: if step ≤ n then down step k (n - step) else []

theorem learns_collect_zero (step k : Nat) : s.Learns (collect step k 0) [] := by
  cases k with
  | zero => exact .pure _
  | succ k =>
    rw [collect, if_pos rfl]
    exact .pure _

theorem Served.learns_collect (hs : s.Served) (hn : n ≤ s.lastBlockNumber) :
    s.Learns (collect step k (s.canonical n)) ((down step k n).map s.canonical) := by
  induction k generalizing n with
  | zero => exact .pure _
  | succ k ih =>
    rw [collect, if_neg (hs.canonical_ne_zero hn)]
    refine (hs.learns_isKnown hn).bind ((hs.learns_nextHash hn).bind ?_)
    rw [down, map_cons, below]
    by_cases hstep : step ≤ n
    · rw [if_pos hstep, if_pos hstep]
      exact (ih ((Nat.sub_le _ _).trans hn)).bind (.pure _)
    · rw [if_neg hstep, if_neg hstep]
      exact (learns_collect_zero step k).bind (.pure _)

/-! ### The heights -/

/-- The heights of the headers that are asked for, from `n` on -/
def askedHeights (s : BlockChain H) (n maxHeaders step : Nat) (reverse : Bool) : List Nat :=
  if reverse then ((List.range maxHeaders).filter (step * · ≤ n)).map (n - step * ·)
  else ((List.range maxHeaders).map (n + step * ·)).filter (· ≤ s.lastBlockNumber)

/-- How many headers there are to send upwards -/
def sent (s : BlockChain H) (n maxHeaders step : Nat) : Nat :=
  if s.lastBlockNumber < n + step * (maxHeaders - 1) then (s.lastBlockNumber - n) / step + 1 else maxHeaders

/-- From the top down all heights are met that are counted from below. -/
theorem reverse_down (step k n : Nat) : (down step k (n + step * (k - 1))).reverse = (List.range k).map (n + step * ·) := by
  induction k with
  | zero => rfl
  | succ k ih =>
    have hrest : (if step ≤ n + step * k then down step k (n + step * k - step) else []) =
        down step k (n + step * (k - 1)) := by
      cases k with
      | zero => simp [down]
      | succ k =>
        have hsucc : n + step * (k + 1) = n + step * k + step := by ring
        rw [hsucc, if_pos (Nat.le_add_left _ _), Nat.add_sub_cancel]
        rfl
    rw [Nat.add_sub_cancel, down, hrest, reverse_cons, ih, range_succ, map_append]
    rfl

theorem down_eq (step k n : Nat) : down step k n = ((List.range k).filter (step * · ≤ n)).map (n - step * ·) := by
  induction k generalizing n with
  | zero => rfl
  | succ k ih =>
    rw [down, range_succ_eq_map, filter_cons_of_pos (by simp), map_cons, filter_map, map_map]
    refine congrArg₂ _ (by simp) ?_
    by_cases hle : step ≤ n
    · rw [if_pos hle, ih]
      have hfilter : ∀ i, ((fun i => decide (step * i ≤ n)) ∘ Nat.succ) i = decide (step * i ≤ n - step) := by
        intro i
        have hsucc : step * i.succ = step * i + step := Nat.mul_succ step i
        rw [Function.comp_apply, hsucc, decide_eq_decide]
        omega
      have hmap : ∀ i, ((fun i => n - step * i) ∘ Nat.succ) i = n - step - step * i := by
        intro i
        have hsucc : step * i.succ = step * i + step := Nat.mul_succ step i
        rw [Function.comp_apply, hsucc]
        omega
      rw [funext hfilter, funext hmap]
    · have hnone : ∀ i ∈ List.range k, ¬((fun i => decide (step * i ≤ n)) ∘ Nat.succ) i = true := by
        intro i _
        have hsucc : step * i.succ = step * i + step := Nat.mul_succ step i
        rw [Function.comp_apply, hsucc, decide_eq_true_iff]
        omega
      rw [if_neg hle, filter_eq_nil_iff.2 hnone]
      rfl

/-- The heights that are not above the head are the first ones. -/
theorem askedHeights_upwards {maxHeaders : Nat} (hn : n ≤ s.lastBlockNumber) (hstep : 0 < step) :
    s.askedHeights n maxHeaders step false = (List.range (s.sent n maxHeaders step)).map (n + step * ·) := by
  have hcount : s.sent n maxHeaders step ≤ maxHeaders ∧
      ∀ i < maxHeaders, n + step * i ≤ s.lastBlockNumber ↔ i < s.sent n maxHeaders step := by
    unfold sent
    split
    · rename_i habove
      have hpos : 0 < maxHeaders := by
        rcases Nat.eq_zero_or_pos maxHeaders with rfl | hpos
        · simp at habove
          omega
        · exact hpos
      have hdiv : (s.lastBlockNumber - n) / step < maxHeaders - 1 + 1 := by
        refine Nat.lt_succ_of_lt ((Nat.div_lt_iff_lt_mul hstep).2 ?_)
        rw [Nat.mul_comm]
        omega
      refine ⟨by omega, fun i _ => ?_⟩
      rw [Nat.lt_succ_iff, Nat.le_div_iff_mul_le hstep, Nat.mul_comm i step]
      omega
    · rename_i hbelow
      refine ⟨le_refl _, fun i hi => ?_⟩
      have hmul : step * i ≤ step * (maxHeaders - 1) := Nat.mul_le_mul_left _ (by omega)
      exact ⟨fun _ => hi, fun _ => by omega⟩
  obtain ⟨hle, hiff⟩ := hcount
  obtain ⟨rest, hrest⟩ := Nat.exists_eq_add_of_le hle
  rw [askedHeights, if_neg (by simp), filter_map]
  refine congrArg _ ?_
  have hfilter : (List.range maxHeaders).filter ((fun i => decide (i ≤ s.lastBlockNumber)) ∘ (n + step * ·)) =
      (List.range maxHeaders).filter fun i => decide (i < s.sent n maxHeaders step) :=
    filter_congr fun i hi => decide_eq_decide.2 (hiff i (mem_range.1 hi))
  have hnone : ∀ i ∈ (List.range rest).map (s.sent n maxHeaders step + ·), ¬decide (i < s.sent n maxHeaders step) = true := by
    intro i hi
    obtain ⟨j, -, rfl⟩ := mem_map.1 hi
    simp
  have hall : ∀ i ∈ List.range (s.sent n maxHeaders step), decide (i < s.sent n maxHeaders step) = true := by
    intro i hi
    exact decide_eq_true (mem_range.1 hi)
  have hsplit : List.range maxHeaders = List.range (s.sent n maxHeaders step) ++
      (List.range rest).map (s.sent n maxHeaders step + ·) := by
    rw [← range_add, ← hrest]
  rw [hfilter, hsplit, filter_append, filter_eq_self.2 hall, filter_eq_nil_iff.2 hnone, append_nil]

end BlockChain

end Kmdx.Chain
