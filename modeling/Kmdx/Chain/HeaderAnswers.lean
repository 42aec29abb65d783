import Kmdx.Chain.BlockBlooms
import Kmdx.Chain.HeaderWalk
import Kmdx.Rlp.Conversions
import Kmdx.Rlp.Lists

/-!
# What requests for headers are answered with

By a number, and by a hash downwards, with the canonical headers that are asked for. By a hash upwards the walk starts from
the block below the one that would come next, if there is one, so only the headers of successive blocks are the right ones
(`exact_iff`). The index has been asked for no number above the head, as it would keep what it has left of another chain.
-/

namespace Kmdx.Chain

open Wp List

set_option linter.unusedSectionVars false

variable {H : Type} [DecidableEq H] [BlockSha3 H] [HeaderData H]

namespace BlockChain

variable {s t u : BlockChain H} {n i k step : Nat}

/-! ### The headers -/

def canonicalHeader (s : BlockChain H) (n : Nat) : Bytes := (s.canonicalBlock n).elim [] HeaderData.header

/-- The first of `parts`: as many as it takes to get to `maxPayload`, or all. -/
def IsCut (parts : List Bytes) (rlp : Bytes) : Prop :=
  ∃ k ≤ parts.length, rlp = (parts.take k).flatten ∧ (∀ j < k, (parts.take j).flatten.length < maxPayload) ∧
    (k < parts.length → maxPayload ≤ rlp.length)

/-- What is sent of `parts`, once `rlp` is sent -/
def cut : List Bytes → Bytes → Bytes
  | [], rlp => rlp
  | p :: ps, rlp => if rlp.length < maxPayload then cut ps (rlp ++ p) else rlp

theorem cut_spec (parts : List Bytes) (rlp : Bytes) : ∃ k ≤ parts.length, cut parts rlp = rlp ++ (parts.take k).flatten ∧
    (∀ j < k, (rlp ++ (parts.take j).flatten).length < maxPayload) ∧
      (k < parts.length → maxPayload ≤ (cut parts rlp).length) := by
  induction parts generalizing rlp with
  | nil => exact ⟨0, le_refl _, by simp [cut], fun _ hj => absurd hj (Nat.not_lt_zero _),
      fun hlt => absurd hlt (Nat.not_lt_zero _)⟩
  | cons p ps ih =>
    rw [cut]
    split
    · rename_i hroom
      obtain ⟨k, hk, hcut, hbefore, hafter⟩ := ih (rlp ++ p)
      refine ⟨k + 1, Nat.succ_le_succ hk, ?_, fun j hj => ?_, fun hlt => hafter (Nat.lt_of_succ_lt_succ hlt)⟩
      · rw [hcut, take_succ_cons, flatten_cons, append_assoc]
      · cases j with
        | zero => simpa using hroom
        | succ j =>
          rw [take_succ_cons, flatten_cons, ← append_assoc]
          exact hbefore j (Nat.lt_of_succ_lt_succ hj)
    · rename_i hfull
      exact ⟨0, Nat.zero_le _, by simp, fun _ hj => absurd hj (Nat.not_lt_zero _), fun _ => not_lt.1 hfull⟩

theorem isCut_cut (parts : List Bytes) : IsCut parts (cut parts []) := by
  obtain ⟨k, hk, hcut, hbefore, hafter⟩ := cut_spec parts []
  exact ⟨k, hk, hcut, hbefore, hafter⟩

/-- From bytes that are made of items it can be told with which item they begin. -/
theorem IsCut.head_eq {p p' : Bytes} {ps ps' : List Bytes} {rlp : Bytes} (h : IsCut (p :: ps) rlp)
    (h' : IsCut (p' :: ps') rlp)
    (hitems : ∀ i ∈ p :: ps, Rlp.IsItem i) (hitems' : ∀ i ∈ p' :: ps', Rlp.IsItem i) : p = p' := by
  have hsplits : ∀ {p : Bytes} {ps : List Bytes}, IsCut (p :: ps) rlp → (∀ i ∈ p :: ps, Rlp.IsItem i) →
      ∃ is, Rlp.Splits rlp (p :: is) := by
    rintro p ps ⟨k, -, heq, -, hafter⟩ hitems
    cases k with
    | zero =>
      have hfull := hafter (Nat.zero_lt_succ _)
      rw [heq] at hfull
      exact absurd hfull (show ¬maxPayload ≤ 0 by decide)
    | succ k =>
      have htake : (p :: ps).take (k + 1) = p :: ps.take k := rfl
      exact ⟨ps.take k, heq, fun i hi => hitems i (mem_of_mem_take (htake ▸ hi))⟩
  obtain ⟨is, his⟩ := hsplits h hitems
  obtain ⟨is', his'⟩ := hsplits h' hitems'
  exact (List.cons.inj (his.unique his')).1

theorem learns_headerData (y : H) : s.Learns (headerData y)
    ((if y = s.genesisHash then some s.genesis else s.blocks y).elim [] HeaderData.header) := by
  refine .get fun t ht => ?_
  rw [ht.genesisHash, ht.keeps.genesis, ht.keeps.blocks]
  split
  · exact .pure _
  · cases s.blocks y with
    | none => exact .pure _
    | some b => exact .pure _

theorem learns_appendHeaders (ns : List Nat) (rlp : Bytes) :
    s.Learns (appendHeaders (ns.map s.canonical) rlp) (cut (ns.map s.canonicalHeader) rlp) := by
  induction ns generalizing rlp with
  | nil => exact .pure _
  | cons n ns ih =>
    rw [map_cons, map_cons, appendHeaders, cut]
    split
    · exact (learns_headerData _).bind (ih _)
    · exact .pure _

/-- The answer that is made of the headers that are asked for -/
def rightAnswer (s : BlockChain H) (n maxHeaders skip : Nat) (reverse : Bool) : Bytes × Nat :=
  (cut ((s.askedHeights n maxHeaders (skip + 1) reverse).map s.canonicalHeader) [],
    (s.askedHeights n maxHeaders (skip + 1) reverse).length)

/-! ### Where the walk starts -/

theorem mul_sent_le (hn : n ≤ s.lastBlockNumber) (maxHeaders step : Nat) :
    n + step * (s.sent n maxHeaders step - 1) ≤ s.lastBlockNumber := by
  unfold sent
  split
  · have hmul : (s.lastBlockNumber - n) / step * step ≤ s.lastBlockNumber - n := Nat.div_mul_le_self _ _
    rw [Nat.add_sub_cancel, Nat.mul_comm]
    omega
  · rename_i hbelow
    exact not_lt.1 hbelow

namespace Served

variable {maxHeaders skip : Nat} {reverse : Bool} {r : H × Nat}

section

variable (hs : s.Served) (hn : n ≤ s.lastBlockNumber)
include hs hn

theorem learns_downOfHash : s.Learns (startOfHash (s.canonical n) maxHeaders step true) (s.canonical n, maxHeaders) :=
  (hs.learns_isKnown hn).bind (.pure _)

theorem learns_downOfNumber : s.Learns (startOfNumber n maxHeaders step true) (s.canonical n, maxHeaders) := by
  have hlt := hs.headed.lt
  unfold invalidNumber at hlt
  rw [startOfNumber, if_neg (by simp), if_pos (by omega)]
  exact (hs.learns_numberHash hn).bind (.pure _)

theorem learns_upOfHash (hpos : 0 < maxHeaders) (hr : s.Learns (topOfHash n s.lastBlockNumber maxHeaders step) r) :
    s.Learns (startOfHash (s.canonical n) maxHeaders step false) r := by
  refine (hs.learns_isKnown hn).bind ((learns_numberOf _).bind ?_)
  obtain ⟨hplaced, hlevel⟩ := hs.headed.placed_canonical hn
  rw [hlevel, if_neg hpos.ne']
  refine .get fun t ht => ?_
  have hgenesis : n ≠ 0 ∨ s.canonical n = t.genesisHash := by
    rw [ht.genesisHash, ← hs.headed.canonical_zero]
    rcases Nat.eq_zero_or_pos n with rfl | hn
    · exact .inr rfl
    · exact .inl hn.ne'
  rw [if_pos hgenesis]
  refine .get fun t ht => ?_
  rw [ht.number]
  exact hr

/-- What is computed where the top is above the head -/
theorem shortened (hstep : 0 < step) (habove : s.lastBlockNumber < n + step * maxHeaders - 1)
    (hmax : maxHeaders ≤ maxHeadersToSend) :
    ((s.lastBlockNumber + 2 ^ 32 - n) % 2 ^ 32 / step + 1) % 2 ^ 32 = s.sent n maxHeaders step := by
  have hlt := hs.headed.lt
  unfold invalidNumber at hlt
  unfold maxHeadersToSend at hmax
  have hsub : (s.lastBlockNumber + 2 ^ 32 - n) % 2 ^ 32 = s.lastBlockNumber - n := by omega
  have hdiv : (s.lastBlockNumber - n) / step < maxHeaders := by
    rw [Nat.div_lt_iff_lt_mul hstep, Nat.mul_comm]
    omega
  rw [hsub, Nat.mod_eq_of_lt (by omega), sent]
  split
  · rfl
  · rename_i hbelow
    have hle : maxHeaders - 1 ≤ (s.lastBlockNumber - n) / step := by
      rw [Nat.le_div_iff_mul_le hstep, Nat.mul_comm]
      omega
    omega

theorem learns_topOfNumber (hpos : 0 < maxHeaders) (hmax : maxHeaders ≤ maxHeadersToSend)
    (hstep : 0 < step) (hlt : step < 2 ^ 32) : s.Learns (topOfNumber n s.lastBlockNumber maxHeaders step)
      (s.canonical (n + step * (s.sent n maxHeaders step - 1)), s.sent n maxHeaders step) := by
  have hlast := hs.headed.lt
  have hle := mul_sent_le hn maxHeaders step
  unfold invalidNumber at hlast
  have hmul : step * (maxHeaders - 1) < 2 ^ 64 := by
    unfold maxHeadersToSend at hmax
    calc step * (maxHeaders - 1) ≤ 2 ^ 32 * 1024 := Nat.mul_le_mul hlt.le (by omega)
      _ < 2 ^ 64 := by decide
  rw [topOfNumber, Nat.mod_eq_of_lt hmul]
  by_cases habove : s.lastBlockNumber < n + step * (maxHeaders - 1)
  · have hsucc : step * maxHeaders = step * (maxHeaders - 1) + step := by
        rw [← Nat.mul_succ, Nat.succ_eq_add_one, Nat.sub_add_cancel hpos]
    have hsmall : step * (s.sent n maxHeaders step - 1) < 2 ^ 32 := by omega
    rw [if_pos habove, Nat.mod_eq_of_lt (a := n) (by omega), hs.shortened hn hstep (by omega) hmax]
    dsimp only
    rw [Nat.mod_eq_of_lt hsmall, if_neg (not_lt.2 hle), Nat.mod_eq_of_lt (by omega)]
    exact (hs.learns_numberHash hle).bind (.pure _)
  · have hsent : s.sent n maxHeaders step = maxHeaders := if_neg habove
    rw [hsent] at hle ⊢
    rw [if_neg habove, Nat.mod_eq_of_lt (by omega)]
    exact (hs.learns_numberHash hle).bind (.pure _)

/-- For a hash the top is the right one if it is above the head. -/
theorem learns_topOfHash (hmax : maxHeaders ≤ maxHeadersToSend)
    (hstep : 0 < step) (hlt : step < 2 ^ 32) (habove : s.lastBlockNumber < n + step * maxHeaders - 1) :
    s.Learns (topOfHash n s.lastBlockNumber maxHeaders step)
      (s.canonical (n + step * (s.sent n maxHeaders step - 1)), s.sent n maxHeaders step) := by
  have hlast := hs.headed.lt
  have hle := mul_sent_le hn maxHeaders step
  unfold invalidNumber at hlast
  have hmul : step * maxHeaders ≤ 2 ^ 32 * 1024 := Nat.mul_le_mul hlt.le hmax
  rw [topOfHash, Nat.mod_eq_of_lt (by omega), if_pos habove, hs.shortened hn hstep habove hmax]
  dsimp only
  rw [Nat.mod_eq_of_lt (by omega), if_neg (not_lt.2 hle)]
  exact (hs.learns_numberHash hle).bind (.pure _)

end

/-- Otherwise it is the block below the one that would come next. -/
theorem learns_topOfHash_below (hs : s.Served) (hmax : maxHeaders ≤ maxHeadersToSend) (hlt : step < 2 ^ 32)
    (hbelow : n + step * maxHeaders - 1 ≤ s.lastBlockNumber) :
    s.Learns (topOfHash n s.lastBlockNumber maxHeaders step) (s.canonical (n + step * maxHeaders - 1), maxHeaders) := by
  have hlast := hs.headed.lt
  unfold invalidNumber at hlast
  have hmul : step * maxHeaders ≤ 2 ^ 32 * 1024 := Nat.mul_le_mul hlt.le hmax
  rw [topOfHash, Nat.mod_eq_of_lt (by omega), if_neg (not_lt.2 hbelow), Nat.mod_eq_of_lt (by omega)]
  exact (hs.learns_numberHash hbelow).bind (.pure _)

/-! ### The answers -/

variable {blockId : BlockId H}

theorem learns_blockHeaders (hs : s.Served) {top num : Nat} (htop : top ≤ s.lastBlockNumber)
    (hskip : skip ≤ 2 ^ 32 - 2) (hstart : s.Learns (start blockId maxHeaders (skip + 1) reverse) (s.canonical top, num)) :
    s.Learns (blockHeaders blockId maxHeaders skip reverse)
      (cut ((if reverse then down (skip + 1) num top else (down (skip + 1) num top).reverse).map s.canonicalHeader) [],
        (down (skip + 1) num top).length) := by
  have hstep : (skip % 2 ^ 32 + 1) % 2 ^ 32 = skip + 1 := by omega
  rw [blockHeaders, hstep]
  dsimp only
  rw [if_neg (Nat.succ_ne_zero skip)]
  refine hstart.bind ((hs.learns_collect htop).bind ?_)
  have horder : (if reverse then (down (skip + 1) num top).map s.canonical else
      ((down (skip + 1) num top).map s.canonical).reverse) =
      (if reverse then down (skip + 1) num top else (down (skip + 1) num top).reverse).map s.canonical := by
    split
    · rfl
    · exact map_reverse.symm
  rw [horder, length_map]
  exact (learns_appendHeaders _ _).bind (.pure _)

theorem learns_blockHeaders_none {num : Nat} (hskip : skip ≤ 2 ^ 32 - 2)
    (hstart : s.Learns (start blockId maxHeaders (skip + 1) reverse) (0, num)) :
    s.Learns (blockHeaders blockId maxHeaders skip reverse) ([], 0) := by
  have hstep : (skip % 2 ^ 32 + 1) % 2 ^ 32 = skip + 1 := by omega
  rw [blockHeaders, hstep]
  dsimp only
  rw [if_neg (Nat.succ_ne_zero skip)]
  refine hstart.bind ((learns_collect_zero _ _).bind ?_)
  have hnil : (if reverse then ([] : List H) else [].reverse) = [].map s.canonical := by
    split <;> rfl
  rw [hnil]
  exact (learns_appendHeaders _ _).bind (.pure _)

/-- Down from the block itself -/
theorem learns_downwards (hs : s.Served) (hn : n ≤ s.lastBlockNumber) (hskip : skip ≤ 2 ^ 32 - 2)
    (hstart : s.Learns (start blockId maxHeaders (skip + 1) true) (s.canonical n, maxHeaders)) :
    s.Learns (blockHeaders blockId maxHeaders skip true) (s.rightAnswer n maxHeaders skip true) := by
  have hasked : s.askedHeights n maxHeaders (skip + 1) true = down (skip + 1) maxHeaders n := by
    rw [askedHeights, if_pos rfl, down_eq]
  rw [rightAnswer, hasked]
  exact hs.learns_blockHeaders hn hskip hstart

/-- Up to the top, where it is the right one -/
theorem learns_upwards (hs : s.Served) (hn : n ≤ s.lastBlockNumber) (hskip : skip ≤ 2 ^ 32 - 2)
    (hstart : s.Learns (start blockId maxHeaders (skip + 1) false)
      (s.canonical (n + (skip + 1) * (s.sent n maxHeaders (skip + 1) - 1)), s.sent n maxHeaders (skip + 1))) :
    s.Learns (blockHeaders blockId maxHeaders skip false) (s.rightAnswer n maxHeaders skip false) := by
  have hasked : s.askedHeights n maxHeaders (skip + 1) false =
      (down (skip + 1) (s.sent n maxHeaders (skip + 1)) (n + (skip + 1) * (s.sent n maxHeaders (skip + 1) - 1))).reverse := by
    rw [askedHeights_upwards hn (Nat.succ_pos skip), reverse_down]
  rw [rightAnswer, hasked, length_reverse]
  exact hs.learns_blockHeaders (mul_sent_le hn _ _) hskip hstart

theorem learns_nothing (hskip : skip ≤ 2 ^ 32 - 2) (hstart : s.Learns (start blockId 0 (skip + 1) reverse) (0, 0)) :
    s.Learns (blockHeaders blockId 0 skip reverse) (s.rightAnswer n 0 skip reverse) := by
  have hasked : s.askedHeights n 0 (skip + 1) reverse = [] := by
    rw [askedHeights]
    split <;> rfl
  rw [rightAnswer, hasked]
  exact learns_blockHeaders_none hskip hstart

section

variable (hs : s.Served) (hn : n ≤ s.lastBlockNumber) (hmax : maxHeaders ≤ maxHeadersToSend) (hskip : skip ≤ 2 ^ 32 - 2)
include hs hn hmax hskip

theorem learns_byNumber :
    s.Learns (blockHeaders (.number n) maxHeaders skip reverse) (s.rightAnswer n maxHeaders skip reverse) := by
  cases reverse with
  | true => exact hs.learns_downwards hn hskip (hs.learns_downOfNumber hn)
  | false =>
    rcases Nat.eq_zero_or_pos maxHeaders with rfl | hpos
    · refine learns_nothing hskip (.get fun t ht => ?_)
      rw [if_pos (.inr rfl)]
      exact .pure _
    · refine hs.learns_upwards hn hskip (.get fun t ht => ?_)
      rw [ht.number, if_neg (by omega)]
      exact hs.learns_topOfNumber hn hpos hmax (Nat.succ_pos _) (by omega)

/-- For a hash the top is only right if it does not matter, or if it is the one for a number too. -/
theorem learns_byHash
    (hright : reverse = true ∨ skip = 0 ∨ maxHeaders = 0 ∨ s.lastBlockNumber < n + (skip + 1) * maxHeaders - 1) :
    s.Learns (blockHeaders (.hash (s.canonical n)) maxHeaders skip reverse) (s.rightAnswer n maxHeaders skip reverse) := by
  cases reverse with
  | true => exact hs.learns_downwards hn hskip (hs.learns_downOfHash hn)
  | false =>
    rcases Nat.eq_zero_or_pos maxHeaders with rfl | hpos
    · exact learns_nothing hskip ((hs.learns_isKnown hn).bind ((learns_numberOf _).bind (.pure _)))
    · refine hs.learns_upwards hn hskip (hs.learns_upOfHash hn hpos ?_)
      by_cases habove : s.lastBlockNumber < n + (skip + 1) * maxHeaders - 1
      · exact hs.learns_topOfHash hn hmax (Nat.succ_pos _) (by omega) habove
      · obtain rfl : skip = 0 := by
          rcases hright with hright | hright | hright | hright
          · cases hright
          · exact hright
          · exact absurd hright hpos.ne'
          · exact absurd hright habove
        have hbelow : n + (0 + 1) * maxHeaders - 1 ≤ s.lastBlockNumber := not_lt.1 habove
        have hsent : s.sent n maxHeaders (0 + 1) = maxHeaders := if_neg (by omega)
        have htop : n + (0 + 1) * (maxHeaders - 1) = n + (0 + 1) * maxHeaders - 1 := by omega
        rw [hsent, htop]
        exact hs.learns_topOfHash_below hmax (by omega) hbelow

/-- For a hash that is not the top but one, all headers are those of the blocks before the ones that come next. -/
theorem learns_byHash_below (hpos : 0 < maxHeaders) (hbelow : n + (skip + 1) * maxHeaders - 1 ≤ s.lastBlockNumber) :
    s.Learns (blockHeaders (.hash (s.canonical n)) maxHeaders skip false)
      (cut (((List.range maxHeaders).map (n + skip + (skip + 1) * ·)).map s.canonicalHeader) [], maxHeaders) := by
  have hstart : s.Learns (start (.hash (s.canonical n)) maxHeaders (skip + 1) false)
      (s.canonical (n + (skip + 1) * maxHeaders - 1), maxHeaders) :=
    hs.learns_upOfHash hn hpos (hs.learns_topOfHash_below hmax (by omega) hbelow)
  have hsucc : (skip + 1) * maxHeaders = (skip + 1) * (maxHeaders - 1) + (skip + 1) := by
    rw [← Nat.mul_succ, Nat.succ_eq_add_one, Nat.sub_add_cancel hpos]
  have htop : n + (skip + 1) * maxHeaders - 1 = n + skip + (skip + 1) * (maxHeaders - 1) := by omega
  have hlength : (down (skip + 1) maxHeaders (n + skip + (skip + 1) * (maxHeaders - 1))).length = maxHeaders := by
    rw [← length_reverse, reverse_down, length_map, length_range]
  have hlearns := hs.learns_blockHeaders hbelow hskip hstart
  rwa [htop, if_neg (by simp), reverse_down, hlength] at hlearns

end

end Served

theorem Learns.eval {α : Type} {x : M H α} {a : α} (h : s.Learns x a) (hl : s.Listed) : eval x s = .ok a := by
  obtain ⟨u, hrun, -⟩ := h s (.refl hl)
  exact eval_of_eq_ok hrun

/-- What is sent in the end are the headers that are asked for, of the canonical blocks from the height `n` on. -/
def Answers (s : BlockChain H) (blockId : BlockId H) (n maxHeaders skip : Nat) (reverse : Bool) : Prop :=
  ∃ rlp itemCount, eval (blockHeaders blockId maxHeaders skip reverse) s = .ok (rlp, itemCount) ∧
    IsCut ((s.askedHeights n maxHeaders (skip + 1) reverse).map s.canonicalHeader) rlp

/-- The canonical block of the height `n` may be asked for in both ways. -/
structure Exact (s : BlockChain H) (n maxHeaders skip : Nat) (reverse : Bool) : Prop where
  byNumber : s.Answers (.number n) n maxHeaders skip reverse
  byHash : s.Answers (.hash (s.canonical n)) n maxHeaders skip reverse
  same : eval (blockHeaders (.hash (s.canonical n)) maxHeaders skip reverse) s =
    eval (blockHeaders (.number n) maxHeaders skip reverse) s

/-- The headers of the canonical blocks are items, of which no two are equal. -/
structure Headers (s : BlockChain H) : Prop where
  isItem : ∀ i ≤ s.lastBlockNumber, Rlp.IsItem (s.canonicalHeader i)
  injective : ∀ i ≤ s.lastBlockNumber, ∀ j ≤ s.lastBlockNumber, s.canonicalHeader i = s.canonicalHeader j → i = j

variable {maxHeaders skip : Nat} {reverse : Bool}

theorem answers_of_learns {blockId : BlockId H} (hs : s.Served)
    (h : s.Learns (blockHeaders blockId maxHeaders skip reverse) (s.rightAnswer n maxHeaders skip reverse)) :
    s.Answers blockId n maxHeaders skip reverse := ⟨_, _, h.eval hs.listed, isCut_cut _⟩

/-- With another block in the first place, the answer is another one. -/
theorem not_answers_byHash (hs : s.Served) (hd : s.Headers) (hn : n ≤ s.lastBlockNumber)
    (hmax : maxHeaders ≤ maxHeadersToSend) (hskip : skip ≤ 2 ^ 32 - 2) (hskips : 0 < skip) (hpos : 0 < maxHeaders)
    (hbelow : n + (skip + 1) * maxHeaders - 1 ≤ s.lastBlockNumber) :
    ¬s.Answers (.hash (s.canonical n)) n maxHeaders skip false := by
  rintro ⟨rlp, itemCount, hrun, hcut⟩
  rw [(hs.learns_byHash_below hn hmax hskip hpos hbelow).eval hs.listed] at hrun
  have hrlp := congrArg Prod.fst (Except.ok.inj hrun)
  have hcut' := isCut_cut (((List.range maxHeaders).map (n + skip + (skip + 1) * ·)).map s.canonicalHeader)
  rw [show cut _ [] = rlp from hrlp] at hcut'
  have hsucc : (skip + 1) * maxHeaders = (skip + 1) * (maxHeaders - 1) + (skip + 1) := by
    rw [← Nat.mul_succ, Nat.succ_eq_add_one, Nat.sub_add_cancel hpos]
  have hsent : s.sent n maxHeaders (skip + 1) = maxHeaders := if_neg (by omega)
  have hitems : ∀ m : Nat, m + (skip + 1) * (maxHeaders - 1) ≤ s.lastBlockNumber →
      ∀ p ∈ ((List.range maxHeaders).map (m + (skip + 1) * ·)).map s.canonicalHeader, Rlp.IsItem p := by
    intro m hm p hp
    rw [map_map] at hp
    obtain ⟨i, hi, rfl⟩ := mem_map.1 hp
    have hmul : (skip + 1) * i ≤ (skip + 1) * (maxHeaders - 1) :=
      Nat.mul_le_mul_left _ (Nat.le_sub_one_of_lt (mem_range.1 hi))
    have hle : m + (skip + 1) * i ≤ s.lastBlockNumber := by omega
    exact hd.isItem _ hle
  have hitems₁ := hitems n (by omega)
  have hitems₂ := hitems (n + skip) (by omega)
  rw [askedHeights_upwards hn (Nat.succ_pos skip), hsent] at hcut
  obtain ⟨k, rfl⟩ := Nat.exists_eq_succ_of_ne_zero hpos.ne'
  rw [range_succ_eq_map, map_cons, map_cons] at hcut hcut' hitems₁ hitems₂
  have hhead := hcut.head_eq hcut' hitems₁ hitems₂
  have hsame := hd.injective _ (by omega) _ (by omega) hhead
  omega

/-- All requests are answered exactly but those by a hash, upwards, that skip something and have a block above the last
header's. -/
theorem Served.answers_iff (hs : s.Served) (hd : s.Headers) (hn : n ≤ s.lastBlockNumber)
    (hmax : maxHeaders ≤ maxHeadersToSend)
    (hskip : skip ≤ 2 ^ 32 - 2) : s.Answers (.number n) n maxHeaders skip reverse ∧ (s.Exact n maxHeaders skip reverse ↔
      reverse = true ∨ skip = 0 ∨ maxHeaders = 0 ∨ s.lastBlockNumber < n + (skip + 1) * maxHeaders - 1) := by
  have hnumber : s.Learns (blockHeaders (.number n) maxHeaders skip reverse) (s.rightAnswer n maxHeaders skip reverse) :=
    hs.learns_byNumber hn hmax hskip
  refine ⟨answers_of_learns hs hnumber, fun hexact => ?_, fun hright => ?_⟩
  · by_contra hwrong
    rw [not_or, not_or, not_or, Bool.not_eq_true] at hwrong
    obtain ⟨rfl, hskips, hpos, hbelow⟩ := hwrong
    exact not_answers_byHash hs hd hn hmax hskip (Nat.pos_of_ne_zero hskips) (Nat.pos_of_ne_zero hpos) (not_lt.1 hbelow)
      hexact.byHash
  · have hhash := hs.learns_byHash hn hmax hskip hright
    exact ⟨answers_of_learns hs hnumber, answers_of_learns hs hhash, by rw [hhash.eval hs.listed, hnumber.eval hs.listed]⟩

/-! ### Runs -/

/-- The genesis block is the same, and it still has the parent that it had. -/
structure SameGenesis (s t : BlockChain H) : Prop where
  genesis : t.genesis = s.genesis
  parent : t.parentOf s.genesisHash = s.parentOf s.genesisHash

theorem Keeps.sameGenesis (h : s.Keeps t) : s.SameGenesis t := ⟨h.genesis, by rw [parentOf, parentOf, h.detailsOf]⟩

theorem Adds.sameGenesis {b : VerifiedBlockRef H} {pd d : BlockDetails H} {mustBeNew valid : Bool}
    (h : s.Adds b pd d t) (hs : s.Tree)
    (ha : s.Accepts b mustBeNew valid) (hfits : s.Fits b pd d) : s.SameGenesis t := by
  have hnode : t.node s.genesisHash = s.node s.genesisHash := hs.node_of_present ha h hfits (.inl rfl)
  exact ⟨h.genesis, (BlockDetails.mk.inj hnode).2.2.1⟩

theorem SameGenesis.trans (h : s.SameGenesis t) (h' : t.SameGenesis u) : s.SameGenesis u := by
  have hhash : t.genesisHash = s.genesisHash := by rw [genesisHash, genesisHash, h.genesis]
  exact ⟨h'.genesis.trans h.genesis, by rw [← h.parent, ← hhash, h'.parent]⟩

end BlockChain

namespace FullChain

variable [BlockLogs H] {s t : FullChain H}

theorem wp_rewind_sameGenesis (newHead : Nat) : wp (rewind newHead) (fun _ t => s.chain.SameGenesis t.chain)
    (fun _ t => s.chain.SameGenesis t.chain) s := by
  unfold rewind
  rw [wp_bind, wp_get, wp_ite]
  split
  · exact ⟨rfl, rfl⟩
  unfold clearCachesDuringChainReversion BlockChain.numberHash
  rw [wp_bind, wp_bind]
  refine wp_lift ?_
  rw [BlockChain.clearCachesDuringChainReversion, wp_modify, wp_modify, wp_bind]
  refine wp_lift ?_
  simp only [wp_bind, wp_get, wp_ite]
  split <;> exact ⟨rfl, rfl⟩

theorem wp_body_sameGenesis (hs : s.chain.Headed) (hl : s.chain.Listed) {e : Call H} (hcounted : s.Counted e) :
    wp (body e) (fun _ t => s.chain.SameGenesis t.chain) (fun _ t => s.chain.SameGenesis t.chain) s := by
  have hload : ∀ {t : FullChain H}, Loads s t → s.chain.SameGenesis t.chain := fun h =>
      (BlockChain.Keeps.of_loads h.chain).sameGenesis
  cases e with
  | import_ b mustBeNew valid =>
    refine wp_import_of hcounted hload fun hu ha hlt => ?_
    have hturns := hu.turns hs hl
    obtain ⟨t, n, bs, hrun, -, hadds⟩ := turns_insertBlockAndExtras hturns.headed hturns.listed ha hlt
    have hsame := (hload hu).trans (hadds.sameGenesis hturns.headed.tree ha (hturns.headed.tree.fits ha))
    exact ⟨t, hrun, hsame.genesis, hsame.parent⟩
  | insert b mustBeNew validReceipts valid =>
    refine (wp_bind _ _).2
      (wp_lift (wp_mono (BlockChain.wp_insert b mustBeNew validReceipts valid) ?_ fun _ c hc => hload ⟨hc, rfl⟩))
    rintro _ c ⟨ha, hinserts⟩
    obtain ⟨pd, hadds, hfits, -⟩ := hinserts.stores hs.unread
    exact hadds.sameGenesis hs.tree ha hfits
  | rewind newHead => exact wp_rewind_sameGenesis newHead
  | reopen => exact hcounted.elim
  | details x => exact wp_reads (BlockChain.reads_details x) (fun _ _ ht _ => hload ht) fun _ _ ht => hload ht
  | receipts x => exact ⟨rfl, rfl⟩
  | logBlooms x => exact ⟨rfl, rfl⟩
  | numberHash i =>
    refine (wp_bind _ _).2 (wp_lift ?_)
    unfold BlockChain.numberHash
    simp only [wp_bind, wp_get, wp_ite]
    split <;> exact ⟨rfl, rfl⟩
  | transactionLocation x =>
    refine (wp_bind _ _).2 (wp_lift ?_)
    unfold BlockChain.transactionLocation
    rw [wp_bind, wp_get, wp_bind, wp_set, wp_ite]
    split <;> exact ⟨rfl, rfl⟩
  | blocksBlooms id => exact ⟨rfl, rfl⟩

theorem Start.served (h : Start s) : s.chain.Served := by
  obtain ⟨hheaded, hlisted⟩ := h.headed
  refine ⟨hheaded, hlisted, ?_⟩
  have hget : s.chain.extraDetails.get s.chain.genesisHash = some ⟨0, s.chain.genesis.difficulty, 0, []⟩ := by
    rw [h.chain.opened]
    exact Cached.get_edit_self
  rw [BlockChain.parentOf, BlockChain.detailsOf, hget]
  rfl

/-- What a run comes to answers as it should. -/
theorem served_of_leads {es : List (Call H)} (hs : s.chain.Served) (hleads : Leads Counted s es t) : t.chain.Served := by
  induction hleads with
  | nil s => exact hs
  | cons hcounted hstep _ ih =>
    rename_i s t _ _ _ _
    obtain ⟨n, bs, ht⟩ := turns_of_step hs.headed hs.listed hcounted hstep
    have hsame : s.chain.SameGenesis t.chain :=
      of_step hcounted (wp_body_sameGenesis hs.headed hs.listed hcounted) (fun _ h => ⟨h.genesis, h.parent⟩) hstep
    have hhash : t.chain.genesisHash = s.chain.genesisHash := by
      rw [BlockChain.genesisHash, BlockChain.genesisHash, hsame.genesis]
    exact ih ⟨ht.headed, ht.listed, by rw [hhash, hsame.parent, hs.genesis]⟩

end FullChain

/-! ### The packet -/

variable {n : Nat}

/-- No other requests come to `blockHeaders`. -/
theorem le_of_readRequest {toHash : Bytes → H} {q : HeaderRequest H} {r r' : Rlp.RLP}
    (h : readRequest toHash r = .ok (some q) r') : q.maxHeaders ≤ maxHeadersToSend ∧ q.skip ≤ 2 ^ 32 - 2 := by
  obtain ⟨blockId, _, -, h⟩ := exists_of_bind_ok h
  obtain ⟨_, _, -, h⟩ := exists_of_bind_ok h
  obtain ⟨maxHeaders, _, -, h⟩ := exists_of_bind_ok h
  obtain ⟨_, _, -, h⟩ := exists_of_bind_ok h
  obtain ⟨skip, _, -, h⟩ := exists_of_bind_ok h
  obtain ⟨_, _, -, h⟩ := exists_of_bind_ok h
  obtain ⟨reverse, _, -, h⟩ := exists_of_bind_ok h
  dsimp only at h
  rw [run_ite] at h
  split at h
  · cases h
  · rename_i hskip
    obtain ⟨id, _, -, h⟩ := exists_of_bind_ok h
    cases h
    constructor
    · dsimp only
      split <;> omega
    · dsimp only
      omega

namespace FullChain

variable [BlockLogs H] {s t : FullChain H} {es : List (Call H)}

/-- In every state of a run in which no number is looked up that the chain does not have, all requests for canonical blocks
are answered exactly but those by a hash, upwards, that skip something and have a block above the last header's. -/
theorem exact_iff (h : Start s) (hl : Leads Counted s es t) (hd : t.chain.Headers) (hn : n ≤ t.chain.lastBlockNumber) :
    (∀ {toHash : Bytes → H} {q : HeaderRequest H} {r r' : Rlp.RLP}, readRequest toHash r = .ok (some q) r' →
      q.blockId = .number n → t.chain.Answers q.blockId n q.maxHeaders q.skip q.reverse) ∧
    ∀ maxHeaders ≤ maxHeadersToSend, ∀ skip ≤ 2 ^ 32 - 2, ∀ reverse, t.chain.Answers (.number n) n maxHeaders skip reverse ∧
      (t.chain.Exact n maxHeaders skip reverse ↔
        reverse = true ∨ skip = 0 ∨ maxHeaders = 0 ∨ t.chain.lastBlockNumber < n + (skip + 1) * maxHeaders - 1) := by
  have hserved := served_of_leads h.served hl
  refine ⟨fun {toHash q r r'} hread hid => ?_, fun maxHeaders hmax skip hskip reverse => hserved.answers_iff hd hn hmax hskip⟩
  obtain ⟨hmax, hskip⟩ := le_of_readRequest hread
  rw [hid]
  exact (hserved.answers_iff hd hn hmax hskip).1

end FullChain

/-! ### Three blocks -/

namespace Numbered

instance : HeaderData Nat := ⟨fun b => [UInt8.ofNat b.number]⟩

end Numbered

namespace FullChain

open Numbered

/-- The genesis block, a block and its child -/
theorem exists_three : ∃ t, fullyOpened.run (twoImports.map .call) = some t ∧ t.chain.Headers ∧
    t.chain.lastBlockNumber = 2 := by
  have hrun : ∃ t, fullyOpened.run (twoImports.map .call) = some t ∧ t.chain.lastBlockNumber = 2 ∧
      ∀ i ≤ 2, t.chain.canonicalHeader i = [UInt8.ofNat i] := by
    decide +kernel
  obtain ⟨t, ht, hnumber, hheader⟩ := hrun
  refine ⟨t, ht, ⟨fun i hi => ?_, fun i hi j hj h => ?_⟩, hnumber⟩
  · rw [hnumber] at hi
    rw [hheader i hi]
    interval_cases i
    · exact .data [0] (by decide)
    · exact .data [1] (by decide)
    · exact .data [2] (by decide)
  · rw [hnumber] at hi hj
    rw [hheader i hi, hheader j hj] at h
    interval_cases i <;> interval_cases j <;> simp_all

/-- Asked by its hash for the genesis block and the block after the next one, the chain answers with both. -/
theorem exact_three : ∃ t, fullyOpened.run (twoImports.map .call) = some t ∧ t.chain.Exact 0 2 1 false := by
  obtain ⟨t, ht, hheaders, hnumber⟩ := exists_three
  refine ⟨t, ht, (((exact_iff start_fullyOpened (leads_twoImports ht) hheaders (Nat.zero_le _)).2 2 (by decide) 1
    (by decide) false).2).2 ?_⟩
  rw [hnumber]
  decide

/-- Asked for the genesis block only, with something to be skipped, it answers with the one after it. -/
theorem not_exact : ¬∀ (H : Type) [DecidableEq H] [BlockSha3 H] [HeaderData H] [BlockLogs H]
    (s t : FullChain H) (es : List (Call H)) (n maxHeaders skip : Nat) (reverse : Bool), Start s → Leads Counted s es t →
    t.chain.Headers → n ≤ t.chain.lastBlockNumber → maxHeaders ≤ maxHeadersToSend → skip ≤ 2 ^ 32 - 2 →
    t.chain.Exact n maxHeaders skip reverse := by
  intro h
  obtain ⟨t, ht, hheaders, hnumber⟩ := exists_three
  have hleads := leads_twoImports ht
  have hexact := h Nat _ t _ 0 1 1 false start_fullyOpened hleads hheaders (Nat.zero_le _) (by decide) (by decide)
  refine BlockChain.not_answers_byHash (served_of_leads start_fullyOpened.served hleads) hheaders (Nat.zero_le _) (by decide)
    (by decide) Nat.one_pos Nat.one_pos ?_ hexact.byHash
  rw [hnumber]
  decide

end FullChain

end Kmdx.Chain
