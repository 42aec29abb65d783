import Kmdx.Chain.BlockBlooms
import Kmdx.Receipts.Coding

/-!
# The search for logs (`libwing/LogFilter.cpp`, `ClientBase::logs`)

A query searches the index for blooms that a block with such a log could have. The alternatives for a topic all go into one
bloom, so a block is missed if it has only some of them at each position. Which filters never miss any is told by the filter
alone (`searches_iff`).
-/

namespace Kmdx

open Chain P2p Receipts Wp List
open Rlp (FixedHash hashBytes)

/-! ### Filters -/

namespace Receipts.LogFilter

variable (sha3 : Bytes → FixedHash 32)

/-- The topics at a position, shifted into a bloom -/
def shiftTopics (f : LogFilter) (b : LogBloom) (t : Fin 4) : LogBloom :=
  (f.topics t).foldl (fun b j => shiftBloom b (sha3 (hashBytes 32 j))) b

def bloomPossibilities (f : LogFilter) : List LogBloom :=
  let positions := (List.finRange 4).filter fun t => !(f.topics t).isEmpty
  -- | every address with every topic
  let ret := f.addresses.flatMap fun i => positions.map (f.shiftTopics sha3 (shiftBloom 0 (sha3 (hashBytes 20 i))))
  -- 2nd case, there are no topics
  let ret := if ret.isEmpty then f.addresses.map fun i => shiftBloom 0 (sha3 (hashBytes 20 i)) else ret
  -- 3rd case, there are no addresses, at least create blooms from topics
  if f.addresses.isEmpty then ret ++ positions.map (f.shiftTopics sha3 0) else ret

end Receipts.LogFilter

/-! ### Blooms that a block could have -/

namespace Receipts.LogFilter

variable {f : LogFilter} {e : LogEntry} {bloom b : LogBloom} {sha3 : Bytes → FixedHash 32}

/-- Whichever alternatives a log has, at some position it has them all. -/
def Decisive (f : LogFilter) : Prop :=
  (∀ i, f.topics i = []) ∨ ∀ choice : Fin 4 → U256, (∀ i, f.topics i ≠ [] → choice i ∈ f.topics i) →
    ∃ i, f.topics i ≠ [] ∧ ∀ t ∈ f.topics i, ∃ j, f.topics j ≠ [] ∧ choice j = t

theorem isRangeFilter_iff : f.isRangeFilter = true ↔ f.addresses = [] ∧ ∀ i, f.topics i = [] := by
  rw [isRangeFilter, Bool.and_eq_true, List.isEmpty_iff, all_eq_true]
  exact and_congr_right fun _ => ⟨fun h i => List.isEmpty_iff.1 (h i (mem_finRange i)), fun h i _ => List.isEmpty_iff.2 (h i)⟩

theorem contains_or_iff {x y : LogBloom} : Contains bloom (x ||| y) ↔ Contains bloom x ∧ Contains bloom y := by
  constructor
  · intro h
    exact ⟨h.trans (contains_or_left x y), h.trans (contains_or_right x y)⟩
  · rintro ⟨hx, hy⟩
    rw [Contains, BitVec.and_or_distrib_left, hx, hy]

theorem contains_shiftTopics {t : Fin 4} : Contains bloom (f.shiftTopics sha3 b t) ↔
    Contains bloom b ∧ ∀ j ∈ f.topics t, containsBloom bloom (sha3 (hashBytes 32 j)) = true := by
  rw [shiftTopics]
  generalize f.topics t = topics
  induction topics generalizing b with
  | nil => simp
  | cons j topics ih =>
    rw [foldl_cons, ih, forall_mem_cons, shiftBloom, contains_or_iff, and_assoc]
    refine and_congr_right fun _ => and_congr_left fun _ => ?_
    rw [containsBloom, decide_eq_true_iff]

/-- The positions with topics -/
theorem mem_positions {i : Fin 4} : (i ∈ (List.finRange 4).filter fun t => !(f.topics t).isEmpty) ↔ f.topics i ≠ [] := by
  rw [mem_filter, and_iff_right (mem_finRange i), Bool.not_eq_true', ← Bool.not_eq_true, List.isEmpty_iff]

theorem positions_eq_nil_iff : ((List.finRange 4).filter fun t => !(f.topics t).isEmpty) = [] ↔ ∀ i, f.topics i = [] := by
  rw [eq_nil_iff_forall_not_mem]
  exact forall_congr' fun i => by rw [mem_positions, not_not]

/-- What the topics are shifted into -/
def starts (f : LogFilter) (sha3 : Bytes → FixedHash 32) : List LogBloom :=
  if f.addresses = [] then [0] else f.addresses.map fun i => shiftBloom 0 (sha3 (hashBytes 20 i))

/-- Each is of the topics at one position, with an address if there are any. -/
theorem mem_bloomPossibilities : b ∈ f.bloomPossibilities sha3 ↔ ∃ start ∈ f.starts sha3,
    (∃ i, f.topics i ≠ [] ∧ b = f.shiftTopics sha3 start i) ∨ (∀ i, f.topics i = []) ∧ f.addresses ≠ [] ∧ b = start := by
  have hall := positions_eq_nil_iff (f := f)
  have hmap : ∀ g : Fin 4 → LogBloom, b ∈ ((List.finRange 4).filter fun t => !(f.topics t).isEmpty).map g ↔
      ∃ i, f.topics i ≠ [] ∧ b = g i := by
    intro g
    rw [mem_map]
    exact exists_congr fun i => by rw [mem_positions, eq_comm]
  rw [bloomPossibilities, starts]
  generalize (List.finRange 4).filter (fun t => !(f.topics t).isEmpty) = positions at hall hmap
  by_cases haddresses : f.addresses = []
  · simp [haddresses, hmap]
  have hsome : ¬f.addresses.isEmpty = true := mt List.isEmpty_iff.1 haddresses
  have hempty : (f.addresses.flatMap fun i => positions.map
      (f.shiftTopics sha3 (shiftBloom 0 (sha3 (hashBytes 20 i))))).isEmpty = positions.isEmpty := by
    obtain ⟨a, ha⟩ := exists_mem_of_ne_nil _ haddresses
    rw [Bool.eq_iff_iff, List.isEmpty_iff, List.isEmpty_iff, flatMap_eq_nil_iff]
    simp only [map_eq_nil_iff]
    exact ⟨fun h => h a ha, fun h _ _ => h⟩
  simp only [if_neg hsome, if_neg haddresses, hempty, mem_map, exists_exists_and_eq_and]
  split
  · rename_i hpositions
    have hnone := hall.1 (List.isEmpty_iff.1 hpositions)
    rw [mem_map]
    refine exists_congr fun a => and_congr_right fun _ => ?_
    rw [or_iff_right fun ⟨i, hi, _⟩ => hi (hnone i), and_iff_right hnone, and_iff_right haddresses, eq_comm]
  · rename_i hpositions
    rw [mem_flatMap]
    refine exists_congr fun a => and_congr_right fun _ => ?_
    rw [hmap, or_iff_left fun h => hpositions (List.isEmpty_iff.2 (hall.2 h.1))]

/-- A block with a log that is looked for is found, if the filter is decisive. -/
theorem Decisive.exists_contains (h : f.Decisive) (hrange : f.isRangeFilter = false) (he : f.Matches e)
    (hbloom : Contains bloom (e.bloom sha3)) : ∃ b ∈ f.bloomPossibilities sha3, Contains bloom b := by
  have hstart : ∃ start ∈ f.starts sha3, Contains bloom start := by
    rw [starts]
    by_cases haddresses : f.addresses = []
    · rw [if_pos haddresses]
      exact ⟨0, mem_singleton_self 0, contains_zero _⟩
    · rw [if_neg haddresses]
      refine ⟨_, mem_map_of_mem (he.address.resolve_left haddresses), ?_⟩
      rw [shiftBloom, contains_or_iff]
      exact ⟨contains_zero _, of_decide_eq_true (containsBloom_of_contains hbloom (containsBloom_address e))⟩
  obtain ⟨start, hmem, hstart⟩ := hstart
  by_cases hnone : ∀ i, f.topics i = []
  · have hne : f.addresses ≠ [] := fun hempty => Bool.false_ne_true (hrange.symm.trans (isRangeFilter_iff.2 ⟨hempty, hnone⟩))
    exact ⟨_, mem_bloomPossibilities.2 ⟨start, hmem, .inr ⟨hnone, hne, rfl⟩⟩, hstart⟩
  -- The log has chosen one alternative at each position.
  have hchoice : ∀ i, f.topics i ≠ [] → e.topics.getD i 0 ∈ f.topics i ∧ e.topics.getD i 0 ∈ e.topics := by
    intro i hi
    obtain ⟨t, ht, hmem⟩ := (he.topics i).resolve_left hi
    rw [List.getD_eq_getElem?_getD, ht]
    exact ⟨hmem, List.mem_of_getElem? ht⟩
  obtain ⟨i, hi, hcovered⟩ := h.resolve_left hnone (fun i => e.topics.getD i 0) fun i hi => (hchoice i hi).1
  have htopics : ∀ t ∈ f.topics i, containsBloom bloom (sha3 (hashBytes 32 t)) = true := by
    intro t ht
    obtain ⟨j, hj, rfl⟩ := hcovered t ht
    exact containsBloom_of_contains hbloom (containsBloom_topic (hchoice j hj).2)
  exact ⟨_, mem_bloomPossibilities.2 ⟨start, hmem, .inl ⟨i, hi, rfl⟩⟩, contains_shiftTopics.2 ⟨hstart, htopics⟩⟩

/-! ### A log that is missed -/

theorem contains_bloom_iff : Contains bloom (e.bloom sha3) ↔
    containsBloom bloom (sha3 (hashBytes 20 e.address)) = true ∧ ∀ t ∈ e.topics,
      containsBloom bloom (sha3 (hashBytes 32 t)) = true := by
  refine ⟨fun h => ⟨containsBloom_of_contains h (containsBloom_address e),
    fun t ht => containsBloom_of_contains h (containsBloom_topic ht)⟩, ?_⟩
  rintro ⟨haddress, htopics⟩
  -- The bloom of a log is that of a position with its topics.
  have hshift : Contains bloom
      (shiftTopics sha3 { topics := fun _ => e.topics } (shiftBloom 0 (sha3 (hashBytes 20 e.address))) 0) :=
    contains_shiftTopics.2 ⟨?_, htopics⟩
  · exact hshift
  · exact contains_or_iff.2 ⟨contains_zero _, of_decide_eq_true haddress⟩

/-- A hash with another bit than 0 -/
def oddHash : FixedHash 32 := 0x000100010001 <<< 208

theorem containsBloom_zero : containsBloom 1 0 = true := by decide +kernel

theorem not_containsBloom_oddHash : containsBloom 1 oddHash = false := by decide +kernel

/-- The bit 0 for what is in the log, and another one for the rest -/
def ownBit (e : LogEntry) (b : Bytes) : FixedHash 32 :=
  if b = hashBytes 20 e.address ∨ b ∈ e.topics.map (hashBytes 32) then 0 else oddHash

theorem contains_ownBit (e : LogEntry) : Contains 1 (e.bloom (ownBit e)) := by
  refine contains_bloom_iff.2 ⟨?_, fun t ht => ?_⟩
  · rw [ownBit, if_pos (.inl rfl), containsBloom_zero]
  · rw [ownBit, if_pos (.inr (mem_map_of_mem ht)), containsBloom_zero]

theorem ownBit_other {t : U256} (ht : t ∉ e.topics) : ownBit e (hashBytes 32 t) = oddHash := by
  refine if_neg ?_
  rintro (heq | hmem)
  · have hlength := congrArg List.length heq
    rw [length_hashBytes, length_hashBytes] at hlength
    cases hlength
  · obtain ⟨t', ht', heq⟩ := mem_map.1 hmem
    rw [← ofRef_hashBytes t', heq, ofRef_hashBytes] at ht'
    exact ht ht'

theorem exists_missed (hf : ¬f.Decisive) : ∃ (sha3 : Bytes → FixedHash 32) (e : LogEntry), f.Matches e ∧
    Contains 1 (e.bloom sha3) ∧ f.isRangeFilter = false ∧ ∀ b ∈ f.bloomPossibilities sha3, ¬Contains 1 b := by
  rw [Decisive, not_or, not_forall] at hf
  obtain ⟨⟨j₀, hj₀⟩, hf⟩ := hf
  push Not at hf
  obtain ⟨choice, hchoice, hother⟩ := hf
  have hrange : f.isRangeFilter = false := by
    rw [← Bool.not_eq_true, isRangeFilter_iff]
    exact fun h => hj₀ (h.2 j₀)
  let topic : Fin 4 → U256 := fun j => if f.topics j = [] then choice j₀ else choice j
  let entry : LogEntry := ⟨f.addresses.headD 0, List.ofFn topic, []⟩
  refine ⟨ownBit entry, entry, ⟨?_, fun i => ?_⟩, contains_ownBit entry, hrange, ?_⟩
  · cases haddresses : f.addresses with
    | nil => exact .inl rfl
    | cons a as => exact .inr (by simp [entry, haddresses])
  · by_cases hi : f.topics i = []
    · exact .inl hi
    · have heq : topic i = choice i := if_neg hi
      refine .inr ⟨choice i, ?_, hchoice i hi⟩
      rw [List.getElem?_ofFn, dif_pos i.isLt, Fin.eta, heq]
  · intro b hb hcontains
    obtain ⟨start, -, ⟨i, hi, rfl⟩ | ⟨hnone, -⟩⟩ := mem_bloomPossibilities.1 hb
    swap
    · exact hj₀ (hnone j₀)
    -- At this position there is a topic that the log has not chosen.
    obtain ⟨t, ht, hnot⟩ := hother i hi
    have hother : t ∉ entry.topics := by
      intro hmem
      obtain ⟨j, rfl⟩ := (mem_ofFn' _ _).1 hmem
      by_cases hj : f.topics j = []
      · exact hnot j₀ hj₀ (if_pos hj).symm
      · exact hnot j hj (if_neg hj).symm
    have hcontained := (contains_shiftTopics.1 hcontains).2 t ht
    rw [ownBit_other hother, not_containsBloom_oddHash] at hcontained
    cases hcontained

end Receipts.LogFilter

/-! ### The search -/

namespace ClientBase

open FullChain

set_option linter.unusedSectionVars false

variable {H : Type} [DecidableEq H] [BlockSha3 H] [BlockLogs H]

/-- The blocks of the main chain that a query looks at -/
def matchingBlocks (sha3 : Bytes → FixedHash 32) (f : LogFilter) (first last : Nat) : FM H (Finset Nat) :=
  if !f.isRangeFilter then
    (f.bloomPossibilities sha3).foldlM (fun blocks i => do
      let us ← withBlockBloom i first last
      return blocks ∪ us.toFinset) ∅
  -- if it is a range filter, we want to get all logs from all blocks in given range
  else return (List.range' first (last + 1 - first)).toFinset

variable {s : FullChain H} {last n : Nat}

theorem finds_union (first last : Nat) (bs : List LogBloom) (blocks : Finset Nat) :
    Finds (bs.foldlM (fun blocks i => do
      let us ← (withBlockBloom i first last : FM H (List Nat))
      return blocks ∪ us.toFinset) blocks)
        (bs.foldl (fun blocks i => blocks ∪ (found s.extraBlocksBlooms i first last).toFinset) blocks) s := by
  induction bs generalizing s blocks with
  | nil => exact .pure _
  | cons b bs ih =>
    rw [foldlM_cons, foldl_cons]
    have hhead : Finds (do
        let us ← (withBlockBloom b first last : FM H (List Nat))
        return blocks ∪ us.toFinset) (blocks ∪ (found s.extraBlocksBlooms b first last).toFinset) s :=
      (finds_withBlockBloom b first last).bind fun _ _ => .pure _
    refine hhead.bind fun c hc => ?_
    have hfound : ∀ i, found c i first last = found s.extraBlocksBlooms i first last := fun i =>
      flatMap_congr fun index _ => foundIn_congr hc _ index
    have hrest := ih (s := { s with extraBlocksBlooms := c }) (blocks ∪ (found s.extraBlocksBlooms b first last).toFinset)
    simp only [hfound] at hrest
    exact hrest

theorem mem_foldl_union {α : Type} (g : α → Finset Nat) (l : List α) (blocks : Finset Nat) :
    n ∈ l.foldl (fun blocks a => blocks ∪ g a) blocks ↔ n ∈ blocks ∨ ∃ a ∈ l, n ∈ g a := by
  induction l generalizing blocks with
  | nil => simp
  | cons a l ih => rw [foldl_cons, ih, Finset.mem_union, exists_mem_cons_iff, or_assoc]

/-- Up to the last block, those are found whose bloom has one of the possibilities. -/
theorem exists_matchingBlocks (sha3 : Bytes → FixedHash 32) (f : LogFilter) (first : Nat)
    (hs : s.chain.Headed) (hb : s.Bloomed) (hl : last ≤ s.chain.lastBlockNumber) (hmax : last ≤ 2 ^ 32 - 256) :
    ∃ blocks, eval (matchingBlocks sha3 f first last) s = .ok blocks ∧ ∀ n ≤ last, ∀ tbi,
      s.chain.canonicalBlock n = some tbi →
      (n ∈ blocks ↔ first ≤ n ∧ (f.isRangeFilter = false → ∃ b ∈ f.bloomPossibilities sha3,
        Contains (indexBloom tbi) b)) := by
  rw [matchingBlocks]
  cases hrange : f.isRangeFilter with
  | false =>
    rw [Bool.not_false, if_pos rfl]
    obtain ⟨c, -, hrun⟩ := finds_union (s := s) first last (f.bloomPossibilities sha3) ∅
    refine ⟨_, eval_of_eq_ok hrun, fun n hn tbi htbi => ?_⟩
    obtain ⟨tbi', htbi', hbloom⟩ := hb.bloomAt_eq hs (hn.trans hl)
    cases htbi'.symm.trans htbi
    rw [mem_foldl_union, or_iff_right (Finset.notMem_empty n), ← hbloom]
    have hmem : ∀ b, n ∈ (found s.extraBlocksBlooms b first last).toFinset ↔ first ≤ n ∧
        Contains (bloomAt s.extraBlocksBlooms 0 n) b :=
      fun b => mem_toFinset.trans (mem_found hb.covers hmax hn)
    simp only [hmem, forall_const]
    exact ⟨fun ⟨b, hb, hle, hcontains⟩ => ⟨hle, b, hb, hcontains⟩, fun ⟨hle, b, hb, hcontains⟩ => ⟨b, hb, hle, hcontains⟩⟩
  | true =>
    have hnot : ¬(!true) = true := Bool.false_ne_true
    rw [if_neg hnot]
    refine ⟨_, rfl, fun n hn _ _ => ?_⟩
    rw [mem_toFinset, mem_range'_1, and_iff_left fun h => by cases h]
    omega

open Numbered

/-- Every block has one bit in its bloom. -/
@[reducible] def oneBit : BlockLogs Nat := ⟨fun _ => 1, fun _ => 1, fun _ => []⟩

/-- In every state that a run reaches, a query looks at each block whose bloom has that of a log that is asked for, exactly if
the filter is decisive. -/
theorem searches_iff (f : LogFilter) :
    (∀ (H : Type) [DecidableEq H] [BlockSha3 H] [BlockLogs H] (sha3 : Bytes → FixedHash 32) (s t : FullChain H)
    (es : List (Call H)),
      Start s → Leads Counted s es t → ∀ first last, first ≤ last → last ≤ t.chain.lastBlockNumber → last ≤ 2 ^ 32 - 256 →
      ∃ blocks, eval (matchingBlocks sha3 f first last) t = .ok blocks ∧ ∀ n tbi e, first ≤ n → n ≤ last →
        t.chain.canonicalBlock n = some tbi → f.matchesEntry e = some true → Contains (indexBloom tbi) (e.bloom sha3) →
          n ∈ blocks) ↔ f.Decisive := by
  constructor
  · intro h
    by_contra hf
    obtain ⟨sha3, entry, hmatches, hbloom, hrange, hmissed⟩ := LogFilter.exists_missed hf
    let := oneBit
    have hrun : ∃ t, fullyOpened.step (.import_ (child genesisBlock 1) true true) = some t ∧ t.chain.lastBlockNumber = 1 ∧
        t.chain.canonicalBlock 1 = some (child genesisBlock 1) := by
      decide +kernel
    obtain ⟨t, ht, hnumber, htbi⟩ := hrun
    have hleads : Leads Counted fullyOpened [.import_ (child genesisBlock 1) true true] t := .cons
        (by change _ ≠ _; decide) ht (.nil t)
    obtain ⟨blocks, hblocks, hfound⟩ := h Nat sha3 fullyOpened t _ start_fullyOpened hleads 1 1 le_rfl hnumber.ge (by decide)
    obtain ⟨hheaded, hbloomed⟩ := bloomed_of_leads start_fullyOpened.headed.1 start_fullyOpened.headed.2
        start_fullyOpened.bloomed hleads
    obtain ⟨blocks', hblocks', hmem⟩ := exists_matchingBlocks sha3 f 1 hheaded hbloomed hnumber.ge (by decide)
    cases hblocks.symm.trans hblocks'
    have hindex : indexBloom (child genesisBlock 1) = 1 := BitVec.or_self
    rw [← hindex] at hbloom
    obtain ⟨-, hexists⟩ := (hmem 1 le_rfl _ htbi).1
        (hfound 1 _ entry le_rfl le_rfl htbi (LogFilter.matchesEntry_eq_some_true_iff.2 hmatches) hbloom)
    obtain ⟨b, hb, hcontains⟩ := hexists hrange
    exact hmissed b hb (hindex ▸ hcontains)
  · intro hf H _ _ _ sha3 s t es hstart hleads first last _ hl hmax
    obtain ⟨hheaded, hbloomed⟩ := bloomed_of_leads hstart.headed.1 hstart.headed.2 hstart.bloomed hleads
    obtain ⟨blocks, hblocks, hmem⟩ := exists_matchingBlocks sha3 f first hheaded hbloomed hl hmax
    refine ⟨blocks, hblocks, fun n tbi e hfirst hn htbi hmatches hbloom => ?_⟩
    refine (hmem n hn tbi htbi).2 ⟨hfirst, fun hrange => ?_⟩
    exact hf.exists_contains hrange (LogFilter.matchesEntry_eq_some_true_iff.1 hmatches) hbloom

end ClientBase

end Kmdx
