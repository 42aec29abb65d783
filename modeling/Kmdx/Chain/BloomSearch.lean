import Kmdx.Chain.BloomIndex

/-!
# The search for a bloom (`libwing/BlockChain.cpp`)

From the chunks of the highest level down, where the bloom of a chunk contains what is searched for. If the chunks cover their
blocks, every block that does is found, and in order (`mem_found`, `sorted_found`). The last chunks are searched too far.
-/

namespace Kmdx.Chain

open Wp Cached List

set_option linter.unusedSectionVars false

/-- `c_bloomIndexLevels` -/
def bloomIndexLevels : Nat := 2

def upow (a : Nat) : Nat → Nat
  | 0 => 1
  | b + 1 => (fun a => a * a % 2 ^ 32)^[b] a

def ceilDiv (n d : Nat) : Nat := (n + d - 1) % 2 ^ 32 / d

/-- The items of the chunk that are searched, and contain `b`. -/
def matching (b : LogBloom) (earliest latest level index : Nat) (bb : BlocksBlooms) : List Nat :=
  let uCourse := upow bloomIndexSize (level + 1)
  let uFine := upow bloomIndexSize level
  let obegin := if index = earliest / uCourse then earliest / uFine % bloomIndexSize else 0
  let oend := if index = latest / uCourse then latest / uFine % bloomIndexSize + 1 else bloomIndexSize
  ((List.range' obegin (oend - obegin)).filter fun o => Contains (bb (bloomOffset o)) b).map fun o =>
    (o + index * bloomIndexSize) % 2 ^ 32

variable {H : Type} [DecidableEq H] [BlockSha3 H] [BlockLogs H]

namespace FullChain

/-- `ret += f(item)`, for all of them -/
def concat (f : Nat → FM H (List Nat)) : List Nat → FM H (List Nat)
  | [] => return []
  | item :: items => do
    let ret ← f item
    return ret ++ (← concat f items)

/-- `withBlockBloom`, from a chunk of the level down -/
def withBlockBloomIn (b : LogBloom) (earliest latest : Nat) : Nat → Nat → FM H (List Nat)
  | 0, index => do
    let bb ← blocksBlooms (chunkId 0 index)
    return matching b earliest latest 0 index bb
  -- This level has something like what we want.
  | level + 1, index => do
    let bb ← blocksBlooms (chunkId (level + 1) index)
    concat (withBlockBloomIn b earliest latest level) (matching b earliest latest (level + 1) index bb)

def withBlockBloom (b : LogBloom) (earliest latest : Nat) : FM H (List Nat) :=
  -- start from the top-level
  let u := upow bloomIndexSize bloomIndexLevels
  concat (withBlockBloomIn b earliest latest (bloomIndexLevels - 1))
    (List.range' (earliest / u) (ceilDiv latest u + 1 - earliest / u))

end FullChain

/-! ### What is found -/

/-- What `withBlockBloom` answers from a chunk. -/
def foundIn (c : Cached Nat BlocksBlooms) (b : LogBloom) (earliest latest : Nat) : Nat → Nat → List Nat
  | 0, index => matching b earliest latest 0 index (bloomsAt c (chunkId 0 index))
  | level + 1, index =>
    (matching b earliest latest (level + 1) index (bloomsAt c (chunkId (level + 1) index))).flatMap
      (foundIn c b earliest latest level)

def found (c : Cached Nat BlocksBlooms) (b : LogBloom) (earliest latest : Nat) : List Nat :=
  let u := upow bloomIndexSize bloomIndexLevels
  (List.range' (earliest / u) (ceilDiv latest u + 1 - earliest / u)).flatMap
    (foundIn c b earliest latest (bloomIndexLevels - 1))

namespace FullChain

variable {s : FullChain H} {b : LogBloom} {earliest latest : Nat}

/-- `x` returns `a`, and only loads blooms. -/
def Finds {α : Type} (x : FM H α) (a : α) (s : FullChain H) : Prop :=
  ∃ c, (∀ id, bloomsAt c id = bloomsAt s.extraBlocksBlooms id) ∧ x s = .ok a { s with extraBlocksBlooms := c }

theorem finds_blocksBlooms (id : Nat) : Finds (blocksBlooms id) (bloomsAt s.extraBlocksBlooms id) s :=
  ⟨s.extraBlocksBlooms.query id, bloomsAt_query _ _, rfl⟩

theorem Finds.bind {α β : Type} {x : FM H α} {f : α → FM H β} {a : α} {b : β} (hx : Finds x a s)
    (hf : ∀ c, (∀ id, bloomsAt c id = bloomsAt s.extraBlocksBlooms id) → Finds (f a) b { s with extraBlocksBlooms := c }) :
    Finds (x >>= f) b s := by
  obtain ⟨c, hc, hrun⟩ := hx
  obtain ⟨d, hd, hrun'⟩ := hf c hc
  refine ⟨d, fun id => (hd id).trans (hc id), ?_⟩
  rw [run_bind, hrun]
  exact hrun'

theorem Finds.pure {α : Type} (a : α) : Finds (pure a) a s := ⟨s.extraBlocksBlooms, fun _ => rfl, rfl⟩

theorem finds_concat {f : Nat → FM H (List Nat)} {g : Nat → List Nat} (items : List Nat)
    (hf : ∀ item c, (∀ id, bloomsAt c id = bloomsAt s.extraBlocksBlooms id) →
      Finds (f item) (g item) { s with extraBlocksBlooms := c }) :
    Finds (concat f items) (items.flatMap g) s := by
  induction items generalizing s with
  | nil => exact .pure _
  | cons item items ih =>
    refine (hf item s.extraBlocksBlooms fun _ => rfl).bind fun c hc => ?_
    refine (ih (s := { s with extraBlocksBlooms := c }) fun item d hd => ?_).bind fun d hd => ?_
    · exact hf item d fun id => (hd id).trans (hc id)
    · rw [flatMap_cons]
      exact .pure _

theorem foundIn_congr {c d : Cached Nat BlocksBlooms} (h : ∀ id, bloomsAt d id = bloomsAt c id) (level index : Nat) :
    foundIn d b earliest latest level index = foundIn c b earliest latest level index := by
  induction level generalizing index with
  | zero => rw [foundIn, foundIn, h]
  | succ level ih =>
    rw [foundIn, foundIn, h]
    exact flatMap_congr fun item _ => ih item

theorem finds_withBlockBloomIn (level index : Nat) :
    Finds (withBlockBloomIn b earliest latest level index) (foundIn s.extraBlocksBlooms b earliest latest level index) s := by
  induction level generalizing s index with
  | zero => exact (finds_blocksBlooms _).bind fun c _ => .pure _
  | succ level ih =>
    refine (finds_blocksBlooms _).bind fun c hc => ?_
    refine finds_concat (s := { s with extraBlocksBlooms := c }) _ fun item d hd => ?_
    rw [← foundIn_congr (d := d) fun id => (hd id).trans (hc id)]
    exact ih item

theorem finds_withBlockBloom (b : LogBloom) (earliest latest : Nat) :
    Finds (withBlockBloom b earliest latest) (found s.extraBlocksBlooms b earliest latest) s := by
  refine finds_concat _ fun item d hd => ?_
  rw [← foundIn_congr hd]
  exact finds_withBlockBloomIn _ item

end FullChain

/-! ### The items of a chunk -/

variable {c : Cached Nat BlocksBlooms} {b : LogBloom} {earliest latest level index n e l : Nat} {bb : BlocksBlooms}

/-- The first and the last item of the level that are searched are `e` and `l`. -/
theorem mem_matching (hfine : earliest / upow bloomIndexSize level = e) (hfine' : latest / upow bloomIndexSize level = l)
    (hcourse : earliest / upow bloomIndexSize (level + 1) = e / bloomIndexSize)
    (hcourse' : latest / upow bloomIndexSize (level + 1) = l / bloomIndexSize)
    (hfirst : e / bloomIndexSize ≤ index) (hindex : index < 2 ^ 28) :
    n ∈ matching b earliest latest level index bb ↔ n / bloomIndexSize = index ∧ e ≤ n ∧
    (n / bloomIndexSize = l / bloomIndexSize → n ≤ l) ∧
      Contains (bb (bloomOffset n)) b := by
  unfold matching
  simp only [hfine, hfine', hcourse, hcourse', mem_map, mem_filter, mem_range'_1, decide_eq_true_iff]
  have hoffset : ∀ o, bloomOffset (o + index * bloomIndexSize) = bloomOffset o := fun o =>
      Fin.ext (Nat.add_mul_mod_self_right ..)
  simp only [bloomIndexSize] at hfirst hoffset ⊢
  constructor
  · rintro ⟨o, ⟨ho, hcontains⟩, rfl⟩
    have hmod : (o + index * 16) % 2 ^ 32 = o + index * 16 := Nat.mod_eq_of_lt (by split_ifs at ho <;> omega)
    rw [hmod, hoffset]
    refine ⟨?_, ?_, ?_, hcontains⟩ <;> split_ifs at ho <;> omega
  · rintro ⟨hchunk, hle, hlast, hcontains⟩
    refine ⟨n % 16, ⟨?_, ?_⟩, by omega⟩
    · split_ifs <;> omega
    · rw [← hoffset]
      have hn : n % 16 + index * 16 = n := by omega
      rwa [hn]

theorem sorted_matching (hindex : index < 2 ^ 28) : (matching b earliest latest level index bb).Pairwise (· < ·) := by
  unfold matching
  extract_lets uCourse uFine obegin oend
  have hend : oend ≤ bloomIndexSize := by
    simp only [oend, bloomIndexSize]
    split_ifs <;> omega
  rw [pairwise_map]
  refine (List.Pairwise.filter _ pairwise_lt_range').imp_of_mem fun {o o'} ho ho' hlt => ?_
  rw [mem_filter, mem_range'_1] at ho ho'
  have hbound := Nat.mul_le_mul_right bloomIndexSize (Nat.le_pred_of_lt hindex)
  simp only [bloomIndexSize] at hend hbound ⊢
  omega

/-! ### The levels -/

theorem mem_foundIn_block (hfirst : earliest / bloomIndexSize ≤ index) (hindex : index < 2 ^ 28) :
    n ∈ foundIn c b earliest latest 0 index ↔ n / bloomIndexSize = index ∧ earliest ≤ n ∧
      (n / bloomIndexSize = latest / bloomIndexSize → n ≤ latest) ∧ Contains (bloomAt c 0 n) b := by
  rw [foundIn, mem_matching (Nat.div_one _) (Nat.div_one _) rfl rfl hfirst hindex]
  refine and_congr_right fun hchunk => ?_
  rw [bloomAt, hchunk]

theorem sorted_foundIn_block (hindex : index < 2 ^ 28) : (foundIn c b earliest latest 0 index).Pairwise (· < ·) := by
  rw [foundIn]
  exact sorted_matching hindex

theorem mem_matching_chunk (hfirst : earliest / 256 ≤ index) (hindex : index < 2 ^ 24) :
    n ∈ matching b earliest latest 1 index bb ↔ n / bloomIndexSize = index ∧ earliest / bloomIndexSize ≤ n ∧
      (n / bloomIndexSize = latest / bloomIndexSize / bloomIndexSize → n ≤ latest / bloomIndexSize) ∧
      Contains (bb (bloomOffset n)) b := by
  have hcourse : ∀ k, k / upow bloomIndexSize 2 = k / bloomIndexSize / bloomIndexSize := fun k =>
      (Nat.div_div_eq_div_mul k 16 16).symm
  exact mem_matching rfl rfl (hcourse _) (hcourse _) ((hcourse earliest).symm.trans_le hfirst) (hindex.trans (by decide))

/-- Where a chunk of chunks leads -/
theorem mem_foundIn_chunk (hfirst : earliest / 256 ≤ index) (hindex : index < 2 ^ 24) :
    n ∈ foundIn c b earliest latest 1 index ↔ n / 256 = index ∧ earliest ≤ n ∧
      (n / bloomIndexSize = latest / bloomIndexSize → n ≤ latest) ∧
      (n / bloomIndexSize / bloomIndexSize = latest / bloomIndexSize / bloomIndexSize →
        n / bloomIndexSize ≤ latest / bloomIndexSize) ∧
      Contains (bloomAt c 1 (n / bloomIndexSize)) b ∧ Contains (bloomAt c 0 n) b := by
  have hcourse : n / 256 = n / bloomIndexSize / bloomIndexSize := (Nat.div_div_eq_div_mul n 16 16).symm
  rw [foundIn, mem_flatMap, hcourse]
  have hchunk : ∀ {m}, m ∈ matching b earliest latest 1 index (bloomsAt c (chunkId 1 index)) → earliest / bloomIndexSize ≤ m ∧
      m < 2 ^ 28 := by
    intro m hm
    obtain ⟨hm, hfirst', -, -⟩ := (mem_matching_chunk hfirst hindex).1 hm
    simp only [bloomIndexSize] at hm
    exact ⟨hfirst', by omega⟩
  constructor
  · rintro ⟨m, hm, hn⟩
    obtain ⟨hfirst', hlt⟩ := hchunk hm
    obtain ⟨rfl, hle, hlast, hblock⟩ := (mem_foundIn_block hfirst' hlt).1 hn
    obtain ⟨rfl, -, hlast', hcontains⟩ := (mem_matching_chunk hfirst hindex).1 hm
    exact ⟨rfl, hle, hlast, hlast', hcontains, hblock⟩
  · rintro ⟨rfl, hle, hlast, hlast', hcontains, hblock⟩
    have hm : n / bloomIndexSize ∈ matching b earliest latest 1 (n / bloomIndexSize / bloomIndexSize)
        (bloomsAt c (chunkId 1 (n / bloomIndexSize / bloomIndexSize))) :=
      (mem_matching_chunk hfirst hindex).2 ⟨rfl, Nat.div_le_div_right hle, hlast', hcontains⟩
    obtain ⟨hfirst', hlt⟩ := hchunk hm
    exact ⟨_, hm, (mem_foundIn_block hfirst' hlt).2 ⟨rfl, hle, hlast, hblock⟩⟩

theorem sorted_foundIn_chunk (hfirst : earliest / 256 ≤ index) (hindex : index < 2 ^ 24) :
    (foundIn c b earliest latest 1 index).Pairwise (· < ·) := by
  rw [foundIn, pairwise_flatMap]
  have hitem : ∀ {m}, m ∈ matching b earliest latest 1 index (bloomsAt c (chunkId 1 index)) →
      earliest / bloomIndexSize ≤ m ∧ m < 2 ^ 28 := by
    intro m hm
    obtain ⟨hm, hfirst', -, -⟩ := (mem_matching_chunk hfirst hindex).1 hm
    simp only [bloomIndexSize] at hm
    exact ⟨hfirst', by omega⟩
  refine ⟨fun m hm => sorted_foundIn_block (hitem hm).2, ?_⟩
  refine (sorted_matching (hindex.trans (by decide))).imp_of_mem fun {m m'} hm hm' hlt n hn n' hn' => ?_
  have hchunk := ((mem_foundIn_block (hitem hm).1 (hitem hm).2).1 hn).1
  have hchunk' := ((mem_foundIn_block (hitem hm').1 (hitem hm').2).1 hn').1
  simp only [bloomIndexSize] at hchunk hchunk'
  omega

/-! ### The whole search -/

theorem mem_top (hlast : latest ≤ 2 ^ 32 - 256) :
    index ∈ List.range' (earliest / 256) (ceilDiv latest 256 + 1 - earliest / 256) ↔
      earliest / 256 ≤ index ∧ index ≤ (latest + 255) / 256 := by
  have hceil : ceilDiv latest 256 = (latest + 255) / 256 := congrArg (· / 256) (Nat.mod_eq_of_lt (by omega))
  rw [mem_range'_1, hceil]
  omega

theorem lt_of_mem_top (hlast : latest ≤ 2 ^ 32 - 256)
    (hindex : index ∈ List.range' (earliest / 256) (ceilDiv latest 256 + 1 - earliest / 256)) :
    earliest / 256 ≤ index ∧ index < 2 ^ 24 := by
  rw [mem_top hlast] at hindex
  omega

/-- Up to the last block, those are found whose bloom contains what is searched for. -/
theorem mem_found (hc : Covers c) (hlast : latest ≤ 2 ^ 32 - 256) (hn : n ≤ latest) :
    n ∈ found c b earliest latest ↔ earliest ≤ n ∧ Contains (bloomAt c 0 n) b := by
  change n ∈ (List.range' (earliest / 256) (ceilDiv latest 256 + 1 - earliest / 256)).flatMap
    (foundIn c b earliest latest 1) ↔ _
  rw [mem_flatMap]
  constructor
  · rintro ⟨index, hindex, hmem⟩
    obtain ⟨hfirst, hlt⟩ := lt_of_mem_top hlast hindex
    obtain ⟨-, hle, -, -, -, hblock⟩ := (mem_foundIn_chunk hfirst hlt).1 hmem
    exact ⟨hle, hblock⟩
  · rintro ⟨hle, hblock⟩
    have hindex : n / 256 ∈ List.range' (earliest / 256) (ceilDiv latest 256 + 1 - earliest / 256) :=
      (mem_top hlast).2 ⟨Nat.div_le_div_right hle, by omega⟩
    obtain ⟨hfirst, hlt⟩ := lt_of_mem_top hlast hindex
    exact ⟨_, hindex, (mem_foundIn_chunk hfirst hlt).2
      ⟨rfl, hle, fun _ => hn, fun _ => Nat.div_le_div_right hn, (hc n (by omega)).trans hblock, hblock⟩⟩

theorem sorted_found (hlast : latest ≤ 2 ^ 32 - 256) : (found c b earliest latest).Pairwise (· < ·) := by
  change ((List.range' (earliest / 256) (ceilDiv latest 256 + 1 - earliest / 256)).flatMap
    (foundIn c b earliest latest 1)).Pairwise _
  rw [pairwise_flatMap]
  refine ⟨fun index hindex => ?_, List.Pairwise.imp_of_mem (fun {i j} hi hj hlt n hn n' hn' => ?_) pairwise_lt_range'⟩
  · obtain ⟨hfirst, hlt⟩ := lt_of_mem_top hlast hindex
    exact sorted_foundIn_chunk hfirst hlt
  · obtain ⟨hfirst, hlt'⟩ := lt_of_mem_top hlast hi
    obtain ⟨hfirst', hlt''⟩ := lt_of_mem_top hlast hj
    have hchunk := ((mem_foundIn_chunk hfirst hlt').1 hn).1
    have hchunk' := ((mem_foundIn_chunk hfirst' hlt'').1 hn').1
    omega

end Kmdx.Chain
