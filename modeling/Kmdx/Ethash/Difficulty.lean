import Kmdx.Rlp.HeaderMemos
import Kmdx.SealEngine

/-!
# The difficulty of a block (`libethashseal/Ethash.cpp`)

The difficulty is meant to be computed in numbers without bound, and then clipped. But the Frontier step is of `u256`, and the
number of the ice age is `unsigned` and the parent's: what goes lost so is `lost`, and the difficulty is right exactly if this
is nothing, or does not matter when it is clipped (`difficulty_right_iff`). Numbers and timestamps are not negative, as they
are read.
-/

namespace Kmdx.Ethash

abbrev Header := Rlp.BlockHeader

/-- `ChainOperationParams`, with what only this engine asks for -/
structure Params extends ChainOperationParams where
  gasLimitBoundDivisor : U256 := 0x0400
  minimumDifficulty : U256 := 0x020000
  difficultyBoundDivisor : U256 := 0x0800
  durationLimit : U256 := 0x0d

inductive DifficultyException
  /-- `GenesisBlockCannotBeCalculated` -/
  | genesisBlockCannotBeCalculated
  /-- `std::overflow_error`, of a division by zero -/
  | divisionByZero
deriving DecidableEq

variable (p : Params) (emptyListSHA3 : Rlp.FixedHash 32) (bi parent : Header)

/-! ### The code -/

def c_expDiffPeriod : Nat := 100000

def hasUncles (h : Header) : Bool := h.sha3Uncles ≠ emptyListSHA3

/-- The target, which is a `bigint` made of `u256` in the Frontier era. -/
def target : Except DifficultyException Int :=
  if bi.number.toInt < p.homesteadForkBlock then
    if p.difficultyBoundDivisor = 0 then .error .divisionByZero
    else if (parent.timestamp.signExtend 256 + p.durationLimit).toNat ≤ bi.timestamp.toInt then
      .ok (parent.difficulty - parent.difficulty / p.difficultyBoundDivisor).toNat
    else .ok (parent.difficulty + parent.difficulty / p.difficultyBoundDivisor).toNat
  else
    let timestampDiff := bi.timestamp.toInt - parent.timestamp.toInt
    let adjFactor :=
      if bi.number.toInt < p.byzantiumForkBlock then max (1 - timestampDiff.tdiv 10) (-99)
      else max ((if hasUncles emptyListSHA3 parent then 2 else 1) - timestampDiff.tdiv 9) (-99)
    .ok (parent.difficulty.toNat + (parent.difficulty.toNat / 2048 : Nat) * adjFactor)

def calculateDifficulty : Except DifficultyException U256 :=
  if bi.number = 0 then .error .genesisBlockCannotBeCalculated
  else do
    let o ← target p emptyListSHA3 bi parent
    let exponentialIceAgeBlockNumber := (parent.number + 1).toNat % 2 ^ 32
    -- EIP-649
    let exponentialIceAgeBlockNumber :=
      if p.byzantiumForkBlock ≤ bi.number.toInt then
        if 3000000 ≤ exponentialIceAgeBlockNumber then exponentialIceAgeBlockNumber - 3000000 else 0
      else exponentialIceAgeBlockNumber
    let periodCount := exponentialIceAgeBlockNumber / c_expDiffPeriod
    let o := if periodCount > 1 then o + 2 ^ (periodCount - 2) else o
    let o := max (p.minimumDifficulty.toNat : Int) o
    return BitVec.ofInt 256 (min o (2 ^ 256 - 1))

/-! ### The formula -/

/-- The target of the era -/
def idealTarget : Int :=
  let difficulty : Int := parent.difficulty.toNat
  let passed : Int := bi.timestamp.toNat - parent.timestamp.toNat
  if bi.number.toNat < p.homesteadForkBlock then
    if p.durationLimit.toNat ≤ passed then difficulty - difficulty / p.difficultyBoundDivisor.toNat
    else difficulty + difficulty / p.difficultyBoundDivisor.toNat
  else if bi.number.toNat < p.byzantiumForkBlock then difficulty + difficulty / 2048 * max (1 - passed / 10) (-99)
  else difficulty + difficulty / 2048 * max ((if hasUncles emptyListSHA3 parent then 2 else 1) - passed / 9) (-99)

/-- The ice age of a block whose number is taken for `n`. -/
def iceAge (n : Nat) : Int :=
  let periodCount := (if p.byzantiumForkBlock ≤ bi.number.toNat then n - 3000000 else n) / c_expDiffPeriod
  if periodCount > 1 then 2 ^ (periodCount - 2) else 0

/-- What the formula gives before it is clipped. -/
def idealSum : Int := idealTarget p emptyListSHA3 bi parent + iceAge p bi bi.number.toNat

def clip (o : Int) : Int := min (max p.minimumDifficulty.toNat o) (2 ^ 256 - 1)

structure DifficultyRight : Prop where
  value : ∀ t : BitVec 64, parent.timestamp.toNat < t.toNat → t.toNat < 2 ^ 63 → ∃ d,
    calculateDifficulty p emptyListSHA3 { bi with timestamp := t } parent = .ok d ∧
      (d.toNat : Int) = clip p (idealSum p emptyListSHA3 { bi with timestamp := t } parent) ∧
      p.minimumDifficulty.toNat ≤ d.toNat
  antitone : ∀ t t' : BitVec 64, parent.timestamp.toNat < t.toNat → t.toNat ≤ t'.toNat → t'.toNat < 2 ^ 63 → ∀ d d',
    calculateDifficulty p emptyListSHA3 { bi with timestamp := t } parent = .ok d →
      calculateDifficulty p emptyListSHA3 { bi with timestamp := t' } parent = .ok d' → d'.toNat ≤ d.toNat

/-! ### What goes lost -/

/-- What the Frontier step gives too little: the limit may be beyond what is compared with, or the sum beyond what is added
up.
-/
def lostTarget : Int :=
  let step : Nat := parent.difficulty.toNat / p.difficultyBoundDivisor.toNat
  let limit := parent.timestamp.toNat + p.durationLimit.toNat
  if bi.number.toNat < p.homesteadForkBlock then
    if 2 ^ 256 ≤ limit then 2 * step
    else if bi.timestamp.toNat < limit ∧ 2 ^ 256 ≤ parent.difficulty.toNat + step then 2 ^ 256
    else 0
  else 0

/-- What goes lost, with the ice age being that of the last 32 bits of the number after the parent's. -/
def lost : Int :=
  lostTarget p bi parent + (iceAge p bi bi.number.toNat - iceAge p bi ((parent.number.toNat + 1) % 2 ^ 32))

/-- There is a divisor where one is needed, and nothing goes lost, or it does not matter. -/
structure Harmless : Prop where
  divisor : bi.number.toNat < p.homesteadForkBlock → p.difficultyBoundDivisor ≠ 0
  lost : lost p bi parent = 0 ∨
    (idealSum p emptyListSHA3 bi parent ≤ p.minimumDifficulty.toNat ∧
      idealSum p emptyListSHA3 bi parent - lost p bi parent ≤ p.minimumDifficulty.toNat) ∨
    (2 ^ 256 - 1 ≤ idealSum p emptyListSHA3 bi parent ∧ 2 ^ 256 - 1 ≤ idealSum p emptyListSHA3 bi parent - lost p bi parent) ∨
    p.minimumDifficulty.toNat = 2 ^ 256 - 1

/-! ### What the code gives -/

section

variable {p emptyListSHA3 bi parent} {n : BitVec 64}

theorem toInt_eq_toNat (hn : n.toNat < 2 ^ 63) : n.toInt = n.toNat := BitVec.toInt_eq_toNat_of_lt (by omega)

/-- The limit of the Frontier era, in 256 bits. -/
theorem limit_toNat (hn : n.toNat < 2 ^ 63) (limit : U256) :
    (n.signExtend 256 + limit).toNat = (n.toNat + limit.toNat) % 2 ^ 256 := by
  have hmsb : n.msb = false := by
    rw [BitVec.msb_eq_false_iff_two_mul_lt]
    omega
  rw [BitVec.toNat_add, BitVec.signExtend_eq_setWidth_of_msb_false hmsb, BitVec.toNat_setWidth,
    Nat.mod_eq_of_lt (a := n.toNat)]
  omega

section

variable (hbi : bi.number.toNat < 2 ^ 63) (ht : bi.timestamp.toNat < 2 ^ 63)
include hbi ht

/-- The Frontier step, up or down -/
theorem target_frontier
    (hparent : parent.timestamp.toNat < bi.timestamp.toNat) (hera : bi.number.toNat < p.homesteadForkBlock)
    (hdivisor : p.difficultyBoundDivisor ≠ 0) : target p emptyListSHA3 bi parent =
      .ok (idealTarget p emptyListSHA3 bi parent - lostTarget p bi parent) := by
  have hera' : bi.number.toInt < p.homesteadForkBlock := by
    rw [toInt_eq_toNat hbi]
    exact_mod_cast hera
  have hstep := Nat.div_le_self parent.difficulty.toNat p.difficultyBoundDivisor.toNat
  have hdown : (parent.difficulty - parent.difficulty / p.difficultyBoundDivisor).toNat =
      parent.difficulty.toNat - parent.difficulty.toNat / p.difficultyBoundDivisor.toNat := by
    rw [BitVec.toNat_sub_of_le, BitVec.toNat_udiv]
    rw [BitVec.le_def, BitVec.toNat_udiv]
    exact hstep
  rw [target, if_pos hera', if_neg hdivisor, limit_toNat (hparent.trans ht), toInt_eq_toNat ht, hdown, BitVec.toNat_add,
    BitVec.toNat_udiv, idealTarget, if_pos hera, lostTarget, if_pos hera]
  have hlimit := p.durationLimit.isLt
  have hdifficulty := parent.difficulty.isLt
  rw [← Int.natCast_div]
  generalize parent.difficulty.toNat / p.difficultyBoundDivisor.toNat = step at *
  split_ifs
  all_goals exact congrArg Except.ok (by omega)

/-- The later eras, where all is unbounded -/
theorem target_homestead
    (hparent : parent.timestamp.toNat < bi.timestamp.toNat) (hera : ¬bi.number.toNat < p.homesteadForkBlock) :
    target p emptyListSHA3 bi parent = .ok (idealTarget p emptyListSHA3 bi parent - lostTarget p bi parent) := by
  have hera' : ¬bi.number.toInt < p.homesteadForkBlock := by
    rw [toInt_eq_toNat hbi]
    exact_mod_cast hera
  have hpassed : 0 ≤ (bi.timestamp.toNat : Int) - parent.timestamp.toNat := by omega
  rw [target, if_neg hera', toInt_eq_toNat ht, toInt_eq_toNat (hparent.trans ht), toInt_eq_toNat hbi,
    idealTarget, if_neg hera, lostTarget, if_neg hera]
  dsimp only
  rw [Int.tdiv_eq_ediv_of_nonneg hpassed, Int.tdiv_eq_ediv_of_nonneg hpassed, sub_zero, Int.natCast_div]
  simp only [Nat.cast_lt, Nat.cast_ofNat]
  split_ifs <;> rfl

/-- The difficulty is what is left when something has gone lost, clipped. -/
theorem calculateDifficulty_eq
    (hnumber : parent.number.toNat < bi.number.toNat) (hparent : parent.timestamp.toNat < bi.timestamp.toNat)
    (hdivisor : bi.number.toNat < p.homesteadForkBlock → p.difficultyBoundDivisor ≠ 0) :
    calculateDifficulty p emptyListSHA3 bi parent =
      .ok (BitVec.ofInt 256 (clip p (idealSum p emptyListSHA3 bi parent - lost p bi parent))) := by
  have htarget : target p emptyListSHA3 bi parent = .ok (idealTarget p emptyListSHA3 bi parent - lostTarget p bi parent) := by
    by_cases hera : bi.number.toNat < p.homesteadForkBlock
    · exact target_frontier hbi ht hparent hera (hdivisor hera)
    · exact target_homestead hbi ht hparent hera
  have hzero : bi.number ≠ 0 := fun heq => by
    rw [heq] at hnumber
    exact absurd hnumber (Nat.not_lt_zero _)
  have hadd : (parent.number + 1).toNat = parent.number.toNat + 1 := by
    rw [BitVec.toNat_add]
    exact Nat.mod_eq_of_lt (show parent.number.toNat + 1 < 2 ^ 64 by omega)
  -- the shift of the code is a truncated subtraction
  have hshift : ∀ e : Nat,
      (if (p.byzantiumForkBlock : Int) ≤ bi.number.toInt then if 3000000 ≤ e then e - 3000000 else 0 else e) =
      if p.byzantiumForkBlock ≤ bi.number.toNat then e - 3000000 else e := by
    intro e
    rw [toInt_eq_toNat hbi]
    simp only [Nat.cast_le]
    split_ifs <;> omega
  have hsum : idealSum p emptyListSHA3 bi parent - lost p bi parent =
      idealTarget p emptyListSHA3 bi parent - lostTarget p bi parent + iceAge p bi ((parent.number.toNat + 1) % 2 ^ 32) := by
    rw [idealSum, lost]
    ring
  rw [calculateDifficulty, if_neg hzero, htarget, hadd]
  refine congrArg Except.ok (congrArg (BitVec.ofInt 256) ?_)
  rw [hshift, hsum, clip, iceAge]
  generalize (if p.byzantiumForkBlock ≤ bi.number.toNat then (_ : Nat) else _) / c_expDiffPeriod = periodCount
  split_ifs
  · rfl
  · rw [add_zero]

end

theorem calculateDifficulty_divisionByZero (hbi : bi.number.toNat < 2 ^ 63) (hnumber : bi.number ≠ 0)
    (hera : bi.number.toNat < p.homesteadForkBlock) (hdivisor : p.difficultyBoundDivisor = 0) :
    calculateDifficulty p emptyListSHA3 bi parent = .error .divisionByZero := by
  have hera' : bi.number.toInt < p.homesteadForkBlock := by
    rw [toInt_eq_toNat hbi]
    exact_mod_cast hera
  rw [calculateDifficulty, if_neg hnumber, target, if_pos hera', if_pos hdivisor]
  rfl

/-! ### Clipping -/

variable {o l : Int}

theorem minimum_le_clip (o : Int) : (p.minimumDifficulty.toNat : Int) ≤ clip p o := by
  have hlt := p.minimumDifficulty.isLt
  rw [clip]
  omega

theorem clip_toNat (o : Int) : ((BitVec.ofInt 256 (clip p o)).toNat : Int) = clip p o := by
  have hle := minimum_le_clip (p := p) o
  have hlt : clip p o < 2 ^ 256 := by
    rw [clip]
    omega
  rw [BitVec.toNat_ofInt, Int.toNat_of_nonneg (Int.emod_nonneg _ (by decide))]
  exact Int.emod_eq_of_lt (by omega) hlt

theorem clip_sub_eq_iff : clip p (o - l) = clip p o ↔ l = 0 ∨
    (o ≤ p.minimumDifficulty.toNat ∧ o - l ≤ p.minimumDifficulty.toNat) ∨
    (2 ^ 256 - 1 ≤ o ∧ 2 ^ 256 - 1 ≤ o - l) ∨ p.minimumDifficulty.toNat = 2 ^ 256 - 1 := by
  have hlt := p.minimumDifficulty.isLt
  rw [clip, clip]
  omega

theorem clip_mono {o' : Int} (h : o ≤ o') : clip p o ≤ clip p o' := by
  rw [clip, clip]
  omega

/-- The later the block, the less the formula gives. -/
theorem idealSum_antitone {t t' : BitVec 64} (ht : t.toNat ≤ t'.toNat) :
    idealSum p emptyListSHA3 { bi with timestamp := t' } parent ≤
      idealSum p emptyListSHA3 { bi with timestamp := t } parent := by
  have hstep : (0 : Int) ≤ parent.difficulty.toNat / 2048 := by omega
  have hstep' : (0 : Int) ≤ (parent.difficulty.toNat : Int) / p.difficultyBoundDivisor.toNat :=
    Int.ediv_nonneg (Int.natCast_nonneg _) (Int.natCast_nonneg _)
  refine add_le_add ?_ le_rfl
  rw [idealTarget, idealTarget]
  dsimp only
  split_ifs with hera hlate hlate' hlate' hera' huncles
  · exact le_rfl
  · omega
  · omega
  · exact le_rfl
  · exact add_le_add le_rfl (mul_le_mul_of_nonneg_left (by omega) hstep)
  · exact add_le_add le_rfl (mul_le_mul_of_nonneg_left (by omega) hstep)
  · exact add_le_add le_rfl (mul_le_mul_of_nonneg_left (by omega) hstep)

end

/-! ### What is right -/

section

variable {p bi parent}

/-- Nothing goes lost between a parent and its child, as long as all numbers are moderate. -/
theorem lost_eq_zero (hnumber : bi.number.toNat = parent.number.toNat + 1) (hsmall : bi.number.toNat < 2 ^ 32)
    (hlimit : parent.timestamp.toNat + p.durationLimit.toNat < 2 ^ 256)
    (hstep : parent.difficulty.toNat + parent.difficulty.toNat / p.difficultyBoundDivisor.toNat < 2 ^ 256) :
    lost p bi parent = 0 := by
  have htarget : lostTarget p bi parent = 0 := by
    rw [lostTarget]
    split_ifs with hera hwrap hover
    · omega
    · omega
    · rfl
    · rfl
  rw [lost, htarget, ← hnumber, Nat.mod_eq_of_lt hsmall, sub_self, add_zero]

end

/-- The difficulty of a block is right whatever its timestamp is, if and only if nothing goes lost that matters. -/
theorem difficulty_right_iff (hbi : bi.number.toNat < 2 ^ 63) (hnumber : parent.number.toNat < bi.number.toNat) :
    DifficultyRight p emptyListSHA3 bi parent ↔ ∀ t : BitVec 64, parent.timestamp.toNat < t.toNat → t.toNat < 2 ^ 63 →
      Harmless p emptyListSHA3 { bi with timestamp := t } parent := by
  have hzero : bi.number ≠ 0 := fun heq => by
    rw [heq] at hnumber
    exact absurd hnumber (Nat.not_lt_zero _)
  have hcode : ∀ t : BitVec 64, parent.timestamp.toNat < t.toNat → t.toNat < 2 ^ 63 →
      (bi.number.toNat < p.homesteadForkBlock → p.difficultyBoundDivisor ≠ 0) →
      calculateDifficulty p emptyListSHA3 { bi with timestamp := t } parent = .ok (BitVec.ofInt 256 (clip p
        (idealSum p emptyListSHA3 { bi with timestamp := t } parent - lost p { bi with timestamp := t } parent))) :=
    fun t hparent ht hdivisor =>
      @calculateDifficulty_eq p emptyListSHA3 { bi with timestamp := t } parent hbi ht hnumber hparent hdivisor
  constructor
  · intro hright t hparent ht
    obtain ⟨d, hd, hvalue, _⟩ := hright.value t hparent ht
    have hdivisor : bi.number.toNat < p.homesteadForkBlock → p.difficultyBoundDivisor ≠ 0 := by
      intro hera hdivisor
      cases hd.symm.trans (calculateDifficulty_divisionByZero hbi hzero hera hdivisor)
    refine ⟨hdivisor, clip_sub_eq_iff.1 ?_⟩
    rw [hcode t hparent ht hdivisor] at hd
    rw [← hvalue, ← Except.ok.inj hd, clip_toNat]
  · intro hharmless
    have hvalue : ∀ t : BitVec 64, parent.timestamp.toNat < t.toNat → t.toNat < 2 ^ 63 → ∃ d,
        calculateDifficulty p emptyListSHA3 { bi with timestamp := t } parent = .ok d ∧
          (d.toNat : Int) = clip p (idealSum p emptyListSHA3 { bi with timestamp := t } parent) := by
      intro t hparent ht
      obtain ⟨hdivisor, hlost⟩ := hharmless t hparent ht
      refine ⟨_, hcode t hparent ht hdivisor, ?_⟩
      rw [clip_toNat, clip_sub_eq_iff.2 hlost]
    constructor
    · intro t hparent ht
      obtain ⟨d, hd, heq⟩ := hvalue t hparent ht
      have hle := minimum_le_clip (p := p) (idealSum p emptyListSHA3 { bi with timestamp := t } parent)
      exact ⟨d, hd, heq, by omega⟩
    · intro t t' hparent hle ht' d d' hd hd'
      obtain ⟨e, he, heq⟩ := hvalue t hparent (hle.trans_lt ht')
      obtain ⟨e', he', heq'⟩ := hvalue t' (hparent.trans_le hle) ht'
      cases hd.symm.trans he
      cases hd'.symm.trans he'
      have hideal : idealSum p emptyListSHA3 { bi with timestamp := t' } parent ≤
          idealSum p emptyListSHA3 { bi with timestamp := t } parent := idealSum_antitone hle
      have hmono := clip_mono (p := p) hideal
      omega

/-- The defaults, with the number of the first block -/
def defaults : Params where
  precompiled _ := none

def firstBlock : Header where
  number := 1

theorem difficulty_right_first : DifficultyRight defaults 0 firstBlock { timestamp := 0, difficulty := 0x020000 } := by
  refine (difficulty_right_iff defaults 0 firstBlock { timestamp := 0, difficulty := 0x020000 } (by decide) (by decide)).2
    fun t _ _ => ⟨fun _ => by decide, .inl (lost_eq_zero rfl ?_ ?_ ?_)⟩
  · show firstBlock.number.toNat < 2 ^ 32
    decide
  all_goals decide +kernel

/-- The largest difficulty and a step more. -/
theorem not_difficulty_right : ¬∀ (p : Params) (emptyListSHA3 : Rlp.FixedHash 32) (bi parent : Header),
    bi.number.toNat < 2 ^ 63 → parent.number.toNat < bi.number.toNat → DifficultyRight p emptyListSHA3 bi parent := by
  intro h
  obtain ⟨d, hd, hvalue, -⟩ := (h defaults 0 firstBlock { timestamp := 0, difficulty := -1 } (by decide) (by decide)).value 1
    (by decide) (by decide)
  have hnat : (calculateDifficulty defaults 0 { firstBlock with timestamp := 1 }
      { timestamp := 0, difficulty := -1 }).toOption.map
      (fun d => (d.toNat : Int)) = some (clip defaults (idealSum defaults 0 { firstBlock with timestamp := 1 }
        { timestamp := 0, difficulty := -1 })) := by
    rw [hd]
    exact congrArg some hvalue
  revert hnat
  decide +kernel

end Kmdx.Ethash
