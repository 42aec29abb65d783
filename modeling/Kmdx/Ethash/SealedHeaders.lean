import Kmdx.Ethash.Difficulty

/-!
# The headers that are sealed, and how they are verified (`libethashseal/Ethash.cpp`, `libwingcore/BlockHeader.cpp`)

`populateFromParent` computes what `verify` checks, but `childGasLimit` lets the limit grow without a bound when the target
has been reached. A block that is made passes the checks of its number, its difficulty and its gas limit exactly if this is
small enough against the parent's limit (`sealed_passes_iff`). What is checked of the transactions and uncles of a block is
left out.
-/

namespace Kmdx.Ethash

inductive Strictness
  | checkEverything
  | justSeal
  | quickNonce
  | ignoreSeal
  | checkNothingNew
deriving DecidableEq

inductive VerifyException
  | rlp (e : Rlp.Exn)
  | difficulty (e : DifficultyException)
  | invalidNumber
  | tooMuchGasUsed (max got : Nat)
  | invalidParentHash
  | invalidTimestamp
  | invalidDifficulty (required got : Nat)
  | invalidGasLimit (required got : Nat)
  | invalidGasLimitRange (min : Int) (got max : Nat)
  | extraDataTooBig (max got : Nat)
  | extraDataIncorrect
  | invalidBlockNonce
deriving DecidableEq

abbrev Check := Except VerifyException Unit

def require (c : Prop) [Decidable c] (e : VerifyException) : Check := if c then .ok () else .error e

/-- A check that is made in a case only. -/
def inCase (c : Prop) [Decidable c] (x : Check) : Check := if c then x else .ok ()

variable (p : Params) (sha3 : Bytes → Rlp.FixedHash 32) (bi parent : Header)

/-! ### `BlockHeader::verify` -/

def checkNumber : Check := require (bi.number.toInt ≤ 2 ^ 32 - 1) .invalidNumber

def checkGasUsed : Check := require (bi.gasUsed ≤ bi.gasLimit) (.tooMuchGasUsed bi.gasLimit.toNat bi.gasUsed.toNat)

def checkParentHash : Check :=
  if bi.parentHash = 0 then .ok ()
  else do
    let (hash, _) ← (parent.hash sha3 .withSeal).mapError .rlp
    require (hash = bi.parentHash) .invalidParentHash

def checkTimestamp : Check := require (parent.timestamp.toInt < bi.timestamp.toInt) .invalidTimestamp

def checkSuccessor : Check := require (bi.number = parent.number + 1) .invalidNumber

/-- A header as a truth value: its timestamp is not that of a header that is not there. -/
def isHeader (h : Header) : Bool := h.timestamp ≠ -1

def verifyHeader (s : Strictness) : Check := do
  checkNumber bi
  inCase (s ≠ .checkNothingNew) (checkGasUsed bi)
  inCase (isHeader parent) do
    checkParentHash sha3 bi parent
    checkTimestamp bi parent
    checkSuccessor bi parent

/-! ### `Ethash::verify` -/

def checkMinimumDifficulty : Check :=
  require (p.minimumDifficulty ≤ bi.difficulty) (.invalidDifficulty p.minimumDifficulty.toNat bi.difficulty.toNat)

def checkMinGasLimit : Check :=
  require (p.minGasLimit ≤ bi.gasLimit) (.invalidGasLimit p.minGasLimit.toNat bi.gasLimit.toNat)

def checkMaxGasLimit : Check :=
  require (bi.gasLimit ≤ p.maxGasLimit) (.invalidGasLimit p.maxGasLimit.toNat bi.gasLimit.toNat)

def checkExtraDataSize : Check :=
  require (bi.number = 0 ∨ bi.extraData.length ≤ p.maximumExtraDataSize.toNat)
    (.extraDataTooBig p.maximumExtraDataSize.toNat bi.extraData.length)

/-- `0x64616f2d686172642d666f726b` -/
def daoExtraData : Bytes := [0x64, 0x61, 0x6f, 0x2d, 0x68, 0x61, 0x72, 0x64, 0x2d, 0x66, 0x6f, 0x72, 0x6b]

def checkDaoExtraData : Check :=
  let daoHardfork := p.daoHardforkBlock
  require (daoHardfork ≠ 0 ∧ daoHardfork ≤ (daoHardfork + 9) % 2 ^ 256 ∧ daoHardfork ≤ bi.number.toInt ∧
    bi.number.toInt ≤ (daoHardfork + 9) % 2 ^ 256 → bi.extraData = daoExtraData) .extraDataIncorrect

def checkDifficulty : Check := do
  let expected ← (calculateDifficulty p (sha3 [0xc0]) bi parent).mapError .difficulty
  require (bi.difficulty = expected) (.invalidDifficulty expected.toNat bi.difficulty.toNat)

/-- The bounds are of `u256`, and those that are reported are not. -/
def checkGasLimit : Check :=
  let step := parent.gasLimit / p.gasLimitBoundDivisor
  require (p.minGasLimit ≤ bi.gasLimit ∧ bi.gasLimit ≤ p.maxGasLimit ∧ parent.gasLimit - step < bi.gasLimit ∧
    bi.gasLimit < parent.gasLimit + step)
    (.invalidGasLimitRange (parent.gasLimit.toNat - step.toNat) bi.gasLimit.toNat (parent.gasLimit.toNat + step.toNat))

/-- `verify`, given whether the seal is valid, and whether it is at a glance. -/
def verify (s : Strictness) (verifySeal quickVerifySeal : Bool) : Check := do
  verifyHeader sha3 bi parent s
  inCase (s ≠ .checkNothingNew) do
    checkMinimumDifficulty p bi
    checkMinGasLimit p bi
    checkMaxGasLimit p bi
    checkExtraDataSize p bi
    checkDaoExtraData p bi
  inCase (isHeader parent) do
    checkDifficulty p sha3 bi parent
    checkGasLimit p bi parent
  inCase (s = .checkEverything ∧ bi.parentHash ≠ 0) (require verifySeal .invalidBlockNonce)
  inCase (s = .quickNonce ∧ bi.parentHash ≠ 0) (require quickVerifySeal .invalidBlockNonce)

/-! ### `Ethash::populateFromParent` -/

/-- `std::min<u256>`, `std::max<u256>` -/
def minU256 (a b : U256) : U256 := if b < a then b else a
def maxU256 (a b : U256) : U256 := if a < b then b else a

def childGasLimit (bi : Header) (gasFloorTarget : U256 := invalid256) : U256 :=
  let gasFloorTarget := if gasFloorTarget = invalid256 then 3141562 else gasFloorTarget
  let gasLimit := bi.gasLimit
  let boundDivisor := p.gasLimitBoundDivisor
  if gasLimit < gasFloorTarget then minU256 gasFloorTarget (gasLimit + gasLimit / boundDivisor - 1)
  else maxU256 gasFloorTarget (gasLimit - gasLimit / boundDivisor + 1 + bi.gasUsed * 6 / 5 / boundDivisor)

def populateFromParent : Except DifficultyException Header := do
  let bi := bi.populateFromParent parent
  let bi := bi.setDifficulty (← calculateDifficulty p (sha3 [0xc0]) bi parent)
  return bi.setGasLimit (childGasLimit p parent)

/-! ### What is promised -/

/-- The checks of the number, the difficulty and the gas limit -/
structure Passes (p : Params) (sha3 : Bytes → Rlp.FixedHash 32) (bi parent : Header) : Prop where
  number : checkNumber bi = .ok ()
  successor : checkSuccessor bi parent = .ok ()
  minimumDifficulty : checkMinimumDifficulty p bi = .ok ()
  difficulty : checkDifficulty p sha3 bi parent = .ok ()
  minGasLimit : checkMinGasLimit p bi = .ok ()
  maxGasLimit : checkMaxGasLimit p bi = .ok ()
  gasLimit : checkGasLimit p bi parent = .ok ()

/-- An exception of one of these checks -/
def VerifyException.isChecked : VerifyException → Bool
  | .invalidNumber | .difficulty _ | .invalidDifficulty _ _ | .invalidGasLimit _ _ | .invalidGasLimitRange _ _ _ => true
  | _ => false

/-- A chain whose limits leave room for the target, a parent that keeps them, and a child that is later. -/
structure WithinLimits (p : Params) (bi parent : Header) : Prop where
  boundDivisor : 2 ≤ p.gasLimitBoundDivisor.toNat
  minGasLimit : p.gasLimitBoundDivisor.toNat + 1 ≤ p.minGasLimit.toNat
  target : p.minGasLimit.toNat ≤ 3141562 ∧ 3141562 ≤ p.maxGasLimit.toNat
  number : parent.number.toNat < 2 ^ 32 - 1
  gasUsed : parent.gasUsed.toNat ≤ parent.gasLimit.toNat
  gasLimit : p.minGasLimit.toNat ≤ parent.gasLimit.toNat ∧ parent.gasLimit.toNat ≤ p.maxGasLimit.toNat
  room : parent.gasLimit.toNat + parent.gasLimit.toNat / p.gasLimitBoundDivisor.toNat ≤ p.maxGasLimit.toNat
  timestamp : parent.timestamp.toNat < bi.timestamp.toNat ∧ bi.timestamp.toNat < 2 ^ 63

/-! ### The gas limit -/

section

variable {p sha3 bi parent}

theorem minU256_toNat (a b : U256) : (minU256 a b).toNat = min a.toNat b.toNat := by
  rw [minU256]
  split_ifs with h <;> rw [BitVec.lt_def] at h <;> omega

theorem maxU256_toNat (a b : U256) : (maxU256 a b).toNat = max a.toNat b.toNat := by
  rw [maxU256]
  split_ifs with h <;> rw [BitVec.lt_def] at h <;> omega

/-- How much the gas that was used lets the limit grow. -/
def growth (p : Params) (parent : Header) : Nat :=
  parent.gasUsed.toNat * 6 % 2 ^ 256 / 5 / p.gasLimitBoundDivisor.toNat

section

variable (h : WithinLimits p bi parent)
include h

theorem step_pos : 1 ≤ parent.gasLimit.toNat / p.gasLimitBoundDivisor.toNat := by
  have hmin := h.minGasLimit
  have hlimit := h.gasLimit.1
  have hdivisor := h.boundDivisor
  exact Nat.div_pos (by omega) (by omega)

/-- What is added to a limit never comes round. -/
theorem growth_lt : parent.gasLimit.toNat - parent.gasLimit.toNat / p.gasLimitBoundDivisor.toNat + 1 +
    growth p parent < 2 ^ 256 := by
  have hmax := p.maxGasLimit.isLt
  have hroom := h.room
  have hstep := step_pos h
  by_contra! hge
  have hdivisor := h.boundDivisor
  have hused : parent.gasUsed.toNat * 6 % 2 ^ 256 < 2 ^ 256 := Nat.mod_lt _ (by decide)
  rw [growth] at hge
  generalize parent.gasUsed.toNat * 6 % 2 ^ 256 = used at *
  generalize p.gasLimitBoundDivisor.toNat = divisor at *
  -- else the growth is more steps than the limit has, and a limit so large is not divided by five
  have hgrowth : used / 5 / divisor * divisor ≤ used / 5 := Nat.div_mul_le_self _ _
  have hle := Nat.div_le_self parent.gasLimit.toNat divisor
  have hmore : parent.gasLimit.toNat / divisor + 1 ≤ used / 5 / divisor := by omega
  have hlimit : parent.gasLimit.toNat < (parent.gasLimit.toNat / divisor + 1) * divisor := by
    rw [Nat.mul_comm]
    exact Nat.lt_mul_div_succ _ (by omega)
  have hlimit' := hlimit.trans_le (Nat.mul_le_mul_right divisor hmore)
  have htwice : used / 5 / divisor * 2 ≤ used / 5 / divisor * divisor := Nat.mul_le_mul_left _ hdivisor
  omega

/-- The bounds, which are in the range of `u256`. -/
theorem bounds_toNat : (parent.gasLimit - parent.gasLimit / p.gasLimitBoundDivisor).toNat =
      parent.gasLimit.toNat - parent.gasLimit.toNat / p.gasLimitBoundDivisor.toNat ∧
    (parent.gasLimit + parent.gasLimit / p.gasLimitBoundDivisor).toNat =
      parent.gasLimit.toNat + parent.gasLimit.toNat / p.gasLimitBoundDivisor.toNat := by
  have hmax := p.maxGasLimit.isLt
  have hroom := h.room
  constructor
  · rw [BitVec.toNat_sub_of_le, BitVec.toNat_udiv]
    rw [BitVec.le_def, BitVec.toNat_udiv]
    exact Nat.div_le_self _ _
  · rw [BitVec.toNat_add, BitVec.toNat_udiv]
    exact Nat.mod_eq_of_lt (hroom.trans_lt hmax)

theorem childGasLimit_toNat : (childGasLimit p parent).toNat = if parent.gasLimit.toNat < 3141562 then
      min 3141562 (parent.gasLimit.toNat + parent.gasLimit.toNat / p.gasLimitBoundDivisor.toNat - 1)
    else max 3141562 (parent.gasLimit.toNat - parent.gasLimit.toNat / p.gasLimitBoundDivisor.toNat + 1 +
      growth p parent) := by
  have hmax := p.maxGasLimit.isLt
  have hroom := h.room
  have hstep := step_pos h
  have hgrowth : (parent.gasUsed * 6 / 5 / p.gasLimitBoundDivisor).toNat = growth p parent := by
    rw [BitVec.toNat_udiv, BitVec.toNat_udiv, BitVec.toNat_mul]
    rfl
  obtain ⟨hdown, hup⟩ := bounds_toNat h
  have hup' : (parent.gasLimit + parent.gasLimit / p.gasLimitBoundDivisor - 1).toNat =
      parent.gasLimit.toNat + parent.gasLimit.toNat / p.gasLimitBoundDivisor.toNat - 1 := by
    rw [BitVec.toNat_sub, hup]
    show (2 ^ 256 - 1 + _) % 2 ^ 256 = _
    omega
  have hgrown := growth_lt h
  have hfloor : (if invalid256 = invalid256 then (3141562 : U256) else invalid256) = 3141562 := if_pos rfl
  have hreached : parent.gasLimit < 3141562 ↔ parent.gasLimit.toNat < 3141562 := BitVec.lt_def
  rw [childGasLimit, hfloor]
  by_cases hlow : parent.gasLimit.toNat < 3141562
  · rw [if_pos (hreached.2 hlow), if_pos hlow, minU256_toNat, hup']
    rfl
  · rw [if_neg (mt hreached.1 hlow), if_neg hlow, maxU256_toNat, BitVec.toNat_add, BitVec.toNat_add, hdown, hgrowth]
    refine congrArg (max 3141562) ?_
    show ((_ + 1) % 2 ^ 256 + _) % 2 ^ 256 = _
    omega

/-- The limit is in its bounds exactly if it does not grow too much. -/
theorem childGasLimit_iff : (p.minGasLimit ≤ childGasLimit p parent ∧ childGasLimit p parent ≤ p.maxGasLimit ∧
      parent.gasLimit - parent.gasLimit / p.gasLimitBoundDivisor < childGasLimit p parent ∧
      childGasLimit p parent < parent.gasLimit + parent.gasLimit / p.gasLimitBoundDivisor) ↔
    (3141562 ≤ parent.gasLimit.toNat → growth p parent + 1 < 2 * (parent.gasLimit.toNat / p.gasLimitBoundDivisor.toNat)) := by
  have hroom := h.room
  have hstep := step_pos h
  have hlimit := h.gasLimit
  have htarget := h.target
  have hle := Nat.div_le_self parent.gasLimit.toNat p.gasLimitBoundDivisor.toNat
  obtain ⟨hdown, hup⟩ := bounds_toNat h
  rw [BitVec.le_def, BitVec.le_def, BitVec.lt_def, BitVec.lt_def, hdown, hup, childGasLimit_toNat h]
  split_ifs <;> omega

end

/-! ### Verifying what was made -/

theorem require_eq_ok_iff {c : Prop} [Decidable c] {e : VerifyException} : require c e = .ok () ↔ c := by
  rw [require]
  split_ifs with hc
  · exact iff_of_true rfl hc
  · exact iff_of_false nofun hc

/-- What `populateFromParent` makes. -/
def made (p : Params) (bi parent : Header) (d : U256) : Header :=
  ((bi.populateFromParent parent).setDifficulty d).setGasLimit (childGasLimit p parent)

theorem populateFromParent_eq_ok_iff {b : Header} : populateFromParent p sha3 bi parent = .ok b ↔
    ∃ d, calculateDifficulty p (sha3 [0xc0]) (bi.populateFromParent parent) parent = .ok d ∧ made p bi parent d = b := by
  rw [populateFromParent, ExceptRules.bind_eq_ok_iff]
  simp [made]

theorem number_toNat (h : WithinLimits p bi parent) :
    (bi.populateFromParent parent).number.toNat = parent.number.toNat + 1 := by
  have hnumber := h.number
  show (parent.number + 1).toNat = _
  rw [BitVec.toNat_add]
  exact Nat.mod_eq_of_lt (show parent.number.toNat + 1 < 2 ^ 64 by omega)

/-- The difficulty that was set is what is expected. -/
theorem checkDifficulty_made {d : U256}
    (hd : calculateDifficulty p (sha3 [0xc0]) (bi.populateFromParent parent) parent = .ok d) :
    checkDifficulty p sha3 (made p bi parent d) parent = .ok () := by
  have hsame : calculateDifficulty p (sha3 [0xc0]) (made p bi parent d) parent = .ok d := hd
  rw [checkDifficulty, hsame]
  exact require_eq_ok_iff.2 rfl

theorem passes_made (h : WithinLimits p bi parent) {d : U256}
    (hd : calculateDifficulty p (sha3 [0xc0]) (bi.populateFromParent parent) parent = .ok d)
    (hminimum : p.minimumDifficulty.toNat ≤ d.toNat)
    (hgrowth : 3141562 ≤ parent.gasLimit.toNat →
      growth p parent + 1 < 2 * (parent.gasLimit.toNat / p.gasLimitBoundDivisor.toNat)) :
    Passes p sha3 (made p bi parent d) parent := by
  have hlimit := (childGasLimit_iff h).2 hgrowth
  have hnumber := number_toNat h
  have hlt := h.number
  refine ⟨require_eq_ok_iff.2 ?_, require_eq_ok_iff.2 rfl, require_eq_ok_iff.2 (BitVec.le_def.2 hminimum),
    checkDifficulty_made hd, require_eq_ok_iff.2 hlimit.1, require_eq_ok_iff.2 hlimit.2.1, require_eq_ok_iff.2 hlimit⟩
  show (bi.populateFromParent parent).number.toInt ≤ _
  rw [toInt_eq_toNat (by omega), hnumber]
  omega

/-- Whatever it throws, it is no exception of these checks. -/
def Spares (x : Check) : Prop := ∀ e, x = .error e → e.isChecked = false

theorem Spares.of_ok {x : Check} (h : x = .ok ()) : Spares x := fun e he => by
  rw [h] at he
  cases he

theorem Spares.bind {α : Type} {x : Except VerifyException α} {f : α → Check} (hx : ∀ e, x = .error e → e.isChecked = false)
    (hf : ∀ a, Spares (f a)) : Spares (x >>= f) := by
  intro e he
  cases x with
  | ok a => exact hf a e he
  | error _ =>
    cases he
    exact hx _ rfl

theorem Spares.inCase {c : Prop} [Decidable c] {x : Check} (hx : Spares x) : Spares (inCase c x) := by
  rw [Ethash.inCase]
  split_ifs
  · exact hx
  · exact .of_ok rfl

theorem spares_require {c : Prop} [Decidable c] {e : VerifyException} (he : e.isChecked = false) : Spares (require c e) := by
  intro e' he'
  rw [require] at he'
  split at he'
  · cases he'
  · cases he'
    exact he

theorem spares_checkParentHash (bi parent : Header) : Spares (checkParentHash sha3 bi parent) := by
  rw [checkParentHash]
  split_ifs
  · exact .of_ok rfl
  · refine .bind (fun e he => ?_) fun _ => spares_require rfl
    cases hhash : parent.hash sha3 .withSeal with
    | ok a =>
      rw [hhash] at he
      cases he
    | error e' =>
      rw [hhash] at he
      cases he
      rfl

/-- What passes the checks is refused for other reasons only. -/
theorem verify_spares (h : Passes p sha3 bi parent) (s : Strictness) (verifySeal quickVerifySeal : Bool) :
    Spares (verify p sha3 bi parent s verifySeal quickVerifySeal) := by
  have hheader : Spares (verifyHeader sha3 bi parent s) := by
    refine .bind (Spares.of_ok h.number) fun _ => .bind (Spares.inCase (spares_require rfl)) fun _ => .inCase ?_
    exact .bind (spares_checkParentHash _ _) fun _ => .bind (spares_require rfl) fun _ => .of_ok h.successor
  have hlimits : Spares (do
      checkMinimumDifficulty p bi
      checkMinGasLimit p bi
      checkMaxGasLimit p bi
      checkExtraDataSize p bi
      checkDaoExtraData p bi) := by
    refine .bind (Spares.of_ok h.minimumDifficulty) fun _ => .bind (Spares.of_ok h.minGasLimit) fun _ => ?_
    refine .bind (Spares.of_ok h.maxGasLimit) fun _ => .bind (spares_require rfl) fun _ => spares_require rfl
  have hparent : Spares (do
      checkDifficulty p sha3 bi parent
      checkGasLimit p bi parent) := .bind (Spares.of_ok h.difficulty) fun _ => .of_ok h.gasLimit
  refine .bind hheader fun _ => .bind hlimits.inCase fun _ => .bind hparent.inCase fun _ => ?_
  exact .bind (spares_require rfl).inCase fun _ => (spares_require rfl).inCase

end

/-- A header that is made passes the checks if and only if its difficulty can be computed, and the gas that was used does not
let the limit grow to the bound. -/
theorem sealed_passes_iff (h : WithinLimits p bi parent) :
    (∃ b, populateFromParent p sha3 bi parent = .ok b ∧ Passes p sha3 b parent) ↔
      (parent.number.toNat + 1 < p.homesteadForkBlock → p.difficultyBoundDivisor ≠ 0) ∧
      (3141562 ≤ parent.gasLimit.toNat → parent.gasUsed.toNat * 6 % 2 ^ 256 / 5 / p.gasLimitBoundDivisor.toNat + 1 <
        2 * (parent.gasLimit.toNat / p.gasLimitBoundDivisor.toNat)) := by
  have hnumber := number_toNat h
  have hlt := h.number
  have hsmall : (bi.populateFromParent parent).number.toNat < 2 ^ 63 := by omega
  constructor
  · rintro ⟨b, hb, hpasses⟩
    obtain ⟨d, hd, rfl⟩ := populateFromParent_eq_ok_iff.1 hb
    refine ⟨fun hera hdivisor => ?_, (childGasLimit_iff h).1 (require_eq_ok_iff.1 hpasses.gasLimit)⟩
    have hzero : (bi.populateFromParent parent).number ≠ 0 := fun heq => by
      rw [heq] at hnumber
      exact absurd hnumber (Nat.succ_ne_zero _).symm
    cases hd.symm.trans (calculateDifficulty_divisionByZero hsmall hzero (hnumber.trans_lt hera) hdivisor)
  · rintro ⟨hdivisor, hgrowth⟩
    have hd := @calculateDifficulty_eq p (sha3 [0xc0]) (bi.populateFromParent parent) parent hsmall h.timestamp.2 (by omega)
      h.timestamp.1 (by rwa [hnumber])
    have hminimum := minimum_le_clip (p := p) (idealSum p (sha3 [0xc0]) (bi.populateFromParent parent) parent -
      lost p (bi.populateFromParent parent) parent)
    rw [← clip_toNat] at hminimum
    exact ⟨_, populateFromParent_eq_ok_iff.2 ⟨_, hd, rfl⟩, passes_made h hd (by exact_mod_cast hminimum) hgrowth⟩

/-- A parent on the chain of the defaults -/
def parentOfFirst : Header where
  timestamp := 0
  gasLimit := 5000
  difficulty := 0x020000

theorem sealed_passes_first :
    ∃ b, populateFromParent defaults (fun _ => 0) { firstBlock with timestamp := 1 } parentOfFirst = .ok b ∧
      Passes defaults (fun _ => 0) b parentOfFirst := by
  refine (sealed_passes_iff defaults (fun _ => 0) { firstBlock with timestamp := 1 } parentOfFirst ?_).2
    ⟨fun _ => by decide, by decide⟩
  constructor <;> decide

/-- A divisor so large that the limit of the parent is a single step. -/
def coarse : Params :=
  { defaults with gasLimitBoundDivisor := 3141561, minGasLimit := 3141562 }

theorem not_sealed_passes : ¬∀ (p : Params) (sha3 : Bytes → Rlp.FixedHash 32) (bi parent : Header), WithinLimits p bi parent →
    ∃ b, populateFromParent p sha3 bi parent = .ok b ∧ Passes p sha3 b parent := by
  intro h
  have hlimits : WithinLimits coarse { firstBlock with timestamp := 1 }
      { parentOfFirst with gasLimit := 3141562, gasUsed := 3141562 } := by
    constructor <;> decide
  obtain ⟨b, hb, hpasses⟩ := h coarse (fun _ => 0) _ _ hlimits
  obtain ⟨d, -, rfl⟩ := populateFromParent_eq_ok_iff.1 hb
  have hgrowth := (childGasLimit_iff hlimits).1 (require_eq_ok_iff.1 hpasses.gasLimit)
  revert hgrowth
  decide

end Kmdx.Ethash
