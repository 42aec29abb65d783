import Kmdx.Core
import Kmdx.Lib.ExceptRules
import Mathlib.Data.Nat.Log

/-!
# Modular exponentiation (`libwingcore/Precompiled.cpp`)

The price is square in the length of the base and of the modulus but linear in that of the exponent, of which it takes a
twentieth. So a price that an `int64_t` holds rules out a base or a modulus that is too long for the executor, and not an
exponent. Big integers are as long as they have to be.
-/

namespace Kmdx.Precompiled

open ExceptRules List

/-- An assertion fails. -/
inductive Failure
  | assertion
deriving DecidableEq

/-- `numeric_limits<size_t>::max() / 8` -/
def sizeLimit : Nat := (2 ^ 64 - 1) / 8

/-- `assert` -/
def require (condition : Prop) [Decidable condition] : Except Failure Unit := if condition then return else throw .assertion

/-- As if there were zeros to the right. -/
def parseBigEndianRightPadded (input : Bytes) (start count : Nat) : Except Failure Nat :=
  if start > input.length then return 0
  else do
    require (count ≤ sizeLimit)
    let cropped := (input.drop start).take (min count (input.length - start))
    require (count - cropped.length ≤ sizeLimit)
    return BigEndian.ofBytes cropped <<< (8 * (count - cropped.length))

/-- `boost::multiprecision::powm` -/
def powm (base exp mod : Nat) : Nat := base ^ exp % mod

/-- `modexp` -/
def modexp (input : Bytes) : Except Failure (Bool × Bytes) := do
  let baseLength ← parseBigEndianRightPadded input 0 32
  let expLength ← parseBigEndianRightPadded input 32 32
  let modLength ← parseBigEndianRightPadded input 64 32
  require (modLength ≤ sizeLimit) -- Otherwise gas should be too expensive.
  require (baseLength ≤ sizeLimit) -- Otherwise, gas should be too expensive.
  if modLength = 0 ∧ baseLength = 0 then
    return (true, []) -- This is a special case where expLength can be very big.
  require (expLength ≤ sizeLimit)
  let base ← parseBigEndianRightPadded input 96 baseLength
  let exp ← parseBigEndianRightPadded input (96 + baseLength) expLength
  let mod ← parseBigEndianRightPadded input (96 + baseLength + expLength) modLength
  let result := if mod ≠ 0 then powm base exp mod else 0
  return (true, BigEndian.toBytes modLength result)

/-- `msb`, but 0 of 0 -/
def highestBit (n : Nat) : Nat := if n ≠ 0 then Nat.log2 n else 0

def expLengthAdjust (expOffset expLength : Nat) (input : Bytes) : Except Failure Nat :=
  if expLength ≤ 32 then do
    return highestBit (← parseBigEndianRightPadded input expOffset expLength)
  else do
    return 8 * (expLength - 32) + highestBit (← parseBigEndianRightPadded input expOffset 32)

def multComplexity (x : Nat) : Nat :=
  if x ≤ 64 then x * x
  else if x ≤ 1024 then x * x / 4 + 96 * x - 3072
  else x * x / 16 + 480 * x - 199680

/-- The pricer of `modexp` -/
def modexpPrice (input : Bytes) : Except Failure Nat := do
  let baseLength ← parseBigEndianRightPadded input 0 32
  let expLength ← parseBigEndianRightPadded input 32 32
  let modLength ← parseBigEndianRightPadded input 64 32
  let maxLength := max modLength baseLength
  let adjustedExpLength ← expLengthAdjust (baseLength + 96) expLength input
  return multComplexity maxLength * max adjustedExpLength 1 / 20

/-! ### What is to be computed -/

/-- The number in a slice of the input, which has zeros behind it. -/
def slice (input : Bytes) (start count : Nat) : Nat :=
  BigEndian.ofBytes ((List.range count).map fun i => input.getD (start + i) 0)

def baseLength (input : Bytes) : Nat := slice input 0 32

def expLength (input : Bytes) : Nat := slice input 32 32

def modLength (input : Bytes) : Nat := slice input 64 32

/-- The power, or zero without a modulus. -/
def power (input : Bytes) : Nat :=
  let base := slice input 96 (baseLength input)
  let exp := slice input (96 + baseLength input) (expLength input)
  let mod := slice input (96 + baseLength input + expLength input) (modLength input)
  if mod = 0 then 0 else base ^ exp % mod

/-- If its price is one of an `int64_t`, the input is computed with. -/
def Executable (input : Bytes) : Prop := ∀ price, modexpPrice input = .ok price → price ≤ 2 ^ 63 - 1 →
  ∃ ret, modexp input = .ok (true, ret) ∧ ret.length = modLength input ∧ BigEndian.ofBytes ret = power input

/-! ### Slices -/

variable {input : Bytes} {start count : Nat}

theorem map_getD_range (l : Bytes) (count : Nat) :
    (List.range count).map (fun i => l.getD i 0) = l.take count ++ List.replicate (count - l.length) 0 := by
  induction l generalizing count with
  | nil =>
    rw [take_nil, nil_append, length_nil, Nat.sub_zero]
    exact eq_replicate_iff.2 ⟨by simp, by simp⟩
  | cons x l ih =>
    cases count with
    | zero => simp
    | succ count =>
      have hshift : (List.range count).map (fun i => (x :: l).getD (i + 1) 0) = (List.range count).map fun i => l.getD i 0 :=
        map_congr_left fun i _ => getD_cons_succ
      rw [range_succ_eq_map, map_cons, map_map, take_succ_cons, length_cons, Nat.succ_sub_succ,
        cons_append, ← ih count, ← hshift]
      rfl

theorem slice_eq (input : Bytes) (start count : Nat) : slice input start count =
    BigEndian.ofBytes ((input.drop start).take count ++ List.replicate (count - (input.length - start)) 0) := by
  have hdrop : (List.range count).map (fun i => input.getD (start + i) 0) =
      (List.range count).map fun i => (input.drop start).getD i 0 :=
    map_congr_left fun i _ => by rw [List.getD_eq_getElem?_getD, List.getD_eq_getElem?_getD, List.getElem?_drop]
  rw [slice, hdrop, map_getD_range, length_drop]

theorem slice_lt : slice input start count < 256 ^ count := by
  have hlt := BigEndian.ofBytes_lt ((List.range count).map fun i => input.getD (start + i) 0)
  rwa [length_map, length_range] at hlt

theorem require_of {condition : Prop} [Decidable condition] (h : condition) : require condition = .ok () := if_pos h

theorem parse_eq (h : count ≤ sizeLimit) : parseBigEndianRightPadded input start count = .ok (slice input start count) := by
  rw [slice_eq, parseBigEndianRightPadded]
  split
  · rename_i hend
    rw [drop_eq_nil_of_le (by omega), take_nil, nil_append, BigEndian.ofBytes_replicate_zero]
    rfl
  · rename_i hstart
    have htake : (input.drop start).take (min count (input.length - start)) = (input.drop start).take count := by
      rw [take_eq_take_iff, length_drop]
      omega
    have hlen : ((input.drop start).take count).length = min count (input.length - start) := by
      rw [length_take, length_drop]
    have hpad : count - min count (input.length - start) = count - (input.length - start) := by omega
    simp only [htake, hlen, hpad]
    rw [require_of h, ok_bind, require_of (by omega), ok_bind, BigEndian.ofBytes_append, length_replicate,
      BigEndian.ofBytes_replicate_zero, Nat.shiftLeft_eq, pow_mul, Nat.add_zero]
    rfl

/-! ### Prices -/

/-- The bits of the exponent but the first, as the pricer sees them -/
def adjustedExpLength (input : Bytes) : Nat :=
  if expLength input ≤ 32 then highestBit (slice input (baseLength input + 96) (expLength input))
  else 8 * (expLength input - 32) + highestBit (slice input (baseLength input + 96) 32)

/-- The price, from the slices -/
def price (input : Bytes) : Nat :=
  multComplexity (max (modLength input) (baseLength input)) * max (adjustedExpLength input) 1 / 20

theorem modexpPrice_eq (input : Bytes) : modexpPrice input = .ok (price input) := by
  have hword : 32 ≤ sizeLimit := by decide
  have hadjust : expLengthAdjust (baseLength input + 96) (expLength input) input = .ok (adjustedExpLength input) := by
    rw [expLengthAdjust, adjustedExpLength]
    split
    · rename_i hle
      rw [parse_eq (hle.trans hword)]
      rfl
    · rw [parse_eq hword]
      rfl
  have hparse : ∀ start, parseBigEndianRightPadded input start 32 = .ok (slice input start 32) := fun _ => parse_eq hword
  rw [modexpPrice, hparse, ok_bind, hparse, ok_bind, hparse, ok_bind]
  show (expLengthAdjust (baseLength input + 96) (expLength input) input >>= _) = _
  rw [hadjust]
  rfl

/-- The price is square in the longer one of both. -/
theorem lt_multComplexity {x : Nat} (h : sizeLimit < x) : 20 * 2 ^ 63 ≤ multComplexity x := by
  have hlimit : sizeLimit = 2305843009213693951 := by decide
  have hsquare : 2305843009213693952 * 2305843009213693952 ≤ x * x := Nat.mul_le_mul (by omega) (by omega)
  rw [multComplexity, if_neg (by omega), if_neg (by omega)]
  generalize x * x = square at hsquare
  omega

theorem le_sizeLimit_of_price (h : price input ≤ 2 ^ 63 - 1) :
    modLength input ≤ sizeLimit ∧ baseLength input ≤ sizeLimit := by
  rw [← Nat.max_le]
  by_contra hgt
  have hcomplexity := lt_multComplexity (not_le.1 hgt)
  rw [price] at h
  generalize multComplexity (max (modLength input) (baseLength input)) = complexity at h hcomplexity
  have hone : 1 ≤ max (adjustedExpLength input) 1 := Nat.le_max_right _ _
  have hprice : complexity ≤ complexity * max (adjustedExpLength input) 1 := Nat.le_mul_of_pos_right complexity hone
  have hdiv := (Nat.div_le_div_right (c := 20) hprice).trans h
  omega

/-! ### Execution -/

/-- The executor up to the special case -/
theorem modexp_of_price (h : price input ≤ 2 ^ 63 - 1) : modexp input =
    if modLength input = 0 ∧ baseLength input = 0 then .ok (true, [])
    else do
      require (expLength input ≤ sizeLimit)
      let base ← parseBigEndianRightPadded input 96 (baseLength input)
      let exp ← parseBigEndianRightPadded input (96 + baseLength input) (expLength input)
      let mod ← parseBigEndianRightPadded input (96 + baseLength input + expLength input) (modLength input)
      let result := if mod ≠ 0 then powm base exp mod else 0
      return (true, BigEndian.toBytes (modLength input) result) := by
  obtain ⟨hmod, hbase⟩ := le_sizeLimit_of_price h
  have hparse : ∀ start, parseBigEndianRightPadded input start 32 =
      .ok (slice input start 32) := fun _ => parse_eq (by decide)
  have hmod' : require (slice input 64 32 ≤ sizeLimit) = .ok () := require_of hmod
  have hbase' : require (slice input 0 32 ≤ sizeLimit) = .ok () := require_of hbase
  rw [modexp, hparse, ok_bind, hparse, ok_bind, hparse, ok_bind, hmod', ok_bind, hbase', ok_bind]
  rfl

theorem modexp_of_exp_le (h : price input ≤ 2 ^ 63 - 1) (hne : ¬ (modLength input = 0 ∧ baseLength input = 0))
    (hexp : expLength input ≤ sizeLimit) : modexp input = .ok (true, BigEndian.toBytes (modLength input) (power input)) := by
  obtain ⟨hmod, hbase⟩ := le_sizeLimit_of_price h
  rw [modexp_of_price h, if_neg hne, require_of hexp, ok_bind, parse_eq hbase, ok_bind, parse_eq hexp, ok_bind,
    parse_eq hmod, ok_bind, power, powm]
  by_cases hzero : slice input (96 + baseLength input + expLength input) (modLength input) = 0
  · simp [hzero]
  · simp [hzero]

theorem modexp_of_exp_gt (h : price input ≤ 2 ^ 63 - 1) (hne : ¬ (modLength input = 0 ∧ baseLength input = 0))
    (hexp : sizeLimit < expLength input) : modexp input = .error .assertion := by
  rw [modexp_of_price h, if_neg hne, require, if_neg (not_le.2 hexp)]
  rfl

theorem power_lt (input : Bytes) : power input < 256 ^ modLength input := by
  rw [power]
  split
  · exact Nat.pow_pos (by decide)
  · rename_i hne
    exact (Nat.mod_lt _ (Nat.pos_of_ne_zero hne)).trans slice_lt

/-- An input with a price that an `int64_t` holds is computed with exactly if the exponent is not too long, or does not
matter.
-/
theorem executable_iff (input : Bytes) : Executable input ↔
    2 ^ 63 - 1 < price input ∨ modLength input = 0 ∧ baseLength input = 0 ∨ expLength input ≤ sizeLimit := by
  constructor
  · intro h
    by_contra hnot
    rw [not_or, not_or, not_lt, not_le] at hnot
    obtain ⟨ret, hret, -⟩ := h (price input) (modexpPrice_eq input) hnot.1
    rw [modexp_of_exp_gt hnot.1 hnot.2.1 hnot.2.2] at hret
    cases hret
  · intro h p hp hle
    rw [modexpPrice_eq, Except.ok.injEq] at hp
    subst hp
    by_cases hzero : modLength input = 0 ∧ baseLength input = 0
    · have hpower := power_lt input
      rw [hzero.1, pow_zero, Nat.lt_one_iff] at hpower
      refine ⟨[], ?_, hzero.1.symm, hpower.symm⟩
      rw [modexp_of_price hle, if_pos hzero]
    · have hexp : expLength input ≤ sizeLimit := (h.resolve_left (not_lt.2 hle)).resolve_left hzero
      refine ⟨_, modexp_of_exp_le hle hzero hexp, BigEndian.length_toBytes _ _, ?_⟩
      rw [BigEndian.ofBytes_toBytes, Nat.mod_eq_of_lt (power_lt input)]

/-- No base, an exponent of 2^62 bytes and a modulus of one -/
def longExponent : Bytes := BigEndian.toBytes 32 0 ++ BigEndian.toBytes 32 (2 ^ 62) ++ BigEndian.toBytes 32 1

/-- It costs 1844674407370955148. -/
theorem not_executable : ¬ Executable longExponent := by
  intro h
  obtain ⟨ret, hret, -⟩ := h 1844674407370955148 (by decide +kernel) (by decide)
  have hfails : modexp longExponent = .error .assertion := by decide +kernel
  rw [hfails] at hret
  cases hret

end Kmdx.Precompiled
