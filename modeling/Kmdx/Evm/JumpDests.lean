import Mathlib.Data.List.GetD
import Kmdx.Core
import Kmdx.Lib.BinarySearch

/-!
# Jump destinations (`LegacyVM::optimize`, `VM::optimize`, `verifyJumpDest`)

The code is copied and extended, and read once from its first byte on. The jump destinations that are met are noted,
and opcodes that only the interpreter may generate are made invalid. What is noted are the `JUMPDEST`s at which an
instruction begins (`mem_jumpDests_iff`), in ascending order, so that the binary search finds exactly these
(`verifyJumpDest_iff`).
-/

namespace Kmdx.Evm

open BinarySearch

/-! ### Opcodes -/

namespace Instruction

def STOP : UInt8 := 0x00
def JUMP : UInt8 := 0x56
def JUMPI : UInt8 := 0x57
def JUMPDEST : UInt8 := 0x5b
def PUSH1 : UInt8 := 0x60
def PUSH32 : UInt8 := 0x7f
/-- Push a value from the constant pool. -/
def PUSHC : UInt8 := 0xac
/-- `JUMP` to what has been verified. -/
def JUMPC : UInt8 := 0xad
def JUMPCI : UInt8 := 0xae
def INVALID : UInt8 := 0xfe

end Instruction

open Instruction

def isPush (op : UInt8) : Bool := PUSH1 ≤ op ∧ op ≤ PUSH32

/-- The bytes that a `PUSH` pushes, 0 for another instruction -/
def nPush (op : UInt8) : Nat := if isPush op then op.toNat - PUSH1.toNat + 1 else 0

/-- Generated by the interpreter, and never to be in user code -/
def isSynthetic (op : UInt8) : Bool := op = PUSHC ∨ op = JUMPC ∨ op = JUMPCI

/-- What a `std::vector` of bytes may hold. -/
def maxVector : Nat := 2 ^ 63 - 1

/-- Code that fits into a vector when it has been extended. -/
structure Code where
  bytes : Bytes
  fits : bytes.length + 33 ≤ maxVector

/-- `copyCode` -/
def copyCode (code : Bytes) (extraBytes : Nat) : Bytes := code ++ List.replicate extraBytes 0

/-! ### The first pass -/

/-- The loop of the first pass from `pc` on: `m_code`, and `m_jumpDests`. -/
def buildTable (nBytes pc : Nat) (code : Bytes) (jumpDests : List Nat) : Bytes × List Nat :=
  if pc < nBytes then
    let op := code.getD pc 0
    let code := if isSynthetic op then code.set pc INVALID else code
    if op = JUMPDEST then buildTable nBytes (pc + 1) code (jumpDests ++ [pc])
    else buildTable nBytes (pc + nPush op + 1) code jumpDests
  else (code, jumpDests)
termination_by nBytes - pc

/-- The first pass of `optimize` -/
def firstPass (code : Code) : Bytes × List Nat := buildTable code.bytes.length 0 (copyCode code.bytes 33) []

/-- `verifyJumpDest`, which throws `BadJumpDestination` or returns -1 where there is none. -/
def verifyJumpDest (jumpDests : List Nat) (dest : U256) : Option Nat :=
  if dest.toNat ≤ 0x7FFFFFFFFFFFFFFF then
    if binarySearch jumpDests dest.toNat then some dest.toNat else none
  else none

/-! ### Where instructions begin -/

/-- An instruction begins at `d` if the code is read from `pc` on. -/
inductive Follows (code : Bytes) : Nat → Nat → Prop
  | refl (pc : Nat) : Follows code pc pc
  | next {pc d : Nat} (op : UInt8) : code[pc]? = some op → Follows code (pc + nPush op + 1) d → Follows code pc d

/-- An instruction begins at `d`, or the code has ended there. -/
def Boundary (code : Bytes) (d : Nat) : Prop := Follows code 0 d

/-- A destination to jump to -/
structure Valid (code : Bytes) (d : Nat) : Prop where
  get : code[d]? = some JUMPDEST
  boundary : Boundary code d

variable {bs now : Bytes} {pc d n : Nat} {dests : List Nat} {op : UInt8}

theorem Follows.le (h : Follows bs pc d) : pc ≤ d := by
  induction h with
  | refl pc => exact le_rfl
  | next op _ _ ih => omega

theorem Follows.trans {e : Nat} (h : Follows bs pc d) (h' : Follows bs d e) : Follows bs pc e := by
  induction h with
  | refl pc => exact h'
  | next op hop _ ih => exact .next op hop (ih h')

theorem Boundary.next (h : Boundary bs d) (hop : bs[d]? = some op) : Boundary bs (d + nPush op + 1) :=
  h.trans (.next op hop (.refl _))

/-- What follows an instruction is the instruction itself, or follows the next one. -/
theorem follows_iff (hop : bs[pc]? = some op) : Follows bs pc d ↔ d = pc ∨ Follows bs (pc + nPush op + 1) d := by
  constructor
  · rintro (_ | ⟨op', hop', h⟩)
    · exact .inl rfl
    · rw [hop] at hop'
      cases hop'
      exact .inr h
  · rintro (rfl | h)
    · exact .refl _
    · exact .next op hop h

/-- There is one way to read the code. -/
theorem Follows.of_le {e : Nat} (h : Follows bs pc d) (h' : Follows bs pc e) (hle : d ≤ e) : Follows bs d e := by
  induction h with
  | refl pc => exact h'
  | @next pc d op hop hd ih =>
    have hlt := hd.le
    rcases (follows_iff hop).1 h' with rfl | h'
    · omega
    · exact ih h' hle

/-- An instruction as the interpreter finds it -/
def marked (op : UInt8) : UInt8 := if isSynthetic op then INVALID else op

theorem nPush_of_isSynthetic (h : isSynthetic op = true) : nPush op = 0 ∧ op ≠ JUMPDEST := by
  have hop : op = PUSHC ∨ op = JUMPC ∨ op = JUMPCI := by simpa [isSynthetic] using h
  rcases hop with rfl | rfl | rfl <;> decide

@[simp] theorem nPush_marked (op : UInt8) : nPush (marked op) = nPush op := by
  rw [marked]
  split
  · rename_i h
    rw [(nPush_of_isSynthetic h).1]
    rfl
  · rfl

/-! ### What the first pass leaves -/

/-- The code in the loop: from `pc` on it is as it was. -/
def Agrees (bs now : Bytes) (pc : Nat) : Prop := ∀ i, pc ≤ i → now.getD i 0 = bs.getD i 0

theorem getD_eq_of_get (h : bs[pc]? = some op) : bs.getD pc 0 = op := by
  rw [List.getD_eq_getElem?_getD, h, Option.getD_some]

theorem getD_set_ne {i j : Nat} (l : Bytes) (x : UInt8) (h : i ≠ j) : (l.set i x).getD j 0 = l.getD j 0 := by
  rw [List.getD_eq_getElem?_getD, List.getElem?_set_ne h, ← List.getD_eq_getElem?_getD]

/-- One turn of the loop. -/
theorem buildTable_of_get (hlt : pc < n) (hnow : now.getD pc 0 = op) :
    buildTable n pc now dests = buildTable n (pc + nPush op + 1)
      (if isSynthetic op then now.set pc INVALID else now) (if op = JUMPDEST then dests ++ [pc] else dests) := by
  conv_lhs => rw [buildTable]
  rw [if_pos hlt, hnow]
  by_cases hdest : op = JUMPDEST
  · subst hdest
    rw [if_pos rfl, if_pos rfl]
    rfl
  · rw [if_neg hdest, if_neg hdest]

theorem Agrees.next (h : Agrees bs now pc) (op : UInt8) :
    Agrees bs (if isSynthetic op then now.set pc INVALID else now) (pc + nPush op + 1) := by
  intro i hi
  split
  · rw [getD_set_ne _ _ (by omega), h i (by omega)]
  · exact h i (by omega)

/-- What holds at the end of the loop if each turn keeps it. -/
theorem buildTable_induct (dests : List Nat) {P : Nat → Bytes → List Nat → Prop} (h : Agrees bs now pc) (hP : P pc now dests)
    (hstep : ∀ pc now dests op, bs[pc]? = some op → Agrees bs now pc → P pc now dests →
      P (pc + nPush op + 1) (if isSynthetic op then now.set pc INVALID else now)
        (if op = JUMPDEST then dests ++ [pc] else dests)) :
    ∃ pc', bs.length ≤ pc' ∧ P pc' (buildTable bs.length pc now dests).1 (buildTable bs.length pc now dests).2 := by
  induction hsize : bs.length - pc using Nat.strong_induction_on generalizing pc now dests with
  | _ k ih =>
    by_cases hlt : pc < bs.length
    · have hop : bs[pc]? = some bs[pc] := List.getElem?_eq_getElem hlt
      rw [buildTable_of_get hlt ((h pc le_rfl).trans (getD_eq_of_get hop))]
      exact ih _ (by omega) _ (h.next _) (hstep _ _ _ _ hop h hP) rfl
    · rw [buildTable, if_neg hlt]
      exact ⟨pc, not_lt.1 hlt, hP⟩

/-- The table in the loop -/
structure Table (bs : Bytes) (pc : Nat) (dests : List Nat) : Prop where
  boundary : Boundary bs pc
  sorted : dests.Pairwise (· < ·)
  lt : ∀ d ∈ dests, d < pc
  mem : ∀ d, d ∈ dests ↔ Valid bs d ∧ d < pc

theorem Table.start (bs : Bytes) : Table bs 0 [] where
  boundary := .refl 0
  sorted := .nil
  lt := nofun
  mem d := by simp

theorem Table.next (h : Table bs pc dests) (hop : bs[pc]? = some op) :
    Table bs (pc + nPush op + 1) (if op = JUMPDEST then dests ++ [pc] else dests) := by
  have hvalid : ∀ d, Valid bs d ∧ d < pc + nPush op + 1 ↔ Valid bs d ∧ d < pc ∨ d = pc ∧ op = JUMPDEST := by
    intro d
    constructor
    · rintro ⟨hd, hlt⟩
      by_cases hpc : d < pc
      · exact .inl ⟨hd, hpc⟩
      · -- Between two instructions that follow each other none begins.
        rcases (follows_iff hop).1 (h.boundary.of_le hd.boundary (not_lt.1 hpc)) with rfl | hfollows
        · exact .inr ⟨rfl, Option.some.inj (hop.symm.trans hd.get)⟩
        · have hle := hfollows.le
          omega
    · rintro (⟨hd, hlt⟩ | ⟨rfl, rfl⟩)
      · exact ⟨hd, by omega⟩
      · exact ⟨⟨hop, h.boundary⟩, by omega⟩
  split
  · rename_i hdest
    refine ⟨h.boundary.next hop, ?_, ?_, fun d => ?_⟩
    · rw [List.pairwise_append]
      exact ⟨h.sorted, List.pairwise_singleton _ _, fun d hd e he => List.mem_singleton.1 he ▸ h.lt d hd⟩
    · intro d hd
      rcases List.mem_append.1 hd with hd | hd
      · have hlt := h.lt d hd
        omega
      · rw [List.mem_singleton.1 hd]
        omega
    · rw [hvalid, List.mem_append, h.mem, List.mem_singleton, and_iff_left hdest]
  · rename_i hdest
    refine ⟨h.boundary.next hop, h.sorted, fun d hd => ?_, fun d => ?_⟩
    · have hlt := h.lt d hd
      omega
    · rw [hvalid, h.mem, or_iff_left fun hd => hdest hd.2]

theorem agrees_copyCode (bs : Bytes) (k : Nat) : Agrees bs (copyCode bs k) 0 := by
  intro i _
  rw [copyCode, List.getD_eq_getElem?_getD, List.getD_eq_getElem?_getD]
  by_cases hi : i < bs.length
  · rw [List.getElem?_append_left hi]
  · rw [List.getElem?_append_right (not_lt.1 hi), List.getElem?_eq_none (not_lt.1 hi), List.getElem?_replicate]
    split <;> rfl

theorem length_copyCode (bs : Bytes) (k : Nat) : (copyCode bs k).length = bs.length + k := by
  rw [copyCode, List.length_append, List.length_replicate]

variable (code : Code)

/-- `m_jumpDests` are the destinations in ascending order. -/
theorem jumpDests_spec : (firstPass code).2.Pairwise (· < ·) ∧ ∀ d, d ∈ (firstPass code).2 ↔ Valid code.bytes d := by
  obtain ⟨pc, hpc, htable⟩ := buildTable_induct [] (P := fun pc _ dests => Table code.bytes pc dests)
    (agrees_copyCode code.bytes 33) (.start _) fun pc now dests op hop _ h => h.next hop
  refine ⟨htable.sorted, fun d => ?_⟩
  rw [firstPass, htable.mem, and_iff_left_iff_imp]
  intro hd
  obtain ⟨hlt, -⟩ := List.getElem?_eq_some_iff.1 hd.get
  omega

/-- The code in the loop, in front of `pc` -/
structure Marks (bs : Bytes) (pc : Nat) (now : Bytes) : Prop where
  boundary : Boundary bs pc
  length : now.length = bs.length + 33
  getD : ∀ i op, Boundary bs i → i < pc → bs[i]? = some op → now.getD i 0 = marked op

theorem Marks.next (h : Marks bs pc now) (hnow : Agrees bs now pc) (hop : bs[pc]? = some op) :
    Marks bs (pc + nPush op + 1) (if isSynthetic op then now.set pc INVALID else now) := by
  obtain ⟨hlt, -⟩ := List.getElem?_eq_some_iff.1 hop
  have hlength := h.length
  refine ⟨h.boundary.next hop, ?_, ?_⟩
  · split
    · rw [List.length_set, hlength]
    · exact hlength
  · intro i op' hi hle hop'
    by_cases hpc : i < pc
    · split
      · rw [getD_set_ne _ _ (by omega), h.getD i op' hi hpc hop']
      · exact h.getD i op' hi hpc hop'
    · rcases (follows_iff hop).1 (h.boundary.of_le hi (not_lt.1 hpc)) with rfl | hfollows
      · cases hop.symm.trans hop'
        rw [marked]
        split
        · rw [List.getD_eq_getElem?_getD, List.getElem?_set_self (by omega), Option.getD_some]
        · rw [hnow i le_rfl, getD_eq_of_get hop]
      · have hge := hfollows.le
        omega

/-- `m_code` has the instructions where they begin in the code, and zeros behind it. -/
theorem code_spec : (firstPass code).1.length = code.bytes.length + 33 ∧
    (∀ i op, Boundary code.bytes i → code.bytes[i]? = some op → (firstPass code).1.getD i 0 = marked op) ∧
    ∀ i, code.bytes.length ≤ i → (firstPass code).1.getD i 0 = 0 := by
  have hstart : Marks code.bytes 0 (copyCode code.bytes 33) :=
    ⟨.refl 0, length_copyCode _ _, fun i op _ hi => absurd hi (Nat.not_lt_zero i)⟩
  have hcopy : ∀ i, code.bytes.length ≤ i → (copyCode code.bytes 33).getD i 0 = 0 := by
    intro i hi
    rw [agrees_copyCode _ _ i (Nat.zero_le _), List.getD_eq_default _ _ hi]
  obtain ⟨pc, hpc, hmarks, hzero⟩ := buildTable_induct []
    (P := fun pc now _ => Marks code.bytes pc now ∧ ∀ i, code.bytes.length ≤ i → now.getD i 0 = 0)
    (agrees_copyCode code.bytes 33) ⟨hstart, hcopy⟩ fun pc now _ op hop hnow h => ⟨h.1.next hnow hop, fun i hi => by
      obtain ⟨hlt, -⟩ := List.getElem?_eq_some_iff.1 hop
      split
      · rw [getD_set_ne _ _ (by omega), h.2 i hi]
      · exact h.2 i hi⟩
  refine ⟨hmarks.length, fun i op hi hop => hmarks.getD i op hi ?_ hop, hzero⟩
  obtain ⟨hlt, -⟩ := List.getElem?_eq_some_iff.1 hop
  omega

/-- Only synthetic opcodes are written over. -/
theorem code_getD {i : Nat} (h : isSynthetic (code.bytes.getD i 0) = false) :
    (firstPass code).1.getD i 0 = code.bytes.getD i 0 := by
  obtain ⟨-, -, hkept⟩ := buildTable_induct []
    (P := fun _ now _ => now.getD i 0 = code.bytes.getD i 0)
    (agrees_copyCode code.bytes 33) (agrees_copyCode code.bytes 33 i (Nat.zero_le i)) fun pc now _ op hop _ hkept => by
      split
      · rename_i hsynthetic
        have hne : pc ≠ i := by
          rintro rfl
          rw [getD_eq_of_get hop, hsynthetic] at h
          cases h
        rw [getD_set_ne _ _ hne, hkept]
      · exact hkept
  exact hkept

/-- What is verified is what may be jumped to. -/
theorem verifyJumpDest_iff (dest : U256) (d : Nat) :
    verifyJumpDest (firstPass code).2 dest = some d ↔ Valid code.bytes dest.toNat ∧ d = dest.toNat := by
  obtain ⟨hsorted, hmem⟩ := jumpDests_spec code
  have hsearch := binarySearch_iff (x := dest.toNat) (hsorted.imp le_of_lt)
  rw [hmem] at hsearch
  have hfits : Valid code.bytes dest.toNat → dest.toNat ≤ 0x7FFFFFFFFFFFFFFF := by
    intro hvalid
    obtain ⟨hlt, -⟩ := List.getElem?_eq_some_iff.1 hvalid.get
    have hfits := code.fits
    have hmax : maxVector = 0x7FFFFFFFFFFFFFFF := rfl
    omega
  rw [verifyJumpDest]
  by_cases hvalid : Valid code.bytes dest.toNat
  · rw [if_pos (hfits hvalid), if_pos (hsearch.2 hvalid), Option.some_inj, eq_comm, and_iff_right hvalid]
  · rw [if_neg fun h => hvalid (hsearch.1 h), ite_self]
    exact ⟨nofun, fun h => absurd h.1 hvalid⟩

end Kmdx.Evm
