import Kmdx.Evm.MemoryRun
import Kmdx.Lib.Fuel

/-!
# The other instructions (`LegacyVM::interpretCases`, `LegacyVM::exec`)

Most of the instructions that leave the memory alone take some words from the stack, pay, and put one word there; they are the
rows of a table (`rows`). With the few others, and those that use the memory, they make up all cases of the interpreter
(`legacyCases`).
-/

namespace Kmdx.Evm

open ExceptRules List

namespace Instruction

def ADD : UInt8 := 0x01
def MUL : UInt8 := 0x02
def SUB : UInt8 := 0x03
def DIV : UInt8 := 0x04
def SDIV : UInt8 := 0x05
def MOD : UInt8 := 0x06
def SMOD : UInt8 := 0x07
def ADDMOD : UInt8 := 0x08
def MULMOD : UInt8 := 0x09
def EXP : UInt8 := 0x0a
def SIGNEXTEND : UInt8 := 0x0b
def LT : UInt8 := 0x10
def GT : UInt8 := 0x11
def SLT : UInt8 := 0x12
def SGT : UInt8 := 0x13
def EQ : UInt8 := 0x14
def ISZERO : UInt8 := 0x15
def AND : UInt8 := 0x16
def OR : UInt8 := 0x17
def XOR : UInt8 := 0x18
def NOT : UInt8 := 0x19
def BYTE : UInt8 := 0x1a
def SHL : UInt8 := 0x1b
def SHR : UInt8 := 0x1c
def SAR : UInt8 := 0x1d
def ADDRESS : UInt8 := 0x30
def BALANCE : UInt8 := 0x31
def ORIGIN : UInt8 := 0x32
def CALLER : UInt8 := 0x33
def CALLVALUE : UInt8 := 0x34
def CALLDATALOAD : UInt8 := 0x35
def CALLDATASIZE : UInt8 := 0x36
def CODESIZE : UInt8 := 0x38
def GASPRICE : UInt8 := 0x3a
def EXTCODESIZE : UInt8 := 0x3b
def RETURNDATASIZE : UInt8 := 0x3d
def BLOCKHASH : UInt8 := 0x40
def COINBASE : UInt8 := 0x41
def TIMESTAMP : UInt8 := 0x42
def NUMBER : UInt8 := 0x43
def DIFFICULTY : UInt8 := 0x44
def GASLIMIT : UInt8 := 0x45
def POP : UInt8 := 0x50
def SLOAD : UInt8 := 0x54
def SSTORE : UInt8 := 0x55
def PC : UInt8 := 0x58
def MSIZE : UInt8 := 0x59
def GAS : UInt8 := 0x5a
def DUP1 : UInt8 := 0x80
def DUP16 : UInt8 := 0x8f
def SWAP1 : UInt8 := 0x90
def SWAP16 : UInt8 := 0x9f
def SUICIDE : UInt8 := 0xff

end Instruction

open Instruction

/-- All of `m_ext` -/
structure Host (ε : Type) extends ExtVM ε where
  origin : Address
  gasPrice : U256
  author : Address
  timestamp : Int
  number : Int
  difficulty : U256
  gasLimit : U256
  store : ε → U256 → U256
  setStore : ε → U256 → U256 → ε
  /-- `sub.refunds += x` -/
  addRefund : ε → Nat → ε
  suicide : ε → Address → ε
  codeSizeAt : ε → Address → Nat
  /-- It may run code. -/
  blockHash : ε → U256 → U256 × ε

/-! ### Words -/

/-- The loop of `exp256` -/
def expLoop (result base : U256) (exponent : Nat) : U256 :=
  if exponent = 0 then result
  else expLoop (if exponent % 2 = 1 then result * base else result) (base * base) (exponent / 2)
termination_by exponent
decreasing_by omega

def exp256 (base exponent : U256) : U256 := expLoop 1 base exponent.toNat

/-- Of a hash, from its first byte on -/
def firstBitSet (v : U256) : Nat := if v = 0 then 256 else 255 - v.toNat.log2

def sdiv (a b : U256) : U256 := if b = 0 then 0 else BitVec.ofInt 256 (a.toInt.tdiv b.toInt)

def smod (a b : U256) : U256 := if b = 0 then 0 else BitVec.ofInt 256 (a.toInt.tmod b.toInt)

def addmod (a b m : U256) : U256 := if m = 0 then 0 else BitVec.ofNat 256 ((a.toNat + b.toNat) % m.toNat)

def mulmod (a b m : U256) : U256 := if m = 0 then 0 else BitVec.ofNat 256 (a.toNat * b.toNat % m.toNat)

def signextend (k number : U256) : U256 :=
  if k < 31 then
    let testBit := k.toNat * 8 + 7
    let mask := (1 : U256) <<< testBit - 1
    if number.getLsbD testBit then number ||| ~~~mask else number &&& mask
  else number

def byteAt (i v : U256) : U256 := if i < 32 then v >>> (8 * (31 - i.toNat)) &&& 0xff else 0

def shl (shift v : U256) : U256 := if 256 ≤ shift then 0 else v <<< shift.toNat

def shr (shift v : U256) : U256 := if 256 ≤ shift then 0 else v >>> shift.toNat

def hibit : U256 := (1 : U256) <<< 255

def allbits : U256 := ~~~0

def sar (shift shiftee : U256) : U256 :=
  if 256 ≤ shift then
    if shiftee &&& hibit ≠ 0 then allbits else 0
  else if shiftee &&& hibit ≠ 0 then shiftee >>> shift.toNat ||| allbits <<< (256 - shift.toNat)
  else shiftee >>> shift.toNat

def boolWord (b : Bool) : U256 := if b then 1 else 0

def calldataload (data : Data) (i : U256) : U256 :=
  if i.toNat + 31 < data.bytes.length then BitVec.ofNat 256 (BigEndian.ofBytes ((data.bytes.drop i.toNat).take 32))
  else if data.bytes.length ≤ i.toNat then 0
  else BitVec.ofNat 256 (BigEndian.ofBytes ((List.range 32).map fun j =>
    if i.toNat + j < data.bytes.length then data.bytes.getD (i.toNat + j) 0 else 0))

/-! ### Instructions that put one word on the stack -/

variable {ε σ : Type}

/-- `tierStepGas` of `Tier::Base` and `Tier::Low` -/
def baseGas : Nat := 2

def lowGas : Nat := 5

/-- `m_SP[i]` -/
def Machine.sp (m : Machine σ) (i : Nat) : U256 := m.stack.getD i 0

/-- The words that an instruction takes, `m_runGas`, the word that it puts on the stack, and if there is such an instruction
yet. -/
structure Row (ε : Type) where
  op : UInt8
  args : Nat
  runGas : Machine (Seen ε) → Nat
  value : Machine (Seen ε) → U256
  enabled : Bool := true

def rows (s : EVMSchedule) (x : Host ε) : List (Row ε) := [
  { op := EXP, args := 2, runGas := fun m => s.expGas + s.expByteGas * (32 - firstBitSet (m.sp 1) / 8)
    value := fun m => exp256 (m.sp 0) (m.sp 1) },
  { op := ADD, args := 2, runGas := fun _ => veryLowGas, value := fun m => m.sp 0 + m.sp 1 },
  { op := MUL, args := 2, runGas := fun _ => lowGas, value := fun m => m.sp 0 * m.sp 1 },
  { op := SUB, args := 2, runGas := fun _ => veryLowGas, value := fun m => m.sp 0 - m.sp 1 },
  { op := DIV, args := 2, runGas := fun _ => lowGas, value := fun m => m.sp 0 / m.sp 1 },
  { op := SDIV, args := 2, runGas := fun _ => lowGas, value := fun m => sdiv (m.sp 0) (m.sp 1) },
  { op := MOD, args := 2, runGas := fun _ => lowGas, value := fun m => if m.sp 1 ≠ 0 then m.sp 0 % m.sp 1 else 0 },
  { op := SMOD, args := 2, runGas := fun _ => lowGas, value := fun m => smod (m.sp 0) (m.sp 1) },
  { op := NOT, args := 1, runGas := fun _ => veryLowGas, value := fun m => ~~~m.sp 0 },
  { op := LT, args := 2, runGas := fun _ => veryLowGas, value := fun m => boolWord (m.sp 0 < m.sp 1) },
  { op := GT, args := 2, runGas := fun _ => veryLowGas, value := fun m => boolWord (m.sp 0 > m.sp 1) },
  { op := SLT, args := 2, runGas := fun _ => veryLowGas, value := fun m => boolWord ((m.sp 0).toInt < (m.sp 1).toInt) },
  { op := SGT, args := 2, runGas := fun _ => veryLowGas, value := fun m => boolWord ((m.sp 0).toInt > (m.sp 1).toInt) },
  { op := EQ, args := 2, runGas := fun _ => veryLowGas, value := fun m => boolWord (m.sp 0 = m.sp 1) },
  { op := ISZERO, args := 1, runGas := fun _ => veryLowGas, value := fun m => boolWord (m.sp 0 = 0) },
  { op := AND, args := 2, runGas := fun _ => veryLowGas, value := fun m => m.sp 0 &&& m.sp 1 },
  { op := OR, args := 2, runGas := fun _ => veryLowGas, value := fun m => m.sp 0 ||| m.sp 1 },
  { op := XOR, args := 2, runGas := fun _ => veryLowGas, value := fun m => m.sp 0 ^^^ m.sp 1 },
  { op := BYTE, args := 2, runGas := fun _ => veryLowGas, value := fun m => byteAt (m.sp 0) (m.sp 1) },
  { op := SHL, args := 2, runGas := fun _ => veryLowGas, value := fun m => shl (m.sp 0) (m.sp 1),
    enabled := s.haveBitwiseShifting },
  { op := SHR, args := 2, runGas := fun _ => veryLowGas, value := fun m => shr (m.sp 0) (m.sp 1),
    enabled := s.haveBitwiseShifting },
  { op := SAR, args := 2, runGas := fun _ => veryLowGas, value := fun m => sar (m.sp 0) (m.sp 1),
    enabled := s.haveBitwiseShifting },
  { op := ADDMOD, args := 3, runGas := fun _ => midGas, value := fun m => addmod (m.sp 0) (m.sp 1) (m.sp 2) },
  { op := MULMOD, args := 3, runGas := fun _ => midGas, value := fun m => mulmod (m.sp 0) (m.sp 1) (m.sp 2) },
  { op := SIGNEXTEND, args := 2, runGas := fun _ => lowGas, value := fun m => signextend (m.sp 0) (m.sp 1) },
  { op := ADDRESS, args := 0, runGas := fun _ => baseGas, value := fun _ => x.myAddress.setWidth 256 },
  { op := ORIGIN, args := 0, runGas := fun _ => baseGas, value := fun _ => x.origin.setWidth 256 },
  { op := BALANCE, args := 1, runGas := fun _ => s.balanceGas, value := fun m => x.balance m.rest.ext (asAddress (m.sp 0)) },
  { op := CALLER, args := 0, runGas := fun _ => baseGas, value := fun _ => x.caller.setWidth 256 },
  { op := CALLVALUE, args := 0, runGas := fun _ => baseGas, value := fun _ => x.value },
  { op := CALLDATALOAD, args := 1, runGas := fun _ => veryLowGas, value := fun m => calldataload x.data (m.sp 0) },
  { op := CALLDATASIZE, args := 0, runGas := fun _ => baseGas, value := fun _ => BitVec.ofNat 256 x.data.bytes.length },
  { op := RETURNDATASIZE, args := 0, runGas := fun _ => baseGas
    value := fun m => BitVec.ofNat 256 m.rest.returnData.bytes.length, enabled := s.haveReturnData },
  { op := CODESIZE, args := 0, runGas := fun _ => baseGas, value := fun _ => BitVec.ofNat 256 x.code.bytes.length },
  { op := EXTCODESIZE, args := 1, runGas := fun _ => s.extcodesizeGas
    value := fun m => BitVec.ofNat 256 (x.codeSizeAt m.rest.ext (asAddress (m.sp 0))) },
  { op := GASPRICE, args := 0, runGas := fun _ => baseGas, value := fun _ => x.gasPrice },
  { op := COINBASE, args := 0, runGas := fun _ => baseGas, value := fun _ => x.author.setWidth 256 },
  { op := TIMESTAMP, args := 0, runGas := fun _ => baseGas, value := fun _ => BitVec.ofInt 256 x.timestamp },
  { op := NUMBER, args := 0, runGas := fun _ => baseGas, value := fun _ => BitVec.ofInt 256 x.number },
  { op := DIFFICULTY, args := 0, runGas := fun _ => baseGas, value := fun _ => x.difficulty },
  { op := GASLIMIT, args := 0, runGas := fun _ => baseGas, value := fun _ => x.gasLimit },
  { op := SLOAD, args := 1, runGas := fun _ => s.sloadGas, value := fun m => x.store m.rest.ext (m.sp 0) },
  { op := PC, args := 0, runGas := fun _ => baseGas, value := fun m => BitVec.ofNat 256 m.pc },
  { op := MSIZE, args := 0, runGas := fun _ => baseGas, value := fun m => BitVec.ofNat 256 m.rest.memSize },
  { op := GAS, args := 0, runGas := fun _ => baseGas, value := fun m => BitVec.ofNat 256 m.gas }]

/-! ### The cases -/

/-- How a frame ends: with output and the gas that is left, or for a reason that its maker will know. -/
inductive Exit (ε : Type)
  | stop (output : Bytes) (gas : Nat) (ext : ε)
  | revert (output : Bytes) (gas : Nat)
  | fault (e : Fault)

/-- `adjustStack` -/
def fetchStack (m : Machine σ) (removed added : Nat) : Except (Exit ε) Unit :=
  if m.stack.length < removed then .error (.fault (.throw .stackUnderflow))
  else if stackLimit < m.stack.length - removed + added then .error (.fault (.throw .outOfStack))
  else .ok ()

/-- `updateIOGas` -/
def pay (runGas : Nat) (m : Machine σ) : Except (Exit ε) (Machine σ) :=
  if m.gas < runGas then .error (.fault (.throw .outOfGas)) else .ok { m with gas := m.gas - runGas }

/-- What an instruction leaves. -/
abbrev Left (ε : Type) := List U256 × Nat × ε

def Row.run (row : Row ε) (m : Machine (Seen ε)) : Except (Exit ε) (Left ε) := do
  fetchStack m row.args 1
  if row.enabled then
    let m ← pay (row.runGas m) m
    return (row.value m :: m.stack.drop row.args, m.gas, m.rest.ext)
  else .error (.fault (.throw .badInstruction))

/-- `updateSSGas`: `m_runGas`, and what has become of the refunds. -/
def updateSSGas (s : EVMSchedule) (x : Host ε) (m : Machine (Seen ε)) : Nat × ε :=
  if x.store m.rest.ext (m.sp 0) = 0 ∧ m.sp 1 ≠ 0 then (s.sstoreSetGas, m.rest.ext)
  else if x.store m.rest.ext (m.sp 0) ≠ 0 ∧ m.sp 1 = 0 then (s.sstoreResetGas, x.addRefund m.rest.ext s.sstoreRefundGas)
  else (s.sstoreResetGas, m.rest.ext)

def sstore (s : EVMSchedule) (x : Host ε) (m : Machine (Seen ε)) : Except (Exit ε) (Left ε) := do
  fetchStack m 2 0
  if x.staticCall then .error (.fault (.throw .disallowedStateChange))
  else
    let (runGas, ext) := updateSSGas s x m
    let m ← pay runGas m
    return (m.stack.drop 2, m.gas, x.setStore ext (m.sp 0) (m.sp 1))

def blockhash (s : EVMSchedule) (x : Host ε) (m : Machine (Seen ε)) : Except (Exit ε) (Left ε) := do
  fetchStack m 1 1
  let m ← pay s.blockhashGas m
  let (hash, ext) := x.blockHash m.rest.ext (m.sp 0)
  return (hash :: m.stack.drop 1, m.gas, ext)

/-- What the end of a contract costs. -/
def suicideRunGas (s : EVMSchedule) (x : Host ε) (m : Machine (Seen ε)) : Nat :=
  -- After EIP158 zero-value suicides do not have to pay account creation gas.
  if (x.balance m.rest.ext x.myAddress > 0 ∨ ¬s.eip158Mode) ∧ s.eip150Mode ∧ ¬x.exists' m.rest.ext (asAddress (m.sp 0)) then
    s.suicideGas + s.callNewAccountGas
  else s.suicideGas

def suicideCase (s : EVMSchedule) (x : Host ε) (m : Machine (Seen ε)) : Except (Exit ε) (Left ε) := do
  fetchStack m 1 0
  if x.staticCall then .error (.fault (.throw .disallowedStateChange))
  else
    let m' ← pay (suicideRunGas s x m) m
    .error (.stop [] m'.gas (x.suicide m.rest.ext (asAddress (m.sp 0))))

/-- `DUP1` for 1 -/
def dup (n : Nat) (m : Machine (Seen ε)) : Except (Exit ε) (Left ε) := do
  fetchStack m n (n + 1)
  let m ← pay veryLowGas m
  return (m.sp (n - 1) :: m.stack, m.gas, m.rest.ext)

/-- `SWAP1` for 1 -/
def swap (n : Nat) (m : Machine (Seen ε)) : Except (Exit ε) (Left ε) := do
  fetchStack m (n + 1) (n + 1)
  let m ← pay veryLowGas m
  return ((m.stack.set 0 (m.sp n)).set n (m.sp 0), m.gas, m.rest.ext)

/-- What `c_metrics` has for the instructions that are never run. -/
def badMetrics : List (UInt8 × Nat × Nat) :=
  [(0xb0, 1, 0), (0xb1, 2, 0), (0xb2, 1, 0), (0xb3, 1, 0), (0xb4, 1, 0), (0xb5, 0, 0), (0xb6, 0, 0),
    (0xb7, 1, 0), (0xb8, 1, 0),
    (0xb9, 0, 1), (0xc1, 0, 0), (0xc2, 2, 1), (0xc3, 2, 1), (0xc4, 2, 1), (0xc5, 2, 1), (0xc6, 2, 1),
      (0xc7, 2, 1), (0xd0, 2, 1),
    (0xd1, 2, 1), (0xd2, 2, 1), (0xd3, 2, 1), (0xd4, 2, 1), (0xd5, 2, 1), (0xd6, 1, 1), (0xd8, 2, 1),
      (0xd9, 2, 1), (0xdb, 2, 1),
    (0xdc, 2, 1), (0xdd, 2, 1), (0xde, 2, 1), (0xdf, 2, 1), (0xe0, 1, 1), (0xe1, 1, 1), (0xe2, 2, 0),
      (0xe4, 1, 1), (0xe5, 2, 0),
    (0xe6, 1, 1), (0xe7, 1, 1), (0xe8, 2, 1), (0xe9, 3, 1), (0xea, 2, 1), (0xeb, 3, 1)]

/-- The read of `tierStepGas[Tier::Invalid]`, behind the end of the table, is left out: what it gives is not used. -/
def badInstruction (op : UInt8) (m : Machine (Seen ε)) : Except (Exit ε) (Left ε) := do
  let (removed, added) := (badMetrics.lookup op).getD (0, 0)
  fetchStack m removed added
  .error (.fault (.throw .badInstruction))

/-- The instructions that leave the memory alone -/
def otherInstruction (s : EVMSchedule) (x : Host ε) (op : UInt8) (m : Machine (Seen ε)) : Except (Exit ε) (Left ε) :=
  match (rows s x).find? fun row => row.op = op with
  | some row => row.run m
  | none =>
    if op = POP then do
      fetchStack m 1 0
      let m ← pay baseGas m
      return (m.stack.drop 1, m.gas, m.rest.ext)
    else if op = JUMPDEST then do
      let m ← pay 1 m
      return (m.stack, m.gas, m.rest.ext)
    else if DUP1 ≤ op ∧ op ≤ DUP16 then dup (op.toNat - DUP1.toNat + 1) m
    else if SWAP1 ≤ op ∧ op ≤ SWAP16 then swap (op.toNat - SWAP1.toNat + 1) m
    else if op = SSTORE then sstore s x m
    else if op = BLOCKHASH then blockhash s x m
    else if op = SUICIDE then suicideCase s x m
    else badInstruction op m

/-- `RETURN` and `REVERT`: the output, and the gas that is left -/
def returned (s : EVMSchedule) (f : Frame ε) : Except Fault (Bytes × Nat) := do
  let newMem ← memNeed (f.sp 0) (f.sp 1)
  let f' ← chargeMem s 0 0 newMem f
  let output ← readBytes f'.rest.mem ((f.sp 0).toNat % 2 ^ 64) ((f.sp 1).toNat % 2 ^ 64)
  return (output, f'.gas)

/-- All cases of `LegacyVM` but those that read the code or move in it -/
def legacyCases (s : EVMSchedule) (x : Host ε) : Cases (Inner ε) (Exit ε) := fun op f =>
  match metric op with
  | some (removed, added) => do
    (checkStack f removed added).mapError .fault
    if op = RETURN then
      let (output, gas) ← (returned s f).mapError .fault
      .error (.stop output gas f.rest.ext)
    else if op = REVERT then
      if ¬s.haveRevert then .error (.fault (.throw .badInstruction))
      else
        let (output, gas) ← (returned s f).mapError .fault
        .error (.revert output gas)
    else
      let f' ← (memoryInstruction s x.toExtVM op f).mapError .fault
      return (f'.stack, f'.gas, f'.rest)
  | none => do
    let seen : Seen ε := { memSize := f.rest.mem.length, returnData := f.rest.returnData, ext := f.rest.ext }
    let (stack, gas, ext) ← otherInstruction s x op { f with rest := seen }
    return (stack, gas, { f.rest with ext := ext })

/-! ### Runs -/

def Code.data (code : Code) : Data := ⟨code.bytes, by have := code.fits; unfold maxVector at this; omega⟩

/-- A frame before its first instruction -/
def Frame.entry (gas : Nat) (ext : ε) : Frame ε := ⟨0, [], gas, ⟨[], ⟨[], fits_nil⟩, ext⟩⟩

/-- One round of the loop of the interpreter -/
def advance (p : Program) (cases : Cases (Inner ε) (Exit ε)) (f : Frame ε) : Frame ε ⊕ Exit ε :=
  match step false p cases f with
  | .next f' => .inl f'
  | .throw e _ => .inr (.fault (.throw e))
  | .stop f' => .inr (.stop [] f'.gas f'.rest.ext)
  | .done r => .inr r

/-- The loop of `LegacyVM::exec`, running the code of `m_ext` -/
def LegacyVM.advance (s : EVMSchedule) (x : Host ε) (code : Code) : Frame ε → Frame ε ⊕ Exit ε :=
  Evm.advance (program code) (legacyCases s { x with code := code.data })

/-- `LegacyVM::exec`: how the frame ends, if it does so in fewer than `n` steps -/
def LegacyVM.exec (s : EVMSchedule) (x : Host ε) (code : Code) (n : Nat) (ioGas : U256) (ext : ε) : Option (Exit ε) :=
  Fuel.run (LegacyVM.advance s x code) n (.entry (ioGas.toNat % 2 ^ 64) ext)

/-! ### The memory -/

variable {s : EVMSchedule} {x : Host ε} {p : Program} {op : UInt8} {f f' : Frame ε}

theorem advance_eq_inl_iff {cases : Cases (Inner ε) (Exit ε)} :
    advance p cases f = .inl f' ↔ step false p cases f = .next f' := by
  rw [advance]
  split <;> simp_all

/-! ### How cases end -/

section Ends

variable {α β : Type} {W : Exit ε → Prop} {P : α → Prop} {Q : β → Prop} {r : Except (Exit ε) α}

/-- Goes on with `P`, or ends with `W`. -/
def Ends (W : Exit ε → Prop) (P : α → Prop) : Except (Exit ε) α → Prop
  | .ok a => P a
  | .error e => W e

theorem Ends.bind {k : α → Except (Exit ε) β} (h : Ends W P r) (hk : ∀ a, P a → Ends W Q (k a)) : Ends W Q (r >>= k) := by
  cases r with
  | ok a => exact hk a h
  | error e => exact h

theorem ends_mapError {r : Except Fault α} (hW : ∀ e, r = .error e → W (.fault e)) (h : ∀ a, r = .ok a → P a) :
    Ends W P (r.mapError .fault) := by
  cases r with
  | ok a => exact h a rfl
  | error e => exact hW e rfl

variable (hW : ∀ e, W (.fault (.throw e)))
include hW

theorem ends_throw (e : VMException) : Ends W P (.error (.fault (.throw e))) := hW e

theorem ends_fetchStack (m : Machine σ) (removed added : Nat) : Ends W (fun _ => removed ≤ m.stack.length ∧
    m.stack.length - removed + added ≤ stackLimit) (fetchStack m removed added) := by
  rw [fetchStack]
  split
  · exact hW _
  · split
    · exact hW _
    · exact ⟨by omega, by omega⟩

theorem ends_checkStack (f : Frame ε) (removed added : Nat) : Ends W (fun _ => removed ≤ f.stack.length ∧
    f.stack.length - removed + added ≤ stackLimit) ((checkStack f removed added).mapError .fault) := by
  rw [checkStack]
  split
  · exact hW _
  · split
    · exact hW _
    · exact ⟨by omega, by omega⟩

theorem ends_pay (runGas : Nat) (m : Machine σ) :
    Ends W (fun m' => m'.gas + runGas = m.gas ∧ m'.stack = m.stack ∧ m'.rest = m.rest) (pay runGas m) := by
  rw [pay]
  split
  · exact hW _
  · exact ⟨by dsimp only; omega, rfl, rfl⟩

end Ends

/-! ### What the words are -/

theorem expLoop_eq (result base : U256) (exponent : Nat) : expLoop result base exponent = result * base ^ exponent := by
  induction exponent using Nat.strong_induction_on generalizing result base with
  | h exponent ih =>
    rw [expLoop]
    split
    · rename_i hzero
      rw [hzero, BitVec.pow_zero, BitVec.mul_one]
    · rename_i hpos
      rw [ih (exponent / 2) (by omega)]
      have hsquare : (base * base) ^ (exponent / 2) = base ^ (2 * (exponent / 2)) := by
        rw [pow_mul, pow_two]
      rw [hsquare]
      split
      · rename_i hodd
        have hexp : exponent = 2 * (exponent / 2) + 1 := by omega
        rw [mul_assoc, ← pow_succ', ← hexp]
      · have hexp : exponent = 2 * (exponent / 2) := by omega
        rw [← hexp]

/-- `EXP` is exponentiation. -/
theorem exp256_eq (base exponent : U256) : exp256 base exponent = base ^ exponent.toNat := by
  rw [exp256, expLoop_eq, one_mul]

theorem and_hibit (v : U256) : v &&& hibit ≠ 0 ↔ v.msb = true := by
  have hpow : hibit = BitVec.twoPow 256 255 := rfl
  rw [hpow, BitVec.and_twoPow, BitVec.msb_eq_getLsbD_last]
  cases v.getLsbD (256 - 1) with
  | true => exact ⟨fun _ => rfl, fun _ => by decide⟩
  | false => exact ⟨fun h => absurd rfl h, nofun⟩

/-- `SAR` is an arithmetic shift. -/
theorem sar_eq (shift v : U256) : sar shift v = v.sshiftRight shift.toNat := by
  have hle : (256 : U256) ≤ shift ↔ 256 ≤ shift.toNat := BitVec.le_def
  have hall : ∀ j, allbits.getLsbD j = decide (j < 256) := fun j => by
    have hzero : (0 : U256).getLsbD j = false := BitVec.getLsbD_zero
    rw [allbits, BitVec.getLsbD_not, hzero, Bool.not_false, Bool.and_true]
  rw [sar]
  simp only [hle, and_hibit]
  refine BitVec.eq_of_getLsbD_eq fun i hi => ?_
  rw [BitVec.getLsbD_sshiftRight, decide_eq_false (not_le.2 hi), Bool.not_false, Bool.true_and]
  by_cases hshift : 256 ≤ shift.toNat
  · rw [if_pos hshift, if_neg (show ¬shift.toNat + i < 256 by omega)]
    split
    · rename_i hmsb
      rw [hall, hmsb, decide_eq_true hi]
    · rename_i hmsb
      rw [Bool.eq_false_iff.2 hmsb]
      exact BitVec.getLsbD_zero
  · rw [if_neg hshift]
    have hright : (v >>> shift.toNat).getLsbD i = v.getLsbD (shift.toNat + i) := BitVec.getLsbD_ushiftRight _ _ _
    have hbehind : ¬shift.toNat + i < 256 → v.getLsbD (shift.toNat + i) = false := fun h =>
        BitVec.getLsbD_of_ge _ _ (not_lt.1 h)
    split
    · rename_i hmsb
      rw [BitVec.getLsbD_or, hright, BitVec.getLsbD_shiftLeft, hall, hmsb]
      split
      · rename_i hlt
        rw [decide_eq_true (show i < 256 - shift.toNat by omega), Bool.not_true, Bool.and_false,
          Bool.false_and, Bool.or_false]
      · rename_i hlt
        rw [decide_eq_true hi, decide_eq_false (show ¬i < 256 - shift.toNat by omega), decide_eq_true (by omega), hbehind hlt]
        rfl
    · rename_i hmsb
      rw [hright]
      split
      · rfl
      · rename_i hlt
        rw [hbehind hlt, Bool.eq_false_iff.2 hmsb]

theorem getLsbD_mask {n i : Nat} (hn : n < 256) : ((1 : U256) <<< n - 1).getLsbD i = decide (i < n) := by
  have hmask : ((1 : U256) <<< n - 1) = BitVec.ofNat 256 (2 ^ n - 1) := by
    have hlt : 2 ^ n < 2 ^ 256 := Nat.pow_lt_pow_right (by decide) hn
    have hpos : 0 < 2 ^ n := Nat.two_pow_pos n
    refine BitVec.eq_of_toNat_eq ?_
    rw [BitVec.toNat_sub, BitVec.toNat_shiftLeft, BitVec.toNat_ofNat, Nat.shiftLeft_eq]
    have hone : (1 : U256).toNat = 1 := rfl
    rw [hone, one_mul, Nat.mod_eq_of_lt hlt]
    omega
  rw [hmask, BitVec.getLsbD_ofNat, Nat.testBit_two_pow_sub_one]
  by_cases hi : i < n
  · rw [decide_eq_true hi, decide_eq_true (by omega), Bool.true_and]
  · rw [decide_eq_false hi, Bool.and_false]

/-- `SIGNEXTEND` extends a number of `k + 1` bytes. -/
theorem signextend_eq (k v : U256) (hk : k < 31) : signextend k v = (v.setWidth (8 * (k.toNat + 1))).signExtend 256 := by
  have hlt : k.toNat < 31 := BitVec.lt_def.1 hk
  refine BitVec.eq_of_getLsbD_eq fun i hi => ?_
  have hmask := getLsbD_mask (n := k.toNat * 8 + 7) (i := i) (by omega)
  have hmsb : (v.setWidth (8 * (k.toNat + 1))).msb = v.getLsbD (k.toNat * 8 + 7) := by
    rw [BitVec.msb_eq_getLsbD_last, BitVec.getLsbD_setWidth, decide_eq_true (by omega), Bool.true_and]
    congr 1
    omega
  rw [signextend, if_pos hk, BitVec.getLsbD_signExtend, decide_eq_true hi, Bool.true_and, BitVec.getLsbD_setWidth, hmsb]
  dsimp only
  by_cases hbelow : i < k.toNat * 8 + 7
  · rw [if_pos (show i < 8 * (k.toNat + 1) by omega), decide_eq_true (show i < 8 * (k.toNat + 1) by omega), Bool.true_and]
    split
    · rw [BitVec.getLsbD_or, BitVec.getLsbD_not, hmask, decide_eq_true hbelow, Bool.not_true, Bool.and_false, Bool.or_false]
    · rw [BitVec.getLsbD_and, hmask, decide_eq_true hbelow, Bool.and_true]
  · have hrest : (if i < 8 * (k.toNat + 1) then decide (i < 8 * (k.toNat + 1)) && v.getLsbD i else
        v.getLsbD (k.toNat * 8 + 7)) =
        v.getLsbD (k.toNat * 8 + 7) := by
      split
      · rename_i hwidth
        have hlast : i = k.toNat * 8 + 7 := by omega
        rw [decide_eq_true hwidth, Bool.true_and, hlast]
      · rfl
    rw [hrest]
    split
    · rename_i hbit
      rw [BitVec.getLsbD_or, BitVec.getLsbD_not, hmask, decide_eq_false hbelow, decide_eq_true hi, hbit]
      exact Bool.or_true _
    · rename_i hbit
      rw [BitVec.getLsbD_and, hmask, decide_eq_false hbelow, Bool.and_false, Bool.eq_false_iff.2 hbit]

/-- `CALLDATALOAD` reads zeros behind the data. -/
theorem calldataload_eq (data : Data) (i : U256) :
    calldataload data i = BitVec.ofNat 256 (BigEndian.ofBytes (window data i.toNat 32)) := by
  have hlen : (window data i.toNat 32).length = 32 := by rw [window, length_map, length_range]
  have hget : ∀ j (hj : j < (window data i.toNat 32).length), (window data i.toNat 32)[j] = data.bytes.getD (i.toNat + j) 0 :=
    fun j hj => by simp only [window, getElem_map, getElem_range]
  rw [calldataload]
  split_ifs with hfits hbehind
  · have hread : (data.bytes.drop i.toNat).take 32 = window data i.toNat 32 := by
      refine ext_getElem (by rw [hlen, length_take, length_drop]; omega) fun j hj hj' => ?_
      rw [hget, getElem_take, getElem_drop, getD_eq_getElem _ _ (by omega)]
    rw [hread]
  · have hzero : window data i.toNat 32 = List.replicate 32 0 := by
      refine ext_getElem (by rw [hlen, length_replicate]) fun j hj hj' => ?_
      rw [hget, getElem_replicate, getD_eq_default _ _ (by omega)]
    rw [hzero, BigEndian.ofBytes_replicate_zero]
    rfl
  · rw [window]
    refine congrArg (fun bs => BitVec.ofNat 256 (BigEndian.ofBytes bs)) (map_congr_left fun j _ => ?_)
    split
    · rfl
    · rw [getD_eq_default _ _ (by omega)]

/-- What an instruction puts on the stack. -/
def valueOf (s : EVMSchedule) (x : Host ε) (op : UInt8) : Option (Machine (Seen ε) → U256) :=
  ((rows s x).find? fun row => row.op = op).map Row.value

/-- What is computed bit by bit, or byte by byte, is right for all words. -/
theorem words_exact (s : EVMSchedule) (x : Host ε) :
    valueOf s x EXP = some (fun m => m.sp 0 ^ (m.sp 1).toNat) ∧
    valueOf s x SAR = some (fun m => BitVec.ofInt 256 ((m.sp 1).toInt / 2 ^ (m.sp 0).toNat)) ∧
    valueOf s x SIGNEXTEND = some (fun m =>
      if m.sp 0 < 31 then BitVec.ofInt 256 (Int.bmod (m.sp 1).toNat (2 ^ (8 * ((m.sp 0).toNat + 1)))) else m.sp 1) ∧
    valueOf s x CALLDATALOAD = some (fun m => BitVec.ofNat 256 (BigEndian.ofBytes (window x.data (m.sp 0).toNat 32))) := by
  have hvalue : ∀ {op : UInt8} {f g : Machine (Seen ε) → U256},
      valueOf s x op = some f → (∀ m, f m = g m) → valueOf s x op = some g :=
    fun h heq => h.trans (congrArg some (funext heq))
  refine ⟨hvalue rfl fun m => exp256_eq _ _, hvalue rfl fun m => ?_, hvalue rfl fun m => ?_,
    hvalue rfl fun m => calldataload_eq _ _⟩
  · show sar (m.sp 0) (m.sp 1) = _
    rw [sar_eq, BitVec.sshiftRight, Int.shiftRight_eq_div_pow]
    rfl
  · show signextend (m.sp 0) (m.sp 1) = _
    split
    · rename_i hlt
      rw [signextend_eq _ _ hlt, BitVec.signExtend, BitVec.toInt_setWidth]
    · rename_i hle
      rw [signextend, if_neg hle]

end Kmdx.Evm
