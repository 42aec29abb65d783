import Kmdx.Evm.Memory

/-!
# The instructions that use the memory (`LegacyVM::interpretCases`, `caseCreate`, `caseCall`)

Each of them charges for the memory that its operands need, and then reads from it or writes into it. What they do to
the memory is one write each at most (`stored`), and where it goes is what the operands say, as long as `MLOAD`,
`MSTORE` and `MSTORE8`, which cut their offset down to 32 bits, do not lose any of it (`at_of_memoryCase`).
-/

namespace Kmdx.Evm

open Overwrite ExceptRules

namespace Instruction

def SHA3 : UInt8 := 0x20
def CALLDATACOPY : UInt8 := 0x37
def CODECOPY : UInt8 := 0x39
def EXTCODECOPY : UInt8 := 0x3c
def RETURNDATACOPY : UInt8 := 0x3e
def MLOAD : UInt8 := 0x51
def MSTORE : UInt8 := 0x52
def MSTORE8 : UInt8 := 0x53
def LOG0 : UInt8 := 0xa0
def LOG4 : UInt8 := 0xa4
def CREATE : UInt8 := 0xf0
def CALL : UInt8 := 0xf1
def CALLCODE : UInt8 := 0xf2
def RETURN : UInt8 := 0xf3
def DELEGATECALL : UInt8 := 0xf4
def STATICCALL : UInt8 := 0xfa
def CREATE2 : UInt8 := 0xfb
def REVERT : UInt8 := 0xfd

end Instruction

open Instruction

structure CallParameters where
  senderAddress : Address
  codeAddress : Address
  receiveAddress : Address
  valueTransfer : U256
  apparentValue : U256
  gas : U256
  data : Bytes
  staticCall : Bool

structure CallResult (ε : Type) where
  success : Bool
  output : Data
  gas : U256
  ext : ε

structure CreateResult (ε : Type) where
  address : Address
  output : Data
  gas : U256
  ext : ε

/-- `m_ext`, and `sha3` -/
structure ExtVM (ε : Type) where
  myAddress : Address
  caller : Address
  value : U256
  data : Data
  code : Data
  depth : Nat
  staticCall : Bool
  balance : ε → Address → U256
  exists' : ε → Address → Bool
  codeAt : ε → Address → Data
  log : ε → List U256 → Bytes → ε
  create : ε → U256 → U256 → Bytes → UInt8 → U256 → CreateResult ε
  call : ε → CallParameters → CallResult ε
  sha3 : Bytes → U256

/-- How a run of the interpreter ends. -/
inductive Ended (ρ : Type)
  | fault (e : Fault)
  | output (b : Bytes)
  | revert (b : Bytes)
  | other (r : ρ)

variable {ε ρ : Type}

/-- `updateIOGas()` -/
def chargeGas (runGas : Nat) (f : Frame ε) : Except Fault (Frame ε) :=
  if f.gas < runGas then .error (.throw .outOfGas) else .ok { f with gas := f.gas - runGas }

/-! ### Words -/

/-- `MLOAD`, whose offset is cast to `unsigned` -/
def mload (s : EVMSchedule) (f : Frame ε) : Except Fault (Frame ε) := do
  let offset ← toInt63 (f.sp 0).toNat
  let f' ← chargeMem s veryLowGas 0 (offset + 32) f
  let bs ← readBytes f'.rest.mem ((f.sp 0).toNat % 2 ^ 32) 32
  return { f' with stack := BitVec.ofNat 256 (BigEndian.ofBytes bs) :: f'.stack.drop 1 }

/-- `MSTORE` and `MSTORE8`, of `n` bytes -/
def mstoreBytes (s : EVMSchedule) (n : Nat) (f : Frame ε) : Except Fault (Frame ε) := do
  let offset ← toInt63 (f.sp 0).toNat
  let f' ← chargeMem s veryLowGas 0 (offset + n) f
  let mem ← writeBytes f'.rest.mem ((f.sp 0).toNat % 2 ^ 32) (BigEndian.toBytes n (f.sp 1).toNat)
  return { f' with stack := f'.stack.drop 2, rest := { f'.rest with mem := mem } }

def mstore (s : EVMSchedule) (f : Frame ε) : Except Fault (Frame ε) := mstoreBytes s 32 f

/-- The byte is the last one of the word. -/
def mstore8 (s : EVMSchedule) (f : Frame ε) : Except Fault (Frame ε) := mstoreBytes s 1 f

/-! ### Hashes, logs and returned data -/

def sha3Case (s : EVMSchedule) (x : ExtVM ε) (f : Frame ε) : Except Fault (Frame ε) := do
  let runGas ← toInt63 (s.sha3Gas + ((f.sp 1).toNat + 31) / 32 * s.sha3WordGas)
  let newMem ← memNeed (f.sp 0) (f.sp 1)
  let f' ← chargeMem s runGas 0 newMem f
  let bs ← readBytes f'.rest.mem ((f.sp 0).toNat % 2 ^ 64) ((f.sp 1).toNat % 2 ^ 64)
  return { f' with stack := x.sha3 bs :: f'.stack.drop 2 }

/-- `LOG0` to `LOG4`, with `n` topics -/
def logCase (s : EVMSchedule) (x : ExtVM ε) (n : Nat) (f : Frame ε) : Except Fault (Frame ε) := do
  if x.staticCall then .error (.throw .disallowedStateChange)
  else
    let runGas ← toInt63 (s.logGas + s.logTopicGas * n + s.logDataGas * (f.sp 1).toNat)
    let newMem ← memNeed (f.sp 0) (f.sp 1)
    let f' ← chargeMem s runGas 0 newMem f
    let bs ← readBytes f'.rest.mem ((f.sp 0).toNat % 2 ^ 64) ((f.sp 1).toNat % 2 ^ 64)
    return { f' with
      stack := f'.stack.drop (n + 2)
      rest := { f'.rest with ext := x.log f'.rest.ext ((List.range n).map fun i => f.sp (i + 2)) bs } }

def returndatacopy (s : EVMSchedule) (f : Frame ε) : Except Fault (Frame ε) :=
  if ¬s.haveReturnData then .error (.throw .badInstruction)
  else if f.rest.returnData.bytes.length < (f.sp 1).toNat + (f.sp 2).toNat then .error (.throw .bufferOverrun)
  else copyFrom s veryLowGas f.rest.returnData 0 f

/-- What `RETURN` and `REVERT` end with. -/
def outputCase (s : EVMSchedule) (runGas : Nat) (f : Frame ε) : Except Fault Bytes := do
  let newMem ← memNeed (f.sp 0) (f.sp 1)
  let f' ← chargeMem s runGas 0 newMem f
  readBytes f'.rest.mem ((f.sp 0).toNat % 2 ^ 64) ((f.sp 1).toNat % 2 ^ 64)

/-! ### Contracts and calls -/

def caseCreate (s : EVMSchedule) (x : ExtVM ε) (op : UInt8) (f : Frame ε) : Except Fault (Frame ε) := do
  if op = CREATE2 ∧ ¬s.haveCreate2 then .error (.throw .badInstruction)
  else if op = CREATE ∧ x.staticCall then .error (.throw .disallowedStateChange)
  else
    let runGas ← toInt63 s.createGas
    let endowment := f.sp 0
    let salt := if op = CREATE then 0 else f.sp 1
    let initOff := if op = CREATE then f.sp 1 else f.sp 2
    let initSize := if op = CREATE then f.sp 2 else f.sp 3
    let newMem ← memNeed initOff initSize
    let f' ← chargeMem s runGas 0 newMem f
    let stack := f'.stack.drop (if op = CREATE then 3 else 4)
    if endowment ≤ x.balance f'.rest.ext x.myAddress ∧ x.depth < 1024 then
      let ioGas : U256 := BitVec.ofNat 256 f'.gas
      let createGas := if s.eip150Mode then ioGas - ioGas / 64 else ioGas
      let initCode ← readBytes f'.rest.mem (initOff.toNat % 2 ^ 64) (initSize.toNat % 2 ^ 64)
      let result := x.create f'.rest.ext endowment createGas initCode op salt
      return { f' with
        stack := result.address.setWidth 256 :: stack
        gas := (ioGas - (createGas - result.gas)).toNat % 2 ^ 64
        rest := { f'.rest with returnData := result.output, ext := result.ext } }
    else
      return { f' with stack := 0 :: stack, rest := { f'.rest with returnData := ⟨[], by decide⟩ } }

def haveValueArg (op : UInt8) : Bool := op = CALL ∨ op = CALLCODE

def sizesOffset (op : UInt8) : Nat := if haveValueArg op then 3 else 2

def callValue (op : UInt8) (f : Frame ε) : U256 := if haveValueArg op then f.sp 2 else 0

/-- `m_runGas` of a call, but for the memory -/
def callRunGas (s : EVMSchedule) (x : ExtVM ε) (op : UInt8) (f : Frame ε) : Except Fault Nat := do
  let runGas ← toInt63 s.callGas
  let newAccount ←
    if op = CALL ∧ ¬x.exists' f.rest.ext (asAddress (f.sp 1)) ∧ (callValue op f > 0 ∨ ¬s.eip158Mode) then
      toInt63 s.callNewAccountGas
    else .ok 0
  let transfer ← if callValue op f > 0 then toInt63 s.callValueTransferGas else .ok 0
  return runGas + newAccount + transfer

/-- `caseCallSetup`: the parameters, and if the call is to be made. -/
def caseCallSetup (s : EVMSchedule) (x : ExtVM ε) (op : UInt8) (f : Frame ε) :
    Except Fault (CallParameters × Bool × Frame ε) := do
  let destinationAddr := asAddress (f.sp 1)
  let value := callValue op f
  let runGas ← callRunGas s x op f
  let inputOffset := f.sp (sizesOffset op)
  let inputSize := f.sp (sizesOffset op + 1)
  let outputOffset := f.sp (sizesOffset op + 2)
  let outputSize := f.sp (sizesOffset op + 3)
  let inputMemNeed ← memNeed inputOffset inputSize
  let outputMemNeed ← memNeed outputOffset outputSize
  let f ← chargeMem s runGas 0 (max inputMemNeed outputMemNeed) f
  let maxAllowedCallGas : U256 := BitVec.ofNat 256 (f.gas - f.gas / 64)
  let gas := if s.eip150Mode ∧ maxAllowedCallGas < f.sp 0 then maxAllowedCallGas else f.sp 0
  let runGas ← toInt63 gas.toNat
  let f ← chargeGas runGas f
  let data ← readBytes f.rest.mem (inputOffset.toNat % 2 ^ 64) (inputSize.toNat % 2 ^ 64)
  let callParams : CallParameters := {
    senderAddress := if op = DELEGATECALL then x.caller else x.myAddress
    codeAddress := destinationAddr
    receiveAddress := if op = CALL ∨ op = STATICCALL then destinationAddr else x.myAddress
    valueTransfer := value
    apparentValue := if op = DELEGATECALL then x.value else value
    gas := if value > 0 then gas + BitVec.ofNat 256 s.callStipend else gas
    data := data
    staticCall := op = STATICCALL ∨ x.staticCall }
  return (callParams, decide (value ≤ x.balance f.rest.ext x.myAddress ∧ x.depth < 1024), f)

def caseCall (s : EVMSchedule) (x : ExtVM ε) (op : UInt8) (f : Frame ε) : Except Fault (Frame ε) := do
  if op = DELEGATECALL ∧ ¬s.haveDelegateCall then .error (.throw .badInstruction)
  else if op = STATICCALL ∧ ¬s.haveStaticCall then .error (.throw .badInstruction)
  else if op = CALL ∧ x.staticCall ∧ f.sp 2 ≠ 0 then .error (.throw .disallowedStateChange)
  else
    let outOff := (f.sp (sizesOffset op + 2)).toNat % 2 ^ 64
    let outSize := (f.sp (sizesOffset op + 3)).toNat % 2 ^ 64
    let (callParams, isMade, f') ← caseCallSetup s x op f
    let stack := f'.stack.drop (sizesOffset op + 4)
    if isMade then
      let result := x.call f'.rest.ext callParams
      let mem ← writeBytes f'.rest.mem outOff (result.output.bytes.take outSize)
      return { f' with
        stack := (if result.success then 1 else 0) :: stack
        gas := (f'.gas + result.gas.toNat % 2 ^ 64) % 2 ^ 64
        rest := { mem := mem, returnData := result.output, ext := result.ext } }
    else
      return { f' with
        stack := 0 :: stack
        gas := (f'.gas + callParams.gas.toNat % 2 ^ 64) % 2 ^ 64
        rest := { f'.rest with returnData := ⟨[], by decide⟩ } }

/-! ### The cases -/

/-- What the instructions that use the memory take from the stack and put there (`c_metrics`). -/
def metric (op : UInt8) : Option (Nat × Nat) :=
  if op = MLOAD then some (1, 1)
  else if op = MSTORE ∨ op = MSTORE8 ∨ op = RETURN ∨ op = REVERT then some (2, 0)
  else if op = SHA3 then some (2, 1)
  else if op = CALLDATACOPY ∨ op = CODECOPY ∨ op = RETURNDATACOPY then some (3, 0)
  else if op = EXTCODECOPY then some (4, 0)
  else if LOG0 ≤ op ∧ op ≤ LOG4 then some (op.toNat - LOG0.toNat + 2, 0)
  else if op = CREATE then some (3, 1)
  else if op = CREATE2 then some (4, 1)
  else if op = CALL ∨ op = CALLCODE then some (7, 1)
  else if op = DELEGATECALL ∨ op = STATICCALL then some (6, 1)
  else none

def checkStack (f : Frame ε) (removed added : Nat) : Except Fault Unit :=
  if f.stack.length < removed then .error (.throw .stackUnderflow)
  else if stackLimit < f.stack.length - removed + added then .error (.throw .outOfStack)
  else .ok ()

/-- The instructions that use the memory and go on -/
def memoryInstruction (s : EVMSchedule) (x : ExtVM ε) (op : UInt8) (f : Frame ε) : Except Fault (Frame ε) :=
  if op = MLOAD then mload s f
  else if op = MSTORE then mstore s f
  else if op = MSTORE8 then mstore8 s f
  else if op = SHA3 then sha3Case s x f
  else if op = CALLDATACOPY then calldatacopy s x.data f
  else if op = CODECOPY then codecopy s x.code f
  else if op = EXTCODECOPY then extcodecopy s s.extcodecopyGas (x.codeAt f.rest.ext) f
  else if op = RETURNDATACOPY then returndatacopy s f
  else if op = CREATE ∨ op = CREATE2 then caseCreate s x op f
  else if op = CALL ∨ op = CALLCODE ∨ op = DELEGATECALL ∨ op = STATICCALL then caseCall s x op f
  else logCase s x (op.toNat - LOG0.toNat) f

/-- What the other instructions see: of the memory, its size (`MSIZE`). -/
structure Seen (ε : Type) where
  memSize : Nat
  returnData : Data
  ext : ε

/-- The other instructions' cases -/
def OtherCases (ε ρ : Type) : Type := UInt8 → Machine (Seen ε) → Except ρ (List U256 × Nat × ε)

def memoryCases (s : EVMSchedule) (x : ExtVM ε) (others : OtherCases ε ρ) : Cases (Inner ε) (Ended ρ) := fun op f =>
  match metric op with
  | some (removed, added) => do
    (checkStack f removed added).mapError .fault
    if op = RETURN then
      let output ← (outputCase s 0 f).mapError .fault
      .error (.output output)
    else if op = REVERT then
      if ¬s.haveRevert then .error (.fault (.throw .badInstruction))
      else
        let output ← (outputCase s 0 f).mapError .fault
        .error (.revert output)
    else
      let f' ← (memoryInstruction s x op f).mapError .fault
      return (f'.stack, f'.gas, f'.rest)
  | none => do
    let seen : Seen ε := { memSize := f.rest.mem.length, returnData := f.rest.returnData, ext := f.rest.ext }
    let (stack, gas, ext) ← (others op { f with rest := seen }).mapError .other
    return (stack, gas, { f.rest with ext := ext })

/-! ### What is stored -/

/-- What an instruction is to store, by its operands: the offset, and the bytes. -/
def stored (s : EVMSchedule) (x : ExtVM ε) (op : UInt8) (f : Frame ε) : Option (Nat × Bytes) :=
  if op = MSTORE then some ((f.sp 0).toNat, BigEndian.toBytes 32 (f.sp 1).toNat)
  else if op = MSTORE8 then some ((f.sp 0).toNat, [UInt8.ofNat (f.sp 1).toNat])
  else if op = CALLDATACOPY then some ((f.sp 0).toNat, window x.data (f.sp 1).toNat (f.sp 2).toNat)
  else if op = CODECOPY then some ((f.sp 0).toNat, window x.code (f.sp 1).toNat (f.sp 2).toNat)
  else if op = RETURNDATACOPY then some ((f.sp 0).toNat, window f.rest.returnData (f.sp 1).toNat (f.sp 2).toNat)
  else if op = EXTCODECOPY then
    some ((f.sp 1).toNat, window (x.codeAt f.rest.ext (asAddress (f.sp 0))) (f.sp 2).toNat (f.sp 3).toNat)
  else if op = CALL ∨ op = CALLCODE ∨ op = DELEGATECALL ∨ op = STATICCALL then
    match caseCallSetup s x op f with
    | .ok (callParams, true, f') => some ((f.sp (sizesOffset op + 2)).toNat,
      (x.call f'.rest.ext callParams).output.bytes.take (f.sp (sizesOffset op + 3)).toNat)
    | _ => none
  else none

/-- A memory without end after a write -/
def remember (m : Nat → Byte) : Option (Nat × Bytes) → Nat → Byte
  | some (offset, bs) => store m offset bs
  | none => m

/-- The word at `offset` -/
def loadWord (m : Nat → Byte) (offset : Nat) : U256 :=
  BitVec.ofNat 256 (BigEndian.ofBytes ((List.range 32).map fun i => m (offset + i)))

variable {s : EVMSchedule} {x : ExtVM ε} {f f' : Frame ε} {op : UInt8} {bs out : Bytes} {index n : Nat}

theorem readBytes_eq (h : readBytes bs index n = .ok out) : out = (List.range n).map fun i => bs.getD (index + i) 0 := by
  rw [readBytes] at h
  split at h
  · rename_i hle
    cases h
    rcases hle with rfl | hle
    · rfl
    · refine List.ext_getElem (by simp; omega) fun i hi hi' => ?_
      rw [List.length_map, List.length_range] at hi'
      rw [List.getElem_take, List.getElem_drop, List.getElem_map, List.getElem_range, List.getD_eq_getElem _ _ (by omega)]
  · cases h

theorem writeBytes_spec {mem mem' : Bytes} (h : writeBytes mem index bs = .ok mem') :
    (fun p => mem'.getD p 0) = store (fun p => mem.getD p 0) index bs := by
  rw [writeBytes] at h
  split at h
  · rename_i hsome
    cases h
    exact funext fun p => getD_overwrite hsome
  · cases h

theorem mload_spec (h : mload s f = .ok f') (hlt : (f.sp 0).toNat < 2 ^ 32) :
    f'.at = f.at ∧ f'.stack = loadWord f.at (f.sp 0).toNat :: f.stack.drop 1 := by
  rw [mload, bind_eq_ok_iff] at h
  obtain ⟨offset, -, h⟩ := h
  rw [bind_eq_ok_iff] at h
  obtain ⟨f₁, hcharge, h⟩ := h
  rw [bind_eq_ok_iff] at h
  obtain ⟨out, hread, h⟩ := h
  cases h
  have hcharged := charged_of_chargeMem hcharge
  have hat : f₁.at = f.at := funext hcharged.at_eq
  rw [Nat.mod_eq_of_lt hlt] at hread
  refine ⟨hat, ?_⟩
  rw [readBytes_eq hread, hcharged.stack, loadWord, ← hat]
  rfl

/-- Where `MSTORE` and `MSTORE8` write to: the offset is cut down to 32 bits. -/
theorem mstoreBytes_spec (h : mstoreBytes s n f = .ok f') :
    f'.at = store f.at ((f.sp 0).toNat % 2 ^ 32) (BigEndian.toBytes n (f.sp 1).toNat) := by
  rw [mstoreBytes, bind_eq_ok_iff] at h
  obtain ⟨offset, -, h⟩ := h
  rw [bind_eq_ok_iff] at h
  obtain ⟨f₁, hcharge, h⟩ := h
  rw [bind_eq_ok_iff] at h
  obtain ⟨mem, hwrite, h⟩ := h
  cases h
  have hat : f₁.at = f.at := funext (charged_of_chargeMem hcharge).at_eq
  rw [← hat]
  exact writeBytes_spec hwrite

theorem at_sha3Case (h : sha3Case s x f = .ok f') : f'.at = f.at := by
  rw [sha3Case, bind_eq_ok_iff] at h
  obtain ⟨runGas, -, h⟩ := h
  rw [bind_eq_ok_iff] at h
  obtain ⟨newMem, -, h⟩ := h
  rw [bind_eq_ok_iff] at h
  obtain ⟨f₁, hcharge, h⟩ := h
  rw [bind_eq_ok_iff] at h
  obtain ⟨out, -, h⟩ := h
  cases h
  exact funext (charged_of_chargeMem hcharge).at_eq

theorem at_logCase (h : logCase s x n f = .ok f') : f'.at = f.at := by
  rw [logCase, ite_error_eq_ok_iff] at h
  obtain ⟨-, h⟩ := h
  rw [bind_eq_ok_iff] at h
  obtain ⟨runGas, -, h⟩ := h
  rw [bind_eq_ok_iff] at h
  obtain ⟨newMem, -, h⟩ := h
  rw [bind_eq_ok_iff] at h
  obtain ⟨f₁, hcharge, h⟩ := h
  rw [bind_eq_ok_iff] at h
  obtain ⟨out, -, h⟩ := h
  cases h
  exact funext (charged_of_chargeMem hcharge).at_eq

theorem at_copyFrom {runGas k : Nat} {data : Data} (h : copyFrom s runGas data k f = .ok f') :
    f'.at = store f.at (f.sp k).toNat (window data (f.sp (k + 1)).toNat (f.sp (k + 2)).toNat) := by
  obtain ⟨paid, hpaid, -⟩ := bind_eq_ok_iff.1 h
  obtain ⟨f'', hcopied, -, -, hat⟩ := copyFrom_spec k data hpaid
  rw [hcopied] at h
  cases h
  exact hat

theorem at_caseCreate (h : caseCreate s x op f = .ok f') : f'.at = f.at := by
  rw [caseCreate, ite_error_eq_ok_iff, ite_error_eq_ok_iff] at h
  obtain ⟨-, -, h⟩ := h
  rw [bind_eq_ok_iff] at h
  obtain ⟨runGas, -, h⟩ := h
  rw [bind_eq_ok_iff] at h
  obtain ⟨newMem, -, h⟩ := h
  rw [bind_eq_ok_iff] at h
  obtain ⟨f₁, hcharge, h⟩ := h
  have hat : f₁.at = f.at := funext (charged_of_chargeMem hcharge).at_eq
  dsimp only at h
  by_cases hmade : f.sp 0 ≤ x.balance f₁.rest.ext x.myAddress ∧ x.depth < 1024
  · rw [if_pos hmade, bind_eq_ok_iff] at h
    obtain ⟨initCode, -, h⟩ := h
    cases h
    exact hat
  · rw [if_neg hmade] at h
    cases h
    exact hat

/-- The memory that a call's operands need is there when it is made. -/
theorem at_caseCallSetup {callParams : CallParameters} {isMade : Bool}
    (h : caseCallSetup s x op f = .ok (callParams, isMade, f')) : f'.at = f.at ∧
      Within (f.sp (sizesOffset op + 2)).toNat (f.sp (sizesOffset op + 3)).toNat f'.rest.mem.length ∧
      ((f.sp (sizesOffset op + 3)).toNat = 0 ∨
        (f.sp (sizesOffset op + 2)).toNat + (f.sp (sizesOffset op + 3)).toNat < 2 ^ 64) := by
  rw [caseCallSetup, bind_eq_ok_iff] at h
  obtain ⟨runGas, -, h⟩ := h
  rw [bind_eq_ok_iff] at h
  obtain ⟨inputMemNeed, -, h⟩ := h
  rw [bind_eq_ok_iff] at h
  obtain ⟨outputMemNeed, houtput, h⟩ := h
  rw [bind_eq_ok_iff] at h
  obtain ⟨f₁, hcharge, h⟩ := h
  rw [bind_eq_ok_iff] at h
  obtain ⟨runGas', -, h⟩ := h
  rw [bind_eq_ok_iff] at h
  obtain ⟨f₂, hgas, h⟩ := h
  rw [bind_eq_ok_iff] at h
  obtain ⟨data, -, h⟩ := h
  cases h
  have hcharged := charged_of_chargeMem hcharge
  rw [chargeGas, ite_error_eq_ok_iff] at hgas
  obtain ⟨-, hgas⟩ := hgas
  cases hgas
  have hle := hcharged.le
  refine ⟨funext hcharged.at_eq, ?_, (memNeed_eq_ok houtput).imp_right fun ⟨heq, hle⟩ => by omega⟩
  rcases memNeed_eq_ok houtput with hzero | ⟨heq, -⟩
  · exact .inl hzero
  · refine .inr ?_
    dsimp only
    omega

theorem at_caseCall (h : caseCall s x op f = .ok f') : f'.at = remember f.at
    (match caseCallSetup s x op f with
    | .ok (callParams, true, f') => some ((f.sp (sizesOffset op + 2)).toNat,
      (x.call f'.rest.ext callParams).output.bytes.take (f.sp (sizesOffset op + 3)).toNat)
    | _ => none) := by
  rw [caseCall, ite_error_eq_ok_iff, ite_error_eq_ok_iff, ite_error_eq_ok_iff] at h
  obtain ⟨-, -, -, h⟩ := h
  dsimp only at h
  rw [bind_eq_ok_iff] at h
  obtain ⟨⟨callParams, isMade, f₁⟩, hsetup, h⟩ := h
  obtain ⟨hat, -, hfits⟩ := at_caseCallSetup hsetup
  rw [hsetup]
  dsimp only at h
  cases isMade with
  | false =>
    cases h
    exact hat
  | true =>
    rw [if_pos rfl, bind_eq_ok_iff] at h
    obtain ⟨mem, hwrite, h⟩ := h
    cases h
    refine (writeBytes_spec hwrite).trans ?_
    have hat' : (fun p => f₁.rest.mem.getD p 0) = f.at := hat
    rw [hat', remember]
    rcases hfits with hzero | hlt
    · rw [hzero, Nat.zero_mod, List.take_zero, store_nil, store_nil]
    · rw [Nat.mod_eq_of_lt (by omega), Nat.mod_eq_of_lt (by omega)]

/-! ### Nothing outside of the memory -/

/-- Throws, or goes on, but accesses nothing outside of the memory. -/
def Inside {α : Type} (r : Except Fault α) : Prop := r ≠ .error .outside

section Inside

variable {α β : Type} {r : Except Fault α} {g : α → Except Fault β} {e : VMException} {a : α} {c : Prop} [Decidable c]
  {r' : Except Fault α}

theorem inside_ok : Inside (.ok a : Except Fault α) := nofun

theorem inside_throw : Inside (.error (.throw e) : Except Fault α) := nofun

theorem Inside.bind (h : Inside r) (hg : ∀ a, r = .ok a → Inside (g a)) : Inside (r >>= g) := by
  cases r with
  | ok a => exact hg a rfl
  | error e =>
    intro heq
    exact h (by injection heq with he; rw [he])

theorem inside_ite (h : c → Inside r) (h' : ¬c → Inside r') : Inside (if c then r else r') := by
  split
  · exact h ‹c›
  · exact h' ‹¬c›

theorem inside_toInt63 (v : Nat) : Inside (toInt63 v) := inside_ite (fun _ => inside_throw) fun _ => inside_ok

theorem inside_memNeed (offset size : U256) : Inside (memNeed offset size) := inside_toInt63 _

theorem inside_chargeMem (runGas copyMemSize newMem : Nat) (f : Frame ε) :
    Inside (chargeMem s runGas copyMemSize newMem f) := by
  have hmem : ∀ memSize newMemSize, Inside (memGas s memSize newMemSize) := fun memSize newMemSize =>
    inside_ite (fun _ => (inside_toInt63 _).bind fun _ _ => (inside_toInt63 _).bind fun _ _ => inside_toInt63 _)
      fun _ => inside_ok
  exact ((hmem _ _).bind fun _ _ => inside_ite (fun _ => inside_throw) fun _ => inside_ok).bind fun _ _ =>
    inside_ite (fun _ => inside_throw) fun _ => inside_ok

theorem inside_readBytes (h : Within index n bs.length) : Inside (readBytes bs index n) :=
  inside_ite (fun _ => inside_ok) fun h' => absurd h h'

theorem inside_writeBytes {mem : Bytes} (h : Within index bs.length mem.length) : Inside (writeBytes mem index bs) := by
  obtain ⟨mem', hmem', -⟩ := writeBytes_of_within h
  rw [hmem']
  exact inside_ok

end Inside

/-- Offsets and sizes that are cut down stay in the memory. -/
theorem Within.mod {offset size m w : Nat} (h : Within offset size m) : Within (offset % w) (size % w) m := by
  have hoffset := Nat.mod_le offset w
  have hsize := Nat.mod_le size w
  rcases h with h | h
  · exact .inl (by omega)
  · exact .inr (by omega)

theorem inside_mload (s : EVMSchedule) (f : Frame ε) : Inside (mload s f) := by
  refine (inside_toInt63 _).bind fun offset hoffset => (inside_chargeMem _ _ _ f).bind fun f' hcharge => ?_
  obtain ⟨-, rfl⟩ := toInt63_eq_ok_iff.1 hoffset
  have hle := (charged_of_chargeMem hcharge).le
  have hmod := Nat.mod_le (f.sp 0).toNat (2 ^ 32)
  exact (inside_readBytes (.inr (by omega))).bind fun _ _ => inside_ok

theorem inside_mstoreBytes (s : EVMSchedule) (n : Nat) (f : Frame ε) : Inside (mstoreBytes s n f) := by
  refine (inside_toInt63 _).bind fun offset hoffset => (inside_chargeMem _ _ _ f).bind fun f' hcharge => ?_
  obtain ⟨-, rfl⟩ := toInt63_eq_ok_iff.1 hoffset
  have hle := (charged_of_chargeMem hcharge).le
  have hmod := Nat.mod_le (f.sp 0).toNat (2 ^ 32)
  have hlen := BigEndian.length_toBytes n (f.sp 1).toNat
  exact (inside_writeBytes (.inr (by omega))).bind fun _ _ => inside_ok

/-- What `SHA3`, `LOG`, `RETURN` and `REVERT` read -/
theorem inside_read {runGas newMem : Nat} {offset size : U256} (hneed : memNeed offset size = .ok newMem)
    (hcharge : chargeMem s runGas 0 newMem f = .ok f') :
    Inside (readBytes f'.rest.mem (offset.toNat % 2 ^ 64) (size.toNat % 2 ^ 64)) :=
  inside_readBytes ((charged_of_chargeMem hcharge).within hneed).mod

theorem inside_sha3Case (s : EVMSchedule) (x : ExtVM ε) (f : Frame ε) : Inside (sha3Case s x f) :=
  (inside_toInt63 _).bind fun _ _ => (inside_memNeed _ _).bind fun _ hneed => (inside_chargeMem _ _ _ f).bind fun _ hcharge =>
    (inside_read hneed hcharge).bind fun _ _ => inside_ok

theorem inside_logCase (s : EVMSchedule) (x : ExtVM ε) (n : Nat) (f : Frame ε) : Inside (logCase s x n f) :=
  inside_ite (fun _ => inside_throw) fun _ => (inside_toInt63 _).bind fun _ _ => (inside_memNeed _ _).bind fun _ hneed =>
    (inside_chargeMem _ _ _ f).bind fun _ hcharge => (inside_read hneed hcharge).bind fun _ _ => inside_ok

theorem inside_outputCase (s : EVMSchedule) (runGas : Nat) (f : Frame ε) : Inside (outputCase s runGas f) :=
  (inside_memNeed _ _).bind fun _ hneed => (inside_chargeMem _ _ _ f).bind fun _ hcharge => inside_read hneed hcharge

theorem inside_copyFrom (s : EVMSchedule) (runGas : Nat) (data : Data) (k : Nat) (f : Frame ε) :
    Inside (copyFrom s runGas data k f) := by
  have hpay : Inside (payCopy s runGas (fun i => f.sp (k + i)) f) :=
    (inside_toInt63 _).bind fun _ _ => (inside_memNeed _ _).bind fun _ _ => inside_chargeMem _ _ _ f
  cases hpaid : payCopy s runGas (fun i => f.sp (k + i)) f with
  | ok paid =>
    obtain ⟨f', hf', -⟩ := copyFrom_spec k data hpaid
    rw [hf']
    exact inside_ok
  | error e =>
    rw [copyFrom, hpaid]
    rw [hpaid] at hpay
    intro heq
    injection heq with he
    exact hpay (he ▸ rfl)

theorem inside_returndatacopy (s : EVMSchedule) (f : Frame ε) : Inside (returndatacopy s f) :=
  inside_ite (fun _ => inside_throw) fun _ => inside_ite (fun _ => inside_throw) fun _ => inside_copyFrom _ _ _ _ _

section

variable (s : EVMSchedule) (x : ExtVM ε) (op : UInt8) (f : Frame ε)

theorem inside_caseCreate : Inside (caseCreate s x op f) := by
  refine inside_ite (fun _ => inside_throw) fun _ => inside_ite (fun _ => inside_throw) fun _ => ?_
  refine (inside_toInt63 _).bind fun _ _ => (inside_memNeed _ _).bind fun _ hneed => ?_
  refine (inside_chargeMem _ _ _ f).bind fun _ hcharge => inside_ite (fun _ => ?_) fun _ => inside_ok
  exact (inside_read hneed hcharge).bind fun _ _ => inside_ok

theorem inside_callRunGas : Inside (callRunGas s x op f) := by
  refine (inside_toInt63 _).bind fun _ _ => ?_
  refine inside_ite (fun _ => (inside_toInt63 _).bind fun _ _ => ?_) fun _ => inside_ok.bind fun _ _ => ?_
  · exact inside_ite (fun _ => (inside_toInt63 _).bind fun _ _ => inside_ok) fun _ => inside_ok
  · exact inside_ite (fun _ => (inside_toInt63 _).bind fun _ _ => inside_ok) fun _ => inside_ok

theorem inside_caseCallSetup : Inside (caseCallSetup s x op f) := by
  refine (inside_callRunGas _ _ _ _).bind fun _ _ => (inside_memNeed _ _).bind fun inputMemNeed hinput => ?_
  refine (inside_memNeed _ _).bind fun outputMemNeed _ => (inside_chargeMem _ _ _ f).bind fun f₁ hcharge => ?_
  refine (inside_toInt63 _).bind fun runGas _ => ?_
  have hgas : Inside (chargeGas runGas f₁) := inside_ite (fun _ => inside_throw) fun _ => inside_ok
  refine hgas.bind fun f₂ hgas => ?_
  rw [chargeGas, ite_error_eq_ok_iff] at hgas
  obtain ⟨-, hgas⟩ := hgas
  cases hgas
  have hle := (charged_of_chargeMem hcharge).le
  have hwithin : Within (f.sp (sizesOffset op)).toNat (f.sp (sizesOffset op + 1)).toNat f₁.rest.mem.length := by
    rcases memNeed_eq_ok hinput with hzero | ⟨heq, -⟩
    · exact .inl hzero
    · exact .inr (by omega)
  exact (inside_readBytes hwithin.mod).bind fun _ _ => inside_ok

theorem inside_caseCall : Inside (caseCall s x op f) := by
  refine inside_ite (fun _ => inside_throw) fun _ => inside_ite (fun _ => inside_throw) fun _ =>
    inside_ite (fun _ => inside_throw) fun _ => (inside_caseCallSetup _ _ _ _).bind fun ⟨callParams, isMade, f'⟩ hsetup => ?_
  obtain ⟨-, hwithin, -⟩ := at_caseCallSetup hsetup
  refine inside_ite (fun _ => ?_) fun _ => inside_ok
  have hmod : Within ((f.sp (sizesOffset op + 2)).toNat % 2 ^ 64)
      ((x.call f'.rest.ext callParams).output.bytes.take ((f.sp (sizesOffset op + 3)).toNat % 2 ^ 64)).length
      f'.rest.mem.length := by
    have hlen := List.length_take_le ((f.sp (sizesOffset op + 3)).toNat % 2 ^ 64) (x.call f'.rest.ext callParams).output.bytes
    rcases hwithin.mod (w := 2 ^ 64) with hzero | hle
    · exact .inl (by omega)
    · exact .inr (by omega)
  exact (inside_writeBytes hmod).bind fun _ _ => inside_ok

/-- No instruction accesses anything outside of the memory. -/
theorem inside_memoryInstruction : Inside (memoryInstruction s x op f) := by
  rw [memoryInstruction]
  split_ifs
  · exact inside_mload s f
  · exact inside_mstoreBytes s 32 f
  · exact inside_mstoreBytes s 1 f
  · exact inside_sha3Case s x f
  · exact inside_copyFrom s _ _ 0 f
  · exact inside_copyFrom s _ _ 0 f
  · exact inside_copyFrom s _ _ 1 f
  · exact inside_returndatacopy s f
  · exact inside_caseCreate s x op f
  · exact inside_caseCall s x op f
  · exact inside_logCase s x _ f

end

/-! ### What an instruction does to the memory -/

/-- The offset is one that `unsigned` can hold, if it is cast to that. -/
def Addressable (op : UInt8) (f : Frame ε) : Prop :=
  op = MLOAD ∨ op = MSTORE ∨ op = MSTORE8 → (f.sp 0).toNat < 2 ^ 32

theorem at_memoryInstruction (h : memoryInstruction s x op f = .ok f') (hop : Addressable op f) :
    f'.at = remember f.at (stored s x op f) := by
  by_cases hmload : op = MLOAD
  · subst hmload
    exact (mload_spec h (hop (.inl rfl))).1
  by_cases hmstore : op = MSTORE
  · subst hmstore
    refine (mstoreBytes_spec h).trans ?_
    rw [Nat.mod_eq_of_lt (hop (.inr (.inl rfl)))]
    rfl
  by_cases hmstore8 : op = MSTORE8
  · subst hmstore8
    refine (mstoreBytes_spec h).trans ?_
    rw [Nat.mod_eq_of_lt (hop (.inr (.inr rfl)))]
    rfl
  by_cases hsha3 : op = SHA3
  · subst hsha3
    exact at_sha3Case h
  by_cases hcalldatacopy : op = CALLDATACOPY
  · subst hcalldatacopy
    exact at_copyFrom h
  by_cases hcodecopy : op = CODECOPY
  · subst hcodecopy
    exact at_copyFrom h
  by_cases hextcodecopy : op = EXTCODECOPY
  · subst hextcodecopy
    exact at_copyFrom h
  by_cases hreturndatacopy : op = RETURNDATACOPY
  · subst hreturndatacopy
    have h' : returndatacopy s f = .ok f' := h
    rw [returndatacopy, ite_error_eq_ok_iff, ite_error_eq_ok_iff] at h'
    exact at_copyFrom h'.2.2
  by_cases hcreate : op = CREATE ∨ op = CREATE2
  · rw [memoryInstruction, if_neg hmload, if_neg hmstore, if_neg hmstore8, if_neg hsha3,
      if_neg hcalldatacopy, if_neg hcodecopy,
      if_neg hextcodecopy, if_neg hreturndatacopy, if_pos hcreate] at h
    have hstored : stored s x op f = none := by
      rcases hcreate with rfl | rfl <;> rfl
    rw [hstored]
    exact at_caseCreate h
  by_cases hcall : op = CALL ∨ op = CALLCODE ∨ op = DELEGATECALL ∨ op = STATICCALL
  · rw [memoryInstruction, if_neg hmload, if_neg hmstore, if_neg hmstore8, if_neg hsha3,
      if_neg hcalldatacopy, if_neg hcodecopy,
      if_neg hextcodecopy, if_neg hreturndatacopy, if_neg hcreate, if_pos hcall] at h
    rw [stored, if_neg hmstore, if_neg hmstore8, if_neg hcalldatacopy, if_neg hcodecopy, if_neg hreturndatacopy,
      if_neg hextcodecopy, if_pos hcall]
    exact at_caseCall h
  · rw [memoryInstruction, if_neg hmload, if_neg hmstore, if_neg hmstore8, if_neg hsha3,
      if_neg hcalldatacopy, if_neg hcodecopy,
      if_neg hextcodecopy, if_neg hreturndatacopy, if_neg hcreate, if_neg hcall] at h
    rw [stored, if_neg hmstore, if_neg hmstore8, if_neg hcalldatacopy, if_neg hcodecopy, if_neg hreturndatacopy,
      if_neg hextcodecopy, if_neg hcall]
    exact at_logCase h

end Kmdx.Evm
