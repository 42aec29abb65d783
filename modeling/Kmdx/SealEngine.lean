import Kmdx.Core

/-!
# Transactions, headers and the rules of a chain

`libwingcore/TransactionBase`, `BlockHeader`, `EVMSchedule`, `ChainOperationParams` and `SealEngine`,
`libevm/ExtVMFace.h` (`EnvInfo`) and what `libethashseal/Ethash` adds to the checks of a transaction.
Signature recovery is secp256k1; a transaction carries what it gives.
-/

namespace Kmdx

/-! ### Schedules -/

structure EVMSchedule where
  exceptionalFailedCodeDeposit : Bool := true
  haveDelegateCall : Bool := true
  eip150Mode : Bool := false
  eip158Mode : Bool := false
  haveBitwiseShifting : Bool := false
  haveRevert : Bool := false
  haveReturnData : Bool := false
  haveStaticCall : Bool := false
  haveCreate2 : Bool := false
  expGas : Nat := 10
  expByteGas : Nat := 10
  sha3Gas : Nat := 30
  sha3WordGas : Nat := 6
  sloadGas : Nat := 50
  sstoreSetGas : Nat := 20000
  sstoreResetGas : Nat := 5000
  sstoreRefundGas : Nat := 15000
  logGas : Nat := 375
  logDataGas : Nat := 8
  logTopicGas : Nat := 375
  createGas : Nat := 32000
  callGas : Nat := 40
  callStipend : Nat := 2300
  callValueTransferGas : Nat := 9000
  callNewAccountGas : Nat := 25000
  suicideRefundGas : Nat := 24000
  memoryGas : Nat := 3
  quadCoeffDiv : Nat := 512
  createDataGas : Nat := 200
  txGas : Nat := 21000
  txCreateGas : Nat := 53000
  txDataZeroGas : Nat := 4
  txDataNonZeroGas : Nat := 68
  copyGas : Nat := 3
  extcodesizeGas : Nat := 20
  extcodecopyGas : Nat := 20
  balanceGas : Nat := 20
  suicideGas : Nat := 0
  blockhashGas : Nat := 20
  /-- `unsigned(-1)` -/
  maxCodeSize : Nat := 0xffffffff
  blockRewardOverwrite : Option U256 := none

def frontierSchedule : EVMSchedule :=
  { exceptionalFailedCodeDeposit := false, haveDelegateCall := false, txCreateGas := 21000 }

def homesteadSchedule : EVMSchedule := {}

def eip150Schedule : EVMSchedule :=
  { homesteadSchedule with
    eip150Mode := true, extcodesizeGas := 700, extcodecopyGas := 700, balanceGas := 400, sloadGas := 200, callGas := 700
    suicideGas := 5000 }

def eip158Schedule : EVMSchedule := { eip150Schedule with expByteGas := 50, eip158Mode := true, maxCodeSize := 0x6000 }

def byzantiumSchedule : EVMSchedule :=
  { eip158Schedule with
    haveRevert := true, haveReturnData := true, haveStaticCall := true, blockRewardOverwrite := some 3000000000000000000 }

def ewasmSchedule : EVMSchedule :=
  { byzantiumSchedule with maxCodeSize := 0xffffffff, txDataZeroGas := byzantiumSchedule.txDataNonZeroGas }

def constantinopleSchedule : EVMSchedule :=
  { byzantiumSchedule with blockhashGas := 800, haveCreate2 := true, haveBitwiseShifting := true }

/-- `PrecompiledContract` -/
structure PrecompiledContract where
  cost : Bytes → Nat
  execute : Bytes → Bool × Bytes
  startingBlock : Nat

/-- `c_infiniteBlockNumer` -/
def infiniteBlockNumber : Nat := 2 ^ 63 - 1

structure ChainOperationParams where
  blockReward : U256 := 0x4563918244F40000
  maximumExtraDataSize : U256 := 1024
  accountStartNonce : U256 := 0
  minGasLimit : U256 := 0x1388
  maxGasLimit : U256 := 0x7fffffffffffffff
  homesteadForkBlock : Nat := infiniteBlockNumber
  eip150ForkBlock : Nat := infiniteBlockNumber
  eip158ForkBlock : Nat := infiniteBlockNumber
  byzantiumForkBlock : Nat := infiniteBlockNumber
  ewasmForkBlock : Nat := infiniteBlockNumber
  constantinopleForkBlock : Nat := infiniteBlockNumber
  daoHardforkBlock : Nat := infiniteBlockNumber
  chainID : Int := 0
  precompiled : Address → Option PrecompiledContract

def ChainOperationParams.scheduleForBlockNumber (p : ChainOperationParams) (number : Nat) : EVMSchedule :=
  if p.constantinopleForkBlock ≤ number then constantinopleSchedule
  else if p.ewasmForkBlock ≤ number then ewasmSchedule
  else if p.byzantiumForkBlock ≤ number then byzantiumSchedule
  else if p.eip158ForkBlock ≤ number then eip158Schedule
  else if p.eip150ForkBlock ≤ number then eip150Schedule
  else if p.homesteadForkBlock ≤ number then homesteadSchedule
  else frontierSchedule

/-! ### Transactions -/

inductive TransactionType
  | nullTransaction
  | contractCreation
  | messageCall
deriving DecidableEq

structure SignatureStruct where
  r : U256
  s : U256
  v : Byte

structure Transaction where
  type : TransactionType := .nullTransaction
  nonce : U256 := 0
  value : U256 := 0
  receiveAddress : Address := 0
  gasPrice : U256 := 0
  gas : U256 := 0
  data : Bytes := []
  vrs : Option SignatureStruct := none
  chainId : Int := -4
  /-- `m_sender`: what `forceSender` was given; 0 is none. -/
  forcedSender : Address := 0
  /-- `right160` of the SHA3 of the key that `recover` gives, if it gives one. -/
  recovered : Option Address := none

namespace Transaction

/-- `operator bool` -/
def isNull (t : Transaction) : Bool := decide (t.type = .nullTransaction)

def isCreation (t : Transaction) : Bool := decide (t.type = .contractCreation)

def hasSignature (t : Transaction) : Bool := t.vrs.isSome

def hasZeroSignature (t : Transaction) : Bool :=
  match t.vrs with
  | some vrs => decide (vrs.r = 0) && decide (vrs.s = 0)
  | none => false

def isReplayProtected (t : Transaction) : Bool := decide (t.chainId ≠ -4)

def sender (t : Transaction) : Except Exn Address :=
  if t.forcedSender ≠ 0 then .ok t.forcedSender
  else if t.hasZeroSignature then .ok maxAddress
  else match t.vrs, t.recovered with
    | none, _ => .error .transactionIsUnsigned
    | some _, none => .error .invalidSignature
    | some _, some a => .ok a

/-- `c_secp256k1n` -/
def secp256k1n : Nat := 115792089237316195423570985008687907852837564279074904382605163141518161494337

def checkLowS (t : Transaction) : Except Exn Unit :=
  match t.vrs with
  | none => .error .transactionIsUnsigned
  | some vrs => if vrs.s.toNat > secp256k1n / 2 then .error .invalidSignature else .ok ()

def checkChainId (t : Transaction) (chainId : Int) : Except Exn Unit :=
  if t.chainId ≠ chainId ∧ t.chainId ≠ -4 then .error .invalidSignature else .ok ()

def baseGasRequired (t : Transaction) (es : EVMSchedule) : Nat :=
  t.data.foldl (fun g i => g + if i ≠ 0 then es.txDataNonZeroGas else es.txDataZeroGas)
    (if t.isCreation then es.txCreateGas else es.txGas)

end Transaction

/-! ### Headers -/

abbrev LogBloom := BitVec 2048

structure BlockHeader (H : Type) where
  parentHash : H
  sha3Uncles : H
  author : Address
  stateRoot : H
  transactionsRoot : H
  receiptsRoot : H
  logBloom : LogBloom
  difficulty : U256
  number : Nat
  gasLimit : U256
  gasUsed : U256
  timestamp : Nat
  extraData : Bytes
  /-- `m_seal`, each field encoded. -/
  sealFields : List Bytes

structure EnvInfo (H : Type) where
  header : BlockHeader H
  /-- `LastBlockHashesFace::precedingHashes` -/
  precedingHashes : H → List U256
  gasUsed : U256

namespace EnvInfo
variable {H : Type}

def number (e : EnvInfo H) : Nat := e.header.number

def author (e : EnvInfo H) : Address := e.header.author

end EnvInfo

/-! ### Seal engines -/

/-- The bits of `ImportRequirements` that the checks of a transaction look at. -/
structure ImportRequirements where
  transactionBasic : Bool
  transactionSignatures : Bool

/-- `ImportRequirements::Everything` -/
def ImportRequirements.everything : ImportRequirements where
  transactionBasic := true
  transactionSignatures := true

inductive SealEngineName
  | noProof
  | basicAuthority
  | ethash
deriving DecidableEq

structure SealEngine where
  name : SealEngineName
  chainParams : ChainOperationParams

namespace SealEngine
variable {H : Type}

def evmSchedule (se : SealEngine) (number : Nat) : EVMSchedule :=
  se.chainParams.scheduleForBlockNumber number

def blockReward (se : SealEngine) (number : Nat) : U256 :=
  (se.evmSchedule number).blockRewardOverwrite.getD se.chainParams.blockReward

/-- The contract at `a`, if it is a precompiled one by block `number`. -/
def precompiledAt (se : SealEngine) (a : Address) (number : Nat) : Option PrecompiledContract :=
  (se.chainParams.precompiled a).filter fun p => decide (p.startingBlock ≤ number)

/-- `SealEngineFace::verifyTransaction` -/
def verifyTransactionBase (se : SealEngine) (ir : ImportRequirements) (t : Transaction)
    (header : BlockHeader H) (gasUsed : U256) : Except Exn Unit := do
  if ir.transactionSignatures && header.number < se.chainParams.eip158ForkBlock &&
      t.isReplayProtected then
    throw .invalidSignature
  if ir.transactionSignatures && header.number < se.chainParams.constantinopleForkBlock &&
      t.hasZeroSignature then
    throw .invalidSignature
  if ir.transactionBasic && se.chainParams.constantinopleForkBlock ≤ header.number &&
      t.hasZeroSignature && (t.value ≠ 0 || t.gasPrice ≠ 0 || t.nonce ≠ 0) then
    throw .invalidZeroSignatureTransaction
  if se.chainParams.homesteadForkBlock ≤ header.number && ir.transactionSignatures &&
      t.hasSignature then
    t.checkLowS
  -- Pre calculate the gas needed for execution
  if ir.transactionBasic && t.gas.toNat < t.baseGasRequired (se.evmSchedule header.number) then
    throw .outOfGasIntrinsic
  -- Avoid transactions that would take us beyond the block gas limit.
  if header.gasLimit.toNat < gasUsed.toNat + t.gas.toNat then
    throw .blockGasLimitReached

/-- `verifyTransaction` is virtual; `Ethash` adds a check of the chain id. -/
def verifyTransaction (se : SealEngine) (ir : ImportRequirements) (t : Transaction)
    (header : BlockHeader H) (gasUsed : U256) : Except Exn Unit := do
  se.verifyTransactionBase ir t header gasUsed
  if se.name = .ethash && ir.transactionSignatures then
    if se.chainParams.eip158ForkBlock ≤ header.number then
      t.checkChainId se.chainParams.chainID
    else
      t.checkChainId (-4)

/-- What an accepted transaction satisfies, whatever the engine. -/
structure Accepted (se : SealEngine) (t : Transaction) (header : BlockHeader H) (gasUsed : U256) : Prop where
  baseGas : t.baseGasRequired (se.evmSchedule header.number) ≤ t.gas.toNat
  blockGas : gasUsed.toNat + t.gas.toNat ≤ header.gasLimit.toNat
  zeroSignature : t.hasZeroSignature = true →
    t.value = 0 ∧ t.gasPrice = 0 ∧ se.chainParams.constantinopleForkBlock ≤ header.number

theorem ok_of_guard {c : Prop} [Decidable c] {e : Exn} {f : Except Exn Unit}
    (h : (if c then .error e else f) = .ok ()) : ¬ c ∧ f = .ok () := by
  split at h
  · cases h
  · exact ⟨‹_›, h⟩

theorem ok_of_bind {x : Except Exn Unit} {f : Unit → Except Exn Unit} (h : (x >>= f) = .ok ()) :
    x = .ok () ∧ f () = .ok () := by
  cases x with
  | error e => cases h
  | ok u => exact ⟨rfl, h⟩

theorem ok_of_when {c : Prop} [Decidable c] {x : Except Exn Unit} {f : Unit → Except Exn Unit}
    (h : (if c then x >>= f else f ()) = .ok ()) : f () = .ok () := by
  split at h
  exacts [(ok_of_bind h).2, h]

theorem accepted_of_verify {se : SealEngine} {t : Transaction} {header : BlockHeader H} {gasUsed : U256}
    (h : se.verifyTransaction .everything t header gasUsed = .ok ()) :
    se.Accepted t header gasUsed := by
  obtain ⟨h, -⟩ := ok_of_bind h
  unfold verifyTransactionBase at h
  obtain ⟨-, h⟩ := ok_of_guard h
  obtain ⟨hold, h⟩ := ok_of_guard h
  obtain ⟨hnew, h⟩ := ok_of_guard h
  obtain ⟨hbase, h⟩ := ok_of_guard (ok_of_when h)
  obtain ⟨hblock, -⟩ := ok_of_guard h
  refine ⟨by simpa [ImportRequirements.everything] using hbase, Nat.le_of_not_lt hblock, fun hz => ?_⟩
  have hfork : se.chainParams.constantinopleForkBlock ≤ header.number := by
    simpa [ImportRequirements.everything, hz] using hold
  obtain ⟨⟨hvalue, hprice⟩, -⟩ : (t.value = 0 ∧ t.gasPrice = 0) ∧ t.nonce = 0 := by
    simpa [ImportRequirements.everything, hz, hfork] using hnew
  exact ⟨hvalue, hprice, hfork⟩

end SealEngine

end Kmdx
