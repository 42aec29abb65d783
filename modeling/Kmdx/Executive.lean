import Mathlib.Data.Finset.Sort
import Kmdx.NativeStorage
import Kmdx.SealEngine

/-!
# Message calls, contract creation and transactions (`libwing/Executive`, `libwingvm`)

`Executive` carries one frame: `call` or `create` sets it up, `go` runs its code, and at the bottom of
the stack `initialise` and `finalize` deal with the gas that the transaction buys. The virtual machine
is a parameter of `go`; native code (`NativeManager`) is not.

A `Context` may watch the run: a monitored run throws `Exn.monitor` where the program is about to do
what the monitor watches for, and is the program's run otherwise.
-/

namespace Kmdx

open Wp

variable {H : Type} [Digest H]

/-! ### Contexts and monitors -/

/-- What a monitored run is stopped at. -/
inductive Watch
  /-- A balance or an amount of gas is about to wrap. -/
  | arithmetic
  /-- The same in a contract that names itself the beneficiary of its end. -/
  | ownBeneficiary
  /-- `clearStorage` is about to drop words that were not committed. -/
  | clearStorage
  /-- `BLOCKHASH` is about to be answered by a transaction of its own. -/
  | nestedTransaction

/-- `m_envInfo` and `m_sealEngine`, and what the run is watched for (in the program: nothing). -/
structure Context (H : Type) where
  envInfo : EnvInfo H
  sealEngine : SealEngine
  monitor : Watch → Bool := fun _ => false

namespace Context

def params (c : Context H) : ChainOperationParams := c.sealEngine.chainParams

def number (c : Context H) : Nat := c.envInfo.number

/-- `evmSchedule()` -/
def schedule (c : Context H) : EVMSchedule := c.sealEngine.evmSchedule c.number

def stopIf (c : Context H) (w : Watch) (b : Bool) : StateM H Unit :=
  if c.monitor w && b then throw .monitor else return

/-- `x - y` on amounts of gas. -/
def sub (c : Context H) (x y : U256) : StateM H U256 := do
  c.stopIf .arithmetic (decide (x < y))
  return x - y

/-- `x + y` on amounts of gas. -/
def add (c : Context H) (x y : U256) : StateM H U256 := do
  c.stopIf .arithmetic (decide (2 ^ 256 ≤ x.toNat + y.toNat))
  return x + y

/-- `gas * gasPrice` -/
def mul (c : Context H) (x y : U256) : StateM H U256 := do
  c.stopIf .arithmetic (decide (2 ^ 256 ≤ x.toNat * y.toNat))
  return x * y

def addBalance (c : Context H) (w : Watch) (a : Address) (amount : U256) : StateM H Unit := do
  let s ← get
  c.stopIf w (decide (2 ^ 256 ≤ (s.view.balance a).toNat + amount.toNat))
  State.addBalance a amount

def transferBalance (c : Context H) (sender receiver : Address) (value : U256) : StateM H Unit := do
  State.subBalance sender value
  c.addBalance .arithmetic receiver value

/-- The words of the cached account at `a` that differ from those of its storage trie. -/
def pendingWords (s : State H) (a : Address) : List U256 :=
  ((s.cacheAt a).storageOverlay.entries.filter fun i =>
    decide (i.2 ≠ s.db.storageTrie (s.cacheAt a).storageRoot i.1)).map (·.1)

def clearStorage (c : Context H) (a : Address) : StateM H Unit := do
  let s ← get
  c.stopIf .clearStorage
    (decide ((s.cacheAt a).storageRoot ≠ emptyTrie) && !(pendingWords s a).isEmpty)
  State.clearStorage a

end Context

/-! ### Substates and calls -/

structure LogEntry where
  address : Address
  topics : List U256
  data : Bytes
deriving DecidableEq

structure SubState where
  suicides : Finset Address := ∅
  logs : List LogEntry := []
  refunds : U256 := 0
deriving DecidableEq

/-- `operator+=` -/
def SubState.add (s t : SubState) : SubState where
  suicides := s.suicides ∪ t.suicides
  logs := s.logs ++ t.logs
  refunds := s.refunds + t.refunds

structure CallParameters where
  senderAddress : Address
  codeAddress : Address
  receiveAddress : Address
  valueTransfer : U256
  apparentValue : U256
  gas : U256
  data : Bytes
  staticCall : Bool := false

inductive TransactionException
  | none
  | unknown
  | outOfGasBase
  | badInstruction
  | badJumpDestination
  | outOfGas
  | outOfStack
  | stackUnderflow
  | revertInstruction
  | addressAlreadyUsed
deriving DecidableEq

/-- The exceptions derived from `VMException`. -/
inductive VMException
  | badInstruction
  | badJumpDestination
  | outOfGas
  | outOfStack
  | stackUnderflow
  | disallowedStateChange
  | bufferOverrun
  | assetContractCalledDirectly

def toTransactionException : VMException → TransactionException
  | .badInstruction => .badInstruction
  | .badJumpDestination => .badJumpDestination
  | .outOfGas => .outOfGas
  | .outOfStack => .outOfStack
  | .stackUnderflow => .stackUnderflow
  | _ => .unknown

inductive CodeDeposit
  | none
  | failed
  | success

structure ExecutionResult where
  gasUsed : U256 := 0
  excepted : TransactionException := .unknown
  newAddress : Address := 0
  output : Bytes := []
  codeDeposit : CodeDeposit := .none
  gasRefunded : U256 := 0
  depositSize : Nat := 0
  gasForDeposit : U256 := 0

/-- What was done through an `ExtVM`, newest last. The source keeps no such record. -/
inductive Trace
  | nil
  | log (before : Trace) (entry : LogEntry)
  | refund (before : Trace) (x : U256)
  /-- A contract with this balance ends in favour of the beneficiary. -/
  | suicide (before : Trace) (contract beneficiary : Address) (balance : U256)
  /-- Code was run in a frame of its own, which did not fail if `ok`. -/
  | frame (before : Trace) (ok : Bool) (callee : Trace)

structure ExtVM (H : Type) where
  myAddress : Address
  caller : Address
  origin : Address
  value : U256
  gasPrice : U256
  data : Bytes
  code : Bytes
  /-- none for `h256()` -/
  codeHash : Option H
  sub : SubState := {}
  depth : Nat
  isCreate : Bool
  staticCall : Bool
  trace : Trace := .nil

/-! ### Virtual machines -/

/-- How `VMFace::exec` ends, other than by an exception that `go` does not handle. -/
inductive VmEnding
  | stop (output : Bytes)
  | revert (output : Bytes)
  | vmException (x : VMException)

structure VmResult (H : Type) where
  ext : ExtVM H
  gas : U256
  ending : VmEnding

/-- `exec(io_gas, ext)` -/
abbrev Vm (H : Type) := ExtVM H → U256 → StateM H (VmResult H)

def keyOn (H : Type) [Digest H] (partition : Nat) (key : Address) : U256 :=
  Digest.toU256 (sha3 (Rlp.list [Rlp.nat partition, Rlp.address key]) : H)

def rootContractAddress : Address := 0x0300000000000000000000000000000000000000

def partitionNativeContracts : Nat := 1

/-- `"asset"` -/
def assetName : Bytes := [0x61, 0x73, 0x73, 0x65, 0x74]

/-- `AssetVM::exec` -/
def AssetVM : Vm H := fun ext gas =>
  if ext.depth ≠ 1 then return ⟨ext, gas, .vmException .assetContractCalledDirectly⟩
  else return ⟨ext, gas, .stop []⟩

namespace NativeManager

def isNativeContract (a : Address) : StateM H Bool := do
  let r ← NativeStorage.getData rootContractAddress (keyOn H partitionNativeContracts a) []
  return decide (r.1 ≠ 0)

def callVM (a : Address) : Vm H := fun ext gas => do
  let r ← NativeStorage.getData rootContractAddress (keyOn H 1 a) []
  if r.1 ≠ 0 ∧ r.2 = assetName then AssetVM ext gas
  else throw (.systemError
    ("Native VM not found: " ++ String.ofList (r.2.map fun b => Char.ofNat b.toNat)))

end NativeManager

structure Executive (H : Type) where
  ext : Option (ExtVM H) := none
  native : Option Address := none
  output : Bytes := []
  res : Option ExecutionResult := none
  depth : Nat := 0
  excepted : TransactionException := .none
  baseGasRequired : Nat := 0
  gas : U256 := 0
  refunded : U256 := 0
  t : Transaction := {}
  logs : List LogEntry := []
  gasCost : U256 := 0
  isCreation : Bool := false
  newAddress : Address := 0
  savepoint : Nat := 0

/-- The constructor of `ExtVM`. -/
def ExtVM.make (ext : ExtVM H) : StateM H (ExtVM H) := do
  if !(← State.addressInUse ext.myAddress) then throw .assertion
  return ext

/-- An exception of a pure function. -/
def liftExcept {α : Type} : Except Exn α → StateM H α
  | .ok a => return a
  | .error e => throw e

namespace Executive

variable (c : Context H)

def gasUsed (e : Executive H) : U256 := e.t.gas - e.gas

def accrueSubState (e : Executive H) (parent : SubState) : SubState :=
  match e.ext with
  | some ext => parent.add ext.sub
  | none => parent

def initialise (e : Executive H) (t : Transaction) : StateM H (Executive H) := do
  let e := { e with t := t, baseGasRequired := t.baseGasRequired c.schedule }
  liftExcept (c.sealEngine.verifyTransaction .everything t c.envInfo.header c.envInfo.gasUsed)
  if t.hasZeroSignature then return e
  -- Avoid invalid transactions.
  let sender ← liftExcept t.sender
  let nonceReq ← State.getNonce sender
  if t.nonce ≠ nonceReq then throw .invalidNonce
  -- Avoid unaffordable transactions.
  let gasCost := t.gas.toNat * t.gasPrice.toNat
  let totalCost := t.value.toNat + gasCost
  let balance ← State.balance sender
  if balance.toNat < totalCost then throw .notEnoughCash
  return { e with gasCost := BitVec.ofNat 256 gasCost }

def revert (e : Executive H) : StateM H (Executive H) := do
  State.rollback e.savepoint
  return { e with ext := e.ext.map fun ext => { ext with sub := {} }, newAddress := 0 }

/-- The sender's nonce counts what it sends (EIP86: but for `MaxAddress`). -/
def countNonce (sender : Address) : StateM H Unit :=
  if sender ≠ maxAddress ∨ c.number < c.params.constantinopleForkBlock then State.incNonce sender
  else return

/-- `if (m_t)`: in an external transaction. -/
def countTransaction (e : Executive H) (sender : Address) : StateM H Unit :=
  if e.t.isNull then return else countNonce c sender

/-- `call`, when there is a precompiled contract at the code address: whether all is done, and the
frame. -/
def callPrecompiled (e : Executive H) (contract : PrecompiledContract) (p : CallParameters) :
    StateM H (Bool × Executive H) := do
  let g := contract.cost p.data
  if p.gas.toNat < g then
    if c.params.eip158ForkBlock ≤ c.number then State.addBalance p.codeAddress 0
    return (true, { e with excepted := .outOfGasBase })
  else
    let gas ← c.sub p.gas (BitVec.ofNat 256 g)
    let r := contract.execute p.data
    if r.1 then return (false, { e with gas := gas, output := r.2 })
    else return (true, { e with gas := 0, output := r.2, excepted := .outOfGas })

/-- `call`, when there is none. -/
def callContract (e : Executive H) (p : CallParameters) (gasPrice : U256) (origin : Address) :
    StateM H (Executive H) := do
  let e := { e with gas := p.gas }
  let isNative ← NativeManager.isNativeContract p.codeAddress
  if isNative then
    let ext ← ExtVM.make {
      myAddress := p.receiveAddress, caller := p.senderAddress, origin := origin
      value := p.apparentValue, gasPrice := gasPrice, data := p.data, code := [], codeHash := none
      depth := e.depth, isCreate := false, staticCall := p.staticCall }
    return { e with ext := some ext, native := some p.codeAddress }
  else if ← State.addressHasCode p.codeAddress then
    let code ← State.code p.codeAddress
    let codeHash ← State.codeHash p.codeAddress
    let ext ← ExtVM.make {
      myAddress := p.receiveAddress, caller := p.senderAddress, origin := origin
      value := p.apparentValue, gasPrice := gasPrice, data := p.data, code := code
      codeHash := some codeHash, depth := e.depth, isCreate := false, staticCall := p.staticCall }
    return { e with ext := some ext }
  else return e

/-- The frame of a call; whether it is done before any transfer. -/
def prepareCall (e : Executive H) (p : CallParameters) (gasPrice : U256) (origin : Address) :
    StateM H (Bool × Executive H) :=
  match c.sealEngine.precompiledAt p.codeAddress c.number with
  | some contract => e.callPrecompiled c contract p
  | none => do
    let e ← e.callContract p gasPrice origin
    return (false, e)

/-- Returns whether all is done; if not, `go` has to be called. -/
def call (e : Executive H) (p : CallParameters) (gasPrice : U256) (origin : Address) :
    StateM H (Bool × Executive H) := do
  -- If external transaction.
  e.countTransaction c p.senderAddress
  let savepoint ← State.savepoint
  let r ← prepareCall c { e with savepoint := savepoint } p gasPrice origin
  if r.1 then return (true, r.2)
  else
    -- Transfer ether.
    c.transferBalance p.senderAddress p.receiveAddress p.valueTransfer
    return (r.2.ext.isNone, r.2)

/-- `m_s.addressHasCode(m_newAddress) || m_s.getNonce(m_newAddress) > 0` -/
def accountAlreadyExist (e : Executive H) : StateM H Bool := do
  let hasCode ← State.addressHasCode e.newAddress
  if hasCode then return true
  else
    let nonce ← State.getNonce e.newAddress
    return decide (0 < nonce)

/-- The new account gets its endowment and its nonce; `_init` is scheduled if not empty. -/
def createAccount (e : Executive H) (sender : Address) (endowment gasPrice : U256) (init : Bytes)
    (origin : Address) : StateM H (Bool × Executive H) := do
  -- Transfer ether before deploying the code. This will also create new
  -- account if it does not exist yet.
  c.transferBalance sender e.newAddress endowment
  let startNonce ← State.requireAccountStartNonce
  State.setNonce e.newAddress
    (if c.params.eip158ForkBlock ≤ c.number then startNonce + 1 else startNonce)
  if init = [] then return (e.ext.isNone, e)
  else
    let ext ← ExtVM.make {
      myAddress := e.newAddress, caller := sender, origin := origin, value := endowment
      gasPrice := gasPrice, data := [], code := init, codeHash := some (sha3 init)
      depth := e.depth, isCreate := true, staticCall := false }
    return (false, { e with ext := some ext })

def executeCreate (e : Executive H) (sender : Address) (endowment gasPrice gas : U256) (init : Bytes)
    (origin : Address) : StateM H (Bool × Executive H) := do
  countNonce c sender
  let savepoint ← State.savepoint
  let e := { e with savepoint := savepoint, isCreation := true, gas := gas }
  let exist ← e.accountAlreadyExist
  if exist then
    let e ← revert { e with gas := 0, excepted := .addressAlreadyUsed }
    return (true, { e with ext := none })
  else e.createAccount c sender endowment gasPrice init origin

def createOpcode (e : Executive H) (sender : Address) (endowment gasPrice gas : U256) (init : Bytes)
    (origin : Address) : StateM H (Bool × Executive H) := do
  let nonce ← State.getNonce sender
  let newAddress := right160 (sha3 (Rlp.list [Rlp.address sender, Rlp.nat nonce.toNat]) : H)
  executeCreate c { e with newAddress := newAddress } sender endowment gasPrice gas init origin

def create2Opcode (e : Executive H) (sender : Address) (endowment gasPrice gas : U256) (init : Bytes)
    (origin : Address) (salt : U256) : StateM H (Bool × Executive H) :=
  let newAddress := right160 (sha3 (BigEndian.toBytes 20 sender.toNat ++ toH256 salt ++
    toH256 (Digest.toU256 (sha3 init : H))) : H)
  executeCreate c { e with newAddress := newAddress } sender endowment gasPrice gas init origin

def execute (e : Executive H) : StateM H (Bool × Executive H) := do
  -- Pay...
  let sender ← liftExcept e.t.sender
  State.subBalance sender e.gasCost
  if e.t.gas.toNat < e.baseGasRequired then throw .assertion
  let gas ← c.sub e.t.gas (BitVec.ofNat 256 e.baseGasRequired)
  if e.t.isCreation then e.createOpcode c sender e.t.value e.t.gasPrice gas e.t.data sender
  else
    e.call c {
      senderAddress := sender, codeAddress := e.t.receiveAddress, receiveAddress := e.t.receiveAddress
      valueTransfer := e.t.value, apparentValue := e.t.value, gas := gas, data := e.t.data }
      e.t.gasPrice sender

/-! ### Running the code of a frame -/

/-- `catch (RevertInstruction& _e)` -/
def onRevert (e : Executive H) (output : Bytes) : StateM H (Executive H) := do
  let e ← e.revert
  return { e with output := output, excepted := .revertInstruction }

/-- `catch (VMException const& _e)` -/
def onVMException (e : Executive H) (x : VMException) : StateM H (Executive H) :=
  revert { e with gas := 0, excepted := toTransactionException x }

/-- The code of the new account is paid for and set. -/
def deposit (e : Executive H) (a : Address) (out : Bytes) : StateM H (Executive H) := do
  let e := { e with res := e.res.map fun (r : ExecutionResult) =>
    { r with gasForDeposit := e.gas, depositSize := out.length } }
  if c.schedule.maxCodeSize < out.length then e.onVMException .outOfGas
  else if out.length * c.schedule.createDataGas ≤ e.gas.toNat then
    let gas ← c.sub e.gas (BitVec.ofNat 256 (out.length * c.schedule.createDataGas))
    State.setCode a out
    return { e with
      gas := gas
      res := e.res.map fun (r : ExecutionResult) => { r with codeDeposit := .success, output := out } }
  else if c.schedule.exceptionalFailedCodeDeposit then e.onVMException .outOfGas
  else
    State.setCode a []
    return { e with
      res := e.res.map fun (r : ExecutionResult) => { r with codeDeposit := .failed, output := [] } }

def goCreate (vm : Vm H) (e : Executive H) (ext : ExtVM H) : StateM H (Executive H) := do
  c.clearStorage ext.myAddress
  let r ← vm ext e.gas
  let e := { e with ext := some r.ext, gas := r.gas }
  match r.ending with
  | .stop out => e.deposit c ext.myAddress out
  | .revert out => e.onRevert out
  | .vmException x => e.onVMException x

/-- `m_native ? callVM(*m_native, ..) : vm->exec(..)` -/
def exec (vm : Vm H) (e : Executive H) (ext : ExtVM H) : StateM H (VmResult H) :=
  match e.native with
  | some a => NativeManager.callVM a ext e.gas
  | none => vm ext e.gas

def goCall (vm : Vm H) (e : Executive H) (ext : ExtVM H) : StateM H (Executive H) := do
  let r ← e.exec vm ext
  let e := { e with ext := some r.ext, gas := r.gas }
  match r.ending with
  | .stop out => return { e with output := out }
  | .revert out => e.onRevert out
  | .vmException x => e.onVMException x

/-- What an exception that is neither a `RevertInstruction` nor a `VMException` becomes: an
`InternalVMError` is thrown on, and `exit(1)` is the answer to any other. -/
def uncaught : Exn → Exn
  | .assertion => .assertion
  | .internalVMError => .internalVMError
  | .monitor => .monitor
  | _ => .terminate

/-- `m_res->output = m_output.toVector()` -/
def copyOutput (e : Executive H) : Executive H :=
  if e.output = [] then e
  else { e with res := e.res.map fun (r : ExecutionResult) => { r with output := e.output } }

def go (vm : Vm H) (e : Executive H) : StateM H (Executive H) :=
  match e.ext with
  | none => return e
  | some ext => do
    let e ← tryCatch (if e.isCreation then e.goCreate c vm ext else e.goCall vm ext)
      fun x => throw (uncaught x)
    return e.copyOutput

/-- `go`, if it has to be called. -/
def goUnless (vm : Vm H) (done : Bool) (e : Executive H) : StateM H (Executive H) :=
  if done then return e else e.go c vm

/-- `for (auto a: m_ext->sub.suicides) m_s.kill(a)` -/
def killAll : List Address → StateM H Unit
  | [] => return
  | a :: l => do
    State.kill a
    killAll l

/-- `m_refunded` and what it is computed from. -/
def refund (e : Executive H) : StateM H (Executive H) :=
  match e.ext with
  | none => return { e with refunded := 0 }
  | some ext => do
    let refunds := ext.sub.refunds +
      BitVec.ofNat 256 (c.schedule.suicideRefundGas * ext.sub.suicides.card)
    let spent ← c.sub e.t.gas e.gas
    return { e with
      ext := some { ext with sub := { ext.sub with refunds := refunds } }
      refunded := if spent / 2 ≤ refunds then spent / 2 else refunds }

/-- What is left of the gas goes back to the sender, the rest to the author. -/
def payOut (e : Executive H) : StateM H Unit :=
  if e.t.isNull then return
  else do
    let sender ← liftExcept e.t.sender
    let left ← c.mul e.gas e.t.gasPrice
    c.addBalance .arithmetic sender left
    let spent ← c.sub e.t.gas e.gas
    let feesEarned ← c.mul spent e.t.gasPrice
    c.addBalance .arithmetic c.envInfo.author feesEarned

/-- The accounts that have suicided are deleted, and the logs are taken over. -/
def takeSubState (e : Executive H) : StateM H (Executive H) :=
  match e.ext with
  | none => return e
  | some ext => do
    killAll (ext.sub.suicides.sort (· ≤ ·))
    return { e with logs := ext.sub.logs }

/-- Returns whether the frame halted normally. -/
def finalize (e : Executive H) : StateM H (Bool × Executive H) := do
  -- Accumulate refunds for suicides, then the refunds of SSTORE:
  -- must be done before the miner gets the fees.
  let e ← e.refund c
  let gas ← c.add e.gas e.refunded
  let e := { e with gas := gas }
  e.payOut c
  let e ← e.takeSubState
  return (decide (e.excepted = .none), { e with
    res := e.res.map fun (r : ExecutionResult) => { r with
      gasUsed := e.gasUsed, excepted := e.excepted, newAddress := e.newAddress
      gasRefunded := e.ext.elim 0 (·.sub.refunds) } })

end Executive

/-! ### Transactions on a state (`libwing/State.cpp`) -/

inductive Permanence
  | reverted
  | committed
  | uncommitted
deriving DecidableEq

structure TransactionReceipt (H : Type) where
  statusCodeOrStateRoot : Bool ⊕ H
  gasUsed : U256
  log : List LogEntry

namespace State

variable (c : Context H)

/-- `executeTransaction` -/
def executeTransaction (vm : Vm H) (e : Executive H) (t : Transaction) :
    StateM H (Bool × Executive H) := do
  let e ← e.initialise c t
  let r ← e.execute c
  let e ← r.2.goUnless c vm r.1
  e.finalize c

/-- `switch (_p)` -/
def makePermanent : Permanence → StateM H Unit
  | .reverted => clearCache
  | .committed =>
    commit (if c.params.eip158ForkBlock ≤ c.number then .removeEmptyAccounts else .keepEmptyAccounts)
  | .uncommitted => return

def execute (vm : Vm H) (t : Transaction) (p : Permanence) :
    StateM H (ExecutionResult × TransactionReceipt H) := do
  let startGasUsed := c.envInfo.gasUsed
  let r ← executeTransaction c vm { res := some {} } t
  makePermanent c p
  let s ← get
  return (r.2.res.getD {}, {
    statusCodeOrStateRoot :=
      if c.params.byzantiumForkBlock ≤ c.number then .inl r.1 else .inr s.root
    gasUsed := startGasUsed + r.2.gasUsed
    log := r.2.logs })

end State

end Kmdx
