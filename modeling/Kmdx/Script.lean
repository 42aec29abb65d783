import Kmdx.Executive

/-!
# The services of the virtual machine (`libwing/ExtVM`)

What a virtual machine does to the world, it does through its `ExtVM`. A `Script` is a run of a machine
as seen from there: the calls it makes in order, each call of another contract with the script of the
callee, and how it ends. Any run of any machine is a script.
-/

namespace Kmdx

open Wp

variable {H : Type} [Digest H]

inductive EvmcStatusCode
  | success
  | failure
  | revert
  | outOfGas
  | undefinedInstruction
  | stackOverflow
  | stackUnderflow
  | badJumpDestination
deriving DecidableEq

def transactionExceptionToEvmcStatusCode : TransactionException → EvmcStatusCode
  | .none => .success
  | .revertInstruction => .revert
  | .outOfGas => .outOfGas
  | .badInstruction => .undefinedInstruction
  | .outOfStack => .stackOverflow
  | .stackUnderflow => .stackUnderflow
  | .badJumpDestination => .badJumpDestination
  | _ => .failure

structure CallResult where
  status : EvmcStatusCode
  output : Bytes

structure CreateResult extends CallResult where
  address : Address

/-- `c_blockhashContractAddress` -/
def blockhashContractAddress : Address := 0xf0

/-- `h256(bytes)`, as a number: 0 if there are not 32 of them. -/
def h256OfBytes (b : Bytes) : U256 := if b.length = 32 then ofH256 b else 0

namespace ExtVM

variable (c : Context H) (vm : Vm H)

def setStore (ext : ExtVM H) (n v : U256) : StateM H Unit := State.setStorage ext.myAddress n v

def log (ext : ExtVM H) (topics : List U256) (data : Bytes) : ExtVM H :=
  let entry : LogEntry := ⟨ext.myAddress, topics, data⟩
  { ext with
    sub := { ext.sub with logs := ext.sub.logs ++ [entry] }
    trace := .log ext.trace entry }

/-- `sub.refunds += x` in the virtual machine. -/
def addRefund (ext : ExtVM H) (x : U256) : ExtVM H :=
  { ext with
    sub := { ext.sub with refunds := ext.sub.refunds + x }
    trace := .refund ext.trace x }

def suicide (ext : ExtVM H) (a : Address) : StateM H (ExtVM H) := do
  let balance ← State.balance ext.myAddress
  c.addBalance (if a = ext.myAddress then .ownBeneficiary else .arithmetic) a balance
  State.setBalance ext.myAddress 0
  return { ext with
    sub := { ext.sub with suicides := insert ext.myAddress ext.sub.suicides }
    trace := .suicide ext.trace ext.myAddress a balance }

/-- What is left to do for a frame that was set up: `go`, and `e.accrueSubState(sub)` after it. -/
def goAndAccrue (ext : ExtVM H) (done : Bool) (e : Executive H) : StateM H (ExtVM H × Executive H) :=
  if done then return (ext, e)
  else do
    let e ← e.go c vm
    return ({ ext with
      sub := e.accrueSubState ext.sub
      trace := .frame ext.trace (decide (e.excepted = .none)) (e.ext.elim .nil (·.trace)) }, e)

/-- Returns what is left of the gas, too. -/
def call (ext : ExtVM H) (p : CallParameters) : StateM H (ExtVM H × U256 × CallResult) := do
  let r ← ({ depth := ext.depth + 1 } : Executive H).call c p ext.gasPrice ext.origin
  let r ← ext.goAndAccrue c vm r.1 r.2
  return (r.1, r.2.gas, ⟨transactionExceptionToEvmcStatusCode r.2.excepted, r.2.output⟩)

/-- `CREATE2` if there is a salt. -/
def createOp (e : Executive H) (ext : ExtVM H) (endowment gas : U256) (code : Bytes)
    (salt : Option U256) : StateM H (Bool × Executive H) :=
  match salt with
  | none => e.createOpcode c ext.myAddress endowment ext.gasPrice gas code ext.origin
  | some salt => e.create2Opcode c ext.myAddress endowment ext.gasPrice gas code ext.origin salt

def create (ext : ExtVM H) (endowment gas : U256) (code : Bytes) (salt : Option U256) :
    StateM H (ExtVM H × U256 × CreateResult) := do
  let r ← createOp c { depth := ext.depth + 1 } ext endowment gas code salt
  let r ← ext.goAndAccrue c vm r.1 r.2
  return (r.1, r.2.gas,
    ⟨⟨transactionExceptionToEvmcStatusCode r.2.excepted, r.2.output⟩, r.2.newAddress⟩)

def blockHash (ext : ExtVM H) (number : U256) : StateM H U256 := do
  let currentNumber := c.number
  if currentNumber ≤ number.toNat ∨ number.toNat < max 256 currentNumber - 256 then return 0
  else if currentNumber < (c.params.constantinopleForkBlock + 256) % 2 ^ 256 then
    let lastHashes := c.envInfo.precedingHashes c.envInfo.header.parentHash
    match lastHashes[currentNumber - 1 - number.toNat]? with
    | some hash => return hash
    | none => throw .assertion
  else
    let nonce ← State.getNonce ext.caller
    c.stopIf .nestedTransaction true
    let tx : Transaction := {
      type := .messageCall, value := 0, gasPrice := 0, gas := 1000000
      receiveAddress := blockhashContractAddress, data := toH256 number, nonce := nonce
      forcedSender := ext.caller }
    let r ← State.execute c vm tx .reverted
    return h256OfBytes r.1.output

end ExtVM

inductive Script
  /-- The end: what is put out, and the gas that is left. -/
  | stop (output : Bytes) (gas : U256)
  | revert (output : Bytes) (gas : U256)
  | vmException (x : VMException)
  /-- Some other exception of the program. -/
  | throw (x : Exn) (h : x ≠ .monitor)
  | setStore (n v : U256) (next : Script)
  | log (topics : List U256) (data : Bytes) (next : Script)
  | addRefund (x : U256) (next : Script)
  /-- Any call of `State` that only reads. -/
  | read (q : State.Query) (next : Script)
  | suicide (a : Address) (next : Script)
  | call (p : CallParameters) (callee next : Script)
  | create (endowment gas : U256) (code : Bytes) (salt : Option U256) (callee next : Script)
  | blockHash (number : U256) (callee next : Script)

/-- The machine that runs the script. It never leaves more gas than it was given. -/
def Script.run (c : Context H) : Script → Vm H
  | .stop output gas, ext, given => return ⟨ext, if gas ≤ given then gas else given, .stop output⟩
  | .revert output gas, ext, given => return ⟨ext, if gas ≤ given then gas else given, .revert output⟩
  | .vmException x, ext, given => return ⟨ext, given, .vmException x⟩
  | .throw x _, _, _ => MonadExcept.throw x
  | .setStore n v next, ext, given => do
    ext.setStore n v
    next.run c ext given
  | .log topics data next, ext, given => next.run c (ext.log topics data) given
  | .addRefund x next, ext, given => next.run c (ext.addRefund x) given
  | .read q next, ext, given => do
    q.run
    next.run c ext given
  | .suicide a next, ext, given => do
    let ext ← ext.suicide c a
    next.run c ext given
  | .call p callee next, ext, given => do
    let r ← ext.call c (callee.run c) p
    next.run c r.1 given
  | .create endowment gas code salt callee next, ext, given => do
    let r ← ext.create c (callee.run c) endowment gas code salt
    next.run c r.1 given
  | .blockHash number callee next, ext, given => do
    let _ ← ext.blockHash c (callee.run c) number
    next.run c ext given

end Kmdx
