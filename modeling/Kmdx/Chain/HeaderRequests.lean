import Kmdx.Chain.BlockChain
import Kmdx.Rlp.Items

/-!
# Requests for headers (`libwing/EthereumHost.cpp`, `EthereumPeer.cpp`)

`EthereumHostData::blockHeaders`, with the assertions that the process exits at where they fail, and what is read of a
`GetBlockHeadersPacket` before.
-/

namespace Kmdx.Chain

variable {H : Type} [DecidableEq H] [BlockSha3 H]

/-- What is in the bytes of a block -/
class HeaderData (H : Type) where
  /-- `BlockHeader::extractHeader` -/
  header : VerifiedBlockRef H → Bytes

/-- `c_maxHeadersToSend` -/
def maxHeadersToSend : Nat := 1024

/-- `c_maxPayload` -/
def maxPayload : Nat := 262144

/-- `c_blockNumberUsageLimit` -/
def blockNumberUsageLimit : Nat := 1000

/-! ### The packet -/

inductive BlockId (H : Type)
  | hash (h : H)
  | number (n : Nat)

/-- `_blockId`, which is a hash if it is as long as one. -/
def readBlockId (toHash : Bytes → H) (d : Bytes) : Except Rlp.Exn (BlockId H) := do
  let size ← if Rlp.isData d then Rlp.length d else pure 0
  if size = 32 then return .hash (toHash (← Rlp.toHash d 32))
  else return .number (← Rlp.toBigint d)

structure HeaderRequest (H : Type) where
  blockId : BlockId H
  maxHeaders : Nat
  skip : Nat
  reverse : Bool

/-- A `GetBlockHeadersPacket` and what `blockHeaders` is called with, if the skip is not too big. -/
def readRequest (toHash : Bytes → H) : Rlp.M (Option (HeaderRequest H)) := do
  let blockId := (← Rlp.item 0).data
  let maxHeaders ← Rlp.toInt (← Rlp.item 1).data 32
  let skip ← Rlp.toInt (← Rlp.item 2).data 32
  let reverse ← Rlp.toInt (← Rlp.item 3).data 1
  let numHeadersToSend := if maxHeaders ≤ maxHeadersToSend then maxHeaders else maxHeadersToSend
  if 2 ^ 32 - 1 - 1 < skip then
    return none
  return some ⟨← readBlockId toHash blockId, numHeadersToSend, skip, reverse ≠ 0⟩

namespace BlockChain

variable [HeaderData H]

def headerData (h : H) : M H Bytes := do
  let s ← get
  if h = s.genesisHash then
    return HeaderData.header s.genesis
  match s.blocks h with
  | some b => return HeaderData.header b
  | none => return []

/-! ### The walk down -/

/-- The loop of `nextHash` along the parents: where it ends, and the steps that are left. -/
def parents (limitBlock : Nat) : Nat → H → M H (H × Nat)
  | 0, h => return (h, 0)
  | step + 1, h => do
    let details ← details h
    if details.number < limitBlock then
      return (h, step + 1)
    parents limitBlock step details.parent

def nextHash (h : H) (step : Nat) : M H H := do
  let lastBlock := (← get).lastBlockNumber
  -- find the number of the block below which we don't expect BC changes.
  let limitBlock := if lastBlock > blockNumberUsageLimit then lastBlock - blockNumberUsageLimit else 0
  let (h, step) ← parents limitBlock step h
  if step = 0 then
    return h
  -- still need lower block
  let n ← numberOf h
  if step ≤ n then numberHash (n - step) else return 0

/-- `hashes` -/
def collect (step : Nat) : Nat → H → M H (List H)
  | 0, _ => return []
  | k + 1, blockHash => do
    if blockHash = 0 then
      return []
    if !(← isKnown blockHash) then
      return []
    let next ← nextHash blockHash step
    return blockHash :: (← collect step k next)

/-- The loop that appends the headers. -/
def appendHeaders : List H → Bytes → M H Bytes
  | [], rlp => return rlp
  | h :: hs, rlp => do
    if rlp.length < maxPayload then
      appendHeaders hs (rlp ++ (← headerData h))
    else return rlp

/-! ### Where it starts -/

/-- Upwards from a hash: the block at the top, and how many headers are sent. -/
def topOfHash (n lastBlock numHeadersToSend step : Nat) : M H (H × Nat) := do
  let top := (n + step * numHeadersToSend - 1) % 2 ^ 64
  if lastBlock < top then
    let numHeadersToSend := ((lastBlock + 2 ^ 32 - n) % 2 ^ 32 / step + 1) % 2 ^ 32
    let top := (n + step * (numHeadersToSend - 1)) % 2 ^ 32
    if lastBlock < top then
      throw .exit
    return (← numberHash top, numHeadersToSend)
  return (← numberHash (top % 2 ^ 32), numHeadersToSend)

def startOfHash (blockHash : H) (numHeadersToSend step : Nat) (reverse : Bool) : M H (H × Nat) := do
  if !(← isKnown blockHash) then
    return (0, numHeadersToSend)
  if reverse then
    return (blockHash, numHeadersToSend)
  let n ← numberOf blockHash
  if numHeadersToSend = 0 then
    return (0, numHeadersToSend)
  if n ≠ 0 ∨ blockHash = (← get).genesisHash then
    topOfHash n (← get).lastBlockNumber numHeadersToSend step
  else return (0, numHeadersToSend)

/-- The same for a number -/
def topOfNumber (n lastBlock numHeadersToSend step : Nat) : M H (H × Nat) := do
  let top := n + step * (numHeadersToSend - 1) % 2 ^ 64
  if lastBlock < top then
    let numHeadersToSend := ((lastBlock + 2 ^ 32 - n % 2 ^ 32) % 2 ^ 32 / step + 1) % 2 ^ 32
    let top := n + step * (numHeadersToSend - 1) % 2 ^ 32
    if lastBlock < top then
      throw .exit
    return (← numberHash (top % 2 ^ 32), numHeadersToSend)
  return (← numberHash (top % 2 ^ 32), numHeadersToSend)

def startOfNumber (n numHeadersToSend step : Nat) (reverse : Bool) : M H (H × Nat) := do
  if !reverse then
    let lastBlock := (← get).lastBlockNumber
    if lastBlock < n ∨ numHeadersToSend = 0 then
      return (0, numHeadersToSend)
    topOfNumber n lastBlock numHeadersToSend step
  else if n ≤ 2 ^ 32 - 1 then
    return (← numberHash n, numHeadersToSend)
  else return (0, numHeadersToSend)

/-- The first block of the walk, and how many headers are sent. -/
def start (blockId : BlockId H) (maxHeaders step : Nat) (reverse : Bool) : M H (H × Nat) :=
  match blockId with
  | .hash h => startOfHash h maxHeaders step reverse
  | .number n => startOfNumber n maxHeaders step reverse

/-- With the number of the headers, as it is before the payload is cut. -/
def blockHeaders (blockId : BlockId H) (maxHeaders skip : Nat) (reverse : Bool) : M H (Bytes × Nat) := do
  let step := (skip % 2 ^ 32 + 1) % 2 ^ 32
  if step = 0 then
    throw .exit
  let (blockHash, numHeadersToSend) ← start blockId maxHeaders step reverse
  let hashes ← collect step numHeadersToSend blockHash
  let rlp ← appendHeaders (if reverse then hashes else hashes.reverse) []
  return (rlp, hashes.length)

end BlockChain

end Kmdx.Chain
