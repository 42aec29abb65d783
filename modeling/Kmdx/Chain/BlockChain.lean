import Kmdx.Core
import Kmdx.Lib.Cached

/-!
# The block chain (`libwing/BlockChain.cpp`, `BlockDetails.h`)

Blooms and receipts are left out, and so are the checks of a block but for those of its number: whether
it passes them is an argument. `m_blocks` only keeps what `m_blocksDB` holds.
-/

namespace Kmdx.Chain

open Wp

/-- A block as it comes to the chain. The transactions are the digests of its second list's items. -/
structure VerifiedBlockRef (H : Type) where
  parentHash : H
  number : Nat
  difficulty : U256
  gasUsed : Nat
  transactions : List H
  /-- Whatever else is in the block. -/
  rest : Bytes := []
deriving DecidableEq

/-- `sha3` of the header, which has no collisions and is never `h256()`. -/
class BlockSha3 (H : Type) extends Zero H where
  hash : VerifiedBlockRef H → H
  hash_injective : Function.Injective hash
  hash_ne_zero : ∀ block, hash block ≠ 0

export BlockSha3 (hash)

/-- `c_invalidNumber` -/
def invalidNumber : Nat := 2 ^ 32 - 1

structure BlockDetails (H : Type) where
  number : Nat
  totalDifficulty : U256
  parent : H
  children : List H

def BlockDetails.isNull {H : Type} (d : BlockDetails H) : Bool := d.number = invalidNumber

structure TransactionAddress (H : Type) where
  blockHash : H
  index : Nat
deriving DecidableEq

/-- `m_extrasDB` is what the three `Cached` are caches of. -/
structure BlockChain (H : Type) where
  /-- `m_params.genesisBlock()` -/
  genesis : VerifiedBlockRef H
  tieBreakingGas : Bool
  /-- `m_blocksDB` -/
  blocks : H → Option (VerifiedBlockRef H) := fun _ => none
  extraDetails : Cached H (BlockDetails H)
  extraTransactionAddress : Cached H (TransactionAddress H) := {}
  extraBlockHash : Cached Nat H := {}
  lastBlockHash : H
  lastBlockNumber : Nat := 0
  /-- What `import` has taken, newest first. -/
  imported : List H := []
  /-- `rewind` has moved the head. -/
  rewound : Bool := false

inductive Exn
  | alreadyHaveBlock
  | unknownParent
  /-- A check that is left out. -/
  | invalidBlock
  | invalidNumber
  /-- No header can be read from a block that is not there. -/
  | invalidHeader
  /-- The process exits. -/
  | exit
deriving DecidableEq

abbrev M (H : Type) (α : Type) := EStateM Exn (BlockChain H) α

variable {H : Type} [DecidableEq H] [BlockSha3 H]

def nullBlockDetails : BlockDetails H := ⟨invalidNumber, invalid256, 0, []⟩

/-- What a batch for `m_extrasDB` writes. -/
inductive ExtrasWrite (H : Type)
  | details (h : H) (d : BlockDetails H)
  | transactionAddress (h : H) (ta : TransactionAddress H)
  | blockHash (number : Nat) (h : H)

namespace BlockChain

def genesisHash (s : BlockChain H) : H := hash s.genesis

def commit (s : BlockChain H) : ExtrasWrite H → BlockChain H
  | .details h d => { s with extraDetails := s.extraDetails.put h d }
  | .transactionAddress h ta => { s with extraTransactionAddress := s.extraTransactionAddress.put h ta }
  | .blockHash number h => { s with extraBlockHash := s.extraBlockHash.put number h }

/-! ### Queries -/

def details (h : H) : M H (BlockDetails H) := do
  let s ← get
  set { s with extraDetails := s.extraDetails.query h }
  return (s.extraDetails.get h).getD nullBlockDetails

/-- `number(h256 const&)` -/
def numberOf (h : H) : M H Nat := return (← details h).number

def numberHash (i : Nat) : M H H := do
  let s ← get
  if i = 0 then
    return s.genesisHash
  set { s with extraBlockHash := s.extraBlockHash.query i }
  return (s.extraBlockHash.get i).getD 0

def transactionLocation (h : H) : M H (H × Nat) := do
  let s ← get
  set { s with extraTransactionAddress := s.extraTransactionAddress.query h }
  let ta := (s.extraTransactionAddress.get h).getD ⟨0, 0⟩
  if ta.blockHash = 0 then
    return (0, 0)
  return (ta.blockHash, ta.index)

def isKnown (h : H) (isCurrent : Bool := true) : M H Bool := do
  let s ← get
  if h = s.genesisHash then
    return true
  if s.blocks h = none then
    return false
  if (s.extraDetails.get h).isNone then
    return false
  if !isCurrent then
    return true
  return (← details h).number ≤ s.lastBlockNumber

/-- `BlockHeader(block(h))` -/
def block (h : H) : M H (VerifiedBlockRef H) := do
  let s ← get
  if h = s.genesisHash then
    return s.genesis
  match s.blocks h with
  | some block => return block
  | none => throw .invalidHeader

/-! ### Routes -/

/-- The loops that climb to the lower one of the two heights: what is passed, and where they end. -/
def climb : Nat → H → M H (List H × H)
  | 0, h => return ([], h)
  | k + 1, h => do
    let (passed, top) ← climb k (← details h).parent
    return (h :: passed, top)

/-- The loop that climbs from both sides until they meet. At the genesis block they do, at the latest. -/
def meet : Nat → H → H → M H (List H × List H × H)
  | 0, x, _ => return ([x], [], x)
  | k + 1, x, y => do
    if x = y then
      return ([x], [], x)
    let xParent := (← details x).parent
    let yParent := (← details y).parent
    let (ret, back, common) ← meet k xParent yParent
    return (x :: ret, y :: back, common)

/-- With `_common`, `_pre` and `_post`. -/
def treeRoute (x y : H) : M H (List H × H × Nat) := do
  if x = 0 ∨ y = 0 then
    return ([], 0, 0)
  let fromDetails ← details x
  let toDetails ← details y
  -- Needed to handle a special case when the parent of inserted block is not present in DB.
  if fromDetails.isNull ∨ toDetails.isNull then
    return ([], 0, 0)
  let fn := fromDetails.number
  let tn := toDetails.number
  let (pre, x) ← climb (fn - tn) x
  let (post, y) ← climb (tn - fn) y
  let (ret, back, common) ← meet (min fn tn) x y
  let ret := pre ++ ret
  let back := post ++ back
  let i := ret.length - (if ret ≠ [] ∧ back ≠ [] then 1 else 0)
  return (ret ++ back.reverse, common, i)

/-! ### Insertion -/

/-- The last number is taken to be less than the largest `unsigned`, so that the end of the range does not wrap. -/
def cleared (s : BlockChain H) (firstInvalid : Nat) : BlockChain H :=
  { s with
    extraBlockHash := s.extraBlockHash.evict fun i => firstInvalid ≤ i ∧ i < s.lastBlockNumber + 1
    extraTransactionAddress := s.extraTransactionAddress.evict fun _ => true }

def clearCachesDuringChainReversion (firstInvalid : Nat) : M H Unit := modify (·.cleared firstInvalid)

/-- What is written for a block that becomes a part of the chain. -/
def canonWrites (tbi : VerifiedBlockRef H) : List (ExtrasWrite H) :=
  (tbi.transactions.zipIdx.map fun (t, i) => .transactionAddress t ⟨hash tbi, i⟩) ++ [.blockHash tbi.number (hash tbi)]

/-- The new block is not in the database yet. -/
def newOrBlock (new : VerifiedBlockRef H) (h : H) : M H (VerifiedBlockRef H) :=
  if h = hash new then return new else block h

/-- The loop from the new head down. -/
def canonize (new : VerifiedBlockRef H) : List H → M H (List (ExtrasWrite H))
  | [] => return []
  | h :: hs => do
    let tbi ← newOrBlock new h
    return canonWrites tbi ++ (← canonize new hs)

/-- `m_details[h].children.push_back(child)`, and what is in `m_details[h]` then. -/
def pushChild (h child : H) : M H (BlockDetails H) := do
  let s ← get
  let d := (s.extraDetails.cache h).getD nullBlockDetails
  let d := { d with children := d.children ++ [child] }
  set { s with extraDetails := s.extraDetails.edit h d }
  return d

/-- The same, but for a child that is among the children already. -/
def pushNewChild (h child : H) (d : BlockDetails H) : M H (BlockDetails H) :=
  if child ∈ d.children then return d else pushChild h child

/-- The block is the best one. -/
def isBest (b : VerifiedBlockRef H) (totalDifficulty : U256) (last : H) : M H Bool := do
  let lastDetails ← details last
  if totalDifficulty > lastDetails.totalDifficulty then
    return true
  if (← get).tieBreakingGas ∧ totalDifficulty = lastDetails.totalDifficulty then
    return (← block last).gasUsed < b.gasUsed
  return false

/-- Most of the time these two will be equal - only when we're doing a chain revert will they not be -/
def clearIfReverted (last common : H) : M H Unit :=
  if common ≠ last then do
    clearCachesDuringChainReversion (((← numberOf common) + 1) % 2 ^ 32)
  else return

/-- The index, for the new head. -/
def reindex (b : VerifiedBlockRef H) (last : H) : M H (List (ExtrasWrite H)) := do
  let (route, common, _) ← treeRoute last b.parentHash
  let route := route ++ [hash b]
  clearIfReverted last common
  canonize b (route.reverse.takeWhile (· ≠ common))

def insertBlockAndExtras (b : VerifiedBlockRef H) (totalDifficulty : U256) : M H Unit := do
  let last := (← get).lastBlockHash
  -- ensure parent is cached for later addition.
  let _ ← details b.parentHash
  let parentDetails ← pushChild b.parentHash (hash b)
  let batch := [.details b.parentHash parentDetails,
    .details (hash b) ⟨b.number % 2 ^ 32, totalDifficulty, b.parentHash, []⟩]
  -- This might be the new best block...
  if ← isBest b totalDifficulty last then
    let writes ← reindex b last
    modify fun s => { s with blocks := Function.update s.blocks (hash b) (some b) }
    modify fun s => (batch ++ writes).foldl commit s
    modify fun s =>
      if s.lastBlockHash = hash b then s
      else { s with lastBlockHash := hash b, lastBlockNumber := b.number % 2 ^ 32 }
  else
    modify fun s => { s with blocks := Function.update s.blocks (hash b) (some b) }
    modify fun s => batch.foldl commit s

def checkBlockIsNew (b : VerifiedBlockRef H) (mustBeNew : Bool) : M H Unit :=
  if mustBeNew then do
    if ← isKnown (hash b) then
      throw .alreadyHaveBlock
  else return

/-- `BlockHeader::verify`, with the header of the parent. -/
def verifyBlock (b : VerifiedBlockRef H) : M H Unit := do
  let parent ← block b.parentHash
  if 2 ^ 32 - 1 < b.number then
    throw .invalidNumber
  if b.number ≠ parent.number + 1 then
    throw .invalidNumber

/-- `valid` if the block passes the checks that are left out. -/
def import_ (b : VerifiedBlockRef H) (mustBeNew valid : Bool) : M H Unit := do
  checkBlockIsNew b mustBeNew
  if !(← isKnown b.parentHash false) then
    throw .unknownParent
  let pd ← details b.parentHash
  if pd.isNull then
    throw .exit
  verifyBlock b
  if !valid then
    throw .invalidBlock
  insertBlockAndExtras b (pd.totalDifficulty + b.difficulty)
  modify fun s => { s with imported := hash b :: s.imported }

/-- `validReceipts` if the receipts are those of the header. -/
def insert (b : VerifiedBlockRef H) (mustBeNew validReceipts valid : Bool) : M H Unit := do
  checkBlockIsNew b mustBeNew
  if !(← isKnown b.parentHash false) then
    throw .unknownParent
  if !validReceipts then
    throw .invalidBlock
  let pd ← details b.parentHash
  if pd.isNull then
    throw .exit
  verifyBlock b
  if !valid then
    throw .invalidBlock
  let d ← details b.parentHash
  let parentDetails ← pushNewChild b.parentHash (hash b) d
  modify fun s => { s with blocks := Function.update s.blocks (hash b) (some b) }
  modify fun s => [ExtrasWrite.details b.parentHash parentDetails,
    .details (hash b) ⟨pd.number + 1, pd.totalDifficulty + b.difficulty, b.parentHash, []⟩].foldl commit s

def rewind (newHead : Nat) : M H Unit := do
  if (← get).lastBlockNumber ≤ newHead then
    return
  clearCachesDuringChainReversion (newHead + 1)
  let h ← numberHash newHead
  modify fun s => { s with lastBlockHash := h, lastBlockNumber := newHead, rewound := true }

end BlockChain

end Kmdx.Chain
