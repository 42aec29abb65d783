import Kmdx.Block

/-!
# Sealing (`libwing/Block.cpp`)

What a block asks of its chain is a structure (`BlockChainFace`), and so are the encodings and the trie that the roots in a
header are computed with (`Encodings`). `noteChain` is over: the account start nonce is set, and the seal engine.

`commitToSeal` keeps the state as it is in `m_precommit`, and applies the rewards to what it has (`wp_commitToSeal`).
-/

namespace Kmdx

open Wp

/-- What a block asks of a `BlockChain`. -/
structure BlockChainFace (H : Type) where
  genesisHash : H
  /-- `isKnown` -/
  known : H → Bool
  /-- `details(_).parent` -/
  parent : H → H
  /-- `details(_).children` -/
  children : H → List H
  info : H → BlockHeader H
  headerData : H → Bytes
  /-- `sha3(i.data())` for the items `i` of `RLP(block(_))[2]` -/
  uncles : H → List H
  /-- `sealEngine()->blockReward` -/
  blockReward : Nat → U256
  /-- `chainParams().EIP158ForkBlock` -/
  eip158ForkBlock : Nat

/-- How a block is encoded and digested. -/
structure Encodings (H : Type) where
  /-- `BlockHeader::hash` -/
  hash : BlockHeader H → H
  /-- `streamRLP` -/
  transaction : Transaction → Bytes
  /-- `streamRLP` -/
  receipt : TransactionReceipt H → Bytes
  /-- The root of the trie of items by their number: `hash256(BytesMap)` and `orderedTrieRoot` -/
  trieRoot : List Bytes → H
  /-- `TransactionReceipt::bloom` -/
  bloom : TransactionReceipt H → LogBloom

variable {H : Type} [Digest H]

namespace BlockChainFace

variable (chain : BlockChainFace H)

/-- The loop of `allKinFrom` -/
def kinLoop : Nat → H → Finset H → Finset H
  | 0, _, ret => ret
  | generations + 1, p, ret =>
    if p = chain.genesisHash then ret
    else kinLoop generations (chain.parent p) (insert (chain.parent p) ret ∪ (chain.uncles p).toFinset)

/-- The main blocks and uncles that are mentioned in the last generations. -/
def allKinFrom (parent : H) (generations : Nat) : Finset H := chain.kinLoop generations parent {parent}

/-- `for (auto const& u: us)`: what is excluded then, and the uncles that were pushed back. -/
def chooseAmong : List H → Finset H → List H → Finset H × List H
  | [], excluded, chosen => (excluded, chosen)
  | u :: us, excluded, chosen =>
    if u ∈ excluded then chooseAmong us excluded chosen
    else if chosen.length + 1 = 2 then (excluded, chosen ++ [u])
    else chooseAmong us (insert u excluded) (chosen ++ [u])

/-- The great-uncles, of up to `generations` generations: children of grandparents. -/
def chooseUncles : (generations : Nat) → H → Finset H → List H → Except Exn (List H)
  | 0, _, _, chosen => return chosen
  | generations + 1, p, excluded, chosen =>
    if p = chain.genesisHash ∨ 2 ≤ chosen.length then return chosen
    -- must be at least 1 child of our grandparent
    else if chain.children p = [] then throw .assertion
    else
      let r := chooseAmong (chain.children p) excluded chosen
      chooseUncles generations (chain.parent p) r.1 r.2

end BlockChainFace

namespace State

/-- What the authors of the uncles get. -/
def rewardUncles (number : Nat) (blockReward : U256) : List (BlockHeader H) → U256 → StateM H U256
  | [], r => return r
  | i :: uncles, r => do
    addBalance i.author (blockReward * BitVec.ofInt 256 (8 + (i.number : Int) - number) / 8)
    rewardUncles number blockReward uncles (r + blockReward / 32)

/-- `applyRewards`, for a block with this header -/
def applyRewards (header : BlockHeader H) (uncles : List (BlockHeader H)) (blockReward : U256) : StateM H Unit := do
  let r ← rewardUncles header.number blockReward uncles blockReward
  addBalance header.author r

/-- The rewards, and the commit that follows them. -/
def finish (chain : BlockChainFace H) (header : BlockHeader H) (uncles : List (BlockHeader H)) : StateM H Unit := do
  applyRewards header uncles (chain.blockReward header.number)
  commit (if chain.eip158ForkBlock ≤ header.number then .removeEmptyAccounts else .keepEmptyAccounts)

end State

namespace Block

variable (chain : BlockChainFace H) (enc : Encodings H)

/-- The uncles of the next block: the children of its grandparents that nothing has mentioned. -/
def greatUncles (b : Block H) : Except Exn (List H) :=
  if b.previousBlock.number = 0 then return []
  else chain.chooseUncles 6 b.previousBlock.parentHash (chain.allKinFrom b.currentBlock.parentHash 6) []

/-- `m_receipts[i].bloom()` of all -/
def logBloom (b : Block H) : LogBloom := b.receipts.foldl (fun bloom r => bloom ||| enc.bloom r) 0

/-- The header that is to be sealed. -/
def sealedHeader (extraData : Bytes) (b : Block H) : BlockHeader H :=
  { b.currentBlock with
    logBloom := b.logBloom enc
    gasUsed := b.gasUsed
    transactionsRoot := enc.trieRoot (b.transactions.map enc.transaction)
    receiptsRoot := enc.trieRoot (b.receipts.map enc.receipt)
    sha3Uncles := sha3 (Rlp.list b.currentUncles)
    stateRoot := b.state.root
    parentHash := enc.hash b.previousBlock
    extraData := extraData.take 32 }

/-- What `commitToSeal` does once the state is kept in `m_precommit`. -/
def commitKept (extraData : Bytes) : BlockM H Unit := do
  let b ← get
  match b.greatUncles chain with
  | .error e => throw e
  | .ok uncles => do
    modify fun b => { b with currentUncles := uncles.map chain.headerData }
    -- Apply rewards last of all.
    onState (State.finish chain b.currentBlock (uncles.map chain.info))
    modify fun b => { b with currentBlock := b.sealedHeader enc extraData, committedToSeal := true }

def commitToSeal (extraData : Bytes) : BlockM H Unit := do
  if (← get).isSealed then throw .invalidOperationOnSealedBlock
  if (← get).committedToSeal then uncommitToSeal
  else modify fun b => { b with precommit := b.state.copy }
  commitKept chain enc extraData

/-- `Block(Block const& _s)` -/
def copy (b : Block H) : Block H :=
  { b with state := b.state.copy, precommit := b.state.copy, currentUncles := [], committedToSeal := false }

/-- `operator=`, in which `State::operator=` leaves the change log -/
def assign (target b : Block H) : Block H :=
  { b with
    state := { b.state with changeLog := target.state.changeLog }
    precommit := b.state.copy
    currentUncles := target.currentUncles
    committedToSeal := false }

end Block

end Kmdx
