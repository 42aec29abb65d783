import Kmdx.Lib.SortedMap
import Kmdx.Rlp.HeaderMemos

/-!
# Importing a snapshot (`libwing/SnapshotImporter.cpp`, `StateImporter.cpp`, `BlockChainImporter.cpp`)

The chunks and what they are read as, and the loops that import them. A trie is its content, by the hashes of the keys: its
root is a function of it, and it can be opened again by its root. The database finds its nodes, and codes, by their hashes;
what is committed is found as before.
-/

namespace Kmdx.Snapshot

open Rlp Wp

abbrev H256 := FixedHash 32

scoped instance : LinearOrder H256 where
  le_refl := BitVec.le_refl
  le_trans _ _ _ := BitVec.le_trans
  le_antisymm _ _ := BitVec.le_antisymm
  le_total := BitVec.le_total
  lt_iff_le_not_ge a b := by rw [BitVec.not_le, BitVec.le_def, BitVec.lt_def]; omega
  toDecidableLE := inferInstance
  toDecidableEq := inferInstance

inductive Exn
  | rlp (e : Rlp.Exn)
  | unsupportedSnapshotManifestVersion
  | invalidSnapshotManifest
  | invalidStateChunkData
  | accountAlreadyImported
  | stateTrieReconstructionFailed
  | invalidBlockChunkData
  | rootNotFound
  /-- What `readManifest` and `readChunk` throw. -/
  | storage
  /-- What `insertWithoutParent` throws. -/
  | notInserted

abbrev StorageTrie := H256 → Option Bytes

abbrev AccountsTrie := H256 → Option (AccountRlp H256)

/-- What `importBlock` is given -/
structure ImportedBlock where
  header : Rlp.BlockHeader
  transactions : Bytes
  uncles : Bytes
  receipts : Bytes
  totalDifficulty : U256

/-- `SnapshotStorageFace` -/
structure SnapshotStorage where
  readManifest : Except Exn Bytes
  readChunk : H256 → Except Exn Bytes

/-- What the importer is made of. -/
structure Host where
  sha3 : Bytes → H256
  /-- `trieRootOver` of values, with the RLP of their indices for keys -/
  trieRootOver : List Bytes → H256
  orderedTrieRoot : List Bytes → H256
  storageRoot : StorageTrie → H256
  stateRoot : AccountsTrie → H256
  /-- The nodes of a trie, by their hashes -/
  storageNodes : StorageTrie → List (H256 × Bytes)
  stateNodes : AccountsTrie → List (H256 × Bytes)
  /-- `BlockChain::insertWithoutParent`, after the blocks that have been inserted -/
  insertWithoutParent : List ImportedBlock → (block receipts : Bytes) → (totalDifficulty : U256) → Except Exn Unit

/-- The database, the trie of the `StateImporter` and the chain. -/
structure Importer where
  /-- What has been in the database before. -/
  base : H256 → Bytes := fun _ => []
  /-- What has been inserted, the last first. -/
  db : List (H256 × Bytes) := []
  /-- The storage tries that can be opened. -/
  storageTries : List StorageTrie := [fun _ => none]
  /-- `m_trie` -/
  trie : AccountsTrie := fun _ => none
  /-- The blocks in the order in which they have been imported. -/
  blocks : List ImportedBlock := []
  chainStartBlockNumber : Option Nat := none

abbrev ImportM := EStateM Exn Importer

/-- A guard that throws. -/
def throwIf {m : Type → Type} [Monad m] [MonadExceptOf Exn m] (p : Prop) [Decidable p] (e : Exn) : m Unit :=
  if p then throw e else pure ()

variable (c : Host)

/-! ### StateImporter -/

def emptySHA3 : H256 := c.sha3 []

def emptyTrie : H256 := c.storageRoot fun _ => none

def lookupCode (s : Importer) (hash : H256) : Bytes := (s.db.lookup hash).getD (s.base hash)

def importCode (code : Bytes) : ImportM H256 := do
  let hash := c.sha3 code
  modify fun s => { s with db := (hash, code) :: s.db }
  return hash

def isAccountImported (s : Importer) (addressHash : H256) : Bool := (s.trie addressHash).isSome

def stateRoot (s : Importer) : H256 := c.stateRoot s.trie

/-- `SpecificTrieDB(m_trie.db(), storageRoot)` -/
def openStorage (storageRoot : H256) : ImportM StorageTrie := do
  match (← get).storageTries.find? fun t => c.storageRoot t = storageRoot with
  | some t => return t
  | none => throw .rootNotFound

/-- `storageDB.insert` -/
def insertStorage (t : StorageTrie) (key : H256) (value : Bytes) : ImportM StorageTrie := do
  let t := Function.update t key (some value)
  modify fun s => { s with storageTries := t :: s.storageTries, db := c.storageNodes t ++ s.db }
  return t

/-- The storage root of an account, after what is inserted. -/
def importStorage (storageRoot : H256) (storage : SortedMap H256 Bytes) : ImportM H256 :=
  if storage.entries = [] then return storageRoot
  else do
    let t ← openStorage c storageRoot
    return c.storageRoot (← storage.entries.foldlM (fun t hashAndValue => insertStorage c t hashAndValue.1 hashAndValue.2) t)

/-- The account that the trie has is the RLP list of four that was written here. -/
def importAccount (addressHash : H256) (nonce balance : U256) (storage : SortedMap H256 Bytes) (codeHash : H256) :
    ImportM Unit := do
  let storageRoot := ((← get).trie addressHash).elim (emptyTrie c) (·.storageRoot)
  let storageRoot ← importStorage c storageRoot storage
  let trie := Function.update (← get).trie addressHash (some { nonce, balance, storageRoot, codeHash })
  modify fun s => { s with trie, db := c.stateNodes trie ++ s.db }

/-! ### Reading -/

/-- `operator[]`, and the object with what it remembers -/
def index (r : RLP) (i : Nat) : Except Rlp.Exn (RLP × RLP) :=
  match item i r with
  | .ok x r => .ok (x, r)
  | .error e _ => .error e

/-- The items from `i` on, one after another. -/
def itemsFrom (i : Nat) : (left : Nat) → RLP → Except Rlp.Exn (List RLP)
  | 0, _ => .ok []
  | left + 1, r => do
    let (x, r) ← index r i
    return x :: (← itemsFrom (i + 1) left r)

def rlp {α : Type} (x : Except Rlp.Exn α) : Except Exn α := x.mapError .rlp

/-- `toHash<h256>(VeryStrict)` -/
def toH256 (d : Bytes) : Except Rlp.Exn H256 := toFixedHash 32 d

/-- `toVector<h256>(VeryStrict)` -/
def toH256s (d : Bytes) : Except Rlp.Exn (List H256) := do
  if isList d then do
    let _ ← itemCount d
    (← elements d).mapM fun i => toH256 i.data
  else throw .badCast

/-- The body of a range-for loop over an RLP, as far as the iterator gets. -/
def iterate {σ : Type} (d : Bytes) (f : σ → RLP → Except Exn σ) : (fuel : Nat) → Iterator → σ → Except Exn σ
  | 0, _, _ => throw (.rlp .diverges)
  | fuel + 1, it, s => do
    if it.same (Iterator.end_ d) then return s
    let s ← f s (← rlp (it.deref d))
    iterate d f fuel (← rlp (it.next d)) s

def forEach {σ : Type} (d : Bytes) (f : σ → RLP → Except Exn σ) (s : σ) : Except Exn σ := do
  iterate d f (d.length + 1) (← rlp (Iterator.begin_ d)) s

/-! ### State chunks -/

/-- What the code flag and the item behind it say. -/
inductive CodeRecord
  | none
  | bytes (code : Bytes)
  | hash (h : H256)

/-- The account of a state chunk, without its address hash. -/
structure AccountFields where
  nonce : U256
  balance : U256
  storage : SortedMap H256 Bytes
  code : CodeRecord

def readStorage (d : Bytes) : Except Exn (SortedMap H256 Bytes) :=
  forEach d (fun storageMap hashAndValue => do
    throwIf ((← rlp (itemCount hashAndValue.data)) ≠ 2) .invalidStateChunkData
    let (key, hashAndValue) ← rlp (index hashAndValue 0)
    let keyHash ← rlp (toH256 key.data)
    throwIf (keyHash = 0 ∨ (storageMap.find? keyHash).isSome) .invalidStateChunkData
    let (value, _) ← rlp (index hashAndValue 1)
    let value ← rlp (toBytes value.data veryStrict)
    throwIf (value = []) .invalidStateChunkData
    return storageMap.emplace keyHash value) ∅

/-- The address hash, and the pair with what it remembers -/
def readAddressHash (addressAndAccount : RLP) : Except Exn (H256 × RLP) := do
  throwIf ((← rlp (itemCount addressAndAccount.data)) ≠ 2) .invalidStateChunkData
  let (x, addressAndAccount) ← rlp (index addressAndAccount 0)
  let addressHash ← rlp (toH256 x.data)
  throwIf (addressHash = 0) .invalidStateChunkData
  return (addressHash, addressAndAccount)

/-- What is read of an account before its code is looked for. -/
def readAccount (addressAndAccount : RLP) : Except Exn AccountFields := do
  let (account, _) ← rlp (index addressAndAccount 1)
  throwIf ((← rlp (itemCount account.data)) ≠ 5) .invalidStateChunkData
  let (x, account) ← rlp (index account 0)
  let nonce ← rlp (toU256 x.data)
  let (x, account) ← rlp (index account 1)
  let balance ← rlp (toU256 x.data)
  let (storage, account) ← rlp (index account 4)
  let storage ← readStorage storage.data
  let (x, account) ← rlp (index account 2)
  let codeFlag ← rlp (toInt x.data 1 veryStrict)
  match codeFlag with
  | 0 => return { nonce, balance, storage, code := .none }
  | 1 =>
    let (x, _) ← rlp (index account 3)
    return { nonce, balance, storage, code := .bytes (← rlp (toBytes x.data veryStrict)) }
  | 2 =>
    let (x, _) ← rlp (index account 3)
    return { nonce, balance, storage, code := .hash (← rlp (toH256 x.data)) }
  | _ => throw .invalidStateChunkData

instance : MonadLift (Except Exn) ImportM where
  monadLift
    | .ok a => pure a
    | .error e => throw e

def CodeRecord.import : CodeRecord → ImportM H256
  | none => return emptySHA3 c
  | bytes code => importCode c code
  | hash codeHash => do
    throwIf (codeHash = 0 ∨ lookupCode (← get) codeHash = []) .invalidStateChunkData
    return codeHash

/-- The body of the loop over the accounts of a chunk. -/
def importAccountAt (accountIndex : Nat) (addressAndAccount : RLP) : ImportM Unit := do
  let (addressHash, addressAndAccount) ← liftM (readAddressHash addressAndAccount)
  -- Parts of an account that is split can only be the first of a chunk.
  throwIf (0 < accountIndex ∧ isAccountImported (← get) addressHash) .accountAlreadyImported
  let account ← liftM (readAccount addressAndAccount)
  let codeHash ← account.code.import c
  importAccount c addressHash account.nonce account.balance account.storage codeHash

def importAccounts (accountIndex : Nat) : (left : Nat) → RLP → ImportM Unit
  | 0, _ => return
  | left + 1, accounts => do
    let (x, accounts) ← liftM (rlp (index accounts accountIndex))
    importAccountAt c accountIndex x
    importAccounts (accountIndex + 1) left accounts

def importStateChunk (chunk : Bytes) : ImportM Unit := do
  let accounts ← liftM (rlp (RLP.mk' chunk))
  let accountCount ← liftM (rlp (itemCount accounts.data))
  importAccounts c 0 accountCount accounts

def importStateChunks (storage : SnapshotStorage) (stateChunkHashes : List H256) (root : H256) : ImportM Unit := do
  stateChunkHashes.forM fun stateChunkHash => do
    let chunk ← liftM (storage.readChunk stateChunkHash)
    importStateChunk c chunk
  throwIf (stateRoot c (← get) ≠ root) .stateTrieReconstructionFailed

/-! ### Block chunks -/

/-- The header of an abridged block, of the fields in the order in which they are read, and what goes with it. -/
def abridgedBlock (parentHash : H256) (number : BitVec 64) (totalDifficulty : U256) (blockAndReceipts : RLP) :
    M ImportedBlock := do
  let header := ({} : Rlp.BlockHeader).setParentHash parentHash
  let header := header.setAuthor (← toFixedHash 20 (← item 0).data)
  let blockStateRoot ← toH256 (← item 1).data
  let transactions ← item 8
  let txRoot := c.trieRootOver ((← Snapshot.itemsFrom 0 ((← itemCount transactions.data) % 2 ^ 32) transactions).map (·.data))
  let uncles ← item 9
  let (receipts, _) ← index blockAndReceipts 1
  let receiptsRoot := c.orderedTrieRoot ((← elements receipts.data).map (·.data))
  let unclesHash := c.sha3 uncles.data
  let header := header.setRoots txRoot receiptsRoot unclesHash blockStateRoot
  let header := header.setLogBloom (← toFixedHash 256 (← item 2).data)
  let difficulty ← toU256 (← item 3).data
  let header := (header.setDifficulty difficulty).setNumber number
  let header := header.setGasLimit (← toU256 (← item 4).data)
  let header := header.setGasUsed (← toU256 (← item 5).data)
  let header := header.setTimestamp (← toPositiveInt64 (← item 6).data)
  let header := header.setExtraData (← toBytes (← item 7).data veryStrict)
  -- `Ethash::setMixHash`, `Ethash::setNonce`
  let header := header.setSeal 0 (bytes (hashBytes 32 (← toH256 (← item 10).data)))
  let header := header.setSeal 1 (bytes (hashBytes 8 (← toFixedHash 8 (← item 11).data)))
  return {
    header
    transactions := transactions.data
    uncles := uncles.data
    receipts := receipts.data
    totalDifficulty := totalDifficulty + difficulty }

def readBlock (parentHash : H256) (number : BitVec 64) (totalDifficulty : U256) (blockAndReceipts : RLP) :
    Except Exn ImportedBlock := do
  throwIf ((← rlp (itemCount blockAndReceipts.data)) ≠ 2) .invalidBlockChunkData
  let (abridged, blockAndReceipts) ← rlp (index blockAndReceipts 0)
  rlp (eval (abridgedBlock c parentHash number totalDifficulty blockAndReceipts) abridged)

def headerHash (header : Rlp.BlockHeader) : Except Exn H256 := rlp (return (← header.hash c.sha3 .withSeal).1)

/-- `BlockChainImporter::importBlock` -/
def importBlock (b : ImportedBlock) : ImportM Unit := do
  let headerRlp ← liftM (rlp (b.header.out .withSeal))
  let block ← liftM (rlp do
    (← run [.appendList 3, .appendRaw headerRlp 1, .appendRaw b.transactions 1, .appendRaw b.uncles 1] {}).output)
  liftM (c.insertWithoutParent (← get).blocks block b.receipts b.totalDifficulty)
  modify fun s => { s with blocks := s.blocks ++ [b] }

/-- The loop over the blocks of a chunk, which are its items from `i` on. -/
def importBlocks (i : Nat) : (left : Nat) → RLP → H256 → BitVec 64 → U256 → ImportM Unit
  | 0, _, _, _, _ => return
  | left + 1, blockChunk, parentHash, number, totalDifficulty => do
    let (blockAndReceipts, blockChunk) ← liftM (rlp (index blockChunk i))
    let block ← liftM (readBlock c parentHash number totalDifficulty blockAndReceipts)
    importBlock c block
    let parentHash ← liftM (headerHash c block.header)
    importBlocks (i + 1) left blockChunk parentHash (number + 1) block.totalDifficulty

/-- The block in front of those of a chunk -/
structure FirstBlock where
  number : BitVec 64
  hash : H256
  difficulty : U256

/-- The first block of a chunk, the number of items and the chunk with what it remembers. -/
def readFirstBlock (chunk : Bytes) : Except Exn (FirstBlock × Nat × RLP) := do
  let blockChunk ← rlp (RLP.mk' chunk)
  let count ← rlp (itemCount blockChunk.data)
  throwIf (count < 3) .invalidBlockChunkData
  let (x, blockChunk) ← rlp (index blockChunk 0)
  let number ← rlp (toPositiveInt64 x.data)
  let (x, blockChunk) ← rlp (index blockChunk 1)
  let hash ← rlp (toH256 x.data)
  let (x, blockChunk) ← rlp (index blockChunk 2)
  let difficulty ← rlp (toU256 x.data)
  throwIf (number = 0 ∨ hash = 0 ∨ difficulty = 0) .invalidBlockChunkData
  return ({ number, hash, difficulty }, count, blockChunk)

/-- The body of the loop over the block chunks. -/
def importBlockChunk (chunk : Bytes) (first : Bool) : ImportM Unit := do
  let (firstBlock, itemCount, blockChunk) ← liftM (readFirstBlock chunk)
  importBlocks c 3 (itemCount - 3) blockChunk firstBlock.hash (firstBlock.number + 1) firstBlock.difficulty
  if first then
    modify fun s => { s with chainStartBlockNumber := some ((firstBlock.number + 1).toNat % 2 ^ 32) }

/-- The chunks are in decreasing order of their first blocks. -/
def importBlockChunks (storage : SnapshotStorage) (blockChunkHashes : List H256) : ImportM Unit :=
  blockChunkHashes.reverse.zipIdx.forM fun chunkAndIndex => do
    let chunk ← liftM (storage.readChunk chunkAndIndex.1)
    importBlockChunk c chunk (chunkAndIndex.2 = 0)

/-! ### The snapshot -/

def import_ (storage : SnapshotStorage) : ImportM Unit := do
  let manifest ← liftM storage.readManifest
  let manifest ← liftM (rlp (RLP.mk' manifest))
  let (x, manifest) ← liftM (rlp (index manifest 0))
  throwIf ((← liftM (rlp (toU256 x.data))) ≠ 2) .unsupportedSnapshotManifestVersion
  throwIf ((← liftM (rlp (itemCount manifest.data))) ≠ 6) .invalidSnapshotManifest
  let (x, manifest) ← liftM (rlp (index manifest 4))
  let _blockNumber ← liftM (rlp (toU256 x.data))
  let (x, manifest) ← liftM (rlp (index manifest 5))
  let _blockHash ← liftM (rlp (toH256 x.data))
  let (x, manifest) ← liftM (rlp (index manifest 1))
  let stateChunkHashes ← liftM (rlp (toH256s x.data))
  let (x, manifest) ← liftM (rlp (index manifest 3))
  let stateRoot ← liftM (rlp (toH256 x.data))
  importStateChunks c storage stateChunkHashes stateRoot
  let (x, _) ← liftM (rlp (index manifest 2))
  let blockChunkHashes ← liftM (rlp (toH256s x.data))
  importBlockChunks c storage blockChunkHashes

end Kmdx.Snapshot
