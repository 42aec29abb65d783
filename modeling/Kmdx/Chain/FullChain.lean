import Kmdx.Chain.Insertion
import Kmdx.SealEngine

/-!
# Blooms, receipts and garbage (`libwing/BlockChain.cpp`)

A `FullChain` is a `BlockChain` with what it leaves out: the receipts and log blooms of the blocks, the blooms of the index,
and which of what is cached has been noted as used, for `garbageCollect`. What a call notes is what it has loaded. `m_blocks`
stays out: what it caches never changes. The index has two levels (`c_bloomIndexLevels`).
-/

namespace Kmdx.Chain

open Wp

/-- `c_bloomIndexSize` -/
abbrev bloomIndexSize : Nat := 16

/-- `BlocksBlooms::blooms` -/
abbrev BlocksBlooms := Fin bloomIndexSize → LogBloom

/-- What is in the rest of a block, or follows from it. -/
class BlockLogs (H : Type) where
  /-- Of the header -/
  logBloom : VerifiedBlockRef H → LogBloom
  /-- What `shiftBloom<3>(sha3(author))` sets -/
  authorBloom : VerifiedBlockRef H → LogBloom
  /-- The receipts, each with its bloom -/
  receipts : VerifiedBlockRef H → List (Bytes × LogBloom)

/-- `CacheID` -/
inductive CacheID (H : Type)
  | details (h : H)
  | receipts (h : H)
  | logBlooms (h : H)
  | transactionAddress (h : H)
  | blocksBlooms (id : Nat)

/-- `c_collectionQueueSize` -/
def collectionQueueSize : Nat := 20

structure FullChain (H : Type) where
  chain : BlockChain H
  extraReceipts : Cached H (List Bytes) := {}
  extraLogBlooms : Cached H (List LogBloom) := {}
  extraBlocksBlooms : Cached Nat BlocksBlooms := {}
  /-- `m_cacheUsage` -/
  cacheUsage : List (CacheID H → Bool) := List.replicate collectionQueueSize fun _ => false

abbrev FM (H : Type) (α : Type) := EStateM Exn (FullChain H) α

/-! ### The index of blooms -/

def chunkId (level index : Nat) : Nat := (index * 0xff + level) % 2 ^ 32

/-- `blocksBlooms(id)` -/
def bloomsAt (c : Cached Nat BlocksBlooms) (id : Nat) : BlocksBlooms := (c.get id).getD fun _ => 0

/-- The place of a bloom in its chunk -/
def bloomOffset (item : Nat) : Fin bloomIndexSize := ⟨item % bloomIndexSize, Nat.mod_lt _ (Nat.succ_pos _)⟩

/-- `m_blocksBlooms[id].blooms[offset]` is changed. It is memoized before. -/
def editBloom (level item : Nat) (f : LogBloom → LogBloom) (c : Cached Nat BlocksBlooms) : Cached Nat BlocksBlooms :=
  let id := chunkId level (item / bloomIndexSize)
  (c.query id).edit id (Function.update (bloomsAt c id) (bloomOffset item) (f (bloomsAt c id (bloomOffset item))))

/-- `for (unsigned item = beginDirty; item != endDirty; ++item)` -/
def dirtyItems (beginDirty endDirty : Nat) : List Nat :=
  (List.range ((endDirty + 2 ^ 32 - beginDirty) % 2 ^ 32)).map fun i => (beginDirty + i) % 2 ^ 32

/-- All blooms of a chunk in one -/
def collected (blooms : BlocksBlooms) : LogBloom := (List.ofFn blooms).foldl (· ||| ·) 0

/-- A bloom of the lowest level is cleared. -/
def clearItem (c : Cached Nat BlocksBlooms) (item : Nat) : Cached Nat BlocksBlooms := editBloom 0 item (fun _ => 0) c

/-- A bloom is rebuilt from the lower level. -/
def rebuildItem (c : Cached Nat BlocksBlooms) (item : Nat) : Cached Nat BlocksBlooms :=
  editBloom 1 item (fun _ => collected (bloomsAt c (chunkId 0 item))) (c.query (chunkId 0 item))

def clearBlockBlooms (c : Cached Nat BlocksBlooms) (beginDirty endDirty : Nat) : Cached Nat BlocksBlooms :=
  let c := (dirtyItems beginDirty endDirty).foldl clearItem c
  (dirtyItems (beginDirty / bloomIndexSize) (((endDirty + 2 ^ 32 - 1) % 2 ^ 32) / bloomIndexSize + 1)).foldl rebuildItem c

/-- The bloom of a block goes into both levels. -/
def addBloom (c : Cached Nat BlocksBlooms) (number : Nat) (blockBloom : LogBloom) : Cached Nat BlocksBlooms :=
  let c := (c.query (chunkId 0 (number / bloomIndexSize))).query (chunkId 1 (number / bloomIndexSize / bloomIndexSize))
  editBloom 1 (number / bloomIndexSize) (· ||| blockBloom) (editBloom 0 number (· ||| blockBloom) c)

/-- `alteredBlooms`, with what is written for them -/
def alteredBlooms (c : Cached Nat BlocksBlooms) (number : Nat) : List (Nat × BlocksBlooms) :=
  [chunkId 0 (number / bloomIndexSize), chunkId 1 (number / bloomIndexSize / bloomIndexSize)].map fun id =>
    (id, bloomsAt c id)

variable {H : Type} [DecidableEq H] [BlockSha3 H] [BlockLogs H]

/-- `blockBloom` -/
def blockBloom (tbi : VerifiedBlockRef H) : LogBloom := BlockLogs.logBloom tbi ||| BlockLogs.authorBloom tbi

namespace FullChain

/-- A call that has nothing to do with what is left out -/
def lift {α : Type} (x : M H α) : FM H α := fun s =>
  match x s.chain with
  | .ok a chain => .ok a { s with chain }
  | .error e chain => .error e { s with chain }

/-! ### Insertion -/

def clearCachesDuringChainReversion (firstInvalid : Nat) : FM H Unit := do
  lift (BlockChain.clearCachesDuringChainReversion firstInvalid)
  modify fun s => { s with
    extraBlocksBlooms := clearBlockBlooms s.extraBlocksBlooms firstInvalid ((s.chain.lastBlockNumber + 1) % 2 ^ 32) }

def clearIfReverted (last common : H) : FM H Unit :=
  if common ≠ last then do
    clearCachesDuringChainReversion (((← lift (BlockChain.numberOf common)) + 1) % 2 ^ 32)
  else return

/-- The loop from the new head down: what is written to `m_extrasDB`, and the chunks of the index that are. -/
def canonize (new : VerifiedBlockRef H) : List H → FM H (List (ExtrasWrite H) × List (Nat × BlocksBlooms))
  | [] => return ([], [])
  | h :: hs => do
    let tbi ← lift (BlockChain.newOrBlock new h)
    modify fun s => { s with extraBlocksBlooms := addBloom s.extraBlocksBlooms tbi.number (blockBloom tbi) }
    let altered := alteredBlooms (← get).extraBlocksBlooms tbi.number
    let writes ← canonize new hs
    return (BlockChain.canonWrites tbi ++ writes.1, altered ++ writes.2)

/-- The index, for the new head. -/
def reindex (b : VerifiedBlockRef H) (last : H) : FM H (List (ExtrasWrite H) × List (Nat × BlocksBlooms)) := do
  let (route, common, _) ← lift (BlockChain.treeRoute last b.parentHash)
  let route := route ++ [hash b]
  clearIfReverted last common
  canonize b (route.reverse.takeWhile (· ≠ common))

/-- What is stored with a block -/
def storeLogs (b : VerifiedBlockRef H) (s : FullChain H) : FullChain H :=
  { s with
    extraReceipts := s.extraReceipts.put (hash b) ((BlockLogs.receipts b).map Prod.fst)
    extraLogBlooms := s.extraLogBlooms.put (hash b) ((BlockLogs.receipts b).map Prod.snd) }

/-- The chunks are written to the database. -/
def storeBlooms (altered : List (Nat × BlocksBlooms)) (s : FullChain H) : FullChain H :=
  { s with extraBlocksBlooms := altered.foldl (fun c w => c.put w.1 w.2) s.extraBlocksBlooms }

def insertBlockAndExtras (b : VerifiedBlockRef H) (totalDifficulty : U256) : FM H Unit := do
  let last := (← get).chain.lastBlockHash
  -- ensure parent is cached for later addition.
  let _ ← lift (BlockChain.details b.parentHash)
  let parentDetails ← lift (BlockChain.pushChild b.parentHash (hash b))
  let batch := [.details b.parentHash parentDetails,
    .details (hash b) ⟨b.number % 2 ^ 32, totalDifficulty, b.parentHash, []⟩]
  -- This might be the new best block...
  if ← lift (BlockChain.isBest b totalDifficulty last) then
    let writes ← reindex b last
    lift (modify fun s => { s with blocks := Function.update s.blocks (hash b) (some b) })
    lift (modify fun s => (batch ++ writes.1).foldl BlockChain.commit s)
    modify fun s => storeBlooms writes.2 (storeLogs b s)
    lift (modify fun s =>
      if s.lastBlockHash = hash b then s
      else { s with lastBlockHash := hash b, lastBlockNumber := b.number % 2 ^ 32 })
  else
    lift (modify fun s => { s with blocks := Function.update s.blocks (hash b) (some b) })
    lift (modify fun s => batch.foldl BlockChain.commit s)
    modify (storeLogs b)

/-- `valid` if the block passes the checks that are left out. -/
def import_ (b : VerifiedBlockRef H) (mustBeNew valid : Bool) : FM H Unit := do
  lift (BlockChain.checkBlockIsNew b mustBeNew)
  if !(← lift (BlockChain.isKnown b.parentHash false)) then
    throw .unknownParent
  let pd ← lift (BlockChain.details b.parentHash)
  if pd.isNull then
    throw .exit
  lift (BlockChain.verifyBlock b)
  if !valid then
    throw .invalidBlock
  insertBlockAndExtras b (pd.totalDifficulty + b.difficulty)
  lift (modify fun s => { s with imported := hash b :: s.imported })

/-- `validReceipts` if the receipts are those of the header. -/
def insert (b : VerifiedBlockRef H) (mustBeNew validReceipts valid : Bool) : FM H Unit := do
  lift (BlockChain.insert b mustBeNew validReceipts valid)
  modify (storeLogs b)

def rewind (newHead : Nat) : FM H Unit := do
  if (← get).chain.lastBlockNumber ≤ newHead then
    return
  clearCachesDuringChainReversion (newHead + 1)
  let h ← lift (BlockChain.numberHash newHead)
  lift (modify fun s => { s with lastBlockHash := h, lastBlockNumber := newHead, rewound := true })

/-! ### Queries -/

def receipts (h : H) : FM H (List Bytes) := do
  let s ← get
  set { s with extraReceipts := s.extraReceipts.query h }
  return (s.extraReceipts.get h).getD []

def logBlooms (h : H) : FM H (List LogBloom) := do
  let s ← get
  set { s with extraLogBlooms := s.extraLogBlooms.query h }
  return (s.extraLogBlooms.get h).getD []

def blocksBlooms (id : Nat) : FM H BlocksBlooms := do
  let s ← get
  set { s with extraBlocksBlooms := s.extraBlocksBlooms.query id }
  return bloomsAt s.extraBlocksBlooms id

/-! ### Reopening -/

/-- `close`, and `init`: what is in the databases stays. -/
def closed (s : FullChain H) : FullChain H :=
  { s with
    chain := { s.chain with
      extraDetails := s.chain.extraDetails.evict fun _ => true
      extraTransactionAddress := s.chain.extraTransactionAddress.evict fun _ => true
      extraBlockHash := s.chain.extraBlockHash.evict fun _ => true }
    extraReceipts := s.extraReceipts.evict fun _ => true
    extraLogBlooms := s.extraLogBlooms.evict fun _ => true
    extraBlocksBlooms := s.extraBlocksBlooms.evict fun _ => true
    cacheUsage := List.replicate collectionQueueSize fun _ => false }

/-- `open`, if the database is there. The last hash is what it holds under `best`. -/
def opened : FM H Unit := do
  let s ← get
  if (← lift (BlockChain.details s.chain.genesisHash)).isNull then
    -- Insert details of genesis block.
    lift (modify fun s => { s with
      extraDetails := (s.extraDetails.edit s.genesisHash ⟨0, s.genesis.difficulty, 0, []⟩).put s.genesisHash
        ⟨0, s.genesis.difficulty, 0, []⟩ })
  let number ← lift (BlockChain.numberOf s.chain.lastBlockHash)
  lift (modify fun s => { s with lastBlockNumber := number })

/-! ### Garbage -/

/-- `k` was in the database, and has been loaded. -/
def isLoaded {K V : Type} (c c' : Cached K V) (k : K) : Bool := (c.cache k).isNone && (c.db k).isSome && (c'.cache k).isSome

/-- What was loaded from `s` to `t`. -/
def loaded (s t : FullChain H) : CacheID H → Bool
  | .details h => isLoaded s.chain.extraDetails t.chain.extraDetails h
  | .receipts h => isLoaded s.extraReceipts t.extraReceipts h
  | .logBlooms h => isLoaded s.extraLogBlooms t.extraLogBlooms h
  | .transactionAddress h => isLoaded s.chain.extraTransactionAddress t.chain.extraTransactionAddress h
  | .blocksBlooms id => isLoaded s.extraBlocksBlooms t.extraBlocksBlooms id

/-- `noteUsed`, for all of `ids` -/
def noteUsed (ids : CacheID H → Bool) : List (CacheID H → Bool) → List (CacheID H → Bool)
  | newest :: next :: rest => (fun id => newest id || ids id) :: (fun id => next id && !ids id) :: rest
  | usage => usage

/-- A call, and the notes that are taken in it. -/
def noting {α : Type} (x : FM H α) : FM H α := fun s =>
  match x s with
  | .ok a t => .ok a { t with cacheUsage := noteUsed (s.loaded t) t.cacheUsage }
  | .error e t => .error e { t with cacheUsage := noteUsed (s.loaded t) t.cacheUsage }

/-- What is noted in `ids` is not cached any more. -/
def killed (s : FullChain H) (ids : CacheID H → Bool) : FullChain H :=
  { s with
    chain := { s.chain with
      extraDetails := s.chain.extraDetails.evict fun h => ids (.details h)
      extraTransactionAddress := s.chain.extraTransactionAddress.evict fun h => ids (.transactionAddress h) }
    extraReceipts := s.extraReceipts.evict fun h => ids (.receipts h)
    extraLogBlooms := s.extraLogBlooms.evict fun h => ids (.logBlooms h)
    extraBlocksBlooms := s.extraBlocksBlooms.evict fun id => ids (.blocksBlooms id) }

/-- `garbageCollect(true)`. `enough` if the caches hold `c_minCacheSize` bytes. -/
def garbageCollect (enough : Bool) : FM H Unit := modify fun s =>
  if enough then
    { s.killed (s.cacheUsage.getLastD fun _ => false) with cacheUsage := (fun _ => false) :: s.cacheUsage.dropLast }
  else s

end FullChain

end Kmdx.Chain
