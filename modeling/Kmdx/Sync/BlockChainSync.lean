import Kmdx.BlockQueue
import Kmdx.Sync.Chunks

/-!
# Synchronising with the chain of the peers (`libwing/BlockChainSync`)

A peer is a number. What the block queue, the chain and the network answer is the state of the host, which others may
change between two handlers. `status` is left out, with the members that only it reads, and ratings are not looked at.
-/

namespace Kmdx.Sync

open Chunks

/-- `QueueStatus` -/
inductive QueueStatus
  | ready
  | importing
  | unknownParent
  | bad
  | unknown
deriving DecidableEq

/-- `SyncState` -/
inductive SyncState
  | notSynced
  | idle
  | waiting
  | blocks
  | state
deriving DecidableEq

/-- `Asking` -/
inductive Asking
  | state
  | blockHeaders
  | blockBodies
  | nodeData
  | receipts
  | warpManifest
  | warpData
  | nothing
deriving DecidableEq

/-- What a header says. -/
structure Header (H : Type) where
  number : Nat
  hash : H
  parentHash : H
  transactionsRoot : H
  sha3Uncles : H
  extraData : List UInt8
deriving DecidableEq

/-- `HeaderId` -/
structure HeaderId (H : Type) where
  transactionsRoot : H
  uncles : H
deriving DecidableEq

def Header.id {H : Type} (h : Header H) : HeaderId H := ⟨h.transactionsRoot, h.sha3Uncles⟩

/-- What is read of a peer. -/
structure Peer (H : Type) where
  asking : Asking
  totalDifficulty : Nat
  latestHash : H
  unknownNewBlocks : Nat
  /-- The `clientVersion` of its session; none without a session. -/
  session : Option String
  genesisHash : H
  protocolVersion : Nat
  networkId : Nat

/-- What a peer is asked for, with nothing skipped, and not in reverse. -/
inductive Request (H : Type)
  | requestBlockHeaders (startNumber count : Nat)
  | requestBlockHeadersFrom (startHash : H) (count : Nat)
  | requestBlockBodies (blocks : List H)
deriving DecidableEq

def Request.asking {H : Type} : Request H → Asking
  | .requestBlockHeaders _ _ => .blockHeaders
  | .requestBlockHeadersFrom _ _ => .blockHeaders
  | .requestBlockBodies _ => .blockBodies

/-- The block queue, the chain and the network: what they answer in a state of theirs, and how that changes. -/
structure Host (W H B : Type) where
  blockStatus : W → H → QueueStatus
  importBlock : W → Header H → B → ImportResult × W
  clear : W → W
  knownFull : W → Bool
  unknownFull : W → Bool
  isActive : W → Bool
  difficulty : W → Nat
  isKnown : W → H → Bool
  number : W → Nat
  numberHash : W → Nat → H
  currentHash : W → H
  totalDifficulty : W → Nat
  genesisHash : W → H
  isBanned : W → Nat → Bool
  protocolVersion : Nat
  networkId : Nat
  chainStartBlock : Nat
  daoHardforkBlock : Nat
  /-- The roots that a body has. -/
  bodyId : B → HeaderId H
  /-- Two empty lists, whose roots are `EmptyTrie` and `EmptyListSHA3`. -/
  emptyBody : B

/-- What is being downloaded, and which peers have been asked for it. -/
structure Downloads where
  numbers : Finset Nat := ∅
  peers : AList fun _ : Nat => List Nat := ∅

/-- The end of a download: a number is not being downloaded any more. -/
def Downloads.erase (d : Downloads) (n : Nat) : Downloads := { d with numbers := d.numbers.erase n }

/-- A peer is not asked any more. -/
def Downloads.release (d : Downloads) (peer : Nat) : Downloads :=
  match d.peers.lookup peer with
  | none => d
  | some blocks => { numbers := d.numbers \ blocks.toFinset, peers := d.peers.erase peer }

/-- A peer is asked. -/
def Downloads.assign (d : Downloads) (peer : Nat) (blocks : List Nat) : Downloads :=
  { numbers := d.numbers ∪ blocks.toFinset, peers := d.peers.insert peer blocks }

/-- What a handler can end with other than a return. -/
inductive Exn
  /-- An exception of `RLP` or `BlockHeader`, or `std::out_of_range`. -/
  | thrown
  /-- `assert` -/
  | assertion
  /-- An element is read that is not there. -/
  | undefined
  /-- A loop does not end. -/
  | diverges
deriving DecidableEq

structure BlockChainSync (W H B : Type) where
  host : W
  peer : Nat → Peer H
  /-- The peers in the order of `foreachPeer`. -/
  sessions : List Nat
  expired : Nat → Bool
  daoChallengedPeers : Finset Nat := ∅
  state : SyncState := .idle
  downloadingHeaders : Downloads := {}
  downloadingBodies : Downloads := {}
  headers : Chunks (Header H) := []
  bodies : Chunks B := []
  headerIdToNumber : AList fun _ : HeaderId H => Nat := ∅
  haveCommonHeader : Bool := false
  lastImportedBlock : Nat
  lastImportedBlockHash : H
  syncingTotalDifficulty : Nat := 0
  /-- What `collectBlocks` has handed to the block queue, the latest first. -/
  collected : List (Header H × B) := []
  /-- What peers have been asked for, the latest first. -/
  requests : List (Nat × Request H) := []

/-- A `NewBlock` message. -/
inductive NewBlock (H B : Type)
  | notTwoFields
  | malformed
  /-- The total difficulty is none if it cannot be read. -/
  | block (info : Header H) (body : B) (totalDifficulty : Option Nat)

namespace BlockChainSync

variable {W H B : Type} [DecidableEq H] (c : Host W H B)

abbrev M (W H B : Type) := EStateM Exn (BlockChainSync W H B)

def maxRequestHeaders : Nat := 1024
def maxRequestBodies : Nat := 1024
def maxPeerUnknownNewBlocks : Nat := 1024

/-- `EmptyTrie` and `EmptyListSHA3` -/
def emptyId : HeaderId H := c.bodyId c.emptyBody

/-- `--` of an `unsigned` -/
def pred (n : Nat) : Nat := (n + (2 ^ 32 - 1)) % 2 ^ 32

/-- `++` of an `unsigned` -/
def succ (n : Nat) : Nat := (n + 1) % 2 ^ 32

def constructed (host : W) (peer : Nat → Peer H) (sessions : List Nat) (expired : Nat → Bool) : BlockChainSync W H B :=
  { host, peer, sessions, expired, lastImportedBlock := c.number host, lastImportedBlockHash := c.currentHash host }

/-- `requestBlockHeaders` and `requestBlockBodies` of a peer -/
def ask (peer : Nat) (request : Request H) : M W H B Unit :=
  modify fun s => { s with
    peer := Function.update s.peer peer { s.peer peer with asking := request.asking }
    requests := (peer, request) :: s.requests }

def resetSync : M W H B Unit :=
  modify fun s => { s with
    downloadingHeaders := {}, downloadingBodies := {}, headers := [], bodies := [], headerIdToNumber := ∅
    syncingTotalDifficulty := 0, state := .notSynced }

def restartSync : M W H B Unit := do
  resetSync
  modify fun s => { s with haveCommonHeader := false, host := c.clear s.host }
  modify fun s => { s with lastImportedBlock := c.number s.host, lastImportedBlockHash := c.currentHash s.host }

def completeSync : M W H B Unit := do
  resetSync
  modify fun s => { s with state := .idle }

def pauseSync : M W H B Unit := modify fun s => { s with state := .waiting }

/-- `clearPeerDownload` of a peer -/
def clearPeerDownload (peer : Nat) : M W H B Unit :=
  modify fun s => { s with
    downloadingHeaders := s.downloadingHeaders.release peer, downloadingBodies := s.downloadingBodies.release peer
    daoChallengedPeers := s.daoChallengedPeers.erase peer }

/-- `clearPeerDownload` of the peers that have gone -/
def clearPeerDownloads : M W H B Unit :=
  modify fun s => { s with
    downloadingHeaders := (s.downloadingHeaders.peers.keys.filter s.expired).foldl Downloads.release s.downloadingHeaders
    downloadingBodies := (s.downloadingBodies.peers.keys.filter s.expired).foldl Downloads.release s.downloadingBodies
    daoChallengedPeers := s.daoChallengedPeers.filter fun peer => ¬ s.expired peer }

/-! ### Requests -/

/-- The bodies to be asked for: of the first chunk, if that is the next to be imported. -/
def neededBodies (s : BlockChainSync W H B) : List Nat :=
  match s.headers with
  | [] => []
  | (first, chunk) :: _ =>
    if s.haveCommonHeader ∧ first = succ s.lastImportedBlock then
      (((List.range chunk.length).map (first + ·)).filter fun block =>
        block ∉ s.downloadingBodies.numbers ∧ ¬ haveItem s.bodies block).take maxRequestBodies
    else []

/-- The hashes of the headers of these numbers, which are in the first chunk -/
def hashesOf (s : BlockChainSync W H B) (blocks : List Nat) : List H :=
  match s.headers with
  | [] => []
  | (first, chunk) :: _ => blocks.filterMap fun block => chunk[block - first]?.map (·.hash)

/-- A step back in the search for a common block; the number to be asked for. -/
def searchBack : M W H B Nat := do
  let s ← get
  let start := match s.headers with
    | [] => s.lastImportedBlock
    | (first, _) :: _ => min s.lastImportedBlock (pred first)
  set { s with
    lastImportedBlock := start, lastImportedBlockHash := c.numberHash s.host start
    haveCommonHeader := s.haveCommonHeader || start ≤ succ c.chainStartBlock }
  return start

/-- The search for headers in front of the chunks `next`, from `start` on, which is not above the first of them. -/
def requestHeaders (peer : Nat) : Nat → Nat → Chunks (Header H) → M W H B Unit
  | 0, _, _ => throw .diverges
  | _ + 1, _, [] => return
  | fuel + 1, start, (first, chunk) :: next => do
    let s ← get
    let count := min maxRequestHeaders (first - start)
    let skipped := ((List.range count).takeWhile fun i => start + i ∈ s.downloadingHeaders.numbers).length
    let blocks := ((List.range (count - skipped)).map (start + skipped + ·)).filter (· ∉ s.downloadingHeaders.numbers)
    if blocks ≠ [] then do
      set { s with downloadingHeaders := s.downloadingHeaders.assign peer blocks }
      if haveItem s.headers (start + skipped) then throw .assertion
      else ask peer (.requestBlockHeaders (start + skipped) blocks.length)
    else if first ≤ start + skipped then requestHeaders peer fuel (first + chunk.length) next
    else requestHeaders peer fuel (start + skipped) ((first, chunk) :: next)

/-- From the first number behind the last imported block, or behind the first chunk. -/
def requestMissing (peer : Nat) : M W H B Unit := do
  let s ← get
  let start := succ s.lastImportedBlock
  let fuel := ((s.headers.map Prod.fst).max?.getD 0) + s.headers.length + 2
  match s.headers with
  | [] => return
  | (first, chunk) :: next =>
    if first ≤ start then requestHeaders peer fuel (first + chunk.length) next
    else requestHeaders peer fuel start s.headers

def requestBlocks (peer : Nat) : M W H B Unit := do
  clearPeerDownload peer
  if c.knownFull (← get).host then pauseSync
  else do
    let needed := (← get).neededBodies
    if needed ≠ [] then do
      modify fun s => { s with downloadingBodies := s.downloadingBodies.assign peer needed }
      ask peer (.requestBlockBodies ((← get).hashesOf needed))
    else do
      let start ← if (← get).haveCommonHeader then pure 0 else searchBack c
      if (← get).haveCommonHeader then requestMissing peer
      else ask peer (.requestBlockHeaders start 1)

def syncPeer (peer : Nat) (force : Bool) : M W H B Unit := do
  let s ← get
  let p := s.peer peer
  if p.asking ≠ .nothing then return
  else if s.state = .waiting then return
  else do
    let td := if c.isActive s.host then (c.totalDifficulty s.host + c.difficulty s.host) % 2 ^ 256 else
        c.totalDifficulty s.host
    if force ∨ max s.syncingTotalDifficulty td < p.totalDifficulty then do
      set { s with
        syncingTotalDifficulty := p.totalDifficulty
        state := if s.state = SyncState.idle ∨ s.state = SyncState.notSynced then .blocks else s.state }
      ask peer (.requestBlockHeadersFrom p.latestHash 1)
    else if s.state = .blocks then requestBlocks c peer
    else return

def continueSync : M W H B Unit := do
  (← get).sessions.forM fun peer => syncPeer c peer false

/-! ### Headers and bodies -/

/-- What stands behind the new header `info` does not fit, and goes. The ids of the headers that go stay. -/
def clearFollowing (info : Header H) (n : Nat) : M W H B Unit := do
  let s ← get
  match startsAt s.headers n with
  | none => throw .thrown
  | some chunk =>
    let numbers := (List.range chunk.2.length).map (n + ·)
    set { s with
      headerIdToNumber := s.headerIdToNumber.erase info.id
      downloadingBodies := numbers.foldl Downloads.erase s.downloadingBodies
      downloadingHeaders := numbers.foldl Downloads.erase s.downloadingHeaders
      headers := removeAllStartingWith s.headers n
      bodies := removeAllStartingWith s.bodies n }

def storeHeader (info : Header H) (n : Nat) : M W H B Unit := do
  match mergeInto (← get).headers n info with
  | none => throw .assertion
  | some headers => modify fun s => { s with headers }
  if info.id = emptyId c then
    match mergeInto (← get).bodies n c.emptyBody with
    | none => throw .assertion
    | some bodies => modify fun s => { s with bodies }
  else modify fun s => { s with headerIdToNumber := s.headerIdToNumber.insert info.id n }

/-- The chain of the headers is broken at the new one. -/
def mismatches (s : BlockChainSync W H B) (info : Header H) (n : Nat) : Bool :=
  (findItem s.headers (pred n)).any (·.hash ≠ info.parentHash) ||
    (n = succ s.lastImportedBlock && info.parentHash ≠ s.lastImportedBlockHash)

/-- The header is known to the queue or the chain. -/
def isKnown (s : BlockChainSync W H B) (h : H) : Bool :=
  c.blockStatus s.host h = .importing || c.blockStatus s.host h = .ready || c.isKnown s.host h

/-- One of the headers; true if no more of them is looked at. -/
def onHeader (info : Header H) : M W H B Bool := do
  let s ← get
  let n := info.number % 2 ^ 32
  if n < c.chainStartBlock then return false
  else if haveItem s.headers n then return false
  else if n ≤ s.lastImportedBlock ∧ s.haveCommonHeader then return false
  else if isKnown c s info.hash then do
    set { s with haveCommonHeader := true, lastImportedBlock := n, lastImportedBlockHash := info.hash }
    match s.headers with
    | [] => return false
    | (first, chunk) :: _ =>
      if first = succ n then
        match chunk with
        | [] => throw .undefined
        | h :: _ =>
          if h.parentHash ≠ info.hash then do
            restartSync c
            return true
          else return false
      else return false
  else if s.haveCommonHeader ∧ mismatches s info n then do
    restartSync c
    return true
  else do
    if s.haveCommonHeader ∧ (findItem s.headers (succ n)).any (·.parentHash ≠ info.hash) then clearFollowing info (succ n)
    storeHeader c info n
    return false

/-- The headers of a message, of which one may be malformed. -/
def onHeaders : List (Option (Header H)) → M W H B Bool
  | [] => return false
  | none :: _ => throw .thrown
  | some info :: items => do
    if ← onHeader c info then return true
    else onHeaders items

/-- The imports of `collectBlocks`: how many there were, if it goes on behind them. -/
def importBlocks (first : Nat) : Nat → List (Header H × B) → M W H B (Option Nat)
  | i, [] => return some i
  | i, (header, body) :: l => do
    let s ← get
    let (result, host) := c.importBlock s.host header body
    set { s with host, collected := (header, body) :: s.collected }
    match result with
    | .success => do
      if s.lastImportedBlock < first + i then
        modify fun s => { s with lastImportedBlock := first + i, lastImportedBlockHash := header.hash }
      importBlocks first (i + 1) l
    | .malformed | .badChain => do
      restartSync c
      return none
    | .alreadyKnown | .futureTimeUnknown | .unknownParent => do
      if s.lastImportedBlock < first + i then do
        resetSync
        modify fun s => { s with haveCommonHeader := false }
      return none
    | .futureTimeKnown | .alreadyInChain | .overbidGasPrice | .zeroSignature => importBlocks first (i + 1) l

/-- What is left of a first chunk, in front of the others. -/
def leave {T : Type} (first : Nat) (chunk : List T) (m : Chunks T) : Chunks T :=
  if chunk.isEmpty then m else (first, chunk) :: m

def collectBlocks : M W H B Unit := do
  let s ← get
  match s.headers, s.bodies with
  | (first, headers) :: nextHeaders, (firstBody, bodies) :: nextBodies =>
    if ¬ s.haveCommonHeader ∨ first ≠ firstBody ∨ first ≠ succ s.lastImportedBlock then return
    else do
      match ← importBlocks c first 0 (headers.zip bodies) with
      | none => return
      | some i =>
        if c.unknownFull (← get).host then restartSync c
        else do
          modify fun s => { s with
            headers := leave (first + i) (headers.drop i) nextHeaders
            bodies := leave (first + i) (bodies.drop i) nextBodies }
          if (← get).headers.isEmpty then
            if !(← get).bodies.isEmpty then throw .assertion
            else completeSync
          else return
  | _, _ => return

/-- One of the bodies. -/
def onBody (body : B) : M W H B Unit := do
  let s ← get
  match s.headerIdToNumber.lookup (c.bodyId body) with
  | none => return
  | some n =>
    if ¬ haveItem s.headers n then return
    else if haveItem s.bodies n then return
    else do
      set { s with headerIdToNumber := s.headerIdToNumber.erase (c.bodyId body) }
      match mergeInto s.bodies n body with
      | none => throw .assertion
      | some bodies => modify fun s => { s with bodies }

/-! ### The handlers -/

def onBlockImported (info : Header H) : M W H B Unit := do
  if (← get).lastImportedBlock < info.number then
    modify fun s => { s with lastImportedBlock := info.number % 2 ^ 32, lastImportedBlockHash := info.hash }
  else return

def requestDaoForkBlockHeader (peer : Nat) : M W H B Bool := do
  if c.daoHardforkBlock = 0 then return false
  else do
    modify fun s => { s with daoChallengedPeers := insert peer s.daoChallengedPeers }
    ask peer (.requestBlockHeaders c.daoHardforkBlock 1)
    return true

/-- None of the checks ends with `disable`. -/
def welcome (s : BlockChainSync W H B) (peer : Nat) (clientVersion : String) : Bool :=
  let p := s.peer peer
  p.genesisHash = c.genesisHash s.host && (p.protocolVersion = c.protocolVersion || p.protocolVersion = 62) &&
    p.networkId = c.networkId && ¬ "/v0.7.0/".toList <:+: clientVersion.toList && !c.isBanned s.host peer &&
    (p.asking = .state || p.asking = .nothing)

def onPeerStatus (peer : Nat) : M W H B Unit := do
  let s ← get
  match (s.peer peer).session with
  | none => return
  | some clientVersion =>
    if !welcome c s peer clientVersion then return
    else if ← requestDaoForkBlockHeader c peer then return
    else syncPeer c peer true

/-- `verifyDaoChallengeResponse` -/
def verifyDaoChallengeResponse (items : List (Option (Header H))) : M W H B Bool :=
  match items with
  | [none] => throw .thrown
  | [some info] => return info.number = c.daoHardforkBlock ∧ info.extraData = "dao-hard-fork".toUTF8.toList
  | _ => return false

def onPeerBlockHeaders (peer : Nat) (items : List (Option (Header H))) : M W H B Unit := do
  if peer ∈ (← get).daoChallengedPeers then do
    if ← verifyDaoChallengeResponse c items then syncPeer c peer false
    modify fun s => { s with daoChallengedPeers := s.daoChallengedPeers.erase peer }
  else do
    clearPeerDownload peer
    if (← get).state ≠ .blocks then return
    else if ← onHeaders c items then return
    else do
      collectBlocks c
      continueSync c

def onPeerBlockBodies (peer : Nat) (items : List B) : M W H B Unit := do
  clearPeerDownload peer
  if (← get).state ≠ .blocks then return
  else do
    items.forM (onBody c)
    collectBlocks c
    continueSync c

/-- A new block that the queue has taken. -/
def tookNewBlock (info : Header H) (n : Nat) : M W H B Unit := do
  modify fun s => if s.lastImportedBlock < n then { s with lastImportedBlock := n, lastImportedBlockHash := info.hash } else s
  modify fun s => { s with
    downloadingBodies := s.downloadingBodies.erase n, downloadingHeaders := s.downloadingHeaders.erase n
    headers := removeItem s.headers n, bodies := removeItem s.bodies n }
  if (← get).headers.isEmpty then completeSync
  else return

/-- A new block whose parent is not known. -/
def unknownNewBlock (peer : Nat) (totalDifficulty : Option Nat) : M W H B Unit := do
  modify fun s => { s with
    peer := Function.update s.peer peer { s.peer peer with unknownNewBlocks := succ (s.peer peer).unknownNewBlocks } }
  if maxPeerUnknownNewBlocks < ((← get).peer peer).unknownNewBlocks then restartSync c
  match totalDifficulty with
  | none => throw .thrown
  | some td => if ((← get).peer peer).totalDifficulty < td then syncPeer c peer true else return

def onPeerNewBlock (peer : Nat) : NewBlock H B → M W H B Unit
  | .notTwoFields => return
  | .malformed => throw .thrown
  | .block info body totalDifficulty => do
    let s ← get
    let n := info.number % 2 ^ 32
    if succ s.lastImportedBlock < n then syncPeer c peer true
    else do
      let (result, host) := c.importBlock s.host info body
      set { s with host }
      match result with
      | .success => tookNewBlock info n
      | .futureTimeUnknown | .unknownParent => unknownNewBlock c peer totalDifficulty
      | .futureTimeKnown | .malformed | .badChain | .alreadyInChain | .alreadyKnown | .overbidGasPrice
          | .zeroSignature => return

/-- The hashes of a message: how many are unknown, or none if one of them is bad. -/
def onNewHashes (peer : Nat) : Nat → Nat → List (H × Nat) → M W H B (Option Nat)
  | unknowns, _, [] => return some unknowns
  | unknowns, maxHeight, (h, height) :: l => do
    let s ← get
    if isKnown c s h then onNewHashes peer unknowns maxHeight l
    else
      match c.blockStatus s.host h with
      | .bad => return none
      | .unknown =>
        if maxHeight < height then do
          set { s with peer := Function.update s.peer peer { s.peer peer with latestHash := h } }
          onNewHashes peer (unknowns + 1) (height % 2 ^ 32) l
        else onNewHashes peer (unknowns + 1) maxHeight l
      | _ => onNewHashes peer unknowns maxHeight l

def onPeerNewHashes (peer : Nat) (hashes : List (H × Nat)) : M W H B Unit := do
  if ((← get).peer peer).asking ≠ .nothing then return
  else
    match ← onNewHashes c peer 0 0 hashes with
    | none => return
    | some unknowns => if 0 < unknowns then syncPeer c peer true else return

def onPeerAborting : M W H B Unit := do
  clearPeerDownloads
  continueSync c

def abortSync : M W H B Unit := do
  resetSync
  (← get).sessions.forM fun _ => onPeerAborting c

/-- The handler of `bq().onRoomAvailable` -/
def onRoomAvailable : M W H B Unit := do
  modify fun s => { s with state := .blocks }
  continueSync c

/-! ### Runs -/

/-- A call of a handler. -/
inductive Call (H B : Type)
  | onPeerStatus (peer : Nat)
  | onPeerBlockHeaders (peer : Nat) (items : List (Option (Header H)))
  | onPeerBlockBodies (peer : Nat) (items : List B)
  | onPeerNewBlock (peer : Nat) (message : NewBlock H B)
  | onPeerNewHashes (peer : Nat) (hashes : List (H × Nat))
  | onBlockImported (info : Header H)
  | onPeerAborting
  | onRoomAvailable
  | restartSync
  | abortSync

def handle : Call H B → M W H B Unit
  | .onPeerStatus peer => onPeerStatus c peer
  | .onPeerBlockHeaders peer items => onPeerBlockHeaders c peer items
  | .onPeerBlockBodies peer items => onPeerBlockBodies c peer items
  | .onPeerNewBlock peer message => onPeerNewBlock c peer message
  | .onPeerNewHashes peer hashes => onPeerNewHashes c peer hashes
  | .onBlockImported info => onBlockImported info
  | .onPeerAborting => onPeerAborting c
  | .onRoomAvailable => onRoomAvailable c
  | .restartSync => restartSync c
  | .abortSync => abortSync c

/-- The states of the runs whose calls are `ok`. Between two calls the host does what `changes` says, and peers come, go
and tell of themselves. -/
inductive Reaches (changes : W → W → Prop) (ok : BlockChainSync W H B → Call H B → Prop) : BlockChainSync W H B → Prop
  | constructed (host : W) (peer : Nat → Peer H) (sessions : List Nat) (expired : Nat → Bool) :
    Reaches changes ok (constructed c host peer sessions expired)
  | network {s : BlockChainSync W H B} {host : W} (peer : Nat → Peer H) (sessions : List Nat) (expired : Nat → Bool) :
    Reaches changes ok s → changes s.host host → Reaches changes ok { s with host, peer, sessions, expired }
  | call {s : BlockChainSync W H B} {a : Call H B} :
    Reaches changes ok s → ok s a → Reaches changes ok (Wp.after (handle c a) s)

end BlockChainSync

end Kmdx.Sync
