import Kmdx.Rlp.BlockHeader

/-!
# The observer of the warp peers (`libwing/WarpHostCapability.cpp`, `WarpPeerCapability.cpp`)

Fibers take turns where they wait. A step is what runs in between: a packet or a disconnect up to where its handler yields,
and a part of `validatePeer` or of `downloadChunks`. A push to `m_freePeers` is a step of its own, for it waits while the
channel is full; the handler of a chunk is then one more fiber. A peer is its `WarpPeerCapability`, whose requests to us touch
nothing here.
-/

namespace Kmdx.Warp

open Rlp ExceptRules Wp Function

abbrev H256 := FixedHash 32

inductive Asking
  | state
  | blockHeaders
  | blockBodies
  | nodeData
  | receipts
  | warpManifest
  | warpData
  | nothing
deriving DecidableEq

/-- The session of a peer. While it is closing, `onPeerDisconnect` waits in its destructor. -/
inductive Session
  | live
  | closing
  | closed
deriving DecidableEq

/-- What a status message says, as far as it is looked at -/
structure Status where
  m_protocolVersion : Nat := 0
  m_networkId : Nat := 0
  m_genesisHash : H256 := 0

structure WarpPeerCapability where
  status : Status := {}
  m_asking : Asking := .nothing
  m_enabled : Bool := true
  session : Session := .live

/-- What a fiber may end by that none of its handlers catches -/
inductive Uncaught
  | exception (e : HeaderException)
  | futureAlreadyRetrieved
  | promiseAlreadySatisfied

/-- What the future of a promise gives -/
inductive Answer
  | value (b : Bytes)
  /-- `FailedToDownloadManifest`, `FailedToDownloadDaoForkBlockHeader` -/
  | failed
deriving DecidableEq

structure Promise where
  retrieved : Bool := false
  answer : Option Answer := none
deriving DecidableEq

/-- Where a fiber of `validatePeer` is. -/
inductive Stage
  | started
  | manifest
  | daoForkBlock (manifestBytes : Bytes) (snapshotHash : H256)
  | freePeers
  | ended
deriving DecidableEq

/-- Where the fiber of `downloadChunks` is. -/
inductive Download
  | notStarted
  | manifest
  | freePeers (chunkHash : H256)
  | ended
deriving DecidableEq

inductive PacketType
  | warpStatus
  | blockHeaders
  | snapshotManifest
  | snapshotData

/-- What the observer is made of -/
structure WarpHost where
  hostProtocolVersion : Nat
  hostNetworkId : Nat
  hostGenesisHash : H256
  daoForkBlock : Nat
  sha3 : Bytes → H256

structure WarpPeerObserver (P : Type) where
  peers : P → WarpPeerCapability := fun _ => {}
  fibers : List (P × Stage) := []
  m_manifest : Option Bytes := none
  m_syncingSnapshotHash : H256 := 0
  m_neededChunks : List H256 := []
  m_freePeers : List P := []
  /-- The files of chunks -/
  written : List H256 := []
  m_manifests : P → Option Promise := fun _ => none
  m_daoForkHeaders : P → Option Promise := fun _ => none
  m_requestedChunks : P → Option H256 := fun _ => none
  download : Download := .notStarted
  uncaught : Option Uncaught := none
  /-- The manifests that peers have answered with -/
  answered : List (P × Bytes) := []
  /-- What `m_manifest` has been set to -/
  chosen : List Bytes := []
  /-- Who has been pushed to `m_freePeers` -/
  pushed : List P := []

/-! ### Reading -/

/-- `toHash<h256>` -/
def toH256 (d : Bytes) (flags : Strictness := strict) : Except Rlp.Exn H256 :=
  return BitVec.ofNat _ (BigEndian.ofBytes (← toHash d 32 flags))

/-- `toVector<h256>` -/
def toH256s (d : Bytes) : Except Rlp.Exn (List H256) := do
  if isList d then do
    let _ ← itemCount d
    (← elements d).mapM fun i => toH256 i.data laissezFaire
  else return []

/-- What is read of an item. -/
def within {α : Type} (i : Nat) (x : M α) : M α := do
  let r ← item i
  match eval x r with
  | .ok a => return a
  | .error e => throw e

/-- What is read of bytes. -/
def parse {α : Type} (x : M α) (d : Bytes) : Except HeaderException α :=
  (do eval x (← RLP.mk' d)).mapError .rlp

def validateManifest : M Bool := do
  let r ← get
  if !isList r.data ∨ (← itemCount r.data) ≠ 1 then
    return false
  let version ← within 0 (do toInt (← item 0).data 32)
  return version = 2

def snapshotBlockHash : M H256 := within 0 (do toH256 (← item 5).data)

/-- What `downloadChunks` reads, of which it needs the chunks. -/
def chunkHashes : M (List H256) := within 0 do
  let _version ← toInt (← item 0).data 32
  let stateHashes ← toH256s (← item 1).data
  let blockHashes ← toH256s (← item 2).data
  let _stateRoot ← toH256 (← item 3).data
  let _blockNumber ← toInt (← item 4).data 32
  let _blockHash ← toH256 (← item 5).data
  return stateHashes ++ blockHashes

def daoForkBlockExtra : Bytes := [0x64, 0x61, 0x6f, 0x2d, 0x68, 0x61, 0x72, 0x64, 0x2d, 0x66, 0x6f, 0x72, 0x6b]

def verifyDaoChallengeResponse (c : WarpHost) (d : Bytes) : Except HeaderException Bool := do
  let n ← parse (do itemCount (← get).data) d
  if n ≠ 1 then return false
  let header ← parse (item 0) d
  let info ← BlockHeader.mk' c.sha3 header.data .headerData
  return info.number.toNat = c.daoForkBlock ∧ info.extraData = daoForkBlockExtra

/-- The hash of the chunk in a packet, if it is the only item. -/
def dataHash (c : WarpHost) : M (Option H256) := do
  let r ← get
  if !isList r.data ∨ (← itemCount r.data) ≠ 1 then
    return none
  return some (c.sha3 (← toBytes (← item 0).data))

/-- A field that is read of a packet. -/
def field {α : Type} (i : Nat) (x : Bytes → Except Rlp.Exn α) (f : α → Status → Status) :
    EStateM Rlp.Exn (RLP × Status) Unit := fun s =>
  match (do x (← item i).data : M α) s.1 with
  | .ok a r => .ok () (r, f a s.2)
  | .error e r => .error e (r, s.2)

/-- The fields, as far as they can be read. `InvalidWarpStatusPacket` is one more exception that is only logged. -/
def readStatus : EStateM Rlp.Exn (RLP × Status) Unit := do
  let count ← match itemCount (← get).1.data with
    | .ok n => pure n
    | .error e => throw e
  if count < 7 then
    throw .rlpException
  field 0 (toInt · 4) fun v p => { p with m_protocolVersion := v }
  field 1 (toInt · 32) fun n p => { p with m_networkId := n }
  field 2 (toInt · 32) fun _totalDifficulty p => p
  field 3 toH256 fun _latestHash p => p
  field 4 toH256 fun h p => { p with m_genesisHash := h }
  field 5 toH256 fun _snapshotHash p => p
  field 6 (toInt · 32) fun _snapshotNumber p => p

/-! ### The fibers -/

namespace WarpPeerObserver

variable {P : Type} [DecidableEq P] (c : WarpHost)

def setPeer (s : WarpPeerObserver P) (p : P) (f : WarpPeerCapability → WarpPeerCapability) : WarpPeerObserver P :=
  { s with peers := update s.peers p (f (s.peers p)) }

def setAsking (s : WarpPeerObserver P) (p : P) (a : Asking) : WarpPeerObserver P := s.setPeer p ({ · with m_asking := a })

def disable (s : WarpPeerObserver P) (p : P) : WarpPeerObserver P := s.setPeer p ({ · with m_enabled := false })

def setStage (s : WarpPeerObserver P) (i : Nat) (p : P) (stage : Stage) : WarpPeerObserver P :=
  { s with fibers := s.fibers.set i (p, stage) }

def endsBy (s : WarpPeerObserver P) (e : Uncaught) : WarpPeerObserver P := { s with uncaught := some e }

/-- Whether the weak pointer of a peer can be locked: its session holds it, or its fiber. -/
def alive (s : WarpPeerObserver P) (p : P) : Bool :=
  (s.peers p).session ≠ .closed || s.fibers.any fun f => f.1 = p && f.2 ≠ .ended

/-- Whether a peer is valid, and which peer is left. -/
def validateStatus (peer : WarpPeerCapability) : Bool × WarpPeerCapability :=
  if peer.session ≠ .live then (false, peer)
  else if peer.status.m_genesisHash ≠ c.hostGenesisHash then (false, { peer with m_enabled := false })
  else if peer.status.m_protocolVersion ≠ c.hostProtocolVersion then (false, { peer with m_enabled := false })
  else if peer.status.m_networkId ≠ c.hostNetworkId then (false, { peer with m_enabled := false })
  else if peer.m_asking ≠ .state ∧ peer.m_asking ≠ .nothing then (false, { peer with m_enabled := false })
  else (true, peer)

/-- The end of `validatePeer` of a peer whose snapshot is the first one. -/
def choose (i : Nat) (p : P) (manifestBytes : Bytes) (snapshotHash : H256) (s : WarpPeerObserver P) : WarpPeerObserver P :=
  let s := { s with m_syncingSnapshotHash := snapshotHash, chosen := manifestBytes :: s.chosen }
  match s.m_manifest with
  | some _ => s.endsBy .promiseAlreadySatisfied
  | none => { s with m_manifest := some manifestBytes }.setStage i p .freePeers

/-- `validatePeer`, from the answer of the DAO fork block on -/
def onDaoForkBlock (i : Nat) (p : P) (manifestBytes : Bytes) (snapshotHash : H256) (answer : Answer)
    (s : WarpPeerObserver P) : WarpPeerObserver P :=
  let s := { s with m_daoForkHeaders := update s.m_daoForkHeaders p none }
  match answer with
  | .failed => s.setStage i p .ended
  | .value headerBytes =>
    if headerBytes = [] then s.setStage i p .ended
    else
      match verifyDaoChallengeResponse c headerBytes with
      | .error e => s.endsBy (.exception e)
      | .ok false => (s.disable p).setStage i p .ended
      | .ok true => s.choose i p manifestBytes snapshotHash

def waitForDaoForkBlock (i : Nat) (p : P) (manifestBytes : Bytes) (snapshotHash : H256) (s : WarpPeerObserver P) :
    WarpPeerObserver P :=
  let promise := (s.m_daoForkHeaders p).getD {}
  if promise.retrieved then s.endsBy .futureAlreadyRetrieved
  else
    let s := { s with m_daoForkHeaders := update s.m_daoForkHeaders p (some { promise with retrieved := true }) }
    match promise.answer with
    | some answer => s.onDaoForkBlock c i p manifestBytes snapshotHash answer
    | none => s.setStage i p (.daoForkBlock manifestBytes snapshotHash)

/-- `validatePeer` with a manifest that is valid -/
def onSnapshot (i : Nat) (p : P) (manifestBytes : Bytes) (snapshotHash : H256) (s : WarpPeerObserver P) :
    WarpPeerObserver P :=
  if s.m_syncingSnapshotHash ≠ 0 then
    if snapshotHash = s.m_syncingSnapshotHash then s.setStage i p .freePeers else (s.disable p).setStage i p .ended
  else if c.daoForkBlock ≠ 0 then
    (s.setAsking p .blockHeaders).waitForDaoForkBlock c i p manifestBytes snapshotHash
  else s.choose i p manifestBytes snapshotHash

/-- `validatePeer`, from the answer of the manifest on -/
def onManifest (i : Nat) (p : P) (answer : Answer) (s : WarpPeerObserver P) : WarpPeerObserver P :=
  let s := { s with m_manifests := update s.m_manifests p none }
  match answer with
  | .failed => s.setStage i p .ended
  | .value manifestBytes =>
    let s := { s with answered := (p, manifestBytes) :: s.answered }
    if manifestBytes = [] then s.setStage i p .ended
    else
      match parse validateManifest manifestBytes with
      | .error e => s.endsBy (.exception e)
      | .ok false => (s.disable p).setStage i p .ended
      | .ok true =>
        match parse snapshotBlockHash manifestBytes with
        | .error e => s.endsBy (.exception e)
        | .ok snapshotHash => s.onSnapshot c i p manifestBytes snapshotHash

def waitForManifest (i : Nat) (p : P) (s : WarpPeerObserver P) : WarpPeerObserver P :=
  let promise := (s.m_manifests p).getD {}
  if promise.retrieved then s.endsBy .futureAlreadyRetrieved
  else
    let s := { s with m_manifests := update s.m_manifests p (some { promise with retrieved := true }) }
    match promise.answer with
    | some answer => s.onManifest c i p answer
    | none => s.setStage i p .manifest

/-- The beginning of `validatePeer` -/
def validatePeer (i : Nat) (p : P) (s : WarpPeerObserver P) : WarpPeerObserver P :=
  let valid := validateStatus c (s.peers p)
  let s := s.setPeer p fun _ => valid.2
  if valid.1 then (s.setAsking p .warpManifest).waitForManifest c i p else s.setStage i p .ended

/-- A push of the fiber, which ends after it -/
def push (i : Nat) (p : P) (s : WarpPeerObserver P) : WarpPeerObserver P :=
  { s with m_freePeers := s.m_freePeers ++ [p], pushed := p :: s.pushed }.setStage i p .ended

/-- A turn of a fiber of `validatePeer`, if it need not wait -/
def validate (i : Nat) (s : WarpPeerObserver P) : Option (WarpPeerObserver P) :=
  match s.fibers[i]? with
  | some (p, .started) => some (s.validatePeer c i p)
  | some (p, .manifest) => ((s.m_manifests p).bind Promise.answer).map fun answer => s.onManifest c i p answer
  | some (p, .daoForkBlock manifestBytes snapshotHash) =>
    ((s.m_daoForkHeaders p).bind Promise.answer).map fun answer => s.onDaoForkBlock c i p manifestBytes snapshotHash answer
  | some (p, .freePeers) => some (s.push i p)
  | some (_, .ended) | none => none

/-- The head of the loop of `downloadChunks` -/
def nextChunk (s : WarpPeerObserver P) : WarpPeerObserver P :=
  match s.m_neededChunks with
  | [] => { s with download := .ended }
  | chunkHash :: _ => { s with download := .freePeers chunkHash }

/-- A chunk is requested. -/
def request (p : P) (chunkHash : H256) (s : WarpPeerObserver P) : WarpPeerObserver P :=
  let s := s.setAsking p .warpData
  { s with
    m_requestedChunks := update s.m_requestedChunks p (some chunkHash)
    m_neededChunks := s.m_neededChunks.tail }

/-- A turn of the fiber of `downloadChunks`, if it need not wait -/
def downloadChunks (s : WarpPeerObserver P) : Option (WarpPeerObserver P) :=
  match s.download with
  | .notStarted | .ended => none
  | .manifest => s.m_manifest.map fun manifestBytes =>
    match parse chunkHashes manifestBytes with
    | .error e => s.endsBy (.exception e)
    | .ok hashes => { s with m_neededChunks := hashes }.nextChunk
  | .freePeers chunkHash =>
    match s.m_freePeers with
    | [] => none
    | p :: rest =>
      let t := { s with m_freePeers := rest }
      some (if s.alive p then (t.request p chunkHash).nextChunk else t)

/-! ### The handlers -/

def onPeerStatus (p : P) (s : WarpPeerObserver P) : WarpPeerObserver P :=
  { s with
    fibers := s.fibers ++ [(p, .started)]
    download := if s.download = .notStarted then .manifest else s.download }

/-- `set_value`, after which the promise is as it was if it is satisfied already. -/
def Promise.setValue (promise : Option Promise) (b : Bytes) : Promise :=
  let promise := promise.getD {}
  if promise.answer.isSome then promise else { promise with answer := some (.value b) }

def onPeerManifest (p : P) (r : Bytes) (s : WarpPeerObserver P) : WarpPeerObserver P :=
  { s with m_manifests := update s.m_manifests p (some (Promise.setValue (s.m_manifests p) r)) }

def onPeerBlockHeaders (p : P) (r : Bytes) (s : WarpPeerObserver P) : WarpPeerObserver P :=
  { s with m_daoForkHeaders := update s.m_daoForkHeaders p (some (Promise.setValue (s.m_daoForkHeaders p) r)) }

/-- `onPeerData` of a chunk -/
def onChunk (p : P) (hash : H256) (s : WarpPeerObserver P) : WarpPeerObserver P :=
  match s.m_requestedChunks p with
  | none => s
  | some askedHash =>
    let s := { s with m_requestedChunks := update s.m_requestedChunks p none, fibers := s.fibers ++ [(p, Stage.freePeers)] }
    if hash = askedHash then { s with written := hash :: s.written }
    else { s with m_neededChunks := s.m_neededChunks ++ [askedHash] }

def onPeerData (p : P) (r : RLP) (s : WarpPeerObserver P) : WarpPeerObserver P :=
  match eval (dataHash c) r with
  | .ok (some hash) => s.onChunk p hash
  | .ok none | .error _ => s

/-- `interpret`, of a packet that is one item -/
def interpret (p : P) (id : PacketType) (r : RLP) (s : WarpPeerObserver P) : WarpPeerObserver P :=
  match id with
  | .warpStatus =>
    match readStatus (r, (s.peers p).status) with
    | .ok _ (_, status) => ((s.setPeer p ({ · with status })).setAsking p .nothing).onPeerStatus p
    | .error _ (_, status) => s.setPeer p ({ · with status })
  | .blockHeaders => (s.setAsking p .nothing).onPeerBlockHeaders p r.data
  | .snapshotManifest => (s.setAsking p .nothing).onPeerManifest p r.data
  | .snapshotData => (s.setAsking p .nothing).onPeerData c p r

/-- `set_exception`, none if it throws. -/
def Promise.setException (promise : Promise) : Option Promise :=
  if promise.answer.isSome then none else some { promise with answer := some .failed }

def onPeerDisconnect (p : P) (asking : Asking) (s : WarpPeerObserver P) : WarpPeerObserver P :=
  match asking with
  | .warpManifest =>
    match s.m_manifests p with
    | none => s
    | some promise =>
      match Promise.setException promise with
      | none => s.endsBy .promiseAlreadySatisfied
      | some promise => { s with m_manifests := update s.m_manifests p (some promise) }
  | .blockHeaders =>
    match s.m_daoForkHeaders p with
    | none => s
    | some promise =>
      match Promise.setException promise with
      | none => s.endsBy .promiseAlreadySatisfied
      | some promise => { s with m_daoForkHeaders := update s.m_daoForkHeaders p (some promise) }
  | .warpData =>
    match s.m_requestedChunks p with
    | none => s
    | some chunkHash =>
      { s with
        m_neededChunks := s.m_neededChunks ++ [chunkHash]
        m_requestedChunks := update s.m_requestedChunks p none }
  | _ => s

/-- The session is destroyed, up to where it waits. -/
def disconnect (p : P) (s : WarpPeerObserver P) : WarpPeerObserver P :=
  (s.setPeer p ({ · with session := .closing })).onPeerDisconnect p (s.peers p).m_asking

/-! ### Runs -/

inductive Turn (P : Type)
  | packet (p : P) (id : PacketType) (r : Bytes)
  | disconnect (p : P)
  | disconnected (p : P)
  | validate (i : Nat)
  | download

/-- A turn that may be taken. None is after an exception that was not caught. -/
def step (s : WarpPeerObserver P) (turn : Turn P) : Option (WarpPeerObserver P) :=
  if s.uncaught.isSome then none
  else
    match turn with
    | .packet p id r =>
      match RLP.mk' r with
      | .error _ => none
      | .ok r => if (s.peers p).session = .live ∧ (s.peers p).m_enabled then some (s.interpret c p id r) else none
    | .disconnect p => if (s.peers p).session = .live then some (s.disconnect p) else none
    | .disconnected p =>
      if (s.peers p).session = .closing then some (s.setPeer p ({ · with session := .closed })) else none
    | .validate i => s.validate c i
    | .download => s.downloadChunks

/-- The states of the runs whose steps are `ok`. -/
inductive Reaches (ok : WarpPeerObserver P → Turn P → Prop) : WarpPeerObserver P → Prop
  | start : Reaches ok {}
  | step {s t : WarpPeerObserver P} {turn : Turn P} : Reaches ok s → ok s turn → s.step c turn = some t → Reaches ok t

end WarpPeerObserver

end Kmdx.Warp
