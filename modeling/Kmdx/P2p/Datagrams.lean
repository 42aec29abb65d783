import Kmdx.P2p.DevCrypto

/-!
# Discovery packets (`libp2p/NodeTable.h`, `NodeTable.cpp`, `UDP.cpp`, `Common.cpp`)

A packet is the hash of the rest, a signature, the type and a list. Where it comes from or goes to is not in it, and is left
out.
-/

namespace Kmdx.P2p.Discovery

open Rlp

def c_protocolVersion : Nat := 4

/-! ### Endpoints -/

/-- `bi::address`, which is always one of both -/
inductive Address
  | v4 (b : FixedHash 4)
  | v6 (b : FixedHash 16) (scopeId : Nat)
deriving DecidableEq

def Address.toBytes : Address → Bytes
  | .v4 b => hashBytes 4 b
  | .v6 b _ => hashBytes 16 b

structure NodeIPEndpoint where
  address : Address := .v4 0
  udpPort : BitVec 16 := 0
  tcpPort : BitVec 16 := 0
deriving DecidableEq

/-- The fields, in a list or without one -/
inductive RLPAppend
  | streamList
  | streamInline

def NodeIPEndpoint.streamRLP (e : NodeIPEndpoint) (append : RLPAppend) : List Op :=
  (match append with
    | .streamList => [.appendList 3]
    | .streamInline => []) ++
    [.append e.address.toBytes false, .appendInt e.udpPort.toNat, .appendInt e.tcpPort.toNat]

/-- `RLP::size` of an item -/
def sizeAt (k : Nat) : M Nat := do
  let r ← item k
  if isData r.data then length r.data else return 0

def bytesAt (k : Nat) : M Bytes := do toBytes (← item k).data

def interpretAddress : M Address := do
  let size ← sizeAt 0
  if size = 4 then return .v4 (ofRef 4 (← bytesAt 0))
  else if size = 16 then return .v6 (ofRef 16 (← bytesAt 0)) 0
  else return .v4 0

/-- `NodeIPEndpoint::interpretRLP` -/
def interpretEndpoint : M NodeIPEndpoint := do
  let address ← interpretAddress
  let udpPort ← intAt 2 1
  let tcpPort ← intAt 2 2
  return ⟨address, BitVec.ofNat 16 udpPort, BitVec.ofNat 16 tcpPort⟩

/-- An item is an endpoint. -/
def endpointAt (k : Nat) : M NodeIPEndpoint := do Wp.eval interpretEndpoint (RLP.of (← item k).data)

/-! ### Packets -/

structure DiscoveryDatagram where
  /-- The sender, and the hash of the packet, of packets that have come in -/
  sourceid : Public := 0
  echo : FixedHash 32 := 0
  ts : BitVec 32 := 0
deriving DecidableEq

structure PingNode extends DiscoveryDatagram where
  version : BitVec 32 := 0
  source : NodeIPEndpoint := {}
  destination : NodeIPEndpoint := {}
deriving DecidableEq

structure Pong extends DiscoveryDatagram where
  destination : NodeIPEndpoint := {}
deriving DecidableEq

structure FindNode extends DiscoveryDatagram where
  target : FixedHash 64 := 0
deriving DecidableEq

structure Neighbour where
  endpoint : NodeIPEndpoint
  node : Public
deriving DecidableEq

structure Neighbours extends DiscoveryDatagram where
  neighbours : List Neighbour := []
deriving DecidableEq

inductive Packet
  | pingNode (p : PingNode)
  | pong (p : Pong)
  | findNode (p : FindNode)
  | neighbours (p : Neighbours)
deriving DecidableEq

def Packet.datagram : Packet → DiscoveryDatagram
  | .pingNode p => p.toDiscoveryDatagram
  | .pong p => p.toDiscoveryDatagram
  | .findNode p => p.toDiscoveryDatagram
  | .neighbours p => p.toDiscoveryDatagram

def Packet.packetType : Packet → UInt8
  | .pingNode _ => 1
  | .pong _ => 2
  | .findNode _ => 3
  | .neighbours _ => 4

/-! ### Writing -/

/-- The version is that of the program. -/
def PingNode.streamRLP (p : PingNode) : List Op :=
  .appendList 4 :: ([.appendInt c_protocolVersion] ++ p.source.streamRLP .streamList ++ p.destination.streamRLP .streamList ++
    [.appendInt p.ts.toNat])

def Pong.streamRLP (p : Pong) : List Op :=
  .appendList 3 :: (p.destination.streamRLP .streamList ++ [.append (hashBytes 32 p.echo) false, .appendInt p.ts.toNat])

def FindNode.streamRLP (p : FindNode) : List Op :=
  [.appendList 2, .append (hashBytes 64 p.target) false, .appendInt p.ts.toNat]

def Neighbour.streamRLP (n : Neighbour) : List Op :=
  .appendList 4 :: (n.endpoint.streamRLP .streamInline ++ [.append (hashBytes 64 n.node) false])

def Neighbours.streamRLP (p : Neighbours) : List Op :=
  .appendList 2 :: (.appendList p.neighbours.length :: p.neighbours.flatMap Neighbour.streamRLP ++ [.appendInt p.ts.toNat])

def Packet.streamRLP : Packet → List Op
  | .pingNode p => p.streamRLP
  | .pong p => p.streamRLP
  | .findNode p => p.streamRLP
  | .neighbours p => p.streamRLP

/-- The type and the list -/
def Packet.rlpx (p : Packet) : Except Rlp.Exn Bytes :=
  run (.appendRaw [p.packetType] 1 :: p.streamRLP) {} >>= RLPStream.output

variable {R : Type} (c : DevCrypto R)

/-- The `data` that is sent -/
def Packet.sign (p : Packet) (k : Secret) : Except Rlp.Exn Bytes := do
  let rlpx ← p.rlpx
  let sig := c.sign k (c.sha3 rlpx)
  let signedRLPx := hashBytes 65 sig ++ rlpx
  return hashBytes 32 (c.sha3 signedRLPx) ++ signedRLPx

/-! ### Reading -/

/-- What the packets ask of a body, which is not checked to be as long as it says -/
def interpretBody {α : Type} (x : M α) (body : Bytes) : Except Rlp.Exn α := do
  Wp.eval x (← RLP.mk' body { allowNonCanon := true, throwOnFail := true })

def PingNode.interpretRLP (p : PingNode) : M PingNode := do
  let version ← intAt 4 0
  let source ← endpointAt 1
  let destination ← endpointAt 2
  let ts ← intAt 4 3
  return { p with version := BitVec.ofNat 32 version, source, destination, ts := BitVec.ofNat 32 ts }

def Pong.interpretRLP (p : Pong) : M Pong := do
  let destination ← endpointAt 0
  let echo ← hashAt 32 1
  let ts ← intAt 4 2
  return { p with destination, echo, ts := BitVec.ofNat 32 ts }

def FindNode.interpretRLP (p : FindNode) : M FindNode := do
  let target ← hashAt 64 0
  let ts ← intAt 4 1
  return { p with target, ts := BitVec.ofNat 32 ts }

/-- `Neighbour(RLP const&)` -/
def interpretNeighbour : M Neighbour := do
  let endpoint ← interpretEndpoint
  let node ← bytesAt 3
  return ⟨endpoint, ofRef 64 node⟩

/-- The range-for loop over an item -/
def neighboursAt (k : Nat) : M (List Neighbour) := do
  let rs ← elements (← item k).data
  rs.mapM fun r => Wp.eval interpretNeighbour r

def Neighbours.interpretRLP (p : Neighbours) : M Neighbours := do
  let neighbours ← neighboursAt 0
  let ts ← intAt 4 1
  return { p with neighbours := p.neighbours ++ neighbours, ts := BitVec.ofNat 32 ts }

/-- A packet of a type, as far as it is known before the body is read -/
def interpretType (packetType : UInt8) (received : DiscoveryDatagram) (body : Bytes) : Except Rlp.Exn (Option Packet) :=
  if packetType = 1 then do
    return some (.pingNode (← interpretBody (PingNode.interpretRLP { toDiscoveryDatagram := received }) body))
  else if packetType = 2 then do
    return some (.pong (← interpretBody (Pong.interpretRLP { toDiscoveryDatagram := received }) body))
  else if packetType = 3 then do
    return some (.findNode (← interpretBody (FindNode.interpretRLP { toDiscoveryDatagram := received }) body))
  else if packetType = 4 then do
    return some (.neighbours (← interpretBody (Neighbours.interpretRLP { toDiscoveryDatagram := received }) body))
  else return none

/-- Nothing, if the packet is turned down before its body is read -/
def interpretUDP (packet : Bytes) : Except Rlp.Exn (Option Packet) :=
  if packet.length < 32 + 65 + 1 + 3 then return none
  else
    let hashedBytes := cropped packet 32 (packet.length - 32)
    let signedBytes := cropped hashedBytes 65 (hashedBytes.length - 65)
    let signatureBytes := cropped packet 32 65
    let bodyBytes := packet.drop (32 + 65 + 1)
    let echo := c.sha3 hashedBytes
    if cropped packet 0 32 ≠ hashBytes 32 echo then return none
    else
      let sourceid := c.recover (ofRef 65 signatureBytes) (c.sha3 signedBytes)
      if sourceid = 0 then return none
      else interpretType (signedBytes.getD 0 0) { sourceid, echo } bodyBytes

end Kmdx.P2p.Discovery
