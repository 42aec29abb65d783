import Mathlib.Algebra.Group.Nat.Defs
import Mathlib.Data.List.AList
import Mathlib.Data.Finset.Insert

/-!
# The node table (`libp2p/NodeTable`)

A handler runs at one moment. Node entries are shared: a reference stands for one of them, and a bucket refers to it without
keeping it alive. What is sent are endpoints only, answers to `FindNode` are left out, and discovery rounds are seen in the
entries they hold and in what they wait for.
-/

namespace Kmdx.P2p

open Function

/-- `NodeIPEndpoint` -/
structure NodeIPEndpoint (A : Type) where
  address : A
  udpPort : Nat
  tcpPort : Nat
deriving DecidableEq

/-- `NodeEntry`; its distance is that of its id. -/
structure NodeEntry (K A : Type) where
  id : K
  endpoint : NodeIPEndpoint A
  pending : Bool := true

/-- Seen at an address and a port. -/
def NodeEntry.seen {K A : Type} (n : NodeEntry K A) (address : A) (port : Nat) : NodeEntry K A :=
  { n with endpoint := { n.endpoint with address, udpPort := port } }

/-- `EvictionTimeout` -/
structure EvictionTimeout (K : Type) where
  newNodeID : K
  evictedTimePoint : Nat
deriving DecidableEq

/-- What a packet says, besides its source and when it expires. -/
inductive Packet (K A : Type)
  | pingNode (source : NodeIPEndpoint A)
  | pong (destination : NodeIPEndpoint A)
  | findNode (target : K)
  | neighbours (nodes : List (K × NodeIPEndpoint A))

/-- The node itself, and what addresses are. -/
structure NodeSetting (K A : Type) where
  id : K
  /-- `NodeID()` -/
  unspecified : K
  distance : K → K → Nat
  isUnspecified : A → Bool
  isPublicAddress : A → Bool
  allowLocal : Bool

structure NodeTable (K A : Type) where
  endpoint : NodeIPEndpoint A
  isOpen : Bool
  /-- What was sent: pings, pongs and requests -/
  sent : List (NodeIPEndpoint A) := []
  /-- The entries, by their references -/
  entries : Nat → NodeEntry K A
  fresh : Nat := 0
  nodes : K → Option Nat
  /-- Who else holds an entry -/
  held : Nat → Bool
  buckets : Nat → List Nat
  evictions : AList fun _ : K => EvictionTimeout K := ∅
  pubkDiscoverPings : A → Bool
  findNodeTimeout : List (K × Nat) := []
  /-- When the checks are due that have been scheduled. -/
  checks : List Nat := []
  now : Nat := 0

namespace NodeTable

variable {K A : Type} [DecidableEq K] [DecidableEq A] (c : NodeSetting K A)

def s_bucketSize : Nat := 16

/-- In nanoseconds. -/
def c_evictionCheckInterval : Nat := 75 * 10 ^ 6
def c_reqTimeout : Nat := 300 * 10 ^ 6

/-- An endpoint as a truth value -/
def isSet (e : NodeIPEndpoint A) : Bool := !c.isUnspecified e.address && 0 < e.udpPort && 0 < e.tcpPort

def isAllowed (address : A) : Bool := if c.allowLocal then !c.isUnspecified address else c.isPublicAddress address

def constructed (endpoint : NodeIPEndpoint A) (isOpen : Bool) (entries : Nat → NodeEntry K A) : NodeTable K A where
  endpoint := endpoint
  isOpen := isOpen
  entries := entries
  nodes _ := none
  held _ := false
  buckets _ := []
  pubkDiscoverPings _ := false

/-- Whether `lock` gives the entry. -/
def alive (s : NodeTable K A) (r : Nat) : Bool := s.held r || s.nodes (s.entries r).id = some r

/-- The index of `bucket_UNSAFE`, which is an `unsigned`. -/
def bucket (id : K) : Nat := (c.distance c.id id + (2 ^ 32 - 1)) % 2 ^ 32

def ping (e : NodeIPEndpoint A) (s : NodeTable K A) : NodeTable K A := { s with sent := e :: s.sent }

def doCheckEvictions (s : NodeTable K A) : NodeTable K A := { s with checks := (s.now + c_evictionCheckInterval) :: s.checks }

def evict (leastSeen new : Nat) (s : NodeTable K A) : NodeTable K A :=
  if !s.isOpen then s
  else
    let L := (s.entries leastSeen).id
    let s := if L ∈ s.evictions then s else { s with evictions := s.evictions.insert L ⟨(s.entries new).id, s.now⟩ }
    let s := if s.evictions.entries.length = 1 then s.doCheckEvictions else s
    s.ping (s.entries leastSeen).endpoint

/-- An active node, in the bucket where it belongs. -/
def noteInBucket (r b : Nat) (s : NodeTable K A) : NodeTable K A :=
  if r ∈ s.buckets b then { s with buckets := update s.buckets b ((s.buckets b).erase r ++ [r]) }
  else
    match s.buckets b with
    | [] => { s with buckets := update s.buckets b [r] }
    | least :: rest =>
      if (least :: rest).length < s_bucketSize then
        { s with buckets := update s.buckets b (least :: rest ++ [r]) }
      else if s.alive least then s.evict least r
      else { s with buckets := update s.buckets b (rest ++ [r]) }

/-- `noteActiveNode`, of an address and a port -/
def noteActiveNode (id : K) (address : A) (port : Nat) (s : NodeTable K A) : NodeTable K A :=
  if id = c.id ∨ !isAllowed c address then s
  else
    match s.nodes id with
    | none => s
    | some r =>
      if (s.entries r).pending then s
      else
        { s with entries := update s.entries r ((s.entries r).seen address port) }.noteInBucket r
          (bucket c (s.entries r).id)

/-- A new entry. -/
def addEntry (id : K) (endpoint : NodeIPEndpoint A) (pending : Bool) (s : NodeTable K A) : NodeTable K A :=
  { s with
    entries := update s.entries s.fresh { id, endpoint, pending }
    nodes := update s.nodes id (some s.fresh)
    fresh := s.fresh + 1 }

/-- `addNode` of a known node -/
def addKnownNode (id : K) (endpoint : NodeIPEndpoint A) (s : NodeTable K A) : NodeTable K A :=
  (s.addEntry id endpoint false).noteActiveNode c id endpoint.address endpoint.udpPort

def addNode (id : K) (endpoint : NodeIPEndpoint A) (s : NodeTable K A) : NodeTable K A :=
  if !isSet c endpoint then s
  else if id = c.unspecified then
    { s with pubkDiscoverPings := update s.pubkDiscoverPings endpoint.address true }.ping endpoint
  else if (s.nodes id).isSome then s
  else (s.addEntry id endpoint true).ping endpoint

def dropNode (r : Nat) (s : NodeTable K A) : NodeTable K A :=
  let b := bucket c (s.entries r).id
  { s with buckets := update s.buckets b ((s.buckets b).filter (· ≠ r)) }

def setPending (r : Nat) (s : NodeTable K A) : NodeTable K A :=
  { s with entries := update s.entries r { s.entries r with pending := false } }

/-- The eviction that a pong ends. -/
def foundEviction (sourceid : K) (s : NodeTable K A) : Option (EvictionTimeout K) :=
  (s.evictions.lookup sourceid).filter fun e => s.now < e.evictedTimePoint

/-- None for an unsolicited pong, after which nothing is done. -/
def onPong (sourceid : K) (address : A) (port : Nat) (destination : NodeIPEndpoint A) (s : NodeTable K A) :
    Option (NodeTable K A) :=
  let noted : Option (NodeTable K A) :=
    match s.foundEviction sourceid with
    | some e =>
      let s := { s with evictions := s.evictions.erase sourceid }
      let s := match s.nodes e.newNodeID with
        | some n => s.dropNode c n
        | none => s
      match s.nodes sourceid with
      | some n => some (s.setPending n)
      | none => some s
    | none =>
      match s.nodes sourceid with
      | some n => some (s.setPending n)
      | none =>
        if !s.pubkDiscoverPings address then none
        else
          let s := { s with pubkDiscoverPings := update s.pubkDiscoverPings address false }
          some (s.addNode c sourceid ⟨address, port, port⟩)
  noted.map fun s =>
    let own := if (!isSet c s.endpoint || !isAllowed c s.endpoint.address) && c.isPublicAddress destination.address
      then destination.address else s.endpoint.address
    { s with endpoint := { s.endpoint with address := own, udpPort := destination.udpPort } }

/-- Whether neighbours from there are waited for. -/
def expected (sourceid : K) (s : NodeTable K A) : Bool :=
  s.findNodeTimeout.any fun t => t.1 = sourceid && s.now - t.2 < c_reqTimeout

/-- `onReceived` of a packet that `interpretUDP` gives, at a moment -/
def onReceived (sourceid : K) (address : A) (port : Nat) (isExpired : Bool) (packet : Packet K A) (now : Nat)
    (s : NodeTable K A) : NodeTable K A :=
  let s := { s with now }
  if isExpired then s
  else
    match packet with
    | .pong destination =>
      match s.onPong c sourceid address port destination with
      | none => s
      | some s => s.noteActiveNode c sourceid address port
    | .neighbours nodes =>
      let isExpected := s.expected sourceid
      let s := { s with findNodeTimeout := s.findNodeTimeout.filter fun t => t.1 ≠ sourceid || s.now - t.2 < c_reqTimeout }
      let s := if isExpected then nodes.foldl (fun s n => s.addNode c n.1 n.2) s else s
      s.noteActiveNode c sourceid address port
    | .findNode _ => s.noteActiveNode c sourceid address port
    | .pingNode source =>
      let source := { source with address, udpPort := port }
      ((s.addNode c sourceid source).ping source).noteActiveNode c sourceid address port

/-- What `doCheckEvictions` drops. -/
def timedOut (s : NodeTable K A) : List Nat :=
  s.evictions.entries.filterMap fun e => if c_reqTimeout < s.now - e.2.evictedTimePoint then s.nodes e.2.newNodeID else none

/-- What `doCheckEvictions` has scheduled, at a moment -/
def checkEvictions (now : Nat) (s : NodeTable K A) : NodeTable K A :=
  let s := { s with now }
  let drop := s.timedOut
  let evictionsRemain := 0 < s.evictions.entries.length - drop.length
  let s := (drop.destutter (· ≠ ·)).foldl (fun s n => s.dropNode c n) s
  if evictionsRemain then s.doCheckEvictions else s

/-- The states of the runs of a table, at any times. -/
inductive Reaches : NodeTable K A → NodeTable K A → Prop
  | refl (s : NodeTable K A) : Reaches s s
  | addKnownNode {s t : NodeTable K A} {now : Nat} (id : K) (endpoint : NodeIPEndpoint A) : Reaches s t → t.now ≤ now →
    Reaches s ({ t with now }.addKnownNode c id endpoint)
  | addNode {s t : NodeTable K A} {now : Nat} (id : K) (endpoint : NodeIPEndpoint A) : Reaches s t → t.now ≤ now →
    Reaches s ({ t with now }.addNode c id endpoint)
  | onReceived {s t : NodeTable K A} {now : Nat} (sourceid : K) (address : A) (port : Nat) (isExpired : Bool)
    (packet : Packet K A) :
    Reaches s t → t.now ≤ now → Reaches s (t.onReceived c sourceid address port isExpired packet now)
  | checkEvictions {s t : NodeTable K A} {now due : Nat} : Reaches s t → t.now ≤ now → due ∈ t.checks → due ≤ now →
    Reaches s ({ t with checks := t.checks.erase due }.checkEvictions c now)
  /-- A discovery round, and the socket being opened or closed. -/
  | discovery {s t : NodeTable K A} {now : Nat} (isOpen : Bool) (held : Nat → Bool) (asked : List (K × Nat)) : Reaches s t →
    t.now ≤ now → Reaches s { t with isOpen, held, findNodeTimeout := t.findNodeTimeout ++ asked, now }

end NodeTable

end Kmdx.P2p
