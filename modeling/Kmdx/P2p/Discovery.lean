import Kmdx.P2p.Datagrams
import Kmdx.Rlp.RoundTrip

/-!
# Discovery packets survive

What has been signed is read again (`round_trip`), and what is read has been signed (`signed_of_interpretUDP`).
-/

namespace Kmdx.P2p.Discovery

open Rlp ExceptRules

variable {R : Type} {c : DevCrypto R} {k : Secret} {d : Bytes} {is : List Bytes} {e : NodeIPEndpoint}

/-! ### What is written -/

/-- The items of an endpoint -/
def NodeIPEndpoint.parts (e : NodeIPEndpoint) :
    List Tree := [.data e.address.toBytes, .int e.udpPort.toNat, .int e.tcpPort.toNat]

def Neighbour.parts (n : Neighbour) : List Tree := n.endpoint.parts ++ [.data (hashBytes 64 n.node)]

def Neighbour.tree (n : Neighbour) : Tree := .list n.parts

/-- The items of the list in a packet -/
def Packet.parts : Packet → List Tree
  | .pingNode p => [.int c_protocolVersion, .list p.source.parts, .list p.destination.parts, .int p.ts.toNat]
  | .pong p => [.list p.destination.parts, .data (hashBytes 32 p.echo), .int p.ts.toNat]
  | .findNode p => [.data (hashBytes 64 p.target), .int p.ts.toNat]
  | .neighbours p => [.list (p.neighbours.map Neighbour.tree), .int p.ts.toNat]

theorem writes_parts (e : NodeIPEndpoint) : Writes (e.streamRLP .streamInline) e.parts :=
  .append _ (.int _ (toNat_lt_intLimit _ (by decide)) (.int _ (toNat_lt_intLimit _ (by decide)) .nil))

theorem writes_endpoint (e : NodeIPEndpoint) : Writes (e.streamRLP .streamList) [.list e.parts] := (writes_parts e).singleton

theorem writes_int {w : Nat} (n : BitVec w) (hw : w ≤ 256) : Writes [.appendInt n.toNat] [.int n.toNat] :=
  .int _ (toNat_lt_intLimit n hw) .nil

theorem writes_neighbours (ns : List Neighbour) : Writes (ns.flatMap Neighbour.streamRLP) (ns.map Neighbour.tree) := by
  induction ns with
  | nil => exact .nil
  | cons n ns ih =>
    have hn : Writes n.streamRLP [n.tree] := ((writes_parts n.endpoint).concat (.append _ .nil)).singleton
    rw [List.flatMap_cons, List.map_cons]
    exact hn.concat ih

theorem writes_packet (p : Packet) : Writes p.streamRLP [.list p.parts] := by
  cases p with
  | pingNode p =>
    have hversion : Writes [.appendInt c_protocolVersion] [.int c_protocolVersion] :=
      writes_int (BitVec.ofNat 32 c_protocolVersion) (by decide)
    exact (((hversion.concat (writes_endpoint p.source)).concat (writes_endpoint p.destination)).concat
      (writes_int p.ts (by decide))).singleton
  | pong p => exact ((writes_endpoint p.destination).concat (.append _ (writes_int p.ts (by decide)))).singleton
  | findNode p => exact (Writes.append _ (writes_int p.ts (by decide))).singleton
  | neighbours p =>
    have hlist := (writes_neighbours p.neighbours).singleton.concat (writes_int p.ts (by decide))
    rw [List.length_map] at hlist
    exact hlist.singleton

/-! ### How long it is -/

theorem length_head_le_two {off len : Nat} (h : len < 256) : (head off len).length ≤ 2 := by
  have hle : (compact len).length ≤ 1 := length_compact_le_iff.2 h
  rw [head]
  split
  · exact Nat.le_succ 1
  · exact Nat.succ_le_succ hle

variable {b body : Bytes}

theorem length_bytes_le_two (h : b.length < 256) : (bytes b).length ≤ b.length + 2 := by
  match b with
  | [] => exact Nat.le_succ_of_le (by decide)
  | [x] =>
    rw [bytes]
    split
    · simp
    · exact (List.length_append ..).trans_le (Nat.add_le_add_right (length_head_le_two (by decide)) 1)
  | x :: y :: b =>
    have hhead : (head 0x80 (x :: y :: b).length).length ≤ 2 := length_head_le_two h
    rw [bytes_cons_cons, List.length_append]
    omega

theorem length_hash_le {size : Nat} (v : FixedHash size) (hsize : size < 256) :
    (Tree.data (hashBytes size v)).encode.length ≤ size + 2 := by
  have hle := length_bytes_le_two (b := hashBytes size v) (by rwa [length_hashBytes])
  rwa [length_hashBytes] at hle

theorem length_int_le {n size : Nat} (hn : n < 256 ^ size) (hsize : size < 256) : (Tree.int n).encode.length ≤ size + 2 := by
  have hle : (compact n).length ≤ size := length_compact_le_iff.2 hn
  rw [Tree.int, Tree.encode]
  exact (length_bytes_le_two (hle.trans_lt hsize)).trans (Nat.add_le_add_right hle 2)

theorem length_list_le {ts : List Tree} {n : Nat} (h : (Tree.payload ts).length ≤ n) (hn : n < 256) :
    (Tree.list ts).encode.length ≤ n + 2 := by
  have hhead : (head 0xc0 (Tree.payload ts).length).length ≤ 2 := length_head_le_two (h.trans_lt hn)
  rw [Tree.encode, List.length_append]
  omega

theorem length_parts_le (e : NodeIPEndpoint) : (Tree.payload e.parts).length ≤ 26 := by
  have haddress : e.address.toBytes.length ≤ 16 := by
    cases e.address <;> rw [Address.toBytes, length_hashBytes]
    decide
  have hbytes := length_bytes_le_two (b := e.address.toBytes) (by omega)
  have hudp : (Tree.int e.udpPort.toNat).encode.length ≤ 2 + 2 := length_int_le e.udpPort.isLt (by decide)
  have htcp : (Tree.int e.tcpPort.toNat).encode.length ≤ 2 + 2 := length_int_le e.tcpPort.isLt (by decide)
  simp only [NodeIPEndpoint.parts, Tree.payload_cons, Tree.payload_nil, List.length_append, List.length_nil, Tree.encode]
  omega

theorem length_neighbour_le (n : Neighbour) : (Tree.payload n.parts).length ≤ 92 := by
  have hnode := length_hash_le n.node (by decide)
  have hparts := length_parts_le n.endpoint
  rw [Neighbour.parts, Tree.payload_append, Tree.payload_cons, Tree.payload_nil, List.length_append, List.length_append,
    List.length_nil]
  omega

theorem length_neighbours_le (ns : List Neighbour) : (Tree.payload (ns.map Neighbour.tree)).length ≤ 94 * ns.length := by
  induction ns with
  | nil => simp
  | cons n ns ih =>
    have htree : n.tree.encode.length ≤ 94 := length_list_le (length_neighbour_le n) (by decide)
    rw [List.map_cons, Tree.payload_cons, List.length_append, List.length_cons]
    omega

theorem fits_neighbour (n : Neighbour) : (Tree.list n.parts).Fits :=
  (length_neighbour_le n).trans_lt (by decide)

/-- A vector cannot have more neighbours, which have 64 bytes at least. -/
def Packet.Fits : Packet → Prop
  | .neighbours p => p.neighbours.length < 2 ^ 57
  | _ => True

theorem fits_neighbours {ns : List Neighbour} (h : ns.length < 2 ^ 57) : (Tree.list (ns.map Neighbour.tree)).Fits := by
  have hlimit : lengthLimit = 18446744073709551359 := by decide
  have hle := length_neighbours_le ns
  show (Tree.payload (ns.map Neighbour.tree)).length < lengthLimit
  omega

variable {p : Packet}

theorem fits_packet (h : p.Fits) : (Tree.list p.parts).Fits := by
  have hlimit : lengthLimit = 18446744073709551359 := by decide
  show (Tree.payload p.parts).length < lengthLimit
  have hts : (Tree.int p.datagram.ts.toNat).encode.length ≤ 4 + 2 := length_int_le p.datagram.ts.isLt (by decide)
  cases p with
  | pingNode p =>
    have hts : (Tree.int p.ts.toNat).encode.length ≤ 6 := hts
    have hversion : (Tree.int c_protocolVersion).encode.length ≤ 6 :=
      length_int_le (show c_protocolVersion < 256 ^ 4 by decide) (by decide)
    have hsource := length_list_le (length_parts_le p.source) (by decide)
    have hdestination := length_list_le (length_parts_le p.destination) (by decide)
    simp only [Packet.parts, Tree.payload_cons, Tree.payload_nil, List.length_append, List.length_nil]
    omega
  | pong p =>
    have hts : (Tree.int p.ts.toNat).encode.length ≤ 6 := hts
    have hdestination := length_list_le (length_parts_le p.destination) (by decide)
    have hecho := length_hash_le p.echo (by decide)
    simp only [Packet.parts, Tree.payload_cons, Tree.payload_nil, List.length_append, List.length_nil]
    omega
  | findNode p =>
    have hts : (Tree.int p.ts.toNat).encode.length ≤ 6 := hts
    have htarget := length_hash_le p.target (by decide)
    simp only [Packet.parts, Tree.payload_cons, Tree.payload_nil, List.length_append, List.length_nil]
    omega
  | neighbours p =>
    have hts : (Tree.int p.ts.toNat).encode.length ≤ 6 := hts
    have hlist := length_neighbours_le p.neighbours
    have h : p.neighbours.length < 144115188075855872 := h
    have hhead : (head 0xc0 (Tree.payload (p.neighbours.map Neighbour.tree)).length).length ≤ 9 := length_head_le (by omega)
    simp only [Packet.parts, Tree.payload_cons, Tree.payload_nil, List.length_append, List.length_nil]
    rw [Tree.encode, List.length_append]
    omega

/-- What is signed -/
theorem rlpx_eq (h : p.Fits) : p.rlpx = .ok (p.packetType :: (Tree.list p.parts).encode) := by
  have hwrites := writes_packet p
  have hfits : ∀ t ∈ [Tree.list p.parts], t.Fits := fun t ht => List.mem_singleton.1 ht ▸ fits_packet h
  have hrun := run_of_writes (s := { out := [p.packetType] }) hwrites hfits (.inl rfl)
  have hraw : Op.run (.appendRaw [p.packetType] 1) {} = .ok { out := [p.packetType] } := rfl
  rw [Packet.rlpx, ← List.singleton_append, run_append, run_singleton, hraw, ok_bind, hrun,
    Tree.payload_cons, Tree.payload_nil, List.append_nil]
  rfl

/-! ### What is read -/

/-- The scope of an address is not sent. -/
def Address.withoutScope : Address → Address
  | .v4 b => .v4 b
  | .v6 b _ => .v6 b 0

def NodeIPEndpoint.withoutScope (e : NodeIPEndpoint) : NodeIPEndpoint := { e with address := e.address.withoutScope }

def Neighbour.withoutScope (n : Neighbour) : Neighbour := { n with endpoint := n.endpoint.withoutScope }

/-- What there is at the other end, from a sender. But for a pong, `echo` is the hash of the packet. -/
def Packet.received (sourceid : Public) (hash : FixedHash 32) : Packet → Packet
  | .pingNode p => .pingNode { p with
      sourceid, echo := hash, version := BitVec.ofNat 32 c_protocolVersion
      source := p.source.withoutScope, destination := p.destination.withoutScope }
  | .pong p => .pong { p with sourceid, destination := p.destination.withoutScope }
  | .findNode p => .findNode { p with sourceid, echo := hash }
  | .neighbours p => .neighbours { p with sourceid, echo := hash, neighbours := p.neighbours.map Neighbour.withoutScope }

section Items

variable (hitem : ∀ k, Reads d is (item k) (.ok (RLP.of (is.getD k []))))
include hitem

theorem reads_sizeAt {k : Nat} (hb : b.length < lengthLimit) (hget : is.getD k [] = bytes b) :
    Reads d is (sizeAt k) (.ok b.length) := by
  refine (hitem k).bind_ok ?_
  have hlift : Reads d is (liftM (length (is.getD k []))) (length (is.getD k [])) := .lift _
  have hlen : length (is.getD k []) = .ok b.length := hget ▸ length_bytes hb
  have hdata : isData (is.getD k []) = true := hget ▸ isData_bytes hb
  show Reads d is (if isData (is.getD k []) then liftM (length (is.getD k [])) else pure 0) (.ok b.length)
  rw [if_pos hdata]
  exact hlen ▸ hlift

theorem reads_bytesAt {k : Nat} (hb : b.length < lengthLimit) (hget : is.getD k [] = bytes b) :
    Reads d is (bytesAt k) (.ok b) :=
  reads_at (toBytes ·) (hitem k) hget (toBytes_bytes hb)

theorem reads_interpretAddress {a : Address} (hget : is.getD 0 [] = bytes a.toBytes) :
    Reads d is interpretAddress (.ok a.withoutScope) := by
  cases a with
  | v4 b =>
    have hlen : (hashBytes 4 b).length = 4 := length_hashBytes b
    have hlt : (hashBytes 4 b).length < lengthLimit := hlen.trans_lt (by decide)
    have hpure : Reads (ε := Rlp.Exn) d is (pure (Address.v4 (ofRef 4 (hashBytes 4 b)))) (.ok (Address.v4 b)) :=
      (ofRef_hashBytes b).symm ▸ .pure _
    refine (reads_sizeAt hitem hlt hget).bind_ok ?_
    rw [if_pos hlen]
    exact (reads_bytesAt hitem hlt hget).bind_ok hpure
  | v6 b scopeId =>
    have hlen : (hashBytes 16 b).length = 16 := length_hashBytes b
    have hlt : (hashBytes 16 b).length < lengthLimit := hlen.trans_lt (by decide)
    have hpure : Reads (ε := Rlp.Exn) d is (pure (Address.v6 (ofRef 16 (hashBytes 16 b)) 0)) (.ok (Address.v6 b 0)) :=
      (ofRef_hashBytes b).symm ▸ .pure _
    refine (reads_sizeAt hitem hlt hget).bind_ok ?_
    rw [if_neg (by rw [hlen]; decide), if_pos hlen]
    exact (reads_bytesAt hitem hlt hget).bind_ok hpure

theorem reads_interpretEndpoint (haddress : is.getD 0 [] = bytes e.address.toBytes)
    (hudp : is.getD 1 [] = nat e.udpPort.toNat)
    (htcp : is.getD 2 [] = nat e.tcpPort.toNat) : Reads d is interpretEndpoint (.ok e.withoutScope) := by
  have hread : Reads d is interpretEndpoint
      (.ok ⟨e.address.withoutScope, BitVec.ofNat 16 e.udpPort.toNat, BitVec.ofNat 16 e.tcpPort.toNat⟩) :=
    (reads_interpretAddress hitem haddress).bind_ok ((reads_intAt e.udpPort.isLt (by decide) (hitem 1) hudp).bind_ok
      ((reads_intAt e.tcpPort.isLt (by decide) (hitem 2) htcp).bind_ok (.pure _)))
  rw [BitVec.ofNat_toNat, BitVec.ofNat_toNat, BitVec.setWidth_eq, BitVec.setWidth_eq] at hread
  exact hread

theorem reads_interpretNeighbour {n : Neighbour} (haddress : is.getD 0 [] = bytes n.endpoint.address.toBytes)
    (hudp : is.getD 1 [] = nat n.endpoint.udpPort.toNat) (htcp : is.getD 2 [] = nat n.endpoint.tcpPort.toNat)
    (hnode : is.getD 3 [] = bytes (hashBytes 64 n.node)) : Reads d is interpretNeighbour (.ok n.withoutScope) := by
  have hlt : (hashBytes 64 n.node).length < lengthLimit := (length_hashBytes n.node).trans_lt (by decide)
  have hread : Reads d is interpretNeighbour (.ok ⟨n.endpoint.withoutScope, ofRef 64 (hashBytes 64 n.node)⟩) :=
    (reads_interpretEndpoint hitem haddress hudp htcp).bind_ok ((reads_bytesAt hitem hlt hnode).bind_ok (.pure _))
  rw [ofRef_hashBytes] at hread
  exact hread

end Items

theorem fits_parts (e : NodeIPEndpoint) : (Tree.list e.parts).Fits := (length_parts_le e).trans_lt (by decide)

theorem eval_interpretEndpoint (e : NodeIPEndpoint) :
    Wp.eval interpretEndpoint (RLP.of (Tree.list e.parts).encode) = .ok e.withoutScope := by
  refine (reads_interpretEndpoint (reads_item (fits_parts e)) ?_ ?_ ?_).eval
  · exact List.getD_cons_zero
  · exact List.getD_cons_succ.trans List.getD_cons_zero
  · exact List.getD_cons_succ.trans (List.getD_cons_succ.trans List.getD_cons_zero)

theorem reads_endpointAt {k : Nat} (hitem : Reads d is (item k) (.ok (RLP.of (is.getD k []))))
    (hget : is.getD k [] = (Tree.list e.parts).encode) : Reads d is (endpointAt k) (.ok e.withoutScope) :=
  reads_at (fun i => Wp.eval interpretEndpoint (RLP.of i)) hitem hget (eval_interpretEndpoint e)

theorem eval_interpretNeighbour (n : Neighbour) : Wp.eval interpretNeighbour (RLP.of n.tree.encode) = .ok n.withoutScope := by
  have hitems : n.parts.map Tree.encode = [bytes n.endpoint.address.toBytes, nat n.endpoint.udpPort.toNat,
    nat n.endpoint.tcpPort.toNat, bytes (hashBytes 64 n.node)] := rfl
  have hitem := reads_item (fits_neighbour n)
  rw [hitems] at hitem
  exact (reads_interpretNeighbour hitem List.getD_cons_zero (List.getD_cons_succ.trans List.getD_cons_zero)
    (List.getD_cons_succ.trans (List.getD_cons_succ.trans List.getD_cons_zero))
    (List.getD_cons_succ.trans (List.getD_cons_succ.trans (List.getD_cons_succ.trans List.getD_cons_zero)))).eval

theorem mapM_interpretNeighbour (ns : List Neighbour) :
    (ns.map fun n => RLP.of n.tree.encode).mapM (Wp.eval interpretNeighbour) = .ok (ns.map Neighbour.withoutScope) := by
  induction ns with
  | nil => rfl
  | cons n ns ih =>
    rw [List.map_cons, List.mapM_cons, eval_interpretNeighbour, ok_bind, ih, ok_bind]
    rfl

theorem reads_neighboursAt {k : Nat} {ns : List Neighbour} (hns : (Tree.list (ns.map Neighbour.tree)).Fits)
    (hitem : Reads d is (item k) (.ok (RLP.of (is.getD k []))))
    (hget : is.getD k [] = (Tree.list (ns.map Neighbour.tree)).encode) :
    Reads d is (neighboursAt k) (.ok (ns.map Neighbour.withoutScope)) := by
  have helements : elements (is.getD k []) = .ok (ns.map fun n => RLP.of n.tree.encode) := by
    rw [hget, (isListOf_encode hns).elements (splits_payload hns), List.map_map, List.map_map]
    rfl
  have hlift : Reads d is (liftM (elements (is.getD k []))) (elements (is.getD k [])) := .lift _
  have hmapM := Reads.mapM (fun r => (Reads.lift (Wp.eval interpretNeighbour r) : Reads d is _ _))
    (ns.map fun n => RLP.of n.tree.encode)
  rw [mapM_interpretNeighbour] at hmapM
  exact hitem.bind_ok ((helements ▸ hlift : Reads d is (liftM (elements (is.getD k []))) (.ok _)).bind_ok hmapM)

section Packets

variable (hitem : ∀ k, Reads d is (item k) (.ok (RLP.of (is.getD k []))))
include hitem

theorem reads_pingNode {p q : PingNode} (hversion : is.getD 0 [] = nat c_protocolVersion)
    (hsource : is.getD 1 [] = (Tree.list p.source.parts).encode)
    (hdestination : is.getD 2 [] = (Tree.list p.destination.parts).encode)
    (hts : is.getD 3 [] = nat p.ts.toNat) : Reads d is q.interpretRLP (.ok { q with
      version := BitVec.ofNat 32 c_protocolVersion, source := p.source.withoutScope,
        destination := p.destination.withoutScope,
      ts := p.ts }) := by
  have hread : Reads d is q.interpretRLP (.ok { q with
      version := BitVec.ofNat 32 c_protocolVersion, source := p.source.withoutScope,
        destination := p.destination.withoutScope,
      ts := BitVec.ofNat 32 p.ts.toNat }) :=
    (reads_intAt (show c_protocolVersion < 256 ^ 4 by decide) (by decide) (hitem 0) hversion).bind_ok
      ((reads_endpointAt (hitem 1) hsource).bind_ok ((reads_endpointAt (hitem 2) hdestination).bind_ok
        ((reads_intAt p.ts.isLt (by decide) (hitem 3) hts).bind_ok (.pure _))))
  rw [BitVec.ofNat_toNat, BitVec.setWidth_eq] at hread
  exact hread

theorem reads_pong {p q : Pong} (hdestination : is.getD 0 [] = (Tree.list p.destination.parts).encode)
    (hecho : is.getD 1 [] = bytes (hashBytes 32 p.echo)) (hts : is.getD 2 [] = nat p.ts.toNat) :
    Reads d is q.interpretRLP (.ok { q with destination := p.destination.withoutScope, echo := p.echo, ts := p.ts }) := by
  have hread : Reads d is q.interpretRLP (.ok { q with
      destination := p.destination.withoutScope, echo := p.echo, ts := BitVec.ofNat 32 p.ts.toNat }) :=
    (reads_endpointAt (hitem 0) hdestination).bind_ok ((reads_hashAt (by decide) (hitem 1) hecho).bind_ok
      ((reads_intAt p.ts.isLt (by decide) (hitem 2) hts).bind_ok (.pure _)))
  rw [BitVec.ofNat_toNat, BitVec.setWidth_eq] at hread
  exact hread

theorem reads_findNode {p q : FindNode} (htarget : is.getD 0 [] = bytes (hashBytes 64 p.target))
    (hts : is.getD 1 [] = nat p.ts.toNat) : Reads d is q.interpretRLP (.ok { q with target := p.target, ts := p.ts }) := by
  have hread : Reads d is q.interpretRLP (.ok { q with target := p.target, ts := BitVec.ofNat 32 p.ts.toNat }) :=
    (reads_hashAt (by decide) (hitem 0) htarget).bind_ok ((reads_intAt p.ts.isLt (by decide) (hitem 1) hts).bind_ok (.pure _))
  rw [BitVec.ofNat_toNat, BitVec.setWidth_eq] at hread
  exact hread

theorem reads_neighbours {p q : Neighbours} (hns : (Tree.list (p.neighbours.map Neighbour.tree)).Fits)
    (hneighbours : is.getD 0 [] = (Tree.list (p.neighbours.map Neighbour.tree)).encode)
    (hts : is.getD 1 [] = nat p.ts.toNat) : Reads d is q.interpretRLP (.ok { q with
      neighbours := q.neighbours ++ p.neighbours.map Neighbour.withoutScope, ts := p.ts }) := by
  have hread : Reads d is q.interpretRLP (.ok { q with
      neighbours := q.neighbours ++ p.neighbours.map Neighbour.withoutScope, ts := BitVec.ofNat 32 p.ts.toNat }) :=
    (reads_neighboursAt hns (hitem 0) hneighbours).bind_ok
      ((reads_intAt p.ts.isLt (by decide) (hitem 1) hts).bind_ok (.pure _))
  rw [BitVec.ofNat_toNat, BitVec.setWidth_eq] at hread
  exact hread

end Packets

/-! ### Round trips -/

theorem interpretBody_encode {α : Type} {x : M α} {a : α} {ts : List Tree}
    (h : Reads (Tree.list ts).encode (ts.map Tree.encode) x (.ok a)) : interpretBody x (Tree.list ts).encode = .ok a := h.eval

/-- A body is read as what it has been written from. -/
theorem interpretType_encode (h : p.Fits) (sourceid : Public) (echo : FixedHash 32) :
    interpretType p.packetType { sourceid, echo } (Tree.list p.parts).encode = .ok (some (p.received sourceid echo)) := by
  have hitem := reads_item (fits_packet h)
  cases p with
  | pingNode p =>
    have hread := reads_pingNode (p := p) (q := { sourceid, echo }) hitem List.getD_cons_zero
      (List.getD_cons_succ.trans List.getD_cons_zero)
        (List.getD_cons_succ.trans (List.getD_cons_succ.trans List.getD_cons_zero))
      (List.getD_cons_succ.trans (List.getD_cons_succ.trans (List.getD_cons_succ.trans List.getD_cons_zero)))
    show interpretType 1 _ _ = _
    rw [interpretType, if_pos rfl, interpretBody_encode hread]
    rfl
  | pong p =>
    have hread := reads_pong (p := p) (q := { sourceid, echo }) hitem List.getD_cons_zero
      (List.getD_cons_succ.trans List.getD_cons_zero)
        (List.getD_cons_succ.trans (List.getD_cons_succ.trans List.getD_cons_zero))
    show interpretType 2 _ _ = _
    rw [interpretType, if_neg (by decide), if_pos rfl, interpretBody_encode hread]
    rfl
  | findNode p =>
    have hread := reads_findNode (p := p) (q := { sourceid, echo }) hitem List.getD_cons_zero
      (List.getD_cons_succ.trans List.getD_cons_zero)
    show interpretType 3 _ _ = _
    rw [interpretType, if_neg (by decide), if_neg (by decide), if_pos rfl, interpretBody_encode hread]
    rfl
  | neighbours p =>
    have hread := reads_neighbours (p := p) (q := { sourceid, echo }) hitem (fits_neighbours h) List.getD_cons_zero
      (List.getD_cons_succ.trans List.getD_cons_zero)
    show interpretType 4 _ _ = _
    rw [interpretType, if_neg (by decide), if_neg (by decide), if_neg (by decide), if_pos rfl, interpretBody_encode hread]
    rfl

theorem length_encode (h : p.Fits) : 3 ≤ (Tree.list p.parts).encode.length := by
  have hitems : 2 ≤ (p.parts.map Tree.encode).length := by cases p <;> simp [Packet.parts]
  have hpayload := length_le_of_splits (splits_payload (fits_packet h))
  have hhead : 0 < (head 0xc0 (Tree.payload p.parts).length).length := List.length_pos_iff.2 head_ne_nil
  rw [Tree.encode, List.length_append]
  omega

/-- What is sent -/
theorem sign_eq (c : DevCrypto R) (h : p.Fits) (k : Secret) : p.sign c k =
    .ok (hashBytes 32 (c.sha3 (hashBytes 65 (c.sign k (c.sha3 (p.packetType :: (Tree.list p.parts).encode))) ++
      p.packetType :: (Tree.list p.parts).encode)) ++
      (hashBytes 65 (c.sign k (c.sha3 (p.packetType :: (Tree.list p.parts).encode))) ++
      p.packetType :: (Tree.list p.parts).encode)) := by
  rw [Packet.sign, rlpx_eq h]
  rfl

/-- The parts of a packet that is long enough -/
theorem interpretUDP_eq (hbody : 3 ≤ body.length) (hash : FixedHash 32) (sig : Signature) (packetType : UInt8) :
    interpretUDP c (hashBytes 32 hash ++ (hashBytes 65 sig ++ packetType :: body)) =
      if hashBytes 32 hash ≠ hashBytes 32 (c.sha3 (hashBytes 65 sig ++ packetType :: body)) then pure none
      else if c.recover sig (c.sha3 (packetType :: body)) = 0 then pure none
      else interpretType packetType { sourceid := c.recover sig (c.sha3 (packetType :: body))
                                      echo := c.sha3 (hashBytes 65 sig ++ packetType :: body) } body := by
  have hlength : (hashBytes 32 hash ++ (hashBytes 65 sig ++ packetType :: body)).length =
      32 + (65 + (body.length + 1)) := by simp
  have hrest : cropped (hashBytes 32 hash ++ (hashBytes 65 sig ++ packetType :: body)) 32
      ((hashBytes 32 hash ++ (hashBytes 65 sig ++ packetType :: body)).length - 32) = hashBytes 65 sig ++
        packetType :: body :=
    cropped_rest hash _
  have hsig : cropped (hashBytes 32 hash ++ (hashBytes 65 sig ++ packetType :: body)) 32 65 = hashBytes 65 sig :=
    (cropped_append (length_hashBytes hash) le_rfl).trans (cropped_first sig _)
  have hdrop : (hashBytes 32 hash ++ (hashBytes 65 sig ++ packetType :: body)).drop (32 + 65 + 1) = body := by
    rw [Nat.add_assoc, ← List.drop_drop, drop_hashBytes, ← List.drop_drop, drop_hashBytes]
    rfl
  unfold interpretUDP
  dsimp only
  rw [if_neg (by omega), hrest, cropped_rest, hsig, hdrop, cropped_first, ofRef_hashBytes]
  rfl

/-- What a sender whose key is good has signed comes out again. -/
theorem interpretUDP_sign (h : p.Fits) (hrecover : ∀ k h, c.recover (c.sign k h) h = c.toPublic k)
    (hk : c.toPublic k ≠ 0) :
    ∃ data, p.sign c k = .ok data ∧ interpretUDP c data = .ok (some (p.received (c.toPublic k) (c.sha3 (data.drop 32)))) := by
  refine ⟨_, sign_eq c h k, ?_⟩
  rw [drop_hashBytes, interpretUDP_eq (length_encode h), hrecover, if_neg (not_not_intro rfl), if_neg hk]
  exact interpretType_encode h _ _

/-! ### What has been accepted -/

/-- `interpretRLP` sets no sender. -/
theorem returns_pingNode (p : PingNode) : Wp.Returns (·.sourceid = p.sourceid) p.interpretRLP :=
  .bind_right fun _ => .bind_right fun _ => .bind_right fun _ => .bind_right fun _ => .pure rfl

theorem returns_pong (p : Pong) : Wp.Returns (·.sourceid = p.sourceid) p.interpretRLP :=
  .bind_right fun _ => .bind_right fun _ => .bind_right fun _ => .pure rfl

theorem returns_findNode (p : FindNode) : Wp.Returns (·.sourceid = p.sourceid) p.interpretRLP :=
  .bind_right fun _ => .bind_right fun _ => .pure rfl

theorem returns_neighbours (p : Neighbours) : Wp.Returns (·.sourceid = p.sourceid) p.interpretRLP :=
  .bind_right fun _ => .bind_right fun _ => .pure rfl

theorem interpretBody_returns {α : Type} {x : M α} {P : α → Prop} {a : α} (hx : Wp.Returns P x)
    (h : interpretBody x body = .ok a) : P a := by
  obtain ⟨r, -, heval⟩ := bind_eq_ok_iff.1 h
  rw [Wp.eval] at heval
  split at heval
  next r' hrun =>
    cases heval
    exact hx _ _ _ hrun
  · cases heval

/-- A packet that comes out is of the type and of the sender that are given. -/
theorem of_interpretType {packetType : UInt8} {received : DiscoveryDatagram}
    (h : interpretType packetType received body = .ok (some p)) :
    p.packetType = packetType ∧ p.datagram.sourceid = received.sourceid := by
  unfold interpretType at h
  split_ifs at h with h₁ h₂ h₃ h₄
  · obtain ⟨q, hq, heq⟩ := bind_eq_ok_iff.1 h
    cases heq
    have hsourceid := interpretBody_returns (returns_pingNode _) hq
    exact ⟨h₁.symm, hsourceid⟩
  · obtain ⟨q, hq, heq⟩ := bind_eq_ok_iff.1 h
    cases heq
    have hsourceid := interpretBody_returns (returns_pong _) hq
    exact ⟨h₂.symm, hsourceid⟩
  · obtain ⟨q, hq, heq⟩ := bind_eq_ok_iff.1 h
    cases heq
    have hsourceid := interpretBody_returns (returns_findNode _) hq
    exact ⟨h₃.symm, hsourceid⟩
  · obtain ⟨q, hq, heq⟩ := bind_eq_ok_iff.1 h
    cases heq
    have hsourceid := interpretBody_returns (returns_neighbours _) hq
    exact ⟨h₄.symm, hsourceid⟩
  · cases h

/-- Data that begin with the hash of the rest, which is a signature of `sourceid` over a type and a body -/
def SignedBy (c : DevCrypto R) (sourceid : Public) (packetType : UInt8) (data : Bytes) : Prop :=
  ∃ (sig : Signature) (body : Bytes), sourceid ≠ 0 ∧ c.recover sig (c.sha3 (packetType :: body)) = sourceid ∧
    data = hashBytes 32 (c.sha3 (hashBytes 65 sig ++ packetType :: body)) ++ (hashBytes 65 sig ++ packetType :: body)

theorem exists_parts {data : Bytes} (h : 32 + 65 + 1 + 3 ≤ data.length) :
    ∃ (hash : FixedHash 32) (sig : Signature) (packetType : UInt8) (body : Bytes), 3 ≤ body.length ∧
      data = hashBytes 32 hash ++ (hashBytes 65 sig ++ packetType :: body) := by
  obtain ⟨hash, hashed, hdata⟩ := exists_hashBytes_append 32 (b := data) (by omega)
  have hlen : data.length = 32 + hashed.length := by rw [hdata, List.length_append, length_hashBytes]
  obtain ⟨sig, signed, hhashed⟩ := exists_hashBytes_append 65 (b := hashed) (by omega)
  have hlen' : hashed.length = 65 + signed.length := by rw [hhashed, List.length_append, length_hashBytes]
  obtain ⟨packetType, body, hsigned⟩ := List.exists_cons_of_length_pos (l := signed) (by omega)
  have hlen'' : signed.length = body.length + 1 := by rw [hsigned, List.length_cons]
  exact ⟨hash, sig, packetType, body, by omega, by rw [hdata, hhashed, hsigned]⟩

theorem signed_of_interpretUDP {data : Bytes} (h : interpretUDP c data = .ok (some p)) :
    SignedBy c p.datagram.sourceid p.packetType data := by
  by_cases hlong : data.length < 32 + 65 + 1 + 3
  · rw [interpretUDP, if_pos hlong] at h
    cases h
  obtain ⟨hash, sig, packetType, body, hbody, hdata⟩ := exists_parts (Nat.not_lt.1 hlong)
  rw [hdata, interpretUDP_eq hbody] at h
  split_ifs at h with hhash hne
  · cases h
  · cases h
  obtain ⟨htype, hsourceid⟩ := of_interpretType h
  rw [htype, hsourceid]
  exact ⟨sig, body, hne, rfl, by rw [hdata, not_not.1 hhash]⟩

/-- Packets come out from their senders, with the fields that are sent, and those that come out have been signed by them. -/
theorem survives (c : DevCrypto R) (hrecover : ∀ k h, c.recover (c.sign k h) h = c.toPublic k) :
    (∀ (p : Packet) (k : Secret), p.Fits → c.toPublic k ≠ 0 →
      ∃ data, p.sign c k = .ok data ∧ interpretUDP c data = .ok (some (p.received (c.toPublic k) (c.sha3 (data.drop 32))))) ∧
    ∀ (data : Bytes) (p : Packet), interpretUDP c data = .ok (some p) → SignedBy c p.datagram.sourceid p.packetType data :=
  ⟨fun _ _ h hk => interpretUDP_sign h hrecover hk, fun _ _ => signed_of_interpretUDP⟩

/-! ### Keys in the clear -/

def bare : DevCrypto Unit where
  toPublic k := k.setWidth _
  agree k k' := some (k ^^^ k'.setWidth _)
  sign k _ := k.setWidth _
  recover sig _ := sig.setWidth _
  sha3 b := BitVec.ofNat _ (BigEndian.ofBytes b)
  encryptECIES _ _ plain _ := plain
  decryptECIES _ _ cipher := some cipher

theorem recover_bare (k : Secret) (h : FixedHash 32) : bare.recover (bare.sign k h) h = bare.toPublic k := by
  show ((k.setWidth (8 * 65)).setWidth (8 * 64) : Public) = k.setWidth (8 * 64)
  simp

/-- An answer with a neighbour -/
def offer : Packet :=
  .neighbours { ts := 5, neighbours := [⟨⟨.v6 1 2, 30303, 30304⟩, 9⟩] }

theorem survives_offer : ∃ data p, offer.sign bare 7 = .ok data ∧ interpretUDP bare data = .ok (some p) ∧
    p = offer.received (bare.toPublic 7) (bare.sha3 (data.drop 32)) ∧
    SignedBy bare p.datagram.sourceid p.packetType data := by
  obtain ⟨hround, hsigned⟩ := survives bare recover_bare
  obtain ⟨data, hsign, hread⟩ := hround offer 7 (show 1 < 2 ^ 57 by decide) (by decide +kernel)
  exact ⟨data, _, hsign, hread, rfl, hsigned data _ hread⟩

/-- A ping is not received with the version that it has. -/
theorem not_survives : ¬ ∀ c : DevCrypto Unit, (∀ k h, c.recover (c.sign k h) h = c.toPublic k) →
    ∀ (p : PingNode) (k : Secret), ∃ data q, (Packet.pingNode p).sign c k = .ok data ∧
      interpretUDP c data = .ok (some (.pingNode q)) ∧ q.version = p.version ∧ q.source = p.source ∧
      q.destination = p.destination ∧ q.ts = p.ts ∧ q.sourceid = c.toPublic k := by
  intro h
  obtain ⟨data, q, hsign, hread, hversion, -⟩ := h bare recover_bare {} 7
  obtain ⟨data', hsign', hread'⟩ := interpretUDP_sign (c := bare) (k := 7) (p := .pingNode {}) trivial
      recover_bare (by decide +kernel)
  rw [hsign', Except.ok.injEq] at hsign
  rw [← hsign, hread', Except.ok.injEq, Option.some_inj, Packet.received, Packet.pingNode.injEq] at hread
  have hne : BitVec.ofNat 32 c_protocolVersion ≠ 0 := by decide
  rw [← hread] at hversion
  exact hne hversion

end Kmdx.P2p.Discovery
