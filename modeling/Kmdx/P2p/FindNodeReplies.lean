import Kmdx.P2p.Discovery
import Mathlib.Algebra.Order.BigOperators.Group.List

/-!
# What is answered to `FindNode` (`NodeTable::onReceived`)

There are 13 nodes in a packet, so that a packet takes up 1280 bytes at most if a node takes up 90; with an IPv6 address and
ports from 256 on it takes up 91, and what is around the nodes can be more than is left.
-/

namespace Kmdx.P2p.Discovery

open Rlp ExceptRules List

def maxDatagramSize : Nat := 1280

def nlimit : Nat := (maxDatagramSize - 109) / 90

/-- `Neighbours(_to, _nearest, _offset, _limit)`, at a time -/
def Neighbours.of (nearest : List Neighbour) (ts : BitVec 32) (offset limit : Nat) : Neighbours :=
  let limit := if limit ≠ 0 then min nearest.length (offset + limit) else nearest.length
  { ts, neighbours := (nearest.take limit).drop offset }

/-- The loop, from an offset on. The times are those at which the packets are made; there are at most 16 nearest nodes, so
the offset does not overflow. -/
def findNodeReplies (nearest : List Neighbour) (ts : Nat → BitVec 32) (offset : Nat) : List Neighbours :=
  if offset < nearest.length then
    .of nearest (ts offset) offset nlimit :: findNodeReplies nearest ts (offset + nlimit)
  else []
termination_by nearest.length - offset
decreasing_by
  have hlimit : nlimit = 13 := rfl
  omega

/-- The nodes are in the packets, in order, and each packet fits. -/
structure RepliesFit {R : Type} (c : DevCrypto R) (k : Secret) (nearest : List Neighbour) (ts : Nat → BitVec 32) : Prop where
  nodes : (findNodeReplies nearest ts 0).flatMap Neighbours.neighbours = nearest
  fits : ∀ p ∈ findNodeReplies nearest ts 0, ∃ d, (Packet.neighbours p).sign c k = .ok d ∧ d.length ≤ maxDatagramSize

/-! ### Sizes -/

/-- How long an integer is. -/
def intSize (n : Nat) : Nat := if n < 128 then 1 else Nat.log 256 n + 2

/-- How long an address is. -/
def Address.size : Address → Nat
  | .v4 _ => 5
  | .v6 _ _ => 17

/-- How long a node is. -/
def Neighbour.size (n : Neighbour) : Nat :=
  68 + n.endpoint.address.size + intSize n.endpoint.udpPort.toNat + intSize n.endpoint.tcpPort.toNat

variable {n len off : Nat} {b : Bytes}

theorem length_compact (h : n ≠ 0) : (compact n).length = Nat.log 256 n + 1 := by
  rw [compact, length_reverse, length_map, Nat.length_digits 256 n (by decide) h]

theorem length_head (h : 56 ≤ len) : (head off len).length = Nat.log 256 len + 2 := by
  rw [head_of_le h, List.length_cons, length_compact (by omega)]

theorem length_bytes_of_lt (h : 1 < b.length) (h' : b.length < 56) : (bytes b).length = b.length + 1 := by
  match b with
  | [] => exact absurd h (by simp)
  | [x] => exact absurd h (by simp)
  | x :: y :: b =>
    rw [bytes_cons_cons, head_of_lt h', List.length_append, length_singleton, Nat.add_comm]

theorem length_bytes_singleton (x : UInt8) : (bytes [x]).length = if x < 0x80 then 1 else 2 := by
  rw [bytes]
  split
  · rfl
  · rw [head_of_lt (by decide)]
    rfl

theorem length_encode_int (h : n < 2 ^ 32) : (Tree.int n).encode.length = intSize n := by
  rw [Tree.int, Tree.encode]
  rcases Nat.eq_zero_or_pos n with rfl | hpos
  · rw [compact_zero]
    rfl
  · by_cases hbyte : n < 256
    · have hx : UInt8.ofNat n < 0x80 ↔ n < 128 := by
        rw [UInt8.lt_iff_toNat_lt, toNat_ofNat_of_lt hbyte]
        rfl
      rw [compact_of_lt hpos hbyte, length_bytes_singleton, intSize, Nat.log_of_lt hbyte]
      simp only [hx]
    · have hlen := length_compact hpos.ne'
      have hlog : 1 ≤ Nat.log 256 n := Nat.log_pos (by decide) (not_lt.1 hbyte)
      have hle : (compact n).length ≤ 4 := length_compact_le_iff.2 h
      rw [length_bytes_of_lt (by omega) (by omega), hlen, intSize, if_neg (by omega)]

theorem length_toBytes (a : Address) : (bytes a.toBytes).length = a.size := by
  cases a with
  | v4 b =>
    have hlen : (hashBytes 4 b).length = 4 := length_hashBytes b
    exact (length_bytes_of_lt (hlen ▸ by decide) (hlen ▸ by decide)).trans (congrArg (· + 1) hlen)
  | v6 b scopeId =>
    have hlen : (hashBytes 16 b).length = 16 := length_hashBytes b
    exact (length_bytes_of_lt (hlen ▸ by decide) (hlen ▸ by decide)).trans (congrArg (· + 1) hlen)

theorem length_node (v : Public) : (bytes (hashBytes 64 v)).length = 66 := by
  have hlen : (hashBytes 64 v).length = 64 := length_hashBytes v
  have hbytes : bytes (hashBytes 64 v) = head 0x80 (hashBytes 64 v).length ++ hashBytes 64 v := by
    rw [bytes]
    intro x hx
    rw [hx] at hlen
    cases hlen
  rw [hbytes, List.length_append, hlen, length_head (by decide), Nat.log_of_lt (by decide)]

theorem intSize_le (h : n < 2 ^ 32) : intSize n ≤ 5 := by
  have hlog : Nat.log 256 n < 4 := Nat.log_lt_of_lt_pow' (by decide) h
  rw [intSize]
  split <;> omega

theorem length_encode_neighbour (n : Neighbour) : n.tree.encode.length = n.size := by
  have hudp : (Tree.int n.endpoint.udpPort.toNat).encode.length = intSize n.endpoint.udpPort.toNat :=
    length_encode_int (n.endpoint.udpPort.isLt.trans (by decide))
  have htcp : (Tree.int n.endpoint.tcpPort.toNat).encode.length = intSize n.endpoint.tcpPort.toNat :=
    length_encode_int (n.endpoint.tcpPort.isLt.trans (by decide))
  have hpayload : (Tree.payload n.parts).length =
      n.endpoint.address.size + intSize n.endpoint.udpPort.toNat + intSize n.endpoint.tcpPort.toNat + 66 := by
    simp only [Neighbour.parts, NodeIPEndpoint.parts, cons_append, nil_append, Tree.payload_cons, Tree.payload_nil,
      List.length_append, length_nil, hudp, htcp, Tree.encode, length_toBytes, length_node]
    omega
  have hle := length_neighbour_le n
  have hhead : (head 0xc0 (Tree.payload n.parts).length).length = 2 := by
    rw [length_head (by omega), Nat.log_of_lt (by omega)]
  rw [Neighbour.tree, Tree.encode, List.length_append, hhead, hpayload, Neighbour.size]
  omega

theorem length_payload (ns : List Neighbour) : (Tree.payload (ns.map Neighbour.tree)).length =
    (ns.map Neighbour.size).sum := by
  induction ns with
  | nil => simp
  | cons n ns ih => rw [map_cons, Tree.payload_cons, List.length_append, ih, length_encode_neighbour, map_cons, sum_cons]

theorem length_head_le_three (h : len < 256 ^ 2) : (head off len).length ≤ 3 := by
  have hlog : Nat.log 256 len < 2 := Nat.log_lt_of_lt_pow' (by decide) h
  by_cases hshort : len < 56
  · rw [head_of_lt hshort]
    exact Nat.le_add_left 1 2
  · rw [length_head (not_lt.1 hshort)]
    omega

theorem three_le_length_head (h : 256 ≤ len) : 3 ≤ (head off len).length := by
  have hlog : 1 ≤ Nat.log 256 len := Nat.log_pos (by decide) h
  rw [length_head (by omega)]
  omega

/-- The two heads take up three bytes each, if it is about to be too much. -/
theorem length_list_le_iff {ns : List Neighbour} {t : Nat} (ht : t < 2 ^ 32) :
    (Tree.list [.list (ns.map Neighbour.tree), .int t]).encode.length ≤ 1182 ↔
      (ns.map Neighbour.size).sum + intSize t ≤ 1176 := by
  have hinner : (Tree.list (ns.map Neighbour.tree)).encode.length =
      (head 0xc0 (ns.map Neighbour.size).sum).length + (ns.map Neighbour.size).sum := by
    rw [Tree.encode, List.length_append, length_payload]
  rw [Tree.encode, List.length_append]
  simp only [Tree.payload_cons, Tree.payload_nil, List.length_append, length_nil, hinner, length_encode_int ht]
  generalize (ns.map Neighbour.size).sum = nodes
  have hsize := intSize_le ht
  constructor
  · intro hle
    by_contra hgt
    have hnodes : 3 ≤ (head 0xc0 nodes).length := three_le_length_head (by omega)
    have houter : 3 ≤ (head 0xc0 ((head 0xc0 nodes).length + nodes + (intSize t + 0))).length :=
        three_le_length_head (by omega)
    omega
  · intro hle
    have hnodes : (head 0xc0 nodes).length ≤ 3 := length_head_le_three (by omega)
    have houter : (head 0xc0 ((head 0xc0 nodes).length + nodes + (intSize t + 0))).length ≤
        3 := length_head_le_three (by omega)
    omega

/-! ### Packets -/

variable {R : Type} {c : DevCrypto R} {k : Secret} {nearest : List Neighbour} {ts : Nat → BitVec 32} {offset : Nat}

theorem sign_le_iff {p : Neighbours} (hlen : p.neighbours.length < 2 ^ 57) :
    (∃ d, (Packet.neighbours p).sign c k = .ok d ∧ d.length ≤ maxDatagramSize) ↔
      (p.neighbours.map Neighbour.size).sum + intSize p.ts.toNat ≤ 1176 := by
  have hsign := sign_eq c (p := .neighbours p) hlen k
  rw [hsign, ← length_list_le_iff p.ts.isLt]
  simp only [Except.ok.injEq, exists_eq_left', List.length_append, List.length_cons, length_hashBytes, Packet.parts]
  have hmax : maxDatagramSize = 1280 := rfl
  omega

theorem neighbours_of (nearest : List Neighbour) (t : BitVec 32) (offset : Nat) :
    (Neighbours.of nearest t offset nlimit).neighbours = (nearest.drop offset).take nlimit := by
  have hlimit : nlimit ≠ 0 := by decide
  rw [Neighbours.of]
  simp only [hlimit, ne_eq, not_false_eq_true, if_true]
  rw [drop_take, take_eq_take_iff, length_drop]
  omega

theorem flatMap_findNodeReplies : (findNodeReplies nearest ts offset).flatMap Neighbours.neighbours =
    nearest.drop offset := by
  induction offset using findNodeReplies.induct nearest with
  | case1 offset hlt ih =>
    rw [findNodeReplies, if_pos hlt, flatMap_cons, ih, neighbours_of, ← drop_drop, take_append_drop]
  | case2 offset hge =>
    rw [findNodeReplies, if_neg hge, drop_eq_nil_of_le (not_lt.1 hge), flatMap_nil]

theorem forall_findNodeReplies_iff {P : Neighbours → Prop} : (∀ p ∈ findNodeReplies nearest ts offset, P p) ↔
    ∀ i, offset + nlimit * i < nearest.length → P (.of nearest (ts (offset + nlimit * i)) (offset + nlimit * i) nlimit) := by
  induction offset using findNodeReplies.induct nearest with
  | case1 offset hlt ih =>
    rw [findNodeReplies, if_pos hlt, forall_mem_cons, ih]
    constructor
    · rintro ⟨hfirst, hrest⟩ i hi
      cases i with
      | zero => exact hfirst
      | succ i =>
        have hadd : offset + nlimit * (i + 1) = offset + nlimit + nlimit * i := by ring
        rw [hadd] at hi ⊢
        exact hrest i hi
    · intro h
      refine ⟨h 0 hlt, fun i hi => ?_⟩
      have hadd : offset + nlimit + nlimit * i = offset + nlimit * (i + 1) := by ring
      rw [hadd] at hi ⊢
      exact h (i + 1) hi
  | case2 offset hge =>
    rw [findNodeReplies, if_neg hge]
    exact iff_of_true (by simp) fun i hi => absurd (Nat.lt_of_le_of_lt (Nat.le_add_right _ _) hi) hge

theorem fits_iff : (∀ p ∈ findNodeReplies nearest ts 0, ∃ d,
    (Packet.neighbours p).sign c k = .ok d ∧ d.length ≤ maxDatagramSize) ↔ ∀ i, nlimit * i < nearest.length →
      (((nearest.drop (nlimit * i)).take nlimit).map Neighbour.size).sum + intSize (ts (nlimit * i)).toNat ≤ 1176 := by
  rw [forall_findNodeReplies_iff]
  refine forall_congr' fun i => ?_
  rw [Nat.zero_add]
  refine imp_congr_right fun _ => ?_
  have hlen : (Neighbours.of nearest (ts (nlimit * i)) (nlimit * i) nlimit).neighbours.length < 2 ^ 57 := by
    rw [neighbours_of]
    exact (length_take_le _ _).trans_lt (by decide)
  rw [sign_le_iff hlen, neighbours_of]
  rfl

/-- The answers fit exactly if in each 13 nodes there is room for the time. -/
theorem repliesFit_iff (c : DevCrypto R) (k : Secret) (nearest : List Neighbour) (ts : Nat → BitVec 32) :
    RepliesFit c k nearest ts ↔ ∀ i, nlimit * i < nearest.length →
      (((nearest.drop (nlimit * i)).take nlimit).map Neighbour.size).sum + intSize (ts (nlimit * i)).toNat ≤ 1176 :=
  ⟨fun h => fits_iff.1 h.fits, fun h => ⟨flatMap_findNodeReplies, fits_iff.2 h⟩⟩

/-- A node with an IPv6 address, at port 30303 -/
def nodeV6 : Neighbour where
  endpoint := { address := .v6 1 0, udpPort := 30303, tcpPort := 30303 }
  node := 1

theorem size_nodeV6 : nodeV6.size = 91 := by
  have hlog : Nat.log 256 30303 = 1 := (Nat.log_eq_iff (.inl one_ne_zero)).2 (by norm_num)
  have hport : intSize 30303 = 3 := by rw [intSize, if_neg (by decide), hlog]
  show 68 + 17 + intSize 30303 + intSize 30303 = 91
  rw [hport]

/-- Thirteen of them are too much. -/
theorem not_repliesFit : ¬ RepliesFit bare 1 (List.replicate 13 nodeV6) (fun _ => 1530000000) := by
  intro h
  have hfits := fits_iff.1 h.fits 0 (by decide)
  have htake : ((List.replicate 13 nodeV6).drop (nlimit * 0)).take nlimit = List.replicate 13 nodeV6 := rfl
  rw [htake, map_replicate, size_nodeV6, sum_replicate] at hfits
  have hmul : 13 • 91 = 1183 := rfl
  omega

end Kmdx.P2p.Discovery
