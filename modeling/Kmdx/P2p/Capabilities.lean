import Kmdx.Lib.RemoveIf
import Kmdx.Lib.SortedMap
import Kmdx.P2p.Frames
import Mathlib.Data.Prod.Lex
import Mathlib.Order.CompletePartialOrder

/-!
# Capabilities

Each side leaves of the other's capabilities the ones it has too, in their highest version, and lays their packet types one
after another. Both lists are in the order of `std::map`, so both sides come to the same (`Host.negotiated_comm`).
-/

namespace Kmdx.P2p.Capabilities

open Rlp
open List hiding Disjoint

/-- `std::string`, compared by bytes -/
abbrev CapName := List (Fin 256)

structure CapDesc where
  name : CapName
  version : Nat
deriving DecidableEq, Repr

namespace CapDesc

variable {d e : CapDesc}

/-- The order of `std::pair` -/
instance : LinearOrder CapDesc :=
  LinearOrder.lift' (fun d => toLex (d.name, d.version)) fun d e h => by
    cases d
    cases e
    cases h
    rfl

theorem lt_iff : d < e ↔ d.name < e.name ∨ d.name = e.name ∧ d.version < e.version := Prod.Lex.toLex_lt_toLex

/-- A descriptor after `std::move`: the string is left empty, the number as it is. -/
def moved (d : CapDesc) : CapDesc := ⟨[], d.version⟩

end CapDesc

def protocolVersion : UInt32 := 4

def userPacket : UInt32 := 0x10

inductive DisconnectReason
  | disconnectRequested | tcpError | badProtocol | uselessPeer | tooManyPeers | duplicatePeer | incompatibleProtocol
  | nullIdentity | clientQuit | unexpectedIdentity | localIdentity | pingTimeout | userReason | noDisconnect
deriving DecidableEq, Repr

/-! ### Sessions -/

/-- The host's side of a capability -/
structure HostCapability where
  messageCount : UInt32
deriving DecidableEq, Repr

structure Capability where
  hostCapability : HostCapability
  idOffset : UInt32
  enabled : Bool := true
deriving DecidableEq, Repr

/-- `Capability::prep`, with the list behind it -/
def Capability.prep (c : Capability) (id : UInt32) (body : Bytes) : Bytes := (id + c.idOffset).toUInt8 :: body

structure Session where
  capabilities : SortedMap CapDesc Capability := ∅
  isConnected : Bool := true

/-- Who a packet goes to. -/
inductive Reader
  | session (packetType : UInt32) (body : Bytes)
  | capability (desc : CapDesc) (id : UInt32) (body : Bytes)
  | disabled (desc : CapDesc)
  | nobody
deriving DecidableEq

namespace Session

def registerCapability (s : Session) (desc : CapDesc) (p : Capability) : Session :=
  { s with capabilities := s.capabilities.insert desc p }

/-- Whether packet type `t` is one of the capability's. -/
def isFor (t : UInt32) (c : Capability) : Bool :=
  c.idOffset.toInt32 ≤ t.toInt32 && t - c.idOffset < c.hostCapability.messageCount

def readPacket (s : Session) (packet : Handed) : Reader :=
  let t := UInt32.ofNat packet.packetType
  if packet.capId = 0 ∧ t < userPacket then .session t packet.r
  else
    match s.capabilities.entries.find? fun i => isFor t i.2 with
    | some (desc, c) => if c.enabled then .capability desc (t - c.idOffset) packet.r else .disabled desc
    | none => .nobody

end Session

/-! ### Hosts -/

structure Hello (I : Type) where
  protocolVersion : UInt32
  caps : List CapDesc
  id : I

inductive PeerSlotType
  | egress | ingress

structure Host (I : Type) [DecidableEq I] where
  id : I
  capabilities : SortedMap CapDesc HostCapability := ∅
  pin : Bool := false
  requiredPeers : List I := []
  sessions : AList (fun _ : I => Session) := ∅
  pendingPeerConns : Nat := 0
  idealPeerCount : UInt32 := 11
  stretchPeers : UInt32 := 7

/-- What becomes of a peer whose hello was read -/
inductive PeerSession
  | wrongId
  | disconnected (reason : DisconnectReason)
  | started (s : Session)

namespace Host

variable {I : Type} [DecidableEq I]

def addCapability (h : Host I) (p : HostCapability) (desc : CapDesc) : Host I :=
  { h with capabilities := h.capabilities.insert desc p }

def haveCapability (h : Host I) (d : CapDesc) : Bool := (h.capabilities.find? d).isSome

def caps (h : Host I) : List CapDesc := h.capabilities.keys

def hello (h : Host I) : Hello I := ⟨protocolVersion, h.caps, h.id⟩

def peerCount (h : Host I) : Nat := (h.sessions.entries.filter fun i => i.2.isConnected).length

def peerSlots (h : Host I) : PeerSlotType → UInt32
  | .egress => h.idealPeerCount
  | .ingress => h.idealPeerCount * h.stretchPeers

def peerSlotsAvailable (h : Host I) (type : PeerSlotType) :
    Bool := h.peerCount + h.pendingPeerConns < (h.peerSlots type).toNat

/-- Whether `r` goes, with `caps` as they are when it is asked. -/
def superseded (h : Host I) (caps : List CapDesc) (r : CapDesc) : Bool :=
  !h.haveCapability r || caps.any fun o => r.name = o.name && r.version < o.version && h.haveCapability o

/-- leave only highest mutually supported capability version -/
def negotiated (h : Host I) (caps : List CapDesc) : List CapDesc := RemoveIf.keptRangeOn CapDesc.moved h.superseded caps

/-- `none` if a capability is missing. -/
def newPeerCapabilities (h : Host I) : List CapDesc → UInt32 → Session → Option Session
  | [], _, s => some s
  | i :: caps, offset, s =>
    match h.capabilities.find? i with
    | none => none
    | some pcap => h.newPeerCapabilities caps (offset + pcap.messageCount) (s.registerCapability i ⟨pcap, offset, true⟩)

def hasConnected (h : Host I) (id : I) : Bool :=
  match h.sessions.lookup id with
  | some s => s.isConnected
  | none => false

def startPeerSession (h : Host I) (id : I) (hello : Hello I) : Host I × PeerSession :=
  if hello.id ≠ id then (h, .wrongId)
  else
    let caps := h.negotiated hello.caps
    if hello.protocolVersion < protocolVersion - 1 then (h, .disconnected .incompatibleProtocol)
    else if caps = [] then (h, .disconnected .uselessPeer)
    else if h.pin ∧ id ∉ h.requiredPeers then (h, .disconnected .unexpectedIdentity)
    else if h.hasConnected id then (h, .disconnected .duplicatePeer)
    else if ¬ h.peerSlotsAvailable .ingress then (h, .disconnected .tooManyPeers)
    else
      match h.newPeerCapabilities caps userPacket {} with
      | none => (h, .disconnected .incompatibleProtocol)
      | some s => ({ h with sessions := h.sessions.insert id s }, .started s)

end Host

/-! ### What is left of the other's capabilities -/

section
variable {I : Type} [DecidableEq I] {h A B : Host I} {d e : CapDesc} {l pre post seen : List CapDesc}

theorem Host.haveCapability_iff : h.haveCapability d = true ↔ d ∈ h.caps := SortedMap.isSome_find?_iff

theorem Host.pairwise_caps (h : Host I) : h.caps.Pairwise (· < ·) := h.capabilities.pairwise_keys

/-- What stands before a descriptor, or was moved from there, is of no higher version. -/
theorem not_higher (hl : (pre ++ d :: post).Pairwise (· < ·)) (hseen : RemoveIf.Seen CapDesc.moved pre seen) :
    ∀ o ∈ seen, ¬ (d.name = o.name ∧ d.version < o.version) := by
  have hbefore : ∀ o ∈ pre, o < d := fun o ho => (pairwise_append.1 hl).2.2 o ho d mem_cons_self
  rintro o ho ⟨hname, hversion⟩
  rcases hseen o ho with ho | ⟨u, hu, rfl⟩
  · rcases CapDesc.lt_iff.1 (hbefore o ho) with hlt | ⟨-, hlt⟩
    · exact hlt.ne hname.symm
    · exact hlt.asymm hversion
  -- what was moved from has no name, and then `u` has none either
  · have hnil : d.name = [] := hname
    rcases CapDesc.lt_iff.1 (hbefore u hu) with hlt | ⟨-, hlt⟩
    · rw [hnil] at hlt
      exact not_lt_nil _ hlt
    · exact hlt.asymm hversion

theorem Host.superseded_append (hseen : ∀ o ∈ seen, ¬ (d.name = o.name ∧ d.version < o.version)) :
    h.superseded (seen ++ l) d = h.superseded l d := by
  have hnone : (seen.any fun o => d.name = o.name && d.version < o.version && h.haveCapability o) = false := by
    rw [any_eq_false]
    intro o ho
    simp only [Bool.and_eq_true, decide_eq_true_eq]
    exact fun hhigher => hseen o ho hhigher.1
  rw [superseded, superseded, any_append, hnone, Bool.false_or]

theorem Host.negotiated_eq (hl : l.Pairwise (· < ·)) : h.negotiated l = l.filter (!h.superseded l ·) := by
  refine RemoveIf.keptRangeOn_eq fun pre d post seen hsplit hseen => ?_
  subst hsplit
  have hself : RemoveIf.Seen CapDesc.moved pre pre := fun o ho => .inl ho
  rw [superseded_append (not_higher hl hseen), superseded_append (not_higher hl hself)]

/-- A capability that both have, in the highest version that both have -/
structure HighestCommon (A B : Host I) (d : CapDesc) : Prop where
  left : d ∈ A.caps
  right : d ∈ B.caps
  highest : ∀ e, e.name = d.name → e ∈ A.caps → e ∈ B.caps → e.version ≤ d.version

theorem HighestCommon.symm (hd : HighestCommon A B d) : HighestCommon B A d :=
  ⟨hd.right, hd.left, fun e hname hB hA => hd.highest e hname hA hB⟩

theorem Host.mem_negotiated_iff : d ∈ A.negotiated B.caps ↔ HighestCommon A B d := by
  rw [negotiated_eq B.pairwise_caps, mem_filter, superseded, Bool.not_or, Bool.not_not, Bool.and_eq_true,
    haveCapability_iff, Bool.not_eq_true', any_eq_false]
  simp only [Bool.and_eq_true, decide_eq_true_eq, haveCapability_iff]
  constructor
  · rintro ⟨hB, hA, hnone⟩
    exact ⟨hA, hB, fun e hname hA hB => not_lt.1 fun hlt => hnone e hB ⟨⟨hname.symm, hlt⟩, hA⟩⟩
  · intro hd
    exact ⟨hd.right, hd.left, fun e hB ⟨⟨hname, hlt⟩, hA⟩ => (hd.highest e hname.symm hA hB).not_gt hlt⟩

theorem Host.pairwise_negotiated : (A.negotiated B.caps).Pairwise (· < ·) := by
  rw [negotiated_eq B.pairwise_caps]
  exact B.pairwise_caps.filter _

theorem Host.negotiated_comm : A.negotiated B.caps = B.negotiated A.caps := by
  refine pairwise_negotiated.eq_of_mem_iff pairwise_negotiated fun {d} => ?_
  rw [mem_negotiated_iff, mem_negotiated_iff]
  exact ⟨HighestCommon.symm, HighestCommon.symm⟩

end

/-! ### Packet types -/

def Capability.messageCount (c : Capability) : UInt32 := c.hostCapability.messageCount

/-- The packet types of a capability -/
def Capability.ids (c : Capability) : Set Nat := Set.Ico c.idOffset.toNat (c.idOffset.toNat + c.messageCount.toNat)

/-- The capabilities' packet types follow one another from `offset` on. -/
def Laid : UInt32 → List (CapDesc × Capability) → Prop
  | _, [] => True
  | offset, i :: es => i.2.idOffset = offset ∧ Laid (offset + i.2.messageCount) es

/-- No offset is too large for an `unsigned`. -/
def Fits (offset : UInt32) (es : List (CapDesc × Capability)) : Prop :=
  offset.toNat + (es.map fun i => i.2.messageCount.toNat).sum < 2 ^ 32

section
variable {offset t : UInt32} {i j : CapDesc × Capability} {es pre post : List (CapDesc × Capability)}

theorem Fits.head (hfits : Fits offset (i :: es)) :
    (offset + i.2.messageCount).toNat = offset.toNat + i.2.messageCount.toNat := by
  rw [Fits, map_cons, sum_cons] at hfits
  rw [UInt32.toNat_add]
  omega

theorem Fits.tail (hfits : Fits offset (i :: es)) : Fits (offset + i.2.messageCount) es := by
  have hhead := hfits.head
  rw [Fits, map_cons, sum_cons] at hfits
  rw [Fits]
  omega

theorem Laid.offset_le (hlaid : Laid offset es) (hfits : Fits offset es) (hi : i ∈ es) :
    offset.toNat ≤ i.2.idOffset.toNat := by
  induction es generalizing offset with
  | nil => cases hi
  | cons j es ih =>
    rcases mem_cons.1 hi with rfl | hi
    · exact (congrArg UInt32.toNat hlaid.1).ge
    · have hle := ih hlaid.2 hfits.tail hi
      have hhead := hfits.head
      omega

theorem Laid.pairwise (hlaid : Laid offset es) (hfits : Fits offset es) :
    es.Pairwise fun i j => i.2.idOffset.toNat + i.2.messageCount.toNat ≤ j.2.idOffset.toNat := by
  induction es generalizing offset with
  | nil => exact .nil
  | cons i es ih =>
    refine pairwise_cons.2 ⟨fun j hj => ?_, ih hlaid.2 hfits.tail⟩
    have hle := hlaid.2.offset_le hfits.tail hj
    rw [hfits.head] at hle
    rwa [hlaid.1]

theorem Laid.disjoint (hlaid : Laid offset es) (hfits : Fits offset es) :
    es.Pairwise fun i j => Disjoint i.2.ids j.2.ids := by
  refine (hlaid.pairwise hfits).imp fun hle => ?_
  rw [Set.disjoint_left]
  intro t hi hj
  exact absurd (hi.2.trans_le hle) hj.1.not_gt

theorem toInt_toInt32 {n : UInt32} (hn : n.toNat < 2 ^ 31) : n.toInt32.toInt = n.toNat := by
  rw [← Int32.toInt_toBitVec, UInt32.toBitVec_toInt32, BitVec.toInt_eq_toNat_of_lt, UInt32.toNat_toBitVec]
  rw [UInt32.toNat_toBitVec]
  omega

theorem Session.isFor_of_mem {c : Capability} {k : UInt32} (hk : k < c.messageCount)
    (hsmall : c.idOffset.toNat + k.toNat < 0x80) : Session.isFor (k + c.idOffset) c = true := by
  have hsum : (k + c.idOffset).toNat = c.idOffset.toNat + k.toNat := by
    rw [UInt32.toNat_add]
    omega
  have hle : c.idOffset.toInt32 ≤ (k + c.idOffset).toInt32 := by
    rw [Int32.le_iff_toInt_le, toInt_toInt32 (by omega), toInt_toInt32 (by omega)]
    omega
  rw [isFor, Bool.and_eq_true, decide_eq_true_eq, decide_eq_true_eq]
  refine ⟨hle, ?_⟩
  rwa [UInt32.add_sub_cancel]

theorem Session.not_isFor {c : Capability} (hle : c.idOffset.toNat + c.messageCount.toNat ≤ t.toNat) :
    Session.isFor t c = false := by
  have hsub : (t - c.idOffset).toNat = t.toNat - c.idOffset.toNat := by
    apply UInt32.toNat_sub_of_le
    rw [UInt32.le_iff_toNat_le]
    omega
  rw [isFor, Bool.and_eq_false_iff]
  right
  rw [decide_eq_false_iff_not, UInt32.lt_iff_toNat_lt, hsub]
  have hcount : c.hostCapability.messageCount.toNat = c.messageCount.toNat := rfl
  omega

/-- A capability's packet types are found to be its own. -/
theorem Session.find?_isFor {k : UInt32} (hlaid : Laid offset es) (hfits : Fits offset es) (hi : i ∈ es)
    (hk : k < i.2.messageCount) (hsmall : i.2.idOffset.toNat + k.toNat < 0x80) :
    es.find? (fun j => Session.isFor (k + i.2.idOffset) j.2) = some i := by
  obtain ⟨pre, post, rfl⟩ := append_of_mem hi
  refine List.find?_eq_some_iff_append.2 ⟨isFor_of_mem hk hsmall, pre, post, rfl, fun j hj => ?_⟩
  have hle := (pairwise_append.1 (hlaid.pairwise hfits)).2.2 j hj i mem_cons_self
  rw [not_isFor, Bool.not_false]
  rw [UInt32.toNat_add]
  omega

end

/-! ### Opening a session -/

section
variable {I : Type} [DecidableEq I] {h A B : Host I} {offset : UInt32} {ds : List CapDesc}
    {es es' : List (CapDesc × Capability)}
  {s s' : Session}

/-- `es` are capabilities of the host for the descriptors, one after another. -/
structure Opened (h : Host I) (offset : UInt32) (ds : List CapDesc) (es : List (CapDesc × Capability)) : Prop where
  descs : es.map Prod.fst = ds
  laid : Laid offset es
  own : ∀ i ∈ es, h.capabilities.find? i.1 = some i.2.hostCapability
  enabled : ∀ i ∈ es, i.2.enabled = true

theorem Opened.of_newPeerCapabilities (hds : ds.Pairwise (· < ·)) (hbefore : ∀ i ∈ s.capabilities.entries, ∀ d ∈ ds, i.1 < d)
    (hnew : h.newPeerCapabilities ds offset s = some s') :
    ∃ es, s'.capabilities.entries = s.capabilities.entries ++ es ∧ Opened h offset ds es := by
  induction ds generalizing offset s with
  | nil =>
    cases hnew
    exact ⟨[], (append_nil _).symm, rfl, trivial, fun _ hi => (nomatch hi), fun _ hi => (nomatch hi)⟩
  | cons d ds ih =>
    rw [Host.newPeerCapabilities] at hnew
    split at hnew
    · cases hnew
    rename_i pcap hfind
    obtain ⟨hlt, hds⟩ := pairwise_cons.1 hds
    have hentries : (s.registerCapability d ⟨pcap, offset, true⟩).capabilities.entries =
        s.capabilities.entries ++ [(d, ⟨pcap, offset, true⟩)] :=
      SortedMap.entries_insert_of_gt fun i hi => hbefore i hi d mem_cons_self
    obtain ⟨es, hes, hopened⟩ := ih hds (fun i hi e he => by
      rw [hentries, mem_append, mem_singleton] at hi
      rcases hi with hi | rfl
      · exact hbefore i hi e (mem_cons_of_mem _ he)
      · exact hlt e he) hnew
    rw [hentries, append_assoc] at hes
    refine ⟨_, hes, ?_, ⟨rfl, hopened.laid⟩, fun i hi => ?_, fun i hi => ?_⟩
    · rw [singleton_append, map_cons, hopened.descs]
    · rcases mem_cons.1 hi with rfl | hi
      · exact hfind
      · exact hopened.own i hi
    · rcases mem_cons.1 hi with rfl | hi
      · rfl
      · exact hopened.enabled i hi

/-- How many messages a capability has depends on its name and version only. -/
def SameCounts (A B : Host I) : Prop :=
  ∀ d p q, A.capabilities.find? d = some p → B.capabilities.find? d = some q → p.messageCount = q.messageCount

theorem Opened.unique (hcounts : SameCounts A B) (hA : Opened A offset ds es) (hB : Opened B offset ds es') : es = es' := by
  induction es generalizing offset ds es' with
  | nil =>
    have hnil : es'.map Prod.fst = [] := hB.descs.trans hA.descs.symm
    exact (map_eq_nil_iff.1 hnil).symm
  | cons i es ih =>
    obtain ⟨d, c⟩ := i
    cases es' with
    | nil => exact absurd (hA.descs.trans hB.descs.symm) (cons_ne_nil _ _)
    | cons j es' =>
      obtain ⟨d', c'⟩ := j
      have hds := hA.descs.trans hB.descs.symm
      rw [map_cons, map_cons, cons_eq_cons] at hds
      obtain ⟨rfl, hrest⟩ := hds
      have hcount := hcounts d _ _ (hA.own _ mem_cons_self) (hB.own _ mem_cons_self)
      have hc : c = c' := by
        have hoffset : c.idOffset = c'.idOffset := hA.laid.1.trans hB.laid.1.symm
        have henabled : c.enabled = c'.enabled :=
          (hA.enabled _ mem_cons_self).trans (hB.enabled _ mem_cons_self).symm
        obtain ⟨⟨n⟩, o, b⟩ := c
        obtain ⟨⟨n'⟩, o', b'⟩ := c'
        cases hcount
        cases hoffset
        cases henabled
        rfl
      subst hc
      have hA' : Opened A (offset + c.messageCount) (es.map Prod.fst) es :=
        ⟨rfl, hA.laid.2, fun i hi => hA.own i (mem_cons_of_mem _ hi), fun i hi => hA.enabled i (mem_cons_of_mem _ hi)⟩
      have hB' : Opened B (offset + c.messageCount) (es.map Prod.fst) es' :=
        ⟨hrest.symm, hB.laid.2, fun i hi => hB.own i (mem_cons_of_mem _ hi), fun i hi => hB.enabled i (mem_cons_of_mem _ hi)⟩
      rw [ih hA' hB']

theorem Opened.of_startPeerSession (hstarted : (A.startPeerSession B.id B.hello).2 = .started s) :
    Opened A userPacket (A.negotiated B.caps) s.capabilities.entries := by
  rw [Host.startPeerSession] at hstarted
  split at hstarted
  · cases hstarted
  extract_lets caps at hstarted
  split_ifs at hstarted
  split at hstarted
  · cases hstarted
  rename_i s' hnew
  cases hstarted
  obtain ⟨es, hes, hopened⟩ := of_newPeerCapabilities Host.pairwise_negotiated (fun i hi => by cases hi) hnew
  rw [hes]
  exact hopened

/-! ### Both ends -/

/-- What a capability of `s` sends comes to the same capability of `s'`, under the same id. -/
def Dispatched (s s' : Session) : Prop :=
  ∀ i ∈ s.capabilities.entries, ∀ k < i.2.messageCount, i.2.idOffset.toNat + k.toNat < 0x80 → ∀ body, IsItem body →
    ∀ {S : Type} (coder : Coder S) (rest : Bytes), ∃ packet,
      readFrame 0 (i.2.prep k body) coder rest = .reads packet coder rest ∧ s'.readPacket packet = .capability i.1 k body

/-- The two sessions have the same capabilities, laid from `userPacket` on. -/
structure Agreement (A B : Host I) (s s' : Session) : Prop where
  same : s.capabilities = s'.capabilities
  descs : ∀ d, d ∈ s.capabilities.keys ↔ HighestCommon A B d
  laid : Laid userPacket s.capabilities.entries
  disjoint : Fits userPacket s.capabilities.entries → s.capabilities.entries.Pairwise fun i j => Disjoint i.2.ids j.2.ids
  there : Fits userPacket s.capabilities.entries → Dispatched s s'
  back : Fits userPacket s.capabilities.entries → Dispatched s' s

theorem dispatched (hlaid : Laid userPacket s'.capabilities.entries) (hfits : Fits userPacket s'.capabilities.entries)
    (henabled : ∀ i ∈ s'.capabilities.entries, i.2.enabled = true) (hsame : s.capabilities = s'.capabilities) :
    Dispatched s s' := by
  intro i hi k hk hsmall body hbody S coder rest
  rw [hsame] at hi
  have hfrom : (0x10 : Nat) ≤ i.2.idOffset.toNat := hlaid.offset_le hfits hi
  have hsum : (k + i.2.idOffset).toNat = i.2.idOffset.toNat + k.toNat := by
    rw [UInt32.toNat_add]
    omega
  have hbyte : (k + i.2.idOffset).toUInt8.toNat = i.2.idOffset.toNat + k.toNat := by
    rw [UInt32.toNat_toUInt8, hsum]
    omega
  have hcheck : checkPacket (i.2.prep k body) = .ok true := by
    refine checkPacket_eq_ok_true_iff.2 ⟨hbyte.trans_lt hsmall, ?_, hbody⟩
    exact Nat.succ_le_succ (length_pos_of_ne_nil hbody.ne_nil)
  have hne : (i.2.prep k body).getD 0 0 ≠ 0 := by
    intro h0
    have hzero : (k + i.2.idOffset).toUInt8.toNat = 0 := congrArg UInt8.toNat h0
    omega
  refine ⟨⟨0, (k + i.2.idOffset).toUInt8.toNat, body⟩, ?_, ?_⟩
  · rw [readFrame_of_checkPacket hcheck, if_neg hne]
    rfl
  · have ht : UInt32.ofNat (k + i.2.idOffset).toUInt8.toNat = k + i.2.idOffset := by
      rw [hbyte, ← hsum, UInt32.ofNat_toNat]
    have hnot : ¬ k + i.2.idOffset < userPacket := by
      rw [UInt32.lt_iff_toNat_lt, hsum]
      show ¬ _ < 0x10
      omega
    rw [Session.readPacket]
    dsimp only
    rw [ht, if_neg fun h => hnot h.2, Session.find?_isFor hlaid hfits hi hk hsmall]
    dsimp only
    rw [if_pos (henabled i hi), UInt32.add_sub_cancel]

theorem agreement (hcounts : SameCounts A B) (hA : (A.startPeerSession B.id B.hello).2 = .started s)
    (hB : (B.startPeerSession A.id A.hello).2 = .started s') : Agreement A B s s' := by
  have hs := Opened.of_startPeerSession hA
  have hs' := Opened.of_startPeerSession hB
  rw [Host.negotiated_comm] at hs'
  have hsame : s.capabilities = s'.capabilities := SortedMap.ext (hs.unique hcounts hs')
  have hlaid := hs.laid
  refine ⟨hsame, fun d => ?_, hlaid, hlaid.disjoint, fun hfits => ?_, fun hfits => ?_⟩
  · rw [SortedMap.keys, hs.descs, Host.mem_negotiated_iff]
  · rw [hsame] at hfits
    exact dispatched hs'.laid hfits hs'.enabled hsame
  · exact dispatched hlaid hfits hs.enabled hsame.symm

end

/-- Two versions of one capability, and one that the other side has too -/
def older : Host Nat := ((({ id := 1 } : Host Nat).addCapability ⟨5⟩ ⟨[1], 62⟩).addCapability ⟨8⟩
    ⟨[1], 63⟩).addCapability ⟨3⟩ ⟨[2], 1⟩

def newer : Host Nat := ((({ id := 2 } : Host Nat).addCapability ⟨3⟩ ⟨[2], 1⟩).addCapability ⟨8⟩
    ⟨[1], 63⟩).addCapability ⟨9⟩ ⟨[1], 64⟩

theorem older_newer : SameCounts older newer := by
  have hcounts : ∀ i ∈ older.capabilities.entries, ∀ j ∈ newer.capabilities.entries, i.1 = j.1 →
      i.2.messageCount = j.2.messageCount := by decide
  intro d p q hp hq
  exact hcounts _ (SortedMap.find?_eq_some_iff.1 hp) _ (SortedMap.find?_eq_some_iff.1 hq) rfl

theorem agreement_newer : ∃ s s', (older.startPeerSession newer.id newer.hello).2 = .started s ∧
    (newer.startPeerSession older.id older.hello).2 = .started s' ∧ Agreement older newer s s' :=
  ⟨_, _, rfl, rfl, agreement older_newer rfl rfl⟩

end Kmdx.P2p.Capabilities
