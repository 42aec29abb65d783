import Kmdx.Lib.KeyStream
import Kmdx.Rlp.Fields

/-!
# Frames (`libp2p/RLPXFrameCoder.cpp`, `Session.cpp`)

Both ends have a cipher, a MAC and the key of its digests in common. A step of the reader is a turn of `doRead`, of what has
come so far; what is written has gone to the socket as a whole.
-/

namespace Kmdx.P2p

open Rlp ExceptRules

/-- What the ends have agreed on -/
structure Secrets (S : Type) where
  keyStream : Nat → UInt8
  update : S → Bytes → S
  digest : S → Bytes
  length_digest : ∀ mac, (digest mac).length = 16
  macEnc : Bytes → Bytes
  length_macEnc : ∀ b, (macEnc b).length = b.length

/-- One direction at one end: how far the cipher is, and the MAC -/
structure Coder (S : Type) where
  position : Nat
  mac : S

variable {S : Type} (c : Secrets S)

/-- `h128`'s `^` -/
def xorBytes (a b : Bytes) : Bytes := List.zipWith (· ^^^ ·) a b

def updateMAC (mac : S) (seed : Bytes) : S :=
  let prevDigest := c.digest mac
  c.update mac (xorBytes (c.macEnc prevDigest) (if seed = [] then prevDigest else seed))

def updateMACWithFrame (mac : S) (cipher : Bytes) : S := updateMAC c (c.update mac cipher) []

def paddingOf (length : Nat) : Nat := (16 - length % 16) % 16

/-! ### Writing -/

def writeFrame (s : Coder S) (header payload : Bytes) : Bytes × Coder S :=
  let headerCipher := KeyStream.process c.keyStream s.position ((header ++ List.replicate 16 0).take 16)
  let headerMac := updateMAC c s.mac headerCipher
  let padding := paddingOf payload.length
  let cipher := KeyStream.process c.keyStream (s.position + 16) payload ++
    KeyStream.process c.keyStream (s.position + 16 + payload.length) (List.replicate padding 0)
  let mac := updateMACWithFrame c headerMac cipher
  (headerCipher ++ c.digest headerMac ++ (cipher ++ c.digest mac), ⟨s.position + 16 + payload.length + padding, mac⟩)

/-- The length takes three bytes. -/
def lengthBytes (size : Nat) : Bytes :=
  let len := size % 2 ^ 32
  [UInt8.ofNat (len / 2 ^ 16), UInt8.ofNat (len / 2 ^ 8), UInt8.ofNat len]

def writeSingleFramePacket (s : Coder S) (packet : Bytes) : Bytes × Coder S :=
  writeFrame c s (lengthBytes packet.length ++ [0xc2, 0x80, 0x80]) packet

/-! ### Reading -/

structure RLPXFrameInfo where
  length : Nat
  padding : Nat
  protocolId : Nat
  multiFrame : Bool
  sequenceId : Nat
  totalLength : Nat

/-- A field of the header, zero if it is not there -/
def infoField (present : Bool) (k maxSize : Nat) : M Nat := if present then do toInt (← item k).data maxSize else return 0

def infoCount : M Nat := do itemCount (← get).data

/-- The protocol, whether the frame is one of many, its place, and the length of them all -/
def infoFields : M (Nat × Bool × Nat × Nat) := do
  let protocolId ← infoField true 0 2
  let count ← infoCount
  let sequenceId ← infoField (count > 1) 1 2
  let totalLength ← infoField (count = 3) 2 4
  return (protocolId, count > 1, sequenceId, totalLength)

def frameInfo (header : Bytes) : Except Rlp.Exn RLPXFrameInfo := do
  let length := ((header.getD 0 0).toNat * 256 + (header.getD 1 0).toNat) * 256 + (header.getD 2 0).toNat
  let fields ← Wp.eval infoFields (← RLP.mk' (header.drop 3) { throwOnFail := true, failIfTooSmall := true })
  return ⟨length, paddingOf length, fields.1, fields.2.1, fields.2.2.1, fields.2.2.2⟩

/-- The header in the clear, with its MAC behind it -/
def authAndDecryptHeader (s : Coder S) (io : Bytes) : Option (Bytes × Coder S) :=
  let mac := updateMAC c s.mac (io.take 16)
  if io.drop 16 ≠ c.digest mac then none
  else some (KeyStream.process c.keyStream s.position (io.take 16) ++ io.drop 16, ⟨s.position + 16, mac⟩)

def authAndDecryptFrame (s : Coder S) (io : Bytes) : Option (Bytes × Coder S) :=
  let cipherText := io.take (io.length - 16)
  let mac := updateMACWithFrame c s.mac cipherText
  if io.drop (io.length - 16) ≠ c.digest mac then none
  else some (KeyStream.process c.keyStream s.position cipherText ++ io.drop (io.length - 16),
    ⟨s.position + cipherText.length, mac⟩)

def checkPacket (msg : Bytes) : Except Rlp.Exn Bool := do
  if msg.getD 0 0 > 0x7f ∨ msg.length < 2 then return false
  let r ← RLP.mk' (msg.drop 1)
  return (← actualSize r.data) + 1 = msg.length

/-- What `readPacket` is given -/
structure Handed where
  capId : Nat
  packetType : Nat
  r : Bytes
deriving DecidableEq

inductive Turn (S : Type)
  /-- More must come. -/
  | waits
  /-- The session is dropped or disconnected. -/
  | drops
  /-- An exception leaves the handler. -/
  | throws (e : Rlp.Exn)
  | reads (packet : Handed) (s : Coder S) (rest : Bytes)

def packetOf (protocolId : Nat) (frame : Bytes) : Except Rlp.Exn Handed := do
  let packetType ← toInt (← RLP.mk' (frame.take 1)).data 4
  return ⟨protocolId, packetType, (← RLP.mk' (frame.drop 1)).data⟩

/-- The end of a turn: a frame in the clear -/
def readFrame (protocolId : Nat) (frame : Bytes) (s : Coder S) (rest : Bytes) : Turn S :=
  match checkPacket frame with
  | .error e => .throws e
  | .ok false => .drops
  | .ok true =>
    match packetOf protocolId frame with
    | .error e => .throws e
    | .ok packet => .reads packet s rest

/-- A turn, once the header is there -/
def readBody (info : RLPXFrameInfo) (s : Coder S) (stream : Bytes) : Turn S :=
  let tlen := info.length + info.padding + 16
  if stream.length < tlen then .waits
  else
    match authAndDecryptFrame c s (stream.take tlen) with
    | none => .drops
    | some (data, s) => readFrame info.protocolId (data.take info.length) s (stream.drop tlen)

def doRead (s : Coder S) (stream : Bytes) : Turn S :=
  if stream.length < 32 then .waits
  else
    match authAndDecryptHeader c s (stream.take 32) with
    | none => .drops
    | some (header, s) =>
      match frameInfo header with
      | .error _ => .drops
      | .ok info => readBody c info s (stream.drop 32)

/-- The packets of some turns, and the state after the last one. `readPacket` is taken to return, and to leave the session
open. -/
def readLoop : Nat → Coder S → Bytes → List Handed × Coder S
  | 0, s, _ => ([], s)
  | fuel + 1, s, stream =>
    match doRead c s stream with
    | .reads packet s rest =>
      let (packets, s) := readLoop fuel s rest
      (packet :: packets, s)
    | _ => ([], s)

/-- What is read of bytes; a turn takes one at least. -/
def readAll (s : Coder S) (stream : Bytes) : List Handed × Coder S := readLoop c stream.length s stream

/-! ### The write queue -/

/-- The writing side of a session whose socket is open -/
structure Session (S : Type) where
  m_writeQueue : List Bytes := []
  egress : Coder S
  /-- What has gone to the socket -/
  wire : Bytes := []
  /-- The packets that have been given to `send` -/
  sent : List Bytes := []
  /-- The packets that have been taken from the queue to be written -/
  begun : List Bytes := []

namespace Session

/-- The frame takes the place of the packet in the queue while it is being written. -/
def write (s : Session S) : Session S :=
  match s.m_writeQueue with
  | [] => s
  | packet :: queue =>
    let frame := writeSingleFramePacket c s.egress packet
    { s with m_writeQueue := frame.1 :: queue, egress := frame.2, wire := s.wire ++ frame.1, begun := s.begun ++ [packet] }

def send (msg : Bytes) (s : Session S) : Session S :=
  let s := { s with m_writeQueue := s.m_writeQueue ++ [msg], sent := s.sent ++ [msg] }
  if s.m_writeQueue.length = 1 then s.write c else s

/-- The end of a write, if there is one -/
def written (s : Session S) : Option (Session S) :=
  match s.m_writeQueue with
  | [] => none
  | _ :: queue =>
    let s := { s with m_writeQueue := queue }
    some (if queue = [] then s else s.write c)

/-- The states of a session from where its cipher and MAC are at first. -/
inductive Reaches (egress : Coder S) : Session S → Prop
  | start : Reaches egress { egress }
  | send {s : Session S} (msg : Bytes) : Reaches egress s → Reaches egress (s.send c msg)
  | written {s t : Session S} : Reaches egress s → s.written c = some t → Reaches egress t

end Session

end Kmdx.P2p
