import Kmdx.P2p.FrameCoder
import Kmdx.P2p.Handshake
import Kmdx.Rlp.Bounds

/-!
# What a handshake reads (`libp2p/RLPxHandshake.cpp`)

The handlers of a handshake from its start to the session, one by one, for whatever comes from the socket. A byte that is read
has to be there (`Checked`), and what is thrown leaves the handler.
-/

namespace Kmdx.P2p.Receiving

open Rlp

/-- What leaves a handler -/
inductive Exn
  | rlp (e : Rlp.Exn)
  | ecdheError
  | assertion
deriving DecidableEq

/-- The operation that the socket has been asked for -/
inductive Pending
  /-- None, `start` is to come. -/
  | start
  | written
  | auth
  | authEIP8
  | ack
  | ackEIP8
  | header
  | frame
  | nothing
deriving DecidableEq

structure Handshake (S : Type) extends RLPXHandshake where
  m_handshakeInBuffer : Bytes := []
  /-- The reading side of `m_io` -/
  ingress : Option (Coder S) := none
  pending : Pending := .start
  /-- All that has come -/
  received : Bytes := []
  /-- What `startPeerSession` has been called with, and whether it has started a session -/
  session : Option (Public × Bytes × Bool) := none

/-- What a handshake uses -/
structure Host (R S : Type) where
  crypto : DevCrypto R
  /-- What the keys of a frame coder make of its ciphers and MACs, and where its reading side is at first -/
  secrets : RLPXFrameCoderImpl → Secrets S
  ingress : RLPXFrameCoderImpl → Coder S
  /-- Whether it starts a session, if nothing is thrown -/
  startPeerSession : Public → Bytes → Option Bool

abbrev HandlerM (S : Type) := EStateM Exn (Handshake S)

instance liftRlp {S : Type} : MonadLift (Except Rlp.Exn) (HandlerM S) where
  monadLift
    | .ok a => pure a
    | .error e => throw (.rlp e)

/-! ### Reading -/

/-- `decryptECIES`, which looks at parts of a message that is long enough. -/
def decryptECIES {R : Type} (c : DevCrypto R) (k : Secret) (sharedMacData cipher : Bytes) :
    Except Rlp.Exn (Option Bytes) := do
  if cipher = [] then
    return none
  let first ← Checked.byteAt cipher 0
  if first < 2 ∨ first > 4 then
    return none
  if cipher.length < 1 + 64 + 16 + 1 + 32 then
    return none
  let _pubkey ← Checked.view cipher (some 1) 64
  let cipherLen := cipher.length - 1 - 64 - 16 - 32
  let _cipherWithIV ← Checked.view cipher (some (1 + 64)) (16 + cipherLen)
  let _msgMac ← Checked.view cipher (some (1 + 64 + 16 + cipherLen)) 32
  return c.decryptECIES k sharedMacData cipher

/-- `toHash` -/
def toHash (d : Bytes) (size : Nat) : Except Rlp.Exn Bytes := do
  Checked.requireGood d
  let p ← Checked.payload d
  if !(← Checked.isData d) ∨ p.length > size then
    throw .badCast
  let s := min size p.length
  return List.replicate (size - s) 0 ++ p.take s

def hashAt (size k : Nat) : Rlp.M (FixedHash size) := do return ofRef size (← toHash (← Checked.item k).data size)

def intAt (size k : Nat) : Rlp.M Nat := do Checked.toInt (← Checked.item k).data size

def authItems : Rlp.M (Signature × Public × FixedHash 32 × Nat) := do
  let sig ← hashAt 65 0
  let pubk ← hashAt 64 1
  let nonce ← hashAt 32 2
  let version ← intAt 8 3
  return (sig, pubk, nonce, version)

def authFields (auth : Bytes) : Except Rlp.Exn (Signature × Public × FixedHash 32 × Nat) := do
  Wp.eval authItems (← Checked.mk' auth { throwOnFail := true, failIfTooSmall := true })

def ackItems : Rlp.M (Public × FixedHash 32 × Nat) := do
  let ecdheRemote ← hashAt 64 0
  let remoteNonce ← hashAt 32 1
  let version ← intAt 8 2
  return (ecdheRemote, remoteNonce, version)

def ackFields (ack : Bytes) : Except Rlp.Exn (Public × FixedHash 32 × Nat) := do
  Wp.eval ackItems (← Checked.mk' ack { throwOnFail := true, failIfTooSmall := true })

/-- The size in the first two bytes of a message -/
def sizeOf (b : Bytes) : Except Rlp.Exn Nat := return (← Checked.byteAt b 0).toNat * 256 + (← Checked.byteAt b 1).toNat

/-- The size of a frame, in the first three bytes of its header -/
def frameSize (header : Bytes) : Except Rlp.Exn Nat :=
  return ((← Checked.byteAt header 0).toNat * 256 + (← Checked.byteAt header 1).toNat) * 256 +
    (← Checked.byteAt header 2).toNat

/-- `HelloPacket`, which is written as an integer. -/
def isHelloPacket (first : UInt8) : Bool := first = 0x80 ∨ first = 0

/-! ### Transitions -/

namespace Handshake

variable {R S : Type} (host : Host R S)

def cancelled (h : Handshake S) : Handshake S := { h with m_cancel := true, m_io := none, ingress := none }

/-- The socket is closed. -/
def cancel : HandlerM S Unit := modify cancelled

/-- What a handler asks the socket for -/
def ask (f : RLPXHandshake → RLPXHandshake) (pending : Pending) : HandlerM S Unit :=
  modify fun h => { h with toRLPXHandshake := f h.toRLPXHandshake, pending }

def setState (m_nextState : RLPXHandshake.State) : HandlerM S Unit := modify fun h => { h with m_nextState }

/-- The frame coder, and the hello packet -/
def writeHello (env : RLPXHandshake.Env R) : HandlerM S Unit := do
  let h ← get
  match setup host.crypto h.m_originated h.m_ecdheRemote h.m_remoteNonce h.m_ecdheLocal h.m_nonce
    h.m_ackCipher h.m_authCipher with
  | none => throw .ecdheError
  | some io => modify fun h =>
    { h with m_io := some io, ingress := some (host.ingress io), egress := h.egress ++ env.hello, pending := .written }

/-- What the state that is reached does -/
def advance (env : RLPXHandshake.Env R) (m_originated : Bool) : RLPXHandshake.State → HandlerM S Unit
  | .new => do
    setState .ackAuth
    if m_originated then ask (·.writeAuth host.crypto env.random) .written else ask (·.readAuth) .auth
  | .ackAuth => do
    setState .writeHello
    if m_originated then ask (·.readAck) .ack else ask (·.writeAck host.crypto env.random) .written
  | .ackAuthEIP8 => do
    setState .writeHello
    if m_originated then ask (·.readAck) .ack else ask (·.writeAckEIP8 host.crypto env) .written
  | .writeHello => do
    setState .readHello
    writeHello host env
  | .readHello => do
    setState .startSession
    modify fun h => { h with m_handshakeInBuffer := resize 32 h.m_handshakeInBuffer, pending := .header }
  | .startSession => throw .assertion
  | .error => return

def transition (env : RLPXHandshake.Env R) (ech : Bool := false) : HandlerM S Unit := do
  let h ← get
  if ech ∨ h.m_nextState = .error ∨ h.m_cancel then
    cancel
  else advance host env h.m_originated h.m_nextState

/-- To the state `Error` -/
def fail (env : RLPXHandshake.Env R) : HandlerM S Unit := do
  setState .error
  transition host env

/-! ### Handlers -/

def readAuthEIP8 : HandlerM S Unit := do
  let h ← get
  if h.m_authCipher.length ≠ 307 then
    throw .assertion
  let size ← sizeOf h.m_authCipher
  modify fun h => { h with m_authCipher := resize (size + 2) h.m_authCipher, pending := .authEIP8 }

def authRead (env : RLPXHandshake.Env R) (data : Bytes) : HandlerM S Unit := do
  modify fun h => { h with m_authCipher := data }
  match ← decryptECIES host.crypto (← get).m_alias [] data with
  | none => readAuthEIP8
  | some auth => do
    let sig := ofRef 65 (cropped auth 0 65)
    let pubk := ofRef 64 (cropped auth 97 64)
    let nonce := ofRef 32 (cropped auth 161 32)
    modify fun h =>
      { h with toRLPXHandshake := { h.toRLPXHandshake with m_auth := auth }.setAuthValues host.crypto sig pubk nonce 4 }
    transition host env

def authReadEIP8 (env : RLPXHandshake.Env R) (rest : Bytes) : HandlerM S Unit := do
  modify fun h => { h with m_authCipher := h.m_authCipher.take 307 ++ rest }
  let h ← get
  match ← decryptECIES host.crypto h.m_alias (h.m_authCipher.take 2) (h.m_authCipher.drop 2) with
  | none => fail host env
  | some auth => do
    modify fun h => { h with m_auth := auth }
    let (sig, pubk, nonce, version) ← authFields auth
    modify fun h => { h with toRLPXHandshake := h.toRLPXHandshake.setAuthValues host.crypto sig pubk nonce version }
    setState .ackAuthEIP8
    transition host env

def readAckEIP8 : HandlerM S Unit := do
  let h ← get
  if h.m_ackCipher.length ≠ 210 then
    throw .assertion
  let size ← sizeOf h.m_ackCipher
  modify fun h => { h with m_ackCipher := resize (size + 2) h.m_ackCipher, pending := .ackEIP8 }

def ackRead (env : RLPXHandshake.Env R) (data : Bytes) : HandlerM S Unit := do
  modify fun h => { h with m_ackCipher := data }
  match ← decryptECIES host.crypto (← get).m_alias [] data with
  | none => readAckEIP8
  | some ack => do
    modify fun h =>
      { h with
        m_ack := ack
        m_ecdheRemote := copyTo 64 (cropped ack 0 64) h.m_ecdheRemote
        m_remoteNonce := copyTo 32 (cropped ack 64 32) h.m_remoteNonce
        m_remoteVersion := 4 }
    transition host env

def ackReadEIP8 (env : RLPXHandshake.Env R) (rest : Bytes) : HandlerM S Unit := do
  modify fun h => { h with m_ackCipher := h.m_ackCipher.take 210 ++ rest }
  let h ← get
  match ← decryptECIES host.crypto h.m_alias (h.m_ackCipher.take 2) (h.m_ackCipher.drop 2) with
  | none => fail host env
  | some ack => do
    modify fun h => { h with m_ack := ack }
    let (ecdheRemote, remoteNonce, version) ← ackFields ack
    modify fun h => { h with m_ecdheRemote := ecdheRemote, m_remoteNonce := remoteNonce, m_remoteVersion := version }
    transition host env

/-- The header of the hello frame has been read. -/
def headerRead (env : RLPXHandshake.Env R) (data : Bytes) : HandlerM S Unit := do
  modify fun h => { h with m_handshakeInBuffer := data }
  let h ← get
  match h.m_io, h.ingress with
  | some io, some coder => do
    if data.length ≠ 32 then
      throw .assertion
    match authAndDecryptHeader (host.secrets io) coder data with
    | none => fail host env
    | some (header, coder) => do
      modify fun h => { h with m_handshakeInBuffer := header, ingress := some coder }
      let size ← frameSize header
      if size > 1024 then
        fail host env
      else
        modify fun h => { h with m_handshakeInBuffer := resize (size + paddingOf size + 16) header, pending := .frame }
  | _, _ => fail host env

/-- What is thrown is caught. -/
def startSession (env : RLPXHandshake.Env R) (r : Except Rlp.Exn RLP) : HandlerM S Unit := do
  let h ← get
  match r with
  | .ok r =>
    match host.startPeerSession h.m_remote r.data with
    | some started => modify fun h => { h with m_io := none, ingress := none, session := some (h.m_remote, r.data, started) }
    | none => fail host env
  | .error _ => fail host env

/-- The hello frame has been read. -/
def frameRead (env : RLPXHandshake.Env R) (data : Bytes) : HandlerM S Unit := do
  modify fun h => { h with m_handshakeInBuffer := data }
  let h ← get
  match h.m_io, h.ingress with
  | some io, some coder => do
    let _frameMac ← Checked.view data (some (data.length - 16)) 16
    match authAndDecryptFrame (host.secrets io) coder data with
    | none => fail host env
    | some (frame, coder) => do
      modify fun h => { h with m_handshakeInBuffer := frame, ingress := some coder }
      let first ← Checked.byteAt frame 0
      if !isHelloPacket first then
        fail host env
      else
        startSession host env (Checked.mk' (frame.drop 1) { throwOnFail := true, failIfTooSmall := true })
  | _, _ => fail host env

/-- How many bytes are waited for, if any are -/
def wanted (h : Handshake S) : Option Nat :=
  match h.pending with
  | .auth => some 307
  | .authEIP8 => some (h.m_authCipher.length - 307)
  | .ack => some 210
  | .ackEIP8 => some (h.m_ackCipher.length - 210)
  | .header => some 32
  | .frame => some h.m_handshakeInBuffer.length
  | _ => none

/-- The bytes that an operation has waited for -/
def read (env : RLPXHandshake.Env R) (data : Bytes) : Pending → HandlerM S Unit
  | .auth => authRead host env data
  | .authEIP8 => authReadEIP8 host env data
  | .ack => ackRead host env data
  | .ackEIP8 => ackReadEIP8 host env data
  | .header => headerRead host env data
  | .frame => frameRead host env data
  | _ => return

/-! ### Events -/

inductive Event (R : Type)
  | start (env : RLPXHandshake.Env R)
  | written (env : RLPXHandshake.Env R)
  | read (env : RLPXHandshake.Env R) (data : Bytes)
  /-- An operation ends with an error. -/
  | failed (env : RLPXHandshake.Env R)
  /-- Of `m_idleTimer`. What has been asked for before may still come. -/
  | timeout

/-- The operation has come to its end. -/
def settle (data : Bytes) : HandlerM S Unit := modify fun h => { h with pending := .nothing, received := h.received ++ data }

def handle : Event R → HandlerM S Unit
  | .start env => do
    settle []
    transition host env
  | .written env => do
    settle []
    transition host env
  | .read env data => do
    let h ← get
    settle data
    read host env data h.pending
  | .failed env => do
    settle []
    transition host env true
  | .timeout => cancel

/-- What may happen -/
def Accepts (h : Handshake S) : Event R → Prop
  | .start _ => h.pending = .start
  | .written _ => h.pending = .written
  | .read _ data => h.wanted = some data.length
  | .failed _ | .timeout => h.pending ≠ .start ∧ h.pending ≠ .nothing

end Handshake

end Kmdx.P2p.Receiving
