import Kmdx.P2p.DevCrypto

/-!
# Handshakes (`libp2p/RLPxHandshake.cpp`, `RLPXFrameCoder.cpp`)

Two ends write to sockets and wait for what the other one writes. A turn of an end is what one of its handlers does, up to the
next operation that the socket is asked for; a handshake is followed until its frame coder is there.
-/

namespace Kmdx.P2p

open Rlp

def c_eciesOverhead : Nat := 113

def c_rlpxVersion : Nat := 4

/-- `copyTo` a part of a buffer that is long enough -/
def put (b : Bytes) (start : Nat) (part : Bytes) : Bytes := b.take start ++ part ++ b.drop (start + part.length)

/-- `copyTo` a hash -/
def copyTo (size : Nat) (b : Bytes) (h : FixedHash size) :
    FixedHash size := ofRef size (put (hashBytes size h) 0 (b.take size))

def resize (size : Nat) (b : Bytes) : Bytes := b.take size ++ List.replicate (size - b.length) 0

/-- What a frame coder is set up with. The MACs are the bytes that have gone into them. -/
structure RLPXFrameCoderImpl where
  frameEncKey : Bytes
  frameDecKey : Bytes
  macEncKey : Bytes
  egressMac : Bytes
  ingressMac : Bytes

variable {R : Type} (c : DevCrypto R)

/-- `none` if the keys do not agree. -/
def setup (originated : Bool) (remoteEphemeral : Public) (remoteNonce : FixedHash 32) (ecdheLocal : Secret)
    (nonce : FixedHash 32) (ackCipher authCipher : Bytes) : Option RLPXFrameCoderImpl :=
  match c.agree ecdheLocal remoteEphemeral with
  | none => none
  | some ephemeralShared =>
    let keyMaterial := put (List.replicate 64 0) 0 (hashBytes 32 ephemeralShared)
    let leftNonce := if originated then remoteNonce else nonce
    let rightNonce := if originated then nonce else remoteNonce
    let nonceMaterial := hashBytes 32 leftNonce ++ hashBytes 32 rightNonce
    let keyMaterial := put keyMaterial 32 (hashBytes 32 (c.sha3 nonceMaterial))
    -- shared-secret
    let keyMaterial := put keyMaterial 32 (hashBytes 32 (c.sha3 keyMaterial))
    -- aes-secret
    let keyMaterial := put keyMaterial 32 (hashBytes 32 (c.sha3 keyMaterial))
    let frameKey := cropped keyMaterial 32 32
    -- mac-secret
    let keyMaterial := put keyMaterial 32 (hashBytes 32 (c.sha3 keyMaterial))
    let macEncKey := cropped keyMaterial 32 32
    let keyMaterial := put keyMaterial 0 (hashBytes 32 (ofRef 32 (cropped keyMaterial 32 32) ^^^ remoteNonce))
    let egressCipher := if originated then authCipher else ackCipher
    let keyMaterial := put (resize (32 + egressCipher.length) keyMaterial) 32 egressCipher
    let egressMac := keyMaterial
    let keyMaterial := put keyMaterial 0 (hashBytes 32 (ofRef 32 (cropped keyMaterial 0 32) ^^^ remoteNonce ^^^ nonce))
    let ingressCipher := if originated then ackCipher else authCipher
    let keyMaterial := put (resize (32 + ingressCipher.length) keyMaterial) 32 ingressCipher
    some { frameEncKey := frameKey, frameDecKey := frameKey, macEncKey, egressMac, ingressMac := keyMaterial }

inductive RLPXHandshake.State
  | error
  | new
  | ackAuth
  | ackAuthEIP8
  | writeHello
  | readHello
  | startSession
deriving DecidableEq

/-- What the socket has been asked for last -/
inductive RLPXHandshake.Waits
  /-- Nothing yet: `start` is to come. -/
  | start
  | written
  | auth
  | authEIP8
  | ack
  | ackEIP8
  /-- Nothing any more -/
  | nothing
deriving DecidableEq

structure RLPXHandshake where
  m_nextState : RLPXHandshake.State := .new
  m_cancel : Bool := false
  /-- The secret of `m_host->m_alias` -/
  m_alias : Secret
  m_remote : Public := 0
  m_originated : Bool
  m_auth : Bytes := []
  m_authCipher : Bytes := []
  m_ack : Bytes := []
  m_ackCipher : Bytes := []
  /-- The secret of `m_ecdheLocal` -/
  m_ecdheLocal : Secret
  m_nonce : FixedHash 32
  m_ecdheRemote : Public := 0
  m_remoteNonce : FixedHash 32 := 0
  m_remoteVersion : Nat := 0
  m_io : Option RLPXFrameCoderImpl := none
  /-- What has been written to `m_socket`, and how much has been read from it -/
  egress : Bytes := []
  consumed : Nat := 0
  waits : RLPXHandshake.Waits := .start

namespace RLPXHandshake

/-- What a handler gets from elsewhere: what an encryption takes, `rand()` and the frame of the hello packet -/
structure Env (R : Type) where
  random : R
  rand : Nat
  hello : Bytes

/-- Outbound -/
def dial (m_alias : Secret) (remote : Public) (m_ecdheLocal : Secret) (m_nonce : FixedHash 32) : RLPXHandshake :=
  { m_alias, m_remote := remote, m_originated := true, m_ecdheLocal, m_nonce }

/-- Inbound -/
def accept (m_alias : Secret) (m_ecdheLocal : Secret) (m_nonce : FixedHash 32) : RLPXHandshake :=
  { m_alias, m_originated := false, m_ecdheLocal, m_nonce }

def asyncWrite (b : Bytes) (h : RLPXHandshake) : RLPXHandshake := { h with egress := h.egress ++ b, waits := .written }

/-- An exception leaves a handler. -/
def thrown (h : RLPXHandshake) : RLPXHandshake := { h with waits := .nothing }

def cancel (h : RLPXHandshake) : RLPXHandshake := { h with m_cancel := true, m_io := none, waits := .nothing }

/-! ### Writing -/

/-- The signature by the ephemeral key, of the shared secret of the static keys and the nonce -/
def authSignature (h : RLPXHandshake) : Signature :=
  let staticShared := (c.agree h.m_alias h.m_remote).getD 0
  c.sign h.m_ecdheLocal (staticShared ^^^ h.m_nonce)

def writeAuth (random : R) (h : RLPXHandshake) : RLPXHandshake :=
  let auth := hashBytes 65 (h.authSignature c) ++ hashBytes 32 (c.sha3 (hashBytes 64 (c.toPublic h.m_ecdheLocal))) ++
    hashBytes 64 (c.toPublic h.m_alias) ++ hashBytes 32 h.m_nonce ++ [0]
  let cipher := c.encryptECIES h.m_remote [] auth random
  asyncWrite cipher { h with m_auth := auth, m_authCipher := cipher }

def writeAck (random : R) (h : RLPXHandshake) : RLPXHandshake :=
  let ack := hashBytes 64 (c.toPublic h.m_ecdheLocal) ++ hashBytes 32 h.m_nonce ++ [0]
  let cipher := c.encryptECIES h.m_remote [] ack random
  asyncWrite cipher { h with m_ack := ack, m_ackCipher := cipher }

/-- The size of what follows, in two bytes -/
def sizePart (plain : Bytes) : Bytes := BigEndian.toBytes 2 (plain.length + c_eciesOverhead)

/-- Behind its size, which goes into the tag -/
def sealEIP8 (k : Public) (plain : Bytes) (random : R) :
    Bytes := sizePart plain ++ c.encryptECIES k (sizePart plain) plain random

def writeAckEIP8 (env : Env R) (h : RLPXHandshake) : RLPXHandshake :=
  match run [.appendList 3, .append (hashBytes 64 (c.toPublic h.m_ecdheLocal)) false,
    .append (hashBytes 32 h.m_nonce) false, .appendInt c_rlpxVersion] {} >>= RLPStream.output with
  | .error _ => h.thrown
  | .ok out =>
    let padAmount := env.rand % 100 + 100
    let ack := resize (out.length + padAmount) out
    let cipher := sealEIP8 c h.m_remote ack env.random
    asyncWrite cipher { h with m_ack := ack, m_ackCipher := cipher }

/-! ### Transitions -/

def readAuth (h : RLPXHandshake) : RLPXHandshake := { h with m_authCipher := resize 307 h.m_authCipher, waits := .auth }

def readAck (h : RLPXHandshake) : RLPXHandshake := { h with m_ackCipher := resize 210 h.m_ackCipher, waits := .ack }

def writeHello (env : Env R) (h : RLPXHandshake) : RLPXHandshake :=
  match setup c h.m_originated h.m_ecdheRemote h.m_remoteNonce h.m_ecdheLocal h.m_nonce h.m_ackCipher h.m_authCipher with
  | none => h.thrown
  | some io => { h with m_io := some io, egress := h.egress ++ env.hello, waits := .nothing }

/-- Without an I/O error; with one, it is `cancel`. -/
def transition (env : Env R) (h : RLPXHandshake) : RLPXHandshake :=
  if h.m_nextState = .error ∨ h.m_cancel then h.cancel
  else
    match h.m_nextState with
    | .new =>
      let h := { h with m_nextState := .ackAuth }
      if h.m_originated then h.writeAuth c env.random else h.readAuth
    | .ackAuth =>
      let h := { h with m_nextState := .writeHello }
      if h.m_originated then h.readAck else h.writeAck c env.random
    | .ackAuthEIP8 =>
      let h := { h with m_nextState := .writeHello }
      if h.m_originated then h.readAck else h.writeAckEIP8 c env
    | .writeHello => { h with m_nextState := .readHello }.writeHello c env
    | _ => h

/-! ### Reading -/

def setAuthValues (sig : Signature) (remotePubk : Public) (remoteNonce : FixedHash 32) (remoteVersion : Nat)
    (h : RLPXHandshake) : RLPXHandshake :=
  let sharedSecret := (c.agree h.m_alias remotePubk).getD 0
  { h with
    m_remote := remotePubk
    m_remoteNonce := remoteNonce
    m_remoteVersion := remoteVersion
    m_ecdheRemote := c.recover sig (sharedSecret ^^^ remoteNonce) }

/-- The size in the first two bytes of a message -/
def sizeOf (b : Bytes) : Nat := (b.getD 0 0).toNat * 256 + (b.getD 1 0).toNat

def readAuthEIP8 (h : RLPXHandshake) : RLPXHandshake :=
  { h with m_authCipher := resize (sizeOf h.m_authCipher + 2) h.m_authCipher, waits := .authEIP8 }

/-- The end of `readAuth` -/
def authRead (env : Env R) (data : Bytes) (h : RLPXHandshake) : RLPXHandshake :=
  let h := { h with m_authCipher := data }
  match c.decryptECIES h.m_alias [] h.m_authCipher with
  | none => h.readAuthEIP8
  | some auth =>
    let sig := ofRef 65 (cropped auth 0 65)
    let pubk := ofRef 64 (cropped auth 97 64)
    let nonce := ofRef 32 (cropped auth 161 32)
    transition c env (setAuthValues c sig pubk nonce 4 { h with m_auth := auth })

def authItems : M (Signature × Public × FixedHash 32 × Nat) := do
  let sig ← hashAt 65 0
  let pubk ← hashAt 64 1
  let nonce ← hashAt 32 2
  let version ← intAt 8 3
  return (sig, pubk, nonce, version)

/-- The fields of an auth message in the clear -/
def authFields (auth : Bytes) : Except Rlp.Exn (Signature × Public × FixedHash 32 × Nat) := do
  Wp.eval authItems (← RLP.mk' auth { throwOnFail := true, failIfTooSmall := true })

/-- The end of `readAuthEIP8`, where bytes have come after the first 307, if the message is longer -/
def authReadEIP8 (env : Env R) (rest : Bytes) (h : RLPXHandshake) : RLPXHandshake :=
  let h := { h with m_authCipher := h.m_authCipher.take 307 ++ rest }
  match c.decryptECIES h.m_alias (h.m_authCipher.take 2) (h.m_authCipher.drop 2) with
  | none => transition c env { h with m_nextState := .error }
  | some auth =>
    let h := { h with m_auth := auth }
    match authFields auth with
    | .error _ => h.thrown
    | .ok (sig, pubk, nonce, version) => transition c env
        { setAuthValues c sig pubk nonce version h with m_nextState := .ackAuthEIP8 }

def readAckEIP8 (h : RLPXHandshake) : RLPXHandshake :=
  { h with m_ackCipher := resize (sizeOf h.m_ackCipher + 2) h.m_ackCipher, waits := .ackEIP8 }

/-- The end of `readAck` -/
def ackRead (env : Env R) (data : Bytes) (h : RLPXHandshake) : RLPXHandshake :=
  let h := { h with m_ackCipher := data }
  match c.decryptECIES h.m_alias [] h.m_ackCipher with
  | none => h.readAckEIP8
  | some ack =>
    transition c env
      { h with
        m_ack := ack
        m_ecdheRemote := copyTo 64 (cropped ack 0 64) h.m_ecdheRemote
        m_remoteNonce := copyTo 32 (cropped ack 64 32) h.m_remoteNonce
        m_remoteVersion := 4 }

def ackItems : M (Public × FixedHash 32 × Nat) := do
  let ecdheRemote ← hashAt 64 0
  let remoteNonce ← hashAt 32 1
  let version ← intAt 8 2
  return (ecdheRemote, remoteNonce, version)

def ackFields (ack : Bytes) : Except Rlp.Exn (Public × FixedHash 32 × Nat) := do
  Wp.eval ackItems (← RLP.mk' ack { throwOnFail := true, failIfTooSmall := true })

/-- The end of `readAckEIP8` -/
def ackReadEIP8 (env : Env R) (rest : Bytes) (h : RLPXHandshake) : RLPXHandshake :=
  let h := { h with m_ackCipher := h.m_ackCipher.take 210 ++ rest }
  match c.decryptECIES h.m_alias (h.m_ackCipher.take 2) (h.m_ackCipher.drop 2) with
  | none => transition c env { h with m_nextState := .error }
  | some ack =>
    let h := { h with m_ack := ack }
    match ackFields ack with
    -- What has been read of the fields is not looked at any more.
    | .error _ => h.thrown
    | .ok (ecdheRemote, remoteNonce, version) =>
      transition c env { h with m_ecdheRemote := ecdheRemote, m_remoteNonce := remoteNonce, m_remoteVersion := version }

/-- How many bytes are waited for, if any are -/
def wanted (h : RLPXHandshake) : Option Nat :=
  match h.waits with
  | .auth => some 307
  | .authEIP8 => some (h.m_authCipher.length - 307)
  | .ack => some 210
  | .ackEIP8 => some (h.m_ackCipher.length - 210)
  | _ => none

/-- The bytes are there. -/
def read (env : Env R) (data : Bytes) (h : RLPXHandshake) : RLPXHandshake :=
  let h := { h with consumed := h.consumed + data.length }
  match h.waits with
  | .auth => h.authRead c env data
  | .authEIP8 => h.authReadEIP8 c env data
  | .ack => h.ackRead c env data
  | .ackEIP8 => h.ackReadEIP8 c env data
  | _ => h

/-! ### Turns -/

/-- An auth message as the reader takes it, behind its size. `writeAuth` does not write this one, but another program may. -/
def writeAuthEIP8 (auth : Bytes) (random : R) (h : RLPXHandshake) : RLPXHandshake :=
  let cipher := sealEIP8 c h.m_remote auth random
  asyncWrite cipher { h with m_nextState := .ackAuth, m_auth := auth, m_authCipher := cipher }

/-- What an end does next, while `wire` has come from the other one -/
inductive Turn (wire : Bytes) : RLPXHandshake → RLPXHandshake → Prop
  | start {h : RLPXHandshake} (env : Env R) : h.waits = .start → Turn wire h (h.transition c env)
  /-- The initiator writes the other form, with a version and perhaps something more. -/
  | startEIP8 {h : RLPXHandshake} (auth : Bytes) (random : R) (version : Nat) : h.waits = .start → h.m_originated = true →
    authFields auth = .ok (h.authSignature c, c.toPublic h.m_alias, h.m_nonce, version) →
    auth.length + c_eciesOverhead < 2 ^ 16 → Turn wire h (h.writeAuthEIP8 c auth random)
  | written {h : RLPXHandshake} (env : Env R) : h.waits = .written → Turn wire h (h.transition c env)
  | read {h : RLPXHandshake} {n : Nat} (env : Env R) : h.wanted = some n → n ≤ (wire.drop h.consumed).length →
    Turn wire h (h.read c env ((wire.drop h.consumed).take n))
  /-- An error, a timeout, or the end of the host -/
  | cancel {h : RLPXHandshake} : Turn wire h h.cancel
  /-- With a frame coder, frames follow. -/
  | talks {h : RLPXHandshake} (b : Bytes) : h.m_io ≠ none → Turn wire h { h with egress := h.egress ++ b }

/-- The ends of a connection after some turns of both of them -/
inductive Reaches (i₀ r₀ : RLPXHandshake) : RLPXHandshake → RLPXHandshake → Prop
  | start : Reaches i₀ r₀ i₀ r₀
  | initiator {i i' r : RLPXHandshake} : Reaches i₀ r₀ i r → Turn c r.egress i i' → Reaches i₀ r₀ i' r
  | responder {i r r' : RLPXHandshake} : Reaches i₀ r₀ i r → Turn c i.egress r r' → Reaches i₀ r₀ i r'

end RLPXHandshake

end Kmdx.P2p
