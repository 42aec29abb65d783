import Kmdx.P2p.HandshakeReads
import Kmdx.P2p.KeyAgreement

/-!
# Whether what comes to a handshake is handled

A handler looks at no byte that has not come, and it ends with another operation, with a session or with a closed socket,
unless what it has decrypted is not what it reads of it or the keys do not agree: nothing catches what is thrown then
(`handles_iff`).
-/

namespace Kmdx.P2p.Receiving

open Rlp ExceptRules Wp

/-! ### Reading -/

section Reading

variable {d : Bytes} {size k : Nat}

/-- A message, if it is long enough and begins with a key. -/
def opened {R : Type} (c : DevCrypto R) (k : Secret) (sharedMacData cipher : Bytes) : Option Bytes :=
  if cipher = [] ∨ cipher.getD 0 0 < 2 ∨ cipher.getD 0 0 > 4 ∨ cipher.length < 114 then none
  else c.decryptECIES k sharedMacData cipher

/-- All parts of a message are inside it. -/
theorem decryptECIES_eq {R : Type} (c : DevCrypto R) (k : Secret) (sharedMacData cipher : Bytes) :
    decryptECIES c k sharedMacData cipher = .ok (opened c k sharedMacData cipher) := by
  unfold decryptECIES opened
  by_cases hnil : cipher = []
  · rw [if_pos hnil, if_pos (.inl hnil)]
    rfl
  rw [if_neg hnil, Checked.byteAt_of_lt (List.length_pos_iff.2 hnil), ok_bind]
  by_cases hfirst : cipher.getD 0 0 < 2 ∨ cipher.getD 0 0 > 4
  · rw [if_pos hfirst, if_pos (.inr (or_assoc.1 (.inl hfirst)))]
    rfl
  rw [if_neg hfirst]
  rw [not_or] at hfirst
  by_cases hshort : cipher.length < 114
  · rw [if_pos hshort, if_pos (.inr (.inr (.inr hshort)))]
    rfl
  rw [if_neg hshort, Checked.view_some (by omega), ok_bind]
  dsimp only
  rw [Checked.view_some (by omega), ok_bind, Checked.view_some (by omega), ok_bind, if_neg]
  · rfl
  · simp only [not_or]
    exact ⟨hnil, hfirst.1, hfirst.2, hshort⟩

theorem toHash_eq (d : Bytes) (size : Nat) : toHash d size = Rlp.toHash d size := by
  unfold toHash Rlp.toHash
  simp [strict]

theorem hashAt_eq (size k : Nat) : hashAt size k = P2p.hashAt size k := by
  unfold hashAt P2p.hashAt
  simp only [Checked.item_eq, toHash_eq]

theorem intAt_eq (size k : Nat) : intAt size k = P2p.intAt size k := by
  unfold intAt P2p.intAt
  simp only [Checked.item_eq, Checked.toInt_eq]

theorem authFields_eq (auth : Bytes) : authFields auth = RLPXHandshake.authFields auth := by
  unfold authFields RLPXHandshake.authFields authItems RLPXHandshake.authItems
  simp only [hashAt_eq, intAt_eq, Checked.mk'_eq]

theorem ackFields_eq (ack : Bytes) : ackFields ack = RLPXHandshake.ackFields ack := by
  unfold ackFields RLPXHandshake.ackFields ackItems RLPXHandshake.ackItems
  simp only [hashAt_eq, intAt_eq, Checked.mk'_eq]

theorem sizeOf_eq (h : 2 ≤ d.length) : sizeOf d = .ok (RLPXHandshake.sizeOf d) := by
  rw [sizeOf, Checked.byteAt_of_lt (by omega), ok_bind, Checked.byteAt_of_lt (by omega), ok_bind]
  rfl

/-- The size of a frame whose header is long enough -/
def frameLength (header : Bytes) : Nat := ((header.getD 0 0).toNat * 256 + (header.getD 1 0).toNat) * 256 +
    (header.getD 2 0).toNat

theorem frameSize_eq (h : 3 ≤ d.length) : frameSize d = .ok (frameLength d) := by
  rw [frameSize, Checked.byteAt_of_lt (by omega), ok_bind, Checked.byteAt_of_lt (by omega), ok_bind,
    Checked.byteAt_of_lt (by omega), ok_bind]
  rfl

end Reading

namespace Handshake

variable {R S : Type} {host : Host R S} {h h' : Handshake S} {env : RLPXHandshake.Env R} {e : Event R} {data : Bytes}

/-! ### States -/

/-- The states in which an operation comes to its end -/
def Expects : Pending → RLPXHandshake.State → Prop
  | .start, state => state = .new
  | .written, state => state = .ackAuth ∨ state = .writeHello ∨ state = .readHello
  | .auth, state | .authEIP8, state => state = .ackAuth
  | .ack, state | .ackEIP8, state => state = .writeHello
  | .header, state | .frame, state => state = .startSession
  | .nothing, _ => True

/-- The last bytes that have come are the header of a frame, whose MAC was right. -/
def HasHeader (host : Host R S) (h : Handshake S) (header : Bytes) : Prop :=
  ∃ io before hd coder, h.m_io = some io ∧ h.received = before ++ hd ∧
    authAndDecryptHeader (host.secrets io) (host.ingress io) hd = some (header, coder) ∧ h.ingress = some coder

/-- A frame with a right MAC comes behind a header with a right one, and it begins with the type of a hello packet. -/
def IsHello (host : Host R S) (h : Handshake S) (data : Bytes) : Prop :=
  ∃ header io coder frame coder', HasHeader host h header ∧ h.m_io = some io ∧ h.ingress = some coder ∧
    authAndDecryptFrame (host.secrets io) coder data = some (frame, coder') ∧
    data.length = frameLength header + paddingOf (frameLength header) + 16 ∧ 0 < frameLength header ∧
      isHelloPacket (frame.getD 0 0) = true

/-- The frame coder is there, and nothing has been read with it. -/
def HasCoder (host : Host R S) (h : Handshake S) : Prop := ∃ io, h.m_io = some io ∧ h.ingress = some (host.ingress io)

/-- What is known of a handshake between two handlers -/
structure Ready (host : Host R S) (h : Handshake S) : Prop where
  state : Expects h.pending h.m_nextState
  cancelled : h.m_cancel = true → h.m_io = none
  session : h.pending ≠ .nothing → h.session = none
  coder : h.m_cancel = false → h.m_nextState = .readHello ∨ h.pending = .header → HasCoder host h
  frame : h.pending = .frame → 16 ≤ h.m_handshakeInBuffer.length ∧ (h.m_cancel = false → ∃ header, HasHeader host h header ∧
    h.m_handshakeInBuffer.length = frameLength header + paddingOf (frameLength header) + 16)

/-- The state behind one -/
def next : RLPXHandshake.State → RLPXHandshake.State
  | .new => .ackAuth
  | .ackAuth | .ackAuthEIP8 => .writeHello
  | .writeHello => .readHello
  | .readHello => .startSession
  | state => state

/-- A message is longer than what has been read of it. -/
inductive More : Pending → Pending → Prop
  | auth : More .auth .authEIP8
  | ack : More .ack .ackEIP8
  | header : More .header .frame

/-- How a handler ends that has begun with an operation in a state -/
inductive Settled (pending : Pending) (state : RLPXHandshake.State) (h' : Handshake S) : Prop
  | closed : h'.m_cancel = true → h'.m_io = none → Settled pending state h'
  | next : h'.m_nextState = next state → h'.pending ≠ .nothing → Settled pending state h'
  | more : h'.m_nextState = state → More pending h'.pending → Settled pending state h'
  | session : h'.session ≠ none → Settled pending state h'

/-- A transition has been made. -/
structure Goes (host : Host R S) (state : RLPXHandshake.State) (h' : Handshake S) : Prop where
  ready : Ready host h'
  session : h'.session = none
  moved : h'.m_cancel = true ∧ h'.m_io = none ∨ h'.m_nextState = next state ∧ h'.pending ≠ .nothing

/-- While a handler runs -/
structure Busy (host : Host R S) (h : Handshake S) : Prop where
  pending : h.pending = .nothing
  session : h.session = none
  cancelled : h.m_cancel = true → h.m_io = none
  coder : h.m_cancel = false → h.m_nextState = .readHello → HasCoder host h

/-- The keys have to agree where they are needed next. -/
def Agreeing (host : Host R S) (h : Handshake S) : Prop :=
  h.m_cancel = false → h.m_nextState = .writeHello → host.crypto.agree h.m_ecdheLocal h.m_ecdheRemote ≠ none

/-! ### Transitions -/

variable {state : RLPXHandshake.State}

theorem Busy.goes_cancelled (hb : Busy host h) : Goes host state h.cancelled := by
  refine ⟨⟨?_, fun _ => rfl, fun hp => absurd hb.pending hp, nofun, fun hp => ?_⟩, hb.session, .inl ⟨rfl, rfl⟩⟩
  · rw [show h.cancelled.pending = .nothing from hb.pending]
    trivial
  · rw [show h.cancelled.pending = .nothing from hb.pending] at hp
    cases hp

/-- An operation has been asked for. -/
theorem Busy.ready (hb : Busy host h) (hstate : Expects h'.pending h'.m_nextState) (hcancel : h'.m_cancel = h.m_cancel)
    (hio : h'.m_io = h.m_io) (hsession : h'.session = h.session) (hread : h'.m_nextState ≠ .readHello)
    (hheader : h'.pending ≠ .header) (hframe : h'.pending ≠ .frame) : Ready host h' :=
  ⟨hstate, fun hc => hio.trans (hb.cancelled (hcancel ▸ hc)), fun _ => hsession.trans hb.session,
    fun _ h => absurd h (not_or.2 ⟨hread, hheader⟩), fun h => absurd h hframe⟩

theorem setup_eq_none_iff {c : DevCrypto R} {originated : Bool} {k : Public} {nonce nonce' : FixedHash 32}
    {s : Secret} {x y : Bytes} : setup c originated k nonce s nonce' x y = none ↔ c.agree s k = none := by
  unfold setup
  cases c.agree s k with
  | none => exact iff_of_true rfl rfl
  | some shared => exact iff_of_false (Option.some_ne_none _) (Option.some_ne_none _)

/-- What is written or asked for in a state leaves the rest as it is. -/
def Frames (f : RLPXHandshake → RLPXHandshake) : Prop :=
  ∀ x, (f x).m_nextState = x.m_nextState ∧ (f x).m_cancel = x.m_cancel ∧ (f x).m_io = x.m_io

theorem frames_writeAuth (c : DevCrypto R) (random : R) : Frames (RLPXHandshake.writeAuth c random) := by
  intro x
  unfold RLPXHandshake.writeAuth RLPXHandshake.asyncWrite
  exact ⟨rfl, rfl, rfl⟩

theorem frames_readAuth : Frames RLPXHandshake.readAuth := fun _ => ⟨rfl, rfl, rfl⟩

theorem frames_readAck : Frames RLPXHandshake.readAck := fun _ => ⟨rfl, rfl, rfl⟩

theorem frames_writeAck (c : DevCrypto R) (random : R) : Frames (RLPXHandshake.writeAck c random) := by
  intro x
  unfold RLPXHandshake.writeAck RLPXHandshake.asyncWrite
  exact ⟨rfl, rfl, rfl⟩

theorem frames_writeAckEIP8 (c : DevCrypto R) (env : RLPXHandshake.Env R) : Frames (RLPXHandshake.writeAckEIP8 c env) := by
  intro x
  unfold RLPXHandshake.writeAckEIP8
  split
  · exact ⟨rfl, rfl, rfl⟩
  · exact ⟨rfl, rfl, rfl⟩

theorem run_setState (state : RLPXHandshake.State) : setState state h = .ok () { h with m_nextState := state } := rfl

theorem run_ask (f : RLPXHandshake → RLPXHandshake) (pending : Pending) :
    ask f pending h = .ok () { h with toRLPXHandshake := f h.toRLPXHandshake, pending } := rfl

variable {pending : Pending}

/-- Where an operation is asked for in the next state -/
theorem goes_ask (hb : Busy host h) {f : RLPXHandshake → RLPXHandshake}
    (hf : Frames f) (hnext : state = next h.m_nextState) (hpending : pending ≠ .nothing) (hstate : Expects pending state)
    (hread : state ≠ .readHello) (hheader : pending ≠ .header) (hframe : pending ≠ .frame) :
    ∃ h', (do setState state; ask f pending : HandlerM S Unit) h = .ok () h' ∧ Goes host h.m_nextState h' := by
  obtain ⟨hstate', hcancel, hio⟩ := hf { h.toRLPXHandshake with m_nextState := state }
  rw [run_bind_of_ok (run_setState state), run_ask]
  exact ⟨_, rfl, hb.ready (hstate'.symm ▸ hstate) hcancel hio rfl (hstate'.symm ▸ hread) hheader hframe, hb.session,
    .inr ⟨hstate'.trans hnext, hpending⟩⟩

theorem run_writeHello {io : RLPXFrameCoderImpl}
    (hio : setup host.crypto h.m_originated h.m_ecdheRemote h.m_remoteNonce h.m_ecdheLocal
    h.m_nonce h.m_ackCipher h.m_authCipher = some io) : writeHello host env h =
      .ok () { h with
        m_io := some io, ingress := some (host.ingress io), egress := h.egress ++ env.hello, pending := .written } := by
  rw [writeHello, run_bind_of_ok run_get, hio]
  rfl

theorem goes_advance (hb : Busy host h) (hcancel : h.m_cancel = false) (herror : h.m_nextState ≠ .error)
    (hstate : h.m_nextState ≠ .startSession) (hagree : Agreeing host h) :
    ∃ h', advance host env h.m_originated h.m_nextState h = .ok () h' ∧ Goes host h.m_nextState h' := by
  cases hnext : h.m_nextState with
  | error => exact absurd hnext herror
  | new =>
    rw [advance, ← hnext]
    have hmoved : RLPXHandshake.State.ackAuth = next h.m_nextState := by rw [hnext]; rfl
    split
    · exact goes_ask hb (frames_writeAuth host.crypto env.random) hmoved nofun (.inl rfl) nofun nofun nofun
    · exact goes_ask hb frames_readAuth hmoved nofun rfl nofun nofun nofun
  | ackAuth =>
    rw [advance, ← hnext]
    have hmoved : RLPXHandshake.State.writeHello = next h.m_nextState := by rw [hnext]; rfl
    split
    · exact goes_ask hb frames_readAck hmoved nofun rfl nofun nofun nofun
    · exact goes_ask hb (frames_writeAck host.crypto env.random) hmoved nofun (.inr (.inl rfl)) nofun nofun nofun
  | ackAuthEIP8 =>
    rw [advance, ← hnext]
    have hmoved : RLPXHandshake.State.writeHello = next h.m_nextState := by rw [hnext]; rfl
    split
    · exact goes_ask hb frames_readAck hmoved nofun rfl nofun nofun nofun
    · exact goes_ask hb (frames_writeAckEIP8 host.crypto env) hmoved nofun (.inr (.inl rfl)) nofun nofun nofun
  | writeHello =>
    have hsome : setup host.crypto h.m_originated h.m_ecdheRemote h.m_remoteNonce h.m_ecdheLocal h.m_nonce h.m_ackCipher
        h.m_authCipher ≠ none := fun hnone => hagree hcancel hnext (setup_eq_none_iff.1 hnone)
    obtain ⟨io, hio⟩ := Option.ne_none_iff_exists'.1 hsome
    rw [advance, run_bind_of_ok (run_setState _), run_writeHello (h := { h with m_nextState := .readHello }) hio]
    exact ⟨_, rfl, ⟨.inr (.inr rfl), fun hc => absurd (hc.symm.trans hcancel) nofun, fun _ => hb.session,
      fun _ _ => ⟨io, rfl, rfl⟩, nofun⟩,
      hb.session, .inr ⟨rfl, nofun⟩⟩
  | readHello =>
    have hcoder := hb.coder hcancel hnext
    rw [advance, run_bind_of_ok (run_setState _), run_modify]
    exact ⟨_, rfl, ⟨rfl, hb.cancelled, fun _ => hb.session, fun _ _ => hcoder, nofun⟩, hb.session, .inr ⟨rfl, nofun⟩⟩
  | startSession => exact absurd hnext hstate

variable (env)

theorem goes_transition (ech : Bool) (hb : Busy host h)
    (hstate : ech = true ∨ h.m_cancel = true ∨ h.m_nextState ≠ .startSession)
    (hagree : ech = false → Agreeing host h) : ∃ h', transition host env ech h = .ok () h' ∧ Goes host h.m_nextState h' := by
  rw [transition, run_bind_of_ok run_get, run_ite]
  split
  · exact ⟨_, rfl, hb.goes_cancelled⟩
  · rename_i hgo
    rw [not_or, not_or, Bool.not_eq_true, Bool.not_eq_true] at hgo
    obtain ⟨hech, herror, hcancel⟩ := hgo
    refine goes_advance hb hcancel herror ?_ (hagree hech)
    rcases hstate with hstate | hstate | hstate
    · exact absurd (hstate.symm.trans hech) nofun
    · exact absurd (hstate.symm.trans hcancel) nofun
    · exact hstate

/-- Where they do not, an exception leaves. -/
theorem error_transition (hcancel : h.m_cancel = false) (hnext : h.m_nextState = .writeHello)
    (hnone : host.crypto.agree h.m_ecdheLocal h.m_ecdheRemote = none) :
    ∃ h', transition host env false h = .error .ecdheError h' := by
  have hsetup : setup host.crypto h.m_originated h.m_ecdheRemote h.m_remoteNonce h.m_ecdheLocal h.m_nonce
      h.m_ackCipher h.m_authCipher = none := setup_eq_none_iff.2 hnone
  rw [transition, run_bind_of_ok run_get, run_ite, if_neg (by simp [hcancel, hnext]), hnext, advance,
    run_bind_of_ok (run_setState _), writeHello, run_bind_of_ok run_get, hsetup]
  exact ⟨_, rfl⟩

theorem goes_fail (hb : Busy host h) : ∃ h', fail host env h = .ok () h' ∧ Goes host state h' := by
  have hb' : Busy host { h with m_nextState := .error } := ⟨hb.pending, hb.session, hb.cancelled, nofun⟩
  rw [fail, run_bind_of_ok (run_setState _), transition, run_bind_of_ok run_get, run_ite, if_pos (.inr (.inl rfl))]
  exact ⟨_, rfl, hb'.goes_cancelled⟩

/-! ### Reading in a state -/

/-- How a handler ends if nothing is thrown, without a session -/
structure Ends (host : Host R S) (pending : Pending) (state : RLPXHandshake.State) (h' : Handshake S) : Prop where
  ready : Ready host h'
  session : h'.session = none
  settled : Settled pending state h'

theorem Goes.ends (hg : Goes host state h') : Ends host pending state h' := by
  refine ⟨hg.ready, hg.session, ?_⟩
  rcases hg.moved with ⟨hcancel, hio⟩ | ⟨hnext, hpending⟩
  · exact .closed hcancel hio
  · exact .next hnext hpending

theorem Busy.ends_more (hb : Busy host h) (hmore : More pending h'.pending) (hstate : Expects h'.pending h'.m_nextState)
    (hsame : h'.m_nextState = h.m_nextState) (hcancel : h'.m_cancel = h.m_cancel) (hio : h'.m_io = h.m_io)
    (hsession : h'.session = h.session) (hread : h.m_nextState ≠ .readHello) (hheader : h'.pending ≠ .header)
    (hframe : h'.pending ≠ .frame) : Ends host pending h.m_nextState h' :=
  ⟨hb.ready hstate hcancel hio hsession (hsame ▸ hread) hheader hframe, hsession.trans hb.session, .more hsame hmore⟩

theorem run_lift_ok {α : Type} {x : Except Rlp.Exn α} {a : α} (hx : x = .ok a) : (liftM x : HandlerM S α) h = .ok a h := by
  rw [hx]
  rfl

theorem run_lift_error {α : Type} {x : Except Rlp.Exn α} {e : Rlp.Exn} (hx : x = .error e) :
    (liftM x : HandlerM S α) h = .error (.rlp e) h := by
  rw [hx]
  rfl

/-- Of what a handler has read, only buffers and the values of the other end are set. -/
theorem Busy.of_eq (hb : Busy host h) (hpending : h'.pending = h.pending) (hsession : h'.session = h.session)
    (hcancel : h'.m_cancel = h.m_cancel) (hio : h'.m_io = h.m_io) (hread : h'.m_nextState ≠ .readHello) : Busy host h' :=
  ⟨hpending.trans hb.pending, hsession.trans hb.session, fun hc => hio.trans (hb.cancelled (hcancel ▸ hc)),
    fun _ h => absurd h hread⟩

theorem run_readAuthEIP8 (hlength : h.m_authCipher.length = 307) : readAuthEIP8 h =
    .ok () { h with m_authCipher := resize (RLPXHandshake.sizeOf h.m_authCipher + 2) h.m_authCipher, pending :=
      .authEIP8 } := by
  have hsize : 2 ≤ h.m_authCipher.length := by omega
  rw [readAuthEIP8, run_bind_of_ok run_get, run_ite, if_neg (not_not.2 hlength)]
  dsimp only
  rw [run_bind_of_ok (run_lift_ok (sizeOf_eq hsize)), run_modify]

theorem run_readAckEIP8 (hlength : h.m_ackCipher.length = 210) : readAckEIP8 h =
    .ok () { h with m_ackCipher := resize (RLPXHandshake.sizeOf h.m_ackCipher + 2) h.m_ackCipher, pending := .ackEIP8 } := by
  have hsize : 2 ≤ h.m_ackCipher.length := by omega
  rw [readAckEIP8, run_bind_of_ok run_get, run_ite, if_neg (not_not.2 hlength)]
  dsimp only
  rw [run_bind_of_ok (run_lift_ok (sizeOf_eq hsize)), run_modify]

/-- What is known from an auth message -/
def withAuth (host : Host R S) (cipher auth : Bytes) (sig : Signature) (pubk : Public) (nonce : FixedHash 32) (version : Nat)
    (h : Handshake S) : Handshake S :=
  { h with
    toRLPXHandshake := RLPXHandshake.setAuthValues host.crypto sig pubk nonce version
      { h.toRLPXHandshake with m_authCipher := cipher, m_auth := auth } }

theorem run_authRead : authRead host env data h =
    match opened host.crypto h.m_alias [] data with
    | none => readAuthEIP8 { h with m_authCipher := data }
    | some auth => transition host env false
        (withAuth host data auth (ofRef 65 (cropped auth 0 65)) (ofRef 64 (cropped auth 97 64))
          (ofRef 32 (cropped auth 161 32)) 4 h) := by
  rw [authRead, run_bind_of_ok (run_modify _), run_bind_of_ok run_get, run_bind_of_ok (run_lift_ok (decryptECIES_eq ..))]
  cases opened host.crypto h.m_alias [] data with
  | none => rfl
  | some auth => rfl

theorem authRead_ends (hb : Busy host h) (hstate : h.m_nextState = .ackAuth) (hdata : data.length = 307) :
    ∃ h', authRead host env data h = .ok () h' ∧ Ends host .auth h.m_nextState h' := by
  have hread : h.m_nextState ≠ .readHello := hstate ▸ nofun
  rw [run_authRead]
  cases opened host.crypto h.m_alias [] data with
  | none =>
    dsimp only
    rw [run_readAuthEIP8 (h := { h with m_authCipher := data }) hdata]
    exact ⟨_, rfl, hb.ends_more .auth hstate rfl rfl rfl rfl hread nofun nofun⟩
  | some auth =>
    have hb' : Busy host (withAuth host data auth (ofRef 65 (cropped auth 0 65)) (ofRef 64 (cropped auth 97 64))
      (ofRef 32 (cropped auth 161 32)) 4 h) := hb.of_eq rfl rfl rfl rfl hread
    have hstart : h.m_nextState ≠ .startSession := hstate ▸ nofun
    have hhello : h.m_nextState ≠ .writeHello := hstate ▸ nofun
    obtain ⟨h', hok, hgoes⟩ := goes_transition env false hb' (.inr (.inr hstart)) fun _ _ hw => absurd hw hhello
    exact ⟨h', hok, hgoes.ends⟩

/-- The fields of a longer auth message, if it can be read -/
theorem run_authReadEIP8 : authReadEIP8 host env data h =
    match opened host.crypto h.m_alias ((h.m_authCipher.take 307 ++ data).take 2)
      ((h.m_authCipher.take 307 ++ data).drop 2) with
    | none => fail host env { h with m_authCipher := h.m_authCipher.take 307 ++ data }
    | some auth =>
      match RLPXHandshake.authFields auth with
      | .error e => .error (.rlp e) { h with m_authCipher := h.m_authCipher.take 307 ++ data, m_auth := auth }
      | .ok (sig, pubk, nonce, version) => transition host env false
          { withAuth host (h.m_authCipher.take 307 ++ data) auth sig pubk nonce version h with
            m_nextState := .ackAuthEIP8 } := by
  rw [authReadEIP8, run_bind_of_ok (run_modify _), run_bind_of_ok run_get, run_bind_of_ok (run_lift_ok (decryptECIES_eq ..))]
  dsimp only
  cases opened host.crypto h.m_alias ((h.m_authCipher.take 307 ++ data).take 2)
    ((h.m_authCipher.take 307 ++ data).drop 2) with
  | none => rfl
  | some auth =>
    dsimp only
    rw [run_bind_of_ok (run_modify _), authFields_eq]
    cases hfields : RLPXHandshake.authFields auth with
    | error e =>
      rw [run_bind_of_error (run_lift_error rfl)]
    | ok fields =>
      rw [run_bind_of_ok (run_lift_ok rfl)]
      rfl

/-- A handler ends as it should if a condition holds. Otherwise something is thrown, and it leaves. -/
structure Exactly (host : Host R S) (x : HandlerM S Unit) (h : Handshake S) (pending : Pending) (clean : Prop) : Prop where
  ends : clean → ∃ h', x h = .ok () h' ∧ Ends host pending h.m_nextState h'
  throws : ¬ clean → ∃ e h', x h = .error e h'

theorem exactly_transition (pending : Pending) (hb : Busy host h) (hstate : h.m_nextState ≠ .startSession) :
    Exactly host (transition host env false) h pending (Agreeing host h) := by
  constructor
  · intro hagree
    obtain ⟨h', hok, hgoes⟩ := goes_transition env false hb (.inr (.inr hstate)) fun _ => hagree
    exact ⟨h', hok, hgoes.ends⟩
  · intro hagree
    obtain ⟨hcancel, hagree⟩ := not_forall.1 hagree
    obtain ⟨hnext, hnone⟩ := not_forall.1 hagree
    obtain ⟨h', herror⟩ := error_transition env hcancel hnext (not_not.1 hnone)
    exact ⟨_, h', herror⟩

theorem authReadEIP8_exactly (data : Bytes) (hb : Busy host h) (hstate : h.m_nextState = .ackAuth) :
    Exactly host (authReadEIP8 host env data) h .authEIP8 (∀ auth, opened host.crypto h.m_alias
      ((h.m_authCipher.take 307 ++ data).take 2) ((h.m_authCipher.take 307 ++ data).drop 2) = some auth →
      ∃ fields, RLPXHandshake.authFields auth = .ok fields) := by
  have hread : h.m_nextState ≠ .readHello := hstate ▸ nofun
  constructor
  · intro hclean
    rw [run_authReadEIP8]
    cases hopened : opened host.crypto h.m_alias ((h.m_authCipher.take 307 ++ data).take 2)
      ((h.m_authCipher.take 307 ++ data).drop 2) with
    | none =>
      have hb' : Busy host { h with m_authCipher := h.m_authCipher.take 307 ++ data } := hb.of_eq rfl rfl rfl rfl hread
      obtain ⟨h', hok, hgoes⟩ := goes_fail env hb'
      exact ⟨h', hok, hgoes.ends⟩
    | some auth =>
      obtain ⟨⟨sig, pubk, nonce, version⟩, hfields⟩ := hclean auth hopened
      have hb' : Busy host { withAuth host (h.m_authCipher.take 307 ++ data) auth sig pubk nonce version h with
        m_nextState := .ackAuthEIP8 } := hb.of_eq rfl rfl rfl rfl nofun
      obtain ⟨h', hok, hgoes⟩ := goes_transition env false hb' (.inr (.inr nofun)) fun _ _ hw => absurd hw nofun
      dsimp only
      rw [hfields]
      refine ⟨h', hok, Goes.ends ⟨hgoes.ready, hgoes.session, ?_⟩⟩
      rw [hstate]
      exact hgoes.moved
  · intro hunread
    obtain ⟨auth, hunread⟩ := not_forall.1 hunread
    obtain ⟨hopened, hunread⟩ := not_forall.1 hunread
    rw [run_authReadEIP8, hopened]
    dsimp only
    cases hfields : RLPXHandshake.authFields auth with
    | error e => exact ⟨_, _, rfl⟩
    | ok fields => exact absurd ⟨fields, hfields⟩ hunread

/-- What is known from an ack message -/
def withAck (cipher ack : Bytes) (ecdheRemote : Public) (remoteNonce : FixedHash 32) (version : Nat) (h : Handshake S) :
    Handshake S :=
  { h with
    m_ackCipher := cipher
    m_ack := ack
    m_ecdheRemote := ecdheRemote
    m_remoteNonce := remoteNonce
    m_remoteVersion := version }

theorem run_ackRead : ackRead host env data h =
    match opened host.crypto h.m_alias [] data with
    | none => readAckEIP8 { h with m_ackCipher := data }
    | some ack => transition host env false
        (withAck data ack (copyTo 64 (cropped ack 0 64) h.m_ecdheRemote)
          (copyTo 32 (cropped ack 64 32) h.m_remoteNonce) 4 h) := by
  rw [ackRead, run_bind_of_ok (run_modify _), run_bind_of_ok run_get, run_bind_of_ok (run_lift_ok (decryptECIES_eq ..))]
  cases opened host.crypto h.m_alias [] data with
  | none => rfl
  | some ack => rfl

/-- The keys have to agree with one that has come. -/
def Meets (host : Host R S) (h : Handshake S) (ecdheRemote : Public) : Prop :=
  h.m_cancel = false → host.crypto.agree h.m_ecdheLocal ecdheRemote ≠ none

theorem exactly_withAck (pending : Pending) {ack : Bytes} {ecdheRemote : Public} {remoteNonce : FixedHash 32} {version : Nat}
    (hb : Busy host h) (hstate : h.m_nextState = .writeHello) :
    Exactly host (transition host env false) (withAck data ack ecdheRemote remoteNonce version h) pending
      (Meets host h ecdheRemote) := by
  have hread : h.m_nextState ≠ .readHello := hstate ▸ nofun
  have hstart : h.m_nextState ≠ .startSession := hstate ▸ nofun
  have hb' : Busy host (withAck data ack ecdheRemote remoteNonce version h) := hb.of_eq rfl rfl rfl rfl hread
  obtain ⟨hends, hthrows⟩ := exactly_transition env pending hb' hstart
  exact ⟨fun hmeets => hends fun hcancel _ => hmeets hcancel,
    fun hmeets => hthrows fun hagree => hmeets fun hcancel => hagree hcancel hstate⟩

theorem ackRead_exactly (hb : Busy host h) (hstate : h.m_nextState = .writeHello) (hdata : data.length = 210) :
    Exactly host (ackRead host env data) h .ack (∀ ack, opened host.crypto h.m_alias [] data = some ack →
      Meets host h (copyTo 64 (cropped ack 0 64) h.m_ecdheRemote)) := by
  have hread : h.m_nextState ≠ .readHello := hstate ▸ nofun
  constructor
  · intro hclean
    rw [run_ackRead]
    cases hopened : opened host.crypto h.m_alias [] data with
    | none =>
      dsimp only
      rw [run_readAckEIP8 (h := { h with m_ackCipher := data }) hdata]
      exact ⟨_, rfl, hb.ends_more .ack hstate rfl rfl rfl rfl hread nofun nofun⟩
    | some ack => exact (exactly_withAck env .ack hb hstate).ends (hclean ack hopened)
  · intro hunread
    obtain ⟨ack, hunread⟩ := not_forall.1 hunread
    obtain ⟨hopened, hunread⟩ := not_forall.1 hunread
    rw [run_ackRead, hopened]
    exact (exactly_withAck env .ack hb hstate).throws hunread

/-- The fields of a longer ack message, if it can be read -/
theorem run_ackReadEIP8 : ackReadEIP8 host env data h =
    match opened host.crypto h.m_alias ((h.m_ackCipher.take 210 ++ data).take 2)
      ((h.m_ackCipher.take 210 ++ data).drop 2) with
    | none => fail host env { h with m_ackCipher := h.m_ackCipher.take 210 ++ data }
    | some ack =>
      match RLPXHandshake.ackFields ack with
      | .error e => .error (.rlp e) { h with m_ackCipher := h.m_ackCipher.take 210 ++ data, m_ack := ack }
      | .ok (ecdheRemote, remoteNonce, version) => transition host env false
          (withAck (h.m_ackCipher.take 210 ++ data) ack ecdheRemote remoteNonce version h) := by
  rw [ackReadEIP8, run_bind_of_ok (run_modify _), run_bind_of_ok run_get, run_bind_of_ok (run_lift_ok (decryptECIES_eq ..))]
  dsimp only
  cases opened host.crypto h.m_alias ((h.m_ackCipher.take 210 ++ data).take 2) ((h.m_ackCipher.take 210 ++ data).drop 2) with
  | none => rfl
  | some ack =>
    dsimp only
    rw [run_bind_of_ok (run_modify _), ackFields_eq]
    cases hfields : RLPXHandshake.ackFields ack with
    | error e => rw [run_bind_of_error (run_lift_error rfl)]
    | ok fields =>
      rw [run_bind_of_ok (run_lift_ok rfl)]
      rfl

theorem ackReadEIP8_exactly (data : Bytes) (hb : Busy host h) (hstate : h.m_nextState = .writeHello) :
    Exactly host (ackReadEIP8 host env data) h .ackEIP8 (∀ ack, opened host.crypto h.m_alias
      ((h.m_ackCipher.take 210 ++ data).take 2) ((h.m_ackCipher.take 210 ++ data).drop 2) = some ack →
      ∃ ecdheRemote remoteNonce version, RLPXHandshake.ackFields ack = .ok (ecdheRemote, remoteNonce, version) ∧
        Meets host h ecdheRemote) := by
  have hread : h.m_nextState ≠ .readHello := hstate ▸ nofun
  constructor
  · intro hclean
    rw [run_ackReadEIP8]
    cases hopened : opened host.crypto h.m_alias ((h.m_ackCipher.take 210 ++ data).take 2)
      ((h.m_ackCipher.take 210 ++ data).drop 2) with
    | none =>
      have hb' : Busy host { h with m_ackCipher := h.m_ackCipher.take 210 ++ data } := hb.of_eq rfl rfl rfl rfl hread
      obtain ⟨h', hok, hgoes⟩ := goes_fail env hb'
      exact ⟨h', hok, hgoes.ends⟩
    | some ack =>
      obtain ⟨ecdheRemote, remoteNonce, version, hfields, hmeets⟩ := hclean ack hopened
      dsimp only
      rw [hfields]
      exact (exactly_withAck env .ackEIP8 hb hstate).ends hmeets
  · intro hunread
    obtain ⟨ack, hunread⟩ := not_forall.1 hunread
    obtain ⟨hopened, hunread⟩ := not_forall.1 hunread
    rw [run_ackReadEIP8, hopened]
    dsimp only
    cases hfields : RLPXHandshake.ackFields ack with
    | error e => exact ⟨_, _, rfl⟩
    | ok fields =>
      obtain ⟨ecdheRemote, remoteNonce, version⟩ := fields
      exact (exactly_withAck env .ackEIP8 hb hstate).throws fun hmeets =>
        hunread ⟨ecdheRemote, remoteNonce, version, hfields, hmeets⟩

/-! ### The hello frame -/

theorem length_resize (size : Nat) (b : Bytes) : (resize size b).length = size := by
  rw [resize, List.length_append, List.length_take, List.length_replicate]
  omega

theorem length_header {s : Secrets S} {coder coder' : Coder S} {io header : Bytes} (hlength : io.length = 32)
    (hheader : authAndDecryptHeader s coder io = some (header, coder')) : header.length = 32 := by
  unfold authAndDecryptHeader at hheader
  dsimp only at hheader
  split at hheader
  · cases hheader
  · cases hheader
    rw [List.length_append, KeyStream.length_process, ← List.length_append, List.take_append_drop, hlength]

/-- The frame is asked for, or there is none to ask for. -/
theorem headerRead_ends {before : Bytes} (hb : Busy host h) (hstate : h.m_nextState = .startSession)
    (hdata : data.length = 32)
    (hreceived : h.received = before ++ data) (hcoder : h.m_cancel = false → HasCoder host h) :
    ∃ h', headerRead host env data h = .ok () h' ∧ Ends host .header h.m_nextState h' := by
  have hread : h.m_nextState ≠ .readHello := hstate ▸ nofun
  have hfail : ∀ {h' : Handshake S}, Busy host h' → ∃ h'',
      fail host env h' = .ok () h'' ∧ Ends host .header h.m_nextState h'' := by
    intro h' hb'
    obtain ⟨h'', hok, hgoes⟩ := goes_fail env hb'
    exact ⟨h'', hok, hgoes.ends⟩
  rw [headerRead, run_bind_of_ok (run_modify _), run_bind_of_ok run_get]
  dsimp only
  cases hio : h.m_io with
  | none => exact hfail (hb.of_eq rfl rfl rfl rfl hread)
  | some io =>
    have hcancel : h.m_cancel = false := by
      cases hc : h.m_cancel with
      | false => rfl
      | true => exact absurd (hio.symm.trans (hb.cancelled hc)) nofun
    obtain ⟨io', hio', hingress⟩ := hcoder hcancel
    cases Option.some.inj (hio.symm.trans hio')
    rw [hingress]
    dsimp only
    rw [run_ite, if_neg (not_not.2 hdata)]
    cases hheader : authAndDecryptHeader (host.secrets io) (host.ingress io) data with
    | none => exact hfail (hb.of_eq rfl rfl rfl rfl hread)
    | some r =>
      obtain ⟨header, coder⟩ := r
      have hthree : 3 ≤ header.length := by
        rw [length_header hdata hheader]
        decide
      dsimp only
      rw [run_bind_of_ok (run_modify _), run_bind_of_ok (run_lift_ok (frameSize_eq hthree)), run_ite]
      split
      · exact hfail (hb.of_eq rfl rfl rfl rfl hread)
      · rw [run_modify]
        have hlen := length_resize (frameLength header + paddingOf (frameLength header) + 16) header
        refine ⟨_, rfl, ⟨hstate, fun hc => hb.cancelled hc, fun _ => hb.session, ?_, fun _ => ?_⟩,
          hb.session, .more rfl .header⟩
        · rintro _ (hw | hw)
          · exact absurd hw hread
          · exact absurd hw nofun
        · refine ⟨?_, fun _ => ⟨header, ⟨io, before, data, coder, hio, hreceived, hheader, rfl⟩, hlen⟩⟩
          dsimp only
          rw [hlen]
          omega

/-- A frame with a right MAC is taken as a hello packet, and it starts a session. -/
def Begins (host : Host R S) (h : Handshake S) (data : Bytes) : Prop :=
  ∃ io coder frame coder', h.m_io = some io ∧ h.ingress = some coder ∧
    authAndDecryptFrame (host.secrets io) coder data = some (frame, coder') ∧ isHelloPacket (frame.getD 0 0) = true ∧
    ∃ r, RLP.mk' (frame.drop 1) { throwOnFail := true, failIfTooSmall := true } = .ok r ∧
      host.startPeerSession h.m_remote r.data = some true

theorem length_frame {s : Secrets S} {coder coder' : Coder S} {io frame : Bytes}
    (hframe : authAndDecryptFrame s coder io = some (frame, coder')) : frame.length = io.length := by
  unfold authAndDecryptFrame at hframe
  dsimp only at hframe
  split at hframe
  · cases hframe
  · cases hframe
    rw [List.length_append, KeyStream.length_process, ← List.length_append, List.take_append_drop]

/-- How a handler ends that may have started a session -/
structure Starts (host : Host R S) (state : RLPXHandshake.State) (begins : Prop) (h' : Handshake S) : Prop where
  ready : Ready host h'
  settled : Settled .frame state h'
  session : (∃ k b, h'.session = some (k, b, true)) ↔ begins

theorem fail_starts {begins : Prop} (hb : Busy host h) (hbegins : ¬ begins) :
    ∃ h', fail host env h = .ok () h' ∧ Starts host state begins h' := by
  obtain ⟨h', hok, hgoes⟩ := goes_fail env hb
  obtain ⟨hready, hsession, hsettled⟩ : Ends host .frame state h' := hgoes.ends
  refine ⟨h', hok, hready, hsettled, iff_of_false ?_ hbegins⟩
  rintro ⟨k, b, h⟩
  cases h.symm.trans hsession

theorem startSession_starts {x : Except Rlp.Exn RLP} (hb : Busy host h) (hread : h.m_nextState ≠ .readHello) :
    ∃ h', startSession host env x h = .ok () h' ∧
      Starts host state (∃ r, x = .ok r ∧ host.startPeerSession h.m_remote r.data = some true) h' := by
  rw [startSession, run_bind_of_ok run_get]
  cases x with
  | error e =>
    refine fail_starts env hb ?_
    rintro ⟨r, hr, -⟩
    cases hr
  | ok r =>
    dsimp only
    cases hstart : host.startPeerSession h.m_remote r.data with
    | none =>
      refine fail_starts env hb ?_
      rintro ⟨r, hr, hstarted⟩
      cases hr
      cases hstart.symm.trans hstarted
    | some started =>
      refine ⟨_, rfl, ⟨?_, fun _ => rfl, fun hp => absurd hb.pending hp, ?_, fun hp => ?_⟩, .session nofun, ?_⟩
      · dsimp only
        rw [hb.pending]
        trivial
      · rintro - (hw | hw)
        · exact absurd hw hread
        · cases hb.pending.symm.trans hw
      · cases hb.pending.symm.trans hp
      · constructor
        · rintro ⟨k, b, hsession⟩
          cases hsession
          exact ⟨r, rfl, hstart⟩
        · rintro ⟨r', hr, hstarted⟩
          cases hr
          cases hstart.symm.trans hstarted
          exact ⟨h.m_remote, r.data, rfl⟩

theorem frameRead_starts (hb : Busy host h) (hstate : h.m_nextState = .startSession) (hdata : 16 ≤ data.length) :
    ∃ h', frameRead host env data h = .ok () h' ∧ Starts host h.m_nextState (Begins host h data) h' := by
  have hread : h.m_nextState ≠ .readHello := hstate ▸ nofun
  rw [frameRead, run_bind_of_ok (run_modify _), run_bind_of_ok run_get]
  dsimp only
  cases hio : h.m_io with
  | none =>
    refine fail_starts env (hb.of_eq rfl rfl rfl rfl hread) ?_
    rintro ⟨io, coder, frame, coder', hio', -⟩
    cases hio.symm.trans hio'
  | some io =>
    cases hingress : h.ingress with
    | none =>
      refine fail_starts env (hb.of_eq rfl rfl rfl rfl hread) ?_
      rintro ⟨io, coder, frame, coder', -, hingress', -⟩
      cases hingress.symm.trans hingress'
    | some coder =>
      dsimp only
      rw [run_bind_of_ok (run_lift_ok (Checked.view_some (by omega)))]
      cases hframe : authAndDecryptFrame (host.secrets io) coder data with
      | none =>
        refine fail_starts env (hb.of_eq rfl rfl rfl rfl hread) ?_
        rintro ⟨io', coder', frame, coder'', hio', hingress', hframe', -⟩
        cases hio.symm.trans hio'
        cases hingress.symm.trans hingress'
        cases hframe.symm.trans hframe'
      | some x =>
        obtain ⟨frame, coder'⟩ := x
        have hfirst : 0 < frame.length := by
          rw [length_frame hframe]
          omega
        have hbegins : Begins host h data ↔ isHelloPacket (frame.getD 0 0) = true ∧
            ∃ r, RLP.mk' (frame.drop 1) { throwOnFail := true, failIfTooSmall := true } = .ok r ∧
              host.startPeerSession h.m_remote r.data = some true := by
          constructor
          · rintro ⟨io', coder', frame', coder'', hio', hingress', hframe', hopens⟩
            cases hio.symm.trans hio'
            cases hingress.symm.trans hingress'
            cases hframe.symm.trans hframe'
            exact hopens
          · exact fun hopens => ⟨io, coder, frame, coder', hio, hingress, hframe, hopens⟩
        dsimp only
        rw [run_bind_of_ok (run_modify _), run_bind_of_ok (run_lift_ok (Checked.byteAt_of_lt hfirst)), run_ite,
          Checked.mk'_eq, hbegins]
        cases hhello : isHelloPacket (frame.getD 0 0) with
        | false => exact fail_starts env (hb.of_eq rfl rfl rfl rfl hread) fun hopens => absurd hopens.1 nofun
        | true =>
          rw [if_neg (by decide), eq_self_iff_true, true_and]
          exact startSession_starts env (hb.of_eq rfl rfl rfl rfl hread) hread

/-- The MAC of an empty frame is taken as a hello packet itself, and it starts a session. -/
def Bare (host : Host R S) (h : Handshake S) (data : Bytes) : Prop :=
  data.length = 16 ∧ ∃ io coder, h.m_io = some io ∧ h.ingress = some coder ∧
    data = (host.secrets io).digest (updateMACWithFrame (host.secrets io) coder.mac []) ∧
      isHelloPacket (data.getD 0 0) = true ∧
    ∃ r, RLP.mk' (data.drop 1) { throwOnFail := true, failIfTooSmall := true } = .ok r ∧
      host.startPeerSession h.m_remote r.data = some true

/-- Of a frame that is only a MAC, nothing is decrypted. -/
theorem authAndDecryptFrame_eq_some_iff {s : Secrets S} {coder : Coder S} (hdata : data.length = 16) {frame : Bytes} :
    (∃ coder', authAndDecryptFrame s coder data = some (frame, coder')) ↔
      data = s.digest (updateMACWithFrame s coder.mac []) ∧ frame = data := by
  unfold authAndDecryptFrame
  rw [hdata]
  dsimp only
  rw [Nat.sub_self, List.take_zero, List.drop_zero, KeyStream.process_nil, List.nil_append]
  by_cases hmac : data = s.digest (updateMACWithFrame s coder.mac [])
  · rw [if_neg (not_not.2 hmac)]
    constructor
    · rintro ⟨coder', hframe⟩
      cases hframe
      exact ⟨hmac, rfl⟩
    · rintro ⟨-, hframe⟩
      rw [hframe]
      exact ⟨_, rfl⟩
  · rw [if_pos hmac]
    refine iff_of_false ?_ fun h => hmac h.1
    rintro ⟨coder', hframe⟩
    cases hframe

theorem begins_iff_bare (hdata : data.length = 16) : Begins host h data ↔ Bare host h data := by
  constructor
  · rintro ⟨io, coder, frame, coder', hio, hingress, hframe, hopens⟩
    obtain ⟨hmac, rfl⟩ := (authAndDecryptFrame_eq_some_iff hdata).1 ⟨coder', hframe⟩
    exact ⟨hdata, io, coder, hio, hingress, hmac, hopens⟩
  · rintro ⟨-, io, coder, hio, hingress, hmac, hopens⟩
    obtain ⟨coder', hframe⟩ := (authAndDecryptFrame_eq_some_iff hdata).2 ⟨hmac, rfl⟩
    exact ⟨io, coder, data, coder', hio, hingress, hframe, hopens⟩

/-- A session begins with a hello packet, but for an empty frame. -/
theorem isHello_iff (hr : Ready host h) (hframe : h.pending = .frame) (hdata : data.length = h.m_handshakeInBuffer.length) :
    (Begins host h data → IsHello host h data) ↔ ¬ Bare host h data := by
  constructor
  · intro hhello hbare
    obtain ⟨header, io, coder, frame, coder', -, -, -, -, hlength, hpos, -⟩ := hhello ((begins_iff_bare hbare.1).2 hbare)
    have hdata := hbare.1
    omega
  · intro hbare hbegins
    obtain ⟨io, coder, frame, coder', hio, hingress, hopen, hfirst, -⟩ := id hbegins
    have hcancel : h.m_cancel = false := by
      cases hc : h.m_cancel with
      | false => rfl
      | true => cases hio.symm.trans (hr.cancelled hc)
    obtain ⟨header, hheader, hlength⟩ := (hr.frame hframe).2 hcancel
    refine ⟨header, io, coder, frame, coder', hheader, hio, hingress, hopen, hdata.trans hlength,
      Nat.pos_of_ne_zero fun hzero => ?_, hfirst⟩
    rw [hzero] at hlength
    exact hbare ((begins_iff_bare (hdata.trans hlength)).1 hbegins)

/-! ### Events -/

variable {env}

/-- An event is handled: nothing leaves the handler, and a session is started by a hello packet only. -/
def Handled (host : Host R S) (h : Handshake S) (e : Event R) : Prop :=
  ∃ h', handle host e h = .ok () h' ∧ Settled h.pending h.m_nextState h' ∧
    ((∃ k b, h'.session = some (k, b, true)) → ∃ env data, e = .read env data ∧ h.pending = .frame ∧ IsHello host h data)

/-- What has been decrypted can be read, the keys agree, and a frame is not empty. -/
def Clean (host : Host R S) (h : Handshake S) : Event R → Prop
  | .written _ => Agreeing host h
  | .read _ data =>
    match h.pending with
    | .authEIP8 => ∀ auth, opened host.crypto h.m_alias ((h.m_authCipher.take 307 ++ data).take 2)
        ((h.m_authCipher.take 307 ++ data).drop 2) = some auth → ∃ fields, RLPXHandshake.authFields auth = .ok fields
    | .ack => ∀ ack, opened host.crypto h.m_alias [] data = some ack →
      Meets host h (copyTo 64 (cropped ack 0 64) h.m_ecdheRemote)
    | .ackEIP8 => ∀ ack, opened host.crypto h.m_alias ((h.m_ackCipher.take 210 ++ data).take 2)
        ((h.m_ackCipher.take 210 ++ data).drop 2) = some ack →
          ∃ ecdheRemote remoteNonce version, RLPXHandshake.ackFields ack = .ok (ecdheRemote, remoteNonce, version) ∧
            Meets host h ecdheRemote
    | .frame => ¬ Bare host h data
    | _ => True
  | _ => True

/-- An event is handled just if it is clean, and what is known holds behind it. -/
structure Decided (host : Host R S) (h : Handshake S) (e : Event R) : Prop where
  handled : Handled host h e ↔ Clean host h e
  ready : ∀ h', handle host e h = .ok () h' → Ready host h'

/-- Before a handler looks at what has come -/
def arrived (data : Bytes) (h : Handshake S) : Handshake S := { h with pending := .nothing, received := h.received ++ data }

theorem Ready.busy (hr : Ready host h) (hpending : h.pending ≠ .nothing) : Busy host (arrived data h) :=
  ⟨rfl, hr.session hpending, hr.cancelled, fun hcancel hnext => hr.coder hcancel (.inl hnext)⟩

theorem Ends.decided (he : Ends host h.pending h.m_nextState h') (hok : handle host e h = .ok () h')
    (hclean : Clean host h e) : Decided host h e := by
  refine ⟨iff_of_true ⟨h', hok, he.settled, ?_⟩ hclean, ?_⟩
  · rintro ⟨k, b, hsession⟩
    cases hsession.symm.trans he.session
  · intro h'' hok'
    cases hok.symm.trans hok'
    exact he.ready

theorem Exactly.decided {x : HandlerM S Unit} {clean : Prop} (hx : Exactly host x (arrived data h) h.pending clean)
    (hhandle : handle host e h = x (arrived data h)) (hclean : Clean host h e ↔ clean) : Decided host h e := by
  by_cases hc : clean
  · obtain ⟨h', hok, hends⟩ := hx.ends hc
    exact Ends.decided hends (hhandle.trans hok) (hclean.2 hc)
  · obtain ⟨x, h', herror⟩ := hx.throws hc
    have herror := hhandle.trans herror
    refine ⟨iff_of_false ?_ fun h => hc (hclean.1 h), ?_⟩
    · rintro ⟨h'', hok, -⟩
      cases herror.symm.trans hok
    · intro h'' hok
      cases herror.symm.trans hok

theorem Starts.decided (hr : Ready host h) (hpending : h.pending = .frame)
    (hdata : data.length = h.m_handshakeInBuffer.length)
    (hs : Starts host h.m_nextState (Begins host h data) h') (hok : handle host (.read env data) h = .ok () h') :
    Decided host h (.read env data) := by
  constructor
  · have hclean : Clean host h (.read env data) ↔ ¬ Bare host h data := by
      rw [Clean, hpending]
    rw [hclean, ← isHello_iff hr hpending hdata, ← hs.session]
    constructor
    · rintro ⟨h'', hok', -, hhello⟩ hstarted
      cases hok.symm.trans hok'
      obtain ⟨env', data', he, -, hhello⟩ := hhello hstarted
      cases he
      exact hhello
    · intro hhello
      exact ⟨h', hok, hpending.symm ▸ hs.settled, fun hstarted => ⟨env, data, rfl, hpending, hhello hstarted⟩⟩
  · intro h'' hok'
    cases hok.symm.trans hok'
    exact hs.ready

/-- Where a handler needs nothing of what has come -/
theorem exactly_of_ends {x : HandlerM S Unit} (hx : ∃ h', x h = .ok () h' ∧ Ends host pending h.m_nextState h') :
    Exactly host x h pending True :=
  ⟨fun _ => hx, fun hfalse => absurd trivial hfalse⟩

theorem exactly_cancelled (env : RLPXHandshake.Env R) (pending : Pending) (hb : Busy host h) :
    Exactly host (transition host env true) h pending True := by
  obtain ⟨h', hok, hgoes⟩ := goes_transition env true hb (.inl rfl) nofun
  exact exactly_of_ends ⟨h', hok, hgoes.ends⟩

theorem decided_read (hr : Ready host h) (hwanted : h.wanted = some data.length) : Decided host h (.read env data) := by
  have hhandle : ∀ {pending : Pending}, h.pending = pending →
      handle host (.read env data) h = read host env data pending (arrived data h) := by
    rintro _ rfl
    rfl
  have hexpects := hr.state
  unfold wanted at hwanted
  cases hpending : h.pending with
  | start | written | nothing =>
    rw [hpending] at hwanted
    cases hwanted
  | auth =>
    rw [hpending] at hwanted hexpects
    have hb : Busy host (arrived data h) := hr.busy (hpending ▸ nofun)
    have hx := exactly_of_ends (authRead_ends env hb hexpects (Option.some.inj hwanted).symm)
    exact Exactly.decided (hpending ▸ hx) (hhandle hpending) (by rw [Clean, hpending])
  | authEIP8 =>
    rw [hpending] at hexpects
    have hb : Busy host (arrived data h) := hr.busy (hpending ▸ nofun)
    have hx := authReadEIP8_exactly env data hb hexpects
    exact Exactly.decided (hpending ▸ hx) (hhandle hpending) (by rw [Clean, hpending]; rfl)
  | ack =>
    rw [hpending] at hwanted hexpects
    have hb : Busy host (arrived data h) := hr.busy (hpending ▸ nofun)
    have hx := ackRead_exactly env hb hexpects (Option.some.inj hwanted).symm
    exact Exactly.decided (hpending ▸ hx) (hhandle hpending) (by rw [Clean, hpending]; rfl)
  | ackEIP8 =>
    rw [hpending] at hexpects
    have hb : Busy host (arrived data h) := hr.busy (hpending ▸ nofun)
    have hx := ackReadEIP8_exactly env data hb hexpects
    exact Exactly.decided (hpending ▸ hx) (hhandle hpending) (by rw [Clean, hpending]; rfl)
  | header =>
    rw [hpending] at hwanted hexpects
    have hb : Busy host (arrived data h) := hr.busy (hpending ▸ nofun)
    have hcoder : h.m_cancel = false → HasCoder host h := fun hcancel => hr.coder hcancel (.inr hpending)
    have hx := exactly_of_ends (headerRead_ends env hb hexpects (Option.some.inj hwanted).symm rfl hcoder)
    exact Exactly.decided (hpending ▸ hx) (hhandle hpending) (by rw [Clean, hpending])
  | frame =>
    rw [hpending] at hwanted hexpects
    have hb : Busy host (arrived data h) := hr.busy (hpending ▸ nofun)
    have hdata : data.length = h.m_handshakeInBuffer.length := (Option.some.inj hwanted).symm
    obtain ⟨h', hok, hstarts⟩ := frameRead_starts env hb hexpects (hdata ▸ (hr.frame hpending).1)
    exact Starts.decided hr hpending hdata hstarts ((hhandle hpending).trans hok)

/-- Every event of a handshake -/
theorem decided (hr : Ready host h) (ha : Accepts h e) : Decided host h e := by
  have hexpects := hr.state
  cases e with
  | start env =>
    have ha : h.pending = .start := ha
    have hb : Busy host (arrived [] h) := hr.busy (ha ▸ nofun)
    rw [ha] at hexpects
    have hnew : h.m_nextState = .new := hexpects
    refine Exactly.decided (exactly_transition env _ hb ?_) rfl (iff_of_true trivial fun _ hw => ?_)
    · exact fun hw => absurd (hnew.symm.trans hw) nofun
    · exact absurd (hnew.symm.trans hw) nofun
  | written env =>
    have ha : h.pending = .written := ha
    have hb : Busy host (arrived [] h) := hr.busy (ha ▸ nofun)
    rw [ha] at hexpects
    refine Exactly.decided (exactly_transition env _ hb ?_) rfl Iff.rfl
    intro hw
    have hw : h.m_nextState = .startSession := hw
    rw [hw] at hexpects
    rcases hexpects with h | h | h <;> cases h
  | read env data => exact decided_read hr ha
  | failed env => exact Exactly.decided (exactly_cancelled env _ (hr.busy ha.2)) rfl Iff.rfl
  | timeout =>
    have hready : Ready host h.cancelled := ⟨hexpects, fun _ => rfl, hr.session, nofun, fun hp => ⟨(hr.frame hp).1, nofun⟩⟩
    have hends : Ends host h.pending h.m_nextState h.cancelled := ⟨hready, hr.session ha.2, .closed rfl rfl⟩
    exact Ends.decided hends rfl trivial

/-! ### Runs -/

/-- All events that may come one after the other are handled. -/
def Handles (host : Host R S) : Handshake S → List (Event R) → Prop
  | _, [] => True
  | h, e :: es => Accepts h e → Handled host h e ∧ ∀ h', handle host e h = .ok () h' → Handles host h' es

/-- All of them are clean. -/
def Cleans (host : Host R S) : Handshake S → List (Event R) → Prop
  | _, [] => True
  | h, e :: es => Accepts h e → Clean host h e ∧ ∀ h', handle host e h = .ok () h' → Cleans host h' es

theorem Ready.handles_iff_cleans (es : List (Event R)) : ∀ {h : Handshake S},
    Ready host h → (Handles host h es ↔ Cleans host h es) := by
  induction es with
  | nil => exact fun _ => Iff.rfl
  | cons e es ih =>
    intro h hr
    refine forall_congr' fun ha => ?_
    obtain ⟨hhandled, hready⟩ := decided hr ha
    exact and_congr hhandled (forall_congr' fun h' => forall_congr' fun hok => ih (hready h' hok))

/-- A handshake as it is made -/
def made (h : RLPXHandshake) : Handshake S := { toRLPXHandshake := h }

theorem ready_made {r : RLPXHandshake} (hnext : r.m_nextState = .new) (hcancel : r.m_cancel = false) :
    Ready host (made r : Handshake S) := by
  refine ⟨hnext, fun hc => ?_, fun _ => rfl, fun _ hw => ?_, nofun⟩
  · cases hcancel.symm.trans hc
  · rcases hw with hw | hw
    · cases hnext.symm.trans hw
    · cases hw

/-- Whatever comes to an end of a connection, it is handled as long as it is clean, and not any longer. -/
theorem handles_iff (host : Host R S) (m_alias : Secret) (remote : Public) (m_ecdheLocal : Secret) (m_nonce : FixedHash 32)
    (es : List (Event R)) :
    (Handles host (made (.dial m_alias remote m_ecdheLocal m_nonce)) es ↔
      Cleans host (made (.dial m_alias remote m_ecdheLocal m_nonce)) es) ∧
      (Handles host (made (.accept m_alias m_ecdheLocal m_nonce)) es ↔
        Cleans host (made (.accept m_alias m_ecdheLocal m_nonce)) es) :=
  ⟨(ready_made rfl rfl).handles_iff_cleans es, (ready_made rfl rfl).handles_iff_cleans es⟩

/-- An encryption whose longer messages are all of an empty list, with something behind it -/
def listing : Host Unit Unit where
  crypto := { RLPXHandshake.clear with decryptECIES := fun _ sharedMacData _ =>
    if sharedMacData = [] then none else some (0xc0 :: List.replicate 192 0) }
  secrets _ := ⟨fun _ => 0, fun _ _ => (), fun _ => List.replicate 16 0, fun _ => rfl, id, fun _ => rfl⟩
  ingress _ := ⟨0, ()⟩
  startPeerSession _ _ := none

/-- A message that has another byte than `readAuth` waits for -/
def longer : Bytes := [1, 50, 4] ++ List.replicate 304 0

theorem not_handles_of_longer {data : Bytes} {e : Rlp.Exn} (hlength : data.length = 307)
    (hshort : opened listing.crypto 2 [] data = none)
    (hsize : RLPXHandshake.sizeOf data = 306) (hlist : opened listing.crypto 2 (((resize 308 data).take 307 ++ [0]).take 2)
      (((resize 308 data).take 307 ++ [0]).drop 2) = some (0xc0 :: List.replicate 192 0))
    (hfields : RLPXHandshake.authFields (0xc0 :: List.replicate 192 0) = .error e) :
    ¬ Handles listing (made (.accept 2 4 6)) [.start ⟨(), 0, []⟩, .read ⟨(), 0, []⟩ data, .read ⟨(), 0, []⟩ [0]] := by
  intro hhandles
  have hread := (hhandles rfl).2 _ rfl
  have hfirst : ∀ h : Handshake Unit, h.m_alias = 2 → authRead listing ⟨(), 0, []⟩ data h =
      .ok () { h with m_authCipher := resize 308 data, pending := .authEIP8 } := by
    intro h halias
    have hrun := run_readAuthEIP8 (h := { h with m_authCipher := data }) hlength
    rw [run_authRead, show opened listing.crypto h.m_alias [] data = none from halias.symm ▸ hshort]
    refine hrun.trans ?_
    dsimp only
    rw [hsize]
  have hrest := (hread (congrArg some hlength.symm)).2 _ (hfirst _ rfl)
  have hone : some ((resize 308 data).length - 307) = some 1 := by rw [length_resize]
  obtain ⟨h', hok, -⟩ := (hrest hone).1
  have hthrows : ∀ h h' : Handshake Unit, authReadEIP8 listing ⟨(), 0, []⟩ [0] h = .ok () h' → h.m_alias = 2 →
      h.m_authCipher ≠ resize 308 data := by
    intro h h' hok halias hcipher
    rw [run_authReadEIP8, hcipher, show opened listing.crypto h.m_alias _ _ = _ from halias.symm ▸ hlist] at hok
    dsimp only at hok
    rw [hfields] at hok
    cases hok
  exact hthrows _ h' hok rfl rfl

/-- A list without items leaves the handler of an auth message. -/
theorem not_handles :
    ¬ Handles listing (made (.accept 2 4 6)) [.start ⟨(), 0, []⟩, .read ⟨(), 0, []⟩ longer, .read ⟨(), 0, []⟩ [0]] :=
  not_handles_of_longer (by decide +kernel) (by decide +kernel) (by decide +kernel) (by decide +kernel)
    (show RLPXHandshake.authFields (0xc0 :: List.replicate 192 0) = .error .badRLP by decide +kernel)

end Handshake

end Kmdx.P2p.Receiving
