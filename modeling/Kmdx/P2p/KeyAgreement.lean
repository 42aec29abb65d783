import Kmdx.P2p.Handshake

/-!
# Both ends have the same keys

An ideal encryption is read by whom it is for, and only as a whole (`Lawful`). So an end that gets on has read what the other
one has written (`Phase`), and what the frame coders are made from is the same (`setup_eq`).
-/

namespace Kmdx.P2p

open Rlp ExceptRules List

variable {R : Type} {c : DevCrypto R} {size : Nat}

/-- What is known of the cryptography. Messages are not empty, and their sizes have two bytes. -/
structure DevCrypto.Lawful (c : DevCrypto R) : Prop where
  agree_comm : ∀ k k', c.agree k (c.toPublic k') = c.agree k' (c.toPublic k)
  recover_sign : ∀ k h, c.recover (c.sign k h) h = c.toPublic k
  length_encrypt : ∀ k p m r, m ≠ [] → (c.encryptECIES k p m r).length = m.length + c_eciesOverhead
  decrypt_encrypt : ∀ k p m r, m ≠ [] → c.decryptECIES k p (c.encryptECIES (c.toPublic k) p m r) = some m
  /-- Of what begins a message, only the message is read, by whom it is for. -/
  of_decrypt : ∀ k k' p p' m m' r x n, p.length ≤ 2 → p'.length ≤ 2 → m' ≠ [] → m'.length + c_eciesOverhead < 2 ^ 16 →
    p ++ x = (p' ++ c.encryptECIES k' p' m' r).take n → c.decryptECIES k p x = some m →
    p = p' ∧ x = c.encryptECIES k' p' m' r ∧ k' = c.toPublic k ∧ m = m'

/-! ### Buffers -/

section Buffers

variable {b x : Bytes}

/-- Behind the first 32 bytes there is another part then. -/
theorem put_resize (h : 32 ≤ b.length) : put (resize (32 + x.length) b) 32 x = b.take 32 ++ x := by
  have htake : (resize (32 + x.length) b).take 32 = b.take 32 := by
    rw [resize, take_append_of_le_length (by rw [length_take]; omega), take_take, min_eq_left (Nat.le_add_right _ _)]
  have hlen : (resize (32 + x.length) b).length = 32 + x.length := by
    rw [resize, length_append, length_take, length_replicate]
    omega
  rw [put, htake, drop_eq_nil_of_le hlen.le, append_nil]

/-- What goes into a MAC -/
theorem put_mac (b x : Bytes) (v : FixedHash 32) : put (resize (32 + x.length) (put b 0 (hashBytes 32 v))) 32 x =
    hashBytes 32 v ++ x := by
  have hput : put b 0 (hashBytes 32 v) = hashBytes 32 v ++ b.drop 32 := by
    rw [put, take_zero, nil_append, length_hashBytes, Nat.zero_add]
  have hlen : 32 ≤ (put b 0 (hashBytes 32 v)).length := by
    rw [hput, length_append, length_hashBytes]
    exact Nat.le_add_right _ _
  rw [put_resize hlen, hput, take_hashBytes]

end Buffers

/-! ### The keys -/

/-- The MAC secret and the frame key of a shared secret and the nonces, of the responder and of the initiator -/
def secretsOf (c : DevCrypto R) (shared : Secret) (leftNonce rightNonce : FixedHash 32) : FixedHash 32 × FixedHash 32 :=
  let sharedSecret := c.sha3
      (hashBytes 32 shared ++ hashBytes 32 (c.sha3 (hashBytes 32 leftNonce ++ hashBytes 32 rightNonce)))
  let aesSecret := c.sha3 (hashBytes 32 shared ++ hashBytes 32 sharedSecret)
  (c.sha3 (hashBytes 32 shared ++ hashBytes 32 aesSecret), aesSecret)

variable {rest m data auth : Bytes}

/-- A second half of the key material -/
theorem put_half (a b : FixedHash 32) (hrest : rest.length = 32) :
    put (hashBytes 32 a ++ rest) 32 (hashBytes 32 b) = hashBytes 32 a ++ hashBytes 32 b := by
  rw [put, take_hashBytes, drop_eq_nil_of_le (by simp [hrest]), append_nil]

theorem cropped_half (a b : FixedHash 32) : cropped (hashBytes 32 a ++ hashBytes 32 b) 32 32 = hashBytes 32 b := by
  rw [cropped, if_pos (by simp), drop_hashBytes, take_of_length_le (by simp)]

/-- What a frame coder is set up with, but for the buffer -/
theorem setup_eq (originated : Bool) (remoteEphemeral : Public) (remoteNonce : FixedHash 32) (ecdheLocal : Secret)
    (nonce : FixedHash 32) (ackCipher authCipher : Bytes) :
    setup c originated remoteEphemeral remoteNonce ecdheLocal nonce ackCipher authCipher =
      (c.agree ecdheLocal remoteEphemeral).map fun shared =>
        let secrets := secretsOf c shared (if originated then remoteNonce else nonce)
          (if originated then nonce else remoteNonce)
        { frameEncKey := hashBytes 32 secrets.2
          frameDecKey := hashBytes 32 secrets.2
          macEncKey := hashBytes 32 secrets.1
          egressMac := hashBytes 32 (secrets.1 ^^^ remoteNonce) ++ if originated then authCipher else ackCipher
          ingressMac := hashBytes 32 (secrets.1 ^^^ nonce) ++ if originated then ackCipher else authCipher } := by
  rw [setup]
  cases c.agree ecdheLocal remoteEphemeral with
  | none => rfl
  | some shared =>
    have hfirst : put (List.replicate 64 0) 0 (hashBytes 32 shared) = hashBytes 32 shared ++ List.replicate 32 0 := by
      rw [put, take_zero, nil_append, drop_replicate, length_hashBytes]
    -- The other nonce is taken out of the MAC again.
    have hxor : ∀ mac : FixedHash 32, mac ^^^ remoteNonce ^^^ remoteNonce ^^^ nonce = mac ^^^ nonce := fun mac => by
      rw [BitVec.xor_assoc mac, BitVec.xor_self, BitVec.xor_zero]
    dsimp only [Option.map_some]
    rw [hfirst, put_half _ _ (by simp), put_half _ _ (by simp), put_half _ _ (by simp), put_half _ _ (by simp), cropped_half,
      cropped_half, ofRef_hashBytes, put_mac, put_mac, cropped_first, ofRef_hashBytes, hxor]
    rfl

/-- The frame coders of both ends fit together. -/
structure Agrees (i r : RLPXFrameCoderImpl) : Prop where
  frameEncKey : i.frameEncKey = r.frameEncKey
  frameDecKey : i.frameDecKey = r.frameDecKey
  frameKeys : i.frameEncKey = r.frameDecKey
  macEncKey : i.macEncKey = r.macEncKey
  egressMac : i.egressMac = r.ingressMac
  ingressMac : i.ingressMac = r.egressMac

theorem agrees_of_setup (hc : c.Lawful) {ei er : Secret} {ni nr : FixedHash 32} {x y : Bytes} {a b : RLPXFrameCoderImpl}
    (ha : setup c true (c.toPublic er) nr ei ni y x = some a) (hb : setup c false (c.toPublic ei) ni er nr y x = some b) :
    Agrees a b := by
  rw [setup_eq] at ha hb
  rw [hc.agree_comm er ei] at hb
  obtain ⟨shared, hshared, rfl⟩ := Option.map_eq_some_iff.1 ha
  obtain ⟨shared', hshared', rfl⟩ := Option.map_eq_some_iff.1 hb
  cases Option.some.inj (hshared.symm.trans hshared')
  exact ⟨rfl, rfl, rfl, rfl, rfl, rfl⟩

namespace RLPXHandshake

variable {h h' i i' r r' : RLPXHandshake} {wire x y : Bytes}

/-! ### Messages -/

/-- The auth message of `writeAuth`, in the clear -/
def authPlain (c : DevCrypto R) (h : RLPXHandshake) : Bytes :=
  hashBytes 65 (h.authSignature c) ++ hashBytes 32 (c.sha3 (hashBytes 64 (c.toPublic h.m_ecdheLocal))) ++
    hashBytes 64 (c.toPublic h.m_alias) ++ hashBytes 32 h.m_nonce ++ [0]

def ackPlain (c : DevCrypto R) (h : RLPXHandshake) :
    Bytes := hashBytes 64 (c.toPublic h.m_ecdheLocal) ++ hashBytes 32 h.m_nonce ++ [0]

/-- What stands in the list of `writeAckEIP8` -/
def ackParts (c : DevCrypto R) (h : RLPXHandshake) : List Bytes :=
  [bytes (hashBytes 64 (c.toPublic h.m_ecdheLocal)), bytes (hashBytes 32 h.m_nonce), nat c_rlpxVersion]

/-- The auth messages of an end, in both forms -/
inductive AuthOf (c : DevCrypto R) (h : RLPXHandshake) (x : Bytes) : Prop
  | plain (random : R) : x = c.encryptECIES h.m_remote [] (authPlain c h) random → AuthOf c h x
  | eip8 (auth : Bytes) (random : R) (version : Nat) : x = sealEIP8 c h.m_remote auth random →
    authFields auth = .ok (h.authSignature c, c.toPublic h.m_alias, h.m_nonce, version) →
    auth.length + c_eciesOverhead < 2 ^ 16 → AuthOf c h x

/-- The ack messages of `writeAckEIP8` for a key -/
def AckEIP8 (c : DevCrypto R) (h : RLPXHandshake) (k : Public) (y : Bytes) : Prop :=
  ∃ padding random, 100 ≤ padding.length ∧ padding.length < 200 ∧ y = sealEIP8 c k (list (ackParts c h) ++ padding) random

/-- The ack messages for a key -/
inductive AckOf (c : DevCrypto R) (h : RLPXHandshake) (k : Public) (y : Bytes) : Prop
  | plain (random : R) : y = c.encryptECIES k [] (ackPlain c h) random → AckOf c h k y
  | eip8 : AckEIP8 c h k y → AckOf c h k y

theorem authPlain_eq (h : RLPXHandshake) : authPlain c h = hashBytes 65 (h.authSignature c) ++
    (hashBytes 32 (c.sha3 (hashBytes 64 (c.toPublic h.m_ecdheLocal))) ++ (hashBytes 64 (c.toPublic h.m_alias) ++
      (hashBytes 32 h.m_nonce ++ [0]))) := by
  simp only [authPlain, append_assoc]

@[simp] theorem length_authPlain (h : RLPXHandshake) : (authPlain c h).length = 194 := by
  simp [authPlain]

@[simp] theorem length_ackPlain (h : RLPXHandshake) : (ackPlain c h).length = 97 := by
  simp [ackPlain]

theorem length_authPlain_lt (h : RLPXHandshake) : (authPlain c h).length + c_eciesOverhead < 2 ^ 16 := by
  rw [length_authPlain]
  decide

theorem authPlain_ne_nil (h : RLPXHandshake) : authPlain c h ≠ [] :=
  ne_nil_of_length_pos (by rw [length_authPlain]; exact Nat.succ_pos _)

theorem ackPlain_ne_nil (h : RLPXHandshake) : ackPlain c h ≠ [] :=
  ne_nil_of_length_pos (by rw [length_ackPlain]; exact Nat.succ_pos _)

theorem cropped_authPlain (h : RLPXHandshake) :
    ofRef 65 (cropped (authPlain c h) 0 65) = h.authSignature c ∧ ofRef 64 (cropped (authPlain c h) 97 64) =
      c.toPublic h.m_alias ∧ ofRef 32 (cropped (authPlain c h) 161 32) = h.m_nonce := by
  have hpubk : cropped (authPlain c h) 97 64 = hashBytes 64 (c.toPublic h.m_alias) := by
    rw [authPlain_eq, cropped_append (n := 65) (length_hashBytes _) (by decide),
      cropped_append (length_hashBytes _) (by decide), cropped_first]
  have hnonce : cropped (authPlain c h) 161 32 = hashBytes 32 h.m_nonce := by
    rw [authPlain_eq, cropped_append (length_hashBytes _) (by decide), cropped_append (length_hashBytes _) (by decide),
      cropped_append (length_hashBytes _) (by decide), cropped_first]
  rw [hpubk, hnonce, authPlain_eq, cropped_first, ofRef_hashBytes, ofRef_hashBytes, ofRef_hashBytes]
  exact ⟨rfl, rfl, rfl⟩

theorem copyTo_hashBytes (v w : FixedHash size) : copyTo size (hashBytes size v) w = v := by
  rw [copyTo, take_of_length_le (by simp), put, take_zero, nil_append, drop_eq_nil_of_le (by simp),
    append_nil, ofRef_hashBytes]

theorem copyTo_ackPlain (h : RLPXHandshake) (v : Public) :
    copyTo 64 (cropped (ackPlain c h) 0 64) v = c.toPublic h.m_ecdheLocal := by
  rw [ackPlain, append_assoc, cropped_first, copyTo_hashBytes]

theorem copyTo_ackPlain_nonce (h : RLPXHandshake) (v : FixedHash 32) :
    copyTo 32 (cropped (ackPlain c h) 64 32) v = h.m_nonce := by
  rw [ackPlain, append_assoc, cropped_append (length_hashBytes _) (by decide), cropped_first, copyTo_hashBytes]

theorem length_flatten_ackParts (h : RLPXHandshake) : (ackParts c h).flatten.length ≤ 128 := by
  have hpub := length_bytes_le_add (b := hashBytes 64 (c.toPublic h.m_ecdheLocal)) (by simp [lengthLimit])
  have hnonce := length_bytes_le_add (b := hashBytes 32 h.m_nonce) (by simp [lengthLimit])
  have hversion : (nat c_rlpxVersion).length = 1 := by decide
  simp only [ackParts, flatten_cons, flatten_nil, length_append, length_nil, length_hashBytes] at hpub hnonce ⊢
  omega

theorem rlpxVersion_lt : c_rlpxVersion < 256 ^ 32 := by
  rw [c_rlpxVersion]
  norm_num

theorem isItem_version : IsItem (nat c_rlpxVersion) := isItem_nat rlpxVersion_lt

theorem splits_ackParts (h : RLPXHandshake) : Splits (ackParts c h).flatten (ackParts c h) := by
  have hpub := isItem_hash (show 64 < lengthLimit by decide) (c.toPublic h.m_ecdheLocal)
  have hnonce := isItem_hash (show 32 < lengthLimit by decide) h.m_nonce
  have hsplits := ((splits_nil.cons isItem_version).cons hnonce).cons hpub
  exact hsplits

theorem reads_ackItems {h : RLPXHandshake} {d : Bytes}
    (hitem : ∀ k, Reads d (ackParts c h) (item k) (.ok (RLP.of ((ackParts c h).getD k [])))) :
    Reads d (ackParts c h) ackItems (.ok (c.toPublic h.m_ecdheLocal, h.m_nonce, c_rlpxVersion)) := by
  have hpub : Reads d (ackParts c h) (hashAt 64 0) (.ok (c.toPublic h.m_ecdheLocal)) :=
    reads_hashAt (by decide) (hitem 0) getD_cons_zero
  have hnonce : Reads d (ackParts c h) (hashAt 32 1) (.ok h.m_nonce) :=
    reads_hashAt (by decide) (hitem 1) (getD_cons_succ.trans getD_cons_zero)
  have hversion : Reads d (ackParts c h) (intAt 8 2) (.ok c_rlpxVersion) :=
    reads_intAt (show c_rlpxVersion < 256 ^ 8 by decide) (by decide) (hitem 2) rfl
  exact hpub.bind_ok (hnonce.bind_ok (hversion.bind_ok (.pure _)))

/-- The padding is not looked at. -/
theorem ackFields_ackParts (h : RLPXHandshake) (padding : Bytes) :
    ackFields (list (ackParts c h) ++ padding) = .ok (c.toPublic h.m_ecdheLocal, h.m_nonce, c_rlpxVersion) := by
  have hlen : (ackParts c h).flatten.length < lengthLimit := (length_flatten_ackParts h).trans_lt (by decide)
  have hcount : (ackParts c h).length < 2 ^ 64 - 1 := by
    rw [show (ackParts c h).length = 3 from rfl]
    decide
  rw [ackFields, mk'_list_append hlen, ok_bind]
  exact (reads_ackItems (Reads.item (payload_list_append hlen padding) (splits_ackParts h) hcount)).eval

/-! ### What is read of a message -/

/-- The beginning of a message is not read as the other form. -/
theorem decrypt_eip8 (hc : c.Lawful) {k : Secret} {k' : Public} {random : R} {n : Nat} (hm : m ≠ [])
    (hlen : m.length + c_eciesOverhead < 2 ^ 16) : c.decryptECIES k [] ((sealEIP8 c k' m random).take n) = none := by
  by_contra hsome
  obtain ⟨m', hm'⟩ := Option.ne_none_iff_exists'.1 hsome
  have hpart : [] = sizePart m := (hc.of_decrypt k k' [] (sizePart m) m' m random _ n (Nat.zero_le _)
    (BigEndian.length_toBytes 2 _).le hm hlen rfl hm').1
  exact absurd (congrArg List.length hpart) (by simp [sizePart])

/-- Only the whole of a message is read. -/
theorem decrypt_plain (hc : c.Lawful) (k : Secret) (k' : Public) {m' : Bytes} (random : R) (n : Nat) (hm : m ≠ [])
    (hlen : m.length + c_eciesOverhead < 2 ^ 16)
    (hm' : c.decryptECIES k [] ((c.encryptECIES k' [] m random).take n) = some m') :
    (c.encryptECIES k' [] m random).take n = c.encryptECIES k' [] m random ∧ k' = c.toPublic k ∧ m' = m := by
  have htake : [] ++ (c.encryptECIES k' [] m random).take n = ([] ++ c.encryptECIES k' [] m random).take n := by
    rw [nil_append, nil_append]
  exact (hc.of_decrypt k k' [] [] m' m random _ n (Nat.zero_le _) (Nat.zero_le _) hm hlen htake hm').2

theorem length_sealEIP8 (hc : c.Lawful) (k : Public) (hm : m ≠ []) (random : R) :
    (sealEIP8 c k m random).length = m.length + c_eciesOverhead + 2 := by
  rw [sealEIP8, length_append, hc.length_encrypt k _ m random hm, sizePart, BigEndian.length_toBytes, Nat.add_comm]

/-- The size in the first two bytes is that of the message. -/
theorem sizeOf_sealEIP8 (hc : c.Lawful) {k : Public} {random : R} {n : Nat} (hm : m ≠ [])
    (hlen : m.length + c_eciesOverhead < 2 ^ 16) (hn : 2 ≤ n) :
    sizeOf ((sealEIP8 c k m random).take n) + 2 = (sealEIP8 c k m random).length := by
  obtain ⟨n, rfl⟩ := Nat.exists_eq_add_of_le' hn
  have hsize : sizeOf ((sealEIP8 c k m random).take (n + 2)) =
      (UInt8.ofNat ((m.length + c_eciesOverhead) / 256)).toNat * 256 +
    (UInt8.ofNat (m.length + c_eciesOverhead)).toNat := rfl
  rw [length_sealEIP8 hc k hm, hsize, UInt8.toNat_ofNat', UInt8.toNat_ofNat']
  omega

/-- A buffer that is as long as the message is filled up with the rest of it. -/
theorem take_resize_append {x : Bytes} {n size : Nat} (hn : n ≤ x.length) :
    (resize size (x.take n)).take n ++ (x.drop n).take ((resize size (x.take n)).length - n) = x.take size := by
  have hlen : (resize size (x.take n)).length = size := by
    rw [resize, length_append, length_take, length_replicate]
    omega
  rw [hlen]
  by_cases hle : size ≤ n
  · have htake : (resize size (x.take n)).take n = x.take size := by
      rw [take_of_length_le (by omega), resize, take_take, min_eq_left hle, length_take, min_eq_left hn,
        Nat.sub_eq_zero_of_le hle, replicate_zero, append_nil]
    rw [htake, Nat.sub_eq_zero_of_le hle, take_zero, append_nil]
  · have htake : (resize size (x.take n)).take n = x.take n := by
      rw [resize, take_append_of_le_length (by simp; omega), take_take, take_take, min_eq_right (by omega)]
    rw [htake, ← take_add, Nat.add_sub_cancel' (by omega)]

/-! ### Turns -/

/-- An end that has got no frame coder and waits for nothing gets none any more. -/
def Failed (h : RLPXHandshake) : Prop := h.waits = .nothing ∧ h.m_io = none

theorem failed_cancel (h : RLPXHandshake) : Failed h.cancel := ⟨rfl, rfl⟩

theorem Failed.turn (hfailed : Failed h) (hturn : Turn c wire h h') : Failed h' := by
  obtain ⟨hwaits, hio⟩ := hfailed
  cases hturn with
  | start env hstart => rw [hwaits] at hstart; cases hstart
  | startEIP8 auth random version hstart => rw [hwaits] at hstart; cases hstart
  | written env hwritten => rw [hwaits] at hwritten; cases hwritten
  | read env hwanted => rw [wanted, hwaits] at hwanted; cases hwanted
  | cancel => exact failed_cancel h
  | talks b hsome => exact absurd hio hsome

theorem Turn.of_start (hturn : Turn c wire h h') (hwaits : h.waits = .start) (hio : h.m_io = none) :
    Failed h' ∨ (∃ env, h' = h.transition c env) ∨ h.m_originated = true ∧ ∃ auth random version,
      authFields auth = .ok (h.authSignature c, c.toPublic h.m_alias, h.m_nonce, version) ∧
        auth.length + c_eciesOverhead < 2 ^ 16 ∧ h' = h.writeAuthEIP8 c auth random := by
  cases hturn with
  | start env _ => exact .inr (.inl ⟨env, rfl⟩)
  | startEIP8 auth random version _ horiginated hfields hlen =>
      exact .inr (.inr ⟨horiginated, auth, random, version, hfields, hlen, rfl⟩)
  | written env hwritten => rw [hwaits] at hwritten; cases hwritten
  | read env hwanted => rw [wanted, hwaits] at hwanted; cases hwanted
  | cancel => exact .inl (failed_cancel h)
  | talks b hsome => exact absurd hio hsome

theorem Turn.of_written (hturn : Turn c wire h h') (hwaits : h.waits = .written) (hio : h.m_io = none) :
    Failed h' ∨ ∃ env, h' = h.transition c env := by
  cases hturn with
  | start env hstart => rw [hwaits] at hstart; cases hstart
  | startEIP8 auth random version hstart => rw [hwaits] at hstart; cases hstart
  | written env _ => exact .inr ⟨env, rfl⟩
  | read env hwanted => rw [wanted, hwaits] at hwanted; cases hwanted
  | cancel => exact .inl (failed_cancel h)
  | talks b hsome => exact absurd hio hsome

theorem Turn.of_wanted {n : Nat} (hturn : Turn c wire h h') (hwanted : h.wanted = some n) (hio : h.m_io = none) :
    Failed h' ∨ n ≤ (wire.drop h.consumed).length ∧ ∃ env, h' = h.read c env ((wire.drop h.consumed).take n) := by
  cases hturn with
  | start env hstart => rw [wanted, hstart] at hwanted; cases hwanted
  | startEIP8 auth random version hstart => rw [wanted, hstart] at hwanted; cases hwanted
  | written env hwritten => rw [wanted, hwritten] at hwanted; cases hwanted
  | read env hwanted' hle =>
    cases hwanted.symm.trans hwanted'
    exact .inr ⟨hle, env, rfl⟩
  | cancel => exact .inl (failed_cancel h)
  | talks b hsome => exact absurd hio hsome

/-- With its frame coder, an end only talks. -/
theorem Turn.of_nothing (hturn : Turn c wire h h') (hwaits : h.waits = .nothing) :
    Failed h' ∨ ∃ b, h' = { h with egress := h.egress ++ b } := by
  cases hturn with
  | start env hstart => rw [hwaits] at hstart; cases hstart
  | startEIP8 auth random version hstart => rw [hwaits] at hstart; cases hstart
  | written env hwritten => rw [hwaits] at hwritten; cases hwritten
  | read env hwanted => rw [wanted, hwaits] at hwanted; cases hwanted
  | cancel => exact .inl (failed_cancel h)
  | talks b _ => exact .inr ⟨b, rfl⟩

/-! ### How far they are -/

section Stages

variable (c : DevCrypto R) (i₀ r₀ : RLPXHandshake) (x y : Bytes)

/-- The initiator has written its message, and has not read anything. -/
inductive Sent : RLPXHandshake → Prop
  | written (auth : Bytes) :
    Sent { i₀ with m_nextState := .ackAuth, m_auth := auth, m_authCipher := x, egress := x, waits := .written }
  | ack (auth : Bytes) : Sent { i₀ with
      m_nextState := .writeHello, m_auth := auth, m_authCipher := x, m_ackCipher := resize 210 [],
        egress := x, waits := .ack }

/-- The responder has not read anything. -/
inductive Unread : RLPXHandshake → Prop
  | start : Unread r₀
  | auth : Unread { r₀ with m_nextState := .ackAuth, m_authCipher := resize 307 [], waits := .auth }

/-- The responder has read the beginning of a message. -/
inductive AuthBegun : RLPXHandshake → Prop
  | authEIP8 (consumed : Nat) : consumed = 307 → 307 ≤ x.length → AuthBegun { r₀ with
      m_nextState := .ackAuth, m_authCipher := resize (sizeOf (x.take 307) + 2) (x.take 307), consumed, waits := .authEIP8 }

/-- The responder has written its message. -/
inductive Answered : RLPXHandshake → Prop
  | written (auth ack : Bytes) (version consumed : Nat) : Answered { r₀ with
      m_nextState := .writeHello, m_remote := c.toPublic i₀.m_alias, m_auth := auth, m_authCipher := x,
        m_ack := ack, m_ackCipher := y,
      m_ecdheRemote := c.toPublic i₀.m_ecdheLocal, m_remoteNonce := i₀.m_nonce, m_remoteVersion := version,
        egress := y, consumed,
      waits := .written }
  | done {r : RLPXHandshake} {io : RLPXFrameCoderImpl} (rest : Bytes) : r.waits = .nothing → r.m_io = some io →
    r.m_remote = c.toPublic i₀.m_alias → r.egress = y ++ rest →
    setup c false (c.toPublic i₀.m_ecdheLocal) i₀.m_nonce r₀.m_ecdheLocal r₀.m_nonce y x = some io → Answered r

/-- The initiator has read something of the message of the responder. -/
inductive AckBegun : RLPXHandshake → Prop
  | ackEIP8 (auth : Bytes) (consumed : Nat) : consumed = 210 → AckEIP8 c r₀ (c.toPublic i₀.m_alias) y → AckBegun { i₀ with
      m_nextState := .writeHello, m_auth := auth, m_authCipher := x,
        m_ackCipher := resize (sizeOf (y.take 210) + 2) (y.take 210),
      egress := x, consumed, waits := .ackEIP8 }
  | done {i : RLPXHandshake} {io : RLPXFrameCoderImpl} : i.waits = .nothing → i.m_io = some io →
    setup c true (c.toPublic r₀.m_ecdheLocal) r₀.m_nonce i₀.m_ecdheLocal i₀.m_nonce y x = some io → AckBegun i

/-- How far both ends are -/
inductive Phase : RLPXHandshake → RLPXHandshake → Prop
  | initiatorFailed {i r : RLPXHandshake} : Failed i → Phase i r
  | responderFailed {i r : RLPXHandshake} : Failed r → Phase i r
  | apart {r : RLPXHandshake} : Unread r₀ r → Phase i₀ r
  | authSent {i r : RLPXHandshake} (x : Bytes) : AuthOf c i₀ x → Sent i₀ x i → Unread r₀ r ∨ AuthBegun r₀ x r → Phase i r
  | ackSent {i r : RLPXHandshake} (x y : Bytes) : AuthOf c i₀ x → AckOf c r₀ (c.toPublic i₀.m_alias) y →
    Sent i₀ x i ∨ AckBegun c i₀ r₀ x y i → Answered c i₀ r₀ x y r → Phase i r

end Stages

theorem Sent.egress {i₀ : RLPXHandshake} (hsent : Sent i₀ x i) : i.egress = x := by
  cases hsent <;> rfl

theorem Sent.m_io {ki ei : Secret} {remote : Public} {ni : FixedHash 32} (hsent : Sent (dial ki remote ei ni) x i) :
    i.m_io = none := by
  cases hsent <;> rfl

theorem Answered.egress {i₀ r₀ : RLPXHandshake} (hanswered : Answered c i₀ r₀ x y r) : ∃ rest, r.egress = y ++ rest := by
  cases hanswered with
  | written => exact ⟨[], (append_nil y).symm⟩
  | done rest _ _ _ hegress _ => exact ⟨rest, hegress⟩

section Steps

variable {ki kr ei er : Secret} {ni nr : FixedHash 32} {remote : Public} {x y : Bytes}

/-! ### The initiator -/

theorem sent_of_start (hturn : Turn c wire (dial ki remote ei ni) i') :
    Failed i' ∨ ∃ x, AuthOf c (dial ki remote ei ni) x ∧ Sent (dial ki remote ei ni) x i' := by
  rcases hturn.of_start rfl rfl with hfailed | ⟨env, rfl⟩ | ⟨-, auth, random, version, hfields, hlen, rfl⟩
  · exact .inl hfailed
  · exact .inr ⟨_, .plain env.random rfl, .written _⟩
  · exact .inr ⟨_, .eip8 auth random version rfl hfields hlen, .written _⟩

/-- Without an answer, nothing is read. -/
theorem Sent.of_silent (hsent : Sent (dial ki remote ei ni) x i) (hturn : Turn c [] i i') :
    Failed i' ∨ Sent (dial ki remote ei ni) x i' := by
  cases hsent with
  | written auth =>
    rcases hturn.of_written rfl rfl with hfailed | ⟨env, rfl⟩
    · exact .inl hfailed
    · exact .inr (.ack auth)
  | ack auth =>
    rcases hturn.of_wanted rfl rfl with hfailed | ⟨hle, -⟩
    · exact .inl hfailed
    · exact absurd hle (by simp)

/-- Whatever happens, there is a frame coder, or there will be none. -/
theorem transition_writeHello (hstate : h.m_nextState = .writeHello) (hcancel : h.m_cancel = false) (hio : h.m_io = none)
    (env : Env R) : Failed (h.transition c env) ∨ ∃ io,
      setup c h.m_originated h.m_ecdheRemote h.m_remoteNonce h.m_ecdheLocal h.m_nonce h.m_ackCipher h.m_authCipher = some io ∧
        h.transition c env = { h with
          m_nextState := .readHello, m_io := some io, egress := h.egress ++ env.hello, waits := .nothing } := by
  have heq : h.transition c env = { h with m_nextState := .readHello }.writeHello c env := by
    rw [transition, if_neg (by simp [hstate, hcancel]), hstate]
  rw [heq, writeHello]
  cases hsetup : setup c h.m_originated h.m_ecdheRemote h.m_remoteNonce h.m_ecdheLocal h.m_nonce
    h.m_ackCipher h.m_authCipher with
  | none => exact .inl ⟨rfl, hio⟩
  | some io => exact .inr ⟨io, rfl, rfl⟩

theorem list_append_ne_nil (xs : List Bytes) (b : Bytes) : list xs ++ b ≠ [] := by
  rw [list, append_assoc]
  exact fun h => head_ne_nil (append_eq_nil_iff.1 h).1

theorem length_ack_lt (h : RLPXHandshake) {padding : Bytes} (hpadding : padding.length < 200) :
    (list (ackParts c h) ++ padding).length + c_eciesOverhead < 2 ^ 16 := by
  have hparts := length_flatten_ackParts (c := c) h
  have hhead : (head 0xc0 (ackParts c h).flatten.length).length ≤ 9 := length_head_le (by omega)
  simp only [list, length_append, c_eciesOverhead]
  omega

theorem AckEIP8.le_length (hc : c.Lawful) {k : Public} (hack : AckEIP8 c h k y) : 210 ≤ y.length := by
  obtain ⟨padding, random, hle, -, rfl⟩ := hack
  rw [length_sealEIP8 hc k (list_append_ne_nil _ _), length_append, c_eciesOverhead]
  omega

variable {env : Env R}

theorem ackRead_of_some {ack : Bytes} (hack : c.decryptECIES h.m_alias [] data = some ack) :
    h.ackRead c env data = transition c env { h with
      m_ackCipher := data, m_ack := ack, m_ecdheRemote := copyTo 64 (cropped ack 0 64) h.m_ecdheRemote,
      m_remoteNonce := copyTo 32 (cropped ack 64 32) h.m_remoteNonce, m_remoteVersion := 4 } := by
  simp only [ackRead, hack]

theorem ackRead_of_none (hnone : c.decryptECIES h.m_alias [] data = none) :
    h.ackRead c env data = { h with m_ackCipher := resize (sizeOf data + 2) data, waits := .ackEIP8 } := by
  simp only [ackRead, hnone]
  rfl

theorem ackBegun_of_transition (hstate : i.m_nextState = .writeHello) (hcancel : i.m_cancel = false) (hio : i.m_io = none)
    (horiginated : i.m_originated = true) (hremote : i.m_ecdheRemote = c.toPublic er) (hremoteNonce : i.m_remoteNonce = nr)
    (hlocal : i.m_ecdheLocal = ei) (hnonce : i.m_nonce = ni) (hack : i.m_ackCipher = y)
    (hauth : i.m_authCipher = x) (env : Env R) :
    Failed (i.transition c env) ∨ AckBegun c (dial ki remote ei ni) (accept kr er nr) x y (i.transition c env) := by
  rcases transition_writeHello hstate hcancel hio env with hfailed | ⟨io, hsetup, heq⟩
  · exact .inl hfailed
  · rw [horiginated, hremote, hremoteNonce, hlocal, hnonce, hack, hauth] at hsetup
    rw [heq]
    exact .inr (.done rfl rfl hsetup)

/-- The initiator reads an answer in one turn or in two. -/
theorem Sent.of_answer (hc : c.Lawful) (hsent : Sent (dial ki remote ei ni) x i)
    (hack : AckOf c (accept kr er nr) (c.toPublic ki) y) (hturn : Turn c (y ++ rest) i i') :
    Failed i' ∨ Sent (dial ki remote ei ni) x i' ∨ AckBegun c (dial ki remote ei ni) (accept kr er nr) x y i' := by
  cases hsent with
  | written auth =>
    rcases hturn.of_written rfl rfl with hfailed | ⟨env, rfl⟩
    · exact .inl hfailed
    · exact .inr (.inl (.ack auth))
  | ack auth =>
    rcases hturn.of_wanted rfl rfl with hfailed | ⟨hle, env, rfl⟩
    · exact .inl hfailed
    rw [show (dial ki remote ei ni).consumed = 0 from rfl, drop_zero] at hle ⊢
    cases hack with
    | plain random hy =>
      have hne := ackPlain_ne_nil (c := c) (accept kr er nr)
      have hlen : y.length = 210 := by rw [hy, hc.length_encrypt _ _ _ _ hne, length_ackPlain, c_eciesOverhead]
      rw [take_append_of_le_length hlen.ge, take_of_length_le hlen.le]
      have hdecrypt : c.decryptECIES ki [] y = some (ackPlain c (accept kr er nr)) := hy ▸
          hc.decrypt_encrypt ki [] _ random hne
      change Failed (ackRead c env y _) ∨ Sent _ x (ackRead c env y _) ∨ AckBegun c _ _ x y (ackRead c env y _)
      rw [ackRead_of_some hdecrypt]
      refine Or.imp_right .inr (ackBegun_of_transition rfl rfl rfl rfl ?_ ?_ rfl rfl rfl rfl env) <;> dsimp only
      · exact copyTo_ackPlain (accept kr er nr) _
      · exact copyTo_ackPlain_nonce (accept kr er nr) _
    | eip8 hack =>
      have hle := hack.le_length hc
      rw [take_append_of_le_length hle]
      change Failed (ackRead c env (y.take 210) _) ∨ Sent _ x (ackRead c env (y.take 210) _) ∨
        AckBegun c _ _ x y (ackRead c env (y.take 210) _)
      have hnone : c.decryptECIES ki [] (y.take 210) = none := by
        obtain ⟨padding, random, -, hlt, rfl⟩ := hack
        exact decrypt_eip8 hc (list_append_ne_nil _ _) (length_ack_lt _ hlt)
      rw [ackRead_of_none hnone]
      exact .inr (.inr (.ackEIP8 auth _ ((Nat.zero_add _).trans (length_take_of_le hle)) hack))

theorem ackReadEIP8_of {ack : Bytes} {ecdheRemote : Public} {remoteNonce : FixedHash 32} {version : Nat}
    (hfull : h.m_ackCipher.take 210 ++ data = y) (hack : c.decryptECIES h.m_alias (y.take 2) (y.drop 2) = some ack)
    (hfields : ackFields ack = .ok (ecdheRemote, remoteNonce, version)) : h.ackReadEIP8 c env data = transition c env { h with
      m_ackCipher := y, m_ack := ack, m_ecdheRemote := ecdheRemote, m_remoteNonce := remoteNonce,
        m_remoteVersion := version } := by
  subst hfull
  simp only [ackReadEIP8, hack, hfields]

theorem AckBegun.turn (hc : c.Lawful) (hbegun : AckBegun c (dial ki remote ei ni) (accept kr er nr) x y i)
    (hturn : Turn c (y ++ rest) i i') : Failed i' ∨ AckBegun c (dial ki remote ei ni) (accept kr er nr) x y i' := by
  cases hbegun with
  | ackEIP8 auth consumed hconsumed hack =>
    rcases hturn.of_wanted rfl rfl with hfailed | ⟨-, env, rfl⟩
    · exact .inl hfailed
    have hle := hack.le_length hc
    obtain ⟨padding, random, -, hlt, hy⟩ := hack
    have hne := list_append_ne_nil (ackParts c (accept kr er nr)) padding
    have hsize : sizeOf (y.take 210) + 2 = y.length := hy ▸ sizeOf_sealEIP8 hc hne (length_ack_lt _ hlt) (by decide)
    -- What is left of the message comes first in what is left.
    have hfull : (resize (sizeOf (y.take 210) + 2) (y.take 210)).take 210 ++
        ((y ++ rest).drop consumed).take ((resize (sizeOf (y.take 210) + 2) (y.take 210)).length - 210) = y := by
      have hlen : (resize (sizeOf (y.take 210) + 2) (y.take 210)).length - 210 ≤ (y.drop 210).length := by
        rw [hsize, resize, length_append, length_take, length_take, length_replicate, length_drop]
        omega
      rw [hconsumed, drop_append_of_le_length hle, take_append_of_le_length hlen, take_resize_append hle, hsize,
        take_length]
    have hdecrypt : c.decryptECIES ki (y.take 2) (y.drop 2) = some (list (ackParts c (accept kr er nr)) ++ padding) := by
      rw [hy]
      exact hc.decrypt_encrypt ki _ _ random hne
    change Failed (ackReadEIP8 c env _ _) ∨ AckBegun c _ _ x y (ackReadEIP8 c env _ _)
    rw [ackReadEIP8_of hfull hdecrypt (ackFields_ackParts _ padding)]
    exact ackBegun_of_transition rfl rfl rfl rfl rfl rfl rfl rfl rfl rfl env
  | done hwaits hio hsetup =>
    rcases hturn.of_nothing hwaits with hfailed | ⟨b, rfl⟩
    · exact .inl hfailed
    · exact .inr (.done hwaits hio hsetup)

/-! ### The responder -/

theorem Unread.of_silent (hunread : Unread (accept kr er nr) r) (hturn : Turn c [] r r') :
    Failed r' ∨ Unread (accept kr er nr) r' := by
  cases hunread with
  | start =>
    rcases hturn.of_start rfl rfl with hfailed | ⟨env, rfl⟩ | ⟨horiginated, -⟩
    · exact .inl hfailed
    · exact .inr .auth
    · cases horiginated
  | auth =>
    rcases hturn.of_wanted rfl rfl with hfailed | ⟨hle, -⟩
    · exact .inl hfailed
    · exact absurd hle (by simp)

/-- The responder finds the ephemeral key in the signature, if the message is for it. -/
theorem recover_authSignature (hc : c.Lawful) :
    c.recover ((dial ki (c.toPublic kr) ei ni).authSignature c) ((c.agree kr (c.toPublic ki)).getD 0 ^^^ ni) =
      c.toPublic ei := by
  rw [hc.agree_comm kr ki]
  exact hc.recover_sign ei _

theorem setAuthValues_eq (hc : c.Lawful) (ki kr ei : Secret) (ni : FixedHash 32) (version : Nat) (hkey : h.m_alias = kr) :
    setAuthValues c ((dial ki (c.toPublic kr) ei ni).authSignature c) (c.toPublic ki) ni version h = { h with
      m_remote := c.toPublic ki, m_remoteNonce := ni, m_remoteVersion := version, m_ecdheRemote := c.toPublic ei } := by
  rw [setAuthValues, hkey, recover_authSignature hc]

theorem authFields_nil : authFields [] = .error .badRLP := rfl

theorem authRead_of_some (hauth : c.decryptECIES h.m_alias [] data = some auth) :
    h.authRead c env data = transition c env (setAuthValues c (ofRef 65 (cropped auth 0 65)) (ofRef 64 (cropped auth 97 64))
      (ofRef 32 (cropped auth 161 32)) 4 { h with m_authCipher := data, m_auth := auth }) := by
  simp only [authRead, hauth]

theorem authRead_of_none (hnone : c.decryptECIES h.m_alias [] data = none) :
    h.authRead c env data = { h with m_authCipher := resize (sizeOf data + 2) data, waits := .authEIP8 } := by
  simp only [authRead, hnone]
  rfl

theorem answered_of_plain (hc : c.Lawful)
    (hdecrypt : c.decryptECIES kr [] x = some (authPlain c (dial ki (c.toPublic kr) ei ni))) (env : Env R) (consumed : Nat) :
    ∃ y, AckOf c (accept kr er nr) (c.toPublic ki) y ∧ Answered c (dial ki (c.toPublic kr) ei ni) (accept kr er nr) x y
      (authRead c env x { accept kr er nr with
        m_nextState := .ackAuth, m_authCipher := resize 307 [], consumed, waits := .auth }) := by
  obtain ⟨hsig, hpubk, hnonce⟩ := cropped_authPlain (c := c) (dial ki (c.toPublic kr) ei ni)
  rw [show (dial ki (c.toPublic kr) ei ni).m_alias = ki from rfl] at hpubk
  rw [show (dial ki (c.toPublic kr) ei ni).m_nonce = ni from rfl] at hnonce
  rw [authRead_of_some hdecrypt, hsig, hpubk, hnonce, setAuthValues_eq hc ki kr ei ni 4 rfl]
  exact ⟨_, .plain env.random rfl, .written _ _ _ _⟩

/-- The responder has the message, or the beginning of it. -/
theorem Unread.of_message (hc : c.Lawful) (hunread : Unread (accept kr er nr) r) (hauth : AuthOf c (dial ki remote ei ni) x)
    (hturn : Turn c x r r') : Failed r' ∨ (Unread (accept kr er nr) r' ∨ AuthBegun (accept kr er nr) x r') ∨
      ∃ y, AckOf c (accept kr er nr) (c.toPublic ki) y ∧ Answered c (dial ki remote ei ni) (accept kr er nr) x y r' := by
  cases hunread with
  | start =>
    rcases hturn.of_start rfl rfl with hfailed | ⟨env, rfl⟩ | ⟨horiginated, -⟩
    · exact .inl hfailed
    · exact .inr (.inl (.inl .auth))
    · cases horiginated
  | auth =>
    rcases hturn.of_wanted rfl rfl with hfailed | ⟨hle, env, rfl⟩
    · exact .inl hfailed
    rw [show (accept kr er nr).consumed = 0 from rfl, drop_zero] at hle ⊢
    change Failed (authRead c env (x.take 307) _) ∨ (Unread _ (authRead c env (x.take 307) _) ∨
      AuthBegun _ x (authRead c env (x.take 307) _)) ∨ ∃ y, _ ∧ Answered c _ _ x y (authRead c env (x.take 307) _)
    cases hdecrypt : c.decryptECIES kr [] (x.take 307) with
    | none =>
      rw [authRead_of_none hdecrypt]
      exact .inr (.inl (.inr (.authEIP8 _ ((Nat.zero_add _).trans (length_take_of_le hle)) hle)))
    | some auth =>
      cases hauth with
      | plain random hx =>
        obtain ⟨hwhole, hremote, hauth⟩ := decrypt_plain hc kr remote random 307 (authPlain_ne_nil _) (length_authPlain_lt _)
          (hx ▸ hdecrypt)
        have hwhole : x.take 307 = x := by
          rw [hx]
          exact hwhole
        rw [hwhole] at hdecrypt ⊢
        rw [hauth] at hdecrypt
        cases hremote
        exact .inr (.inr (answered_of_plain hc hdecrypt env _))
      | eip8 auth random version hx hfields hlen =>
        have hne : auth ≠ [] := by
          rintro rfl
          cases authFields_nil.symm.trans hfields
        cases (decrypt_eip8 hc hne hlen).symm.trans (hx ▸ hdecrypt)

theorem resize_length_add (b : Bytes) (n : Nat) : resize (b.length + n) b = b ++ List.replicate n 0 := by
  rw [resize, take_of_length_le (Nat.le_add_right _ _), Nat.add_sub_cancel_left]

theorem appends_ackParts (h : RLPXHandshake) : Appends [.append (hashBytes 64 (c.toPublic h.m_ecdheLocal)) false,
    .append (hashBytes 32 h.m_nonce) false, .appendInt c_rlpxVersion] (ackParts c h) := by
  have hpub := appends_hash (show 64 < lengthLimit by decide) (c.toPublic h.m_ecdheLocal)
  have hnonce := appends_hash (show 32 < lengthLimit by decide) h.m_nonce
  exact .cons hpub (.cons hnonce (.cons (appends_nat rlpxVersion_lt) .nil))

theorem output_ackParts (h : RLPXHandshake) :
    (run [.appendList 3, .append (hashBytes 64 (c.toPublic h.m_ecdheLocal)) false, .append (hashBytes 32 h.m_nonce) false,
      .appendInt c_rlpxVersion] {} >>= RLPStream.output) = .ok (list (ackParts c h)) := by
  have hlen : (ackParts c h).flatten.length < lengthLimit := (length_flatten_ackParts h).trans_lt (by decide)
  have hout := output_of_appends (appends_ackParts h) (cons_ne_nil _ _) hlen
  rw [show (ackParts c h).length = 3 from rfl] at hout
  exact hout

theorem writeAckEIP8_eq (env : Env R) : h.writeAckEIP8 c env =
    asyncWrite (sealEIP8 c h.m_remote (list (ackParts c h) ++ List.replicate (env.rand % 100 + 100) 0) env.random) { h with
      m_ack := list (ackParts c h) ++ List.replicate (env.rand % 100 + 100) 0,
      m_ackCipher := sealEIP8 c h.m_remote (list (ackParts c h) ++ List.replicate (env.rand % 100 + 100) 0) env.random } := by
  unfold writeAckEIP8
  rewrite [output_ackParts h]
  dsimp only
  rewrite [resize_length_add]
  exact Eq.refl _

theorem transition_ackAuthEIP8 (hstate : h.m_nextState = .ackAuthEIP8) (hcancel : h.m_cancel = false)
    (horiginated : h.m_originated = false) : h.transition c env =
      { h with m_nextState := .writeHello }.writeAckEIP8 c env := by
  rw [transition, if_neg (by simp [hstate, hcancel]), hstate]
  exact if_neg (by rw [horiginated]; decide)

theorem answered_of_eip8 (env : Env R) (auth : Bytes) (version consumed : Nat) :
    ∃ y, AckOf c (accept kr er nr) (c.toPublic ki) y ∧ Answered c (dial ki (c.toPublic kr) ei ni) (accept kr er nr) x y
      (transition c env { accept kr er nr with
        m_nextState := .ackAuthEIP8, m_auth := auth, m_authCipher := x, m_remote := c.toPublic ki, m_remoteNonce := ni,
        m_remoteVersion := version, m_ecdheRemote := c.toPublic ei, consumed, waits := .authEIP8 }) := by
  rw [transition_ackAuthEIP8 rfl rfl rfl, writeAckEIP8_eq]
  have hmod := Nat.mod_lt env.rand (show 0 < 100 by decide)
  refine ⟨_, .eip8 ⟨_, env.random, ?_, ?_, rfl⟩, .written _ _ _ _⟩ <;> rw [length_replicate] <;> omega

theorem authReadEIP8_of_none (hfull : h.m_authCipher.take 307 ++ data = y)
    (hnone : c.decryptECIES h.m_alias (y.take 2) (y.drop 2) = none) : Failed (h.authReadEIP8 c env data) := by
  subst hfull
  simp only [authReadEIP8, hnone]
  exact failed_cancel _

theorem authReadEIP8_of_some {sig : Signature} {pubk : Public} {nonce : FixedHash 32} {version : Nat}
    (hfull : h.m_authCipher.take 307 ++ data = y) (hauth : c.decryptECIES h.m_alias (y.take 2) (y.drop 2) = some auth)
    (hfields : authFields auth = .ok (sig, pubk, nonce, version)) : h.authReadEIP8 c env data =
      transition c env { setAuthValues c sig pubk nonce version { h with m_authCipher := y, m_auth := auth } with
        m_nextState := .ackAuthEIP8 } := by
  subst hfull
  simp only [authReadEIP8, hauth, hfields]

/-- What is read behind a size is a message of the other form. -/
theorem AuthOf.of_decrypt (hc : c.Lawful) (hauth : AuthOf c h x) {n : Nat} (hn : 2 ≤ (x.take n).length)
    (hdecrypt : c.decryptECIES kr ((x.take n).take 2) ((x.take n).drop 2) = some auth) :
    x.take n = x ∧ h.m_remote = c.toPublic kr ∧
      ∃ version, authFields auth = .ok (h.authSignature c, c.toPublic h.m_alias, h.m_nonce, version) := by
  have hlen : ((x.take n).take 2).length = 2 := length_take_of_le hn
  have hsplit : (x.take n).take 2 ++ (x.take n).drop 2 = x.take n := take_append_drop 2 _
  cases hauth with
  | plain random hx =>
    have hpart := (hc.of_decrypt kr h.m_remote _ [] auth (authPlain c h) random _ n hlen.le
        (Nat.zero_le _) (authPlain_ne_nil h)
      (length_authPlain_lt h) (by rw [hsplit, hx, nil_append]) hdecrypt).1
    rw [hpart] at hlen
    cases hlen
  | eip8 auth' random version hx hfields hlt =>
    have hne : auth' ≠ [] := by
      rintro rfl
      cases authFields_nil.symm.trans hfields
    obtain ⟨hpart, hrest, hremote, rfl⟩ := hc.of_decrypt kr h.m_remote _ (sizePart auth') auth auth' random _ n hlen.le
      (BigEndian.length_toBytes 2 _).le hne hlt (by rw [hsplit, hx]; rfl) hdecrypt
    refine ⟨?_, hremote, version, hfields⟩
    rw [← hsplit, hpart, hrest, hx, sealEIP8]

/-- The responder has the rest of the message. -/
theorem AuthBegun.turn (hc : c.Lawful) (hbegun : AuthBegun (accept kr er nr) x r) (hauth : AuthOf c (dial ki remote ei ni) x)
    (hturn : Turn c x r r') : Failed r' ∨
      ∃ y, AckOf c (accept kr er nr) (c.toPublic ki) y ∧ Answered c (dial ki remote ei ni) (accept kr er nr) x y r' := by
  cases hbegun with
  | authEIP8 consumed hconsumed hle =>
    rcases hturn.of_wanted rfl rfl with hfailed | ⟨-, env, rfl⟩
    · exact .inl hfailed
    have hfull : (resize (sizeOf (x.take 307) + 2) (x.take 307)).take 307 ++
        (x.drop consumed).take ((resize (sizeOf (x.take 307) + 2) (x.take 307)).length - 307) =
          x.take (sizeOf (x.take 307) + 2) := by
      rw [hconsumed, take_resize_append hle]
    change Failed (authReadEIP8 c env _ _) ∨ ∃ y, _ ∧ Answered c _ _ x y (authReadEIP8 c env _ _)
    cases hdecrypt : c.decryptECIES kr ((x.take (sizeOf (x.take 307) + 2)).take 2)
      ((x.take (sizeOf (x.take 307) + 2)).drop 2) with
    | none => exact .inl (authReadEIP8_of_none hfull hdecrypt)
    | some auth =>
      have hlen : 2 ≤ (x.take (sizeOf (x.take 307) + 2)).length := by
        rw [length_take]
        omega
      obtain ⟨hwhole, hremote, version, hfields⟩ := hauth.of_decrypt hc hlen hdecrypt
      cases hremote
      have hfields : authFields auth = .ok ((dial ki (c.toPublic kr) ei ni).authSignature c, c.toPublic ki,
          ni, version) := hfields
      rw [hwhole] at hfull hdecrypt
      rw [authReadEIP8_of_some hfull hdecrypt hfields, setAuthValues_eq hc ki kr ei ni version rfl]
      exact .inr (answered_of_eip8 env auth version _)

theorem answered_of_transition (hstate : r.m_nextState = .writeHello) (hcancel : r.m_cancel = false) (hio : r.m_io = none)
    (horiginated : r.m_originated = false) (hecdhe : r.m_ecdheRemote = c.toPublic ei) (hremoteNonce : r.m_remoteNonce = ni)
    (hlocal : r.m_ecdheLocal = er) (hnonce : r.m_nonce = nr) (hack : r.m_ackCipher = y) (hauth : r.m_authCipher = x)
    (hremote : r.m_remote = c.toPublic ki) (hegress : r.egress = y) (env : Env R) :
    Failed (r.transition c env) ∨ Answered c (dial ki remote ei ni) (accept kr er nr) x y (r.transition c env) := by
  rcases transition_writeHello hstate hcancel hio env with hfailed | ⟨io, hsetup, heq⟩
  · exact .inl hfailed
  · rw [horiginated, hecdhe, hremoteNonce, hlocal, hnonce, hack, hauth] at hsetup
    rw [heq]
    exact .inr (.done env.hello rfl rfl hremote (congrArg (· ++ env.hello) hegress) hsetup)

theorem Answered.turn (hanswered : Answered c (dial ki remote ei ni) (accept kr er nr) x y r) {wire : Bytes}
    (hturn : Turn c wire r r') : Failed r' ∨ Answered c (dial ki remote ei ni) (accept kr er nr) x y r' := by
  cases hanswered with
  | written auth ack version consumed =>
    rcases hturn.of_written rfl rfl with hfailed | ⟨env, rfl⟩
    · exact .inl hfailed
    exact answered_of_transition rfl rfl rfl rfl rfl rfl rfl rfl rfl rfl rfl rfl env
  | done rest hwaits hio hremote hegress hsetup =>
    rcases hturn.of_nothing hwaits with hfailed | ⟨b, rfl⟩
    · exact .inl hfailed
    · exact .inr (.done (rest ++ b) hwaits hio hremote (by rw [hegress, append_assoc]) hsetup)

/-! ### Runs -/

theorem Phase.initiator (hc : c.Lawful) (hphase : Phase c (dial ki remote ei ni) (accept kr er nr) i r)
    (hturn : Turn c r.egress i i') : Phase c (dial ki remote ei ni) (accept kr er nr) i' r := by
  cases hphase with
  | initiatorFailed hfailed => exact .initiatorFailed (hfailed.turn hturn)
  | responderFailed hfailed => exact .responderFailed hfailed
  | apart hunread =>
    rcases sent_of_start hturn with hfailed | ⟨x, hauth, hsent⟩
    · exact .initiatorFailed hfailed
    · exact .authSent x hauth hsent (.inl hunread)
  | authSent x hauth hsent hreads =>
    have hsilent : r.egress = [] := by
      rcases hreads with hunread | hbegun
      · cases hunread <;> rfl
      · cases hbegun
        rfl
    rw [hsilent] at hturn
    rcases hsent.of_silent hturn with hfailed | hsent
    · exact .initiatorFailed hfailed
    · exact .authSent x hauth hsent hreads
  | ackSent x y hauth hack hreads hanswered =>
    obtain ⟨rest, hegress⟩ := hanswered.egress
    rw [hegress] at hturn
    rcases hreads with hsent | hbegun
    · rcases hsent.of_answer hc hack hturn with hfailed | hreads
      · exact .initiatorFailed hfailed
      · exact .ackSent x y hauth hack hreads hanswered
    · rcases hbegun.turn hc hturn with hfailed | hbegun
      · exact .initiatorFailed hfailed
      · exact .ackSent x y hauth hack (.inr hbegun) hanswered

theorem Phase.responder (hc : c.Lawful) (hphase : Phase c (dial ki remote ei ni) (accept kr er nr) i r)
    (hturn : Turn c i.egress r r') : Phase c (dial ki remote ei ni) (accept kr er nr) i r' := by
  cases hphase with
  | initiatorFailed hfailed => exact .initiatorFailed hfailed
  | responderFailed hfailed => exact .responderFailed (hfailed.turn hturn)
  | apart hunread =>
    rcases hunread.of_silent hturn with hfailed | hunread
    · exact .responderFailed hfailed
    · exact .apart hunread
  | authSent x hauth hsent hreads =>
    rw [hsent.egress] at hturn
    rcases hreads with hunread | hbegun
    · rcases hunread.of_message hc hauth hturn with hfailed | hreads | ⟨y, hack, hanswered⟩
      · exact .responderFailed hfailed
      · exact .authSent x hauth hsent hreads
      · exact .ackSent x y hauth hack (.inl hsent) hanswered
    · rcases hbegun.turn hc hauth hturn with hfailed | ⟨y, hack, hanswered⟩
      · exact .responderFailed hfailed
      · exact .ackSent x y hauth hack (.inl hsent) hanswered
  | ackSent x y hauth hack hreads hanswered =>
    rcases hanswered.turn hturn with hfailed | hanswered
    · exact .responderFailed hfailed
    · exact .ackSent x y hauth hack hreads hanswered

theorem phase_of_reaches (hc : c.Lawful) (hreaches : Reaches c (dial ki remote ei ni) (accept kr er nr) i r) :
    Phase c (dial ki remote ei ni) (accept kr er nr) i r := by
  induction hreaches with
  | start => exact .apart .start
  | initiator _ hturn ih => exact ih.initiator hc hturn
  | responder _ hturn ih => exact ih.responder hc hturn

/-- Whatever the keys, the nonces and the forms of the messages, the ends that get to their frame coders have the same keys,
and the responder knows who has called. -/
theorem keys_agree (hc : c.Lawful) (hreaches : Reaches c (dial ki remote ei ni) (accept kr er nr) i r)
    {a b : RLPXFrameCoderImpl}
    (hi : i.m_io = some a) (hr : r.m_io = some b) : Agrees a b ∧ r.m_remote = c.toPublic ki := by
  cases phase_of_reaches hc hreaches with
  | initiatorFailed hfailed => cases hfailed.2.symm.trans hi
  | responderFailed hfailed => cases hfailed.2.symm.trans hr
  | apart hunread => cases hi
  | authSent x hauth hsent hreads => cases hsent.m_io.symm.trans hi
  | ackSent x y hauth hack hreads hanswered =>
    rcases hreads with hsent | hbegun
    · cases hsent.m_io.symm.trans hi
    cases hbegun with
    | ackEIP8 => cases hi
    | done _ hio hsetup =>
      cases hanswered with
      | written => cases hr
      | done rest _ hio' hremote _ hsetup' =>
        cases hio.symm.trans hi
        cases hio'.symm.trans hr
        exact ⟨agrees_of_setup hc hsetup hsetup', hremote⟩

end Steps

/-! ### Messages in the clear -/

/-- 113 bytes tell whom a message is for, what it goes with, and how long it is. -/
def clearHeader (k : Public) (sharedMacData : Bytes) (size : Nat) : Bytes :=
  [1, 0, 0, UInt8.ofNat sharedMacData.length] ++ (resize 2 sharedMacData ++ (BigEndian.toBytes 3 size ++
    (List.replicate 40 0 ++ hashBytes 64 k)))

def clearMessage (k : Public) (sharedMacData plain : Bytes) : Bytes := clearHeader k sharedMacData plain.length ++ plain

/-- Public keys are the secret ones, and nothing is hidden. -/
def clear : DevCrypto Unit where
  toPublic k := k.setWidth _
  agree k k' := some (k ^^^ k'.setWidth _)
  sign k _ := k.setWidth _
  recover sig _ := sig.setWidth _
  sha3 b := BitVec.ofNat _ (BigEndian.ofBytes b)
  encryptECIES k sharedMacData plain _ := clearMessage k sharedMacData plain
  decryptECIES k sharedMacData cipher :=
    let plain := cipher.drop 113
    if cipher = clearMessage (k.setWidth _) sharedMacData plain then some plain else none

@[simp] theorem length_clearHeader (k : Public) (p : Bytes) (size : Nat) : (clearHeader k p size).length = 113 := by
  simp [clearHeader, resize]
  omega

theorem setWidth_public (k : Secret) : ((k.setWidth (8 * 64) : Public).setWidth (8 * 32) : Secret) = k := by
  simp

theorem clearMessage_injective {k k' : Public} {p m' : Bytes} (hlen : m'.length < 256 ^ 3)
    (h : clearMessage k p m ++ rest = clearMessage k' p m') : rest = [] ∧ k = k' ∧ m = m' := by
  rw [clearMessage, clearMessage, append_assoc] at h
  obtain ⟨hheader, hm⟩ := append_inj h (by rw [length_clearHeader, length_clearHeader])
  have hle : m.length ≤ m'.length := by
    rw [← hm, length_append]
    exact Nat.le_add_right _ _
  obtain ⟨hsize, hkey⟩ := append_inj (append_cancel_left (append_cancel_left hheader))
    (by rw [BigEndian.length_toBytes, BigEndian.length_toBytes])
  have hsize := congrArg BigEndian.ofBytes hsize
  rw [BigEndian.ofBytes_toBytes, BigEndian.ofBytes_toBytes, Nat.mod_eq_of_lt hlen,
    Nat.mod_eq_of_lt (hle.trans_lt hlen)] at hsize
  have hkey := congrArg (ofRef 64) (append_cancel_left hkey)
  rw [ofRef_hashBytes, ofRef_hashBytes] at hkey
  have hrest : rest = [] := by
    have hlength := congrArg List.length hm
    rw [length_append] at hlength
    exact eq_nil_of_length_eq_zero (by omega)
  subst hrest
  exact ⟨rfl, hkey, (append_nil m).symm.trans hm⟩

/-- A message is not found in the middle of another one. -/
theorem length_eq_of_begins {p p' t t' : Bytes} (hp : p.length ≤ 2) (hp' : p'.length ≤ 2)
    (h : p ++ 1 :: 0 :: 0 :: t <+: p' ++ 1 :: 0 :: 0 :: t') : p.length = p'.length := by
  rcases p with _ | ⟨a, _ | ⟨b, _ | ⟨_, p⟩⟩⟩ <;> rcases p' with _ | ⟨a', _ | ⟨b', _ | ⟨_, p'⟩⟩⟩ <;>
    simp_all [cons_prefix_cons]

theorem clear_lawful : clear.Lawful where
  agree_comm k k' := by
    show some (k ^^^ (k'.setWidth (8 * 64)).setWidth (8 * 32)) = some (k' ^^^ (k.setWidth (8 * 64)).setWidth (8 * 32))
    rw [setWidth_public, setWidth_public, BitVec.xor_comm]
  recover_sign k _ := by
    show ((k.setWidth (8 * 65)).setWidth (8 * 64) : Public) = k.setWidth (8 * 64)
    simp
  length_encrypt k p m _ _ := by
    show (clearHeader k p m.length ++ m).length = m.length + c_eciesOverhead
    rw [length_append, length_clearHeader, c_eciesOverhead, Nat.add_comm]
  decrypt_encrypt k p m _ _ := by
    have hdrop : (clearMessage (clear.toPublic k) p m).drop 113 = m := by
      rw [clearMessage, drop_append_of_le_length (length_clearHeader ..).ge, drop_of_length_le (length_clearHeader ..).le,
        nil_append]
    show (if clearMessage (clear.toPublic k) p m = clearMessage (clear.toPublic k) p
        ((clearMessage (clear.toPublic k) p m).drop 113)
      then some ((clearMessage (clear.toPublic k) p m).drop 113) else none) = some m
    rw [hdrop, if_pos rfl]
  of_decrypt k k' p p' m m' _ x n hp hp' hm hlen htake hdecrypt := by
    have hread : (if x = clearMessage (clear.toPublic k) p (x.drop 113) then some (x.drop 113) else none) = some m := hdecrypt
    rw [Option.ite_none_right_eq_some, Option.some_inj] at hread
    obtain ⟨hx, hm⟩ := hread
    rw [hm] at hx
    obtain ⟨rest, hrest⟩ := take_prefix n (p' ++ clearMessage k' p' m')
    have htake : p ++ x = (p' ++ clearMessage k' p' m').take n := htake
    rw [← htake] at hrest
    have hbegins : p ++ clearMessage (clear.toPublic k) p m <+: p' ++ clearMessage k' p' m' := ⟨rest, hx ▸ hrest⟩
    rw [append_assoc] at hrest
    obtain ⟨rfl, hrest⟩ := append_inj hrest (length_eq_of_begins hp hp' hbegins)
    rw [hx] at hrest
    obtain ⟨rfl, hkey, hmessage⟩ := clearMessage_injective (hlen.trans_le' (Nat.le_add_right _ _) |>.trans (by decide)) hrest
    exact ⟨rfl, hx.trans ((append_nil _).symm.trans hrest), hkey.symm, hmessage⟩

def quiet : Env Unit := ⟨(), 0, []⟩

/-- The ends after their first turns -/
def calling : RLPXHandshake := ((dial 1 (clear.toPublic 2) 3 5).transition clear quiet).transition clear quiet

def called : RLPXHandshake := (accept 2 4 6).transition clear quiet

/-- The responder has read the message, and has its frame coder. -/
def answering : RLPXHandshake := (called.read clear quiet ((calling.egress.drop called.consumed).take 307)).transition
    clear quiet

def answered : RLPXHandshake := calling.read clear quiet ((answering.egress.drop calling.consumed).take 210)

theorem reaches_answered : Reaches clear (dial 1 (clear.toPublic 2) 3 5) (accept 2 4 6) answered answering := by
  have hcalling : Reaches clear (dial 1 (clear.toPublic 2) 3 5) (accept 2 4 6) calling (accept 2 4 6) :=
    (Reaches.start.initiator (.start quiet rfl)).initiator (.written quiet (by decide +kernel))
  have hanswering : Reaches clear (dial 1 (clear.toPublic 2) 3 5) (accept 2 4 6) calling answering :=
    ((hcalling.responder (.start quiet rfl)).responder (.read quiet rfl (by decide +kernel))).responder
      (.written quiet (by decide +kernel))
  exact hanswering.initiator (.read quiet rfl (by decide +kernel))

theorem keys_agree_clear : ∃ i r a b, Reaches clear (dial 1 (clear.toPublic 2) 3 5) (accept 2 4 6) i r ∧ i.m_io = some a ∧
    r.m_io = some b ∧ Agrees a b ∧ r.m_remote = clear.toPublic 1 := by
  obtain ⟨a, ha⟩ := Option.isSome_iff_exists.1 (show answered.m_io.isSome = true by decide +kernel)
  obtain ⟨b, hb⟩ := Option.isSome_iff_exists.1 (show answering.m_io.isSome = true by decide +kernel)
  exact ⟨answered, answering, a, b, reaches_answered, ha, hb, keys_agree clear_lawful reaches_answered ha hb⟩

end RLPXHandshake

end Kmdx.P2p
