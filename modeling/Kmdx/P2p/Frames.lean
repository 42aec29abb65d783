import Kmdx.P2p.FrameCoder

/-!
# Frames arrive as packets

What has been written is read again (`Unchanged`), if it is short enough for the three bytes of its length, and its type is
one that `toInt` reads.
-/

namespace Kmdx.P2p

open Rlp ExceptRules List

variable {S : Type} {c : Secrets S} {s s' : Coder S} {m frame rest : Bytes}

/-! ### Packets -/

/-- What `readPacket` should be given of a packet -/
def handed (m : Bytes) : Handed := ⟨0, (m.getD 0 0).toNat, m.drop 1⟩

/-- Short enough, and of a type that is not zero -/
def Sendable (m : Bytes) : Prop := m.getD 0 0 ≠ 0 ∧ m.length < 2 ^ 24

theorem checkPacket_eq_ok_true_iff :
    checkPacket m = .ok true ↔ (m.getD 0 0).toNat < 0x80 ∧ 2 ≤ m.length ∧ IsItem (m.drop 1) := by
  rw [checkPacket]
  by_cases hbad : m.getD 0 0 > 0x7f ∨ m.length < 2
  · rw [if_pos hbad]
    refine ⟨fun h => (nomatch h), fun h => ?_⟩
    rcases hbad with hbad | hbad
    · have hlt := UInt8.lt_iff_toNat_lt.1 hbad
      have h7f : (0x7f : UInt8).toNat = 127 := rfl
      omega
    · omega
  rw [if_neg hbad]
  obtain ⟨hle, hlen⟩ := not_or.1 hbad
  have hle := UInt8.le_iff_toNat_le.1 (UInt8.not_lt.1 hle)
  have h7f : (0x7f : UInt8).toNat = 127 := rfl
  have hne : m.drop 1 ≠ [] := by
    intro hnil
    have hlen := congrArg List.length hnil
    rw [length_drop, length_nil] at hlen
    omega
  constructor
  · intro h
    obtain ⟨r, hr, -⟩ := bind_eq_ok_iff.1 h
    exact ⟨by omega, by omega, (mk'_veryStrict.1 hr).2.resolve_left hne⟩
  · rintro ⟨-, -, hitem⟩
    have hsize := hitem.actualSize_append []
    rw [append_nil] at hsize
    rw [mk'_veryStrict.2 ⟨rfl, .inr hitem⟩, ok_bind, hsize, ok_bind, pure_eq, length_drop, decide_eq_true]
    omega

/-- The type of a packet is read as a number that may not be zero. -/
theorem toInt_single {x : UInt8} (hx : x.toNat < 0x80) : toInt [x] 4 = if x = 0 then .error .badCast else .ok x.toNat := by
  have hgood : requireGood [x] = .ok () := requireGood_of_ne (by omega)
  rw [toInt, hgood, ok_bind, isInt_cons, hgood, ok_bind, if_pos hx, ok_bind]
  by_cases h0 : x = 0
  · subst h0
    rfl
  · have hne : x.toNat ≠ 0 := fun h => h0 (UInt8.toNat_inj.1 h)
    have hlist : isList [x] = false := by
      rw [isList_cons, decide_eq_false_iff_not]
      omega
    have hpayload : payload [x] = .ok [x] := Begins.payload (.single x [] hx) le_rfl
    have hcanon : ¬(((!decide (x.toNat ≠ 0)) = true ∧ (!strict.allowNonCanon) = true) ∨ isList [x] = true ∨
        isNull [x] = true) := by
      rw [hlist, decide_eq_true hne, isNull_cons]
      decide
    rw [if_neg h0, if_neg hcanon, hpayload, ok_bind, if_neg fun h => absurd h.1 (by simp)]
    exact congrArg Except.ok (Nat.zero_add _)

theorem packetOf_of_checkPacket {protocolId : Nat} (h : checkPacket m = .ok true) : packetOf protocolId m =
    if m.getD 0 0 = 0 then .error .badCast else .ok ⟨protocolId, (m.getD 0 0).toNat, m.drop 1⟩ := by
  obtain ⟨hx, hlen, hitem⟩ := checkPacket_eq_ok_true_iff.1 h
  match m, hlen with
  | x :: y :: m, _ =>
    have hx : x.toNat < 0x80 := hx
    have hsingle : RLP.mk' [x] = .ok (RLP.of [x]) := mk'_veryStrict.2
        ⟨rfl, .inr (isItem_iff.2 ⟨[], [x], rfl, .single x [] hx⟩)⟩
    have hrest : RLP.mk' (y :: m) = .ok (RLP.of (y :: m)) := mk'_veryStrict.2 ⟨rfl, .inr hitem⟩
    rw [packetOf]
    show (RLP.mk' [x] >>= fun r => toInt r.data 4 >>= fun packetType => RLP.mk' (y :: m) >>= _) = if x = 0 then _ else _
    rw [hsingle, ok_bind, toInt_single hx, hrest]
    split <;> rfl

theorem readFrame_of_checkPacket {protocolId : Nat} (h : checkPacket m = .ok true) : readFrame protocolId m s rest =
    if m.getD 0 0 = 0 then .throws .badCast else .reads ⟨protocolId, (m.getD 0 0).toNat, m.drop 1⟩ s rest := by
  rw [readFrame, h, packetOf_of_checkPacket h]
  split_ifs <;> rfl

/-- What is given to `readPacket` is of the frame. -/
theorem of_readFrame {protocolId : Nat} {packet : Handed} {rest' : Bytes}
    (h : readFrame protocolId frame s rest = .reads packet s' rest') :
    checkPacket frame = .ok true ∧ frame.getD 0 0 ≠ 0 ∧ packet = ⟨protocolId, (frame.getD 0 0).toNat, frame.drop 1⟩ := by
  have hcheck : checkPacket frame = .ok true := by
    rw [readFrame] at h
    split at h
    · cases h
    · cases h
    · assumption
  rw [readFrame_of_checkPacket hcheck] at h
  split at h
  · cases h
  · rename_i hne
    cases h
    exact ⟨hcheck, hne, rfl⟩

/-! ### The header -/

/-- The header of a packet, before it is enciphered -/
def headerOf (m : Bytes) : Bytes := lengthBytes m.length ++ [0xc2, 0x80, 0x80] ++ List.replicate 10 0

/-- A header tells how many bytes follow, but for what does not fit into three bytes. -/
theorem frameInfo_headerOf (mac : Bytes) : frameInfo (headerOf m ++ mac) =
    .ok ⟨m.length % 2 ^ 24, paddingOf (m.length % 2 ^ 24), 0, true, 0, 0⟩ := by
  have hlength : ((UInt8.ofNat (m.length % 2 ^ 32 / 2 ^ 16)).toNat * 256 +
      (UInt8.ofNat (m.length % 2 ^ 32 / 2 ^ 8)).toNat) * 256 +
      (UInt8.ofNat (m.length % 2 ^ 32)).toNat = m.length % 2 ^ 24 := by
    rw [UInt8.toNat_ofNat', UInt8.toNat_ofNat', UInt8.toNat_ofNat']
    omega
  generalize hrest : List.replicate 10 0 ++ mac = rest
  have hdata : (headerOf m ++ mac).drop 3 = [0xc2] ++ ([0x80, 0x80] ++ rest) := by
    rw [← hrest]
    rfl
  have hlist : Begins [0xc2] ([0x80, 0x80] ++ rest) 2 := .list 2 _ (lt_lengthLimit (by decide))
  have hle : 2 ≤ ([0x80, 0x80] ++ rest).length := by simp
  have hpayload : payload ([0xc2] ++ ([0x80, 0x80] ++ rest)) = .ok [0x80, 0x80] := hlist.payload hle
  have hmk : RLP.mk' ([0xc2] ++ ([0x80, 0x80] ++ rest)) { throwOnFail := true, failIfTooSmall := true } =
      .ok (RLP.of ([0xc2] ++ ([0x80, 0x80] ++ rest))) := by
    rw [RLP.mk', checkSize_tooSmall, hlist.actualSize, ok_bind, if_neg (by simp), ok_bind]
    rfl
  have hempty : IsItem [0x80] := .data [] (by decide)
  have hsplits : Splits [0x80, 0x80] [[0x80], [0x80]] := .cons (.cons splits_nil hempty) hempty
  have hcount : itemCount ([0xc2] ++ ([0x80, 0x80] ++ rest)) = .ok 2 := by
    show items _ = _
    rw [items, if_pos (by rfl), hpayload, ok_bind]
    exact itemsFrom_of_splits hsplits le_rfl
  have hitem : ∀ k, Reads ([0xc2] ++ ([0x80, 0x80] ++ rest)) [[0x80], [0x80]] (item k)
      (.ok (RLP.of ([[0x80], [0x80]].getD k []))) :=
    Reads.item hpayload hsplits (by decide)
  have hzero : toInt [0x80] 2 = .ok 0 := (toInt_eq_ok_iff hempty).2 ⟨by decide, by decide⟩
  have hpresent : ∀ k < 2, Reads ([0xc2] ++ ([0x80, 0x80] ++ rest)) [[0x80], [0x80]] (infoField true k 2) (.ok 0) := by
    intro k hk
    have hread := (hitem k).bind fun i => Reads.lift (toInt i.data 2)
    have hget : [[0x80], [0x80]].getD k [] = ([0x80] : Bytes) := by
      obtain rfl | rfl : k = 0 ∨ k = 1 := by omega
      · rfl
      · rfl
    rw [hget, ok_bind, hzero] at hread
    exact hread
  have habsent : ∀ k maxSize, Reads ([0xc2] ++ ([0x80, 0x80] ++ rest)) [[0x80], [0x80]] (infoField false k maxSize) (.ok 0) :=
    fun _ _ => .pure 0
  have hfields : Reads ([0xc2] ++ ([0x80, 0x80] ++ rest)) [[0x80], [0x80]] infoFields (.ok (0, true, 0, 0)) := by
    have hinfoCount : Reads ([0xc2] ++ ([0x80, 0x80] ++ rest)) [[0x80], [0x80]] infoCount (.ok 2) := by
      intro r hr h
      have hlift := Reads.lift (itemCount r.data) r rfl h
      rw [hr, hcount] at hlift
      rw [infoCount, Wp.wp_bind, Wp.wp_get, hr, hcount]
      exact hlift
    exact (hpresent 0 (by decide)).bind_ok
      (hinfoCount.bind_ok ((hpresent 1 (by decide)).bind_ok ((habsent 2 4).bind_ok (.pure _))))
  rw [frameInfo, hdata, hmk, ok_bind, hfields.eval, ok_bind]
  show Except.ok (RLPXFrameInfo.mk (((UInt8.ofNat _).toNat * 256 + (UInt8.ofNat _).toNat) * 256 + (UInt8.ofNat _).toNat)
    (paddingOf (((UInt8.ofNat _).toNat * 256 + (UInt8.ofNat _).toNat) * 256 + (UInt8.ofNat _).toNat)) 0 true 0 0) = _
  rw [hlength]

/-! ### Frames -/

/-- The parts of a frame -/
@[ext] structure Frame where
  header : Bytes
  headerMac : Bytes
  body : Bytes
  bodyMac : Bytes

def Frame.bytes (f : Frame) : Bytes := f.header ++ f.headerMac ++ (f.body ++ f.bodyMac)

def headerCipher (c : Secrets S) (s : Coder S) (m : Bytes) : Bytes := KeyStream.process c.keyStream s.position (headerOf m)

def bodyCipher (c : Secrets S) (s : Coder S) (m : Bytes) : Bytes :=
  KeyStream.process c.keyStream (s.position + 16) (m ++ List.replicate (paddingOf m.length) 0)

/-- The frame of a packet -/
def frameOf (c : Secrets S) (s : Coder S) (m : Bytes) : Frame :=
  ⟨headerCipher c s m, c.digest (updateMAC c s.mac (headerCipher c s m)), bodyCipher c s m,
    c.digest (updateMACWithFrame c (updateMAC c s.mac (headerCipher c s m)) (bodyCipher c s m))⟩

/-- An end after a frame -/
def afterFrame (c : Secrets S) (s : Coder S) (m : Bytes) : Coder S :=
  ⟨s.position + 16 + m.length + paddingOf m.length,
    updateMACWithFrame c (updateMAC c s.mac (frameOf c s m).header) (frameOf c s m).body⟩

@[simp] theorem length_headerOf : (headerOf m).length = 16 := rfl

theorem writeSingleFramePacket_eq : writeSingleFramePacket c s m = ((frameOf c s m).bytes, afterFrame c s m) := by
  have hheader : (lengthBytes m.length ++ [0xc2, 0x80, 0x80] ++ List.replicate 16 0).take 16 = headerOf m := rfl
  rw [writeSingleFramePacket, writeFrame, hheader, ← KeyStream.process_append, afterFrame, frameOf, Frame.bytes,
    headerCipher, bodyCipher]

/-- A turn takes a header and its MAC. -/
theorem doRead_bytes {f : Frame} (hheader : f.header.length = 16) (hmac : f.headerMac.length = 16) :
    doRead c s (f.bytes ++ rest) =
      if f.headerMac ≠ c.digest (updateMAC c s.mac f.header) then .drops
      else
        match frameInfo (KeyStream.process c.keyStream s.position f.header ++ f.headerMac) with
        | .error _ => .drops
        | .ok info => readBody c info ⟨s.position + 16, updateMAC c s.mac f.header⟩ (f.body ++ f.bodyMac ++ rest) := by
  have hlen : (f.header ++ f.headerMac).length = 32 := by rw [length_append, hheader, hmac]
  have hbytes : f.bytes ++ rest = f.header ++ f.headerMac ++ (f.body ++ f.bodyMac ++ rest) := append_assoc ..
  have henough : ¬(f.bytes ++ rest).length < 32 := by
    rw [hbytes, length_append, hlen]
    omega
  rw [doRead, if_neg henough, hbytes, take_left' hlen, drop_left' hlen, authAndDecryptHeader, take_left' hheader,
    drop_left' hheader]
  split_ifs <;> rfl

/-- And the body with its MAC. -/
theorem readBody_bytes {info : RLPXFrameInfo} {body mac : Bytes} (hbody : body.length = info.length + info.padding)
    (hmac : mac.length = 16) : readBody c info s (body ++ mac ++ rest) =
      if mac ≠ c.digest (updateMACWithFrame c s.mac body) then .drops
      else readFrame info.protocolId ((KeyStream.process c.keyStream s.position body ++ mac).take info.length)
        ⟨s.position + body.length, updateMACWithFrame c s.mac body⟩ rest := by
  have hlen : (body ++ mac).length = info.length + info.padding + 16 := by rw [length_append, hbody, hmac]
  have henough : ¬(body ++ mac ++ rest).length < info.length + info.padding + 16 := by
    rw [length_append, hlen]
    omega
  have hcipher : info.length + info.padding + 16 - 16 = body.length := by omega
  rw [readBody, if_neg henough, take_left' hlen, drop_left' hlen, authAndDecryptFrame, hlen, hcipher, take_left, drop_left]
  split_ifs <;> rfl

theorem headerMac_frameOf : (frameOf c s m).headerMac = c.digest (updateMAC c s.mac (frameOf c s m).header) := by
  rw [frameOf]

theorem bodyMac_frameOf : (frameOf c s m).bodyMac =
    c.digest (updateMACWithFrame c (updateMAC c s.mac (frameOf c s m).header) (frameOf c s m).body) := by
  rw [frameOf]

theorem length_header : (frameOf c s m).header.length = 16 := by
  rw [frameOf, headerCipher, KeyStream.length_process, length_headerOf]

theorem length_headerMac : (frameOf c s m).headerMac.length = 16 := c.length_digest _

theorem length_body : (frameOf c s m).body.length = m.length + paddingOf m.length := by
  rw [frameOf, bodyCipher, KeyStream.length_process, length_append, length_replicate]

theorem length_bodyMac : (frameOf c s m).bodyMac.length = 16 := c.length_digest _

theorem frameInfo_frameOf :
    frameInfo (KeyStream.process c.keyStream s.position (frameOf c s m).header ++ (frameOf c s m).headerMac) =
    .ok ⟨m.length % 2 ^ 24, paddingOf (m.length % 2 ^ 24), 0, true, 0, 0⟩ := by
  rw [frameOf, headerCipher, KeyStream.process_process, frameInfo_headerOf]

/-- The header of a frame is read, if it is as it was. -/
theorem doRead_header {f : Frame} (hheader : f.header = (frameOf c s m).header)
    (hmac : f.headerMac = (frameOf c s m).headerMac) :
    doRead c s (f.bytes ++ rest) = readBody c ⟨m.length % 2 ^ 24, paddingOf (m.length % 2 ^ 24), 0, true, 0, 0⟩
      ⟨s.position + 16, updateMAC c s.mac (frameOf c s m).header⟩ (f.body ++ f.bodyMac ++ rest) := by
  rw [doRead_bytes ((congrArg List.length hheader).trans length_header)
    ((congrArg List.length hmac).trans length_headerMac), hheader,
    hmac, if_neg (not_not.2 headerMac_frameOf), frameInfo_frameOf]

theorem doRead_of_sendable (hpass : checkPacket m = .ok true) (h : Sendable m) :
    doRead c s ((frameOf c s m).bytes ++ rest) = .reads (handed m) (afterFrame c s m) rest := by
  rw [doRead_header rfl rfl, Nat.mod_eq_of_lt h.2, readBody_bytes length_body length_bodyMac,
    if_neg (not_not.2 bodyMac_frameOf), length_body]
  have hclear : (KeyStream.process c.keyStream (s.position + 16) (frameOf c s m).body ++ (frameOf c s m).bodyMac).take
      m.length = m := by
    rw [frameOf, bodyCipher, KeyStream.process_process, append_assoc, take_left]
  dsimp only
  rw [hclear, readFrame_of_checkPacket hpass, if_neg h.1, ← Nat.add_assoc]
  rfl

/-- No other packet arrives as it is. -/
theorem sendable_of_doRead {rest' : Bytes} (hpass : checkPacket m = .ok true)
    (h : doRead c s ((frameOf c s m).bytes ++ rest) = .reads (handed m) s' rest') : Sendable m := by
  obtain ⟨-, hlen, -⟩ := checkPacket_eq_ok_true_iff.1 hpass
  rw [doRead_header rfl rfl, readBody] at h
  dsimp only at h
  split at h
  · cases h
  split at h
  · cases h
  rename_i data s₁ hdata
  obtain ⟨-, hne, hpacket⟩ := of_readFrame h
  have hle : (data.take (m.length % 2 ^ 24)).length ≤ m.length % 2 ^ 24 := length_take_le _ _
  generalize data.take (m.length % 2 ^ 24) = frame at hne hpacket hle
  rw [handed, Handed.mk.injEq] at hpacket
  obtain ⟨-, htype, hrest⟩ := hpacket
  have hrest := congrArg List.length hrest
  rw [length_drop, length_drop] at hrest
  exact ⟨fun h0 => hne ((UInt8.toNat_inj.1 htype).symm.trans h0), by omega⟩

/-! ### Altered frames -/

/-- Some bytes are others, but no MAC together with what it is for. -/
structure Altered (f f' : Frame) : Prop where
  header : f'.header.length = f.header.length
  headerMac : f'.headerMac.length = f.headerMac.length
  body : f'.body.length = f.body.length
  bodyMac : f'.bodyMac.length = f.bodyMac.length
  ne : f' ≠ f
  keepsHeaderMac : f'.header ≠ f.header → f'.headerMac = f.headerMac
  keepsBodyMac : f'.body ≠ f.body → f'.bodyMac = f.bodyMac

/-- The MAC tells the bytes that it is fed apart. -/
structure Distinguished (c : Secrets S) (s : Coder S) (f f' : Frame) : Prop where
  header : f'.header ≠ f.header → c.digest (updateMAC c s.mac f'.header) ≠ c.digest (updateMAC c s.mac f.header)
  body : f'.body ≠ f.body → c.digest (updateMACWithFrame c (updateMAC c s.mac f.header) f'.body) ≠
    c.digest (updateMACWithFrame c (updateMAC c s.mac f.header) f.body)

theorem not_reads_of_altered {f' : Frame} {packet : Handed} {rest' : Bytes} (h : Sendable m)
    (haltered : Altered (frameOf c s m) f')
    (hmac : Distinguished c s (frameOf c s m) f') : doRead c s (f'.bytes ++ rest) ≠ .reads packet s' rest' := by
  by_cases hheader : f'.header = (frameOf c s m).header
  · by_cases hheaderMac : f'.headerMac = (frameOf c s m).headerMac
    · have hlength : f'.body.length = m.length + paddingOf m.length := haltered.body.trans length_body
      rw [doRead_header hheader hheaderMac, Nat.mod_eq_of_lt h.2,
        readBody_bytes hlength (haltered.bodyMac.trans length_bodyMac), if_pos]
      · nofun
      by_cases hbody : f'.body = (frameOf c s m).body
      · intro hbodyMac
        rw [hbody, ← bodyMac_frameOf] at hbodyMac
        exact haltered.ne (Frame.ext hheader hheaderMac hbody hbodyMac)
      · rw [haltered.keepsBodyMac hbody, bodyMac_frameOf]
        exact (hmac.body hbody).symm
    · rw [doRead_bytes (haltered.header.trans length_header) (haltered.headerMac.trans length_headerMac), hheader, if_pos]
      · nofun
      · rwa [← headerMac_frameOf]
  · rw [doRead_bytes (haltered.header.trans length_header) (haltered.headerMac.trans length_headerMac), if_pos]
    · nofun
    · rw [haltered.keepsHeaderMac hheader, headerMac_frameOf]
      exact (hmac.header hheader).symm

/-! ### The stream -/

/-- The bytes of some frames, and the writer after them -/
def framesOf (c : Secrets S) : Coder S → List Bytes → Bytes × Coder S
  | s, [] => ([], s)
  | s, m :: ms => ((frameOf c s m).bytes ++ (framesOf c (afterFrame c s m) ms).1, (framesOf c (afterFrame c s m) ms).2)

theorem framesOf_append_singleton (ms : List Bytes) : framesOf c s (ms ++ [m]) =
    ((framesOf c s ms).1 ++ (frameOf c (framesOf c s ms).2 m).bytes, afterFrame c (framesOf c s ms).2 m) := by
  induction ms generalizing s with
  | nil =>
    show ((frameOf c s m).bytes ++ [], _) = ([] ++ (frameOf c s m).bytes, _)
    rw [append_nil, nil_append]
    rfl
  | cons x ms ih =>
    rw [cons_append, framesOf, ih, framesOf, append_assoc]

theorem length_bytes_pos (f : Frame) (h : f.header.length = 16) : 0 < f.bytes.length := by
  rw [Frame.bytes, length_append, length_append, h]
  omega

/-- The reader takes frames one by one. -/
theorem readLoop_framesOf {ms : List Bytes} (hpass : ∀ m ∈ ms, checkPacket m = .ok true)
    (h : ∀ m ∈ ms, Sendable m) {fuel : Nat} (hfuel : (framesOf c s ms).1.length ≤ fuel) :
    readLoop c fuel s (framesOf c s ms).1 = (ms.map handed, (framesOf c s ms).2) := by
  induction ms generalizing s fuel with
  | nil =>
    cases fuel with
    | zero => rfl
    | succ fuel => rfl
  | cons m ms ih =>
    have hpos := length_bytes_pos (frameOf c s m) length_header
    rw [framesOf, length_append] at hfuel
    obtain ⟨fuel, rfl⟩ := Nat.exists_eq_succ_of_ne_zero (n := fuel) (by omega)
    rw [framesOf, readLoop, doRead_of_sendable (hpass m mem_cons_self) (h m mem_cons_self)]
    dsimp only
    rw [ih (fun x hx => hpass x (mem_cons_of_mem _ hx)) (fun x hx => h x (mem_cons_of_mem _ hx)) (by omega)]
    rfl

theorem sendable_of_readLoop {ms : List Bytes} (hpass : ∀ m ∈ ms, checkPacket m = .ok true) {fuel : Nat}
    (h : (readLoop c fuel s (framesOf c s ms).1).1 = ms.map handed) : ∀ m ∈ ms, Sendable m := by
  induction ms generalizing s fuel with
  | nil => exact fun _ hm => nomatch hm
  | cons m ms ih =>
    cases fuel with
    | zero => cases h
    | succ fuel =>
      rw [framesOf, readLoop] at h
      split at h
      · rename_i packet s' rest' hread
        obtain ⟨hpacket, hrest⟩ := List.cons.inj h
        rw [hpacket] at hread
        have hm := sendable_of_doRead (hpass m mem_cons_self) hread
        rw [doRead_of_sendable (hpass m mem_cons_self) hm] at hread
        cases hread
        intro x hx
        obtain rfl | hx := mem_cons.1 hx
        · exact hm
        · exact ih (fun x hx => hpass x (mem_cons_of_mem _ hx)) hrest x hx
      · cases h

/-! ### The write queue -/

namespace Session

/-- The front of the queue is being written. -/
structure Inv (c : Secrets S) (egress : Coder S) (t : Session S) : Prop where
  sent : t.sent = t.begun ++ t.m_writeQueue.tail
  wire : t.wire = (framesOf c egress t.begun).1
  egress : t.egress = (framesOf c egress t.begun).2

theorem Inv.write {egress : Coder S} {t : Session S} {packet : Bytes} {queue : List Bytes}
    (h : t.sent = t.begun ++ packet :: queue)
    (hwire : t.wire = (framesOf c egress t.begun).1) (hegress : t.egress = (framesOf c egress t.begun).2)
    (hqueue : t.m_writeQueue = packet :: queue) : Inv c egress (t.write c) := by
  have hframe : writeSingleFramePacket c t.egress packet =
      ((frameOf c t.egress packet).bytes, afterFrame c t.egress packet) :=
    writeSingleFramePacket_eq
  unfold Session.write
  rw [hqueue]
  dsimp only
  rw [hframe]
  constructor
  · rw [h]
    exact (append_assoc _ [packet] queue).symm
  · show t.wire ++ _ = (framesOf c egress (t.begun ++ [packet])).1
    rw [framesOf_append_singleton, hwire, hegress]
  · show afterFrame c t.egress packet = (framesOf c egress (t.begun ++ [packet])).2
    rw [framesOf_append_singleton, hegress]

/-- A packet that is put in the queue is written at once if it is the only one. -/
theorem Inv.queued {egress : Coder S} {t : Session S} {msg : Bytes} {queue : List Bytes}
    (hsent : t.sent = t.begun ++ queue.tail ++ [msg]) (hqueue : t.m_writeQueue = queue ++ [msg])
    (hwire : t.wire = (framesOf c egress t.begun).1) (hegress : t.egress = (framesOf c egress t.begun).2) :
    Inv c egress (if t.m_writeQueue.length = 1 then t.write c else t) := by
  cases queue with
  | nil =>
    have hone : t.m_writeQueue.length = 1 := by rw [hqueue, nil_append, length_singleton]
    rw [if_pos hone]
    exact Inv.write (hsent.trans (by rw [tail_nil, append_nil])) hwire hegress hqueue
  | cons frame queue =>
    have hlong : t.m_writeQueue.length ≠ 1 := by
      rw [hqueue, length_append]
      simp
    rw [if_neg hlong]
    refine ⟨hsent.trans ?_, hwire, hegress⟩
    rw [hqueue, append_assoc]
    rfl

theorem Inv.of_reaches {egress : Coder S} {t : Session S} (h : Reaches c egress t) : Inv c egress t := by
  induction h with
  | start => exact ⟨rfl, rfl, rfl⟩
  | @send t msg _ ih =>
    exact Inv.queued (t := { t with m_writeQueue := t.m_writeQueue ++ [msg], sent := t.sent ++ [msg] })
      (congrArg (· ++ [msg]) ih.sent) rfl ih.wire ih.egress
  | @written t t' _ hwritten ih =>
    unfold Session.written at hwritten
    split at hwritten
    · cases hwritten
    rename_i frame queue hold
    have hsent := ih.sent
    rw [hold, tail_cons] at hsent
    cases hwritten
    cases queue with
    | nil =>
      rw [if_pos rfl]
      exact ⟨hsent, ih.wire, ih.egress⟩
    | cons packet queue =>
      rw [if_neg (cons_ne_nil _ _)]
      exact Inv.write (t := { t with m_writeQueue := packet :: queue }) hsent ih.wire ih.egress rfl

/-- The reader at the other end is given the packets that have been written, in the order of `send`, and is where the writer
is; and it is never given an altered frame. -/
structure Unchanged (c : Secrets S) (ingress : Coder S) (t : Session S) : Prop where
  order : t.sent = t.begun ++ t.m_writeQueue.tail
  handed : readAll c ingress t.wire = (t.begun.map P2p.handed, t.egress)
  authentic : ∀ m ∈ t.begun, ∀ s f, Altered (frameOf c s m) f → Distinguished c s (frameOf c s m) f →
    ∀ rest packet s' rest', doRead c s (f.bytes ++ rest) ≠ .reads packet s' rest'

theorem unchanged_iff {coder : Coder S} {t : Session S} (h : Reaches c coder t)
    (hpass : ∀ m ∈ t.begun, checkPacket m = .ok true) : Unchanged c coder t ↔ ∀ m ∈ t.begun, Sendable m := by
  have hinv := Inv.of_reaches h
  constructor
  · intro hunchanged
    have hhanded := hunchanged.handed
    rw [readAll, hinv.wire] at hhanded
    exact sendable_of_readLoop hpass (congrArg Prod.fst hhanded)
  · intro hsendable
    refine ⟨hinv.sent, ?_, fun m hm s f haltered hmac rest packet s' rest' =>
      not_reads_of_altered (hsendable m hm) haltered hmac⟩
    rw [readAll, hinv.wire, readLoop_framesOf hpass hsendable le_rfl, hinv.egress]

/-! ### Two ends -/

/-- No cipher, and a MAC that is the number of bytes -/
def secrets : Secrets Nat where
  keyStream _ := 0
  update mac b := mac + b.length
  digest mac := List.replicate 16 (UInt8.ofNat mac)
  length_digest _ := length_replicate
  macEnc b := b
  length_macEnc _ := rfl

/-- Two packets, the second of which waits until the first is written. -/
theorem unchanged_two : ∃ t,
    ((({ egress := ⟨0, 0⟩ } : Session Nat).send secrets [5, 0xc0]).send secrets [6, 0xc0]).written secrets = some t ∧
    t.begun = [[5, 0xc0], [6, 0xc0]] ∧ Unchanged secrets ⟨0, 0⟩ t := by
  have hwritten : (((({ egress := ⟨0, 0⟩ } : Session Nat).send secrets [5, 0xc0]).send secrets [6, 0xc0]).written secrets).map
      Session.begun = some [[5, 0xc0], [6, 0xc0]] := by decide +kernel
  obtain ⟨t, ht, hbegun⟩ := Option.map_eq_some_iff.1 hwritten
  refine ⟨t, ht, hbegun, (unchanged_iff (.written (.send _ (.send _ .start)) ht) fun m hm => ?_).2 fun m hm => ?_⟩
  · rw [hbegun, mem_pair] at hm
    rcases hm with rfl | rfl <;> exact checkPacket_eq_ok_true_iff.2 ⟨by decide, by decide, .list [] (by decide)⟩
  · rw [hbegun, mem_pair] at hm
    rcases hm with rfl | rfl <;> exact ⟨by decide, by decide⟩

/-- A packet of the type 0 -/
theorem not_unchanged : ¬ ∀ t : Session Nat, Reaches secrets ⟨0, 0⟩ t → (∀ m ∈ t.begun, checkPacket m = .ok true) →
    Unchanged secrets ⟨0, 0⟩ t := by
  intro hunchanged
  have hbegun : (({ egress := ⟨0, 0⟩ } : Session Nat).send secrets [0, 0xc0]).begun = [[0, 0xc0]] := by decide +kernel
  have hhanded := (hunchanged _ (.send [0, 0xc0] .start) fun m hm => ?_).handed
  · have hnone : (readAll secrets ⟨0, 0⟩ (({ egress := ⟨0, 0⟩ } : Session Nat).send secrets [0, 0xc0]).wire).1 = [] := by
      decide +kernel
    rw [hhanded, hbegun] at hnone
    cases hnone
  · rw [hbegun] at hm
    rw [mem_singleton.1 hm]
    exact checkPacket_eq_ok_true_iff.2 ⟨by decide, by decide, .list [] (by decide)⟩

end Session

end Kmdx.P2p
