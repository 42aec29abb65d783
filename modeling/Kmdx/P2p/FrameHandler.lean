import Kmdx.P2p.Capabilities
import Kmdx.Rlp.Printing

/-!
# The frame handler (`libp2p/Session.cpp`)

From a frame whose MAC was right up to the next `doRead`. `checkPacket` looks at the first byte before the size, what it looks
at behind it throws if it is not an item, and nothing catches that, nor what the log throws (`handled_iff`).
-/

namespace Kmdx.P2p.FrameHandler

open Rlp ExceptRules Capabilities Wp

/-- The levels of the log, on the channel `net` -/
inductive Verbosity
  | debug | trace

/-- What a frame is handled with: whether the log takes a record, the capabilities, and how they interpret a packet -/
structure Session where
  logs : Verbosity → Bool
  session : Capabilities.Session
  interpret : CapDesc → UInt32 → Bytes → Except Rlp.Exn Bool

/-- What is done -/
inductive Event
  | readPacket (packet : Handed)
  | pong
  | disconnect (reason : DisconnectReason)
  | drop (reason : DisconnectReason)
  | doRead
deriving DecidableEq

abbrev HandlerM := EStateM Rlp.Exn (List Event)

def note (e : Event) : HandlerM Unit := modify (· ++ [e])

def checkPacket (msg : Bytes) : Except Rlp.Exn Bool := do
  if (← Checked.byteAt msg 0) > 0x7f ∨ msg.length < 2 then
    return false
  if (← Checked.actualSize (← Checked.mk' (msg.drop 1)).data) + 1 ≠ msg.length then
    return false
  return true

/-- Whether the reason of a disconnect packet is a number -/
def reasonIsInt (r : Bytes) : Except Rlp.Exn Bool := eval (do
  let _ ← Checked.toInt (← Checked.item 0).data 4
  Checked.isInt (← Checked.item 0).data : Rlp.M Bool) (RLP.of r)

namespace Session

variable (s : Session)

/-- A record with an RLP. If the log does not take it, nothing is printed. -/
def log (v : Verbosity) (r : Bytes) : HandlerM Unit := if s.logs v then ofExcept (print r) else return

/-- `Session::interpret` -/
def interpretBase (t : UInt32) (r : Bytes) : HandlerM Bool :=
  match t.toNat with
  | 1 => do
    if !(← ofExcept (reasonIsInt r)) then note (.drop .badProtocol) else note (.drop .disconnectRequested)
    return true
  | 2 => do
    note .pong
    return true
  | 3 | 4 | 5 => return true
  | _ => return false

/-- What `readPacket` tries -/
def dispatch (packet : Handed) : HandlerM Bool :=
  match s.session.readPacket packet with
  | .session t body => interpretBase t body
  | .capability desc id body => ofExcept (s.interpret desc id body)
  | .disabled _ => return true
  | .nobody => return false

def readPacket (packet : Handed) : HandlerM Bool := do
  note (.readPacket packet)
  s.log .trace packet.r
  tryCatch (s.dispatch packet) fun _ => do
    s.log .debug packet.r
    note (.disconnect .badProtocol)
    return true

/-- The end of `doRead` -/
def handleFrame (protocolId : Nat) (frame : Bytes) : HandlerM Unit := do
  if !(← ofExcept (checkPacket frame)) then
    note (.disconnect .badProtocol)
  else do
    let packetType ← ofExcept (do Checked.toInt (← Checked.mk' (cropped frame 0 1)).data 4)
    let r ← ofExcept (Checked.mk' (frame.drop 1))
    let ok ← s.readPacket ⟨protocolId, packetType, r.data⟩
    if !ok then
      s.log .debug r.data
    note .doRead

end Session

/-! ### What is to be done -/

/-- One byte that is at most `0x7f`, and one item behind it -/
def IsPacket (p : Bytes) : Prop := ∃ t item, p = t :: item ∧ t ≤ 0x7f ∧ IsItem item

/-- The packets are accepted, and nothing else. -/
def Checks (p : Bytes) : Prop := (IsPacket p → checkPacket p = .ok true) ∧ (¬IsPacket p → checkPacket p = .ok false)

/-- Neither of the two that the handler itself may do once -/
def Event.IsInner : Event → Prop
  | .readPacket _ | .doRead => False
  | _ => True

variable {s : Session} {protocolId : Nat} {frame r item : Bytes} {t : UInt8} {packet : Handed} {l : List Event}

/-- Either `readPacket` is called and `doRead` after it, or the peer is disconnected. -/
def Handled (s : Session) (protocolId : Nat) (frame : Bytes) : Prop :=
  ∃ events, s.handleFrame protocolId frame [] = .ok () events ∧ (events = [.disconnect .badProtocol] ∨
    ∃ packet inner, events = .readPacket packet :: inner ++ [.doRead] ∧ ∀ e ∈ inner, e.IsInner)

/-- The packet is for somebody who makes something of it. -/
def Session.Understands (s : Session) (packet : Handed) : Prop := eval (s.dispatch packet) [.readPacket packet] = .ok true

/-- The packet can be printed, or it is not. -/
def Session.Logs (s : Session) (packet : Handed) : Prop :=
  Nested 65 packet.r ∨ s.logs .trace = false ∧ (s.logs .debug = false ∨ s.Understands packet)

/-! ### Packets -/

theorem length_pos_of_isItem (h : IsItem item) : 0 < item.length := List.length_pos_iff.2 h.ne_nil

theorem isPacket_cons : IsPacket (t :: item) ↔ t ≤ 0x7f ∧ IsItem item := by
  constructor
  · rintro ⟨t', item', heq, ht, hitem⟩
    cases heq
    exact ⟨ht, hitem⟩
  · rintro ⟨ht, hitem⟩
    exact ⟨t, item, rfl, ht, hitem⟩

/-- With a byte to look at, it is the same as if bytes that are not there were zero. -/
theorem checkPacket_cons (t : UInt8) (item : Bytes) : checkPacket (t :: item) = P2p.checkPacket (t :: item) := by
  rw [checkPacket, P2p.checkPacket, Checked.byteAt_cons_zero, ok_bind, List.getD_cons_zero, Checked.mk'_eq]
  simp only [Checked.actualSize_eq]
  split
  · rfl
  · refine bind_congr_ok fun r _ => bind_congr_ok fun n _ => ?_
    by_cases hsize : n + 1 = (t :: item).length
    · rw [if_neg (not_not.2 hsize), decide_eq_true hsize]
    · rw [if_pos hsize, decide_eq_false hsize]

theorem le_iff_lt : t ≤ 0x7f ↔ t.toNat < 0x80 := by
  have h7f : (0x7f : UInt8).toNat = 127 := rfl
  rw [UInt8.le_iff_toNat_le]
  omega

theorem checkPacket_eq_ok_true : checkPacket (t :: item) = .ok true ↔ IsPacket (t :: item) := by
  rw [checkPacket_cons, checkPacket_eq_ok_true_iff, isPacket_cons, List.getD_cons_zero, ← le_iff_lt]
  constructor
  · rintro ⟨ht, -, hitem⟩
    exact ⟨ht, hitem⟩
  · rintro ⟨ht, hitem⟩
    have hpos := length_pos_of_isItem hitem
    refine ⟨ht, ?_, hitem⟩
    rw [List.length_cons]
    omega

/-- What is not an item throws. -/
theorem checkPacket_eq_ok_false : checkPacket (t :: item) = .ok false ↔ 0x7f < t ∨ item = [] := by
  have hlen : (t :: item).length < 2 ↔ item = [] := by
    rw [← List.length_eq_zero_iff, List.length_cons]
    omega
  rw [← hlen]
  by_cases hbad : t > 0x7f ∨ (t :: item).length < 2
  · rw [checkPacket, Checked.byteAt_cons_zero, ok_bind, if_pos hbad]
    exact iff_of_true rfl hbad
  · refine iff_of_false (fun h => ?_) hbad
    have hok := h
    rw [checkPacket, Checked.byteAt_cons_zero, ok_bind, if_neg hbad, Checked.mk'_eq] at h
    obtain ⟨r, hr, -⟩ := bind_eq_ok_iff.1 h
    obtain ⟨hle, hne⟩ := not_or.1 hbad
    have hitem : IsItem item := (mk'_veryStrict.1 hr).2.resolve_left fun hnil => hne (hlen.2 hnil)
    rw [checkPacket_eq_ok_true.2 (isPacket_cons.2 ⟨UInt8.not_lt.1 hle, hitem⟩)] at hok
    cases hok

/-! ### Logs -/

/-- What is done goes to the end, and is not the handler's own. -/
def Extends (l l' : List Event) : Prop := ∃ inner, l' = l ++ inner ∧ ∀ e ∈ inner, e.IsInner

theorem Extends.refl (l : List Event) : Extends l l := ⟨[], (List.append_nil l).symm, by simp⟩

variable {l' : List Event}

theorem Extends.note {e : Event} (h : Extends l l') (he : e.IsInner) : Extends l (l' ++ [e]) := by
  obtain ⟨inner, rfl, hinner⟩ := h
  refine ⟨inner ++ [e], List.append_assoc .., fun e' he' => ?_⟩
  rcases List.mem_append.1 he' with hmem | hmem
  · exact hinner e' hmem
  · rw [List.mem_singleton.1 hmem]
    exact he

theorem run_ofExcept {α : Type} (x : Except Rlp.Exn α) : (ofExcept x : HandlerM α) l =
    match x with
    | .ok a => .ok a l
    | .error e => .error e l := by
  cases x <;> rfl

theorem run_note (e : Event) : note e l = .ok () (l ++ [e]) := rfl

namespace Session

/-- A record that is taken is printed. -/
def Prints (s : Session) (v : Verbosity) (r : Bytes) : Prop := s.logs v = true → print r = .ok ()

theorem log_of_prints {v : Verbosity} (h : s.Prints v r) : s.log v r l = .ok () l := by
  rw [log, run_ite]
  split
  · rename_i hlogs
    rw [run_ofExcept, h hlogs]
  · rfl

theorem log_of_not_prints {v : Verbosity} (h : ¬s.Prints v r) : ∃ e, s.log v r l = .error e l := by
  rw [Prints, Classical.not_imp] at h
  rw [log, run_ite, if_pos h.1, run_ofExcept]
  cases hprint : print r with
  | ok u => exact absurd hprint h.2
  | error e => exact ⟨e, rfl⟩

theorem interpretBase_extends (t : UInt32) :
    wp (interpretBase t r) (fun _ l' => Extends l l') (fun _ l' => Extends l l') l := by
  unfold interpretBase
  split
  · rw [wp_bind]
    cases reasonIsInt r with
    | error e => exact .refl l
    | ok isInt =>
      cases isInt
      · exact (Extends.refl l).note trivial
      · exact (Extends.refl l).note trivial
  · exact (Extends.refl l).note trivial
  · exact .refl l
  · exact .refl l
  · exact .refl l
  · exact .refl l

theorem dispatch_extends (s : Session) (packet : Handed) :
    wp (s.dispatch packet) (fun _ l' => Extends l l') (fun _ l' => Extends l l') l := by
  unfold dispatch
  split
  · exact interpretBase_extends _
  · rename_i desc id body _
    cases hresult : s.interpret desc id body with
    | error e => exact .refl l
    | ok b => exact .refl l
  · exact .refl l
  · exact .refl l

theorem prints_iff {v : Verbosity} (h : IsItem r) : s.Prints v r ↔ s.logs v = false ∨ Nested 65 r := by
  rw [Prints, ← Bool.not_eq_true, ← imp_iff_not_or]
  exact imp_congr_right fun _ => streamOut_iff h

theorem logs_iff (h : IsItem packet.r) : s.Logs packet ↔
    s.Prints .trace packet.r ∧ (s.Prints .debug packet.r ∨ s.Understands packet) := by
  rw [prints_iff h, prints_iff h, Logs]
  tauto

/-! ### Frames -/

theorem readPacket_of_ok {b : Bool} (h : s.Prints .trace packet.r)
    (hdispatch : s.dispatch packet (l ++ [.readPacket packet]) = .ok b l') : s.readPacket packet l = .ok b l' := by
  rw [readPacket, run_bind_of_ok (run_note _), run_bind_of_ok (log_of_prints h), run_tryCatch, hdispatch]

theorem readPacket_of_error {e : Rlp.Exn} (h : s.Prints .trace packet.r)
    (hdispatch : s.dispatch packet (l ++ [.readPacket packet]) = .error e l') :
    s.readPacket packet l = (do s.log .debug packet.r; note (.disconnect .badProtocol); return true : HandlerM Bool) l' := by
  rw [readPacket, run_bind_of_ok (run_note _), run_bind_of_ok (log_of_prints h), run_tryCatch, hdispatch]

theorem readPacket_of_not_prints (h : ¬s.Prints .trace packet.r) : ∃ e l', s.readPacket packet l = .error e l' := by
  obtain ⟨e, he⟩ := log_of_not_prints (l := l ++ [.readPacket packet]) h
  refine ⟨e, l ++ [.readPacket packet], ?_⟩
  rw [readPacket, run_bind_of_ok (run_note _), run_bind_of_error he]

/-- The type of a packet may not be zero. -/
theorem handleFrame_of_packet (h : IsPacket (t :: item)) : s.handleFrame protocolId (t :: item) l =
    if t = 0 then .error .badCast l
    else (do
      let ok ← s.readPacket ⟨protocolId, t.toNat, item⟩
      if !ok then
        s.log .debug item
      note .doRead : HandlerM Unit) l := by
  obtain ⟨ht, hitem⟩ := isPacket_cons.1 h
  have hcropped : cropped (t :: item) 0 1 = [t] := if_pos (by simp)
  have hsingle : RLP.mk' [t] = .ok (RLP.of [t]) :=
    mk'_veryStrict.2 ⟨rfl, .inr (isItem_iff.2 ⟨[], [t], rfl, .single t [] (le_iff_lt.1 ht)⟩)⟩
  have htype : (do Checked.toInt (← Checked.mk' [t]).data 4) = if t = 0 then .error .badCast else .ok t.toNat := by
    rw [Checked.mk'_eq, hsingle, ok_bind, Checked.toInt_eq, toInt_single (le_iff_lt.1 ht)]
  have hr : Checked.mk' item = .ok (RLP.of item) := by
    rw [Checked.mk'_eq]
    exact mk'_veryStrict.2 ⟨rfl, .inr hitem⟩
  rw [handleFrame, run_bind, checkPacket_eq_ok_true.2 h, hcropped, htype, List.drop_one, List.tail_cons, hr]
  by_cases hzero : t = 0
  · rw [if_pos hzero, if_pos hzero]
    rfl
  · rw [if_neg hzero, if_neg hzero]
    rfl

theorem not_handled_of_error {e : Rlp.Exn} (h : s.handleFrame protocolId frame [] = .error e l') :
    ¬Handled s protocolId frame := by
  rintro ⟨events, hok, -⟩
  rw [h] at hok
  cases hok

theorem handled_of_extends (h : s.handleFrame protocolId frame [] = .ok () (l' ++ [.doRead]))
    (hl : Extends [.readPacket packet] l') : Handled s protocolId frame := by
  obtain ⟨inner, rfl, hinner⟩ := hl
  exact ⟨_, h, .inr ⟨packet, inner, rfl, hinner⟩⟩

/-- Whether a packet was made something of may be logged. -/
theorem handled_of_dispatch_ok {b : Bool} (h : IsPacket (t :: packet.r)) (ht : t ≠ 0)
    (hpacket : packet = ⟨protocolId, t.toNat, packet.r⟩) (htrace : s.Prints .trace packet.r)
    (hdispatch : s.dispatch packet [.readPacket packet] = .ok b l') :
    Handled s protocolId (t :: packet.r) ↔ s.Prints .debug packet.r ∨ s.Understands packet := by
  have hrun : s.handleFrame protocolId (t :: packet.r) [] = _ := handleFrame_of_packet h
  rw [if_neg ht, ← hpacket, run_bind_of_ok (readPacket_of_ok htrace hdispatch)] at hrun
  have hl := wp_ok (dispatch_extends s packet) hdispatch
  have hunderstands : s.Understands packet ↔ b = true := by rw [Understands, eval, hdispatch, Except.ok.injEq]
  rw [hunderstands]
  cases b with
  | true => exact iff_of_true (handled_of_extends hrun hl) (.inr rfl)
  | false =>
    by_cases hdebug : s.Prints .debug packet.r
    · exact iff_of_true (handled_of_extends (hrun.trans (run_bind_of_ok (log_of_prints hdebug) _)) hl) (.inl hdebug)
    · obtain ⟨e, he⟩ := log_of_not_prints (l := l') hdebug
      exact iff_of_false (not_handled_of_error (hrun.trans (run_bind_of_error he _))) (not_or.2 ⟨hdebug, Bool.false_ne_true⟩)

/-- An exception is logged, and may be thrown again by that. -/
theorem handled_of_dispatch_error {e : Rlp.Exn} (h : IsPacket (t :: packet.r)) (ht : t ≠ 0)
    (hpacket : packet = ⟨protocolId, t.toNat, packet.r⟩) (htrace : s.Prints .trace packet.r)
    (hdispatch : s.dispatch packet [.readPacket packet] = .error e l') :
    Handled s protocolId (t :: packet.r) ↔ s.Prints .debug packet.r ∨ s.Understands packet := by
  have hrun : s.handleFrame protocolId (t :: packet.r) [] = _ := handleFrame_of_packet h
  have hread : s.readPacket packet [] = _ := readPacket_of_error htrace hdispatch
  have hl := wp_error (dispatch_extends s packet) hdispatch
  have hunderstands : ¬s.Understands packet := by
    rw [Understands, eval, hdispatch]
    exact fun h => by cases h
  rw [if_neg ht, ← hpacket] at hrun
  by_cases hdebug : s.Prints .debug packet.r
  · rw [run_bind_of_ok (log_of_prints hdebug)] at hread
    exact iff_of_true (handled_of_extends (hrun.trans (run_bind_of_ok hread _)) (Extends.note hl trivial)) (.inl hdebug)
  · obtain ⟨e, he⟩ := log_of_not_prints (l := l') hdebug
    rw [run_bind_of_error he] at hread
    exact iff_of_false (not_handled_of_error (hrun.trans (run_bind_of_error hread _))) (not_or.2 ⟨hdebug, hunderstands⟩)

theorem handled_of_packet (h : IsPacket (t :: item)) (ht : t ≠ 0) :
    Handled s protocolId (t :: item) ↔ s.Logs ⟨protocolId, t.toNat, item⟩ := by
  rw [logs_iff (isPacket_cons.1 h).2]
  generalize hpacket : (⟨protocolId, t.toNat, item⟩ : Handed) = packet
  obtain rfl : packet.r = item := by rw [← hpacket]
  by_cases htrace : s.Prints .trace packet.r
  · rw [and_iff_right htrace]
    cases hdispatch : s.dispatch packet [.readPacket packet] with
    | ok b l' => exact handled_of_dispatch_ok h ht hpacket.symm htrace hdispatch
    | error e l' => exact handled_of_dispatch_error h ht hpacket.symm htrace hdispatch
  · have hrun : s.handleFrame protocolId (t :: packet.r) [] = _ := handleFrame_of_packet h
    obtain ⟨e, l', he⟩ := readPacket_of_not_prints (l := []) htrace
    rw [if_neg ht, hpacket, run_bind_of_error he] at hrun
    exact iff_of_false (not_handled_of_error hrun) fun hlogs => htrace hlogs.1

end Session

theorem checks_of_packet (h : IsPacket frame) (hcheck : checkPacket frame = .ok true) : Checks frame :=
  ⟨fun _ => hcheck, fun hnot => absurd h hnot⟩

theorem handled_of_check_false (h : checkPacket frame = .ok false) : Handled s protocolId frame := by
  refine ⟨[.disconnect .badProtocol], ?_, .inl rfl⟩
  rw [Session.handleFrame, h]
  rfl

/-- A frame is handled, and checked, if it is a packet whose type is not zero and which can be printed where it is, or if its
first byte is too large or alone. -/
theorem handled_iff (s : Session) (protocolId : Nat) (frame : Bytes) : Handled s protocolId frame ∧ Checks frame ↔
    IsPacket frame ∧ frame.getD 0 0 ≠ 0 ∧ s.Logs ⟨protocolId, (frame.getD 0 0).toNat, frame.drop 1⟩ ∨
      0x7f < frame.getD 0 0 ∨ frame.length = 1 := by
  cases frame with
  | nil =>
    refine iff_of_false (fun h => Session.not_handled_of_error rfl h.1) ?_
    rintro (⟨⟨t, item, heq, -⟩, -⟩ | h | h)
    · cases heq
    · exact absurd h (by decide)
    · cases h
  | cons t item =>
    rw [List.getD_cons_zero, List.drop_one, List.tail_cons, List.length_cons, Nat.add_eq_right, List.length_eq_zero_iff,
      ← checkPacket_eq_ok_false]
    by_cases hpacket : IsPacket (t :: item)
    · have htrue := checkPacket_eq_ok_true.2 hpacket
      have hfalse : ¬checkPacket (t :: item) = .ok false := by
        rw [htrue]
        rintro ⟨⟩
      rw [or_iff_left hfalse, and_iff_left (checks_of_packet hpacket htrue), and_iff_right hpacket]
      by_cases ht : t = 0
      · have hrun : s.handleFrame protocolId (t :: item) [] = _ := Session.handleFrame_of_packet hpacket
        rw [if_pos ht] at hrun
        exact iff_of_false (Session.not_handled_of_error hrun) fun h => h.1 ht
      · rw [Session.handled_of_packet hpacket ht, and_iff_right ht]
    · rw [or_iff_right fun h => hpacket h.1]
      exact ⟨fun h => h.2.2 hpacket, fun h => ⟨handled_of_check_false h, fun hp => absurd hp hpacket, fun _ => h⟩⟩

/-- A packet with a byte behind its item -/
def trailing : Bytes := [0x10, 0xc0, 0x00]

theorem not_handled : ¬∀ (s : Session) (protocolId : Nat) (frame : Bytes), Handled s protocolId frame ∧ Checks frame := by
  intro h
  obtain ⟨events, hok, -⟩ := (h ⟨fun _ => false, {}, fun _ _ _ => .ok true⟩ 0 trailing).1
  have hthrows : checkPacket trailing = .error .oversizeRLP := by decide +kernel
  rw [Session.handleFrame, hthrows] at hok
  cases hok

end Kmdx.P2p.FrameHandler
