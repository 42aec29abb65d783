import Kmdx.Rlp.Conversions

/-!
# RLPStream (`libdevcore/RLP.h`, `RLP.cpp`)

A list is begun with the number of its items, and gets its head when the last of them has been appended:
`noteAppended` moves what is in it, and may be at the end of the lists around it then, too. What comes out is
what `Tree.encode` makes of the finished payloads (`run_of_writes`).
-/

namespace Kmdx.Rlp

open ExceptRules List

structure RLPStream where
  out : Bytes := []
  /-- The innermost one first: how many items are missing, and where the list begins. -/
  listStack : List (Nat × Nat) := []

/-- An `unsigned` counts the bytes. -/
def bytesRequired (i : Nat) : Nat := (compact i).length % 2 ^ 32

/-- The head that a finished list of `s` bytes gets. -/
def listHead (s : Nat) : Except Exn Bytes :=
  let brs := bytesRequired s
  if s < 56 then return [UInt8.ofNat (0xc0 + s)]
  else if 0xf7 + brs ≤ 0xff then return UInt8.ofNat (0xf7 + brs) :: compact s
  else throw .rlpException

/-- The loop of `noteAppended`: the lists that are finished are closed. -/
def close : List (Nat × Nat) → Bytes → Nat → Except Exn RLPStream
  | [], out, _ => return { out }
  | (missing, p) :: listStack, out, itemCount =>
    if missing < itemCount then throw .rlpException
    else if missing - itemCount ≠ 0 then return { out, listStack := (missing - itemCount, p) :: listStack }
    else do
      let head ← listHead (out.length - p)
      close listStack (out.take p ++ head ++ out.drop p) 1

namespace RLPStream

def noteAppended (s : RLPStream) (itemCount : Nat := 1) : Except Exn RLPStream :=
  if itemCount = 0 then return s else close s.listStack s.out itemCount

def push (s : RLPStream) (b : Bytes) : RLPStream := { s with out := s.out ++ b }

/-- Room for `br` bytes, which are written from the last one on. -/
def pushInt (s : RLPStream) (i br : Nat) : Except Exn RLPStream :=
  if (compact i).length ≤ br then return s.push (List.replicate (br - (compact i).length) 0 ++ compact i)
  else throw .undefined

def pushCount (s : RLPStream) (count base : Nat) : Except Exn RLPStream :=
  let br := bytesRequired count
  if br + base > 0xff then throw .rlpException
  else (s.push [UInt8.ofNat (br + base)]).pushInt count br

def appendRaw (s : RLPStream) (rlp : Bytes) (itemCount : Nat := 1) : Except Exn RLPStream :=
  (s.push rlp).noteAppended itemCount

/-- The first byte, and the size after it if it does not go into it. -/
def pushSize (s : RLPStream) (size start indZero : Nat) : Except Exn RLPStream :=
  if size < 56 then return s.push [UInt8.ofNat (size + start)] else s.pushCount size indZero

/-- `appendList(bytesConstRef)` -/
def appendListOf (s : RLPStream) (rlp : Bytes) : Except Exn RLPStream := do
  (← s.pushSize rlp.length 0xc0 0xf7).appendRaw rlp 1

def appendList (s : RLPStream) (items : Nat) : Except Exn RLPStream :=
  if items ≠ 0 then return { s with listStack := (items, s.out.length) :: s.listStack }
  else s.appendListOf []

def pushData (s : RLPStream) (d : Bytes) : Except Exn RLPStream :=
  if d.length = 1 ∧ d.getD 0 0 < 0x80 then return s.push d
  else do (← s.pushSize d.length 0x80 0xb7).appendRaw d 0

/-- `append(bytesConstRef, bool)` -/
def append (s : RLPStream) (b : Bytes) (compact : Bool := false) : Except Exn RLPStream := do
  (← s.pushData (if compact then b.dropWhile (· = 0) else b)).noteAppended

/-- The first byte of an integer of `br` bytes, and `br` after it if it does not go into it. -/
def pushRequired (s : RLPStream) (br : Nat) : Except Exn RLPStream :=
  let brbr := bytesRequired br
  if br < 56 then return s.push [UInt8.ofNat (br + 0x80)]
  else if 0xb7 + brbr > 0xff then throw .rlpException
  else (s.push [UInt8.ofNat (0xb7 + brbr)]).pushInt br brbr

def pushBigint (s : RLPStream) (i : Nat) : Except Exn RLPStream :=
  if i = 0 then return s.push [0x80]
  else if i < 0x80 then return s.push [UInt8.ofNat i]
  else do (← s.pushRequired (bytesRequired i)).pushInt i (bytesRequired i)

/-- `append(bigint)` -/
def appendInt (s : RLPStream) (i : Nat) : Except Exn RLPStream := do (← s.pushBigint i).noteAppended

/-- `out()` -/
def output (s : RLPStream) : Except Exn Bytes := if s.listStack ≠ [] then throw .rlpException else return s.out

end RLPStream

inductive Op
  | append (b : Bytes) (compact : Bool)
  | appendInt (i : Nat)
  | appendList (items : Nat)
  | appendListOf (rlp : Bytes)
  | appendRaw (rlp : Bytes) (itemCount : Nat)

def Op.run : Op → RLPStream → Except Exn RLPStream
  | .append b compact, s => s.append b compact
  | .appendInt i, s => s.appendInt i
  | .appendList items, s => s.appendList items
  | .appendListOf rlp, s => s.appendListOf rlp
  | .appendRaw rlp itemCount, s => s.appendRaw rlp itemCount

def run (ops : List Op) (s : RLPStream) : Except Exn RLPStream := ops.foldlM (fun s op => op.run s) s

/-- What `ops` append are the items `ts`, each of them in one of the ways there are. -/
inductive Writes : List Op → List Tree → Prop
  | nil : Writes [] []
  | append (b : Bytes) {ops ts} : Writes ops ts → Writes (.append b false :: ops) (.data b :: ts)
  | compact (b : Bytes) {ops ts} : Writes ops ts → Writes (.append b true :: ops) (.data (b.dropWhile (· = 0)) :: ts)
  | int (i : Nat) {ops ts} : i < 256 ^ intLimit → Writes ops ts → Writes (.appendInt i :: ops) (.int i :: ts)
  | list {ops ops' ts ts'} : Writes ops ts → Writes ops' ts' →
    Writes (.appendList ts.length :: ops ++ ops') (.list ts :: ts')
  | listOf (ts) {ops ts'} : Writes ops ts' → Writes (.appendListOf (Tree.payload ts) :: ops) (.list ts :: ts')
  | raw (ts) {ops ts'} : Writes ops ts' → Writes (.appendRaw (Tree.payload ts) ts.length :: ops) (ts ++ ts')

variable {ts : List Tree}

theorem Writes.concat {ops ops' : List Op} {ts' : List Tree} (h : Writes ops ts) (h' : Writes ops' ts') :
    Writes (ops ++ ops') (ts ++ ts') := by
  induction h with
  | nil => exact h'
  | append b _ ih => exact .append b ih
  | compact b _ ih => exact .compact b ih
  | int i hi _ ih => exact .int i hi ih
  | list h _ _ ih =>
    rw [append_assoc]
    exact .list h ih
  | listOf ts _ ih => exact .listOf ts ih
  | raw ts _ ih =>
    rw [append_assoc]
    exact .raw ts ih

theorem Writes.singleton {ops : List Op} (h : Writes ops ts) : Writes (.appendList ts.length :: ops) [.list ts] := by
  have hlist := Writes.list h .nil
  rwa [append_nil] at hlist

variable {s s' : RLPStream} {len : Nat} {b : Bytes}

/-! ### Heads -/

theorem bytesRequired_eq {i : Nat} (h : (compact i).length < 2 ^ 32) : bytesRequired i = (compact i).length :=
  Nat.mod_eq_of_lt h

theorem listHead_eq (h : len < lengthLimit) : listHead len = .ok (head 0xc0 len) := by
  by_cases hshort : len < 56
  · rw [head_of_lt hshort, listHead, if_pos hshort]
    rfl
  · obtain ⟨-, hle⟩ := compact_length (not_lt.1 hshort) (h.trans lengthLimit_lt)
    have hbrs : bytesRequired len = (compact len).length := bytesRequired_eq (by omega)
    rw [head_of_le (not_lt.1 hshort), listHead, if_neg hshort, hbrs, if_pos (by omega)]
    rfl

theorem pushInt_compact (s : RLPStream) (i : Nat) : s.pushInt i (compact i).length = .ok (s.push (compact i)) := by
  rw [RLPStream.pushInt, if_pos le_rfl, Nat.sub_self]
  rfl

theorem push_push (s : RLPStream) (b b' : Bytes) : (s.push b).push b' = s.push (b ++ b') := by
  simp [RLPStream.push]

theorem pushCount_eq {base : Nat} (hbase : base + 8 ≤ 0xff) (h : 56 ≤ len) (h' : len < 2 ^ 64) :
    s.pushCount len base = .ok (s.push (UInt8.ofNat (base + (compact len).length) :: compact len)) := by
  obtain ⟨-, hle⟩ := compact_length h h'
  have hbr : bytesRequired len = (compact len).length := bytesRequired_eq (by omega)
  rw [RLPStream.pushCount, hbr, if_neg (by omega), pushInt_compact, push_push, Nat.add_comm]
  rfl

theorem pushSize_eq {off : Nat} (hoff : off + 55 + 8 ≤ 0xff) (h : len < 2 ^ 64) :
    s.pushSize len off (off + 55) = .ok (s.push (head off len)) := by
  unfold RLPStream.pushSize
  split
  · rename_i hshort
    rw [head_of_lt hshort, Nat.add_comm]
    rfl
  · rename_i hlong
    rw [pushCount_eq hoff (not_lt.1 hlong) h, head_of_le (not_lt.1 hlong)]

/-! ### What is appended -/

theorem bytes_cons_cons (x y : UInt8) (b : Bytes) : bytes (x :: y :: b) = head 0x80 (x :: y :: b).length ++ x :: y :: b := by
  rw [bytes]
  rintro _ ⟨⟩

theorem pushData_eq (h : b.length < 2 ^ 64) : s.pushData b = .ok (s.push (bytes b)) := by
  have hlong : ¬(b.length = 1 ∧ b.getD 0 0 < 0x80) → bytes b = head 0x80 b.length ++ b → s.pushData b =
      .ok (s.push (bytes b)) := by
    intro hnot hbytes
    rw [RLPStream.pushData, if_neg hnot, pushSize_eq (by decide) h, ok_bind, RLPStream.appendRaw, RLPStream.noteAppended,
      if_pos rfl, push_push, hbytes]
    rfl
  match b with
  | [] => exact hlong (by simp) rfl
  | [x] =>
    by_cases hx : x < 0x80
    · have hbytes : bytes [x] = [x] := if_pos hx
      rw [RLPStream.pushData, if_pos ⟨rfl, hx⟩, hbytes]
      rfl
    · exact hlong (fun hlt => hx hlt.2) (if_neg hx)
  | x :: y :: b => exact hlong (by simp) (bytes_cons_cons x y b)

theorem append_eq {compact : Bool} (h : (if compact then b.dropWhile (· = 0) else b).length < 2 ^ 64) :
    s.append b compact = (s.push (bytes (if compact then b.dropWhile (· = 0) else b))).noteAppended := by
  rw [RLPStream.append, pushData_eq h, ok_bind]

theorem appendListOf_eq (h : b.length < 2 ^ 64) :
    s.appendListOf b = (s.push (head 0xc0 b.length ++ b)).noteAppended := by
  rw [RLPStream.appendListOf, pushSize_eq (by decide) h, ok_bind, RLPStream.appendRaw, push_push]

theorem pushRequired_eq (h : len < 2 ^ 32) : s.pushRequired len = .ok (s.push (head 0x80 len)) := by
  rw [RLPStream.pushRequired]
  split
  · rename_i hshort
    rw [head_of_lt hshort, Nat.add_comm]
    rfl
  · rename_i hlong
    obtain ⟨-, hle⟩ := compact_length (not_lt.1 hlong) (h.trans (by decide))
    have hbrbr : bytesRequired len = (compact len).length := bytesRequired_eq (by omega)
    rw [hbrbr, if_neg (by omega), pushInt_compact, push_push, head_of_le (not_lt.1 hlong)]
    rfl

theorem compact_of_lt {i : Nat} (h : 0 < i) (h' : i < 256) : compact i = [UInt8.ofNat i] := by
  rw [compact, Nat.digits_of_lt 256 i h.ne' h']
  rfl

theorem pushBigint_eq {i : Nat} (h : i < 256 ^ intLimit) : s.pushBigint i = .ok (s.push (nat i)) := by
  have hle : (compact i).length ≤ intLimit := length_compact_le_iff.2 h
  have hlen : (compact i).length < 2 ^ 32 := hle.trans_lt (by decide)
  unfold RLPStream.pushBigint nat
  split
  · rename_i hzero
    rw [hzero]
    rfl
  split
  · rename_i hpos hlt
    have hx : UInt8.ofNat i < 0x80 := by
      rw [UInt8.lt_iff_toNat_lt, toNat_ofNat_of_lt (by omega)]
      exact hlt
    rw [compact_of_lt (Nat.pos_of_ne_zero hpos) (by omega), bytes, if_pos hx]
    rfl
  · rename_i hpos hge
    have hbytes : bytes (compact i) = head 0x80 (compact i).length ++ compact i := by
      refine bytes_of_forall fun x hx => ?_
      have hi := ofBytes_compact i
      rw [hx] at hi
      have hxi : x.toNat = i := by simpa [BigEndian.ofBytes] using hi
      omega
    rw [bytesRequired_eq hlen, pushRequired_eq hlen, ok_bind, pushInt_compact, push_push, hbytes]

theorem appendInt_eq {i : Nat} (h : i < 256 ^ intLimit) : s.appendInt i = (s.push (nat i)).noteAppended := by
  rw [RLPStream.appendInt, pushBigint_eq h, ok_bind]

/-! ### Closing lists -/

/-- The list that is open can take `k` items. -/
def Room (s : RLPStream) (k : Nat) : Prop :=
  s.listStack = [] ∨ ∃ missing p listStack, s.listStack = (missing, p) :: listStack ∧ k ≤ missing

theorem room_zero (s : RLPStream) : Room s 0 := by
  cases h : s.listStack with
  | nil => exact .inl h
  | cons top listStack => exact .inr ⟨top.1, top.2, listStack, h, Nat.zero_le _⟩

/-- Two parts of one list. -/
theorem noteAppended_bind {j k : Nat} {x : Bytes} (hroom : Room s (j + k)) (hx : k = 0 → x = []) :
    (s.noteAppended j >>= fun s' => (s'.push x).noteAppended k) = (s.push x).noteAppended (j + k) := by
  rcases Nat.eq_zero_or_pos j with rfl | hj
  · rw [RLPStream.noteAppended, if_pos rfl, Nat.zero_add]
    rfl
  rcases Nat.eq_zero_or_pos k with rfl | hk
  · rw [hx rfl, Nat.add_zero]
    have hpush : ∀ s : RLPStream, s.push [] = s := fun s => by simp [RLPStream.push]
    simp only [hpush]
    cases s.noteAppended j with
    | ok s' => simp [RLPStream.noteAppended]
    | error e => rfl
  rw [RLPStream.noteAppended, if_neg hj.ne', RLPStream.noteAppended, if_neg (by omega)]
  rcases hroom with hnil | ⟨missing, p, listStack, hstack, hle⟩
  · have hpushed : (s.push x).listStack = [] := hnil
    rw [hnil, hpushed, close, close, pure_eq, ok_bind, RLPStream.noteAppended, if_neg hk.ne']
    rfl
  · have hpushed : (s.push x).listStack = (missing, p) :: listStack := hstack
    have hleft : missing - j - k = missing - (j + k) := by omega
    rw [hstack, hpushed, close, if_neg (by omega), if_pos (by omega), pure_eq, ok_bind, RLPStream.noteAppended, if_neg hk.ne']
    change close ((missing - j, p) :: listStack) (s.out ++ x) k = close ((missing, p) :: listStack) (s.out ++ x) (j + k)
    rw [close, close, hleft, if_neg (show ¬missing - j < k by omega), if_neg (show ¬missing < j + k by omega)]

/-- The last item of a list gives it its head. -/
theorem close_list (h : (Tree.payload ts).length < lengthLimit) (listStack : List (Nat × Nat)) (out : Bytes) :
    close ((ts.length, out.length) :: listStack) (out ++ Tree.payload ts) ts.length =
      close listStack (out ++ (Tree.list ts).encode) 1 := by
  have hsize : (out ++ Tree.payload ts).length - out.length = (Tree.payload ts).length := by
    rw [length_append, Nat.add_sub_cancel_left]
  rw [close, if_neg (lt_irrefl _), if_neg (by simp), hsize, listHead_eq h, ok_bind, take_left, drop_left,
    append_assoc, Tree.encode]

theorem run_append (ops ops' : List Op) (s : RLPStream) : run (ops ++ ops') s = run ops s >>= run ops' := by
  rw [run, foldlM_append]
  rfl

/-- What the rest of a list does after its first `j` items. -/
theorem run_rest {ops : List Op} {j k : Nat} {x y : Bytes} (hroom : Room s (j + k)) (hy : k = 0 → y = [])
    (hrest : ∀ s', Room s' k → run ops s' = (s'.push y).noteAppended k) :
    ((s.push x).noteAppended j >>= run ops) = (s.push (x ++ y)).noteAppended (j + k) := by
  have hroom' : Room (s.push x) (j + k) := hroom
  rw [← push_push, ← noteAppended_bind hroom' hy]
  refine bind_congr_ok fun s' hs' => hrest s' ?_
  rcases Nat.eq_zero_or_pos j with rfl | hj
  · rw [RLPStream.noteAppended, if_pos rfl] at hs'
    cases hs'
    rw [Nat.zero_add] at hroom'
    exact hroom'
  rcases Nat.eq_zero_or_pos k with rfl | hk
  · exact room_zero s'
  rw [RLPStream.noteAppended, if_neg hj.ne'] at hs'
  rcases hroom' with hnil | ⟨missing, p, listStack, hstack, hle⟩
  · rw [hnil, close] at hs'
    cases hs'
    exact .inl rfl
  · rw [hstack, close, if_neg (by omega), if_pos (by omega)] at hs'
    cases hs'
    exact .inr ⟨_, _, _, rfl, by omega⟩

variable {t : Tree}

theorem length_encode_le (h : t ∈ ts) : t.encode.length ≤ (Tree.payload ts).length := by
  induction ts with
  | nil => cases h
  | cons t' ts ih =>
    rw [Tree.payload_cons, length_append]
    rcases mem_cons.1 h with rfl | h
    · exact Nat.le_add_right _ _
    · exact (ih h).trans (Nat.le_add_left _ _)

theorem Tree.fits_of_length (h : t.encode.length < lengthLimit) : t.Fits := by
  cases t with
  | data b =>
    rw [Tree.encode] at h
    exact (length_bytes_le b).trans_lt h
  | list ts =>
    rw [Tree.encode, length_append] at h
    exact lt_of_le_of_lt (Nat.le_add_left _ _) h

theorem Tree.fits_of_mem (h : (Tree.payload ts).length < lengthLimit) (ht : t ∈ ts) : t.Fits :=
  Tree.fits_of_length ((length_encode_le ht).trans_lt h)

theorem isItem_encode (h : t.Fits) : IsItem t.encode := by
  cases t with
  | data b =>
    rw [Tree.encode]
    exact .data b h
  | list ts =>
    rw [Tree.encode]
    exact .list _ h

theorem payload_of_length_eq_zero (h : ts.length = 0) : Tree.payload ts = [] := by
  rw [length_eq_zero_iff.1 h, Tree.payload_nil]

/-- One item, and the rest. -/
theorem run_item (ops : List Op) {ops' : List Op} (hop : run ops s = (s.push t.encode).noteAppended)
    (hroom : Room s (t :: ts).length)
    (hrest : ∀ s', Room s' ts.length → run ops' s' = (s'.push (Tree.payload ts)).noteAppended ts.length) :
    run (ops ++ ops') s = (s.push (Tree.payload (t :: ts))).noteAppended (t :: ts).length := by
  rw [List.length_cons, Nat.add_comm] at hroom ⊢
  rw [run_append, hop, run_rest hroom payload_of_length_eq_zero hrest, Tree.payload_cons]

theorem run_singleton (op : Op) (s : RLPStream) : run [op] s = op.run s := by
  rw [run, foldlM_cons]
  cases op.run s <;> rfl

/-- What has been appended are the encodings of the items, in whatever way they have been. -/
theorem run_of_writes {ops : List Op} (h : Writes ops ts) (hfits : ∀ t ∈ ts, t.Fits)
    (hroom : Room s ts.length) : run ops s = (s.push (Tree.payload ts)).noteAppended ts.length := by
  induction h generalizing s with
  | nil =>
    rw [Tree.payload_nil, length_nil, RLPStream.noteAppended, if_pos rfl]
    simp [run, RLPStream.push]
  | @append b ops ts h ih =>
    have hb : b.length < lengthLimit := hfits _ mem_cons_self
    have happend : s.append b false = (s.push (bytes b)).noteAppended := append_eq (hb.trans lengthLimit_lt)
    refine run_item [_] ?_ hroom fun s' => ih fun t ht => hfits t (mem_cons_of_mem _ ht)
    rw [run_singleton, Op.run, happend, Tree.encode]
  | @compact b ops ts h ih =>
    have hb : (b.dropWhile (· = 0)).length < lengthLimit := hfits _ mem_cons_self
    have happend : s.append b true = (s.push (bytes (b.dropWhile (· = 0)))).noteAppended :=
      append_eq (hb.trans lengthLimit_lt)
    refine run_item [_] ?_ hroom fun s' => ih fun t ht => hfits t (mem_cons_of_mem _ ht)
    rw [run_singleton, Op.run, happend, Tree.encode]
  | @int i ops ts hi h ih =>
    refine run_item [_] ?_ hroom fun s' => ih fun t ht => hfits t (mem_cons_of_mem _ ht)
    rw [run_singleton, Op.run, appendInt_eq hi, Tree.int, Tree.encode]
    rfl
  | @list ops ops' ts ts' h h' ih ih' =>
    have hpayload : (Tree.payload ts).length < lengthLimit := hfits _ mem_cons_self
    have hmem : ∀ t ∈ ts, t.Fits := fun t ht => Tree.fits_of_mem hpayload ht
    refine run_item (.appendList ts.length :: ops) ?_ hroom fun s' => ih' fun t ht => hfits t (mem_cons_of_mem _ ht)
    rw [← singleton_append, run_append, run_singleton, Op.run, RLPStream.appendList]
    split
    · rename_i hne
      have hopen : Room { s with listStack := (ts.length, s.out.length) :: s.listStack } ts.length :=
        .inr ⟨_, _, _, rfl, le_rfl⟩
      rw [pure_eq, ok_bind, ih hmem hopen, RLPStream.noteAppended, if_neg hne, RLPStream.noteAppended,
        if_neg Nat.one_ne_zero]
      exact close_list hpayload s.listStack s.out
    · rename_i hempty
      have hnil : ts = [] := length_eq_zero_iff.1 (not_not.1 hempty)
      subst hnil
      have hnothing : ∀ s' : RLPStream, run ops s' = .ok s' := by
        intro s'
        rw [ih hmem (room_zero s'), Tree.payload_nil, length_nil, RLPStream.noteAppended, if_pos rfl]
        simp [RLPStream.push]
      rw [appendListOf_eq (by decide), Tree.encode, Tree.payload_nil]
      cases (s.push (head 0xc0 ([] : Bytes).length ++ [])).noteAppended with
      | ok s' => exact hnothing s'
      | error e => rfl
  | @listOf ts ops ts' h ih =>
    refine run_item [_] ?_ hroom fun s' => ih fun t ht => hfits t (mem_cons_of_mem _ ht)
    rw [run_singleton, Op.run, appendListOf_eq (lt_trans (hfits _ mem_cons_self) lengthLimit_lt), Tree.encode]
  | @raw ts ops ts' h ih =>
    rw [length_append] at hroom ⊢
    rw [← singleton_append, run_append, run_singleton, Op.run, RLPStream.appendRaw,
      run_rest hroom payload_of_length_eq_zero fun s' => ih fun t ht => hfits t (mem_append_right _ ht),
      Tree.payload_append]

/-- The bytes of one item come out. -/
theorem output_of_writes {ops : List Op} (h : Writes ops [t]) (hfits : t.Fits) :
    (run ops {} >>= RLPStream.output) = .ok t.encode := by
  have hpayload : Tree.payload [t] = t.encode := by rw [Tree.payload_cons, Tree.payload_nil, append_nil]
  rw [run_of_writes h (fun t' ht' => mem_singleton.1 ht' ▸ hfits) (.inl rfl), hpayload]
  rfl

end Kmdx.Rlp
