import Kmdx.Rlp.Lists
import Kmdx.Rlp.Stream

/-!
# The fields of a list

Headers and transactions are lists of hashes and integers. A reader that asks for their items one by one computes
what it makes of the items (`Reads`), each of which is the one spelling of what it is read as; a writer that appends
them gives the list of them (`output_of_appends`), if that is short enough to be read (`isListOf_of_output`).
-/

namespace Kmdx.Rlp

open ExceptRules Wp List

variable {ε α β : Type} {d p : Bytes} {is xs : List Bytes} {k size : Nat}

/-! ### Conversions -/

/-- `toInt<u256>` -/
def toU256 (d : Bytes) : Except Exn U256 := return BitVec.ofNat 256 (← toInt d 32)

def toPositiveInt64 (d : Bytes) : Except Exn (BitVec 64) := do
  let i := BitVec.ofNat 64 (← toInt d 8)
  if i.toInt < 0 then throw .badCast else return i

abbrev FixedHash (size : Nat) := BitVec (8 * size)

/-- `toHash<FixedHash<size>>(VeryStrict)` -/
def toFixedHash (size : Nat) (d : Bytes) : Except Exn (FixedHash size) :=
  return BitVec.ofNat _ (BigEndian.ofBytes (← toHash d size veryStrict))

/-- The bytes of a `FixedHash`. -/
def hashBytes (size : Nat) (h : FixedHash size) : Bytes := BigEndian.toBytes size h.toNat

/-- What a type of `k` bytes holds is shorter than any limit. -/
theorem length_compact_le {n : Nat} (h : n < 256 ^ k) (hk : k ≤ 32) :
    (compact n).length < lengthLimit ∧ (compact n).length ≤ k := by
  have hle : (compact n).length ≤ k := length_compact_le_iff.2 h
  exact ⟨lt_lengthLimit (by omega), hle⟩

theorem toNat_lt_intLimit {w : Nat} (n : BitVec w) (hw : w ≤ 256) : n.toNat < 256 ^ intLimit := by
  have hlt : 2 ^ w ≤ 256 ^ 32 := (Nat.pow_le_pow_right (by decide) hw).trans (by norm_num)
  exact (n.isLt.trans_le hlt).trans_le (Nat.pow_le_pow_right (by decide) (by decide))

theorem nat_injective {m n : Nat} (hm : m < 256 ^ 32) (hn : n < 256 ^ 32) (h : nat m = nat n) : m = n := by
  have hm' := length_compact_le hm le_rfl
  have hn' := length_compact_le hn le_rfl
  have hread : toInt (nat n) 32 = .ok m := (toInt_eq_ok_iff (.data _ hn'.1)).2 ⟨h.symm, hm'⟩
  have hread' : toInt (nat n) 32 = .ok n := (toInt_eq_ok_iff (.data _ hn'.1)).2 ⟨rfl, hn'⟩
  rw [hread] at hread'
  exact Except.ok.inj hread'

theorem isItem_nat {n : Nat} (h : n < 256 ^ 32) : IsItem (nat n) := .data _ (length_compact_le h le_rfl).1

theorem toU256_eq_ok_iff {v : U256} (h : d = [] ∨ IsItem d) : toU256 d = .ok v ↔ d = nat v.toNat := by
  have hlt : v.toNat < 256 ^ 32 := v.isLt
  rcases h with rfl | h
  · exact ⟨nofun, fun hnil => absurd hnil.symm (isItem_nat hlt).ne_nil⟩
  constructor
  · intro hread
    obtain ⟨n, hn, hv⟩ := bind_eq_ok_iff.1 hread
    obtain ⟨hd, -, hlen⟩ := (toInt_eq_ok_iff h).1 hn
    have hn : n < 2 ^ 256 := length_compact_le_iff.1 hlen
    rw [← Except.ok.inj hv, BitVec.toNat_ofNat, Nat.mod_eq_of_lt hn]
    exact hd
  · intro hd
    rw [toU256, (toInt_eq_ok_iff h).2 ⟨hd, length_compact_le hlt le_rfl⟩, ok_bind, BitVec.ofNat_toNat]
    rfl

theorem toPositiveInt64_eq_ok_iff {v : BitVec 64} (h : d = [] ∨ IsItem d) :
    toPositiveInt64 d = .ok v ↔ d = nat v.toNat ∧ v.toNat < 2 ^ 63 := by
  have hlt : v.toNat < 256 ^ 8 := v.isLt
  rcases h with rfl | h
  · exact ⟨nofun, fun hnil => absurd hnil.1.symm (isItem_nat (hlt.trans (by decide))).ne_nil⟩
  constructor
  · intro hread
    obtain ⟨n, hn, hv⟩ := bind_eq_ok_iff.1 hread
    obtain ⟨hd, -, hlen⟩ := (toInt_eq_ok_iff h).1 hn
    have hn : n < 2 ^ 64 := length_compact_le_iff.1 hlen
    obtain ⟨hpos, hv⟩ := ite_error_eq_ok_iff.1 hv
    rw [BitVec.toInt_neg_iff] at hpos
    have hv : v.toNat = n := by rw [← Except.ok.inj hv, BitVec.toNat_ofNat, Nat.mod_eq_of_lt hn]
    rw [BitVec.toNat_ofNat, Nat.mod_eq_of_lt hn] at hpos
    rw [hv]
    exact ⟨hd, by omega⟩
  · rintro ⟨hd, hpos⟩
    rw [toPositiveInt64, (toInt_eq_ok_iff h).2 ⟨hd, length_compact_le hlt (by decide)⟩, ok_bind, BitVec.ofNat_toNat,
      BitVec.setWidth_eq, if_neg]
    · rfl
    · rw [BitVec.toInt_neg_iff]
      omega

theorem isItem_hash (hsize : size < lengthLimit) (v : FixedHash size) : IsItem (bytes (hashBytes size v)) :=
  .data _ (by rw [hashBytes, BigEndian.length_toBytes]; exact hsize)

theorem toFixedHash_eq_ok_iff {v : FixedHash size} (hsize : size < lengthLimit) (h : d = [] ∨ IsItem d) :
    toFixedHash size d = .ok v ↔ d = bytes (hashBytes size v) := by
  rcases h with rfl | h
  · exact ⟨nofun, fun hnil => absurd hnil.symm (isItem_hash hsize v).ne_nil⟩
  have hpow : 2 ^ (8 * size) = 256 ^ size := by rw [pow_mul]; norm_num
  constructor
  · intro hread
    obtain ⟨b, hb, hv⟩ := bind_eq_ok_iff.1 hread
    obtain ⟨hd, rfl⟩ := (toHash_eq_ok_iff hsize h).1 hb
    have hlt := BigEndian.ofBytes_lt b
    rw [← Except.ok.inj hv, hashBytes, BitVec.toNat_ofNat, hpow, Nat.mod_eq_of_lt hlt, BigEndian.toBytes_ofBytes]
    exact hd
  · intro hd
    have hread : toHash d size veryStrict = .ok (hashBytes size v) :=
      (toHash_eq_ok_iff hsize h).2 ⟨hd, BigEndian.length_toBytes size _⟩
    have hlt : v.toNat < 256 ^ size := hpow ▸ v.isLt
    rw [toFixedHash, hread, ok_bind, hashBytes, BigEndian.ofBytes_toBytes, Nat.mod_eq_of_lt hlt, BitVec.ofNat_toNat,
      BitVec.setWidth_eq]
    rfl

/-! ### Reading -/

/-- `x` computes `y` from a list with the items `is`, whatever has been asked for before. -/
def Reads (d : Bytes) (is : List Bytes) (x : EStateM ε RLP α) (y : Except ε α) : Prop :=
  ∀ r : RLP, r.data = d → Remembers r is →
    wp x (fun a r' => y = .ok a ∧ r'.data = d ∧ Remembers r' is) (fun e r' => y = .error e ∧ r'.data = d ∧ Remembers r' is) r

namespace Reads

theorem pure (a : α) : Reads (ε := ε) d is (Pure.pure a) (.ok a) := fun _ hdata h => ⟨rfl, hdata, h⟩

theorem bind {x : EStateM ε RLP α} {y : Except ε α} {f : α → EStateM ε RLP β} {g : α → Except ε β} (hx : Reads d is x y)
    (hf : ∀ a, Reads d is (f a) (g a)) : Reads d is (x >>= f) (y >>= g) := by
  intro r hdata h
  rw [wp_bind]
  refine wp_mono (hx r hdata h) ?_ ?_
  · rintro a r' ⟨rfl, hdata', h'⟩
    exact hf a r' hdata' h'
  · rintro e r' ⟨rfl, hdata', h'⟩
    exact ⟨rfl, hdata', h'⟩

/-- A line that returns. -/
theorem bind_ok {x : EStateM ε RLP α} {f : α → EStateM ε RLP β} {a : α} {y : Except ε β} (hx : Reads d is x (.ok a))
    (hf : Reads d is (f a) y) : Reads d is (x >>= f) y := by
  intro r hdata h
  rw [wp_bind]
  refine wp_mono (hx r hdata h) ?_ ?_
  · rintro a' r' ⟨heq, hdata', h'⟩
    cases heq
    exact hf r' hdata' h'
  · rintro e r' ⟨heq, -, -⟩
    cases heq

theorem lift (y : Except Exn α) : Reads d is (liftM y : M α) y := by
  intro r hdata h
  cases y <;> exact ⟨rfl, hdata, h⟩

theorem item (hpayload : payload d = .ok p) (hsplits : Splits p is) (hlen : is.length < 2 ^ 64 - 1) (k : Nat) :
    Reads d is (item k) (.ok (RLP.of (is.getD k []))) := by
  rintro r rfl h
  refine wp_mono (wp_item hpayload hsplits hlen h k) ?_ fun _ _ => False.elim
  rintro _ r' ⟨rfl, hdata, h'⟩
  exact ⟨rfl, hdata, h'⟩

theorem mapM {x : α → EStateM ε RLP β} {y : α → Except ε β} (h : ∀ a, Reads d is (x a) (y a)) (as : List α) :
    Reads d is (as.mapM x) (as.mapM y) := by
  induction as with
  | nil => exact pure []
  | cons a as ih =>
    rw [mapM_cons, mapM_cons]
    exact (h a).bind fun b => ih.bind fun bs => pure (b :: bs)

theorem eval {x : EStateM ε RLP α} {y : Except ε α} (h : Reads d is x y) : eval x (RLP.of d) = y := by
  have hwp := h (RLP.of d) rfl (remembers_of d is)
  rw [Wp.eval]
  cases hx : x (RLP.of d) with
  | ok a r => exact (wp_ok hwp hx).1.symm
  | error e r => exact (wp_error hwp hx).1.symm

end Reads

theorem take_eq_map_getD {is : List Bytes} {n : Nat} (h : n ≤ is.length) :
    is.take n = (List.range n).map fun k => is.getD k [] := by
  refine ext_getElem (by simpa using h) fun k hk hk' => ?_
  rw [length_take] at hk
  rw [getElem_take, getElem_map, getElem_range, getD_eq_getElem _ _ (by omega)]

/-! ### A list with something behind it -/

theorem begins_list (hlen : xs.flatten.length < lengthLimit) (rest : Bytes) :
    Begins (head 0xc0 xs.flatten.length) (xs.flatten ++ rest) xs.flatten.length := .list _ _ hlen

theorem payload_list_append (hlen : xs.flatten.length < lengthLimit) (rest : Bytes) :
    payload (list xs ++ rest) = .ok xs.flatten := by
  rw [list, append_assoc, (begins_list hlen rest).payload (by simp), take_append_of_le_length le_rfl, take_length]

/-- The constructor that allows for more bytes -/
theorem mk'_list_append (hlen : xs.flatten.length < lengthLimit) (rest : Bytes) :
    RLP.mk' (list xs ++ rest) { throwOnFail := true, failIfTooSmall := true } = .ok (RLP.of (list xs ++ rest)) := by
  have hsize : ¬(head 0xc0 xs.flatten.length).length + xs.flatten.length > (list xs ++ rest).length := by
    simp only [list, length_append]
    omega
  rw [RLP.mk', checkSize_tooSmall]
  rw [show list xs ++ rest = head 0xc0 xs.flatten.length ++ (xs.flatten ++ rest) from append_assoc _ _ _] at hsize ⊢
  rw [(begins_list hlen rest).actualSize, ok_bind, if_neg hsize, ok_bind]
  rfl

/-! ### What is looked at stays -/

/-- Items can be asked for in anything, and it is looked at as before. -/
def KeepsData (x : EStateM ε RLP α) : Prop :=
  ∀ r, wp x (fun _ r' => r'.data = r.data) (fun _ r' => r'.data = r.data) r

namespace KeepsData

theorem pure (a : α) : KeepsData (ε := ε) (Pure.pure a) := fun _ => rfl

theorem bind {x : EStateM ε RLP α} {f : α → EStateM ε RLP β} (hx : KeepsData x) (hf : ∀ a, KeepsData (f a)) :
    KeepsData (x >>= f) := by
  intro r
  rw [wp_bind]
  refine wp_mono (hx r) (fun a r' hr' => ?_) fun _ _ => id
  rw [← hr']
  exact hf a r'

theorem lift (y : Except Exn α) : KeepsData (liftM y : M α) := by
  intro r
  cases y <;> exact rfl

theorem seek (k : Nat) : KeepsData (seek k) := by
  induction k with
  | zero => exact pure ()
  | succ k ih =>
    intro r
    rw [Rlp.seek, wp_bind, wp_get, wp_ite]
    split
    · exact rfl
    · rw [wp_bind]
      refine wp_mono (lift (payload r.data) r) (fun p r₁ h₁ => ?_) fun _ _ => id
      rw [wp_bind, wp_set, wp_bind]
      refine wp_mono (lift (sizeAsEncoded (p.drop r.lastEnd)) _) (fun n r₂ h₂ => ?_) fun _ _ => id
      rw [wp_bind, wp_set]
      exact ih _

theorem restart (i : Nat) : KeepsData (restart i) := by
  intro r
  rw [Rlp.restart, wp_bind, wp_get, wp_ite]
  split
  · rw [wp_bind]
    refine wp_mono (lift (payload r.data) r) (fun p r₁ h₁ => ?_) fun _ _ => id
    rw [wp_bind]
    refine wp_mono (lift (sizeAsEncoded p) r₁) (fun n r₂ h₂ => ?_) fun _ _ h => h.trans h₁
    exact rfl
  · exact rfl

theorem get : KeepsData (MonadState.get : M RLP) := fun _ => rfl

theorem item (k : Nat) : KeepsData (item k) :=
  (restart k).bind fun _ => get.bind fun _ => (seek _).bind fun _ => get.bind fun _ => lift _

end KeepsData

/-! ### Writing -/

/-- Each of the operations appends one item, which is given as its bytes. -/
def Appends (ops : List Op) (xs : List Bytes) : Prop :=
  List.Forall₂ (fun op x => ∀ s : RLPStream, op.run s = (s.push x).noteAppended) ops xs

theorem appends_bytes {b : Bytes} (h : b.length < 2 ^ 64) (s : RLPStream) :
    (Op.append b false).run s = (s.push (bytes b)).noteAppended := append_eq h

theorem appends_nat {n : Nat} (h : n < 256 ^ 32) (s : RLPStream) : (Op.appendInt n).run s = (s.push (nat n)).noteAppended :=
  appendInt_eq (h.trans_le (Nat.pow_le_pow_right (by decide) (by decide)))

theorem appends_hash (hsize : size < lengthLimit) (v : FixedHash size) (s : RLPStream) :
    (Op.append (hashBytes size v) false).run s = (s.push (bytes (hashBytes size v))).noteAppended :=
  append_eq (by
    change (BigEndian.toBytes size v.toNat).length < 2 ^ 64
    rw [BigEndian.length_toBytes]
    exact hsize.trans lengthLimit_lt)

theorem appends_raw (x : Bytes) (s : RLPStream) : (Op.appendRaw x 1).run s = (s.push x).noteAppended := rfl

variable {ops : List Op}

theorem run_of_appends {s : RLPStream} (h : Appends ops xs) (hroom : Room s xs.length) :
    run ops s = (s.push xs.flatten).noteAppended xs.length := by
  induction h generalizing s with
  | nil => simp [run, RLPStream.push, RLPStream.noteAppended]
  | @cons op x ops xs hop _ ih =>
    rw [List.length_cons, Nat.add_comm] at hroom ⊢
    rw [← List.singleton_append, run_append, run_singleton, hop, List.flatten_cons]
    refine run_rest hroom (fun h0 => ?_) fun s' hroom' => ih hroom'
    rw [length_eq_zero_iff.1 h0, flatten_nil]

/-- A list is given its head, whatever that is for so many bytes. -/
theorem output_eq (h : Appends ops xs) (hxs : xs ≠ []) :
    (run (.appendList xs.length :: ops) {} >>= RLPStream.output) =
      listHead xs.flatten.length >>= fun hd => .ok (hd ++ xs.flatten) := by
  have hne : xs.length ≠ 0 := fun h0 => hxs (length_eq_zero_iff.1 h0)
  have hroom : Room { listStack := [(xs.length, 0)] } xs.length := .inr ⟨_, _, _, rfl, le_rfl⟩
  rw [← List.singleton_append, run_append, run_singleton, Op.run, RLPStream.appendList, if_pos hne, pure_eq, ok_bind]
  change (run ops { listStack := [(xs.length, 0)] } >>= RLPStream.output) = _
  rw [run_of_appends h hroom, RLPStream.noteAppended, if_neg hne]
  change (close [(xs.length, 0)] ([] ++ xs.flatten) xs.length >>= _) = _
  rw [close, if_neg (lt_irrefl _), if_neg (by simp), nil_append, Nat.sub_zero]
  cases listHead xs.flatten.length with
  | ok hd => simp [close, RLPStream.output]
  | error e => rfl

theorem output_of_appends (h : Appends ops xs) (hxs : xs ≠ []) (hlen : xs.flatten.length < lengthLimit) :
    (run (.appendList xs.length :: ops) {} >>= RLPStream.output) = .ok (list xs) := by
  rw [output_eq h hxs, listHead_eq hlen, ok_bind]
  rfl

theorem length_head_le {off len : Nat} (h : len < 2 ^ 64) : (head off len).length ≤ 9 := by
  have hle : (compact len).length ≤ 8 := length_compact_le_iff.2 h
  rw [head]
  split
  · exact Nat.succ_le_succ (Nat.zero_le 8)
  · exact Nat.succ_le_succ hle

theorem Begins.length_head_le {hd rest : Bytes} {len : Nat} (h : Begins hd rest len) (hlen : len < 2 ^ 64) :
    hd.length ≤ 9 := by
  cases h with
  | single x rest hx => exact Nat.zero_le 9
  | string len rest _ _ => exact Rlp.length_head_le hlen
  | list len rest _ => exact Rlp.length_head_le hlen

theorem length_bytes_le_add {b : Bytes} (h : b.length < lengthLimit) : (bytes b).length ≤ b.length + 9 := by
  obtain ⟨hd, heq, hbegins⟩ := begins_bytes b h
  have hhead := hbegins.length_head_le (h.trans lengthLimit_lt)
  rw [heq, length_append]
  omega

theorem IsItem.length_lt (h : IsItem d) : d.length < lengthLimit + 9 := by
  cases h with
  | data b hb =>
    obtain ⟨hd, heq, hbegins⟩ := begins_bytes b hb
    have hhead := hbegins.length_head_le (hb.trans lengthLimit_lt)
    rw [heq, length_append]
    omega
  | list p hp =>
    have hhead : (head 0xc0 p.length).length ≤ 9 := length_head_le (hp.trans lengthLimit_lt)
    rw [length_append]
    omega

/-- A list that is too long does not look like an item. -/
theorem lt_of_listHead {hd : Bytes} (h : listHead p.length = .ok hd) (hitem : IsItem (hd ++ p)) : p.length < lengthLimit := by
  by_contra hge
  rw [not_lt] at hge
  have hlong : 56 ≤ p.length := hge.trans' (by decide)
  have hlt := hitem.length_lt
  rw [length_append] at hlt
  have hle : (compact p.length).length ≤ 8 := length_compact_le_iff.2 (by
    have : lengthLimit + 9 < 256 ^ 8 := by decide
    omega)
  have hpos : 0 < (compact p.length).length := length_pos_iff.2 fun hnil => by
    have hzero := ofBytes_compact p.length
    rw [hnil] at hzero
    change 0 = p.length at hzero
    omega
  have hbrs : bytesRequired p.length = (compact p.length).length := bytesRequired_eq (by omega)
  have hx : (UInt8.ofNat (0xc0 + 55 + (compact p.length).length)).toNat = 0xc0 + 55 + (compact p.length).length :=
    toNat_ofNat_of_lt (by omega)
  simp only [listHead, hbrs, if_neg (not_lt.2 hlong)] at h
  rw [if_pos (by omega)] at h
  cases h
  have hlist : isList (UInt8.ofNat (0xf7 + (compact p.length).length) :: compact p.length ++ p) = true := by
    rw [cons_append, isList_cons, hx]
    simp only [decide_eq_true_eq]
    omega
  obtain ⟨q, hq⟩ := exists_of_isList hitem hlist
  have heq := hq.eq
  by_cases hshort : q.length < 56
  · rw [head_of_lt hshort, cons_append, List.singleton_append, List.cons.injEq, eq_iff_toNat, hx,
      toNat_ofNat_of_lt (by omega)] at heq
    omega
  · obtain ⟨hqpos, hqle⟩ := compact_length (not_lt.1 hshort) (hq.lt.trans lengthLimit_lt)
    rw [head_of_le (not_lt.1 hshort), cons_append, cons_append, List.cons.injEq, eq_iff_toNat, hx,
      toNat_ofNat_of_lt (by omega)] at heq
    have hcompact := append_inj_left heq.2 (by omega)
    have hlen : p.length = q.length := by rw [← ofBytes_compact p.length, hcompact, ofBytes_compact]
    exact absurd (hlen ▸ hq.lt) (not_lt.2 hge)

/-! ### Nothing gets lost -/

theorem length_le_of_close {listStack : List (Nat × Nat)} {out : Bytes} {n : Nat} {s : RLPStream}
    (h : close listStack out n = .ok s) : out.length ≤ s.out.length := by
  induction listStack generalizing out n with
  | nil =>
    cases h
    exact le_rfl
  | cons top listStack ih =>
    rw [close] at h
    split at h
    · cases h
    split at h
    · cases h
      exact le_rfl
    · obtain ⟨hd, -, h⟩ := bind_eq_ok_iff.1 h
      have hle := ih h
      have hsplit := congrArg List.length (take_append_drop top.2 out)
      simp only [length_append] at hle hsplit
      omega

section

variable {s s' : RLPStream}

theorem length_le_of_noteAppended {n : Nat} (h : s.noteAppended n = .ok s') : s.out.length ≤ s'.out.length := by
  rw [RLPStream.noteAppended] at h
  split at h
  · cases h
    exact le_rfl
  · exact length_le_of_close h

theorem length_le_of_pushInt {i br : Nat} (h : s.pushInt i br = .ok s') : s.out.length ≤ s'.out.length := by
  rw [RLPStream.pushInt] at h
  split at h
  · cases h
    simp [RLPStream.push]
  · cases h

theorem length_le_of_pushSize {size start indZero : Nat} (h : s.pushSize size start indZero = .ok s') :
    s.out.length ≤ s'.out.length := by
  rw [RLPStream.pushSize] at h
  split at h
  · cases h
    simp [RLPStream.push]
  · rw [RLPStream.pushCount] at h
    split at h
    · cases h
    · have hle := length_le_of_pushInt h
      rw [RLPStream.push, length_append] at hle
      exact (Nat.le_add_right _ _).trans hle

theorem length_le_of_append {b : Bytes} (h : s.append b = .ok s') : s.out.length + b.length ≤ s'.out.length := by
  obtain ⟨s₁, hpush, hnote⟩ := bind_eq_ok_iff.1 h
  have hle := length_le_of_noteAppended hnote
  refine le_trans ?_ hle
  change s.pushData b = .ok s₁ at hpush
  rw [RLPStream.pushData] at hpush
  split at hpush
  · cases hpush
    simp [RLPStream.push]
  · obtain ⟨s₂, hsize, happend⟩ := bind_eq_ok_iff.1 hpush
    have hle₂ := length_le_of_pushSize hsize
    cases happend
    simp only [RLPStream.push, length_append]
    omega

theorem length_le_of_pushBigint {i : Nat} (h : s.pushBigint i = .ok s') : s.out.length ≤ s'.out.length := by
  have hpush : ∀ x, s.out.length ≤ (s.push [x]).out.length := fun x => by simp [RLPStream.push]
  unfold RLPStream.pushBigint at h
  split at h
  · cases h
    exact hpush _
  split at h
  · cases h
    exact hpush _
  · obtain ⟨s₁, hrequired, hint⟩ := bind_eq_ok_iff.1 h
    refine le_trans ?_ (length_le_of_pushInt hint)
    simp only [RLPStream.pushRequired] at hrequired
    split at hrequired
    · cases hrequired
      exact hpush _
    split at hrequired
    · cases hrequired
    · exact (hpush _).trans (length_le_of_pushInt hrequired)

theorem length_le_of_op {op : Op} (h : op.run s = .ok s') : s.out.length ≤ s'.out.length := by
  have hraw : ∀ {s s' : RLPStream} {x : Bytes} {n : Nat}, s.appendRaw x n = .ok s' → s.out.length ≤ s'.out.length := by
    intro s s' x n h
    have hle := length_le_of_noteAppended h
    rw [RLPStream.push, length_append] at hle
    omega
  have hlistOf : ∀ {s s' : RLPStream} {x : Bytes}, s.appendListOf x = .ok s' → s.out.length ≤ s'.out.length := by
    intro s s' x h
    obtain ⟨s₁, hsize, happend⟩ := bind_eq_ok_iff.1 h
    exact (length_le_of_pushSize hsize).trans (hraw happend)
  cases op with
  | append b compact =>
    rw [Op.run, RLPStream.append] at h
    cases compact with
    | false => exact (Nat.le_add_right _ _).trans (length_le_of_append (b := b) h)
    | true => exact (Nat.le_add_right _ _).trans (length_le_of_append (b := b.dropWhile (· = 0)) h)
  | appendInt i =>
    obtain ⟨s₁, hpush, hnote⟩ := bind_eq_ok_iff.1 h
    exact (length_le_of_pushBigint hpush).trans (length_le_of_noteAppended hnote)
  | appendList items =>
    rw [Op.run, RLPStream.appendList] at h
    split at h
    · cases h
      exact le_rfl
    · exact hlistOf h
  | appendListOf rlp => exact hlistOf h
  | appendRaw rlp itemCount => exact hraw h

theorem length_le_of_run (h : run ops s = .ok s') : s.out.length ≤ s'.out.length := by
  induction ops generalizing s with
  | nil =>
    cases h
    exact le_rfl
  | cons op ops ih =>
    rw [run, foldlM_cons] at h
    obtain ⟨s₁, hop, hrest⟩ := bind_eq_ok_iff.1 h
    exact (length_le_of_op hop).trans (ih hrest)

/-- A string that is too long makes all that comes out too long. -/
theorem length_le_of_mem {b : Bytes} (h : run ops s = .ok s')
    (hmem : .append b false ∈ ops) : b.length ≤ s'.out.length := by
  obtain ⟨before, after, rfl⟩ := append_of_mem hmem
  rw [run_append] at h
  obtain ⟨s₁, -, h⟩ := bind_eq_ok_iff.1 h
  rw [run, foldlM_cons] at h
  obtain ⟨s₂, hop, hrest⟩ := bind_eq_ok_iff.1 h
  have hle := length_le_of_append (b := b) hop
  have hle' := length_le_of_run hrest
  omega

end

theorem lt_of_output {b : Bytes} (hmem : .append b false ∈ ops) (hitem : IsItem d)
    (h : (run ops {} >>= RLPStream.output) = .ok d) : b.length < 2 ^ 64 := by
  obtain ⟨s, hrun, hout⟩ := bind_eq_ok_iff.1 h
  rw [RLPStream.output] at hout
  split at hout
  · cases hout
  · cases hout
    have hlimit : lengthLimit + 9 < 2 ^ 64 := by decide
    exact ((length_le_of_mem hrun hmem).trans_lt hitem.length_lt).trans hlimit

/-- What comes out as an item is the list. -/
theorem isListOf_of_output (h : Appends ops xs) (hxs : xs ≠ []) (hitem : IsItem d)
    (hout : (run (.appendList xs.length :: ops) {} >>= RLPStream.output) = .ok d) : IsListOf d xs.flatten := by
  rw [output_eq h hxs] at hout
  obtain ⟨hd, hhead, hout⟩ := bind_eq_ok_iff.1 hout
  cases hout
  have hlt := lt_of_listHead hhead hitem
  rw [listHead_eq hlt] at hhead
  cases hhead
  exact ⟨rfl, hlt⟩

end Kmdx.Rlp
