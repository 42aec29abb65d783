import Kmdx.Rlp.Fields

/-!
# Block headers (`libwingcore/BlockHeader.h`, `BlockHeader.cpp`)

A header is a list of thirteen fields and what the seal engine adds to them. The number and the timestamp are
`int64_t`, which `RLPStream` has no `append` for but the one of `unsigned`: it takes their last 32 bits. So headers
survive encoding if both are small (`survives_encoding`).
-/

namespace Kmdx.Rlp

open ExceptRules Wp List

inductive HeaderException
  /-- As it is thrown by the reader. -/
  | rlp (e : Exn)
  /-- `InvalidBlockFormat`, with the bad field and its bytes -/
  | invalidBlockFormat (comment : String) (field : Nat) (value : Bytes)
  /-- "invalid block header format", with the bad field and its bytes -/
  | badField (e : Exn) (field : Nat) (value : Bytes)

inductive BlockDataType
  | headerData
  | blockData

inductive IncludeSeal
  | withoutSeal
  | withSeal
  | onlySeal
deriving DecidableEq

structure BlockHeader where
  parentHash : FixedHash 32 := 0
  sha3Uncles : FixedHash 32 := 0
  stateRoot : FixedHash 32 := 0
  transactionsRoot : FixedHash 32 := 0
  receiptsRoot : FixedHash 32 := 0
  logBloom : FixedHash 256 := 0
  number : BitVec 64 := 0
  gasLimit : U256 := 0
  gasUsed : U256 := 0
  extraData : Bytes := []
  timestamp : BitVec 64 := -1
  author : FixedHash 20 := 0
  difficulty : U256 := 0
  /-- `m_seal`: additional header fields, each of them RLP already -/
  sealFields : List Bytes := []
  /-- `m_hash`, `m_hashWithout`: the memos -/
  hashRaw : FixedHash 32 := 0
  hashWithoutRaw : FixedHash 32 := 0
deriving DecidableEq

namespace BlockHeader

variable (sha3 : Bytes → FixedHash 32)

/-! ### Reading -/

/-- A line of `populate`, with what the handler adds to an exception: the field, and what is read when it is asked for again.
-/
def field {α : Type} (k : Nat) (x : M α) : EStateM HeaderException RLP α := fun r =>
  match x r with
  | .ok a r => .ok a r
  | .error e r =>
    match item k r with
    | .ok i r => .error (.badField e k i.data) r
    | .error e r => .error (.rlp e) r

/-- The loop at the end of `populate`. Its index is `unsigned`. -/
def populateSeal : M (List Bytes) := do
  let n ← itemCount (← get).data
  if 2 ^ 32 ≤ n then throw .diverges
  else (List.range' 13 (n - 13)).mapM fun i => return (← item i).data

def populate : EStateM HeaderException RLP BlockHeader := do
  let parentHash ← field 0 do toFixedHash 32 (← item 0).data
  let sha3Uncles ← field 1 do toFixedHash 32 (← item 1).data
  let author ← field 2 do toFixedHash 20 (← item 2).data
  let stateRoot ← field 3 do toFixedHash 32 (← item 3).data
  let transactionsRoot ← field 4 do toFixedHash 32 (← item 4).data
  let receiptsRoot ← field 5 do toFixedHash 32 (← item 5).data
  let logBloom ← field 6 do toFixedHash 256 (← item 6).data
  let difficulty ← field 7 do toU256 (← item 7).data
  let number ← field 8 do toPositiveInt64 (← item 8).data
  let gasLimit ← field 9 do toU256 (← item 9).data
  let gasUsed ← field 10 do toU256 (← item 10).data
  let timestamp ← field 11 do toPositiveInt64 (← item 11).data
  let extraData ← field 12 do toBytes (← item 12).data
  let sealFields ← field 12 populateSeal
  return { parentHash, sha3Uncles, author, stateRoot, transactionsRoot, receiptsRoot, logBloom, difficulty, number, gasLimit,
           gasUsed, timestamp, extraData, sealFields }

/-- What the reader throws goes on as it is. -/
def rlp {α : Type} (x : M α) : EStateM HeaderException RLP α := fun r =>
  match x r with
  | .ok a r => .ok a r
  | .error e r => .error (.rlp e) r

/-- A part of a block that must be a list. -/
def requireList (comment : String) (k : Nat) (d : Bytes) : EStateM HeaderException RLP Unit :=
  if isList d then return else throw (.invalidBlockFormat comment k d)

def extractHeader (block : Bytes) : Except HeaderException RLP := do
  let root ← (RLP.mk' block).mapError .rlp
  eval (do
    requireList "Block must be a list" 0 block
    let header ← rlp (item 0)
    requireList "Block header must be a list" 0 header.data
    requireList "Block transactions must be a list" 1 (← rlp (item 1)).data
    requireList "Block uncles must be a list" 2 (← rlp (item 2)).data
    return header) root

/-- `BlockHeader(bytesConstRef, BlockDataType, h256)` -/
def mk' (block : Bytes) (bdt : BlockDataType) (hashWith : FixedHash 32 := 0) : Except HeaderException BlockHeader := do
  let header ← match bdt with
    | .blockData => extractHeader block
    | .headerData => (RLP.mk' block).mapError .rlp
  let h ← eval populate header
  return { h with hashRaw := if hashWith ≠ 0 then hashWith else sha3 header.data }

/-! ### Writing -/

variable (h : BlockHeader)

/-- `append(unsigned)` of an `int64_t` -/
def toUnsigned (n : BitVec 64) : Nat := n.toNat % 2 ^ 32

def streamRLPFields : List Op :=
  [.append (hashBytes 32 h.parentHash) false, .append (hashBytes 32 h.sha3Uncles) false,
    .append (hashBytes 20 h.author) false, .append (hashBytes 32 h.stateRoot) false,
    .append (hashBytes 32 h.transactionsRoot) false, .append (hashBytes 32 h.receiptsRoot) false,
    .append (hashBytes 256 h.logBloom) false, .appendInt h.difficulty.toNat, .appendInt (toUnsigned h.number),
    .appendInt h.gasLimit.toNat, .appendInt h.gasUsed.toNat, .appendInt (toUnsigned h.timestamp),
    .append h.extraData false]

/-- The fields of the seal, whose index is `unsigned`. -/
def streamRLPSeal (s : RLPStream) : Except Exn RLPStream :=
  if 2 ^ 32 ≤ h.sealFields.length then throw .diverges else run (h.sealFields.map fun x => .appendRaw x 1) s

def basicFields : Nat := 13

def streamRLP (s : RLPStream) : IncludeSeal → Except Exn RLPStream
  | .withoutSeal => run (.appendList basicFields :: h.streamRLPFields) s
  | .withSeal => do h.streamRLPSeal (← run (.appendList (basicFields + h.sealFields.length) :: h.streamRLPFields) s)
  | .onlySeal => h.streamRLPSeal s

/-- The bytes that the header is encoded as. -/
def out (i : IncludeSeal) : Except Exn Bytes := do (← h.streamRLP {} i).output

def noteDirty : BlockHeader := { h with hashRaw := 0, hashWithoutRaw := 0 }

/-- `hash`, and the header with its memo. -/
def hash : IncludeSeal → Except Exn (FixedHash 32 × BlockHeader)
  | .withSeal =>
    if h.hashRaw = 0 then do
      let memo := sha3 (← h.out .withSeal)
      return (memo, { h with hashRaw := memo })
    else return (h.hashRaw, h)
  | .withoutSeal =>
    if h.hashWithoutRaw = 0 then do
      let memo := sha3 (← h.out .withoutSeal)
      return (memo, { h with hashWithoutRaw := memo })
    else return (h.hashWithoutRaw, h)
  | .onlySeal => return (sha3 (← h.out .onlySeal), h)

/-- `operator==` -/
def beq (h cmp : BlockHeader) : Bool :=
  h.parentHash = cmp.parentHash ∧ h.sha3Uncles = cmp.sha3Uncles ∧ h.author = cmp.author ∧ h.stateRoot = cmp.stateRoot ∧
    h.transactionsRoot = cmp.transactionsRoot ∧ h.receiptsRoot = cmp.receiptsRoot ∧ h.logBloom = cmp.logBloom ∧
    h.difficulty = cmp.difficulty ∧ h.number = cmp.number ∧ h.gasLimit = cmp.gasLimit ∧ h.gasUsed = cmp.gasUsed ∧
    h.timestamp = cmp.timestamp ∧ h.extraData = cmp.extraData

variable {sha3 h} {d p : Bytes} {is : List Bytes} {k : Nat} {α : Type}

/-! ### The items of a header -/

/-- The items of the fields up to the timestamp. -/
def basicItems (h : BlockHeader) (number timestamp : Nat) : List Bytes :=
  [bytes (hashBytes 32 h.parentHash), bytes (hashBytes 32 h.sha3Uncles), bytes (hashBytes 20 h.author),
    bytes (hashBytes 32 h.stateRoot), bytes (hashBytes 32 h.transactionsRoot), bytes (hashBytes 32 h.receiptsRoot),
    bytes (hashBytes 256 h.logBloom), nat h.difficulty.toNat, nat number, nat h.gasLimit.toNat, nat h.gasUsed.toNat,
    nat timestamp]

/-- What is written. -/
def items (h : BlockHeader) : List Bytes :=
  h.basicItems (toUnsigned h.number) (toUnsigned h.timestamp) ++ bytes h.extraData :: h.sealFields

/-- What is read: the list has a header's items, and anything for the extra data. -/
structure Spells (is : List Bytes) (h : BlockHeader) : Prop where
  basic : is.take 12 = h.basicItems h.number.toNat h.timestamp.toNat
  number : h.number.toNat < 2 ^ 63
  timestamp : h.timestamp.toNat < 2 ^ 63
  extraData : toBytes (is.getD 12 []) = .ok h.extraData
  sealFields : is.length < 2 ^ 32 ∧ h.sealFields = is.drop 13
  memos : h.hashRaw = 0 ∧ h.hashWithoutRaw = 0

theorem isItem_basicItems {number timestamp : Nat} (hnumber : number < 256 ^ 32) (htimestamp : timestamp < 256 ^ 32) :
    ∀ i ∈ h.basicItems number timestamp, IsItem i := by
  have h32 : ∀ v : FixedHash 32, IsItem (bytes (hashBytes 32 v)) := isItem_hash (by decide)
  have h20 : ∀ v : FixedHash 20, IsItem (bytes (hashBytes 20 v)) := isItem_hash (by decide)
  have h256 : ∀ v : FixedHash 256, IsItem (bytes (hashBytes 256 v)) := isItem_hash (by decide)
  have hint : ∀ v : U256, IsItem (nat v.toNat) := fun v => isItem_nat v.isLt
  simp only [basicItems, forall_mem_cons, not_mem_nil, false_implies, implies_true, and_true]
  exact ⟨h32 _, h32 _, h20 _, h32 _, h32 _, h32 _, h256 _, hint _, isItem_nat hnumber, hint _, hint _, isItem_nat htimestamp⟩

theorem toUnsigned_lt (n : BitVec 64) : toUnsigned n < 256 ^ 32 := (Nat.mod_lt _ (by decide)).trans (by decide)

/-! ### Reading the items -/

/-- A field that is read of items. -/
def fieldOf (is : List Bytes) (k : Nat) (y : Except Exn α) : Except HeaderException α :=
  y.mapError fun e => .badField e k (is.getD k [])

theorem fieldOf_eq_ok_iff {y : Except Exn α} {a : α} : fieldOf is k y = .ok a ↔ y = .ok a := by
  cases y <;> simp [fieldOf, Except.mapError]

/-- `populate`, on the items. -/
def populateOf (is : List Bytes) : Except HeaderException BlockHeader := do
  let parentHash ← fieldOf is 0 (toFixedHash 32 (is.getD 0 []))
  let sha3Uncles ← fieldOf is 1 (toFixedHash 32 (is.getD 1 []))
  let author ← fieldOf is 2 (toFixedHash 20 (is.getD 2 []))
  let stateRoot ← fieldOf is 3 (toFixedHash 32 (is.getD 3 []))
  let transactionsRoot ← fieldOf is 4 (toFixedHash 32 (is.getD 4 []))
  let receiptsRoot ← fieldOf is 5 (toFixedHash 32 (is.getD 5 []))
  let logBloom ← fieldOf is 6 (toFixedHash 256 (is.getD 6 []))
  let difficulty ← fieldOf is 7 (toU256 (is.getD 7 []))
  let number ← fieldOf is 8 (toPositiveInt64 (is.getD 8 []))
  let gasLimit ← fieldOf is 9 (toU256 (is.getD 9 []))
  let gasUsed ← fieldOf is 10 (toU256 (is.getD 10 []))
  let timestamp ← fieldOf is 11 (toPositiveInt64 (is.getD 11 []))
  let extraData ← fieldOf is 12 (toBytes (is.getD 12 []))
  let sealFields ← fieldOf is 12 (if 2 ^ 32 ≤ is.length then .error .diverges else .ok (is.drop 13))
  return { parentHash, sha3Uncles, author, stateRoot, transactionsRoot, receiptsRoot, logBloom, difficulty, number, gasLimit,
           gasUsed, timestamp, extraData, sealFields }

theorem reads_field (hlist : IsListOf d p) (hsplits : Splits p is) {x : M α} {y : Except Exn α} (h : Reads d is x y) :
    Reads d is (field k x) (fieldOf is k y) := by
  intro r hdata hremembers
  have hx := h r hdata hremembers
  rw [wp, field]
  cases hr : x r with
  | ok a r' =>
    obtain ⟨rfl, hr'⟩ := wp_ok hx hr
    exact ⟨rfl, hr'⟩
  | error e r' =>
    obtain ⟨rfl, hdata', hremembers'⟩ := wp_error hx hr
    have hitem := Reads.item hlist.payload hsplits (hlist.length_lt hsplits) k r' hdata' hremembers'
    cases hr'' : item k r' with
    | ok i r'' =>
      obtain ⟨hi, hr'⟩ := wp_ok hitem hr''
      cases hi
      dsimp only
      rw [hr'']
      exact ⟨rfl, hr'⟩
    | error e' r'' => exact absurd (wp_error hitem hr'').1 nofun

theorem map_getD_range' (is : List Bytes) (k : Nat) :
    (List.range' k (is.length - k)).map (fun i => is.getD i []) = is.drop k := by
  refine ext_getElem (by simp) fun i hi hi' => ?_
  rw [length_drop] at hi'
  rw [getElem_map, getElem_range', getElem_drop, getD_eq_getElem _ _ (by omega)]
  simp

theorem reads_populateSeal (hlist : IsListOf d p) (hsplits : Splits p is) :
    Reads d is populateSeal (if 2 ^ 32 ≤ is.length then .error .diverges else .ok (is.drop 13)) := by
  have hitems : Reads d is ((List.range' 13 (is.length - 13)).mapM fun i => do return (← item i).data)
      (.ok (is.drop 13)) := by
    have hread := Reads.mapM (y := fun i => .ok (is.getD i [])) (fun i =>
      (Reads.item hlist.payload hsplits (hlist.length_lt hsplits) i).bind fun i => Reads.pure i.data)
      (List.range' 13 (is.length - 13))
    have hmap := mapM_pure (m := Except Exn) (l := List.range' 13 (is.length - 13)) (f := fun i => is.getD i [])
    rw [map_getD_range'] at hmap
    rw [← pure_eq, ← hmap]
    exact hread
  rintro r rfl h
  rw [populateSeal, wp_bind, wp_get, wp_bind]
  refine wp_liftM (hlist.itemCount hsplits) ?_
  rw [wp_ite]
  split
  · exact ⟨rfl, rfl, h⟩
  · exact hitems r rfl h

theorem reads_populate (hlist : IsListOf d p) (hsplits : Splits p is) : Reads d is populate (populateOf is) := by
  have hfield : ∀ {α : Type} (k : Nat) (f : Bytes → Except Exn α),
      Reads d is (field k (do f (← item k).data)) (fieldOf is k (f (is.getD k []))) := fun k f =>
    reads_field hlist hsplits
      ((Reads.item hlist.payload hsplits (hlist.length_lt hsplits) k).bind fun i => Reads.lift (f i.data))
  unfold populate populateOf
  refine (hfield 0 _).bind fun parentHash => ?_
  refine (hfield 1 _).bind fun sha3Uncles => ?_
  refine (hfield 2 _).bind fun author => ?_
  refine (hfield 3 _).bind fun stateRoot => ?_
  refine (hfield 4 _).bind fun transactionsRoot => ?_
  refine (hfield 5 _).bind fun receiptsRoot => ?_
  refine (hfield 6 _).bind fun logBloom => ?_
  refine (hfield 7 _).bind fun difficulty => ?_
  refine (hfield 8 _).bind fun number => ?_
  refine (hfield 9 _).bind fun gasLimit => ?_
  refine (hfield 10 _).bind fun gasUsed => ?_
  refine (hfield 11 _).bind fun timestamp => ?_
  refine (hfield 12 fun d => toBytes d).bind fun extraData => ?_
  exact (reads_field hlist hsplits (reads_populateSeal hlist hsplits)).bind fun sealFields => Reads.pure _

theorem Spells.length_le (hspells : Spells is h) : 12 ≤ is.length := by
  have hlen := congrArg List.length hspells.basic
  rw [length_take] at hlen
  exact min_eq_left_iff.1 hlen

/-- Nothing is accepted but a header's items. -/
theorem populateOf_eq_ok_iff (hsplits : Splits p is) : populateOf is = .ok h ↔ Spells is h := by
  have hitem : ∀ k, is.getD k [] = [] ∨ IsItem (is.getD k []) := fun k => (hsplits.getD k).imp And.left And.left
  have h32 : ∀ k (v : FixedHash 32), toFixedHash 32 (is.getD k []) = .ok v ↔ is.getD k [] = bytes (hashBytes 32 v) :=
    fun k v => toFixedHash_eq_ok_iff (by decide) (hitem k)
  have h20 : ∀ k (v : FixedHash 20), toFixedHash 20 (is.getD k []) = .ok v ↔ is.getD k [] = bytes (hashBytes 20 v) :=
    fun k v => toFixedHash_eq_ok_iff (by decide) (hitem k)
  have h256 : ∀ k (v : FixedHash 256), toFixedHash 256 (is.getD k []) = .ok v ↔ is.getD k [] = bytes (hashBytes 256 v) :=
    fun k v => toFixedHash_eq_ok_iff (by decide) (hitem k)
  have hint : ∀ k (v : U256), toU256 (is.getD k []) = .ok v ↔ is.getD k [] = nat v.toNat := fun k v =>
      toU256_eq_ok_iff (hitem k)
  have hpos : ∀ k (v : BitVec 64), toPositiveInt64 (is.getD k []) = .ok v ↔ is.getD k [] = nat v.toNat ∧ v.toNat < 2 ^ 63 :=
    fun k v => toPositiveInt64_eq_ok_iff (hitem k)
  simp only [populateOf, bind_eq_ok_iff, fieldOf_eq_ok_iff, h32, h20, h256, hint, hpos, ite_error_eq_ok_iff, not_le, pure_eq]
  constructor
  · rintro ⟨parentHash, h0, sha3Uncles, h1, author, h2, stateRoot, h3, transactionsRoot, h4, receiptsRoot, h5, logBloom, h6,
      difficulty, h7, number, ⟨h8, hnumber⟩, gasLimit, h9, gasUsed, h10, timestamp, ⟨h11, htimestamp⟩, extraData, h12,
      sealFields, ⟨hlen, hseal⟩, hh⟩
    cases hh
    have hlen' : 12 ≤ is.length := by
      rcases hsplits.getD 11 with ⟨hnil, -⟩ | ⟨-, hlt⟩
      · rw [h11] at hnil
        exact absurd hnil (isItem_nat (htimestamp.trans (by decide))).ne_nil
      · exact hlt
    refine ⟨?_, hnumber, htimestamp, h12, ⟨hlen, (Except.ok.inj hseal).symm⟩, rfl, rfl⟩
    rw [take_eq_map_getD hlen']
    change [is.getD 0 [], is.getD 1 [], is.getD 2 [], is.getD 3 [], is.getD 4 [], is.getD 5 [], is.getD 6 [], is.getD 7 [],
      is.getD 8 [], is.getD 9 [], is.getD 10 [], is.getD 11 []] = _
    rw [h0, h1, h2, h3, h4, h5, h6, h7, h8, h9, h10, h11]
    rfl
  · intro hspells
    have hlen' : 12 ≤ is.length := hspells.length_le
    have hbasic := hspells.basic
    rw [take_eq_map_getD hlen'] at hbasic
    change [is.getD 0 [], is.getD 1 [], is.getD 2 [], is.getD 3 [], is.getD 4 [], is.getD 5 [], is.getD 6 [], is.getD 7 [],
      is.getD 8 [], is.getD 9 [], is.getD 10 [], is.getD 11 []] = _ at hbasic
    simp only [basicItems, List.cons.injEq] at hbasic
    obtain ⟨h0, h1, h2, h3, h4, h5, h6, h7, h8, h9, h10, h11, -⟩ := hbasic
    obtain ⟨hhash, hhashWithout⟩ := hspells.memos
    obtain ⟨hlen, hseal⟩ := hspells.sealFields
    refine ⟨h.parentHash, h0, h.sha3Uncles, h1, h.author, h2, h.stateRoot, h3, h.transactionsRoot, h4, h.receiptsRoot, h5,
      h.logBloom, h6, h.difficulty, h7, h.number, ⟨h8, hspells.number⟩, h.gasLimit, h9, h.gasUsed, h10, h.timestamp,
      ⟨h11, hspells.timestamp⟩, h.extraData, hspells.extraData, h.sealFields, ⟨hlen, congrArg _ hseal.symm⟩, ?_⟩
    cases h
    cases hhash
    cases hhashWithout
    rfl

/-! ### Accepting -/

theorem wp_field_keepsData {x : M α} (hx : KeepsData x) (r : RLP) :
    wp (field k x) (fun _ r' => r'.data = r.data) (fun _ _ => True) r := by
  rw [wp, field]
  cases hr : x r with
  | ok a r' =>
    have hdata := hx r
    rw [wp, hr] at hdata
    exact hdata
  | error e r' =>
    dsimp only
    cases item k r' <;> trivial

/-- `populate` counts the items. -/
theorem wp_populate (r : RLP) : wp populate (fun _ _ => ∃ n, itemCount r.data = .ok n) (fun _ _ => True) r := by
  have hfield : ∀ {α β : Type} (k : Nat) (conv : Bytes → Except Exn α) (f : α → EStateM HeaderException RLP β)
      (Q : β → RLP → Prop) (r₀ : RLP), r₀.data = r.data → (∀ a r', r'.data = r.data → wp (f a) Q (fun _ _ => True) r') →
      wp (field k (do conv (← item k).data) >>= f) Q (fun _ _ => True) r₀ := by
    intro α β k conv f Q r₀ hr₀ hf
    rw [wp_bind]
    refine wp_mono (wp_field_keepsData ((KeepsData.item k).bind fun i => KeepsData.lift (conv i.data)) r₀) ?_ fun _ _ => id
    exact fun a r' hr' => hf a r' (hr'.trans hr₀)
  unfold populate
  refine hfield 0 _ _ _ _ rfl fun _ r h => hfield 1 _ _ _ _ h fun _ r h => hfield 2 _ _ _ _ h fun _ r h => ?_
  refine hfield 3 _ _ _ _ h fun _ r h => hfield 4 _ _ _ _ h fun _ r h => hfield 5 _ _ _ _ h fun _ r h => ?_
  refine hfield 6 _ _ _ _ h fun _ r h => hfield 7 _ _ _ _ h fun _ r h => hfield 8 _ _ _ _ h fun _ r h => ?_
  refine hfield 9 _ _ _ _ h fun _ r h => hfield 10 _ _ _ _ h fun _ r h => hfield 11 _ _ _ _ h fun _ r h => ?_
  refine hfield 12 (fun d => toBytes d) _ _ _ h fun _ r h => ?_
  rw [wp_bind, wp, field]
  cases hr : populateSeal r with
  | ok a r' =>
    rw [populateSeal, run_bind] at hr
    dsimp only [run_get] at hr
    rw [← h]
    cases hn : itemCount r.data with
    | ok n => exact ⟨n, rfl⟩
    | error e =>
      rw [run_bind, hn] at hr
      cases hr
  | error e r' =>
    dsimp only
    cases item 12 r' <;> trivial

theorem eval_populate_nil (h : BlockHeader) : eval populate (RLP.of []) ≠ .ok h := nofun

theorem eval_populate_eq_ok_iff (hlist : IsListOf d p) : eval populate (RLP.of d) = .ok h ↔ ∃ is,
    Splits p is ∧ Spells is h := by
  constructor
  · intro heval
    obtain ⟨n, hn⟩ : ∃ n, itemCount d = .ok n := by
      have hwp := wp_populate (RLP.of d)
      cases hr : populate (RLP.of d) with
      | ok h r => exact wp_ok hwp hr
      | error e r =>
        rw [eval, hr] at heval
        cases heval
    obtain ⟨is, hsplits, rfl⟩ := hlist.splits_of_itemCount hn
    rw [(reads_populate hlist hsplits).eval] at heval
    exact ⟨is, hsplits, (populateOf_eq_ok_iff hsplits).1 heval⟩
  · rintro ⟨is, hsplits, hspells⟩
    rw [(reads_populate hlist hsplits).eval]
    exact (populateOf_eq_ok_iff hsplits).2 hspells

theorem mk'_eq_ok_iff : mk' sha3 d .headerData = .ok h ↔
    IsItem d ∧ ∃ h₀, eval populate (RLP.of d) = .ok h₀ ∧ h = { h₀ with hashRaw := sha3 d } := by
  have hrlp : ∀ r, (RLP.mk' d).mapError HeaderException.rlp = .ok r ↔ RLP.mk' d = .ok r := fun r => by
    cases RLP.mk' d <;> simp [Except.mapError]
  simp only [mk', bind_eq_ok_iff, hrlp, mk'_veryStrict, pure_eq, Except.ok.injEq]
  constructor
  · rintro ⟨r, ⟨rfl, hd⟩, h₀, heval, hh⟩
    refine ⟨hd.resolve_left fun hnil => ?_, h₀, heval, hh.symm⟩
    subst hnil
    exact eval_populate_nil h₀ heval
  · rintro ⟨hitem, h₀, heval, rfl⟩
    exact ⟨_, ⟨rfl, .inr hitem⟩, h₀, heval, rfl⟩

/-! ### Writing the items -/

theorem length_items (h : BlockHeader) : h.items.length = basicFields + h.sealFields.length := by
  rw [items, List.length_append, List.length_cons]
  change 12 + (h.sealFields.length + 1) = 13 + h.sealFields.length
  omega

theorem items_ne_nil (h : BlockHeader) : h.items ≠ [] := nofun

theorem appends_items (hextra : h.extraData.length < 2 ^ 64) :
    Appends (h.streamRLPFields ++ h.sealFields.map fun x => .appendRaw x 1) h.items := by
  have h32 : ∀ (v : FixedHash 32) s, (Op.append (hashBytes 32 v) false).run s =
      (s.push (bytes (hashBytes 32 v))).noteAppended :=
    appends_hash (by decide)
  have h20 : ∀ (v : FixedHash 20) s, (Op.append (hashBytes 20 v) false).run s =
      (s.push (bytes (hashBytes 20 v))).noteAppended :=
    appends_hash (by decide)
  have h256 : ∀ (v : FixedHash 256) s,
      (Op.append (hashBytes 256 v) false).run s = (s.push (bytes (hashBytes 256 v))).noteAppended := appends_hash (by decide)
  have hint : ∀ (v : U256) s, (Op.appendInt v.toNat).run s =
      (s.push (nat v.toNat)).noteAppended := fun v => appends_nat v.isLt
  have hunsigned : ∀ (n : BitVec 64) s, (Op.appendInt (toUnsigned n)).run s = (s.push (nat (toUnsigned n))).noteAppended :=
    fun n => appends_nat (toUnsigned_lt n)
  have hseal : Appends (h.sealFields.map fun x => .appendRaw x 1) h.sealFields :=
    forall₂_map_left_iff.2 (forall₂_same.2 fun x _ => appends_raw x)
  refine .cons (h32 _) (.cons (h32 _) (.cons (h20 _) (.cons (h32 _) (.cons (h32 _) (.cons (h32 _) (.cons (h256 _) ?_))))))
  refine .cons (hint _) (.cons (hunsigned _) (.cons (hint _) (.cons (hint _) (.cons (hunsigned _) ?_))))
  exact .cons (appends_bytes hextra) hseal

theorem out_withSeal (hseal : h.sealFields.length < 2 ^ 32) : h.out .withSeal =
    run (.appendList h.items.length :: (h.streamRLPFields ++ h.sealFields.map fun x => .appendRaw x 1)) {} >>=
      RLPStream.output := by
  have hseal' : h.streamRLPSeal = run (h.sealFields.map fun x => .appendRaw x 1) := by
    funext s
    rw [streamRLPSeal, if_neg (not_le.2 hseal)]
  rw [out, streamRLP, ← cons_append, run_append, length_items, hseal']

theorem out_eq_list (hseal : h.sealFields.length < 2 ^ 32) (hlen : h.items.flatten.length < lengthLimit) :
    h.out .withSeal = .ok (list h.items) := by
  have hextra : h.extraData.length < 2 ^ 64 := by
    have hle := length_bytes_le h.extraData
    have hitems : h.items.flatten.length = (h.basicItems (toUnsigned h.number) (toUnsigned h.timestamp)).flatten.length +
        ((bytes h.extraData).length + h.sealFields.flatten.length) := by
      rw [items, flatten_append, flatten_cons, List.length_append, List.length_append]
    have hlimit := lengthLimit_lt
    omega
  rw [out_withSeal hseal]
  exact output_of_appends (appends_items hextra) h.items_ne_nil hlen

theorem isListOf_of_out (hout : h.out .withSeal = .ok d) (hitem : IsItem d) : IsListOf d h.items.flatten := by
  have hseal : h.sealFields.length < 2 ^ 32 := by
    by_contra hge
    obtain ⟨s, hs, -⟩ := bind_eq_ok_iff.1 hout
    obtain ⟨s', -, hs'⟩ := bind_eq_ok_iff.1 hs
    rw [streamRLPSeal, if_pos (not_lt.1 hge)] at hs'
    cases hs'
  rw [out_withSeal hseal] at hout
  have hextra : h.extraData.length < 2 ^ 64 := lt_of_output (by simp [streamRLPFields]) hitem hout
  exact isListOf_of_output (appends_items hextra) h.items_ne_nil hitem hout

theorem length_extraData_le (h : BlockHeader) : h.extraData.length ≤ h.items.flatten.length := by
  have hle := length_bytes_le h.extraData
  rw [items, flatten_append, flatten_cons, List.length_append, List.length_append]
  omega

/-- What is written is not read as other items. -/
theorem eq_items (hsplits : Splits h.items.flatten is) (hlen : h.items.flatten.length < lengthLimit)
    (hseal : h.sealFields = is.drop 13) : is = h.items := by
  refine hsplits.unique ⟨rfl, fun i hi => ?_⟩
  rw [items, mem_append, mem_cons] at hi
  rcases hi with hi | rfl | hi
  · exact isItem_basicItems (toUnsigned_lt _) (toUnsigned_lt _) i hi
  · exact .data _ (h.length_extraData_le.trans_lt hlen)
  · rw [hseal] at hi
    exact hsplits.items i (mem_of_mem_drop hi)

theorem basicItems_inj {h' : BlockHeader} {number timestamp number' timestamp' : Nat}
    (hlt : number < 256 ^ 32 ∧ timestamp < 256 ^ 32) (hlt' : number' < 256 ^ 32 ∧ timestamp' < 256 ^ 32)
    (heq : h.basicItems number timestamp = h'.basicItems number' timestamp') : number = number' ∧ timestamp = timestamp' := by
  simp only [basicItems, List.cons.injEq] at heq
  obtain ⟨-, -, -, -, -, -, -, -, hnumber, -, -, htimestamp, -⟩ := heq
  exact ⟨nat_injective hlt.1 hlt'.1 hnumber, nat_injective hlt.2 hlt'.2 htimestamp⟩

theorem toUnsigned_eq_iff {n : BitVec 64} : toUnsigned n = n.toNat ↔ n.toNat < 2 ^ 32 :=
  Nat.mod_eq_iff_lt (by decide)

/-- The number and the timestamp of a header that is read as it is written are small. -/
theorem small_of_spells {h' : BlockHeader} (hspells : Spells h.items h') (hnumber : h'.number = h.number)
    (htimestamp : h'.timestamp = h.timestamp) : h.number.toNat < 2 ^ 32 ∧ h.timestamp.toNat < 2 ^ 32 := by
  have hlt : ∀ n : BitVec 64, n.toNat < 256 ^ 32 := fun n => n.isLt.trans (by decide)
  have hbasic := hspells.basic
  have htake : h.items.take 12 = h.basicItems (toUnsigned h.number) (toUnsigned h.timestamp) := take_left' rfl
  rw [htake, hnumber, htimestamp] at hbasic
  obtain ⟨hn, ht⟩ := basicItems_inj ⟨toUnsigned_lt _, toUnsigned_lt _⟩ ⟨hlt _, hlt _⟩ hbasic
  exact ⟨toUnsigned_eq_iff.1 hn, toUnsigned_eq_iff.1 ht⟩

/-! ### Round trips -/

/-- A list, with extra data that is there and is a string, and with a small number and a small timestamp. -/
structure Plain (b : Bytes) : Prop where
  isList : isList b = true
  extraData : ∀ r, eval (item 12) (RLP.of b) = .ok r → isData r.data = true
  number : ∀ r n, eval (item 8) (RLP.of b) = .ok r → toPositiveInt64 r.data = .ok n → n.toNat < 2 ^ 32
  timestamp : ∀ r n, eval (item 11) (RLP.of b) = .ok r → toPositiveInt64 r.data = .ok n → n.toNat < 2 ^ 32

/-- For the items of a list that is accepted. -/
theorem plain_iff (hlist : IsListOf d p) (hsplits : Splits p is) (hspells : Spells is h) :
    Plain d ↔ isData (is.getD 12 []) = true ∧ h.number.toNat < 2 ^ 32 ∧ h.timestamp.toNat < 2 ^ 32 := by
  have hitem : ∀ k r, eval (item k) (RLP.of d) = .ok r ↔ RLP.of (is.getD k []) = r := fun k r => by
    rw [(Reads.item hlist.payload hsplits (hlist.length_lt hsplits) k).eval, Except.ok.injEq]
  have hread := (populateOf_eq_ok_iff hsplits).2 hspells
  simp only [populateOf, bind_eq_ok_iff, fieldOf_eq_ok_iff, pure_eq, Except.ok.injEq] at hread
  obtain ⟨_, -, _, -, _, -, _, -, _, -, _, -, _, -, _, -, number, hnumber, _, -, _, -, timestamp,
      htimestamp, _, -, _, -, rfl⟩ :=
    hread
  constructor
  · intro hplain
    exact ⟨hplain.extraData _ ((hitem 12 _).2 rfl), hplain.number _ _ ((hitem 8 _).2 rfl) hnumber,
      hplain.timestamp _ _ ((hitem 11 _).2 rfl) htimestamp⟩
  · rintro ⟨hdata, hnumber', htimestamp'⟩
    refine ⟨hlist.isList, fun r hr => ?_, fun r n hr hn => ?_, fun r n hr hn => ?_⟩
    · rw [← (hitem 12 r).1 hr]
      exact hdata
    · rw [← (hitem 8 r).1 hr, hnumber] at hn
      cases hn
      exact hnumber'
    · rw [← (hitem 11 r).1 hr, htimestamp] at hn
      cases hn
      exact htimestamp'

/-- The bytes are written again if and only if nothing of them is lost in reading or writing. -/
theorem out_eq_iff_plain (haccept : mk' sha3 d .headerData = .ok h) : h.out .withSeal = .ok d ↔ Plain d := by
  obtain ⟨hitem, h₀, heval, rfl⟩ := mk'_eq_ok_iff.1 haccept
  have hitems : ({ h₀ with hashRaw := sha3 d } : BlockHeader).items = h₀.items := rfl
  constructor
  · intro hout
    have hlist := isListOf_of_out hout hitem
    rw [hitems] at hlist
    obtain ⟨is, hsplits, hspells⟩ := (eval_populate_eq_ok_iff hlist).1 heval
    obtain rfl := eq_items hsplits hlist.lt hspells.sealFields.2
    refine (plain_iff hlist hsplits hspells).2 ⟨?_, small_of_spells hspells rfl rfl⟩
    exact isData_bytes (h₀.length_extraData_le.trans_lt hlist.lt)
  · intro hplain
    obtain ⟨p, hlist⟩ := exists_of_isList hitem hplain.isList
    obtain ⟨is, hsplits, hspells⟩ := (eval_populate_eq_ok_iff hlist).1 heval
    obtain ⟨hdata, hnumber, htimestamp⟩ := (plain_iff hlist hsplits hspells).1 hplain
    rcases hsplits.getD 12 with ⟨hnil, -⟩ | ⟨hitem12, hlt⟩
    · rw [hnil] at hdata
      cases hdata
    have hextra := (toBytes_of_isData hitem12 hdata hspells.extraData).1
    obtain ⟨hlen, hseal⟩ := hspells.sealFields
    have his : h₀.items = is := by
      rw [items, toUnsigned_eq_iff.2 hnumber, toUnsigned_eq_iff.2 htimestamp, ← hspells.basic, ← hextra, hseal,
        getD_eq_getElem _ _ hlt, ← drop_eq_getElem_cons hlt, take_append_drop]
    have hseal' : h₀.sealFields.length < 2 ^ 32 := by
      rw [hseal, length_drop]
      omega
    have hlen' : h₀.items.flatten.length < lengthLimit := by
      rw [his, ← hsplits.eq]
      exact hlist.lt
    have hout := out_eq_list (h := { h₀ with hashRaw := sha3 d }) hseal' hlen'
    rw [hout, hitems, his, hlist.eq, list, ← hsplits.eq]

/-- The items of a header with a small number, a small timestamp and items for a seal are accepted. -/
theorem mk'_list_items (hn : h.number.toNat < 2 ^ 32) (ht : h.timestamp.toNat < 2 ^ 32) (hseal : ∀ x ∈ h.sealFields, IsItem x)
    (hlen : h.sealFields.length < 2 ^ 32 - 13) (hfits : h.items.flatten.length < lengthLimit) :
    mk' sha3 (list h.items) .headerData = .ok { h.noteDirty with hashRaw := sha3 (list h.items) } := by
  have hextra : h.extraData.length < lengthLimit := h.length_extraData_le.trans_lt hfits
  have hlist : IsListOf (list h.items) h.items.flatten := ⟨rfl, hfits⟩
  have hsplits : Splits h.items.flatten h.items := by
    refine ⟨rfl, fun i hi => ?_⟩
    rw [items, mem_append, mem_cons] at hi
    rcases hi with hi | rfl | hi
    · exact isItem_basicItems (toUnsigned_lt _) (toUnsigned_lt _) i hi
    · exact .data _ hextra
    · exact hseal i hi
  have hspells : Spells h.items h.noteDirty := by
    refine ⟨?_, hn.trans (by decide), ht.trans (by decide), ?_, ⟨?_, rfl⟩, rfl, rfl⟩
    · rw [items, toUnsigned_eq_iff.2 hn, toUnsigned_eq_iff.2 ht]
      exact take_left' rfl
    · exact toBytes_bytes hextra
    · rw [length_items]
      change 13 + h.sealFields.length < 2 ^ 32
      omega
  have heval := (eval_populate_eq_ok_iff hlist).2 ⟨h.items, hsplits, hspells⟩
  exact mk'_eq_ok_iff.2 ⟨.list _ hfits, _, heval, rfl⟩

/-- The encoding of a header is read as the header again. -/
def ReadBack (sha3 : Bytes → FixedHash 32) (h : BlockHeader) : Prop :=
  ∃ b h', h.out .withSeal = .ok b ∧ mk' sha3 b .headerData = .ok h' ∧ h'.beq h = true ∧ h'.sealFields = h.sealFields

theorem readBack_iff :
    ReadBack sha3 h ↔ h.number.toNat < 2 ^ 32 ∧ h.timestamp.toNat < 2 ^ 32 ∧ (∀ x ∈ h.sealFields, IsItem x) ∧
      h.sealFields.length < 2 ^ 32 - 13 ∧ h.items.flatten.length < lengthLimit := by
  constructor
  · rintro ⟨b, h', hout, haccept, hbeq, hseal⟩
    obtain ⟨hitem, h₀, heval, rfl⟩ := mk'_eq_ok_iff.1 haccept
    have hlist := isListOf_of_out hout hitem
    obtain ⟨is, hsplits, hspells⟩ := (eval_populate_eq_ok_iff hlist).1 heval
    obtain ⟨hlen, hseal₀⟩ := hspells.sealFields
    have hdrop : h.sealFields = is.drop 13 := hseal.symm.trans hseal₀
    have his := eq_items hsplits hlist.lt hdrop
    simp only [beq, decide_eq_true_eq] at hbeq
    obtain ⟨-, -, -, -, -, -, -, -, hnumber', -, -, htimestamp', -⟩ := hbeq
    obtain ⟨hn, ht⟩ := small_of_spells (his ▸ hspells) hnumber' htimestamp'
    refine ⟨hn, ht, fun x hx => ?_, ?_, hlist.lt⟩
    · rw [hdrop] at hx
      exact hsplits.items x (mem_of_mem_drop hx)
    · rw [his, length_items] at hlen
      change 13 + h.sealFields.length < 2 ^ 32 at hlen
      omega
  · rintro ⟨hn, ht, hseal, hlen, hfits⟩
    refine ⟨list h.items, _, out_eq_list (by omega) hfits, mk'_list_items hn ht hseal hlen hfits, ?_, rfl⟩
    simp [beq, noteDirty]

theorem hash_noteDirty (hout : h.out .withSeal = .ok d) :
    h.noteDirty.hash sha3 .withSeal = .ok (sha3 d, { h.noteDirty with hashRaw := sha3 d }) := by
  have hclean : h.noteDirty.out .withSeal = .ok d := hout
  rw [hash, if_pos (show h.noteDirty.hashRaw = 0 from rfl), hclean]
  rfl

/-- Headers survive encoding if and only if their numbers are small, and nothing is read that is not there. -/
theorem survives_encoding (sha3 : Bytes → FixedHash 32) :
    (∀ b h, mk' sha3 b .headerData = .ok h →
      (h.out .withSeal = .ok b ∧ (∃ h', h.noteDirty.hash sha3 .withSeal = .ok (sha3 b, h')) ↔ Plain b)) ∧
    (∀ h : BlockHeader, h.number.toNat < 2 ^ 63 → h.timestamp.toNat < 2 ^ 63 →
      (ReadBack sha3 h ↔ h.number.toNat < 2 ^ 32 ∧ h.timestamp.toNat < 2 ^ 32 ∧ (∀ x ∈ h.sealFields, IsItem x) ∧
        h.sealFields.length < 2 ^ 32 - 13 ∧ h.items.flatten.length < lengthLimit)) := by
  refine ⟨fun b h haccept => ?_, fun h _ _ => readBack_iff⟩
  rw [← out_eq_iff_plain haccept]
  exact ⟨And.left, fun hout => ⟨hout, _, hash_noteDirty hout⟩⟩

/-- A header that is zero but for its seal, a byte and a list. -/
theorem survives_encoding_zero :
    Plain (list (BlockHeader.items { timestamp := 0, sealFields := [[5], [0xc0]] })) ∧
      ReadBack (fun _ => 0) { timestamp := 0, sealFields := [[5], [0xc0]] } := by
  have hfits : (BlockHeader.items { timestamp := 0, sealFields := [[5], [0xc0]] }).flatten.length < lengthLimit := by
    decide +kernel
  have hitems : ∀ x ∈ [[(5 : UInt8)], [0xc0]], IsItem x := by
    intro x hx
    rcases mem_cons.1 hx with rfl | hx
    · exact .data [5] (by decide)
    · rw [mem_singleton.1 hx]
      exact .list [] (by decide)
  have haccept : mk' (fun _ => 0) (list (BlockHeader.items { timestamp := 0, sealFields := [[5], [0xc0]] })) .headerData =
      .ok { timestamp := 0, sealFields := [[5], [0xc0]] } :=
    mk'_list_items (by decide) (by decide) hitems (by decide) hfits
  have hout : BlockHeader.out { timestamp := 0, sealFields := [[5], [0xc0]] } .withSeal =
      .ok _ := out_eq_list (by decide) hfits
  refine ⟨((survives_encoding _).1 _ _ haccept).1 ⟨hout, _, hash_noteDirty hout⟩, ?_⟩
  exact ((survives_encoding _).2 _ (by decide) (by decide)).2 ⟨by decide, by decide, hitems, by decide, hfits⟩

theorem not_survives_encoding : ¬ ∀ sha3 : Bytes → FixedHash 32,
    (∀ b h, mk' sha3 b .headerData = .ok h →
      h.out .withSeal = .ok b ∧ ∃ h', h.noteDirty.hash sha3 .withSeal = .ok (sha3 b, h')) ∧
    (∀ h : BlockHeader, h.number.toNat < 2 ^ 63 → h.timestamp.toNat < 2 ^ 63 → ReadBack sha3 h) := by
  intro hclaim
  have hback := (hclaim fun _ => 0).2 { number := 2 ^ 32, timestamp := 0 } (by decide) (by decide)
  exact absurd (readBack_iff.1 hback).1 (by decide)

end BlockHeader

end Kmdx.Rlp
