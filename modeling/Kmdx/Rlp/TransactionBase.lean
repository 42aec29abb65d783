import Kmdx.Rlp.Fields

/-!
# Transactions (`libwingcore/TransactionBase.h`, `TransactionBase.cpp`)

A transaction is a list of nine items. The fourth one is the receiver of a message call, or empty; the empty list is
as good as the empty string there, so that a creation has two spellings and only one of them is written again
(`written_as_read`).
-/

namespace Kmdx.Rlp

open ExceptRules Wp

/-- `TransactionBase::Type` -/
inductive TransactionType
  | nullTransaction
  | contractCreation
  | messageCall
deriving DecidableEq

inductive CheckTransaction
  | none
  | cheap
  | everything
deriving DecidableEq

inductive IncludeSignature
  | withoutSignature
  | withSignature
deriving DecidableEq

structure SignatureStruct where
  r : U256
  s : U256
  v : UInt8
deriving DecidableEq

/-- The order of the group, `s_max`. -/
def secp256k1n : U256 := 0xfffffffffffffffffffffffffffffffebaaedce6af48a03bbfd25e8cd0364141

def SignatureStruct.isValid (sig : SignatureStruct) : Bool :=
  sig.v ≤ 1 ∧ 0 < sig.r ∧ 0 < sig.s ∧ sig.r < secp256k1n ∧ sig.s < secp256k1n

/-- What `libdevcrypto` computes. -/
structure Crypto where
  sha3 : Bytes → FixedHash 32
  sign : FixedHash 32 → FixedHash 32 → SignatureStruct
  recover : SignatureStruct → FixedHash 32 → FixedHash 64

structure TransactionSkeleton where
  creation : Bool := false
  from_ : FixedHash 20 := 0
  to_ : FixedHash 20 := 0
  value : U256 := 0
  data : Bytes := []
  nonce : U256 := invalid256
  gas : U256 := invalid256
  gasPrice : U256 := invalid256

/-- `m_chainId` is an `int`. -/
structure TransactionBase where
  type : TransactionType := .nullTransaction
  nonce : U256 := 0
  value : U256 := 0
  receiveAddress : FixedHash 20 := 0
  gasPrice : U256 := 0
  gas : U256 := 0
  data : Bytes := []
  vrs : Option SignatureStruct := none
  chainId : Int := -4
  /-- `m_hashWith`, `m_sender`: the memos -/
  hashWith : FixedHash 32 := 0
  senderRaw : FixedHash 20 := 0
deriving DecidableEq

namespace TransactionBase

variable (c : Crypto) (t : TransactionBase)

def isZeroSignature (r s : U256) : Bool := r = 0 ∧ s = 0

def hasZeroSignature : Bool :=
  match t.vrs with
  | none => false
  | some sig => isZeroSignature sig.r sig.s

/-! ### Writing -/

/-- `append(unsigned)` of an `int` -/
def toUnsigned (n : Int) : Nat := (n % 2 ^ 32).toNat

/-- The item for `v`, as an `int`. -/
def encodedV (sig : SignatureStruct) : Int :=
  if t.hasZeroSignature then t.chainId else sig.v.toNat + (t.chainId * 2 + 35)

/-- The fields in front of the signature. -/
def streamRLPFields : List Op :=
  [.appendInt t.nonce.toNat, .appendInt t.gasPrice.toNat, .appendInt t.gas.toNat,
    .append (if t.type = .messageCall then hashBytes 20 t.receiveAddress else []) false, .appendInt t.value.toNat,
    .append t.data false]

def streamRLP (s : RLPStream) (sig : IncludeSignature) (forEip155hash : Bool := false) : Except Exn RLPStream :=
  if t.type = .nullTransaction then return s
  else
    match sig with
    | .withSignature => do
      let s ← run (.appendList (3 + 6) :: t.streamRLPFields) s
      match t.vrs with
      | none => throw .transactionIsUnsigned
      | some vrs => run [.appendInt (toUnsigned (t.encodedV vrs)), .appendInt vrs.r.toNat, .appendInt vrs.s.toNat] s
    | .withoutSignature =>
      if forEip155hash then
        run (.appendList (3 + 6) :: (t.streamRLPFields ++ [.appendInt (toUnsigned t.chainId), .appendInt 0, .appendInt 0])) s
      else run (.appendList (0 + 6) :: t.streamRLPFields) s

/-- The bytes that the transaction is encoded as. -/
def out (sig : IncludeSignature) (forEip155hash : Bool := false) : Except Exn Bytes := do
  (← t.streamRLP {} sig forEip155hash).output

/-- `sha3`, and the transaction with its memo. -/
def sha3 : IncludeSignature → Except Exn (FixedHash 32 × TransactionBase)
  | .withSignature =>
    if t.hashWith ≠ 0 then return (t.hashWith, t)
    else do
      let ret := c.sha3 (← t.out .withSignature)
      return (ret, { t with hashWith := ret })
  | .withoutSignature => do return (c.sha3 (← t.out .withoutSignature (0 < t.chainId)), t)

def sender : Except Exn (FixedHash 20) :=
  if t.senderRaw ≠ 0 then return t.senderRaw
  else if t.hasZeroSignature then return maxAddress
  else
    match t.vrs with
    | none => throw .transactionIsUnsigned
    | some vrs => do
      let p := c.recover vrs (← t.sha3 c .withoutSignature).1
      if p = 0 then throw .invalidSignature
      else return BitVec.truncate _ (c.sha3 (hashBytes 64 p))

/-! ### Reading -/

/-- `toInt<int>` -/
def toInt32 (d : Bytes) : Except Exn Int := return (BitVec.ofNat 32 (← toInt d 4)).toInt

def require (b : Bool) (e : Exn) : Except Exn Unit := if b then return else throw e

/-- The chain that `v` is for. -/
def chainIdOf (v : Int) : Except Exn Int :=
  if 36 < v then return (v - 35).tdiv 2
  else if v = 27 ∨ v = 28 then return -4
  else throw .invalidSignature

/-- The chain id and the signature. -/
def readSignature (checkSig : CheckTransaction) (v : Int) (r s : U256) : Except Exn (Int × SignatureStruct) :=
  if isZeroSignature r s then return (v, ⟨r, s, 0⟩)
  else do
    let chainId ← chainIdOf v
    let vrs : SignatureStruct := ⟨r, s, UInt8.ofInt (v - (chainId * 2 + 35))⟩
    require (checkSig = .none ∨ vrs.isValid) .invalidSignature
    return (chainId, vrs)

/-- What the fourth item says. -/
def readReceiver (d : Bytes) : Except Exn (TransactionType × FixedHash 20) :=
  if isEmpty d then return (.contractCreation, 0)
  else return (.messageCall, ← toFixedHash 20 d)

def readSender (checkSig : CheckTransaction) : Except Exn TransactionBase :=
  if checkSig = .everything then do return { t with senderRaw := ← t.sender c } else return t

/-- What is asked of the list and not of an item. -/
def whole {α : Type} (f : Bytes → Except Exn α) : M α := do f (← get).data

/-- The body of the constructor. -/
def read (checkSig : CheckTransaction) : M TransactionBase := do
  whole fun d => require (isList d) (.invalidTransactionFormat "transaction RLP must be a list")
  let nonce ← toU256 (← item 0).data
  let gasPrice ← toU256 (← item 1).data
  let gas ← toU256 (← item 2).data
  let receiver ← readReceiver (← item 3).data
  let value ← toU256 (← item 4).data
  require (isData (← item 5).data) (.invalidTransactionFormat "transaction data RLP must be an array")
  let data ← toBytes (← item 5).data
  let v ← toInt32 (← item 6).data
  let r ← toU256 (← item 7).data
  let s ← toU256 (← item 8).data
  let signature ← readSignature checkSig v r s
  let t ← readSender c { type := receiver.1, nonce, gasPrice, gas, receiveAddress := receiver.2, value, data,
                         vrs := some signature.2, chainId := signature.1 } checkSig
  require ((← whole itemCount) ≤ 9) (.invalidTransactionFormat "too many fields in the transaction RLP")
  return t

/-- `TransactionBase(bytesConstRef, CheckTransaction)` -/
def ofRlp (data : Bytes) (checkSig : CheckTransaction) : Except Exn TransactionBase := do
  eval (read c checkSig) (← RLP.mk' data)

/-! ### The other constructors -/

/-- A signature that is not valid is dropped. -/
def sign (priv : FixedHash 32) : Except Exn TransactionBase := do
  let sigStruct := c.sign priv (← t.sha3 c .withoutSignature).1
  return if sigStruct.isValid then { t with vrs := some sigStruct } else t

/-- `TransactionBase(TransactionSkeleton const&, Secret const&)` -/
def ofSkeleton (ts : TransactionSkeleton) (secret : FixedHash 32) : Except Exn TransactionBase :=
  let t : TransactionBase :=
    { type := if ts.creation then .contractCreation else .messageCall, nonce := ts.nonce, value := ts.value,
      receiveAddress := ts.to_, gasPrice := ts.gasPrice, gas := ts.gas, data := ts.data, senderRaw := ts.from_ }
  if secret ≠ 0 then t.sign c secret else return t

def unsignedCall (value gasPrice gas : U256) (dest : FixedHash 20) (data : Bytes) (nonce : U256) : TransactionBase :=
  { type := .messageCall, nonce, value, receiveAddress := dest, gasPrice, gas, data }

def unsignedCreation (value gasPrice gas : U256) (data : Bytes) (nonce : U256) : TransactionBase :=
  { type := .contractCreation, nonce, value, gasPrice, gas, data }

/-- What the constructors build. -/
inductive Built (c : Crypto) : TransactionBase → Prop
  | skeleton {ts secret t} : ofSkeleton c ts secret = .ok t → Built c t
  | signedCall {value gasPrice gas dest data nonce secret t} :
    (unsignedCall value gasPrice gas dest data nonce).sign c secret = .ok t → Built c t
  | signedCreation {value gasPrice gas data nonce secret t} :
    (unsignedCreation value gasPrice gas data nonce).sign c secret = .ok t → Built c t
  | unsignedCall (value gasPrice gas dest data nonce) : Built c (unsignedCall value gasPrice gas dest data nonce)
  | unsignedCreation (value gasPrice gas data nonce) : Built c (unsignedCreation value gasPrice gas data nonce)

variable {c t} {d p : Bytes} {is : List Bytes} {α : Type}

/-! ### Integers -/

theorem toUnsigned_lt (v : Int) : toUnsigned v < 2 ^ 32 := by
  rw [toUnsigned]
  omega

theorem toUnsigned_toInt (n : BitVec 32) : toUnsigned n.toInt = n.toNat := by
  have hlt := n.isLt
  rw [toUnsigned, BitVec.toInt_eq_toNat_cond]
  split <;> omega

variable {v n : Int}

theorem toInt_toUnsigned (h : -2 ^ 31 ≤ v ∧ v < 2 ^ 31) : (BitVec.ofNat 32 (toUnsigned v)).toInt = v := by
  have hlt := toUnsigned_lt v
  rw [BitVec.toInt_eq_toNat_cond, BitVec.toNat_ofNat, Nat.mod_eq_of_lt hlt]
  unfold toUnsigned at *
  split <;> omega

theorem toInt32_eq_ok_iff (h : d = [] ∨ IsItem d) :
    toInt32 d = .ok v ↔ d = nat (toUnsigned v) ∧ -2 ^ 31 ≤ v ∧ v < 2 ^ 31 := by
  have hlt := toUnsigned_lt v
  have hpow : (2 : Nat) ^ 32 = 256 ^ 4 := by decide
  rcases h with rfl | h
  · exact ⟨nofun, fun hnil => absurd hnil.1.symm (isItem_nat (hlt.trans (by decide))).ne_nil⟩
  constructor
  · intro hread
    obtain ⟨n, hn, hv⟩ := bind_eq_ok_iff.1 hread
    obtain ⟨hd, -, hlen⟩ := (toInt_eq_ok_iff h).1 hn
    have hn : n < 2 ^ 32 := length_compact_le_iff.1 hlen
    rw [← Except.ok.inj hv, toUnsigned_toInt, BitVec.toNat_ofNat, Nat.mod_eq_of_lt hn]
    exact ⟨hd, BitVec.le_toInt _, BitVec.toInt_lt⟩
  · rintro ⟨hd, hv⟩
    rw [toInt32, (toInt_eq_ok_iff h).2 ⟨hd, length_compact_le (hpow ▸ hlt) (by decide)⟩, ok_bind, toInt_toUnsigned hv]
    rfl

/-! ### Signatures -/

theorem chainIdOf_eq_ok {chainId : Int} (h : chainIdOf v = .ok chainId) :
    v - (chainId * 2 + 35) = 0 ∨ v - (chainId * 2 + 35) = 1 := by
  rw [chainIdOf] at h
  split at h
  · rename_i hv
    rw [← Except.ok.inj h, Int.tdiv_eq_ediv_of_nonneg (by omega)]
    omega
  · split at h
    · rename_i hv
      rw [← Except.ok.inj h]
      omega
    · cases h

variable {sig : SignatureStruct}

/-- A signature is written with the `v` that it is read with. -/
theorem encodedV_of_readSignature {checkSig : CheckTransaction} {r s : U256}
    (h : readSignature checkSig v r s = .ok (t.chainId, sig)) (hvrs : t.vrs = some sig) :
    sig.r = r ∧ sig.s = s ∧ t.encodedV sig = v := by
  rw [encodedV, hasZeroSignature, hvrs]
  rw [readSignature] at h
  split at h
  · rename_i hzero
    cases h
    exact ⟨rfl, rfl, if_pos hzero⟩
  · rename_i hne
    obtain ⟨chainId, hchain, h⟩ := bind_eq_ok_iff.1 h
    obtain ⟨_, -, h⟩ := bind_eq_ok_iff.1 h
    cases h
    refine ⟨rfl, rfl, ?_⟩
    dsimp only
    rw [if_neg hne]
    rcases chainIdOf_eq_ok hchain with hv | hv
    · rw [hv]
      change (0 : Int) + _ = v
      omega
    · rw [hv]
      change (1 : Int) + _ = v
      omega

/-- What `sign` makes is read with the chain id of a new transaction. -/
theorem readSignature_of_isValid (h : sig.isValid = true) :
    readSignature .none (sig.v.toNat + (-4 * 2 + 35)) sig.r sig.s = .ok (-4, sig) := by
  simp only [SignatureStruct.isValid, decide_eq_true_eq] at h
  obtain ⟨hv, hr, -⟩ := h
  have hne : isZeroSignature sig.r sig.s = false := by
    rw [isZeroSignature, decide_eq_false_iff_not]
    rintro ⟨hzero, -⟩
    rw [hzero] at hr
    exact absurd hr (by decide)
  rw [readSignature, hne, if_neg (by decide)]
  have hvs : sig.v = 0 ∨ sig.v = 1 := by
    rw [UInt8.le_iff_toNat_le] at hv
    rw [← UInt8.toNat_inj, ← UInt8.toNat_inj]
    change sig.v.toNat ≤ 1 at hv
    change sig.v.toNat = 0 ∨ sig.v.toNat = 1
    omega
  obtain ⟨r, s, v⟩ := sig
  rcases hvs with rfl | rfl <;> rfl

/-! ### The items of a transaction -/

def itemsWith (t : TransactionBase) (receiver : Bytes) (v : Int) (sig : SignatureStruct) : List Bytes :=
  [nat t.nonce.toNat, nat t.gasPrice.toNat, nat t.gas.toNat, receiver, nat t.value.toNat, bytes t.data,
    nat (toUnsigned v), nat sig.r.toNat, nat sig.s.toNat]

/-- The receiver as it is written. -/
def receiver (t : TransactionBase) : Bytes := if t.type = .messageCall then hashBytes 20 t.receiveAddress else []

/-- What is written. -/
def items (t : TransactionBase) (sig : SignatureStruct) : List Bytes :=
  t.itemsWith (bytes t.receiver) (t.encodedV sig) sig

/-- What is read: the list has a transaction's items. -/
structure Spells (is : List Bytes) (i : Bytes) (n : Int) (sig : SignatureStruct) (t : TransactionBase) : Prop where
  items : is = t.itemsWith i n sig
  receiver : readReceiver i = .ok (t.type, t.receiveAddress)
  item : IsItem i
  data : t.data.length < lengthLimit
  v : -2 ^ 31 ≤ n ∧ n < 2 ^ 31
  signature : readSignature .none n sig.r sig.s = .ok (t.chainId, sig)
  vrs : t.vrs = some sig
  memos : t.hashWith = 0 ∧ t.senderRaw = 0

theorem isItem_itemsWith {receiver : Bytes} (hreceiver : IsItem receiver)
    (hdata : t.data.length < lengthLimit) : ∀ i ∈ t.itemsWith receiver v sig, IsItem i := by
  have hint : ∀ v : U256, IsItem (nat v.toNat) := fun v => isItem_nat v.isLt
  have hv : IsItem (nat (toUnsigned v)) := isItem_nat ((toUnsigned_lt v).trans (by decide))
  simp only [itemsWith, List.forall_mem_cons, List.not_mem_nil, false_implies, implies_true, and_true]
  exact ⟨hint _, hint _, hint _, hreceiver, hint _, .data _ hdata, hv, hint _, hint _⟩

/-! ### Reading the items -/

theorem require_eq_ok_iff {b : Bool} {e : Exn} {u : Unit} : require b e = .ok u ↔ b = true := by
  cases b <;> simp [require]

/-- `read` without a check of the signature, on the items. -/
def readOf (is : List Bytes) : Except Exn TransactionBase := do
  let nonce ← toU256 (is.getD 0 [])
  let gasPrice ← toU256 (is.getD 1 [])
  let gas ← toU256 (is.getD 2 [])
  let receiver ← readReceiver (is.getD 3 [])
  let value ← toU256 (is.getD 4 [])
  require (isData (is.getD 5 [])) (.invalidTransactionFormat "transaction data RLP must be an array")
  let data ← toBytes (is.getD 5 [])
  let v ← toInt32 (is.getD 6 [])
  let r ← toU256 (is.getD 7 [])
  let s ← toU256 (is.getD 8 [])
  let signature ← readSignature .none v r s
  require (is.length ≤ 9) (.invalidTransactionFormat "too many fields in the transaction RLP")
  return { type := receiver.1, nonce, gasPrice, gas, receiveAddress := receiver.2, value, data,
           vrs := some signature.2, chainId := signature.1 }

theorem reads_whole (f : Bytes → Except Exn α) : Reads d is (whole f) (f d) := by
  rintro r rfl h
  rw [whole, wp_bind, wp_get]
  exact Reads.lift (f r.data) r rfl h

theorem reads_read (hlist : IsListOf d p) (hsplits : Splits p is) : Reads d is (read c .none) (readOf is) := by
  have hitem : ∀ {α β : Type} (k : Nat) (conv : Bytes → Except Exn α) {f : α → M β} {g : α → Except Exn β},
      (∀ a, Reads d is (f a) (g a)) →
      Reads d is (item k >>= fun i => liftM (conv i.data) >>= f) (conv (is.getD k []) >>= g) := by
    intro α β k conv f g hf
    have hread := (Reads.item hlist.payload hsplits (hlist.length_lt hsplits) k).bind fun i =>
      (Reads.lift (conv i.data)).bind hf
    exact hread
  have hlist' : require (isList d) (.invalidTransactionFormat "transaction RLP must be a list") = .ok () := by
    rw [hlist.isList]
    rfl
  rw [← ok_bind (a := ()) (f := fun _ => readOf is), ← hlist']
  unfold read readOf
  refine (reads_whole _).bind fun _ => ?_
  refine hitem 0 toU256 fun nonce => ?_
  refine hitem 1 toU256 fun gasPrice => ?_
  refine hitem 2 toU256 fun gas => ?_
  refine hitem 3 readReceiver fun receiver => ?_
  refine hitem 4 toU256 fun value => ?_
  refine hitem 5 (fun d => require (isData d) _) fun _ => ?_
  refine hitem 5 (fun d => toBytes d) fun data => ?_
  refine hitem 6 toInt32 fun v => ?_
  refine hitem 7 toU256 fun r => ?_
  refine hitem 8 toU256 fun s => ?_
  refine (Reads.lift _).bind fun signature => ?_
  have hcount : Reads d is (whole itemCount) _ := reads_whole itemCount
  have hend := hcount.bind fun n =>
    (Reads.lift (require (n ≤ 9) (.invalidTransactionFormat "too many fields in the transaction RLP"))).bind fun _ =>
      Reads.pure ({ type := receiver.1, nonce, gasPrice, gas, receiveAddress := receiver.2, value, data,
                    vrs := some signature.2, chainId := signature.1 } : TransactionBase)
  rw [hlist.itemCount hsplits, ok_bind] at hend
  exact hend

/-- Nothing is accepted but a transaction's items. -/
theorem readOf_eq_ok_iff (hsplits : Splits p is) : readOf is = .ok t ↔ ∃ i n sig, Spells is i n sig t := by
  have hitem : ∀ k, is.getD k [] = [] ∨ IsItem (is.getD k []) := fun k => (hsplits.getD k).imp And.left And.left
  have hint : ∀ k (v : U256), toU256 (is.getD k []) = .ok v ↔ is.getD k [] = nat v.toNat := fun k v =>
      toU256_eq_ok_iff (hitem k)
  have hint32 : ∀ k (v : Int), toInt32 (is.getD k []) = .ok v ↔ is.getD k [] = nat (toUnsigned v) ∧
      -2 ^ 31 ≤ v ∧ v < 2 ^ 31 :=
    fun k v => toInt32_eq_ok_iff (hitem k)
  simp only [readOf, bind_eq_ok_iff, hint, hint32, require_eq_ok_iff, decide_eq_true_eq, pure_eq]
  constructor
  · rintro ⟨nonce, h0, gasPrice, h1, gas, h2, receiver, h3, value, h4, _, h5, data, h5', v, ⟨h6, hv⟩, r, h7, s, h8,
      ⟨chainId, sig⟩, hsignature, _, hlen, ht⟩
    cases ht
    have hlen' : is.length = 9 := by
      rcases hsplits.getD 8 with ⟨hnil, -⟩ | ⟨-, hlt⟩
      · rw [h8] at hnil
        exact absurd hnil (isItem_nat s.isLt).ne_nil
      · omega
    have hbetween : ∀ k < 9, IsItem (is.getD k []) := fun k hk => by
      rcases hsplits.getD k with ⟨-, hle⟩ | ⟨hi, -⟩
      · omega
      · exact hi
    obtain ⟨hdata, hdata'⟩ := toBytes_of_isData (hbetween 5 (by decide)) h5 h5'
    obtain ⟨rfl, rfl, -⟩ := encodedV_of_readSignature (t := { chainId, vrs := some sig }) hsignature rfl
    refine ⟨is.getD 3 [], v, sig, ?_, h3, hbetween 3 (by decide), hdata', hv, hsignature, rfl, rfl, rfl⟩
    have htake := take_eq_map_getD hlen'.ge
    rw [List.take_of_length_le hlen'.le] at htake
    rw [htake]
    change [is.getD 0 [], is.getD 1 [], is.getD 2 [], is.getD 3 [], is.getD 4 [], is.getD 5 [], is.getD 6 [], is.getD 7 [],
      is.getD 8 []] = _
    rw [h0, h1, h2, h4, hdata, h6, h7, h8]
    rfl
  · rintro ⟨i, n, sig, hspells⟩
    obtain rfl := hspells.items
    obtain ⟨hhash, hsender⟩ := hspells.memos
    refine ⟨t.nonce, rfl, t.gasPrice, rfl, t.gas, rfl, (t.type, t.receiveAddress), hspells.receiver, t.value, rfl, (),
      isData_bytes hspells.data, t.data, toBytes_bytes hspells.data, n, ⟨rfl, hspells.v⟩, sig.r, rfl, sig.s, rfl,
      (t.chainId, sig), hspells.signature, (), le_rfl, ?_⟩
    have hvrs := hspells.vrs
    cases t
    cases hhash
    cases hsender
    cases hvrs
    rfl

/-! ### The receiver -/

theorem isEmpty_iff {i : Bytes} (h : IsItem i) : isEmpty i = true ↔ i = [0x80] ∨ i = [0xc0] := by
  constructor
  · intro hempty
    obtain ⟨x, d, rfl⟩ := List.exists_cons_of_ne_nil h.ne_nil
    have hsize := h.actualSize_append []
    rw [List.append_nil] at hsize
    have hone : actualSize (x :: d) = .ok 1 → d = [] := fun hone => by
      rw [hone, Except.ok.injEq, List.length_cons] at hsize
      exact List.length_eq_zero_iff.1 (by omega)
    simp only [isEmpty, isNull_cons, Bool.not_false, true_and, List.getD_cons_zero, decide_eq_true_eq] at hempty
    rcases hempty with rfl | rfl
    · rw [hone (Begins.string 0 d (by decide) nofun).actualSize]
      exact .inl rfl
    · rw [hone (Begins.list 0 d (by decide)).actualSize]
      exact .inr rfl
  · rintro (rfl | rfl) <;> rfl

theorem length_bytes_hash (a : FixedHash 20) : (bytes (hashBytes 20 a)).length = 21 := by
  have hlen : (hashBytes 20 a).length = 20 := BigEndian.length_toBytes 20 _
  rw [bytes_of_forall fun x hx => ?_, List.length_append, hlen]
  · rfl
  · rw [hx] at hlen
    exact absurd hlen (by simp)

theorem readReceiver_eq_ok_iff {i : Bytes} {type : TransactionType} {a : FixedHash 20} (h : IsItem i) :
    readReceiver i = .ok (type, a) ↔ type = .contractCreation ∧ a = 0 ∧ (i = [0x80] ∨ i = [0xc0]) ∨
      type = .messageCall ∧ i = bytes (hashBytes 20 a) := by
  rw [readReceiver]
  split
  · rename_i hempty
    have hi := (isEmpty_iff h).1 hempty
    constructor
    · intro hread
      cases hread
      exact .inl ⟨rfl, rfl, hi⟩
    · rintro (⟨htype, ha, -⟩ | ⟨-, hhash⟩)
      · rw [htype, ha]
        rfl
      · have hlen := length_bytes_hash a
        rw [← hhash] at hlen
        rcases hi with hi | hi <;> rw [hi] at hlen <;> exact absurd hlen (by decide)
  · rename_i hempty
    rw [isEmpty_iff h] at hempty
    have hsize : 20 < lengthLimit := by decide
    simp only [bind_eq_ok_iff, toFixedHash_eq_ok_iff hsize (.inr h), pure_eq, Except.ok.injEq,
      Prod.mk.injEq]
    constructor
    · rintro ⟨a, hi, rfl, rfl⟩
      exact .inr ⟨rfl, hi⟩
    · rintro (⟨-, -, hi⟩ | ⟨rfl, hi⟩)
      · exact absurd hi hempty
      · exact ⟨a, hi, rfl, rfl⟩

theorem isItem_receiver (t : TransactionBase) : IsItem (bytes t.receiver) := by
  refine .data _ ?_
  rw [receiver]
  split
  · rw [hashBytes, BigEndian.length_toBytes]
    decide
  · decide

theorem Spells.type_ne {i : Bytes} (h : Spells is i n sig t) : t.type ≠ .nullTransaction := by
  rcases (readReceiver_eq_ok_iff h.item).1 h.receiver with ⟨htype, -⟩ | ⟨htype, -⟩ <;> simp [htype]

/-- The items that are read are those that are written, if the receiver is not the empty list. -/
theorem Spells.eq_items_iff {i : Bytes} (h : Spells is i n sig t) : is = t.items sig ↔ i ≠ [0xc0] := by
  have hn := (encodedV_of_readSignature h.signature h.vrs).2.2
  have hiff : is = t.items sig ↔ i = bytes t.receiver := by
    rw [h.items, TransactionBase.items, hn]
    simp [itemsWith]
  rw [hiff, TransactionBase.receiver]
  rcases (readReceiver_eq_ok_iff h.item).1 h.receiver with ⟨htype, -, hi⟩ | ⟨htype, hi⟩
  · have hnil : bytes [] = [0x80] := rfl
    rw [htype, if_neg nofun, hnil]
    rcases hi with rfl | rfl <;> simp
  · have hlen := length_bytes_hash t.receiveAddress
    rw [htype, if_pos rfl]
    refine ⟨fun _ hc => ?_, fun _ => hi⟩
    rw [← hi, hc] at hlen
    exact absurd hlen (by decide)

/-! ### Accepting -/

theorem wp_read (r : RLP) :
    wp (read c .none) (fun _ _ => isList r.data = true ∧ ∃ n, itemCount r.data = .ok n) (fun _ _ => True) r := by
  have hitem : ∀ {α β : Type} (k : Nat) (conv : Bytes → Except Exn α) (f : α → M β) (Q : β → RLP → Prop) (r₀ : RLP),
      r₀.data = r.data → (∀ a r', r'.data = r.data → wp (f a) Q (fun _ _ => True) r') →
      wp (item k >>= fun i => liftM (conv i.data) >>= f) Q (fun _ _ => True) r₀ := by
    intro α β k conv f Q r₀ hr₀ hf
    rw [wp_bind]
    refine wp_mono (KeepsData.item k r₀) (fun i r₁ hr₁ => ?_) fun _ _ _ => trivial
    rw [wp_bind]
    refine wp_mono (KeepsData.lift (conv i.data) r₁) (fun a r₂ hr₂ => ?_) fun _ _ _ => trivial
    exact hf a r₂ (hr₂.trans (hr₁.trans hr₀))
  have hlift : ∀ {α : Type} (x : Except Exn α) (Q : α → RLP → Prop) (r₀ : RLP), (∀ a, x = .ok a → Q a r₀) →
      wp (liftM x : M α) Q (fun _ _ => True) r₀ := by
    intro α x Q r₀ h
    cases hx : x with
    | ok a => exact h a hx
    | error e => trivial
  unfold read whole
  rw [wp_bind, wp_bind, wp_get]
  refine hlift _ _ _ fun _ hlist => ?_
  rw [require_eq_ok_iff] at hlist
  refine hitem 0 toU256 _ _ _ rfl fun _ _ h => hitem 1 toU256 _ _ _ h fun _ _ h => hitem 2 toU256 _ _ _ h fun _ _ h => ?_
  refine hitem 3 readReceiver _ _ _ h fun _ _ h => hitem 4 toU256 _ _ _ h fun _ _ h => ?_
  refine hitem 5 (fun d => require (isData d) _) _ _ _ h fun _ _ h => hitem 5 (fun d => toBytes d) _ _ _ h fun _ _ h => ?_
  refine hitem 6 toInt32 _ _ _ h fun _ _ h => hitem 7 toU256 _ _ _ h fun _ _ h => hitem 8 toU256 _ _ _ h fun _ r' h => ?_
  rw [wp_bind]
  refine hlift _ _ _ fun _ _ => ?_
  rw [wp_bind]
  refine hlift _ _ _ fun _ _ => ?_
  rw [wp_bind, wp_bind, wp_get]
  refine hlift _ _ _ fun n hn => ?_
  rw [wp_bind]
  exact hlift _ _ _ fun _ _ => ⟨hlist, n, h ▸ hn⟩

theorem ofRlp_eq_ok_iff : ofRlp c d .none = .ok t ↔
    ∃ p is, IsListOf d p ∧ Splits p is ∧ ∃ i n sig, Spells is i n sig t := by
  constructor
  · intro haccept
    obtain ⟨r, hr, heval⟩ := bind_eq_ok_iff.1 haccept
    obtain ⟨rfl, hd⟩ := mk'_veryStrict.1 hr
    obtain ⟨hlist, n, hn⟩ : isList d = true ∧ ∃ n, itemCount d = .ok n := by
      have hwp := wp_read (c := c) (RLP.of d)
      cases hr : read c .none (RLP.of d) with
      | ok t r =>
        have hboth := wp_ok hwp hr
        exact hboth
      | error e r =>
        rw [eval, hr] at heval
        cases heval
    obtain ⟨p, hp⟩ := isListOf_of_mk' hr hlist
    obtain ⟨is, hsplits, rfl⟩ := hp.splits_of_itemCount hn
    rw [(reads_read hp hsplits).eval] at heval
    exact ⟨p, is, hp, hsplits, (readOf_eq_ok_iff hsplits).1 heval⟩
  · rintro ⟨p, is, hp, hsplits, hspells⟩
    have hr : RLP.mk' d = .ok (RLP.of d) := mk'_veryStrict.2 ⟨rfl, .inr (hp.eq ▸ .list p hp.lt)⟩
    rw [ofRlp, hr, ok_bind, (reads_read hp hsplits).eval]
    exact (readOf_eq_ok_iff hsplits).2 hspells

/-! ### Writing the items -/

theorem appends_items (sig : SignatureStruct) (hdata : t.data.length < 2 ^ 64) :
    Appends (t.streamRLPFields ++
      [.appendInt (toUnsigned (t.encodedV sig)), .appendInt sig.r.toNat, .appendInt sig.s.toNat]) (t.items sig) := by
  have hint : ∀ (v : U256) s, (Op.appendInt v.toNat).run s =
      (s.push (nat v.toNat)).noteAppended := fun v => appends_nat v.isLt
  have hreceiver : t.receiver.length < 2 ^ 64 := by
    rw [receiver]
    split
    · rw [hashBytes, BigEndian.length_toBytes]
      decide
    · decide
  refine .cons (hint _) (.cons (hint _) (.cons (hint _) (.cons (appends_bytes hreceiver) ?_)))
  refine .cons (hint _) (.cons (appends_bytes hdata) (.cons (appends_nat ((toUnsigned_lt _).trans (by decide))) ?_))
  exact .cons (hint _) (.cons (hint _) .nil)

theorem out_withSignature (htype : t.type ≠ .nullTransaction) (hvrs : t.vrs = some sig) :
    t.out .withSignature = run (.appendList (t.items sig).length :: (t.streamRLPFields ++
      [.appendInt (toUnsigned (t.encodedV sig)), .appendInt sig.r.toNat, .appendInt sig.s.toNat])) {} >>=
        RLPStream.output := by
  rw [out, streamRLP, if_neg htype, hvrs, ← List.cons_append, run_append]
  rfl

theorem length_data_le (sig : SignatureStruct) : t.data.length ≤ (t.items sig).flatten.length := by
  have hle := length_bytes_le t.data
  simp only [items, itemsWith, List.flatten_cons, List.length_append]
  omega

theorem out_eq_list (htype : t.type ≠ .nullTransaction) (hvrs : t.vrs = some sig)
    (hlen : (t.items sig).flatten.length < lengthLimit) : t.out .withSignature = .ok (list (t.items sig)) := by
  rw [out_withSignature htype hvrs]
  exact output_of_appends (appends_items sig (((length_data_le sig).trans_lt hlen).trans lengthLimit_lt)) nofun hlen

theorem isListOf_of_out (htype : t.type ≠ .nullTransaction) (hvrs : t.vrs = some sig)
    (hitem : IsItem d) (hout : t.out .withSignature = .ok d) : IsListOf d (t.items sig).flatten := by
  rw [out_withSignature htype hvrs] at hout
  have hdata : t.data.length < 2 ^ 64 := lt_of_output (by simp [streamRLPFields]) hitem hout
  exact isListOf_of_output (appends_items sig hdata) nofun hitem hout

/-! ### Round trips -/

/-- A transaction that is accepted, with its items. -/
theorem exists_spells (haccept : ofRlp c d .none = .ok t) : ∃ p is i n sig, IsListOf d p ∧ Splits p is ∧ Spells is i n sig t ∧
    eval (item 3) (RLP.of d) = .ok (RLP.of i) := by
  obtain ⟨p, is, hp, hsplits, i, n, sig, hspells⟩ := ofRlp_eq_ok_iff.1 haccept
  refine ⟨p, is, i, n, sig, hp, hsplits, hspells, ?_⟩
  rw [(Reads.item hp.payload hsplits (hp.length_lt hsplits) 3).eval, hspells.items]
  rfl

theorem splits_items (hlen : (t.items sig).flatten.length < lengthLimit) :
    Splits (t.items sig).flatten (t.items sig) :=
  ⟨rfl, isItem_itemsWith t.isItem_receiver ((length_data_le sig).trans_lt hlen)⟩

/-- The bytes are written again if and only if the receiver is not the empty list. -/
theorem out_eq_iff (haccept : ofRlp c d .none = .ok t) :
    t.out .withSignature = .ok d ↔ ∀ r, eval (item 3) (RLP.of d) = .ok r → r.data ≠ [0xc0] := by
  obtain ⟨p, is, i, n, sig, hp, hsplits, hspells, hitem⟩ := exists_spells haccept
  have hcond : (∀ r, eval (item 3) (RLP.of d) = .ok r → r.data ≠ [0xc0]) ↔ i ≠ [0xc0] := by
    simp only [hitem, Except.ok.injEq, forall_eq']
  rw [hcond, ← hspells.eq_items_iff]
  constructor
  · intro hout
    have hlist := isListOf_of_out hspells.type_ne hspells.vrs (hp.eq ▸ .list p hp.lt) hout
    have hpayload : p = (t.items sig).flatten := Except.ok.inj (hp.payload.symm.trans hlist.payload)
    exact hsplits.unique (hpayload ▸ splits_items hlist.lt)
  · rintro his
    have hlen : (t.items sig).flatten.length < lengthLimit := by
      rw [← his, ← hsplits.eq]
      exact hp.lt
    rw [out_eq_list hspells.type_ne hspells.vrs hlen, hp.eq, hsplits.eq, ← his]
    rfl

theorem sha3_withSignature (hmemo : t.hashWith = 0) (hout : t.out .withSignature = .ok d) :
    t.sha3 c .withSignature = .ok (c.sha3 d, { t with hashWith := c.sha3 d }) := by
  rw [sha3, if_neg (not_not.2 hmemo), hout]
  rfl

/-- The other spelling of no receiver. -/
theorem ofRlp_other {i i' : Bytes} (hp : IsListOf d p) (hsplits : Splits p is)
    (hspells : Spells is i n sig t) (hi : i = [0x80] ∧ i' = [0xc0] ∨ i = [0xc0] ∧ i' = [0x80]) :
    ∃ d', ofRlp c d' .none = .ok t ∧ d' ≠ d := by
  have hitem' : IsItem i' := by
    rcases hi with ⟨-, rfl⟩ | ⟨-, rfl⟩
    · exact .list [] (by decide)
    · exact .data [] (by decide)
  have hreceiver : readReceiver i' = readReceiver i := by
    rcases hi with ⟨rfl, rfl⟩ | ⟨rfl, rfl⟩ <;> rfl
  have hlen : (t.itemsWith i' n sig).flatten.length = (t.itemsWith i n sig).flatten.length := by
    rcases hi with ⟨rfl, rfl⟩ | ⟨rfl, rfl⟩ <;> simp [itemsWith]
  have hlt : (t.itemsWith i' n sig).flatten.length < lengthLimit := by
    rw [hlen, ← hspells.items, ← hsplits.eq]
    exact hp.lt
  have hsplits' : Splits (t.itemsWith i' n sig).flatten (t.itemsWith i' n sig) :=
    ⟨rfl, isItem_itemsWith hitem' hspells.data⟩
  have hp' : IsListOf (list (t.itemsWith i' n sig)) (t.itemsWith i' n sig).flatten := ⟨rfl, hlt⟩
  have hspells' : Spells (t.itemsWith i' n sig) i' n sig t :=
    { hspells with items := rfl, receiver := hreceiver ▸ hspells.receiver, item := hitem' }
  refine ⟨_, ofRlp_eq_ok_iff.2 ⟨_, _, hp', hsplits', i', n, sig, hspells'⟩, fun heq => ?_⟩
  have hpayload : p = (t.itemsWith i' n sig).flatten := Except.ok.inj (hp.payload.symm.trans (heq ▸ hp'.payload))
  have his := hsplits.unique (hpayload ▸ hsplits')
  rw [hspells.items] at his
  simp only [itemsWith, List.cons.injEq, true_and, and_true] at his
  rcases hi with ⟨rfl, rfl⟩ | ⟨rfl, rfl⟩ <;> simp at his

/-- Message calls have one spelling, creations two. -/
theorem unique_iff (haccept : ofRlp c d .none = .ok t) : (∀ d', ofRlp c d' .none = .ok t → d' = d) ↔
    ∀ r, eval (item 3) (RLP.of d) = .ok r → isEmpty r.data = false := by
  obtain ⟨p, is, i, n, sig, hp, hsplits, hspells, hitem⟩ := exists_spells haccept
  have hcond : (∀ r, eval (item 3) (RLP.of d) = .ok r → isEmpty r.data = false) ↔ ¬(i = [0x80] ∨ i = [0xc0]) := by
    simp only [hitem, Except.ok.injEq, forall_eq', ← isEmpty_iff hspells.item, Bool.not_eq_true]
  rw [hcond]
  constructor
  · rintro hunique (hi | hi)
    · obtain ⟨d', haccept', hne⟩ := ofRlp_other (c := c) hp hsplits hspells (.inl ⟨hi, rfl⟩)
      exact hne (hunique d' haccept')
    · obtain ⟨d', haccept', hne⟩ := ofRlp_other (c := c) hp hsplits hspells (.inr ⟨hi, rfl⟩)
      exact hne (hunique d' haccept')
  · intro hne d' haccept'
    obtain ⟨p', is', i', n', sig', hp', hsplits', hspells', -⟩ := exists_spells haccept'
    have hvrs : sig = sig' := Option.some.inj (hspells.vrs.symm.trans hspells'.vrs)
    subst hvrs
    have hcall : t.type = .messageCall := by
      rcases (readReceiver_eq_ok_iff hspells.item).1 hspells.receiver with ⟨-, -, hi⟩ | ⟨hcall, -⟩
      · exact absurd hi hne
      · exact hcall
    have hhash : ∀ {is : List Bytes} {i : Bytes} {n : Int}, Spells is i n sig t → i ≠ [0xc0] := by
      intro is i n h
      rcases (readReceiver_eq_ok_iff h.item).1 h.receiver with ⟨hcreation, -⟩ | ⟨-, hi⟩
      · rw [hcall] at hcreation
        cases hcreation
      · intro hc
        have hlen := length_bytes_hash t.receiveAddress
        rw [← hi, hc] at hlen
        exact absurd hlen (by decide)
    have his := hspells.eq_items_iff.2 (hhash hspells)
    have his' := hspells'.eq_items_iff.2 (hhash hspells')
    rw [hp'.eq, hp.eq, hsplits'.eq, hsplits.eq, his, his']

/-- The encoding of a transaction is read as the transaction again, but for the memos. -/
def ReadBack (c : Crypto) (t : TransactionBase) : Prop :=
  ∃ b t', t.out .withSignature = .ok b ∧ ofRlp c b .none = .ok t' ∧
    { t' with hashWith := t.hashWith, senderRaw := t.senderRaw } = t ∧
    (t'.sha3 c .withoutSignature).map Prod.fst = (t.sha3 c .withoutSignature).map Prod.fst

theorem sign_eq_ok {secret : FixedHash 32} {t' : TransactionBase} (h : t.sign c secret = .ok t') :
    t' = t ∨ ∃ sig, sig.isValid = true ∧ t' = { t with vrs := some sig } := by
  obtain ⟨hash, -, h⟩ := bind_eq_ok_iff.1 h
  rw [pure_eq, Except.ok.injEq] at h
  split at h
  · rename_i hvalid
    exact .inr ⟨_, hvalid, h.symm⟩
  · exact .inl h.symm

/-- What is built has the chain id of a new transaction, and no signature but a valid one. -/
theorem Built.signed (h : Built c t) (hvrs : t.vrs = some sig) :
    sig.isValid = true ∧ t.chainId = -4 ∧ t.type ≠ .nullTransaction := by
  have hsign : ∀ {t₀ : TransactionBase} {secret : FixedHash 32}, t₀.vrs = none → t₀.chainId = -4 →
      t₀.type ≠ .nullTransaction → t₀.sign c secret = .ok t →
      sig.isValid = true ∧ t.chainId = -4 ∧ t.type ≠ .nullTransaction := by
    intro t₀ secret hnone hchain htype hsign
    rcases sign_eq_ok hsign with rfl | ⟨sig', hvalid, rfl⟩
    · rw [hnone] at hvrs
      cases hvrs
    · cases hvrs
      exact ⟨hvalid, hchain, htype⟩
  cases h with
  | @skeleton ts secret _ h =>
    rw [ofSkeleton] at h
    have htype : (if ts.creation then TransactionType.contractCreation else .messageCall) ≠ .nullTransaction := by
      split <;> simp
    split at h
    · exact hsign rfl rfl htype h
    · cases h
      cases hvrs
  | signedCall h => exact hsign rfl rfl (by simp [TransactionBase.unsignedCall]) h
  | signedCreation h => exact hsign rfl rfl (by simp [TransactionBase.unsignedCreation]) h
  | unsignedCall => cases hvrs
  | unsignedCreation => cases hvrs

theorem sha3_withoutSignature (t : TransactionBase) :
    (t.sha3 c .withoutSignature).map Prod.fst = (t.out .withoutSignature (0 < t.chainId)).map c.sha3 := by
  rw [sha3]
  cases t.out .withoutSignature (0 < t.chainId) <;> rfl

/-- The items of a signed transaction are accepted. -/
theorem ofRlp_list_items (hvrs : t.vrs = some sig) (hvalid : sig.isValid = true)
    (hchain : t.chainId = -4) (htype : t.type ≠ .nullTransaction)
    (haddress : t.type = .contractCreation → t.receiveAddress = 0) (hlen : (t.items sig).flatten.length < lengthLimit) :
    ofRlp c (list (t.items sig)) .none = .ok { t with hashWith := 0, senderRaw := 0 } := by
  have hsignature : readSignature .none (sig.v.toNat + (-4 * 2 + 35)) sig.r sig.s = .ok (t.chainId, sig) := by
    rw [hchain]
    exact readSignature_of_isValid hvalid
  have hv : t.encodedV sig = sig.v.toNat + (-4 * 2 + 35) := (encodedV_of_readSignature hsignature hvrs).2.2
  have hreceiver : readReceiver (bytes t.receiver) = .ok (t.type, t.receiveAddress) := by
    rw [readReceiver_eq_ok_iff t.isItem_receiver, receiver]
    cases hty : t.type with
    | nullTransaction => exact absurd hty htype
    | contractCreation => exact .inl ⟨rfl, haddress hty, .inl rfl⟩
    | messageCall => exact .inr ⟨rfl, rfl⟩
  have hspells : Spells (t.items sig) (bytes t.receiver) (t.encodedV sig) sig { t with hashWith := 0, senderRaw := 0 } :=
    { items := rfl
      receiver := hreceiver
      item := t.isItem_receiver
      data := (length_data_le sig).trans_lt hlen
      v := by
        have hlt := sig.v.toNat_lt
        rw [hv]
        omega
      signature := by
        rw [hv]
        exact hsignature
      vrs := hvrs
      memos := ⟨rfl, rfl⟩ }
  exact ofRlp_eq_ok_iff.2 ⟨_, _, ⟨rfl, hlen⟩, splits_items hlen, _, _, _, hspells⟩

theorem readBack_iff (hvrs : t.vrs = some sig) (hvalid : sig.isValid = true) (hchain : t.chainId = -4)
    (htype : t.type ≠ .nullTransaction) : ReadBack c t ↔
      (t.type = .contractCreation → t.receiveAddress = 0) ∧ (t.items sig).flatten.length < lengthLimit := by
  constructor
  · rintro ⟨b, t', hout, haccept, heq, -⟩
    obtain ⟨p, is, i, n, sig', hp, -, hspells, -⟩ := exists_spells haccept
    refine ⟨fun hcreation => ?_, (isListOf_of_out htype hvrs (hp.eq ▸ .list p hp.lt) hout).lt⟩
    have htype' : t'.type = t.type := by rw [← heq]
    have haddress : t'.receiveAddress = t.receiveAddress := by rw [← heq]
    rcases (readReceiver_eq_ok_iff hspells.item).1 hspells.receiver with ⟨-, hzero, -⟩ | ⟨hcall, -⟩
    · rw [← haddress, hzero]
    · rw [htype', hcreation] at hcall
      cases hcall
  · rintro ⟨haddress, hlen⟩
    refine ⟨_, _, out_eq_list htype hvrs hlen, ofRlp_list_items hvrs hvalid hchain htype haddress hlen, rfl, ?_⟩
    rw [sha3_withoutSignature, sha3_withoutSignature]
    rfl

/-- Transactions survive encoding, and have one spelling, if they are not creations. -/
theorem written_as_read (c : Crypto) :
    (∀ b t, ofRlp c b .none = .ok t →
      (t.out .withSignature = .ok b ∧ (∃ t', t.sha3 c .withSignature = .ok (c.sha3 b, t')) ↔
        ∀ r, eval (item 3) (RLP.of b) = .ok r → r.data ≠ [0xc0])) ∧
    (∀ b t, ofRlp c b .none = .ok t →
      ((∀ b', ofRlp c b' .none = .ok t → b' = b) ↔
        ∀ r, eval (item 3) (RLP.of b) = .ok r → isEmpty r.data = false)) ∧
    (∀ t sig, Built c t → t.vrs = some sig →
      (ReadBack c t ↔ (t.type = .contractCreation → t.receiveAddress = 0) ∧ (t.items sig).flatten.length < lengthLimit)) := by
  refine ⟨fun b t haccept => ?_, fun b t haccept => unique_iff haccept, fun t sig hbuilt hvrs => ?_⟩
  · rw [← out_eq_iff haccept]
    obtain ⟨p, is, i, n, sig, hp, hsplits, hspells, hitem⟩ := exists_spells haccept
    exact ⟨And.left, fun hout => ⟨hout, _, sha3_withSignature hspells.memos.1 hout⟩⟩
  · obtain ⟨hvalid, hchain, htype⟩ := hbuilt.signed hvrs
    exact readBack_iff hvrs hvalid hchain htype

/-- A library that signs everything with ones. -/
def ones : Crypto where
  sha3 _ := 0
  sign _ _ := ⟨1, 1, 1⟩
  recover _ _ := 0

/-- A message call, signed. -/
def call : TransactionBase := { unsignedCall 0 0 0 7 [] 0 with vrs := some ⟨1, 1, 1⟩ }

theorem written_as_read_call : ReadBack ones call ∧ call.out .withSignature = .ok (list (call.items ⟨1, 1, 1⟩)) ∧
    ∀ b, ofRlp ones b .none = .ok call → b = list (call.items ⟨1, 1, 1⟩) := by
  have hsign : (unsignedCall 0 0 0 7 [] 0).sign ones 1 = .ok call := rfl
  have hbuilt : Built ones call := .signedCall hsign
  have hlen : (call.items ⟨1, 1, 1⟩).flatten.length < lengthLimit := by decide +kernel
  have haccept : ofRlp ones (list (call.items ⟨1, 1, 1⟩)) .none = .ok call :=
    ofRlp_list_items rfl (by decide) rfl nofun nofun hlen
  have hitem : ∀ r, eval (item 3) (RLP.of (list (call.items ⟨1, 1, 1⟩))) = .ok r → isEmpty r.data = false := by
    have hlist : IsListOf (list (call.items ⟨1, 1, 1⟩)) (call.items ⟨1, 1, 1⟩).flatten := ⟨rfl, hlen⟩
    rw [(Reads.item hlist.payload (splits_items hlen) (by decide) 3).eval]
    rintro _ ⟨⟩
    decide
  refine ⟨((written_as_read ones).2.2 _ _ hbuilt rfl).2 ⟨nofun, hlen⟩, ?_, ((written_as_read ones).2.1 _ _ haccept).2 hitem⟩
  refine (((written_as_read ones).1 _ _ haccept).2 fun r hr hlist => ?_).1
  have hempty := hitem r hr
  rw [hlist] at hempty
  cases hempty

/-- A creation, signed. -/
def creation : TransactionBase := { unsignedCreation 0 0 0 [] 0 with vrs := some ⟨1, 1, 1⟩ }

theorem not_written_as_read : ¬ ∀ c : Crypto,
    (∀ b t, ofRlp c b .none = .ok t →
      t.out .withSignature = .ok b ∧ (∃ t', t.sha3 c .withSignature = .ok (c.sha3 b, t')) ∧
        ∀ b', ofRlp c b' .none = .ok t → b' = b) ∧
    (∀ t sig, Built c t → t.vrs = some sig → ReadBack c t) := by
  intro hclaim
  have hread : (ofRlp ones [0xc9, 0x80, 0x80, 0x80, 0xc0, 0x80, 0x80, 28, 1, 1] .none).toOption = some creation := by
    decide +kernel
  cases haccept : ofRlp ones [0xc9, 0x80, 0x80, 0x80, 0xc0, 0x80, 0x80, 28, 1, 1] .none with
  | error e =>
    rw [haccept] at hread
    cases hread
  | ok t =>
    have hout := ((hclaim ones).1 _ _ haccept).1
    rw [haccept] at hread
    cases hread
    have hout' : (creation.out .withSignature).toOption = some [0xc9, 0x80, 0x80, 0x80, 0x80, 0x80, 0x80, 28, 1, 1] := by
      decide +kernel
    rw [hout] at hout'
    cases hout'

end TransactionBase

end Kmdx.Rlp
