import Kmdx.Lib.Runs
import Kmdx.Rlp.BlockHeader

/-!
# The memoised hashes of a header (`libwingcore/BlockHeader.h`, `BlockHeader.cpp`)

All that changes a header clears both memos, but `populateFromParent`: it leaves them, and takes the parent's memo for its
hash. So the hashes are those of the encodings exactly as long as it is called with a parent that has a memo and for a header
that has none (`memos_right_iff`).
-/

namespace Kmdx.Rlp.BlockHeader

open Wp ExceptRules

variable {sha3 : Bytes → FixedHash 32} {h h' : BlockHeader} {d : Bytes}

/-! ### What changes a header -/

def setParentHash (v : FixedHash 32) (h : BlockHeader) : BlockHeader := { h with parentHash := v }.noteDirty

def setSha3Uncles (v : FixedHash 32) (h : BlockHeader) : BlockHeader := { h with sha3Uncles := v }.noteDirty

def setTimestamp (v : BitVec 64) (h : BlockHeader) : BlockHeader := { h with timestamp := v }.noteDirty

def setAuthor (v : FixedHash 20) (h : BlockHeader) : BlockHeader := { h with author := v }.noteDirty

def setRoots (t r u s : FixedHash 32) (h : BlockHeader) : BlockHeader :=
  { h with transactionsRoot := t, receiptsRoot := r, stateRoot := s, sha3Uncles := u }.noteDirty

def setGasUsed (v : U256) (h : BlockHeader) : BlockHeader := { h with gasUsed := v }.noteDirty

def setNumber (v : BitVec 64) (h : BlockHeader) : BlockHeader := { h with number := v }.noteDirty

def setGasLimit (v : U256) (h : BlockHeader) : BlockHeader := { h with gasLimit := v }.noteDirty

def setExtraData (v : Bytes) (h : BlockHeader) : BlockHeader := { h with extraData := v }.noteDirty

def setLogBloom (v : FixedHash 256) (h : BlockHeader) : BlockHeader := { h with logBloom := v }.noteDirty

def setDifficulty (v : U256) (h : BlockHeader) : BlockHeader := { h with difficulty := v }.noteDirty

/-- `setSeal`, of a value that is RLP already. What is resized is filled with nothing. -/
def setSeal (offset : Nat) (value : Bytes) (h : BlockHeader) : BlockHeader :=
  let resized := if h.sealFields.length ≤ offset then h.sealFields ++ List.replicate (offset + 1 - h.sealFields.length) []
    else h.sealFields
  { h with sealFields := resized.set offset value }.noteDirty

/-- `clear`, with `EmptyListSHA3` and `EmptyTrie` -/
def clear (sha3 : Bytes → FixedHash 32) (h : BlockHeader) : BlockHeader :=
  { h with
    parentHash := 0
    sha3Uncles := sha3 [0xc0]
    author := 0
    stateRoot := sha3 [0x80]
    transactionsRoot := sha3 [0x80]
    receiptsRoot := sha3 [0x80]
    logBloom := 0
    difficulty := 0
    number := 0
    gasLimit := 0
    gasUsed := 0
    timestamp := -1
    extraData := []
    sealFields := [] }.noteDirty

def populateFromParent (h parent : BlockHeader) : BlockHeader :=
  { h with
    stateRoot := parent.stateRoot
    number := parent.number + 1
    parentHash := parent.hashRaw
    gasLimit := parent.gasLimit
    difficulty := parent.difficulty
    gasUsed := 0 }

inductive Setter
  | parentHash (v : FixedHash 32)
  | sha3Uncles (v : FixedHash 32)
  | timestamp (v : BitVec 64)
  | author (v : FixedHash 20)
  | roots (t r u s : FixedHash 32)
  | gasUsed (v : U256)
  | number (v : BitVec 64)
  | gasLimit (v : U256)
  | extraData (v : Bytes)
  | logBloom (v : FixedHash 256)
  | difficulty (v : U256)
  | sealField (offset : Nat) (value : Bytes)

def Setter.set : Setter → BlockHeader → BlockHeader
  | parentHash v => setParentHash v
  | sha3Uncles v => setSha3Uncles v
  | timestamp v => setTimestamp v
  | author v => setAuthor v
  | roots t r u s => setRoots t r u s
  | gasUsed v => setGasUsed v
  | number v => setNumber v
  | gasLimit v => setGasLimit v
  | extraData v => setExtraData v
  | logBloom v => setLogBloom v
  | difficulty v => setDifficulty v
  | sealField offset value => setSeal offset value

/-! ### Runs -/

/-- Headers, and which of them was populated last, with what its parent's hash was. -/
structure Headers where
  header : Nat → BlockHeader := fun _ => {}
  populated : Option (Nat × Except Exn (FixedHash 32)) := none

/-- What is done with headers. -/
inductive HeaderOp
  | construct (i : Nat)
  | decode (i : Nat) (block : Bytes) (bdt : BlockDataType)
  | set (i : Nat) (v : Setter)
  | populateFromParent (i parent : Nat)
  | clear (i : Nat)
  | copy (i other : Nat)
  | assign (i other : Nat)
  | hash (i : Nat) (inc : IncludeSeal)

def Headers.put (s : Headers) (i : Nat) (h : BlockHeader) : Headers where
  header := Function.update s.header i h

/-- The bytes that are decoded. -/
def headerData (block : Bytes) : BlockDataType → Except HeaderException Bytes
  | .blockData => do return (← extractHeader block).data
  | .headerData => do return (← (RLP.mk' block).mapError .rlp).data

/-- A header is decoded of its own encoding. -/
def step (sha3 : Bytes → FixedHash 32) (s : Headers) : HeaderOp → Option Headers
  | .construct i => some (s.put i {})
  | .decode i block bdt =>
    match headerData block bdt, mk' sha3 block bdt with
    | .ok d, .ok h =>
      match h.out .withSeal with
      | .ok own => if own = d then some (s.put i h) else none
      | .error _ => none
    | _, _ => none
  | .set i v => some (s.put i (v.set (s.header i)))
  | .populateFromParent i parent =>
    some { s.put i ((s.header i).populateFromParent (s.header parent)) with
      populated := some (i, ((s.header parent).hash sha3 .withSeal).map Prod.fst) }
  | .clear i => some (s.put i ((s.header i).clear sha3))
  | .copy i other => some (s.put i (s.header other))
  | .assign i other => some (s.put i (s.header other))
  | .hash i inc => some (match (s.header i).hash sha3 inc with
    | .ok (_, h) => s.put i h
    | .error _ => { s with populated := none })

/-- Each hash is that of the encoding. -/
def HashRight (sha3 : Bytes → FixedHash 32) (h : BlockHeader) : Prop :=
  ∀ inc, (h.hash sha3 inc).map Prod.fst = (h.out inc).map sha3

structure MemosRight (sha3 : Bytes → FixedHash 32) (s : Headers) : Prop where
  hash : ∀ i, HashRight sha3 (s.header i)
  parentHash : ∀ i v, s.populated = some (i, v) → v = .ok (s.header i).parentHash

/-- The parent has a memo, and the header that is populated has none; or they do not matter, as the hash is zero, or one with
that of the new encoding. -/
def Populates (sha3 : Bytes → FixedHash 32) (s : Headers) (o : HeaderOp) : Prop :=
  ∀ i parent, o = .populateFromParent i parent →
    ((s.header parent).hashRaw ≠ 0 ∨ ((s.header parent).out .withSeal).map sha3 = .ok 0) ∧
    ((s.header i).hashRaw = 0 ∨
      (((s.header i).populateFromParent (s.header parent)).out .withSeal).map sha3 = .ok (s.header i).hashRaw) ∧
    ((s.header i).hashWithoutRaw = 0 ∨
      (((s.header i).populateFromParent (s.header parent)).out .withoutSeal).map sha3 = .ok (s.header i).hashWithoutRaw)

/-! ### One header -/

theorem hash_withSeal : (h.hash sha3 .withSeal).map Prod.fst = if h.hashRaw =
    0 then (h.out .withSeal).map sha3 else .ok h.hashRaw := by
  rw [hash]
  split_ifs
  · cases h.out .withSeal <;> rfl
  · rfl

theorem hash_withoutSeal : (h.hash sha3 .withoutSeal).map Prod.fst =
    if h.hashWithoutRaw = 0 then (h.out .withoutSeal).map sha3 else .ok h.hashWithoutRaw := by
  rw [hash]
  split_ifs
  · cases h.out .withoutSeal <;> rfl
  · rfl

theorem memo_iff {memo : FixedHash 32} {x : Except Exn (FixedHash 32)} :
    (if memo = 0 then x else .ok memo) = x ↔ memo = 0 ∨ x = .ok memo := by
  split_ifs with hzero
  · exact iff_of_true rfl (.inl hzero)
  · rw [or_iff_right hzero, eq_comm]

theorem hashRight_iff : HashRight sha3 h ↔ (h.hashRaw = 0 ∨ (h.out .withSeal).map sha3 = .ok h.hashRaw) ∧
    (h.hashWithoutRaw = 0 ∨ (h.out .withoutSeal).map sha3 = .ok h.hashWithoutRaw) := by
  rw [← memo_iff, ← memo_iff, ← hash_withSeal, ← hash_withoutSeal]
  refine ⟨fun hright => ⟨hright _, hright _⟩, fun ⟨hwith, hwithout⟩ inc => ?_⟩
  cases inc with
  | withSeal => exact hwith
  | withoutSeal => exact hwithout
  | onlySeal =>
    rw [hash]
    cases h.out .onlySeal <;> rfl

theorem hashRight_of_dirty (hraw : h.hashRaw = 0) (hwithout : h.hashWithoutRaw = 0) : HashRight sha3 h :=
  hashRight_iff.2 ⟨.inl hraw, .inl hwithout⟩

theorem hashRight_set (v : Setter) (h : BlockHeader) : HashRight sha3 (v.set h) := by
  cases v <;> exact hashRight_of_dirty rfl rfl

/-- A query leaves what is encoded as it is, and remembers the hash of that. -/
theorem hashRight_hash {inc : IncludeSeal} {v : FixedHash 32} (hright : HashRight sha3 h)
    (hhash : h.hash sha3 inc = .ok (v, h')) : HashRight sha3 h' := by
  rw [hashRight_iff] at hright ⊢
  obtain ⟨hwith, hwithout⟩ := hright
  cases inc with
  | withSeal =>
    rw [hash] at hhash
    split_ifs at hhash
    · obtain ⟨b, hb, hh⟩ := bind_eq_ok_iff.1 hhash
      cases hh
      exact ⟨.inr (congrArg (Except.map sha3) hb), hwithout⟩
    · cases hhash
      exact ⟨hwith, hwithout⟩
  | withoutSeal =>
    rw [hash] at hhash
    split_ifs at hhash
    · obtain ⟨b, hb, hh⟩ := bind_eq_ok_iff.1 hhash
      cases hh
      exact ⟨hwith, .inr (congrArg (Except.map sha3) hb)⟩
    · cases hhash
      exact ⟨hwith, hwithout⟩
  | onlySeal =>
    rw [hash] at hhash
    obtain ⟨b, hb, hh⟩ := bind_eq_ok_iff.1 hhash
    cases hh
    exact ⟨hwith, hwithout⟩

theorem wp_bind_of_forall {ε σ α β : Type} {x : EStateM ε σ α} {f : α → EStateM ε σ β} {Q : β → σ → Prop} {r : σ}
    (h : ∀ a r', wp (f a) Q (fun _ _ => True) r') : wp (x >>= f) Q (fun _ _ => True) r := by
  rw [wp_bind, wp]
  cases x r with
  | ok a r' => exact h a r'
  | error e r' => trivial

/-- What is read has no memos. -/
theorem wp_populate_memos (r : RLP) : wp populate (fun h _ => h.hashWithoutRaw = 0) (fun _ _ => True) r := by
  unfold populate
  refine wp_bind_of_forall fun _ _ => wp_bind_of_forall fun _ _ => wp_bind_of_forall fun _ _ =>
    wp_bind_of_forall fun _ _ => ?_
  refine wp_bind_of_forall fun _ _ => wp_bind_of_forall fun _ _ => wp_bind_of_forall fun _ _ =>
    wp_bind_of_forall fun _ _ => ?_
  refine wp_bind_of_forall fun _ _ => wp_bind_of_forall fun _ _ => wp_bind_of_forall fun _ _ =>
    wp_bind_of_forall fun _ _ => ?_
  exact wp_bind_of_forall fun _ _ => wp_bind_of_forall fun _ _ => rfl

/-- A header that is decoded remembers the hash of what it is decoded of. -/
theorem mk'_memos {block : Bytes} {bdt : BlockDataType} (hdata : headerData block bdt = .ok d)
    (hh : mk' sha3 block bdt = .ok h) : h.hashRaw = sha3 d ∧ h.hashWithoutRaw = 0 := by
  obtain ⟨r, hd, h₀, hpopulate, hh₀⟩ : ∃ r : RLP, r.data = d ∧ ∃ h₀, eval populate r = .ok h₀ ∧
      { h₀ with hashRaw := sha3 r.data } = h := by
    cases bdt with
    | blockData =>
      obtain ⟨r, hr, hrest⟩ := bind_eq_ok_iff.1 hh
      obtain ⟨r', hr', hd⟩ := bind_eq_ok_iff.1 hdata
      obtain ⟨h₀, hpopulate, hh₀⟩ := bind_eq_ok_iff.1 hrest
      cases hr.symm.trans hr'
      exact ⟨r, Except.ok.inj hd, h₀, hpopulate, Except.ok.inj hh₀⟩
    | headerData =>
      obtain ⟨r, hr, hrest⟩ := bind_eq_ok_iff.1 hh
      obtain ⟨r', hr', hd⟩ := bind_eq_ok_iff.1 hdata
      obtain ⟨h₀, hpopulate, hh₀⟩ := bind_eq_ok_iff.1 hrest
      cases hr.symm.trans hr'
      exact ⟨r, Except.ok.inj hd, h₀, hpopulate, Except.ok.inj hh₀⟩
  cases hh₀
  refine ⟨congrArg sha3 hd, ?_⟩
  have hwp := wp_populate_memos r
  rw [eval] at hpopulate
  cases hrun : populate r with
  | ok h₁ r₁ =>
    rw [hrun] at hpopulate
    cases hpopulate
    exact (wp_ok hwp hrun :)
  | error e r₁ =>
    rw [hrun] at hpopulate
    cases hpopulate

/-! ### Steps -/

theorem header_put (s : Headers) (i : Nat) (h : BlockHeader) : (s.put i h).header = Function.update s.header i h := rfl

theorem memosRight_put {s : Headers} (hs : ∀ i, HashRight sha3 (s.header i)) (i : Nat) (hh : HashRight sha3 h) :
    MemosRight sha3 (s.put i h) where
  hash j := by
    by_cases hj : j = i
    · rw [header_put, hj, Function.update_self]
      exact hh
    · rw [header_put, Function.update_of_ne hj]
      exact hs j
  parentHash := nofun

/-- Any other header is as right as it was. -/
theorem hashRight_put_iff {s : Headers} (hs : ∀ i, HashRight sha3 (s.header i)) (i : Nat) :
    (∀ j, HashRight sha3 ((s.put i h).header j)) ↔ HashRight sha3 h := by
  constructor
  · intro hall
    have hi := hall i
    rwa [header_put, Function.update_self] at hi
  · exact fun hh => (memosRight_put hs i hh).hash

/-- What a population does. -/
theorem populateFromParent_memosRight {s : Headers} (hs : ∀ i, HashRight sha3 (s.header i)) (i parent : Nat) :
    MemosRight sha3 { s.put i ((s.header i).populateFromParent (s.header parent)) with
      populated := some (i, ((s.header parent).hash sha3 .withSeal).map Prod.fst) } ↔
    Populates sha3 s (.populateFromParent i parent) := by
  have hparent : ((s.header parent).hash sha3 .withSeal).map Prod.fst = .ok (s.header parent).hashRaw ↔
      (s.header parent).hashRaw ≠ 0 ∨ ((s.header parent).out .withSeal).map sha3 = .ok 0 := by
    rw [hash_withSeal]
    split_ifs with hzero
    · rw [hzero, or_iff_right (not_not.2 rfl)]
    · exact iff_of_true rfl (.inl hzero)
  have hchild : HashRight sha3 ((s.header i).populateFromParent (s.header parent)) ↔ _ := hashRight_iff
  constructor
  · rintro ⟨hhash, hpopulated⟩ i' parent' heq
    cases heq
    have hvalue := hpopulated i _ rfl
    dsimp only at hvalue
    rw [header_put, Function.update_self] at hvalue
    exact ⟨hparent.1 hvalue, hchild.1 ((hashRight_put_iff hs i).1 hhash)⟩
  · intro h
    obtain ⟨hvalue, hhash⟩ := h i parent rfl
    refine ⟨(hashRight_put_iff hs i).2 (hchild.2 hhash), fun j v hj => ?_⟩
    cases hj
    dsimp only
    rw [header_put, Function.update_self]
    exact hparent.2 hvalue

/-- Everything else leaves the hashes right. -/
theorem step_memosRight {s s' : Headers} {o : HeaderOp} (hs : MemosRight sha3 s) (h : step sha3 s o = some s') :
    MemosRight sha3 s' ↔ Populates sha3 s o := by
  have hother : (∀ i parent, o ≠ .populateFromParent i parent) → MemosRight sha3 s' →
      (MemosRight sha3 s' ↔ Populates sha3 s o) :=
    fun hne hright => iff_of_true hright fun i parent heq => absurd heq (hne i parent)
  cases o with
  | construct i =>
    cases h
    exact hother (fun _ _ => nofun) (memosRight_put hs.hash i (hashRight_of_dirty rfl rfl))
  | decode i block bdt =>
    rw [step] at h
    cases hdata : headerData block bdt with
    | error e =>
      rw [hdata] at h
      cases h
    | ok d =>
      cases hh : mk' sha3 block bdt with
      | error e =>
        rw [hdata, hh] at h
        cases h
      | ok decoded =>
        rw [hdata, hh] at h
        dsimp only at h
        cases hout : decoded.out .withSeal with
        | error e =>
          rw [hout] at h
          cases h
        | ok own =>
          rw [hout] at h
          obtain ⟨rfl, hs'⟩ := Option.ite_none_right_eq_some.1 h
          cases hs'
          obtain ⟨hraw, hwithout⟩ := mk'_memos hdata hh
          refine hother (fun _ _ => nofun) (memosRight_put hs.hash i (hashRight_iff.2 ⟨.inr ?_, .inl hwithout⟩))
          rw [hout, hraw]
          rfl
  | set i v =>
    cases h
    exact hother (fun _ _ => nofun) (memosRight_put hs.hash i (hashRight_set v _))
  | populateFromParent i parent =>
    cases h
    exact populateFromParent_memosRight hs.hash i parent
  | clear i =>
    cases h
    exact hother (fun _ _ => nofun) (memosRight_put hs.hash i (hashRight_of_dirty rfl rfl))
  | copy i other =>
    cases h
    exact hother (fun _ _ => nofun) (memosRight_put hs.hash i (hs.hash other))
  | assign i other =>
    cases h
    exact hother (fun _ _ => nofun) (memosRight_put hs.hash i (hs.hash other))
  | hash i inc =>
    rw [step] at h
    cases hh : (s.header i).hash sha3 inc with
    | error e =>
      rw [hh] at h
      cases h
      exact hother (fun _ _ => nofun) ⟨hs.hash, nofun⟩
    | ok p =>
      rw [hh] at h
      cases h
      exact hother (fun _ _ => nofun) (memosRight_put hs.hash i (hashRight_hash (hs.hash i) hh))

/-! ### Runs of operations -/

/-- In a run, the hashes are those of the encodings, and each parent hash is the parent's, as long as headers without memos
are populated from headers with one; no longer. -/
theorem memos_right_iff (sha3 : Bytes → FixedHash 32) (ops : List HeaderOp) :
    Runs.Always (step sha3) (MemosRight sha3) {} ops ↔ Runs.Each (step sha3) (Populates sha3) {} ops := by
  refine Runs.always_iff_each step_memosRight ⟨fun _ => hashRight_of_dirty rfl rfl, fun i v h => ?_⟩ ops
  cases h

/-- A header is populated from one whose hash nobody has asked for. -/
theorem not_memos_right : ¬∀ (sha3 : Bytes → FixedHash 32) (ops : List HeaderOp),
    Runs.Always (step sha3) (MemosRight sha3) {} ops := by
  intro h
  have hright := ((h (fun b => BitVec.ofNat _ b.length) [.populateFromParent 1 0]).2 _ rfl).parentHash 1 _ rfl
  have hok := congrArg (Except.map fun v => decide (v = 0)) hright
  revert hok
  decide +kernel

end Kmdx.Rlp.BlockHeader
