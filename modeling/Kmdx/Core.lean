import Mathlib.Data.BitVec
import Mathlib.Data.List.AList
import Mathlib.Data.Nat.Digits.Defs
import Kmdx.Lib.BigEndian
import Kmdx.Lib.Wp

/-!
# Words, digests and exceptions (`libdevcore`, `libwingcore/Exceptions.h`)

`u256` and `Address` are bit vectors, so arithmetic wraps as it does in the source. An `h256` that
is a SHA3 digest (of a piece of code, of a trie) is a value of a type `H` with the hash functions of
`Digest H`: nothing computes with the bits of such a digest, and over an arbitrary `H` the usual
assumption that `sha3` is injective can be met.
-/

namespace Kmdx

abbrev U256 := BitVec 256

abbrev Address := BitVec 160

abbrev Byte := UInt8

abbrev Bytes := List Byte

/-- For the numerals of `Fin 256` -/
instance neZeroByte : NeZero 256 := ⟨by decide⟩

/-- `Invalid256` -/
def invalid256 : U256 := ~~~0

/-- `MaxAddress` -/
def maxAddress : Address := ~~~0

/-- The content of a storage trie. A slot that is not in the trie reads as 0, and 0 is never stored. -/
abbrev StorageTrie := U256 → U256

/-- An account as the state trie stores it (the RLP list of four). -/
structure AccountRlp (H : Type) where
  nonce : U256
  balance : U256
  storageRoot : H
  codeHash : H

/-- The content of a state trie. -/
abbrev StateTrie (H : Type) := Address → Option (AccountRlp H)

/-- SHA3 of a byte string, and the root hash of a trie as a function of its content. -/
class Digest (H : Type) where
  decEq : DecidableEq H
  sha3 : Bytes → H
  /-- `u256(h256)` -/
  toU256 : H → U256
  storageRoot : StorageTrie → H
  stateRoot : StateTrie H → H

instance {H : Type} [Digest H] : DecidableEq H := Digest.decEq

export Digest (sha3)

/-- `EmptySHA3` -/
def emptySHA3 {H : Type} [Digest H] : H := sha3 []

/-- `EmptyTrie` -/
def emptyTrie {H : Type} [Digest H] : H := Digest.storageRoot fun _ => 0

/-- Digests that remember what they are the digest of, so no two collide. -/
inductive PerfectDigest
  | code (code : Bytes)
  | storage (trie : StorageTrie)
  | state (trie : Address → Option (AccountRlp PerfectDigest))

noncomputable instance : Digest PerfectDigest where
  decEq := Classical.decEq _
  sha3 := .code
  toU256
    | .code code => BitVec.ofNat 256 (BigEndian.ofBytes code)
    | _ => 0
  storageRoot := .storage
  stateRoot := .state

theorem PerfectDigest.sha3_injective : Function.Injective (sha3 : Bytes → PerfectDigest) :=
  fun _ _ h => PerfectDigest.code.inj h

theorem PerfectDigest.storageRoot_injective :
    Function.Injective (Digest.storageRoot : StorageTrie → PerfectDigest) :=
  fun _ _ h => PerfectDigest.storage.inj h

/-! ### RLP (`libdevcore/RLP.h`) -/

namespace Rlp

/-- `toBigEndian` without leading zeros. -/
def compact (n : Nat) : Bytes := ((Nat.digits 256 n).map UInt8.ofNat).reverse

/-- The head of a string (`offset` 0x80) or a list (`offset` 0xc0) of `len` bytes. -/
def head (offset len : Nat) : Bytes :=
  if len < 56 then [UInt8.ofNat (offset + len)]
  else UInt8.ofNat (offset + 55 + (compact len).length) :: compact len

/-- `RLPStream << bytes` -/
def bytes (b : Bytes) : Bytes :=
  match b with
  | [x] => if x < 0x80 then [x] else head 0x80 1 ++ [x]
  | b => head 0x80 b.length ++ b

/-- `RLPStream << bigint` -/
def nat (n : Nat) : Bytes := bytes (compact n)

/-- `RLPStream << Address` -/
def address (a : Address) : Bytes := bytes (BigEndian.toBytes 20 a.toNat)

/-- `rlpList` of items that are encoded already. -/
def list (items : List Bytes) : Bytes := head 0xc0 items.flatten.length ++ items.flatten

end Rlp

/-- `right160(h256)` -/
def right160 {H : Type} [Digest H] (h : H) : Address := (Digest.toU256 h).truncate 160

/-- What a call can end with other than a return. -/
inductive Exn
  /-- `assert` -/
  | assertion
  /-- `exit(1)`, or an exception that leaves a `noexcept` function -/
  | terminate
  | invalidAccountStartNonceInState
  | notEnoughCash
  | valueTooLarge
  | invalidSignature
  | transactionIsUnsigned
  | invalidZeroSignatureTransaction
  | outOfGasIntrinsic
  | blockGasLimitReached
  | invalidNonce
  | internalVMError
  | invalidOperationOnSealedBlock
  | invalidParentHash
  | invalidReceiptsStateRoot
  | invalidLogBloom
  | tooManyUncles
  | uncleInChain
  | unknownParent
  | uncleTooOld
  | uncleIsBrother
  | uncleParentNotInChain
  | invalidStateRoot
  | invalidGasUsed
  /-- `std::system_error` with its message -/
  | systemError (what : String)
  /-- Not in the source: a monitored run was stopped. -/
  | monitor
deriving DecidableEq

end Kmdx
