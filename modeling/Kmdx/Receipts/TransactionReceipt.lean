import Kmdx.Chain.BloomIndex
import Kmdx.Executive
import Kmdx.P2p.DevCrypto
import Kmdx.Rlp.TransactionBase

/-!
# Receipts (`libwing/TransactionReceipt`, `libwingcore/LogEntry`, `libwing/LogFilter`)

The first field of a receipt is a status code or the root of a state; what it is is told by its length. The bloom of a receipt
is made of its logs, and a filter asks the bloom before it looks at the logs. What is a set in the source is a list here,
whose order does not matter. The hash function is a parameter.
-/

namespace Kmdx

open Rlp Chain P2p

variable (sha3 : Bytes → FixedHash 32)

/-! ### Blooms (`libdevcore/FixedHash.h`) -/

/-- The bit that two bytes of a hash choose, counted from the last one. -/
def bloomIndex (h : FixedHash 32) (i : Nat) : Nat :=
  (((hashBytes 32 h).getD (2 * i) 0).toNat * 256 + ((hashBytes 32 h).getD (2 * i + 1) 0).toNat) % 2048

/-- `bloomPart<3, 256>` -/
def bloomPart (h : FixedHash 32) : LogBloom :=
  (List.range 3).foldl (fun ret i => ret ||| BitVec.twoPow 2048 (bloomIndex h i)) 0

/-- `shiftBloom<3>` -/
def shiftBloom (bloom : LogBloom) (h : FixedHash 32) : LogBloom := bloom ||| bloomPart h

/-- `containsBloom<3>` -/
def containsBloom (bloom : LogBloom) (h : FixedHash 32) : Bool := Contains bloom (bloomPart h)

/-! ### Logs -/

namespace LogEntry

def bloom (e : LogEntry) : LogBloom :=
  e.topics.foldl (fun ret t => shiftBloom ret (sha3 (hashBytes 32 t))) (shiftBloom 0 (sha3 (hashBytes 20 e.address)))

def streamRLP (e : LogEntry) : List Op :=
  .appendList 3 :: .append (hashBytes 20 e.address) false ::
    (.appendList e.topics.length :: e.topics.map fun t => .append (hashBytes 32 t) false) ++ [.append e.data false]

end LogEntry

/-- `bloom(LogEntries)` -/
def bloomOf (logs : List LogEntry) : LogBloom := logs.foldl (fun ret l => ret ||| l.bloom sha3) 0

namespace Receipts

inductive ReceiptException
  /-- As it is thrown by the reader. -/
  | rlp (e : Rlp.Exn)
  | invalidTransactionReceiptFormat
  /-- An assertion fails. -/
  | assertion
deriving DecidableEq

/-- A line of a reader -/
abbrev ReadM (α : Type) := EStateM ReceiptException RLP α

/-- What the reader throws goes on as it is. -/
def reading {α : Type} (x : Rlp.M α) : ReadM α := EStateM.adaptExcept .rlp x

/-- `convert<h256>(LaissezFaire)` -/
def topicOf (d : Bytes) : Except Rlp.Exn U256 := return ofRef 32 (← toHash d 32 laissezFaire)

/-- `toVector<h256>()` of an item -/
def topicsAt (k : Nat) : Rlp.M (List U256) := do
  let r ← item k
  if isList r.data then
    (← elements r.data).mapM fun i => topicOf i.data
  else return []

/-- `LogEntry(RLP const&)` -/
def readLog : ReadM LogEntry := do
  if (← reading (TransactionBase.whole itemCount)) ≠ 3 then
    throw .assertion
  let address ← reading (hashAt 20 0)
  let topics ← reading (topicsAt 1)
  let data ← reading do toBytes (← item 2).data
  return { address, topics, data }

/-! ### Receipts -/

structure TransactionReceipt where
  statusCodeOrStateRoot : BitVec 8 ⊕ FixedHash 32
  gasUsed : U256
  bloom : LogBloom
  log : List LogEntry
deriving DecidableEq

namespace TransactionReceipt

/-- `TransactionReceipt(h256, u256, LogEntries)` -/
def ofStateRoot (root : FixedHash 32) (gasUsed : U256) (log : List LogEntry) : TransactionReceipt where
  statusCodeOrStateRoot := .inr root
  gasUsed
  bloom := bloomOf sha3 log
  log

/-- `TransactionReceipt(uint8_t, u256, LogEntries)` -/
def ofStatus (status : BitVec 8) (gasUsed : U256) (log : List LogEntry) : TransactionReceipt where
  statusCodeOrStateRoot := .inl status
  gasUsed
  bloom := bloomOf sha3 log
  log

def streamRLP (r : TransactionReceipt) : List Op :=
  .appendList 4 :: (match r.statusCodeOrStateRoot with
    | .inl status => .appendInt status.toNat
    | .inr root => .append (hashBytes 32 root) false) ::
    .appendInt r.gasUsed.toNat :: .append (hashBytes 256 r.bloom) false ::
    (.appendList r.log.length :: r.log.flatMap LogEntry.streamRLP)

def rlp (r : TransactionReceipt) : Except Rlp.Exn Bytes := run r.streamRLP {} >>= RLPStream.output

/-- The first field: of 32 bytes, or an integer -/
def readFirst : ReadM (BitVec 8 ⊕ FixedHash 32) := do
  if !isData (← reading (item 0)).data then
    throw .invalidTransactionReceiptFormat
  if (← reading do length (← item 0).data) = 32 then
    return .inr (← reading (hashAt 32 0))
  else if ← reading do isInt (← item 0).data then
    return .inl (BitVec.ofNat 8 (← reading (intAt 1 0)))
  else throw .invalidTransactionReceiptFormat

/-- The loop over the logs -/
def readLogs : ReadM (List LogEntry) := do
  (← reading do elements (← item 3).data).mapM fun i => MonadExcept.ofExcept (Wp.eval readLog i)

def readFields : ReadM TransactionReceipt := do
  if !(← reading (TransactionBase.whole fun d => .ok (isList d))) then
    throw .invalidTransactionReceiptFormat
  if (← reading (TransactionBase.whole itemCount)) ≠ 4 then
    throw .invalidTransactionReceiptFormat
  let statusCodeOrStateRoot ← readFirst
  let gasUsed ← reading (intAt 32 1)
  let bloom ← reading (hashAt 256 2)
  let log ← readLogs
  return { statusCodeOrStateRoot, gasUsed := BitVec.ofNat 256 gasUsed, bloom, log }

/-- `TransactionReceipt(bytesConstRef)` -/
def read (d : Bytes) : Except ReceiptException TransactionReceipt := do
  Wp.eval readFields (← (RLP.mk' d).mapError .rlp)

end TransactionReceipt

/-! ### Filters -/

structure LogFilter where
  addresses : List Address := []
  topics : Fin 4 → List U256 := fun _ => []

namespace LogFilter

def isRangeFilter (f : LogFilter) : Bool := f.addresses.isEmpty && (List.finRange 4).all fun t => (f.topics t).isEmpty

/-- `matches(LogBloom)` -/
def matchesBloom (f : LogFilter) (bloom : LogBloom) : Bool :=
  (f.addresses.isEmpty || f.addresses.any fun i => containsBloom bloom (sha3 (hashBytes 20 i))) &&
    (List.finRange 4).all fun t =>
      (f.topics t).isEmpty || (f.topics t).any fun i => containsBloom bloom (sha3 (hashBytes 32 i))

/-- The loop over the topics. Nothing, if a topic is read that is not there: one too few is not noticed. -/
def matchesTopics (f : LogFilter) (e : LogEntry) : List (Fin 4) → Option Bool
  | [] => some true
  | i :: is =>
    if (f.topics i).isEmpty then f.matchesTopics e is
    else if e.topics.length < i then some false
    else match e.topics[i.val]? with
      | none => none
      | some t => if t ∈ f.topics i then f.matchesTopics e is else some false

/-- What the loop over the logs keeps -/
def matchesEntry (f : LogFilter) (e : LogEntry) : Option Bool :=
  if !f.addresses.isEmpty && e.address ∉ f.addresses then some false else f.matchesTopics e (List.finRange 4)

/-- `matches(TransactionReceipt)` -/
def matchesReceipt (f : LogFilter) (m : TransactionReceipt) : Option (List LogEntry) :=
  if f.isRangeFilter then some m.log
  else if f.matchesBloom sha3 m.bloom then m.log.filterM f.matchesEntry
  else some []

end LogFilter

end Receipts

end Kmdx
