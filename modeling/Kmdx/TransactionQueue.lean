import Kmdx.BlockQueue
import Kmdx.Lib.SearchTree

/-!
# The transaction queue (`libwing/TransactionQueue`)

An iterator into `m_current` is the number of its element. The maps by address and nonce are maps by both.
An `unsigned` counts the future transactions. What waits for a verifier, the handlers and the locks are left out:
every public function holds the lock, and `import` of bytes is `Malformed`, or imports the transaction.
-/

namespace Kmdx

open SearchTree (Strategy)

/-- What the queue asks of a transaction. -/
class QueuedTransaction (T : Type) (H : outParam Type) where
  /-- `sha3(WithSignature)` -/
  digest : T → H
  hasSignature : T → Bool
  hasZeroSignature : T → Bool
  /-- None if `sender` throws. -/
  sender : T → Option Address
  nonce : T → Nat
  gasPrice : T → Nat
  digest_injective : Function.Injective digest
  nonce_lt : ∀ t, nonce t < 2 ^ 256

/-- What a call can end with other than a return. -/
inductive TransactionQueue.Exn
  /-- `TransactionIsUnsigned`, thrown by `sha3` -/
  | transactionIsUnsigned
  /-- `InvalidSignature`, thrown by `sender` -/
  | invalidSignature
  /-- `assert` -/
  | assertion
  /-- An iterator is used that points to nothing. -/
  | undefined
  /-- A loop does not end. -/
  | diverges
deriving DecidableEq

/-- The exceptions. -/
def TransactionQueue.Exn.isThrown : TransactionQueue.Exn → Bool
  | .transactionIsUnsigned | .invalidSignature => true
  | _ => false

inductive IfDropped
  | ignore
  | retry
deriving DecidableEq

/-- What the library's containers do that is not specified. -/
structure Containers where
  tree : Strategy TransactionQueue.Exn
  /-- The first key of an `unordered_map`. -/
  front : List Address → Option Address
  front_mem : ∀ {l}, l ≠ [] → ∃ a ∈ l, front l = some a

abbrev ByAddressAndNonce (V : Type) := AList fun _ : Address × Nat => V

structure TransactionQueue (c : Containers) (T H : Type) where
  known : Finset H := ∅
  dropped : Finset H := ∅
  current : List (Nat × T) := []
  /-- The shape of the tree of `m_current`, and the number of its next element. -/
  shape : c.tree.Shape := c.tree.empty
  next : Nat := 0
  currentByHash : H → Option Nat := fun _ => none
  /-- None for an iterator that has not been set. -/
  currentByAddressAndNonce : ByAddressAndNonce (Option Nat) := ∅
  future : ByAddressAndNonce T := ∅
  limit : Nat
  futureLimit : Nat
  futureSize : Nat := 0

namespace TransactionQueue

variable {c : Containers} {T H V : Type} [QueuedTransaction T H] [DecidableEq H]

open QueuedTransaction

abbrev M (c : Containers) (T H : Type) := EStateM Exn (TransactionQueue c T H)

instance : MonadLift (Except Exn) (M c T H) where
  monadLift
    | .ok a => pure a
    | .error e => throw e

/-- `safeSender` -/
def sender' (t : T) : Address := (sender t).getD 0

/-- Where a transaction stands in the maps. -/
def slot (t : T) : Address × Nat := (sender' t, nonce t)

/-- `insert` and `emplace` leave an entry that is there. -/
def insertNew (m : ByAddressAndNonce V) (k : Address × Nat) (v : V) : ByAddressAndNonce V := if k ∈ m then m else m.insert k v

def eraseSlots (m : ByAddressAndNonce V) (ks : List (Address × Nat)) :
    ByAddressAndNonce V := ks.foldl (fun m k => m.erase k) m

/-- The entries of an address, in the order of the nonces. -/
def entriesOf (m : ByAddressAndNonce V) (a : Address) : List (Nat × V) :=
  ((m.entries.filter (·.1.1 = a)).map fun e => (e.1.2, e.2)).insertionSort fun x y => x.1 ≤ y.1

/-! ### The priority queue -/

variable (s : TransactionQueue c T H)

/-- `m_currentByAddressAndNonce[a].begin()->first` -/
def lowest (a : Address) : Option Nat := (entriesOf s.currentByAddressAndNonce a).head?.map Prod.fst

def height (t : T) : Except Exn Nat :=
  match sender t with
  | none => .error .invalidSignature
  | some a =>
    match s.lowest a with
    | none => .error .undefined
    | some low => .ok ((nonce t + 2 ^ 256 - low) % 2 ^ 256)

/-- `PriorityCompare` -/
def priorityCompare (first second : T) : Except Exn Bool := do
  let height1 ← s.height first
  let height2 ← s.height second
  return height1 < height2 ∨ height1 = height2 ∧ gasPrice second < gasPrice first

/-- `m_current.emplace` -/
def emplace (t : T) : M c T H Nat := do
  let s ← get
  let (i, shape) ← (c.tree.insert s.shape (s.current.map fun e => s.priorityCompare t e.2) : Except Exn _)
  set { s with current := s.current.take i ++ (s.next, t) :: s.current.drop i, shape, next := s.next + 1 }
  return s.next

/-- What an iterator points to. -/
def deref (handle : Option Nat) : M c T H T := do
  match (← get).current.find? fun e => some e.1 = handle with
  | none => throw .undefined
  | some e => return e.2

/-- `m_current.erase` of an iterator -/
def eraseHandle (handle : Option Nat) : M c T H Unit := do
  let s ← get
  match s.current.findIdx? fun e => some e.1 = handle with
  | none => throw .undefined
  | some i => set { s with current := s.current.eraseIdx i, shape := c.tree.erase s.shape i }

/-! ### Moving transactions -/

/-- A slot is made first, then the element that it points to; the slot decides about the order already. -/
def addCurrent (t : T) : M c T H Unit := do
  modify fun s => { s with currentByAddressAndNonce := insertNew s.currentByAddressAndNonce (slot t) none }
  let handle ← emplace t
  modify fun s => { s with currentByAddressAndNonce := s.currentByAddressAndNonce.insert (slot t) (some handle)
                           currentByHash := Function.update s.currentByHash (digest t) (some handle) }

/-- `--m_futureSize` -/
def decrement (n : Nat) : Nat := (n + (2 ^ 32 - 1)) % 2 ^ 32

/-- `++m_futureSize` -/
def increment (n : Nat) : Nat := (n + 1) % 2 ^ 32

/-- The future transactions from `nonce` on that follow each other. -/
def consecutive : List (Nat × T) → Nat → List T
  | [], _ => []
  | e :: l, n => if nonce e.2 = n then e.2 :: consecutive l ((n + 1) % 2 ^ 256) else []

/-- The ones that follow a transaction. -/
def following (t : T) : List T :=
  let n := (nonce t + 1) % 2 ^ 256
  if (sender' t, n) ∈ s.future then consecutive ((entriesOf s.future (sender' t)).filter (n ≤ ·.1)) n else []

/-- One of the transactions that become current. -/
def promote (t : T) : M c T H Unit := do
  addCurrent t
  modify fun s => { s with futureSize := decrement s.futureSize }

/-- The last transaction of the first sender is dropped. -/
def dropFuture : M c T H Unit := do
  let s ← get
  match c.front (s.future.keys.map Prod.fst) with
  | none => throw .undefined
  | some a =>
    match (entriesOf s.future a).getLast? with
    | none => throw .undefined
    | some e => set { s with future := s.future.erase (a, e.1), futureSize := decrement s.futureSize }

/-- The loop that drops transactions while there are too many. -/
def dropFutures : Nat → M c T H Unit
  | 0 => throw .diverges
  | fuel + 1 => do
    if (← get).futureLimit < (← get).futureSize then do
      dropFuture
      dropFutures fuel
    else return

/-- `makeCurrent_WITH_LOCK` -/
def makeCurrent (t : T) : M c T H Unit := do
  let ts := (← get).following t
  ts.forM promote
  modify fun s => { s with future := eraseSlots s.future (ts.map slot) }
  dropFutures ((← get).futureSize + 1)

/-- `insertCurrent_WITH_LOCK` -/
def insertCurrent (h : H) (t : T) : M c T H Unit := do
  if ((← get).currentByHash h).isSome then return
  else do
    addCurrent t
    makeCurrent t
    modify fun s => { s with known := insert h s.known }

/-- `remove_WITH_LOCK` -/
def remove (h : H) : M c T H Bool := do
  match (← get).currentByHash h with
  | none => return false
  | some handle => do
    let t ← deref (some handle)
    if (entriesOf (← get).currentByAddressAndNonce (sender' t)).isEmpty then throw .assertion
    else do
      modify fun s => { s with currentByAddressAndNonce := s.currentByAddressAndNonce.erase (slot t) }
      eraseHandle (some handle)
      modify fun s => { s with currentByHash := Function.update s.currentByHash h none, known := s.known.erase h }
      return true

/-! ### The public functions -/

/-- A current transaction with the same nonce and a higher gas price stays, another one goes. -/
def replaceCurrent (t : T) : M c T H Bool := do
  match (← get).currentByAddressAndNonce.lookup (slot t) with
  | none => return true
  | some handle => do
    let old ← deref handle
    if gasPrice t < gasPrice old then return false
    else do
      discard (remove (digest old))
      return true

/-- The same for the future transactions. -/
def replaceFuture (t : T) : M c T H Bool := do
  match (← get).future.lookup (slot t) with
  | none => return true
  | some old =>
    if gasPrice t < gasPrice old then return false
    else do
      modify fun s => { s with future := s.future.erase (slot t), futureSize := decrement s.futureSize }
      return true

/-- The loop that removes the last transactions while there are too many. -/
def removeLast : Nat → M c T H Unit
  | 0 => throw .diverges
  | fuel + 1 => do
    if (← get).limit < (← get).current.length then do
      match (← get).current.getLast? with
      | none => throw .undefined
      | some e => do
        discard (remove (digest e.2))
        removeLast fuel
    else return

def enter (t : T) : M c T H ImportResult := do
  insertCurrent (digest t) t
  removeLast ((← get).current.length + 1)
  return .success

/-- The body of `manageImport_WITH_LOCK`. -/
def replaceAndEnter (t : T) : M c T H ImportResult := do
  if !(← replaceCurrent t) then return .overbidGasPrice
  else if !(← replaceFuture t) then return .overbidGasPrice
  else enter t

/-- `manageImport_WITH_LOCK` -/
def manageImport (t : T) : M c T H ImportResult :=
  tryCatch (replaceAndEnter t) fun e => if e.isThrown then return .malformed else throw e

/-- `check_WITH_LOCK` -/
def check (h : H) (ik : IfDropped) : ImportResult :=
  if h ∈ s.known then .alreadyKnown
  else if h ∈ s.dropped ∧ ik = .ignore then .alreadyInChain
  else .success

def importTransaction (t : T) (ik : IfDropped) : M c T H ImportResult := do
  if hasZeroSignature t then return .zeroSignature
  else if !hasSignature t then throw .transactionIsUnsigned
  else do
    let ir := (← get).check (digest t) ik
    if ir ≠ .success then return ir
    else manageImport t

/-- `drop` -/
def dropTransaction (h : H) : M c T H Unit := do
  if h ∈ (← get).known then do
    modify fun s => { s with dropped := insert h s.dropped }
    discard (remove h)
  else return

def dropGood (t : T) : M c T H Unit := do
  makeCurrent t
  if !hasSignature t then throw .transactionIsUnsigned
  else if digest t ∈ (← get).known then discard (remove (digest t))
  else return

/-- One of the transactions that are moved out of the current ones. -/
def demote (e : Nat × Option Nat) : M c T H Unit := do
  let t ← deref e.2
  modify fun s => { s with currentByHash := Function.update s.currentByHash (digest t) none
                           future := insertNew s.future (slot t) t }
  eraseHandle e.2
  modify fun s => { s with futureSize := increment s.futureSize }

def setFuture (h : H) : M c T H Unit := do
  match (← get).currentByHash h with
  | none => return
  | some handle => do
    let st ← deref (some handle)
    let moved := (entriesOf (← get).currentByAddressAndNonce (sender' st)).filter (nonce st ≤ ·.1)
    moved.forM demote
    let slots := moved.map fun e => (sender' st, e.1)
    modify fun s => { s with currentByAddressAndNonce := eraseSlots s.currentByAddressAndNonce slots }

def clear : M c T H Unit :=
  modify fun s => { limit := s.limit, futureLimit := s.futureLimit, next := s.next }

def topTransactions (limit : Nat) (avoid : Finset H) : List T :=
  ((s.current.map Prod.snd).filter (digest · ∉ avoid)).take limit

def knownTransactions : Finset H := s.known

end TransactionQueue

end Kmdx
