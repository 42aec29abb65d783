import Kmdx.Lib.RemoveIf
import Kmdx.SealEngine

/-!
# Queues and maps of blocks that count their bytes (`libwing/BlockQueue.h`)

`m_size` is a `std::size_t` kept beside the container. `removeRange` takes the sizes of what it returns off
it, so it depends on what `std::remove_if` leaves behind (`removedBytes`); `SizedBlockMap::insert` adds the
size of a buffer that was moved away.
-/

namespace Kmdx

open RemoveIf

variable {H : Type}

/-- `std::size_t` -/
abbrev Size := BitVec 64

/-- `_data.size()` -/
def dataSize (data : Bytes) : Size := BitVec.ofNat 64 data.length

/-- What a queue needs of its elements: the data, and what is left of an element after a move. -/
class Movable (T : Type) where
  blockData : T → Bytes
  moved : T → T
  blockData_moved : ∀ t, blockData (moved t) = []

export Movable (blockData moved)

attribute [simp] Movable.blockData_moved

structure SizedBlockQueue (T : Type) where
  queue : List T := []
  size : Size := 0

namespace SizedBlockQueue
variable {T : Type} [Movable T]

def count (q : SizedBlockQueue T) : Nat := q.queue.length

def clear (_ : SizedBlockQueue T) : SizedBlockQueue T := { queue := [], size := 0 }

def enqueue (q : SizedBlockQueue T) (t : T) : SizedBlockQueue T :=
  { queue := q.queue ++ [t], size := q.size + dataSize (blockData t) }

/-- None on an empty queue, whose front must not be taken. -/
def dequeue (q : SizedBlockQueue T) : Option (T × SizedBlockQueue T) :=
  match q.queue with
  | [] => none
  | t :: l => some (t, { queue := l, size := q.size - dataSize (blockData t) })

/-- `removed` is what the range holds, `left` what the queue holds without it. -/
def removeRange (q : SizedBlockQueue T) (removed left : List T) : List T × SizedBlockQueue T :=
  (removed, { queue := left, size := removed.foldl (fun size t => size - dataSize (blockData t)) q.size })

/-- None if there are fewer than `n`: the range would end behind the queue. -/
def dequeueMultiple (q : SizedBlockQueue T) (n : Nat) : Option (List T × SizedBlockQueue T) :=
  if n ≤ q.count then some (q.removeRange (q.queue.take n) (q.queue.drop n)) else none

def removeIf (q : SizedBlockQueue T) (p : T → Bool) : List T × SizedBlockQueue T :=
  q.removeRange (removedRange moved p q.queue) (keptRange moved p q.queue)

theorem queue_of_dequeue {q q' : SizedBlockQueue T} {t : T} (h : q.dequeue = some (t, q')) :
    q.queue = t :: q'.queue := by
  rcases q with ⟨_ | ⟨u, l⟩, size⟩ <;> cases h
  rfl

theorem count_dequeue {q q' : SizedBlockQueue T} {t : T} (h : q.dequeue = some (t, q')) :
    q'.count < q.count := by
  rw [count, count, queue_of_dequeue h]
  exact Nat.lt_succ_self _

theorem queue_removeIf (q : SizedBlockQueue T) (p : T → Bool) :
    (q.removeIf p).2.queue = q.queue.filter (!p ·) := keptRange_eq

theorem count_removeIf (q : SizedBlockQueue T) (p : T → Bool) :
    (q.removeIf p).1.length + (q.removeIf p).2.count = q.count := by
  have hremoved : (q.removeIf p).1.length = (q.queue.filter p).length := length_removedRange
  rw [hremoved, count, queue_removeIf, count, ← List.length_append]
  exact (List.filter_append_perm p q.queue).length_eq

end SizedBlockQueue

/-! ### The elements -/

structure VerifiedBlockRef (H : Type) where
  info : BlockHeader H
  transactions : List Transaction

structure VerifiedBlock (H : Type) where
  verified : VerifiedBlockRef H
  blockData : Bytes

/-- A `BlockHeader` has no move of its own: it is copied. -/
instance : Movable (VerifiedBlock H) where
  blockData := VerifiedBlock.blockData
  moved t := { verified := { t.verified with transactions := [] }, blockData := [] }
  blockData_moved _ := rfl

structure UnverifiedBlock (H : Type) where
  hash : H
  parentHash : H
  blockData : Bytes

instance : Movable (UnverifiedBlock H) where
  blockData := UnverifiedBlock.blockData
  moved t := { t with blockData := [] }
  blockData_moved _ := rfl

namespace SizedBlockQueue
variable [DecidableEq H]

def sha3UnclesEquals (hash : H) (t : VerifiedBlock H) : Bool := t.verified.info.sha3Uncles = hash

def remove (q : SizedBlockQueue (VerifiedBlock H)) (hash : H) : Bool × SizedBlockQueue (VerifiedBlock H) :=
  let (removed, q) := q.removeIf (sha3UnclesEquals hash)
  (!removed.isEmpty, q)

/-- `std::find_if` and the assignment to what it finds. -/
def replaceFirst (p : VerifiedBlock H → Bool) (t : VerifiedBlock H) : List (VerifiedBlock H) →
    List (VerifiedBlock H)
  | [] => []
  | u :: l => if p u then t :: l else u :: replaceFirst p t l

def replace (q : SizedBlockQueue (VerifiedBlock H)) (hash : H) (t : VerifiedBlock H) :
    Bool × SizedBlockQueue (VerifiedBlock H) :=
  match q.queue.find? (sha3UnclesEquals hash) with
  | none => (false, q)
  | some u =>
    let size := q.size - dataSize u.blockData + dataSize t.blockData
    (true, { queue := replaceFirst (sha3UnclesEquals hash) t q.queue, size })

end SizedBlockQueue

/-- An entry of the multimap: `_key`, `_hash` and `_blockData`. -/
structure MapEntry (K H : Type) where
  key : K
  hash : H
  blockData : Bytes

/-- The multimap is the list of its entries by key, those of one key in the order they came. -/
structure SizedBlockMap (K H : Type) where
  map : List (MapEntry K H) := []
  size : Size := 0

namespace SizedBlockMap
variable {K : Type}

def count (m : SizedBlockMap K H) : Nat := m.map.length

def firstKey (m : SizedBlockMap K H) : Option K := m.map.head?.map MapEntry.key

def clear (_ : SizedBlockMap K H) : SizedBlockMap K H := { map := [], size := 0 }

variable [LinearOrder K]

/-- `std::multimap::insert`: behind the entries of the same key. -/
def insertEntry (e : MapEntry K H) : List (MapEntry K H) → List (MapEntry K H)
  | [] => [e]
  | x :: l => if e.key < x.key then e :: x :: l else x :: insertEntry e l

def insert (m : SizedBlockMap K H) (key : K) (hash : H) (data : Bytes) : SizedBlockMap K H :=
  -- `_blockData` was moved into the pair before its size is read
  let movedFrom : Bytes := []
  { map := insertEntry ⟨key, hash, data⟩ m.map, size := m.size + dataSize movedFrom }

def removeRange (m : SizedBlockMap K H) (removed left : List (MapEntry K H)) :
    List (H × Bytes) × SizedBlockMap K H :=
  let removedSize := removed.foldl (fun size e => size + dataSize e.blockData) (0 : Size)
  (removed.map fun e => (e.hash, e.blockData), { map := left, size := m.size - removedSize })

def removeByKeyEqual (m : SizedBlockMap K H) (key : K) : List (H × Bytes) × SizedBlockMap K H :=
  m.removeRange (m.map.filter (·.key = key)) (m.map.filter (·.key ≠ key))

def removeByKeyNotGreater (m : SizedBlockMap K H) (key : K) : List (H × Bytes) × SizedBlockMap K H :=
  m.removeRange (m.map.filter (·.key ≤ key)) (m.map.filter (¬ ·.key ≤ key))

end SizedBlockMap

end Kmdx
