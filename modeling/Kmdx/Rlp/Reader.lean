import Kmdx.Lib.ExceptRules
import Kmdx.Rlp.Format

/-!
# RLP (`libdevcore/RLP.h`, `RLP.cpp`)

An `RLP` looks at bytes, and remembers the item of a list it has given last. A `bytesConstRef` is the bytes that
it refers to; where pointers are compared, it is the place of the first of them.
-/

namespace Kmdx.Rlp

inductive Exn
  | badRLP
  | oversizeRLP
  | undersizeRLP
  | badCast
  | rlpException
  | invalidTransactionFormat (comment : String)
  | invalidSignature
  | transactionIsUnsigned
  /-- Bytes are read or written that are not there. -/
  | undefined
  /-- A loop does not end. -/
  | diverges
deriving DecidableEq

/-- The conversion flags. -/
structure Strictness where
  allowNonCanon : Bool := false
  throwOnFail : Bool := false
  failIfTooBig : Bool := false
  failIfTooSmall : Bool := false

def strict : Strictness where
  throwOnFail := true
  failIfTooBig := true

def veryStrict : Strictness where
  throwOnFail := true
  failIfTooBig := true
  failIfTooSmall := true

def laissezFaire : Strictness where
  allowNonCanon := true

structure RLP where
  data : Bytes := []
  lastIndex : Nat := 2 ^ 64 - 1
  lastEnd : Nat := 0
  lastItem : Bytes := []

/-- `vector_ref::cropped` -/
def cropped (d : Bytes) (start count : Nat) : Bytes :=
  if start + count ≤ d.length then (d.drop start).take count else []

def isNull (d : Bytes) : Bool := d.length = 0

def isEmpty (d : Bytes) : Bool := !isNull d ∧ (d.getD 0 0 = 0x80 ∨ d.getD 0 0 = 0xc0)

def isData (d : Bytes) : Bool := !isNull d ∧ d.getD 0 0 < 0xc0

def isList (d : Bytes) : Bool := !isNull d ∧ 0xc0 ≤ d.getD 0 0

def isSingleByte (d : Bytes) : Bool := !isNull d ∧ d.getD 0 0 < 0x80

/-- Throws if a single byte is written as two. -/
def requireGood (d : Bytes) : Except Exn Unit := do
  if isNull d then
    throw .badRLP
  if d.getD 0 0 ≠ 0x81 then
    return
  if d.length < 2 then
    throw .badRLP
  if d.getD 1 0 < 0x80 then
    throw .badRLP

def lengthSize (d : Bytes) : Nat :=
  if isData d ∧ 0xb7 < d.getD 0 0 then (d.getD 0 0).toNat - 0xb7
  else if isList d ∧ 0xf7 < d.getD 0 0 then (d.getD 0 0).toNat - 0xf7
  else 0

/-- The bytes into the data that the payload starts. -/
def payloadOffset (d : Bytes) : Nat := if isSingleByte d then 0 else 1 + lengthSize d

/-- The length that stands in the bytes after the first one. -/
def indirectLength (d : Bytes) (lengthSize : Nat) : Except Exn Nat := do
  if d.length ≤ lengthSize then
    throw .badRLP
  if d.length > 1 ∧ d.getD 1 0 = 0 then
    throw .badRLP
  if lengthSize > 8 then
    throw .undersizeRLP
  -- No leading zeroes.
  if d.getD 1 0 = 0 then
    throw .badRLP
  let ret := BigEndian.ofBytes ((d.drop 1).take lengthSize)
  -- Must be greater than the limit.
  if ret < 56 then
    throw .badRLP
  if ret ≥ lengthLimit then
    throw .undersizeRLP
  return ret

/-- The size of the payload, as given by the RLP as opposed to as inferred from the data. -/
def length (d : Bytes) : Except Exn Nat := do
  if isNull d then
    return 0
  requireGood d
  let n := (d.getD 0 0).toNat
  if n < 0x80 then
    return 1
  else if n ≤ 0xb7 then
    return n - 0x80
  else if n < 0xc0 then
    indirectLength d (n - 0xb7)
  else if n ≤ 0xf7 then
    return n - 0xc0
  else
    indirectLength d (n - 0xf7)

def actualSize (d : Bytes) : Except Exn Nat := do
  if isNull d then
    return 0
  if isSingleByte d then
    return 1
  if isData d ∨ isList d then
    return payloadOffset d + (← length d)
  return 0

/-- The checks of the constructor: what is left of the data. -/
def checkSize (d : Bytes) (s : Strictness) : Except Exn Bytes := do
  let d ← if s.failIfTooBig then do
      if (← actualSize d) < d.length then
        if s.throwOnFail then throw Exn.oversizeRLP else pure []
      else pure d
    else pure d
  if s.failIfTooSmall then do
    if (← actualSize d) > d.length then
      if s.throwOnFail then throw .undersizeRLP else return []
    else return d
  else return d

/-- `RLP(bytesConstRef, Strictness)` -/
def RLP.mk' (d : Bytes) (s : Strictness := veryStrict) : Except Exn RLP :=
  return { data := ← checkSize d s }

def sizeAsEncoded (d : Bytes) : Except Exn Nat := do
  actualSize (← checkSize d { throwOnFail := true, failIfTooSmall := true })

def payload (d : Bytes) : Except Exn Bytes := do
  let l ← length d
  if l > d.length then
    throw .badRLP
  return cropped d (payloadOffset d) l

/-- The loop of `items`, on what is left of the payload. -/
def itemsFrom : Nat → Bytes → Except Exn Nat
  | 0, _ => return 0
  | fuel + 1, d => do
    if d = [] then
      return 0
    let n ← sizeAsEncoded d
    return (← itemsFrom fuel (d.drop n)) + 1

def items (d : Bytes) : Except Exn Nat := do
  if isList d then do
    let p ← payload d
    itemsFrom p.length p
  else return 0

def itemCount (d : Bytes) : Except Exn Nat := if isList d then items d else return 0

/-! ### Iteration -/

/-- `m_currentItem` is `count` bytes of the data of the list, from `start` on. Without a place it is the null pointer. -/
structure Iterator where
  start : Option Nat
  count : Nat
  remaining : Nat

/-- The data from a pointer on. -/
def behind (d : Bytes) (start : Option Nat) : Bytes := start.elim [] d.drop

namespace Iterator

def end_ (d : Bytes) : Iterator := ⟨some d.length, 0, 0⟩

def begin_ (d : Bytes) : Except Exn Iterator := do
  if isList d then do
    let pl ← payload d
    let n ← sizeAsEncoded pl
    -- A payload that is not all there is `vector_ref()`.
    let start := if payloadOffset d + (← length d) ≤ d.length then some (payloadOffset d) else none
    return ⟨start, n, pl.length - n⟩
  else return end_ d

def next (d : Bytes) (it : Iterator) : Except Exn Iterator := do
  let start := it.start.map (· + it.count)
  if it.remaining ≠ 0 then do
    let n ← sizeAsEncoded ((behind d start).take it.remaining)
    return ⟨start, n, it.remaining - n⟩
  else return ⟨start, 0, 0⟩

/-- `operator==` of the current items -/
def same (it it' : Iterator) : Bool := it.start = it'.start ∧ it.count = it'.count

/-- `operator*` -/
def deref (d : Bytes) (it : Iterator) : Except Exn RLP := RLP.mk' ((behind d it.start).take it.count)

/-- The range-for loop over a list. After a step for each of the bytes it does not end any more. -/
def loop (d : Bytes) : Nat → Iterator → Except Exn (List RLP)
  | 0, _ => throw .diverges
  | fuel + 1, it => do
    if it.same (end_ d) then
      return []
    let item ← it.deref d
    return item :: (← loop d fuel (← it.next d))

end Iterator

/-- What a range-for loop gives. -/
def elements (d : Bytes) : Except Exn (List RLP) := do
  Iterator.loop d (d.length + 1) (← Iterator.begin_ d)

/-! ### The items by their indices -/

abbrev M (α : Type) := EStateM Exn RLP α

instance : MonadLift (Except Exn) (EStateM Exn RLP) where
  monadLift
    | .ok a => pure a
    | .error e => throw e

/-- The loop of `operator[]`, for the items that are left to pass. -/
def seek : Nat → M Unit
  | 0 => return
  | k + 1 => do
    let r ← get
    if r.lastItem = [] then
      return
    let p ← payload r.data
    let rest := p.drop r.lastEnd
    set { r with lastItem := rest }
    let n ← sizeAsEncoded rest
    let item := cropped rest 0 n
    set { r with lastItem := item, lastEnd := r.lastEnd + item.length, lastIndex := r.lastIndex + 1 }
    seek k

/-- For an index before the last one, from the beginning. -/
def restart (i : Nat) : M Unit := do
  let r ← get
  if i < r.lastIndex then do
    let p ← payload r.data
    let n ← sizeAsEncoded p
    set { r with lastEnd := n, lastItem := cropped p 0 n, lastIndex := 0 }
  else return

/-- `operator[]` -/
def item (i : Nat) : M RLP := do
  restart i
  seek (i - (← get).lastIndex)
  RLP.mk' (← get).lastItem { throwOnFail := true, failIfTooSmall := true }

/-! ### Conversions -/

def toBytes (d : Bytes) (flags : Strictness := laissezFaire) : Except Exn Bytes := do
  if !isData d then
    if flags.throwOnFail then throw .badCast else return []
  else do
    let p ← payload d
    let l ← length d
    if p.length = l then return p else throw .undefined

def isInt (d : Bytes) : Except Exn Bool := do
  if isNull d then
    return false
  requireGood d
  let n := (d.getD 0 0).toNat
  if n < 0x80 then
    return n ≠ 0
  else if n = 0x80 then
    return true
  else if n ≤ 0xb7 then
    if d.length ≤ 1 then throw .badRLP else return d.getD 1 0 ≠ 0
  else if n < 0xc0 then
    if d.length ≤ 1 + n - 0xb7 then throw .badRLP else return d.getD (1 + n - 0xb7) 0 ≠ 0
  else
    return false

/-- `toInt` of a type of at most `maxSize` bytes, before it is cut down to the type. -/
def toInt (d : Bytes) (maxSize : Nat) (flags : Strictness := strict) : Except Exn Nat := do
  requireGood d
  let canon ← isInt d
  if (!canon ∧ !flags.allowNonCanon) ∨ isList d ∨ isNull d then
    if flags.throwOnFail then throw .badCast else return 0
  else do
    let p ← payload d
    if p.length > maxSize ∧ flags.failIfTooBig then
      if flags.throwOnFail then throw .badCast else return 0
    else return BigEndian.ofBytes p

/-- `intTraits<bigint>::maxSize` -/
def intLimit : Nat := 2 ^ 32 - 1

/-- `toInt<bigint>` -/
def toBigint (d : Bytes) (flags : Strictness := strict) : Except Exn Nat := toInt d intLimit flags

/-- `toHash` of a type of `size` bytes -/
def toHash (d : Bytes) (size : Nat) (flags : Strictness := strict) : Except Exn Bytes := do
  requireGood d
  let p ← payload d
  let l := p.length
  if !isData d ∨ (l > size ∧ flags.failIfTooBig) ∨ (l < size ∧ flags.failIfTooSmall) then
    if flags.throwOnFail then throw .badCast else return List.replicate size 0
  else
    let s := min size l
    return List.replicate (size - s) 0 ++ p.take s

end Kmdx.Rlp
