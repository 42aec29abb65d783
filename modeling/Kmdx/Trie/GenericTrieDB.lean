import Kmdx.Rlp.Format
import Kmdx.Trie.Nibbles

/-!
# GenericTrieDB (`libdevcore/TrieDB.h`) over a MemoryDB (`libdevcore/MemoryDB.cpp`)

A node is an RLP item, and stands for its bytes; so does what the database holds. The entries are found whatever their
reference counts are (`m_enforceRefs` is not set). An `RLP` is a pointer into the list around it: it knows its place.

Beside what the source has, the state holds which nodes have been inserted and which items have been taken for the hash
of a node. Nothing computes with that, and it only grows, so what a call does is a computation that lets it grow (`M`).
-/

namespace Kmdx.Trie

open Rlp Wp Function

abbrev H256 := {b : Bytes // b.length = 32}

class Sha3 where
  hash : Bytes → H256

inductive Exn
  /-- `assert` -/
  | assertion
  | badCast
  | rootNotFound
  /-- A nibble is read that is not there. -/
  | outOfBounds
  /-- A null pointer is followed. -/
  | nullPointer
  /-- More calls or rounds than the model has fuel for. -/
  | diverges
deriving DecidableEq

variable [Sha3]

/-- `sha3` of a node -/
def hashOf (t : Tree) : H256 := Sha3.hash t.encode

/-! ### The database -/

structure TrieDB where
  /-- `m_root` -/
  root : H256
  /-- `m_main`, with the reference counts -/
  main : H256 → Option (Tree × Nat)
  inserted : List Tree
  reads : List (List Tree × Nat)
  sound : ∀ h e, main h = some e → hashOf e.1 = h ∧ e.1 ∈ inserted
  complete : ∀ t ∈ inserted, (main (hashOf t)).isSome

namespace TrieDB

def lookup (s : TrieDB) (h : H256) : Option Tree := (s.main h).map Prod.fst

def insertNode (s : TrieDB) (t : Tree) : TrieDB where
  root := s.root
  main := update s.main (hashOf t) (some (t, (s.main (hashOf t)).elim 1 fun e => e.2 + 1))
  inserted := t :: s.inserted
  reads := s.reads
  sound h e he := by
    by_cases hh : h = hashOf t
    · rw [hh, update_self] at he
      cases he
      exact ⟨hh.symm, List.mem_cons_self⟩
    · rw [update_of_ne hh] at he
      exact (s.sound h e he).imp_right (List.mem_cons_of_mem t)
  complete t' ht' := by
    by_cases hh : hashOf t' = hashOf t
    · rw [hh, update_self]
      rfl
    · rw [update_of_ne hh]
      exact s.complete t' ((List.mem_cons.1 ht').resolve_left fun heq => hh (by rw [heq]))

/-- `kill` -/
def kill (s : TrieDB) (h : H256) : TrieDB where
  root := s.root
  main := update s.main h ((s.main h).map fun e => (e.1, e.2 - 1))
  inserted := s.inserted
  reads := s.reads
  sound h' e he := by
    by_cases hh : h' = h
    · rw [hh, update_self, Option.map_eq_some_iff] at he
      obtain ⟨e', he', rfl⟩ := he
      rw [hh]
      exact s.sound h e' he'
    · rw [update_of_ne hh] at he
      exact s.sound h' e he
  complete t ht := by
    have hsome := s.complete t ht
    by_cases hh : hashOf t = h
    · rw [hh] at hsome
      rw [hh, update_self, Option.isSome_map]
      exact hsome
    · rw [update_of_ne hh]
      exact hsome

def note (s : TrieDB) (place : Option (List Tree × Nat)) : TrieDB := { s with reads := place.toList ++ s.reads }

def empty (root : H256) : TrieDB where
  root := root
  main _ := none
  inserted := []
  reads := []
  sound _ _ he := nomatch he
  complete _ ht := nomatch ht

end TrieDB

/-- What has been inserted and read before still has. -/
structure Grew (s s' : TrieDB) : Prop where
  inserted : s.inserted <:+ s'.inserted
  reads : s.reads <:+ s'.reads

theorem Grew.rfl {s : TrieDB} : Grew s s := ⟨List.suffix_rfl, List.suffix_rfl⟩

theorem Grew.trans {s s' s'' : TrieDB} (h : Grew s s') (h' : Grew s' s'') : Grew s s'' :=
  ⟨h.inserted.trans h'.inserted, h.reads.trans h'.reads⟩

/-- Computations over the database, which forget nothing. -/
structure M (α : Type) where
  run : EStateM Exn TrieDB α
  grew : ∀ s, wp run (fun _ s' => Grew s s') (fun _ s' => Grew s s') s

instance : Monad M where
  pure a := ⟨pure a, fun _ => .rfl⟩
  bind x f := ⟨x.run >>= fun a => (f a).run, fun s => (wp_bind ..).2 <| wp_mono (x.grew s)
    (fun a s' h => wp_mono ((f a).grew s') (fun _ _ => h.trans) fun _ _ => h.trans) fun _ _ => id⟩

namespace M

def fail {α : Type} (e : Exn) : M α := ⟨throw e, fun _ => .rfl⟩

def read : M TrieDB := ⟨get, fun _ => .rfl⟩

def insertNode (t : Tree) : M Unit := ⟨modify fun s => s.insertNode t, fun _ => ⟨List.suffix_cons .., List.suffix_rfl⟩⟩

def kill (h : H256) : M Unit := ⟨modify fun s => s.kill h, fun _ => ⟨List.suffix_rfl, List.suffix_rfl⟩⟩

def note (place : Option (List Tree × Nat)) : M Unit :=
  ⟨modify fun s => s.note place, fun _ => ⟨List.suffix_rfl, List.suffix_append ..⟩⟩

def setRoot (h : H256) : M Unit := ⟨modify fun s => { s with root := h }, fun _ => ⟨List.suffix_rfl, List.suffix_rfl⟩⟩

end M

/-! ### Items -/

/-- `RLP` -/
structure RLP where
  tree : Option Tree := none
  /-- The list that it is an item of, and its index. -/
  place : Option (List Tree × Nat) := none

namespace RLP

/-- `RLP(std::string)` -/
abbrev of (t : Option Tree) : RLP := { tree := t }

def isNull (r : RLP) : Bool := r.tree.isNone

def isEmpty (r : RLP) : Bool :=
  match r.tree with
  | some (.data b) => b.isEmpty
  | some (.list ts) => ts.isEmpty
  | none => false

def isList (r : RLP) : Bool :=
  match r.tree with
  | some (.list _) => true
  | _ => false

def isData (r : RLP) : Bool :=
  match r.tree with
  | some (.data _) => true
  | _ => false

def items (r : RLP) : List Tree :=
  match r.tree with
  | some (.list ts) => ts
  | _ => []

def itemCount (r : RLP) : Nat := r.items.length

/-- `operator[]` of a list -/
def sub (r : RLP) (i : Nat) : RLP := ⟨r.items[i]?, some (r.items, i)⟩

def payload (r : RLP) : Bytes :=
  match r.tree with
  | some (.data b) => b
  | some (.list ts) => Tree.payload ts
  | none => []

/-- `toString` -/
def toString (r : RLP) : Bytes := if r.isData then r.payload else []

/-- The number of bytes of the item. -/
def size (r : RLP) : Nat := r.tree.elim 0 fun t => t.encode.length

/-- `sha3` of the bytes of the item -/
def hash (r : RLP) : H256 := Sha3.hash (r.tree.elim [] Tree.encode)

/-- `toHash<h256>`: what is shorter is filled up with zeros. -/
def toHash (r : RLP) : M H256 := do
  M.note r.place
  match r.tree with
  | some (.data b) =>
    if h : b.length ≤ 32 then return ⟨List.replicate (32 - b.length) 0 ++ b, by simp; omega⟩ else M.fail .badCast
  | _ => M.fail .badCast

end RLP

/-- `RLPNull` -/
def rlpNull : Tree := .data []

/-- `isLeaf` -/
def isLeaf (twoItem : RLP) : Bool := (twoItem.sub 0).payload.getD 0 0 &&& 0x20 ≠ 0

/-- `keyOf(RLP)` -/
def keyOfItem (twoItem : RLP) : NibbleSlice := keyOf (twoItem.sub 0).payload

/-- `uniqueInUse`, with `none` for 255 -/
def uniqueInUse (orig : RLP) (except : Nat) : Option Nat :=
  match (List.range 17).filter fun i => i ≠ except && !(orig.sub i).isEmpty with
  | [i] => some i
  | _ => none

/-- What the functions that change a node assert. -/
def isNode (r : RLP) : Bool := r.isList && (r.itemCount = 2 || r.itemCount = 17)

/-! ### Nodes of the database -/

/-- `node` -/
def node (h : H256) : M (Option Tree) := do
  return (← M.read).lookup h

/-- `forceInsertNode(bytesConstRef)` -/
def forceInsertNode (t : Tree) : M H256 := do
  M.insertNode t
  return hashOf t

def forceKillNode (h : H256) : M Unit := M.kill h

def killNodeHash (d : RLP) (h : H256) : M Unit := if 32 ≤ d.size then forceKillNode h else pure ()

def killNode (d : RLP) : M Unit := killNodeHash d d.hash

/-- What `streamNode` appends for a node: a short one itself, else its hash. -/
def streamNode (b : Tree) : M Tree :=
  if b.encode.length < 32 then pure b
  else do
    let h ← forceInsertNode b
    return .data h.1

/-- `deref` -/
def deref (n : RLP) : M (Option Tree) :=
  if n.isList then pure n.tree
  else do
    let h ← n.toHash
    node h

def isTwoItemNode (n : RLP) : M Bool :=
  if n.isData then do
    let h ← n.toHash
    let t ← node h
    return (RLP.of t).itemCount = 2
  else return n.isList && n.itemCount = 2

/-! ### Lookups -/

def atAux : Nat → RLP → NibbleSlice → M Bytes
  | 0, _, _ => M.fail .diverges
  | fuel + 1, here, key =>
    if here.isEmpty || here.isNull then return []
    else if !isNode here then M.fail .assertion
    else if here.itemCount = 2 then
      let k := keyOfItem here
      if key.same k && isLeaf here then return (here.sub 1).toString
      else if key.contains k && !isLeaf here then do
        let t ← deref (here.sub 1)
        atAux fuel (.of t) (key.mid k.size)
      else return []
    else if key.size = 0 then return (here.sub 16).toString
    else
      let n := here.sub (key.get 0)
      if n.isEmpty then return []
      else do
        let t ← deref n
        atAux fuel (.of t) (key.mid 1)

/-- More calls than a key needs: all but the last few get over a nibble of it. -/
def fuelFor (key : NibbleSlice) : Nat := key.size + 6

def at_ (key : Bytes) : M Bytes := do
  let t ← node (← M.read).root
  atAux (fuelFor ⟨key, 0⟩) (.of t) ⟨key, 0⟩

/-! ### Insertion -/

def place (orig : RLP) (k : NibbleSlice) (s : Bytes) : M Tree := do
  killNode orig
  if orig.isEmpty then return .list [.data (hexPrefixEncode k true), .data s]
  else if !isNode orig then M.fail .assertion
  else if orig.itemCount = 2 then return .list (orig.items.set 1 (.data s))
  else return .list (orig.items.set 16 (.data s))

def cleve (orig : RLP) (s : Nat) : M Tree := do
  killNode orig
  let k := keyOfItem orig
  if !(orig.isList && orig.itemCount = 2 && s ≠ 0 && s ≤ k.size) then M.fail .assertion
  else do
    let bottom : Tree := .list (.data (hexPrefixEncode k (isLeaf orig) s) :: orig.items.drop 1)
    let n ← streamNode bottom
    return .list [.data (hexPrefixEncode k false 0 s), n]

def branch (orig : RLP) : M Tree := do
  if !(orig.isList && orig.itemCount = 2) then M.fail .assertion
  else do
    killNode orig
    let k := keyOfItem orig
    if k.size = 0 then
      if !isLeaf orig then M.fail .assertion
      else return .list (List.replicate 16 rlpNull ++ orig.items.drop 1)
    else if isLeaf orig || 1 < k.size then do
      let n ← streamNode (.list (.data (hexPrefixEncode (k.mid 1) (isLeaf orig)) :: orig.items.drop 1))
      return .list ((List.replicate 17 rlpNull).set (k.get 0) n)
    else return .list ((List.replicate 17 rlpNull).set (k.get 0) ((orig.items.drop 1).headD rlpNull))

/-- The node is killed unless it stands in another one. -/
def killOuter (inLine : Bool) (orig : RLP) (origHash : H256) :
    M Unit := if inLine then pure () else killNodeHash orig origHash

def mergeAtAux (mergeAt : RLP → H256 → NibbleSlice → Bool → M Tree) (orig : RLP) (k : NibbleSlice) : M Tree :=
  if !orig.isList && !orig.isEmpty then do
    let h ← orig.toHash
    let t ← node h
    if (RLP.of t).isNull then M.fail .assertion
    else do
      let b ← mergeAt (.of t) (RLP.of t).hash k false
      streamNode b
  else do
    let b ← mergeAt orig orig.hash k true
    streamNode b

def mergeAt (v : Bytes) : Nat → RLP → H256 → NibbleSlice → Bool → M Tree
  | 0, _, _, _, _ => M.fail .diverges
  | fuel + 1, orig, origHash, k, inLine =>
    if orig.isEmpty then place orig k v
    else if !isNode orig then M.fail .assertion
    else if orig.itemCount = 2 then
      let key := keyOfItem orig
      if key.same k && isLeaf orig then place orig k v
      else if k.contains key && !isLeaf orig then do
        killOuter inLine orig origHash
        let child ← mergeAtAux (mergeAt v fuel) (orig.sub 1) (k.mid key.size)
        return .list (orig.items.set 1 child)
      else
        let sh := k.shared key
        if sh ≠ 0 then do
          let cleved ← cleve orig sh
          mergeAt v fuel (.of cleved) (hashOf cleved) k true
        else do
          let branched ← branch orig
          mergeAt v fuel (.of branched) (hashOf branched) k true
    else if k.size = 0 then place orig k v
    else do
      killOuter inLine orig origHash
      let n := k.get 0
      let child ← mergeAtAux (mergeAt v fuel) (orig.sub n) (k.mid 1)
      return .list (orig.items.set n child)

/-- The root is looked up by its hash, however short it is. -/
def killShortRoot (rootValue : Option Tree) (root : H256) : M Unit :=
  if (RLP.of rootValue).size < 32 then forceKillNode root else pure ()

def insert (key value : Bytes) : M Unit := do
  let root := (← M.read).root
  let rootValue ← node root
  if rootValue.isNone then M.fail .assertion
  else do
    let b ← mergeAt value (fuelFor ⟨key, 0⟩) (.of rootValue) root ⟨key, 0⟩ false
    killShortRoot rootValue root
    let h ← forceInsertNode b
    M.setRoot h

/-! ### Removal -/

/-- The second item of the node, which is removed from the database. -/
def release (n : RLP) : M (Option Tree) :=
  if n.isList then pure n.tree
  else do
    let lh ← n.toHash
    let t ← node lh
    forceKillNode lh
    return t

def graft (orig : RLP) : M Tree :=
  if !(orig.isList && orig.itemCount = 2) then M.fail .assertion
  else do
    let t ← release (orig.sub 1)
    let n := RLP.of t
    if n.itemCount ≠ 2 then M.fail .assertion
    else return .list (.data (hexPrefixEncodeBoth (keyOfItem orig) (keyOfItem n) (isLeaf n)) :: n.items.drop 1)

def merge (orig : RLP) (i : Nat) : M Tree :=
  if !(orig.isList && orig.itemCount = 17) then M.fail .assertion
  else if i ≠ 16 then
    if (orig.sub i).isEmpty then M.fail .assertion
    else return .list (.data (hexPrefixEncode ⟨[UInt8.ofNat i], 0⟩ false 1 2) :: (orig.sub i).tree.toList)
  else return .list (.data (hexPrefixEncodeVector [] true) :: (orig.sub i).tree.toList)

/-- What is left of a branch where there is only one item in use. -/
def collapse (rlp : RLP) (used : Nat) : M Tree := do
  let two ← isTwoItemNode (rlp.sub used)
  let merged ← merge rlp used
  if two then graft (.of merged) else pure merged

/-- The bytes, if there are any, are streamed to the node around. -/
def deleteAtAux (deleteAt : RLP → NibbleSlice → M (Option Tree)) (orig : RLP) (k : NibbleSlice) : M (Option Tree) :=
  if orig.isEmpty then return none
  else do
    let t ← deref orig
    let b ← deleteAt (.of t) k
    match b with
    | none => return none
    | some b => do
      let n ← streamNode b
      return some n

/-- What the bytes of the new node are, or `none` if the key is not found. -/
def deleteAt : Nat → RLP → NibbleSlice → M (Option Tree)
  | 0, _, _ => M.fail .diverges
  | fuel + 1, orig, k =>
    if orig.isEmpty then return none
    else if !isNode orig then M.fail .assertion
    else if orig.itemCount = 2 then
      let key := keyOfItem orig
      if key.same k && isLeaf orig then do
        killNode orig
        return some rlpNull
      else if k.contains key then do
        let child ← deleteAtAux (deleteAt fuel) (orig.sub 1) (k.mid key.size)
        match child with
        | none => return none
        | some child => do
          killNode orig
          let r : Tree := .list (orig.items.set 1 child)
          let two ← isTwoItemNode ((RLP.of r).sub 1)
          if two then some <$> graft (.of r) else return some r
      else return none
    else if k.size = 0 && !(orig.sub 16).isEmpty then do
      killNode orig
      match uniqueInUse orig 16 with
      | some used => some <$> collapse orig used
      | none => return some (.list (orig.items.set 16 rlpNull))
    else if k.size = 0 then M.fail .outOfBounds
    else do
      let n := k.get 0
      let child ← deleteAtAux (deleteAt fuel) (orig.sub n) (k.mid 1)
      match child with
      | none => return none
      | some child => do
        killNode orig
        let r : Tree := .list (orig.items.set n child)
        match uniqueInUse (.of r) 255 with
        | some used => some <$> collapse (.of r) used
        | none => return some r

def remove (key : Bytes) : M Unit := do
  let root := (← M.read).root
  let rv ← node root
  let b ← deleteAt (fuelFor ⟨key, 0⟩) (.of rv) ⟨key, 0⟩
  match b with
  | none => pure ()
  | some b => do
    killShortRoot rv root
    let h ← forceInsertNode b
    M.setRoot h

/-! ### Runs -/

/-- `init` -/
def init : M Unit := do
  let h ← forceInsertNode rlpNull
  M.setRoot h
  let t ← node h
  if t.isNone then M.fail .rootNotFound else pure ()

inductive Op
  | insert (key value : Bytes)
  | remove (key : Bytes)

def Op.run : Op → M Unit
  | .insert key value => Trie.insert key value
  | .remove key => Trie.remove key

def runAll : List Op → M Unit
  | [] => pure ()
  | o :: ops => do
    o.run
    runAll ops

end Kmdx.Trie
