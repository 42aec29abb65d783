import Kmdx.Chain.FullChain
import Kmdx.Lib.TwinCaches

/-!
# Runs with garbage collections

Between the calls of a chain garbage is collected. That is not seen (`SameAnswers`) as long as what is cached is in the
database, or has not been noted as used. `Unseen` says of a call, and the state it is made in, that it leaves it so.
-/

namespace Kmdx.Chain

open Wp

variable {H : Type} [DecidableEq H] [BlockSha3 H] [BlockLogs H]

/-- A call. `block` leaves nothing behind. -/
inductive Call (H : Type)
  | import_ (b : VerifiedBlockRef H) (mustBeNew valid : Bool)
  | insert (b : VerifiedBlockRef H) (mustBeNew validReceipts valid : Bool)
  | rewind (newHead : Nat)
  | reopen
  | details (h : H)
  | receipts (h : H)
  | logBlooms (h : H)
  | numberHash (i : Nat)
  | transactionLocation (h : H)
  | blocksBlooms (id : Nat)

namespace FullChain

/-- A call, but for what is noted in it. -/
def body : Call H → FM H Unit
  | .import_ b mustBeNew valid => import_ b mustBeNew valid
  | .insert b mustBeNew validReceipts valid => insert b mustBeNew validReceipts valid
  | .rewind newHead => rewind newHead
  | .reopen => opened
  | .details h => do let _ ← lift (BlockChain.details h)
  | .receipts h => do let _ ← receipts h
  | .logBlooms h => do let _ ← logBlooms h
  | .numberHash i => do let _ ← lift (BlockChain.numberHash i)
  | .transactionLocation h => do let _ ← lift (BlockChain.transactionLocation h)
  | .blocksBlooms id => do let _ ← blocksBlooms id

/-- Where the body of a call starts. -/
def atBody (s : FullChain H) : Call H → FullChain H
  | .reopen => s.closed
  | _ => s

/-- What is thrown is caught by the caller, if the process has not exited. -/
def step (s : FullChain H) (e : Call H) : Option (FullChain H) :=
  match noting (body e) (s.atBody e) with
  | .ok _ t => some t
  | .error .exit _ => none
  | .error _ t => some t

end FullChain

inductive Action (H : Type)
  | call (e : Call H)
  /-- `garbageCollect(true)` -/
  | garbageCollect (enough : Bool)

def Action.call? : Action H → Option (Call H)
  | .call e => some e
  | .garbageCollect _ => none

namespace FullChain

/-- What `garbageCollect` leaves. -/
def swept (s : FullChain H) (enough : Bool) : FullChain H := after (garbageCollect enough) s

def act (s : FullChain H) : Action H → Option (FullChain H)
  | .call e => s.step e
  | .garbageCollect enough => some (s.swept enough)

/-- A run, if it comes to its end. -/
def run (s : FullChain H) (actions : List (Action H)) : Option (FullChain H) := actions.foldlM act s

/-- A chain that has just been opened, with an empty database. -/
structure Start (s : FullChain H) : Prop where
  chain : s.chain.Start
  opened : s = { chain := s.chain }

/-- `t` is where the calls lead from `s`, all of which meet `C`. -/
inductive Leads (C : FullChain H → Call H → Prop) : FullChain H → List (Call H) → FullChain H → Prop
  | nil (s : FullChain H) : Leads C s [] s
  | cons {s t u : FullChain H} {e : Call H} {es : List (Call H)} : C s e → s.step e = some t → Leads C t es u →
    Leads C s (e :: es) u

/-- All queries have the same answers. -/
structure SameAnswers (s t : FullChain H) : Prop where
  block : ∀ h, eval (lift (BlockChain.block h)) s = eval (lift (BlockChain.block h)) t
  details : ∀ h, eval (lift (BlockChain.details h)) s = eval (lift (BlockChain.details h)) t
  receipts : ∀ h, eval (receipts h) s = eval (receipts h) t
  logBlooms : ∀ h, eval (logBlooms h) s = eval (logBlooms h) t
  numberHash : ∀ i, eval (lift (BlockChain.numberHash i)) s = eval (lift (BlockChain.numberHash i)) t
  transactionLocation : ∀ h,
    eval (lift (BlockChain.transactionLocation h)) s = eval (lift (BlockChain.transactionLocation h)) t
  blocksBlooms : ∀ id, eval (blocksBlooms id) s = eval (blocksBlooms id) t

end FullChain

/-! ### What becomes canonical -/

namespace BlockChain

/-- The route from the head to the parent of `b` -/
def routeTo (s : BlockChain H) (b : VerifiedBlockRef H) : List H × H × Nat :=
  match treeRoute s.lastBlockHash b.parentHash s with
  | .ok r _ => r
  | .error _ _ => ([], 0, 0)

/-- `newOrBlock`, if it returns -/
def newOrBlock? (s : BlockChain H) (new : VerifiedBlockRef H) (h : H) : Option (VerifiedBlockRef H) :=
  if h = hash new then some new
  else if h = s.genesisHash then some s.genesis
  else s.blocks h

/-- The blocks that become canonical if `b` becomes the head, from the head down -/
def becoming (s : BlockChain H) (b : VerifiedBlockRef H) : List (VerifiedBlockRef H) :=
  (((s.routeTo b).1 ++ [hash b]).reverse.takeWhile (· ≠ (s.routeTo b).2.1)).filterMap (s.newOrBlock? b)

/-- If `b` becomes the head, there are blocks that are not canonical any more. -/
def Reverts (s : BlockChain H) (b : VerifiedBlockRef H) : Prop := (s.routeTo b).2.1 ≠ s.lastBlockHash

/-- Where the transactions of canonical blocks are said to be -/
def addresses (bs : List (VerifiedBlockRef H)) : List (H × TransactionAddress H) :=
  bs.flatMap fun tbi => tbi.transactions.zipIdx.map fun (t, i) => (t, ⟨hash tbi, i⟩)

end BlockChain

/-! ### The condition -/

/-- The chunks in which blooms are cleared or rebuilt -/
def clearedChunks (beginDirty endDirty : Nat) : List Nat :=
  (dirtyItems beginDirty endDirty).map (fun item => chunkId 0 (item / bloomIndexSize)) ++
    (dirtyItems (beginDirty / bloomIndexSize) (((endDirty + 2 ^ 32 - 1) % 2 ^ 32) / bloomIndexSize + 1)).map
      fun item => chunkId 1 (item / bloomIndexSize)

/-- The chunks that the blooms of these blocks go into -/
def bloomChunks (bs : List (VerifiedBlockRef H)) : List Nat :=
  bs.flatMap fun tbi => [chunkId 0 (tbi.number / bloomIndexSize), chunkId 1 (tbi.number / bloomIndexSize / bloomIndexSize)]

namespace FullChain

/-- The chunk has been noted as used. -/
def Noted (s : FullChain H) (id : Nat) : Prop := ∃ ids ∈ s.cacheUsage, ids (.blocksBlooms id) = true

/-- The chunk has not been noted as used, and it is not going to be loaded either: it is cached, or it is not in the database.
-/
structure Pinned (s : FullChain H) (id : Nat) : Prop where
  noted : ¬ s.Noted id
  loaded : s.extraBlocksBlooms.cache id = none → s.extraBlocksBlooms.db id = none

/-- `clearBlockBlooms` changes no chunk that may be evicted, but for those that are written to the database then. -/
def ClearsPinned (s : FullChain H) (firstInvalid : Nat) (written : List Nat) : Prop :=
  ∀ id ∈ clearedChunks firstInvalid ((s.chain.lastBlockNumber + 1) % 2 ^ 32), id ∉ written → s.Pinned id

/-- What is written for the new head is what is cached. -/
structure Extends (s : FullChain H) (b : VerifiedBlockRef H) : Prop where
  /-- No transaction is cached with another place than it is written with, if no address is evicted. -/
  addresses : ¬ s.chain.Reverts b → ∀ tx ta ta', s.chain.extraTransactionAddress.cache tx = some ta →
    Cached.lastOf (BlockChain.addresses (s.chain.becoming b)) tx = some ta' → ta = ta'
  blooms : s.chain.Reverts b → s.ClearsPinned (((s.chain.detailsOf (s.chain.routeTo b).2.1).number + 1) % 2 ^ 32)
    (bloomChunks (s.chain.becoming b))

/-- The call leaves nothing in the caches that a collection could uncover. -/
def Unseen (s : FullChain H) : Call H → Prop
  | .import_ b mustBeNew valid => s.chain.Accepts b mustBeNew valid →
    -- A block that is stored again has no children yet.
    (s.chain.detailsOf (hash b)).children = [] ∧
    -- The head is there, if its gas is asked for.
    ∃ best t, BlockChain.isBest b (s.chain.newTotalDifficulty b) s.chain.lastBlockHash s.chain = .ok best t ∧
      (best = true → s.Extends b)
  | .insert b mustBeNew validReceipts valid => validReceipts = true → s.chain.Accepts b mustBeNew valid →
    (s.chain.detailsOf (hash b)).children = []
  | .rewind newHead => newHead < s.chain.lastBlockNumber → s.ClearsPinned (newHead + 1) []
  | _ => True

end FullChain

end Kmdx.Chain
