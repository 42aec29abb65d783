import Kmdx.Lib.TwinCaches
import Kmdx.Rlp.Fields

/-!
# OverlayDB (`libdevcore/OverlayDB.cpp`) over LevelDB (`libdevcore/LevelDB.cpp`)

What `commit` hands to the store is kept: it is in the store and is found as before, unless its value is empty and hides
another (`kept_iff`). The batch is moved into the first attempt, so none of the others has anything to write, and a commit
whose first attempt fails never returns (`returns_iff`).
-/

namespace Kmdx.Db

open List

open Cached (lastOf)

abbrev H256 := Rlp.FixedHash 32

def asBytes (h : H256) : Bytes := Rlp.hashBytes 32 h

/-! ### LevelDB -/

/-- What a `leveldb::Status` is asked for. -/
inductive StatusCode
  | ok
  | notFound
  | corruption
  | notSupported
  | invalidArgument
  | ioError
deriving DecidableEq

structure Status where
  code : StatusCode
  string : String
deriving DecidableEq

inductive DatabaseStatus
  | ok
  | notFound
  | corruption
  | notSupported
  | invalidArgument
  | ioError
  | unknown
deriving DecidableEq

structure DatabaseError where
  dbStatusCode : Option DatabaseStatus := none
  dbStatusString : Option String := none
  comment : Option String := none

def toDatabaseStatus (status : Status) : DatabaseStatus :=
  match status.code with
  | .ok => .ok
  | .ioError => .ioError
  | .corruption => .corruption
  | .notFound => .notFound
  | _ => .unknown

def checkStatus (status : Status) : Except DatabaseError Unit :=
  if status.code = .ok then .ok ()
  else .error { dbStatusCode := toDatabaseStatus status, dbStatusString := status.string }

/-- The keys and values to put, in order. -/
abbrev WriteBatch := List (Bytes × Bytes)

def WriteBatch.insert (batch : WriteBatch) (key value : Bytes) : WriteBatch := batch ++ [(key, value)]

/-- A database whose reads succeed. A write is all or nothing, as its status says. -/
structure LevelDB where
  /-- The batches that have been written, the first first. -/
  written : List WriteBatch
  /-- What the next calls of `leveldb::DB::Write` answer. -/
  statuses : Nat → Status

namespace LevelDB

variable {db : LevelDB} {batch : WriteBatch} {key value : Bytes} {n : Nat}

def get (db : LevelDB) (key : Bytes) : Option Bytes := lastOf db.written.flatten key

def lookup (db : LevelDB) (key : Bytes) : Bytes := (db.get key).getD []

def exists_ (db : LevelDB) (key : Bytes) : Bool := (db.get key).isSome

def createWriteBatch : WriteBatch := []

/-- `m_db->Write` -/
def write (db : LevelDB) (batch : WriteBatch) : Status × LevelDB :=
  (db.statuses 0, {
    written := if (db.statuses 0).code = .ok then db.written ++ [batch] else db.written
    statuses := fun i => db.statuses (i + 1) })

/-- What a null pointer points to is none. -/
def commit (db : LevelDB) : Option WriteBatch → Except DatabaseError Unit × LevelDB
  | none => (.error { comment := "Cannot commit null batch" }, db)
  | some batch =>
    let (status, db) := db.write batch
    (checkStatus status, db)

theorem get_write (h : (db.statuses 0).code = .ok) (key : Bytes) :
    (db.write batch).2.get key = (lastOf batch key).or (db.get key) := by
  rw [get, write, if_pos h, flatten_append, Cached.lastOf_append, flatten_singleton, get]

end LevelDB

/-! ### MemoryDB (`libdevcore/MemoryDB.cpp`) -/

structure MemoryDB where
  /-- The values with their reference counts. -/
  main : AList fun _ : H256 => Bytes × UInt32
  /-- The auxiliary values, and whether they are live. -/
  aux : AList fun _ : H256 => Bytes × Bool
  enforceRefs : Bool

namespace MemoryDB

def lookup (m : MemoryDB) (h : H256) : Bytes :=
  match m.main.lookup h with
  | some it => if !m.enforceRefs || 0 < it.2 then it.1 else []
  | none => []

def exists_ (m : MemoryDB) (h : H256) : Bool :=
  match m.main.lookup h with
  | some it => !m.enforceRefs || 0 < it.2
  | none => false

def lookupAux (m : MemoryDB) (h : H256) : Bytes :=
  match m.aux.lookup h with
  | some it => if !m.enforceRefs || it.2 then it.1 else []
  | none => []

def insert (m : MemoryDB) (h : H256) (v : Bytes) : MemoryDB :=
  match m.main.lookup h with
  | some it => { m with main := m.main.insert h (v, it.2 + 1) }
  | none => { m with main := m.main.insert h (v, 1) }

/-- The loops of `commit` over the two maps. -/
def writeBatch (m : MemoryDB) : WriteBatch :=
  let batch := m.main.entries.foldl
    (fun (batch : WriteBatch) i => if i.2.2 ≠ 0 then batch.insert (asBytes i.1) i.2.1 else batch) LevelDB.createWriteBatch
  m.aux.entries.foldl
    (fun (batch : WriteBatch) i => if i.2.2 then batch.insert (asBytes i.1 ++ [255]) i.2.1 else batch) batch

end MemoryDB

/-! ### OverlayDB -/

structure OverlayDB extends MemoryDB where
  db : Option LevelDB

/-- How a call ends, and what there is then. -/
inductive Ending
  | returned (o : OverlayDB)
  /-- `exit(-1)` -/
  | exited (o : OverlayDB)

/-- The attempts that are left, if there are any, and whether one of them ends the loop. `std::move(writeBatch)` hands the
batch to the callee, so the caller's pointer is null from then on. -/
def attempts (db : LevelDB) (writeBatch : Option WriteBatch) : (left : Nat) → Bool × LevelDB
  | 0 => (true, db)
  | left + 1 =>
    match db.commit writeBatch with
    | (.ok (), db) => (true, db)
    | (.error _, db) => if left = 0 then (false, db) else attempts db none left

namespace OverlayDB

def commit (o : OverlayDB) : Ending :=
  match o.db with
  | none => .returned o
  | some db =>
    match attempts db (some o.writeBatch) 10 with
    | (true, db) => .returned { o with main := ∅, aux := ∅, db := some db }
    | (false, db) => .exited { o with db := some db }

def lookupAux (o : OverlayDB) (h : H256) : Bytes :=
  let ret := o.toMemoryDB.lookupAux h
  match o.db with
  | none => ret
  | some db => if ret ≠ [] then ret else db.lookup (asBytes h ++ [255])

def lookup (o : OverlayDB) (h : H256) : Bytes :=
  let ret := o.toMemoryDB.lookup h
  match o.db with
  | none => ret
  | some db => if ret ≠ [] then ret else db.lookup (asBytes h)

def exists_ (o : OverlayDB) (h : H256) : Bool :=
  o.toMemoryDB.exists_ h || (match o.db with | none => false | some db => db.exists_ (asBytes h))

end OverlayDB

/-! ### The batch -/

section

variable {m : MemoryDB} {h : H256} {v : Bytes} {n : UInt32}

theorem length_asBytes (h : H256) : (asBytes h).length = 32 := BigEndian.length_toBytes 32 _

theorem asBytes_injective : Function.Injective asBytes := by
  intro h h' heq
  have hlt : ∀ h : H256, h.toNat < 256 ^ 32 := fun h => h.isLt
  have hnat := congrArg BigEndian.ofBytes heq
  rw [asBytes, asBytes, Rlp.hashBytes, Rlp.hashBytes, BigEndian.ofBytes_toBytes, BigEndian.ofBytes_toBytes,
    Nat.mod_eq_of_lt (hlt h), Nat.mod_eq_of_lt (hlt h')] at hnat
  exact BitVec.eq_of_toNat_eq hnat

theorem auxKey_injective : Function.Injective fun h : H256 => asBytes h ++ [255] :=
  fun _ _ heq => asBytes_injective (append_cancel_right heq)

/-- One of the loops that fill the batch. -/
theorem foldl_insert {α : Type} (p : α → Bool) (key value : α → Bytes) (l : List α) (batch : WriteBatch) :
    l.foldl (fun batch i => if p i then batch.insert (key i) (value i) else batch) batch =
      batch ++ (l.filter p).map fun i => (key i, value i) := by
  induction l generalizing batch with
  | nil => rw [foldl_nil, filter_nil, map_nil, append_nil]
  | cons i l ih =>
    rw [foldl_cons, ih]
    by_cases hi : p i
    · rw [if_pos hi, filter_cons_of_pos hi, map_cons, WriteBatch.insert, append_assoc, singleton_append]
    · rw [if_neg hi, filter_cons_of_neg hi]

theorem writeBatch_eq (m : MemoryDB) : m.writeBatch =
    ((m.main.entries.filter fun i => i.2.2 ≠ 0).map fun i => (asBytes i.1, i.2.1)) ++
      (m.aux.entries.filter fun i => i.2.2).map fun i => (asBytes i.1 ++ [255], i.2.1) := by
  have hmain := foldl_insert (fun i : Σ _ : H256, Bytes × UInt32 => decide (i.2.2 ≠ 0))
      (fun i => asBytes i.1) (fun i => i.2.1)
    m.main.entries LevelDB.createWriteBatch
  simp only [decide_eq_true_iff] at hmain
  rw [MemoryDB.writeBatch, hmain, foldl_insert, LevelDB.createWriteBatch, nil_append]

/-- The keys of one map give different keys of the store. -/
theorem nodup_keys {β : Type} (s : AList fun _ : H256 => β) (p : (Σ _ : H256, β) → Bool) {key : H256 → Bytes}
    (hkey : Function.Injective key) (value : (Σ _ : H256, β) → Bytes) :
    (((s.entries.filter p).map fun i => (key i.1, value i)).map Prod.fst).Nodup := by
  have hnodup : ((s.entries.filter p).map Sigma.fst).Nodup := List.Nodup.sublist (filter_sublist.map _) s.nodupKeys
  rw [map_map]
  rw [show Prod.fst ∘ (fun i : Σ _ : H256, β => (key i.1, value i)) = key ∘ Sigma.fst from rfl, ← map_map]
  exact hnodup.map hkey

theorem nodup_writeBatch (m : MemoryDB) : (m.writeBatch.map Prod.fst).Nodup := by
  rw [writeBatch_eq, map_append]
  refine (nodup_keys _ _ asBytes_injective _).append (nodup_keys _ _ auxKey_injective _) fun key hmain haux => ?_
  simp only [map_map, mem_map, Function.comp_apply] at hmain haux
  obtain ⟨i, -, rfl⟩ := hmain
  obtain ⟨j, -, heq⟩ := haux
  have hlen := congrArg List.length heq
  rw [length_append, length_asBytes, length_asBytes] at hlen
  exact absurd hlen (by decide)

theorem mem_entries_iff {β : Type} {s : AList fun _ : H256 => β} {b : β} : s.lookup h = some b ↔ ⟨h, b⟩ ∈ s.entries :=
  AList.mem_lookup_iff

theorem lastOf_node (hnode : m.main.lookup h = some (v, n)) (hn : n ≠ 0) : lastOf m.writeBatch (asBytes h) = some v := by
  rw [Cached.lastOf_eq_some_iff (nodup_writeBatch m), writeBatch_eq]
  refine mem_append_left _ (mem_map.2 ⟨⟨h, v, n⟩, mem_filter.2 ⟨mem_entries_iff.1 hnode, ?_⟩, rfl⟩)
  exact decide_eq_true hn

theorem lastOf_aux (haux : m.aux.lookup h = some (v, true)) : lastOf m.writeBatch (asBytes h ++ [255]) = some v := by
  rw [Cached.lastOf_eq_some_iff (nodup_writeBatch m), writeBatch_eq]
  exact mem_append_right _ (mem_map.2 ⟨⟨h, v, true⟩, mem_filter.2 ⟨mem_entries_iff.1 haux, rfl⟩, rfl⟩)

end

/-! ### The attempts -/

theorem attempts_none (db : LevelDB) (left : Nat) : attempts db none (left + 1) = (false, db) := by
  induction left with
  | zero => rfl
  | succ left ih => exact ih

/-- The first attempt is the only one that has a batch. -/
theorem attempts_some (db : LevelDB) (batch : WriteBatch) {left : Nat} (hleft : 1 < left) :
    attempts db (some batch) left = (decide ((db.statuses 0).code = .ok), (db.write batch).2) := by
  obtain ⟨left, rfl⟩ := Nat.exists_eq_add_of_le hleft
  rw [Nat.add_comm]
  have hcommit : db.commit (some batch) = (checkStatus (db.statuses 0), (db.write batch).2) := rfl
  by_cases hok : (db.statuses 0).code = .ok
  · rw [attempts, hcommit, checkStatus, if_pos hok, decide_eq_true hok]
  · rw [attempts, hcommit, checkStatus, if_neg hok, decide_eq_false hok]
    exact attempts_none _ _

namespace OverlayDB

variable {o o' : OverlayDB} {db : LevelDB}

theorem commit_none (h : o.db = none) : o.commit = .returned o := by rw [commit, h]

theorem commit_of_ok (h : o.db = some db) (hok : (db.statuses 0).code = .ok) :
    o.commit = .returned ⟨⟨∅, ∅, o.enforceRefs⟩, some (db.write o.writeBatch).2⟩ := by
  rw [commit, h]
  dsimp only
  rw [attempts_some db o.writeBatch (by decide), decide_eq_true hok]

theorem commit_of_not_ok (h : o.db = some db) (hok : (db.statuses 0).code ≠ .ok) :
    o.commit = .exited ⟨o.toMemoryDB, some (db.write o.writeBatch).2⟩ := by
  rw [commit, h]
  dsimp only
  rw [attempts_some db o.writeBatch (by decide), decide_eq_false hok]

/-- A commit returns if and only if the store writes the batch in the first attempt, or there is no store. -/
theorem returns_iff : (∃ o', o.commit = .returned o') ↔ ∀ db, o.db = some db → (db.statuses 0).code = .ok := by
  cases hdb : o.db with
  | none => exact ⟨fun _ => nofun, fun _ => ⟨o, commit_none hdb⟩⟩
  | some db =>
    constructor
    · rintro ⟨o', ho'⟩ _ ⟨⟩
      by_contra hok
      rw [commit_of_not_ok hdb hok] at ho'
      cases ho'
    · exact fun h => ⟨_, commit_of_ok hdb (h db rfl)⟩

/-! ### What a commit keeps -/

/-- What the store has under a key. -/
def stored (o : OverlayDB) (key : Bytes) : Option Bytes := o.db.bind fun db => db.get key

/-- The nodes with a positive count and the live auxiliary entries of `o` are in the store of `o'`, if there is one, and are
found as in `o`. -/
structure Kept (o o' : OverlayDB) : Prop where
  node : ∀ h v n, o.main.lookup h = some (v, n) → n ≠ 0 → (o.db.isSome → o'.stored (asBytes h) = some v) ∧
    o'.lookup h = o.lookup h ∧ o'.exists_ h = o.exists_ h
  aux : ∀ h v, o.aux.lookup h = some (v, true) → (o.db.isSome → o'.stored (asBytes h ++ [255]) = some v) ∧
    o'.lookupAux h = o.lookupAux h

/-- The store has written the batch. -/
def Written (o o' : OverlayDB) : Prop :=
  ∃ db db', o.db = some db ∧ o'.db = some db' ∧ db'.written = db.written ++ [o.writeBatch]

/-- Under the keys of the empty values the store has no others. -/
structure Unhidden (o : OverlayDB) (db : LevelDB) : Prop where
  node : ∀ h n, o.main.lookup h = some ([], n) → n ≠ 0 → db.lookup (asBytes h) = []
  aux : ∀ h, o.aux.lookup h = some ([], true) → db.lookup (asBytes h ++ [255]) = []

theorem lookup_node (hdb : o.db = some db) {h : H256} {v : Bytes} {n : UInt32} (hnode : o.main.lookup h = some (v, n))
    (hn : n ≠ 0) : o.lookup h = if v ≠ [] then v else db.lookup (asBytes h) := by
  have hpos : (0 : UInt32) < n := UInt32.pos_iff_ne_zero.2 hn
  rw [lookup, MemoryDB.lookup, hdb, hnode]
  simp [hpos]

theorem exists_node {h : H256} {v : Bytes} {n : UInt32} (hnode : o.main.lookup h = some (v, n)) (hn : n ≠ 0) :
    o.exists_ h = true := by
  have hpos : (0 : UInt32) < n := UInt32.pos_iff_ne_zero.2 hn
  rw [exists_, MemoryDB.exists_, hnode]
  simp [hpos]

theorem lookupAux_live (hdb : o.db = some db) {h : H256} {v : Bytes} (haux : o.aux.lookup h = some (v, true)) :
    o.lookupAux h = if v ≠ [] then v else db.lookup (asBytes h ++ [255]) := by
  rw [lookupAux, MemoryDB.lookupAux, hdb, haux]
  simp

/-- What is found where nothing is in memory. -/
theorem of_cleared (b : Bool) (db : LevelDB) (h : H256) :
    let o : OverlayDB := ⟨⟨∅, ∅, b⟩, some db⟩
    o.lookup h = db.lookup (asBytes h) ∧ o.exists_ h = db.exists_ (asBytes h) ∧
      o.lookupAux h = db.lookup (asBytes h ++ [255]) := by
  refine ⟨?_, ?_, ?_⟩
  · simp [lookup, MemoryDB.lookup]
  · simp [exists_, MemoryDB.exists_]
  · simp [lookupAux, MemoryDB.lookupAux]

/-- A commit that the store accepts keeps everything if and only if no empty value hides another. -/
theorem kept_iff (hdb : o.db = some db) (hok : (db.statuses 0).code = .ok) :
    Kept o ⟨⟨∅, ∅, o.enforceRefs⟩, some (db.write o.writeBatch).2⟩ ↔ Unhidden o db := by
  have hempty : ∀ v w : Bytes, v = (if v ≠ [] then v else w) ↔ (v = [] → w = []) := fun v w => by
    by_cases hv : v = []
    · simp [hv, eq_comm]
    · simp [hv]
  have hget : ∀ {key v}, lastOf o.writeBatch key = some v → (db.write o.writeBatch).2.get key = some v := fun hlast => by
    rw [LevelDB.get_write hok, hlast, Option.some_or]
  constructor
  · intro h
    refine ⟨fun hash n hnode hn => ?_, fun hash haux => ?_⟩
    · obtain ⟨-, hlookup, -⟩ := h.node hash [] n hnode hn
      rw [(of_cleared _ _ _).1, LevelDB.lookup, hget (lastOf_node hnode hn), lookup_node hdb hnode hn] at hlookup
      exact (hempty _ _).1 hlookup rfl
    · obtain ⟨-, hlookup⟩ := h.aux hash [] haux
      rw [(of_cleared _ _ _).2.2, LevelDB.lookup, hget (lastOf_aux haux), lookupAux_live hdb haux] at hlookup
      exact (hempty _ _).1 hlookup rfl
  · intro h
    refine ⟨fun hash v n hnode hn => ?_, fun hash v haux => ?_⟩
    · obtain ⟨hlookup, hexists, -⟩ := of_cleared o.enforceRefs (db.write o.writeBatch).2 hash
      have hstored := hget (lastOf_node hnode hn)
      refine ⟨fun _ => hstored, ?_, ?_⟩
      · rw [hlookup, LevelDB.lookup, hstored, lookup_node hdb hnode hn]
        exact (hempty _ _).2 fun hv => h.node hash n (hv ▸ hnode) hn
      · rw [hexists, LevelDB.exists_, hstored, exists_node hnode hn, Option.isSome_some]
    · have hstored := hget (lastOf_aux haux)
      refine ⟨fun _ => hstored, ?_⟩
      rw [(of_cleared _ _ _).2.2, LevelDB.lookup, hstored, lookupAux_live hdb haux]
      exact (hempty _ _).2 fun hv => h.aux hash (hv ▸ haux)

/-- However it ends, what is in memory has been written or is still there. -/
theorem written_or_same (h : o.commit = .returned o' ∨ o.commit = .exited o') :
    o'.main = o.main ∧ o'.aux = o.aux ∨ Written o o' := by
  cases hdb : o.db with
  | none =>
    rw [commit_none hdb] at h
    rcases h with h | h <;> cases h
    exact .inl ⟨rfl, rfl⟩
  | some db =>
    by_cases hok : (db.statuses 0).code = .ok
    · rw [commit_of_ok hdb hok] at h
      rcases h with h | h <;> cases h
      exact .inr ⟨db, _, hdb, rfl, if_pos hok⟩
    · rw [commit_of_not_ok hdb hok] at h
      rcases h with h | h <;> cases h
      exact .inl ⟨rfl, rfl⟩

/-- Where the store accepts one of ten attempts, a commit comes back. When one comes back, all is kept, and nothing is cleared
that the store has not written. -/
structure LosesNothing (o : OverlayDB) : Prop where
  returns : ∀ db, o.db = some db → (∃ i < 10, (db.statuses i).code = .ok) → ∃ o', o.commit = .returned o'
  kept : ∀ o', o.commit = .returned o' → Kept o o'
  cleared : ∀ o', o.commit = .returned o' ∨ o.commit = .exited o' → o'.main = o.main ∧ o'.aux = o.aux ∨ Written o o'

/-- A commit loses nothing if and only if it is the first attempt that the store accepts, and no empty value hides another. -/
theorem losesNothing_iff (o : OverlayDB) : LosesNothing o ↔
    ∀ db, o.db = some db → (∃ i < 10, (db.statuses i).code = .ok) → (db.statuses 0).code = .ok ∧ Unhidden o db := by
  constructor
  · intro h db hdb hsome
    have hok := returns_iff.1 (h.returns db hdb hsome) db hdb
    exact ⟨hok, (kept_iff hdb hok).1 (h.kept _ (commit_of_ok hdb hok))⟩
  · intro h
    refine ⟨fun db hdb hsome => returns_iff.2 fun db' hdb' => ?_, fun o' ho' => ?_, fun o' => written_or_same⟩
    · rw [hdb] at hdb'
      cases hdb'
      exact (h db hdb hsome).1
    · cases hdb : o.db with
      | none =>
        rw [commit_none hdb] at ho'
        cases ho'
        refine ⟨fun _ _ _ _ _ => ⟨fun hsome => ?_, rfl, rfl⟩, fun _ _ _ => ⟨fun hsome => ?_, rfl⟩⟩ <;>
          exact absurd hsome (by simp [hdb])
      | some db =>
        have hok := returns_iff.1 ⟨o', ho'⟩ db hdb
        rw [commit_of_ok hdb hok] at ho'
        cases ho'
        exact (kept_iff hdb hok).2 (h db hdb ⟨0, by decide, hok⟩).2

/-- A store that has one value under the key 0, and what its next writes answer. -/
def oneValue (statuses : Nat → Status) : LevelDB := ⟨[[(asBytes 0, [1])]], statuses⟩

/-- An empty node is stored over another one, and the second of two attempts would be accepted. -/
theorem not_losesNothing :
    ¬LosesNothing ⟨MemoryDB.insert ⟨∅, ∅, false⟩ 0 [], some (oneValue fun _ => ⟨.ok, ""⟩)⟩ ∧
    ¬LosesNothing ⟨MemoryDB.insert ⟨∅, ∅, false⟩ 0 [2],
      some (oneValue fun i => if i = 0 then ⟨.ioError, ""⟩ else ⟨.ok, ""⟩)⟩ := by
  constructor
  · intro h
    have hkept := h.kept _ (commit_of_ok rfl rfl)
    obtain ⟨-, hlookup, -⟩ := hkept.node 0 [] 1 rfl (by decide)
    revert hlookup
    decide
  · intro h
    obtain ⟨o', ho'⟩ := h.returns _ rfl ⟨1, by decide, rfl⟩
    rw [commit_of_not_ok rfl (by decide)] at ho'
    cases ho'

end OverlayDB

end Kmdx.Db
