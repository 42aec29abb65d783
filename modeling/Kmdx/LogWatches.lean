import Mathlib.Order.Lattice.Nat

/-!
# Watches on log filters (`libwing/ClientBase`, `libwing/Client`)

A watch refers to a filter by the hash of that. What is appended goes into the changes of each filter, and `noteChanged`
hands them on to the watches. Beside the client, a run keeps what each watch is to be told of (`Subscription`), by what is
appended and noted while it is installed. A filter is counted once, however many watches are on it, so the first one to go
takes it away from the others.
-/

namespace Kmdx

open Function

/-- `LocalisedLogEntry`; `logIndex` is 0 wherever it is made here. -/
inductive LocalisedLogEntry (E H : Type)
  | pending (entry : E)
  | special (special : H)
  | mined (entry : E) (blockHash : H) (blockNumber : Nat) (transactionHash : H) (transactionIndex : Nat) (live : Bool)
deriving DecidableEq

/-- `InstalledFilter` -/
structure InstalledFilter (F E H : Type) where
  filter : F
  refCount : Nat := 1
  changes : List (LocalisedLogEntry E H) := []

/-- `ClientWatch`; when it was polled is left out. -/
structure ClientWatch (E H : Type) where
  id : H
  changes : List (LocalisedLogEntry E H) := []

/-- The chain, and what filters are made of. -/
structure LogHost (F R E H : Type) where
  /-- `LogFilter::sha3` -/
  sha3 : F → H
  /-- `LogFilter::matches` of a receipt -/
  matchesReceipt : F → R → List E
  receipts : H → List R
  number : H → Nat
  transactionHash : H → Nat → H
  pendingChangedFilter : H
  chainChangedFilter : H

/-- What `x_filtersWatches` guards. -/
structure Client (F E H : Type) where
  filters : H → Option (InstalledFilter F E H)
  specialFilters : H → Option (List H)
  /-- The keys of `m_watches` -/
  installed : Finset Nat := ∅
  watches : Nat → ClientWatch E H

namespace Client

variable {F R E H : Type} [DecidableEq H] (c : LogHost F R E H)

def constructed (watches : Nat → ClientWatch E H) : Client F E H where
  filters _ := none
  specialFilters h := if h = c.pendingChangedFilter ∨ h = c.chainChangedFilter then some [] else none
  watches := watches

/-- `installWatch` of a filter, as far as it holds the lock for the first time -/
def installFilter (f : F) (s : Client F E H) : Client F E H :=
  if (s.filters (c.sha3 f)).isSome then s
  else { s with filters := update s.filters (c.sha3 f) (some { filter := f }) }

/-- The number of the next watch, an `unsigned`. -/
def nextWatch (s : Client F E H) : Nat := if s.installed = ∅ then 0 else (s.installed.sup id + 1) % 2 ^ 32

/-- `installWatch` of a hash, which that of a filter ends with -/
def installWatch (h : H) (s : Client F E H) : Nat × Client F E H :=
  (s.nextWatch, { s with
    installed := insert s.nextWatch s.installed, watches := update s.watches s.nextWatch { id := h } })

def uninstallWatch (i : Nat) (s : Client F E H) : Bool × Client F E H :=
  if i ∉ s.installed then (false, s)
  else
    let id := (s.watches i).id
    let s := { s with installed := s.installed.erase i }
    match s.filters id with
    | none => (true, s)
    | some fit =>
      if fit.refCount - 1 = 0 then (true, { s with filters := update s.filters id none })
      else (true, { s with filters := update s.filters id (some { fit with refCount := fit.refCount - 1 }) })

/-- None if there is no such watch. -/
def checkWatch (i : Nat) (s : Client F E H) : Option (List (LocalisedLogEntry E H) × Client F E H) :=
  if i ∉ s.installed then none
  else some ((s.watches i).changes, { s with watches := update s.watches i { s.watches i with changes := [] } })

/-- The entries that a filter finds in the receipts of a block. -/
def blockEntries (f : F) (block : H) (live : Bool) : List (LocalisedLogEntry E H) :=
  (c.receipts block).zipIdx.flatMap fun r =>
    (c.matchesReceipt f r.1).map fun l => .mined l block (c.number block) (c.transactionHash block r.2) r.2 live

/-- The change of each filter and of one of the special ones. -/
def append (entries : F → List (LocalisedLogEntry E H)) (specialId special : H) (s : Client F E H) : Client F E H :=
  { s with
    filters := fun h => (s.filters h).map fun i => { i with changes := i.changes ++ entries i.filter }
    specialFilters := fun h => if h = specialId then (s.specialFilters h).map (· ++ [special]) else s.specialFilters h }

def appendFromNewPending (receipt : R) (sha3 : H) (s : Client F E H) : Client F E H :=
  s.append (fun f => (c.matchesReceipt f receipt).map .pending) c.pendingChangedFilter sha3

def appendFromBlock (block : H) (live : Bool) (s : Client F E H) : Client F E H :=
  s.append (fun f => blockEntries c f block live) c.chainChangedFilter block

/-- What a watch on a hash is told of. -/
def pendingChanges (s : Client F E H) (id : H) : List (LocalisedLogEntry E H) :=
  match s.filters id with
  | some i => i.changes
  | none => ((s.specialFilters id).getD []).map .special

def noteChanged (ids : H → Bool) (s : Client F E H) : Client F E H :=
  { s with
    watches := fun i => if i ∈ s.installed ∧ ids (s.watches i).id then
      { s.watches i with changes := (s.watches i).changes ++ s.pendingChanges (s.watches i).id } else s.watches i
    filters := fun h => (s.filters h).map fun i => { i with changes := [] }
    specialFilters := fun h => (s.specialFilters h).map fun _ => [] }

end Client

/-! ### Runs -/

/-- What a watch is on. -/
inductive Subject (F H : Type)
  | filter (f : F)
  | special (id : H)
  | nothing

/-- What a watch is to be told of. -/
structure Subscription (F E H : Type) where
  subject : Subject F H
  /-- Appended since it was installed, and not noted yet. -/
  due : List (LocalisedLogEntry E H) := []
  /-- Appended and noted. -/
  noted : List (LocalisedLogEntry E H) := []
  /-- What `checkWatch` has given. -/
  returned : List (LocalisedLogEntry E H) := []

structure WatchRun (F E H : Type) where
  client : Client F E H
  subscriptions : Nat → Subscription F E H

inductive WatchOp (F R H : Type)
  | installFilter (f : F)
  | installWatch (h : H)
  | uninstallWatch (i : Nat)
  | checkWatch (i : Nat)
  | appendFromNewPending (receipt : R) (sha3 : H)
  | appendFromBlock (block : H) (live : Bool)
  | noteChanged (ids : H → Bool)

namespace WatchRun

open Client

variable {F R E H : Type} [DecidableEq H] (c : LogHost F R E H)

/-- What a hash stands for. -/
def subject (s : Client F E H) (h : H) : Subject F H :=
  match s.filters h with
  | some i => .filter i.filter
  | none => if h = c.pendingChangedFilter ∨ h = c.chainChangedFilter then .special h else .nothing

/-- The entries that are appended for a subject. -/
def entriesFor (entries : F → List (LocalisedLogEntry E H)) (specialId special : H) :
    Subject F H → List (LocalisedLogEntry E H)
  | .filter f => entries f
  | .special id => if id = specialId then [.special special] else []
  | .nothing => []

def subscribed (entries : F → List (LocalisedLogEntry E H)) (specialId special : H)
    (subscriptions : Nat → Subscription F E H) : Nat → Subscription F E H := fun i =>
  { subscriptions i with due := (subscriptions i).due ++ entriesFor entries specialId special (subscriptions i).subject }

def step (s : WatchRun F E H) : WatchOp F R H → WatchRun F E H
  | .installFilter f => { s with client := s.client.installFilter c f }
  | .installWatch h => {
      client := (s.client.installWatch h).2
      subscriptions := update s.subscriptions s.client.nextWatch { subject := subject c s.client h } }
  | .uninstallWatch i => { s with client := (s.client.uninstallWatch i).2 }
  | .checkWatch i =>
    match s.client.checkWatch i with
    | none => s
    | some (changes, client) => {
        client
        subscriptions := update s.subscriptions i
          { s.subscriptions i with returned := (s.subscriptions i).returned ++ changes } }
  | .appendFromNewPending receipt sha3 => {
      client := s.client.appendFromNewPending c receipt sha3
      subscriptions := subscribed (fun f => (c.matchesReceipt f receipt).map .pending) c.pendingChangedFilter
        sha3 s.subscriptions }
  | .appendFromBlock block live => {
      client := s.client.appendFromBlock c block live
      subscriptions := subscribed (fun f => blockEntries c f block live) c.chainChangedFilter block s.subscriptions }
  | .noteChanged ids => {
      client := s.client.noteChanged ids
      subscriptions := fun i =>
        { s.subscriptions i with noted := (s.subscriptions i).noted ++ (s.subscriptions i).due, due := [] } }

/-- The states of the runs whose steps are `ok`. -/
inductive Reaches (ok : WatchRun F E H → WatchOp F R H → Prop) : WatchRun F E H → Prop
  | start (watches : Nat → ClientWatch E H) (subscriptions : Nat → Subscription F E H) :
    Reaches ok ⟨constructed c watches, subscriptions⟩
  | step {s : WatchRun F E H} {op : WatchOp F R H} : Reaches ok s → ok s op → Reaches ok (s.step c op)

end WatchRun

end Kmdx
