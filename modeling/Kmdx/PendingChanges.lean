import Kmdx.BlockSync
import Kmdx.LogWatches

/-!
# Pending transactions are announced (`libwing/Client.cpp`)

`Block::sync` gives the receipts of what it has executed now, and the hashes that go with them are taken from the front of all
that is pending. They are of the same transactions if nothing was pending before, or nothing is executed (`named_iff`).
-/

namespace Kmdx

open Wp Block QueuedTransaction List

/-- What `syncTransactionQueue` works on -/
structure PendingClient (H : Type) (c : Containers) (D F E : Type) [QueuedTransaction Transaction D] where
  working : Block H
  postSeal : Block H
  tq : TransactionQueue c Transaction D
  /-- `m_syncTransactionQueue`: there are more to be synced -/
  more : Bool
  /-- The filters and the watches -/
  client : Client F E D
  /-- What `appendFromNewPending` was given: hashes, each with a receipt -/
  announced : List (D × TransactionReceipt H)

namespace PendingClient

section

variable {H D F E : Type} [Digest H] {c : Containers} [QueuedTransaction Transaction D] [DecidableEq D]
  (l : LogHost F (TransactionReceipt H) E D)

def appendFromNewPending (receipt : TransactionReceipt H) (sha3 : D) (s : PendingClient H c D F E) :
    PendingClient H c D F E :=
  { s with client := s.client.appendFromNewPending l receipt sha3, announced := s.announced ++ [(sha3, receipt)] }

/-- `io_changed` after that -/
def changed (receipt : TransactionReceipt H) (s : PendingClient H c D F E) (io_changed : D → Bool) : D → Bool := fun id =>
  io_changed id || id = l.pendingChangedFilter || (s.client.filters id).any fun i =>
    !(l.matchesReceipt i.filter receipt).isEmpty

/-- The loop over the new receipts, from the index `i` on. `none` if there are fewer transactions than receipts. -/
def announce : Nat → List (TransactionReceipt H) → (D → Bool) × PendingClient H c D F E →
    Option ((D → Bool) × PendingClient H c D F E)
  | _, [], s => some s
  | i, receipt :: receipts, (changeds, s) => do
    let t ← s.postSeal.transactions[i]?
    announce (i + 1) receipts (changed l receipt s changeds, s.appendFromNewPending l receipt (digest t))

/-- What follows `sync` -/
def noteNewPending (newPendingReceipts : List (TransactionReceipt H)) (s : PendingClient H c D F E) :
    Option (PendingClient H c D F E) :=
  if newPendingReceipts = [] then some s
  else do
    let s := { s with postSeal := s.working }
    let (changeds, s) ← announce l 0 newPendingReceipts (fun _ => false, s)
    return { s with client := s.client.noteChanged changeds }

/-- A call on the chain that `m_working` is on, so that `resyncStateFromChain` does nothing; `none` if it does not return. -/
def syncTransactionQueue (v : SyncSetting H) (late : Nat → Bool) (fuel : Nat) (s : PendingClient H c D F E) :
    Option (PendingClient H c D F E) :=
  -- Skipping txq sync for a sealed block.
  if s.working.isSealed then some s
  else
    match Block.sync v late fuel (s.working, s.tq) with
    | .error _ _ => none
    | .ok r (working, tq) => do
      let (passes, more) ← r
      noteNewPending l (passes.flatten.map Prod.snd) { s with working, tq, more }

/-! ### Calls -/

/-- A call that has returned -/
structure Call (H : Type) (c : Containers) (D F E : Type) [QueuedTransaction Transaction D] where
  v : SyncSetting H
  late : Nat → Bool
  fuel : Nat
  before : PendingClient H c D F E
  after : PendingClient H c D F E

/-- `Block::sync` executes something. -/
def Call.Executes (call : Call H c D F E) : Prop := ∃ r s',
    Block.sync call.v call.late call.fuel (call.before.working, call.before.tq) =
  .ok (some r) s' ∧ r.1.flatten ≠ []

/-- The queue, the filters and the watches may become others, and the block may be committed. -/
structure Between (s s' : PendingClient H c D F E) : Prop where
  working : SameList s.working s'.working
  announced : s'.announced = s.announced

/-- So the client comes from `s₀` to another state, between two changes of the chain. -/
inductive Run (s₀ : PendingClient H c D F E) : List (Call H c D F E) → PendingClient H c D F E → Prop
  | start : Run s₀ [] s₀
  | between {calls : List (Call H c D F E)} {s s' : PendingClient H c D F E} : Run s₀ calls s → Between s s' → Run s₀ calls s'
  | call {calls : List (Call H c D F E)} (call : Call H c D F E) : Run s₀ calls call.before →
    syncTransactionQueue l call.v call.late call.fuel call.before = some call.after → Run s₀ (calls ++ [call]) call.after

/-! ### What is to be announced -/

variable {l} {s₀ s s' : PendingClient H c D F E} {calls : List (Call H c D F E)} {call : Call H c D F E}

/-- The transactions that `s'` has and `s` had not, with their receipts -/
def newlyExecuted (s s' : PendingClient H c D F E) : List (Transaction × TransactionReceipt H) :=
  (s'.working.transactions.drop s.working.transactions.length).zip (s'.working.receipts.drop s.working.receipts.length)

def newlyAnnounced (s s' : PendingClient H c D F E) : List (D × TransactionReceipt H) := s'.announced.drop s.announced.length

/-- Exactly what was executed is announced, once and with its own receipt. -/
structure Names (s s' : PendingClient H c D F E) : Prop where
  announced : (newlyAnnounced s s').Perm ((newlyExecuted s s').map fun e => (digest e.1, e.2))
  once : ((newlyAnnounced s s').map Prod.fst).Nodup

/-- Each call names what it executes, so each transaction that has become pending was announced once. -/
structure Named (s₀ : PendingClient H c D F E) (calls : List (Call H c D F E)) (s : PendingClient H c D F E) : Prop where
  calls : ∀ call ∈ calls, Names call.before call.after
  once : ∀ e ∈ newlyExecuted s₀ s, ((newlyAnnounced s₀ s).map Prod.fst).count (digest e.1) = 1

/-! ### What is announced -/

/-- The hash of a transaction, with its receipt -/
def named (t : Transaction) (receipt : TransactionReceipt H) : D × TransactionReceipt H := (digest t, receipt)

omit [Digest H] in
theorem announce_spec {i : Nat} {receipts : List (TransactionReceipt H)} {x y : (D → Bool) × PendingClient H c D F E}
    (h : announce l i receipts x = some y) : y.2.working = x.2.working ∧
      y.2.announced = x.2.announced ++ List.zipWith named (x.2.postSeal.transactions.drop i) receipts := by
  induction receipts generalizing i x with
  | nil =>
    cases h
    exact ⟨rfl, by simp⟩
  | cons receipt receipts ih =>
    obtain ⟨changeds, s⟩ := x
    obtain ⟨t, ht, hrest⟩ := Option.bind_eq_some_iff.1 h
    obtain ⟨hworking, hannounced⟩ := ih hrest
    obtain ⟨hlt, hget⟩ := List.getElem?_eq_some_iff.1 ht
    refine ⟨hworking, ?_⟩
    rw [hannounced, drop_eq_getElem_cons hlt, hget, zipWith_cons_cons]
    exact append_assoc ..

/-- What `sync` has executed was added to the block. -/
theorem grown_of_sync {v : SyncSetting H} {late : Nat → Bool} {fuel : Nat} {b b' : Block H}
    {q q' : TransactionQueue c Transaction D} {passes : List (List (Transaction × TransactionReceipt H))} {more : Bool}
    (h : Block.sync v late fuel (b, q) = .ok (some (passes, more)) (b', q')) : Grown D b b' passes.flatten := by
  have hsealed : b.isSealed = false := by
    by_contra hsealed
    rw [Bool.not_eq_false] at hsealed
    rw [Block.sync, run_bind, run_get] at h
    simp only [hsealed] at h
    cases h
  have hparent : v.currentHash = b.currentBlock.parentHash := by
    by_contra hparent
    rw [Block.sync, run_bind, run_get] at h
    simp only [hsealed, hparent] at h
    cases h
  obtain ⟨more', hlooped⟩ := looped_of_sync hsealed hparent h
  exact hlooped.grown

omit [Digest H] in
theorem noteNewPending_spec {receipts : List (TransactionReceipt H)} (h : noteNewPending l receipts s = some s') :
    s'.working = s.working ∧ s'.announced = s.announced ++ List.zipWith named s.working.transactions receipts := by
  rw [noteNewPending] at h
  split at h
  · rename_i hnone
    cases h
    rw [hnone]
    exact ⟨rfl, by simp⟩
  · obtain ⟨⟨changeds, s₁⟩, hannounce, h⟩ := Option.bind_eq_some_iff.1 h
    cases h
    exact announce_spec hannounce

theorem not_executes_of_isSealed (h : call.before.working.isSealed = true) : ¬call.Executes := by
  rintro ⟨r, s', hsync, -⟩
  rw [Block.sync, run_bind, run_get] at hsync
  simp only [h] at hsync
  cases hsync

theorem call_spec (h : syncTransactionQueue l call.v call.late call.fuel call.before = some call.after) :
    ∃ executed, Grown D call.before.working call.after.working executed ∧ (call.Executes ↔ executed ≠ []) ∧
      call.after.announced = call.before.announced ++
        List.zipWith named call.after.working.transactions (executed.map Prod.snd) := by
  rw [syncTransactionQueue] at h
  split at h
  · rename_i hsealed
    have hnot := not_executes_of_isSealed hsealed
    rw [← Option.some.inj h]
    exact ⟨[], .nil rfl rfl, iff_of_false hnot (not_not.2 rfl), by simp⟩
  split at h
  · cases h
  rename_i r working tq hsync
  obtain ⟨⟨passes, more⟩, rfl, h⟩ := Option.bind_eq_some_iff.1 h
  obtain ⟨hworking, hannounced⟩ := noteNewPending_spec h
  have hexecutes : call.Executes ↔ passes.flatten ≠ [] := by
    constructor
    · rintro ⟨r, s', hsync', hne⟩
      rw [hsync] at hsync'
      cases hsync'
      exact hne
    · exact fun hne => ⟨_, _, hsync, hne⟩
  refine ⟨passes.flatten, ?_, hexecutes, ?_⟩
  · rw [hworking]
    exact grown_of_sync hsync
  · rw [hannounced, hworking]

omit [Digest H] in
theorem newlyExecuted_of_grown {executed : List (Transaction × TransactionReceipt H)}
    (h : Grown D s.working s'.working executed) : newlyExecuted s s' = executed := by
  rw [newlyExecuted, h.transactions, h.receipts, drop_left, drop_left, zip_map']
  simp

omit [Digest H] in
theorem digests_nodup {b b' : Block H} {executed : List (Transaction × TransactionReceipt H)} (h : Grown D b b' executed) :
    ((executed.map fun e => named (D := D) e.1 e.2).map Prod.fst).Nodup := by
  rw [map_map]
  exact h.nodup

/-- A call names what it executes if nothing was pending before, or nothing is executed. -/
theorem names_iff (h : syncTransactionQueue l call.v call.late call.fuel call.before = some call.after) :
    Names call.before call.after ↔ call.before.working.transactions = [] ∨ ¬call.Executes := by
  obtain ⟨executed, hgrown, hexecutes, hannounced⟩ := call_spec h
  have hnew : newlyAnnounced call.before call.after =
      List.zipWith named call.after.working.transactions (executed.map Prod.snd) := by
    rw [newlyAnnounced, hannounced, drop_left]
  rw [hexecutes, not_not]
  constructor
  · rintro ⟨hperm, -⟩
    by_contra hnot
    obtain ⟨hold, hne⟩ := not_or.1 hnot
    obtain ⟨t, old, hold⟩ := exists_cons_of_ne_nil hold
    obtain ⟨e, rest, hrest⟩ := exists_cons_of_ne_nil hne
    -- The first of the old transactions is announced, and it is not new.
    have hmem : named t e.2 ∈ newlyAnnounced call.before call.after := by
      rw [hnew, hgrown.transactions, hold, hrest, map_cons, map_cons, cons_append, zipWith_cons_cons]
      exact mem_cons_self
    rw [hperm.mem_iff, newlyExecuted_of_grown hgrown] at hmem
    obtain ⟨e', he', heq⟩ := mem_map.1 hmem
    refine hgrown.fresh e' he' (mem_transactionSet.2 ⟨t, ?_, (congrArg Prod.fst heq).symm⟩)
    rw [hold]
    exact mem_cons_self
  · intro hor
    have heq : newlyAnnounced call.before call.after = executed.map fun e => named e.1 e.2 := by
      rw [hnew, hgrown.transactions]
      rcases hor with hnil | rfl
      · rw [hnil, nil_append, zipWith_map]
        simp
      · simp
    refine ⟨?_, ?_⟩
    · rw [heq, newlyExecuted_of_grown hgrown]
      rfl
    · rw [heq]
      exact digests_nodup hgrown

/-! ### Runs -/

/-- What a run has executed and what it has announced, which is the same if each call names what it executes. -/
structure Ran (s₀ : PendingClient H c D F E) (calls : List (Call H c D F E)) (s : PendingClient H c D F E)
    (executed : List (Transaction × TransactionReceipt H)) (announced : List (D × TransactionReceipt H)) : Prop where
  grown : Grown D s₀.working s.working executed
  ends : s.announced = s₀.announced ++ announced
  perm : (∀ call ∈ calls, Names call.before call.after) → announced.Perm (executed.map fun e => named e.1 e.2)

omit [Digest H] in
theorem Ran.between {executed : List (Transaction × TransactionReceipt H)} {announced : List (D × TransactionReceipt H)}
    (h : Ran s₀ calls s executed announced) (hbetween : Between s s') : Ran s₀ calls s' executed announced := by
  refine ⟨?_, hbetween.announced.trans h.ends, h.perm⟩
  have hnil : Grown D s.working s'.working [] := .nil hbetween.working.transactions hbetween.working.receipts
  have hgrown := h.grown.append hnil
  rwa [append_nil] at hgrown

theorem Ran.step {executed : List (Transaction × TransactionReceipt H)} {announced : List (D × TransactionReceipt H)}
    (h : Ran s₀ calls call.before executed announced)
    (hcall : syncTransactionQueue l call.v call.late call.fuel call.before = some call.after) :
    ∃ executed announced, Ran s₀ (calls ++ [call]) call.after executed announced := by
  obtain ⟨executed', hgrown, -, hannounced⟩ := call_spec hcall
  refine ⟨executed ++ executed', announced ++ List.zipWith named call.after.working.transactions (executed'.map Prod.snd),
    h.grown.append hgrown, ?_, ?_⟩
  · rw [hannounced, h.ends, append_assoc]
  · intro hall
    have hlast := (hall call (by simp)).announced
    rw [newlyAnnounced, hannounced, drop_left, newlyExecuted_of_grown hgrown] at hlast
    rw [map_append]
    exact (h.perm fun call' hmem => hall call' (mem_append_left _ hmem)).append hlast

theorem Run.ran (h : Run l s₀ calls s) : ∃ executed announced, Ran s₀ calls s executed announced := by
  induction h with
  | start => exact ⟨[], [], .nil rfl rfl, (append_nil _).symm, fun _ => .nil⟩
  | between _ hbetween ih =>
    obtain ⟨executed, announced, hran⟩ := ih
    exact ⟨executed, announced, hran.between hbetween⟩
  | call call _ hcall ih =>
    obtain ⟨executed, announced, hran⟩ := ih
    exact hran.step hcall

theorem Run.called (h : Run l s₀ calls s) :
    ∀ call ∈ calls, syncTransactionQueue l call.v call.late call.fuel call.before = some call.after := by
  induction h with
  | start => simp
  | between _ _ ih => exact ih
  | call call _ hcall ih =>
    intro call' hmem
    rcases mem_append.1 hmem with hmem | hmem
    · exact ih call' hmem
    · rw [mem_singleton.1 hmem]
      exact hcall

/-- If each call names what it executes, so does the run. -/
theorem Run.once (h : Run l s₀ calls s) (hcalls : ∀ call ∈ calls, Names call.before call.after) :
    ∀ e ∈ newlyExecuted s₀ s, ((newlyAnnounced s₀ s).map Prod.fst).count (digest e.1) = 1 := by
  obtain ⟨executed, announced, hran⟩ := h.ran
  intro e he
  rw [newlyExecuted_of_grown hran.grown] at he
  have hperm := (hran.perm hcalls).map Prod.fst
  have hmem : digest e.1 ∈ (executed.map fun e => named (D := D) e.1 e.2).map Prod.fst := by
    rw [map_map]
    exact mem_map_of_mem he
  rw [newlyAnnounced, hran.ends, drop_left, hperm.count_eq]
  exact count_eq_one_of_mem (digests_nodup hran.grown) hmem

/-- A run names what it executes if whatever call executes something finds nothing pending. -/
theorem named_iff (h : Run l s₀ calls s) :
    Named s₀ calls s ↔ ∀ call ∈ calls, call.before.working.transactions = [] ∨ ¬call.Executes := by
  have hnames : (∀ call ∈ calls, Names call.before call.after) ↔
      ∀ call ∈ calls, call.before.working.transactions = [] ∨ ¬call.Executes :=
    forall₂_congr fun call hmem => names_iff (h.called call hmem)
  rw [← hnames]
  exact ⟨Named.calls, fun hcalls => ⟨hcalls, h.once hcalls⟩⟩

end

/-! ### Two calls -/

/-- Nothing is filtered. -/
def noFilters : LogHost Unit (TransactionReceipt PerfectDigest) Unit Transaction where
  sha3 _ := paying 0
  matchesReceipt _ _ := []
  receipts _ := []
  number _ := 0
  transactionHash _ _ := paying 0
  pendingChangedFilter := paying 1
  chainChangedFilter := paying 2

/-- Nothing is pending, and something is queued. -/
noncomputable def toSync (tq : TransactionQueue TransactionQueue.lists Transaction Transaction) :
    PendingClient PerfectDigest TransactionQueue.lists Transaction Unit Unit where
  working := emptyBlock
  postSeal := emptyBlock
  tq
  more := false
  client := .constructed noFilters fun _ => { id := paying 0 }
  announced := []

noncomputable def anyReceipt : TransactionReceipt PerfectDigest := ⟨.inl true, 21000, []⟩

/-- After a call that has executed `ts` -/
noncomputable def executing (ts : List Transaction)
    (s : PendingClient PerfectDigest TransactionQueue.lists Transaction Unit Unit) :
    PendingClient PerfectDigest TransactionQueue.lists Transaction Unit Unit :=
  (noteNewPending noFilters (ts.map fun _ => anyReceipt) { s with working := { s.working with
    transactions := s.working.transactions ++ ts
    receipts := s.working.receipts ++ ts.map fun _ => anyReceipt } }).getD s

noncomputable def callOn (ts : List Transaction)
    (s : PendingClient PerfectDigest TransactionQueue.lists Transaction Unit Unit) :
    Call PerfectDigest TransactionQueue.lists Transaction Unit Unit :=
  ⟨asksHundred, fun _ => false, 2, s, executing ts s⟩

/-- The next one of the sender -/
def next : Transaction := { paying 200 with nonce := 1 }

def twoQueued : TransactionQueue TransactionQueue.lists Transaction Transaction :=
  after (TransactionQueue.importTransaction next .ignore) (oneQueued 100)

theorem run_both : Run noFilters (toSync twoQueued) [callOn [paying 100, next] (toSync twoQueued)]
    (executing [paying 100, next] (toSync twoQueued)) := by
  refine .call (callOn [paying 100, next] (toSync twoQueued)) .start ?_
  have hsync := sync_eq (v := asksHundred) (b := (toSync twoQueued).working) rfl rfl (toSync twoQueued).tq (fun _ => false) 2
  rw [callOn, syncTransactionQueue, if_neg (by decide), hsync]
  rfl

/-- One call executes both. -/
theorem named_both : ∃ s, Run noFilters (toSync twoQueued) [callOn [paying 100, next] (toSync twoQueued)] s ∧
    s.announced.map Prod.fst = [paying 100, next] ∧
    Named (toSync twoQueued) [callOn [paying 100, next] (toSync twoQueued)] s := by
  refine ⟨_, run_both, rfl, (named_iff run_both).2 fun call hmem => .inl ?_⟩
  rw [mem_singleton.1 hmem]
  rfl

/-- After the first call another transaction is queued. -/
noncomputable def anotherToSync : PendingClient PerfectDigest TransactionQueue.lists Transaction Unit Unit :=
  { executing [paying 100] (toSync (oneQueued 100)) with tq := oneQueued 200 }

theorem run_one : Run noFilters (toSync (oneQueued 100)) [callOn [paying 100] (toSync (oneQueued 100))]
    (executing [paying 100] (toSync (oneQueued 100))) := by
  refine .call (callOn [paying 100] (toSync (oneQueued 100))) .start ?_
  have hsync := sync_eq (v := asksHundred) (b := (toSync (oneQueued 100)).working) rfl rfl
      (toSync (oneQueued 100)).tq (fun _ => false) 2
  rw [callOn, syncTransactionQueue, if_neg (by decide), hsync]
  rfl

theorem run_two : Run noFilters (toSync (oneQueued 100))
    [callOn [paying 100] (toSync (oneQueued 100)), callOn [paying 200] anotherToSync]
    (executing [paying 200] anotherToSync) := by
  refine .call (callOn [paying 200] anotherToSync) (.between run_one ⟨⟨rfl, rfl, rfl⟩, rfl⟩) ?_
  have hsync := sync_eq (v := asksHundred) (b := anotherToSync.working) rfl rfl anotherToSync.tq (fun _ => false) 2
  rw [callOn, syncTransactionQueue, if_neg (by decide), hsync]
  rfl

/-- The second call announces the first transaction again. -/
theorem not_named : ¬∀ (s₀ : PendingClient PerfectDigest TransactionQueue.lists Transaction Unit Unit)
    (calls : List (Call PerfectDigest TransactionQueue.lists Transaction Unit Unit))
    (s : PendingClient PerfectDigest TransactionQueue.lists Transaction Unit Unit),
      Run noFilters s₀ calls s → Named s₀ calls s := by
  intro h
  have hnames := (h _ _ _ run_two).calls (callOn [paying 200] anotherToSync) (by simp)
  have hperm : [(paying 100, anyReceipt)].Perm [(paying 200, anyReceipt)] := hnames.announced
  exact absurd (congrArg Prod.fst (singleton_perm_singleton.1 hperm)) (by decide)

end PendingClient

end Kmdx
