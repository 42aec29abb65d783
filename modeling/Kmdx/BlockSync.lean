import Kmdx.Block
import Kmdx.TransactionRun

/-!
# Transactions from the queue (`libwing/Block.cpp`)

`Block::sync` goes over a list of transactions until a pass has executed as many as are in the list. What an earlier pass has
executed does not count, so only the first pass can end the loop (`syncsRight_iff`).
-/

namespace Kmdx

open Wp QueuedTransaction List

/-- `c_maxSyncTransactions` -/
def maxSyncTransactions : Nat := 1024

/-- The exceptions; anything else ends the process. -/
def Exn.isThrown : Exn → Bool
  | .assertion | .terminate | .monitor => false
  | _ => true

/-- `waiting` -/
def TransactionQueue.waiting {c : Containers} {D : Type} (q : TransactionQueue c Transaction D) (a : Address) : Nat :=
  ((entriesOf q.currentByAddressAndNonce a).length + (entriesOf q.future a).length) % 2 ^ 32

namespace Block

variable {H D : Type} [Digest H] {c : Containers} [QueuedTransaction Transaction D] [DecidableEq D]

/-- What `sync` is given besides the queue: how transactions are executed, `_bc.lastBlockHashes()`, `_bc.currentHash()` and
`_gp.ask` -/
structure SyncSetting (H : Type) where
  exec : Exec H
  precedingHashes : H → List U256
  currentHash : H
  ask : Block H → U256

/-- What does not come back to `sync`. -/
inductive SyncExn
  | block (e : Exn)
  | queue (e : TransactionQueue.Exn)

abbrev SyncM (c : Containers) (H D : Type) := EStateM SyncExn (Block H × TransactionQueue c Transaction D)

/-- `m_transactionSet` -/
def transactionSet (b : Block H) : Finset D := (b.transactions.map digest).toFinset

/-- A call on the queue -/
def onQueue (x : TransactionQueue.M c Transaction D Unit) : SyncM c H D Unit := fun s =>
  match x s.2 with
  | .ok () q => .ok () (s.1, q)
  | .error e q => .error (.queue e) (s.1, q)

/-- `m_s.getNonce(m_t.sender())`, which `InvalidNonce` comes with -/
def requiredNonce (b : Block H) (t : Transaction) : U256 :=
  (b.state.view (TransactionQueue.sender' t)).elim b.state.accountStartNonce (·.nonce)

/-- `catch (InvalidNonce const& in)` -/
def onInvalidNonce (t : Transaction) : SyncM c H D Unit := do
  let s ← get
  let req := (s.1.requiredNonce t).toNat
  let got := t.nonce.toNat
  -- too old
  if got < req then onQueue (TransactionQueue.dropTransaction (digest t))
  -- too new
  else if req + s.2.waiting (TransactionQueue.sender' t) < got then onQueue (TransactionQueue.dropTransaction (digest t))
  else onQueue (TransactionQueue.setFuture (digest t))

/-- The handlers -/
def onException (t : Transaction) (e : Exn) : SyncM c H D Unit :=
  match e with
  | .invalidNonce => onInvalidNonce t
  | .blockGasLimitReached => do
    if (← get).1.currentBlock.gasLimit < t.gas then onQueue (TransactionQueue.dropTransaction (digest t))
    -- Temporarily no gas left in current block: just leave alone.
    else return
  | e => if e.isThrown then onQueue (TransactionQueue.dropTransaction (digest t)) else throw (.block e)

variable (v : SyncSetting H)

/-- One transaction: what is executed, with its receipt. -/
def offer (t : Transaction) : SyncM c H D (List (Transaction × TransactionReceipt H)) := do
  let (b, q) ← get
  if digest t ∈ (b.transactionSet : Finset D) then return []
  else if v.ask b ≤ t.gasPrice then
    match execute v.exec v.precedingHashes t .committed b with
    | .ok _ b => do
      set (b, q)
      return (b.receipts.getLast?.map (t, ·)).toList
    | .error e b => do
      set (b, q)
      onException t e
      return []
  else if t.gasPrice < v.ask b * 9 / 10 then do
    onQueue (TransactionQueue.dropTransaction (digest t))
    return []
  else return []

/-- `for (auto const& t: ts)` -/
def pass : List Transaction → SyncM c H D (List (Transaction × TransactionReceipt H))
  | [] => return []
  | t :: ts => do
    let executed ← offer v t
    return executed ++ (← pass ts)

/-- What each pass executes, and whether the deadline ended the loop: `late i` if it is over after pass `i`. `none` if the
loop takes more than `fuel` passes. -/
def syncLoop (late : Nat → Bool) (ts : List Transaction) :
    (fuel pass goodTxs : Nat) → SyncM c H D (Option (List (List (Transaction × TransactionReceipt H)) × Bool))
  | fuel, i, goodTxs =>
    if ts.length ≤ goodTxs then return some ([], false)
    else
      match fuel with
      | 0 => return none
      | fuel + 1 => do
        let executed ← pass v ts
        if late i then return some ([executed], true)
        else return (← syncLoop late ts fuel (i + 1) executed.length).map fun rest => (executed :: rest.1, rest.2)

/-- What each pass executes, and `ret.second` -/
def sync (late : Nat → Bool) (fuel : Nat) :
    SyncM c H D (Option (List (List (Transaction × TransactionReceipt H)) × Bool)) := do
  let (b, q) ← get
  if b.isSealed then throw (.block .invalidOperationOnSealedBlock)
  let ts := q.topTransactions maxSyncTransactions b.transactionSet
  if ¬ v.currentHash = b.currentBlock.parentHash then throw (.block .assertion)
  let r ← syncLoop v late ts fuel 0 (ts.length - 1)
  return r.map fun r => (r.1, r.2 || ts.length = maxSyncTransactions)

/-! ### What is executed -/

variable {v}

/-- `b'` is `b` with what was executed: transactions that were not in it, each once. -/
structure Grown (D : Type) [QueuedTransaction Transaction D] [DecidableEq D] (b b' : Block H)
    (executed : List (Transaction × TransactionReceipt H)) : Prop where
  transactions : b'.transactions = b.transactions ++ executed.map Prod.fst
  receipts : b'.receipts = b.receipts ++ executed.map Prod.snd
  nodup : (executed.map fun e => (digest e.1 : D)).Nodup
  fresh : ∀ e ∈ executed, (digest e.1 : D) ∉ b.transactionSet

omit [Digest H] in
theorem mem_transactionSet {b : Block H} {d : D} : d ∈ b.transactionSet ↔ ∃ t ∈ b.transactions, digest t = d := by
  simp [transactionSet]

namespace Grown

variable {b b' b'' : Block H} {l l' : List (Transaction × TransactionReceipt H)}

omit [Digest H] in
theorem nil (ht : b'.transactions = b.transactions) (hr : b'.receipts = b.receipts) : Grown D b b' [] :=
  ⟨by simp [ht], by simp [hr], nodup_nil, nofun⟩

omit [Digest H] in
theorem append (h : Grown D b b' l) (h' : Grown D b' b'' l') : Grown D b b'' (l ++ l') := by
  refine ⟨by simp [h'.transactions, h.transactions], by simp [h'.receipts, h.receipts], ?_, fun e he => ?_⟩
  · rw [map_append, nodup_append]
    refine ⟨h.nodup, h'.nodup, ?_⟩
    rintro d hd _ hd' rfl
    obtain ⟨e, he, heq⟩ := mem_map.1 hd'
    obtain ⟨e₀, he₀, heq₀⟩ := mem_map.1 hd
    refine h'.fresh e he (mem_transactionSet.2 ⟨e₀.1, ?_, heq₀.trans heq.symm⟩)
    rw [h.transactions]
    exact mem_append_right _ (mem_map_of_mem he₀)
  · rcases mem_append.1 he with he | he
    · exact h.fresh e he
    · intro hmem
      obtain ⟨t, ht, heq⟩ := mem_transactionSet.1 hmem
      refine h'.fresh e he (mem_transactionSet.2 ⟨t, ?_, heq⟩)
      rw [h.transactions]
      exact mem_append_left _ ht

end Grown

omit [Digest H] in
/-- Whatever executes transactions, one that fails leaves the lists, and one that does not is added. -/
theorem wp_execute_lists (exec : Exec H) (precedingHashes : H → List U256) (t : Transaction) (b : Block H) :
    wp (execute exec precedingHashes t .committed)
      (fun _ b' => b'.transactions = b.transactions ++ [t] ∧ ∃ receipt, b'.receipts = b.receipts ++ [receipt])
      (fun _ b' => b'.transactions = b.transactions ∧ b'.receipts = b.receipts) b := by
  unfold execute
  rw [wp_bind, wp_get, wp_ite]
  split
  · exact ⟨rfl, rfl⟩
  obtain ⟨b₁, hb₁, h₁⟩ := sameList_uncommitToSeal b
  rw [wp_bind]
  refine wp_of_eq_ok hb₁ ?_
  rw [wp_bind, wp_get, wp_bind, wp_onState]
  unfold wp
  cases exec ⟨b₁.currentBlock, precedingHashes, b₁.gasUsed⟩ t .committed b₁.state with
  | error e s => exact ⟨h₁.transactions, h₁.receipts⟩
  | ok r s => exact ⟨congrArg (· ++ [t]) h₁.transactions, r.2, congrArg (· ++ [r.2]) h₁.receipts⟩

omit [Digest H] [QueuedTransaction Transaction D] [DecidableEq D] in
/-- A call on the queue leaves the block. -/
theorem wp_onQueue {x : TransactionQueue.M c Transaction D Unit} {s : Block H × TransactionQueue c Transaction D} :
    wp (onQueue x) (fun _ s' => s'.1 = s.1) (fun _ s' => s'.1 = s.1) s := by
  unfold wp onQueue
  cases x s.2 <;> rfl

/-- The handlers leave the block. -/
theorem wp_onException (t : Transaction) (e : Exn) (s : Block H × TransactionQueue c Transaction D) :
    wp (onException t e) (fun _ s' => s'.1 = s.1) (fun _ s' => s'.1 = s.1) s := by
  have hother : ∀ e : Exn, wp (if e.isThrown then onQueue (TransactionQueue.dropTransaction (digest t)) else throw (.block e))
      (fun _ s' => s'.1 = s.1) (fun _ s' => s'.1 = s.1) s := by
    intro e
    rw [wp_ite]
    split
    · exact wp_onQueue
    · rfl
  unfold onException
  split
  · unfold onInvalidNonce
    rw [wp_bind, wp_get, wp_ite]
    split
    · exact wp_onQueue
    rw [wp_ite]
    split <;> exact wp_onQueue
  · rw [wp_bind, wp_get, wp_ite]
    split
    · exact wp_onQueue
    · rfl
  · exact hother _

/-- `t` would be executed. -/
structure Good (v : SyncSetting H) (D : Type) [QueuedTransaction Transaction D] [DecidableEq D]
    (b : Block H) (t : Transaction) (b' : Block H) : Prop where
  fresh : (digest t : D) ∉ b.transactionSet
  price : v.ask b ≤ t.gasPrice
  executed : ∃ r, execute v.exec v.precedingHashes t .committed b = .ok r b'

/-- One that would be executed is, and nothing else happens. -/
theorem offer_of_good {b b' : Block H} {t : Transaction} (h : Good v D b t b') (q : TransactionQueue c Transaction D) :
    ∃ receipt, Grown D b b' [(t, receipt)] ∧ offer v t (b, q) = .ok [(t, receipt)] (b', q) := by
  obtain ⟨r, hr⟩ := h.executed
  obtain ⟨ht, receipt, hreceipts⟩ := wp_ok (wp_execute_lists v.exec v.precedingHashes t b) hr
  refine ⟨receipt, ⟨ht, hreceipts, nodup_singleton _, ?_⟩, ?_⟩
  · rintro e he
    rw [mem_singleton.1 he]
    exact h.fresh
  unfold offer
  rw [run_bind, run_get]
  dsimp only
  rw [if_neg h.fresh, if_pos h.price, hr]
  dsimp only
  rw [run_bind, run_set]
  dsimp only
  rw [run_pure, hreceipts, List.getLast?_concat]
  rfl

/-- What becomes of an offer: the transaction is executed, or the lists stay. -/
theorem wp_offer (t : Transaction) (s : Block H × TransactionQueue c Transaction D) :
    wp (offer v t) (fun executed s' => Grown D s.1 s'.1 executed ∧
        ((∃ receipt, executed = [(t, receipt)] ∧ Good v D s.1 t s'.1) ∨ executed = [])) (fun _ _ => True) s := by
  obtain ⟨b, q⟩ := s
  by_cases hgood : ∃ b', Good v D b t b'
  · obtain ⟨b', h⟩ := hgood
    obtain ⟨receipt, hgrown, hoffer⟩ := offer_of_good h q
    exact wp_of_eq_ok hoffer ⟨hgrown, .inl ⟨receipt, rfl, h⟩⟩
  unfold offer
  rw [wp_bind, wp_get, wp_ite]
  split
  · exact ⟨.nil rfl rfl, .inr rfl⟩
  rw [wp_ite]
  split
  · have hlists := wp_execute_lists v.exec v.precedingHashes t b
    cases hr : execute v.exec v.precedingHashes t .committed b with
    | ok r b' => exact absurd ⟨b', ‹_›, ‹_›, r, hr⟩ hgood
    | error e b' =>
      obtain ⟨ht, hreceipts⟩ := wp_error hlists hr
      rw [wp_bind, wp_set, wp_bind]
      refine wp_mono (wp_onException t e (b', q)) (fun _ s' hs' => ⟨?_, .inr rfl⟩) fun _ _ _ => trivial
      dsimp only at hs'
      rw [hs']
      exact .nil ht hreceipts
  · rw [wp_ite]
    split
    · rw [wp_bind]
      refine wp_mono wp_onQueue (fun _ s' hs' => ⟨?_, .inr rfl⟩) fun _ _ _ => trivial
      dsimp only at hs'
      rw [hs']
      exact .nil rfl rfl
    · exact ⟨.nil rfl rfl, .inr rfl⟩

/-- Every one of `ts` would be executed, one after the other. -/
def AllGood (v : SyncSetting H) (D : Type) [QueuedTransaction Transaction D] [DecidableEq D] :
    Block H → List Transaction → Prop
  | _, [] => True
  | b, t :: ts => ∃ b', Good v D b t b' ∧ AllGood v D b' ts

theorem pass_of_allGood {b : Block H} {ts : List Transaction} (h : AllGood v D b ts) (q : TransactionQueue c Transaction D) :
    ∃ executed b', pass v ts (b, q) = .ok executed (b', q) ∧ executed.map Prod.fst = ts := by
  induction ts generalizing b with
  | nil => exact ⟨[], b, rfl, rfl⟩
  | cons t ts ih =>
    obtain ⟨b₁, hgood, hrest⟩ := h
    obtain ⟨receipt, -, hoffer⟩ := offer_of_good hgood q
    obtain ⟨executed, b', hpass, hmap⟩ := ih hrest
    refine ⟨(t, receipt) :: executed, b', ?_, by rw [map_cons, hmap]⟩
    unfold pass
    rw [run_bind, hoffer]
    dsimp only
    rw [run_bind, hpass]
    rfl

/-- A pass executes some of `ts`, and all of them only if each would be executed. -/
theorem wp_pass (ts : List Transaction) (s : Block H × TransactionQueue c Transaction D) :
    wp (pass v ts) (fun executed s' => Grown D s.1 s'.1 executed ∧ (executed.map Prod.fst).Sublist ts ∧
        (ts.length ≤ executed.length → AllGood v D s.1 ts)) (fun _ _ => True) s := by
  induction ts generalizing s with
  | nil => exact ⟨.nil rfl rfl, .slnil, fun _ => trivial⟩
  | cons t ts ih =>
    unfold pass
    rw [wp_bind]
    refine wp_mono (wp_offer t s) (fun first s₁ hfirst => ?_) fun _ _ _ => trivial
    rw [wp_bind]
    refine wp_mono (ih s₁) (fun rest s' ⟨hgrown, hsub, hall⟩ => ?_) fun _ _ _ => trivial
    obtain ⟨hgrown₁, hfirst⟩ := hfirst
    rcases hfirst with ⟨receipt, rfl, hgood⟩ | rfl
    · refine ⟨hgrown₁.append hgrown, hsub.cons_cons t, fun hle => ⟨s₁.1, hgood, hall ?_⟩⟩
      exact Nat.le_of_succ_le_succ hle
    · refine ⟨hgrown₁.append hgrown, hsub.cons t, fun hle => ?_⟩
      have := hsub.length_le
      rw [length_map] at this
      simp only [nil_append, length_cons] at hle
      omega

/-- What a loop that has ended has done: the block grows by what the passes executed, and what ended it is the deadline or a
pass that executed as many as `ts` has. -/
structure Looped (v : SyncSetting H) (D : Type) [QueuedTransaction Transaction D] [DecidableEq D] (late : Nat → Bool)
    (ts : List Transaction) (goodTxs : Nat) (b b' : Block H) (passes : List (List (Transaction × TransactionReceipt H)))
    (more : Bool) : Prop where
  grown : Grown D b b' passes.flatten
  sublist : ∀ p ∈ passes, (p.map Prod.fst).Sublist ts
  late : more = true → ∃ i, late i = true
  last : more = false → ts.length ≤ (passes.getLast?.map List.length).getD goodTxs
  first : ∀ p ∈ passes.head?, ts.length ≤ p.length → AllGood v D b ts

theorem wp_syncLoop (late : Nat → Bool) (ts : List Transaction) (fuel i goodTxs : Nat)
    (s : Block H × TransactionQueue c Transaction D) :
    wp (syncLoop v late ts fuel i goodTxs)
      (fun r s' => ∀ passes more, r = some (passes, more) → Looped v D late ts goodTxs s.1 s'.1 passes more)
      (fun _ _ => True) s := by
  induction fuel generalizing i goodTxs s with
  | zero =>
    unfold syncLoop
    rw [wp_ite]
    split
    · rintro _ _ ⟨⟩
      exact ⟨.nil rfl rfl, nofun, nofun, fun _ => ‹_›, nofun⟩
    · rintro _ _ ⟨⟩
  | succ fuel ih =>
    unfold syncLoop
    rw [wp_ite]
    split
    · rintro _ _ ⟨⟩
      exact ⟨.nil rfl rfl, nofun, nofun, fun _ => ‹_›, nofun⟩
    dsimp only
    rw [wp_bind]
    refine wp_mono (wp_pass ts s) (fun executed s₁ ⟨hgrown, hsub, hall⟩ => ?_) fun _ _ _ => trivial
    rw [wp_ite]
    split
    next hlate =>
      rintro _ _ ⟨⟩
      refine ⟨by simpa using hgrown, by simpa using hsub, fun _ => ⟨i, hlate⟩, nofun, ?_⟩
      rintro p ⟨⟩
      exact hall
    · rw [wp_bind]
      refine wp_mono (ih (i + 1) executed.length s₁) (fun r s' hr => ?_) fun _ _ _ => trivial
      intro passes more heq
      obtain ⟨⟨rest, more'⟩, rfl, hpair⟩ := Option.map_eq_some_iff.1 heq
      obtain ⟨rfl, rfl⟩ := Prod.mk.inj hpair
      have h := hr rest more' rfl
      refine ⟨hgrown.append h.grown, ?_, h.late, fun hmore => ?_, ?_⟩
      · rintro p (_ | ⟨_, hp⟩)
        · exact hsub
        · exact h.sublist p hp
      · have := h.last hmore
        cases rest with
        | nil => exact this
        | cons p rest => exact this
      · rintro p ⟨⟩
        exact hall

omit [Digest H] in
/-- Unless the deadline ends it, a loop each of whose passes but the last executes something has one pass. -/
theorem Looped.allGood {late : Nat → Bool} {ts : List Transaction} {b b' : Block H}
    {passes : List (List (Transaction × TransactionReceipt H))} (h : Looped v D late ts (ts.length - 1) b b' passes false)
    (hsome : ∀ p ∈ passes.dropLast, p ≠ []) : AllGood v D b ts := by
  have hlast := h.last rfl
  rcases eq_nil_or_concat passes with rfl | ⟨init, last, rfl⟩
  · cases ts with
    | nil => trivial
    | cons t ts => exact absurd hlast (by simp)
  rw [concat_eq_append] at *
  rw [dropLast_concat] at hsome
  rw [List.getLast?_concat] at hlast
  have htotal : (init ++ [last]).flatten.length ≤ ts.length := by
    have hsubset : (init ++ [last]).flatten.map (fun e => (digest e.1 : D)) ⊆ ts.map digest := by
      intro d hd
      obtain ⟨e, he, rfl⟩ := mem_map.1 hd
      obtain ⟨p, hp, he⟩ := mem_flatten.1 he
      exact mem_map_of_mem ((h.sublist p hp).subset (mem_map_of_mem he))
    have hle := (h.grown.nodup.subperm hsubset).length_le
    rwa [length_map, length_map] at hle
  cases init with
  | nil => exact h.first last rfl hlast
  | cons p init =>
    have hp : 0 < p.length := length_pos_iff.2 (hsome p mem_cons_self)
    simp only [cons_append, flatten_cons, flatten_append, flatten_nil, length_append,
      append_nil] at htotal
    simp only [Option.map_some, Option.getD_some] at hlast
    omega

/-! ### When a block is synced -/

/-- What the loop goes over. -/
def toSync (b : Block H) (q : TransactionQueue c Transaction D) : List Transaction :=
  q.topTransactions maxSyncTransactions b.transactionSet

/-- Whatever the clock says, the loop ends, every pass but the last executes something, and the block grows by what was
executed. -/
def SyncsRight (v : SyncSetting H) (b : Block H) (q : TransactionQueue c Transaction D) : Prop :=
  ∀ late : Nat → Bool, ∃ passes more b' q', sync v late (q.current.length + 1) (b, q) = .ok (some (passes, more)) (b', q') ∧
    passes.length ≤ q.current.length + 1 ∧ (∀ p ∈ passes.dropLast, p ≠ []) ∧ Grown D b b' passes.flatten

/-- `sync` in a block that is not sealed, on its chain, is the loop. -/
theorem sync_eq {b : Block H} (hsealed : b.isSealed = false) (hparent : v.currentHash = b.currentBlock.parentHash)
    (q : TransactionQueue c Transaction D) (late : Nat → Bool) (fuel : Nat) :
    sync v late fuel (b, q) = (syncLoop v late (b.toSync q) fuel 0 ((b.toSync q).length - 1) >>= fun r =>
      pure (r.map fun r => (r.1, r.2 || (b.toSync q).length = maxSyncTransactions))) (b, q) := by
  unfold sync
  simp only [run_bind, run_get, hsealed, hparent, not_true_eq_false, Bool.false_eq_true, if_false, run_pure]
  rfl

/-- What the loop of a `sync` that has returned has done. The flag that is returned may be set for another reason. -/
theorem looped_of_sync {b b' : Block H} (hsealed : b.isSealed = false) (hparent : v.currentHash = b.currentBlock.parentHash)
    {q q' : TransactionQueue c Transaction D} {late : Nat → Bool} {fuel : Nat}
    {passes : List (List (Transaction × TransactionReceipt H))}
    {more : Bool} (h : sync v late fuel (b, q) = .ok (some (passes, more)) (b', q')) :
    ∃ more', Looped v D late (b.toSync q) ((b.toSync q).length - 1) b b' passes more' := by
  rw [sync_eq hsealed hparent] at h
  obtain ⟨r, s', hloop, hpure⟩ := exists_of_bind_ok h
  rw [run_pure] at hpure
  obtain ⟨hr, rfl⟩ := EStateM.Result.ok.inj hpure
  obtain ⟨⟨passes', more'⟩, rfl, hpair⟩ := Option.map_eq_some_iff.1 hr
  obtain ⟨rfl, -⟩ := Prod.mk.inj hpair
  exact ⟨more', wp_ok (wp_syncLoop ..) hloop passes' more' rfl⟩

theorem allGood_of_syncsRight {b : Block H} (hsealed : b.isSealed = false)
    (hparent : v.currentHash = b.currentBlock.parentHash)
    {q : TransactionQueue c Transaction D} (h : SyncsRight v b q) : AllGood v D b (b.toSync q) := by
  -- The clock that never ends the loop.
  obtain ⟨passes, more, b', q', hsync, -, hsome, -⟩ := h fun _ => false
  obtain ⟨more', hlooped⟩ := looped_of_sync hsealed hparent hsync
  cases more' with
  | true => exact absurd (hlooped.late rfl) (by simp)
  | false => exact hlooped.allGood hsome

theorem syncsRight_iff {b : Block H} (hsealed : b.isSealed = false) (hparent : v.currentHash = b.currentBlock.parentHash)
    (q : TransactionQueue c Transaction D) : SyncsRight v b q ↔ AllGood v D b (b.toSync q) := by
  constructor
  · exact allGood_of_syncsRight hsealed hparent
  · intro h late
    obtain ⟨executed, b', hpass, hmap⟩ := pass_of_allGood h q
    have hlength : executed.length = (b.toSync q).length := by rw [← hmap, length_map]
    have hgrown := (wp_ok (wp_pass (b.toSync q) (b, q)) hpass).1
    by_cases hempty : b.toSync q = []
    · have hloop : syncLoop v late (b.toSync q) (q.current.length + 1) 0 ((b.toSync q).length - 1) (b, q) =
          .ok (some ([], false)) (b, q) := by
        rw [hempty]
        rfl
      refine ⟨[], false || decide ((b.toSync q).length = maxSyncTransactions), b, q, ?_, Nat.zero_le _, nofun, .nil rfl rfl⟩
      rw [sync_eq hsealed hparent, run_bind, hloop]
      rfl
    · have hpos := length_pos_iff.2 hempty
      have hloop : syncLoop v late (b.toSync q) (q.current.length + 1) 0 ((b.toSync q).length - 1) (b, q) =
          .ok (some ([executed], late 0)) (b', q) := by
        unfold syncLoop
        rw [if_neg (by omega)]
        dsimp only
        rw [run_bind, hpass]
        dsimp only
        cases late 0 with
        | true => rfl
        | false =>
          have hnext : syncLoop v late (b.toSync q) q.current.length 1 executed.length (b', q) =
              .ok (some ([], false)) (b', q) := by
            unfold syncLoop
            rw [if_pos hlength.ge]
            rfl
          rw [if_neg Bool.false_ne_true, run_bind, hnext]
          rfl
      refine ⟨[executed], late 0 || decide ((b.toSync q).length = maxSyncTransactions), b', q,
        ?_, by simp, by simp, by simpa using hgrown⟩
      rw [sync_eq hsealed hparent, run_bind, hloop]
      rfl

end Block

/-! ### One transaction -/

deriving instance DecidableEq for SignatureStruct, Transaction

/-- Transactions that are their own hashes. -/
instance : QueuedTransaction Transaction Transaction where
  digest := id
  hasSignature := Transaction.hasSignature
  hasZeroSignature := Transaction.hasZeroSignature
  sender t := t.sender.toOption
  nonce t := t.nonce.toNat
  gasPrice t := t.gasPrice.toNat
  digest_injective := Function.injective_id
  nonce_lt t := t.nonce.isLt

namespace Block

/-- A block with nothing in it. -/
noncomputable def emptyBlock : Block PerfectDigest where
  state := .preExisting 0 State.richContract emptyTrie fun _ => 0
  precommit := .preExisting 0 State.richContract emptyTrie fun _ => 0
  previousBlock := State.callContext.envInfo.header
  currentBlock := State.callContext.envInfo.header
  transactions := []
  receipts := []
  currentBytes := []
  currentUncles := []
  committedToSeal := false
  author := 0

/-- Transactions have to pay 100, and are executed. -/
noncomputable def asksHundred : SyncSetting PerfectDigest where
  exec _ _ _ := pure ({}, ⟨.inl true, 21000, []⟩)
  precedingHashes _ := []
  currentHash := emptyBlock.currentBlock.parentHash
  ask _ := 100

/-- A transaction that pays `gasPrice`. -/
def paying (gasPrice : U256) : Transaction where
  type := .messageCall
  gasPrice := gasPrice
  gas := 21000
  vrs := some ⟨1, 1, 0⟩
  recovered := some 7

/-- The queue after it was imported. -/
def oneQueued (gasPrice : U256) : TransactionQueue TransactionQueue.lists Transaction Transaction :=
  after (TransactionQueue.importTransaction (paying gasPrice) .ignore) { limit := 8, futureLimit := 8 }

theorem toSync_oneQueued (gasPrice : U256) : emptyBlock.toSync (oneQueued gasPrice) = [paying gasPrice] := rfl

theorem syncsRight_iff_pays : SyncsRight asksHundred emptyBlock (oneQueued 100) := by
  refine (syncsRight_iff rfl rfl _).2 ?_
  rw [toSync_oneQueued]
  exact ⟨_, ⟨Finset.notMem_empty _, by decide, _, rfl⟩, trivial⟩

/-- One that pays nothing is dropped in the first pass, and the next ones find nothing to do. -/
theorem not_syncsRight : ¬ ∀ (v : SyncSetting PerfectDigest) (b : Block PerfectDigest)
    (q : TransactionQueue TransactionQueue.lists Transaction Transaction), b.isSealed = false →
    v.currentHash = b.currentBlock.parentHash → SyncsRight v b q := by
  intro h
  have hall := allGood_of_syncsRight rfl rfl (h asksHundred emptyBlock (oneQueued 0) rfl rfl)
  rw [toSync_oneQueued] at hall
  obtain ⟨b', hgood, -⟩ := hall
  exact absurd hgood.price (by decide)

end Block

end Kmdx
