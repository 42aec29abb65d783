import Kmdx.BlockSeal
import Kmdx.BlockSync

/-!
# Rewards (`libwing/Block.cpp`)

The history of a block is what has been done to its state: the transactions that were executed in it, and the copies. `Comes`
is the runs that make a block from one that is synced to its parent. Rewards are no part of a history, and as long as no block
is copied that is committed to seal, they are applied once to what the history comes to (`rewarded_once`).
-/

namespace Kmdx

open Wp QueuedTransaction

variable {H D : Type} [Digest H] {c : Containers} [QueuedTransaction Transaction D] [DecidableEq D]

/-! ### Rewards do not throw -/

namespace State

variable {s : State H}

/-- The account start nonce is set. -/
def Noted (s : State H) : Prop := s.accountStartNonce ≠ invalid256

theorem peek_load_of_none {a : Address} (h : s.peek a = none) : (s.load a).peek a = none := by
  unfold peek at h
  unfold load
  split at h
  · cases h
  · rename_i hlookup
    split at h
    · next hmem => rw [if_pos hmem, peek, hlookup, if_pos hmem]
    · next hmem =>
      rw [if_neg hmem]
      cases htrie : s.trieAt a with
      | some r => simp [htrie] at h
      | none => simp [peek, hlookup]

theorem wp_addBalance_noted (h : Noted s) (a : Address) (x : U256) :
    wp (addBalance a x) (fun _ s' => Noted s') (fun _ _ => False) s := by
  have hlog : ∀ s₁ : State H, Noted s₁ →
      wp (if x ≠ 0 then log (.balance a x) else pure () : StateM H Unit) (fun _ s' => Noted s') (fun _ _ => False) s₁ := by
    intro s₁ h₁
    rw [wp_ite]
    split <;> exact h₁
  have hload : Noted (s.load a) := (accountStartNonce_load s a).trans_ne h
  unfold addBalance
  rw [wp_bind, wp_account]
  cases hp : s.peek a with
  | some acc =>
    dsimp only
    rw [wp_ite]
    split
    · rw [wp_bind, wp_log, wp_bind, wp_put]
      exact hlog _ hload
    · rw [wp_bind, wp_put]
      exact hlog _ hload
  | none =>
    dsimp only
    rw [wp_bind]
    refine wp_requireAccountStartNonce (fun _ => ?_) fun hinvalid => absurd hinvalid hload
    rw [wp_bind]
    have hview : (s.load a).view a = none := by rw [view, peek_load_of_none hp, Option.map_none]
    exact wp_createAccount hview (hlog _ ((accountStartNonce_load _ a).trans_ne hload))

theorem wp_rewardUncles (h : Noted s) (number : Nat) (blockReward : U256) (uncles : List (BlockHeader H)) (r : U256) :
    wp (rewardUncles number blockReward uncles r) (fun _ s' => Noted s') (fun _ _ => False) s := by
  induction uncles generalizing s r with
  | nil => exact h
  | cons i uncles ih =>
    unfold rewardUncles
    rw [wp_bind]
    exact wp_mono (wp_addBalance_noted h _ _) (fun _ _ h' => ih h' _) fun _ _ => id

theorem wp_finish (h : Noted s) (chain : BlockChainFace H) (header : BlockHeader H) (uncles : List (BlockHeader H)) :
    wp (finish chain header uncles) (fun _ s' => Noted s') (fun _ _ => False) s := by
  unfold finish applyRewards
  rw [wp_bind, wp_bind]
  refine wp_mono (wp_rewardUncles h ..) (fun r s₁ h₁ => ?_) fun _ _ => id
  refine wp_mono (wp_addBalance_noted h₁ _ _) (fun _ s₂ h₂ => ?_) fun _ _ => id
  unfold commit
  rw [wp_modify]
  dsimp only
  split <;> exact h₂

end State

/-! ### Histories -/

/-- What is done to the state of a block. -/
inductive Deed (H : Type)
  | execute (exec : Exec H) (env : EnvInfo H) (t : Transaction)
  /-- It is copied, to where this is the change log. -/
  | held (changeLog : List (Change H))

namespace Deed

def run (s : State H) : Deed H → State H
  | execute exec env t => after (exec env t .committed) s
  | held changeLog => { s with changeLog }

/-- What a history comes to. -/
def replay (deeds : List (Deed H)) (s : State H) : State H := deeds.foldl run s

/-- The transactions that were not rejected. -/
def accepted : List (Deed H) → State H → List Transaction
  | [], _ => []
  | execute exec env t :: deeds, s =>
    match exec env t .committed s with
    | .ok _ s' => t :: accepted deeds s'
    | .error _ s' => accepted deeds s'
  | held changeLog :: deeds, s => accepted deeds { s with changeLog }

omit [Digest H] in
theorem replay_append (deeds deeds' : List (Deed H)) (s : State H) :
    replay (deeds ++ deeds') s = replay deeds' (replay deeds s) := List.foldl_append

omit [Digest H] in
theorem accepted_append (deeds deeds' : List (Deed H)) (s : State H) :
    accepted (deeds ++ deeds') s = accepted deeds s ++ accepted deeds' (replay deeds s) := by
  induction deeds generalizing s with
  | nil => rfl
  | cons d deeds ih =>
    cases d with
    | held changeLog => exact ih _
    | execute exec env t =>
      have hrun : replay (execute exec env t :: deeds) s = replay deeds (after (exec env t .committed) s) := rfl
      rw [List.cons_append, hrun, after, accepted, accepted]
      cases exec env t .committed s with
      | ok r s' => exact congrArg _ (ih s')
      | error e s' => exact ih s'

end Deed

namespace Block

/-- The state without the rewards. -/
def unrewarded (b : Block H) : State H := if b.committedToSeal then b.precommit else b.state

/-- The executions of transactions that make `b'` of `b`. -/
inductive Tries (v : SyncSetting H) : Block H → List (Deed H) → Block H → Prop
  | nil (b : Block H) : Tries v b [] b
  | cons {b b' : Block H} {deeds : List (Deed H)} (t : Transaction)
    (h : Tries v (after (execute v.exec v.precedingHashes t .committed) b) deeds b') :
    Tries v b (.execute v.exec ⟨b.currentBlock, v.precedingHashes, b.gasUsed⟩ t :: deeds) b'

/-- `resetCurrent` has been called, and nothing since. -/
structure Synced (b : Block H) : Prop where
  transactions : b.transactions = []
  receipts : b.receipts = []
  currentBytes : b.currentBytes = []
  committedToSeal : b.committedToSeal = false

/-- `b` is what becomes of `start` in a run in which only blocks are copied that may be, and `deeds` its history. -/
inductive Comes (mayCopy : Block H → Prop) (start : Block H) : List (Deed H) → Block H → Prop
  | synced (h : Synced start) : Comes mayCopy start [] start
  | execute {deeds : List (Deed H)} {b : Block H} (h : Comes mayCopy start deeds b) (exec : Exec H)
    (precedingHashes : H → List U256)
    (t : Transaction) : Comes mayCopy start (deeds ++ [.execute exec ⟨b.currentBlock, precedingHashes, b.gasUsed⟩ t])
      (after (Block.execute exec precedingHashes t .committed) b)
  | sync {c : Containers} {D : Type} [QueuedTransaction Transaction D] [DecidableEq D]
    {deeds tried : List (Deed H)} {b : Block H}
    (h : Comes mayCopy start deeds b) (v : SyncSetting H) (late : Nat → Bool) (fuel : Nat)
    (q : TransactionQueue c Transaction D) (htried : Tries v b tried (after (Block.sync v late fuel) (b, q)).1) :
    Comes mayCopy start (deeds ++ tried) (after (Block.sync v late fuel) (b, q)).1
  | commitToSeal {deeds : List (Deed H)} {b b' : Block H} (h : Comes mayCopy start deeds b)
    (chain : BlockChainFace H) (enc : Encodings H)
    (extraData : Bytes) (hreturns : Block.commitToSeal chain enc extraData b = .ok () b') :
    Comes mayCopy start (deeds ++ [.held []]) b'
  | uncommitToSeal {deeds : List (Deed H)} {b : Block H} (h : Comes mayCopy start deeds b) :
    Comes mayCopy start deeds (after Block.uncommitToSeal b)
  | copy {deeds : List (Deed H)} {b : Block H} (h : Comes mayCopy start deeds b) (hc : mayCopy b) :
    Comes mayCopy start (deeds ++ [.held []]) b.copy
  | assign {deeds : List (Deed H)} {b : Block H} (h : Comes mayCopy start deeds b) (hc : mayCopy b) (target : Block H) :
    Comes mayCopy start (deeds ++ [.held target.state.changeLog]) (target.assign b)

/-! ### Transactions from a queue -/

namespace Tries

variable {v : SyncSetting H} {b b' b'' : Block H}

omit [Digest H] in
theorem append {deeds deeds' : List (Deed H)} (h : Tries v b deeds b') (h' : Tries v b' deeds' b'') :
    Tries v b (deeds ++ deeds') b'' := by
  induction h with
  | nil b => exact h'
  | cons t _ ih => exact .cons t (ih h')

end Tries

/-- What a call of `sync` does to the block is to execute transactions. -/
def Only (v : SyncSetting H) (b : Block H) (s : Block H × TransactionQueue c Transaction D) :
    Prop := ∃ deeds, Tries v b deeds s.1

omit [Digest H] [QueuedTransaction Transaction D] [DecidableEq D] in
theorem Only.trans {v : SyncSetting H} {b b' : Block H} {q : TransactionQueue c Transaction D}
    {s : Block H × TransactionQueue c Transaction D} (h : Only v b (b', q)) (h' : Only v b' s) : Only v b s := by
  obtain ⟨deeds, hd⟩ := h
  obtain ⟨deeds', hd'⟩ := h'
  exact ⟨deeds ++ deeds', hd.append hd'⟩

omit [Digest H] [QueuedTransaction Transaction D] [DecidableEq D] in
theorem Only.of_eq {v : SyncSetting H} {b : Block H} {s : Block H × TransactionQueue c Transaction D} (h : s.1 = b) :
    Only v b s := by
  subst h
  exact ⟨[], .nil s.1⟩

theorem wp_offer_only (v : SyncSetting H) (t : Transaction) (s : Block H × TransactionQueue c Transaction D) :
    wp (offer v t) (fun _ => Only v s.1) (fun _ => Only v s.1) s := by
  obtain ⟨b, q⟩ := s
  unfold offer
  rw [wp_bind, wp_get, wp_ite]
  split
  · exact .of_eq rfl
  rw [wp_ite]
  split
  · have hone : Tries v b _ (after (execute v.exec v.precedingHashes t .committed) b) := .cons t (.nil _)
    rw [after] at hone
    cases hr : execute v.exec v.precedingHashes t .committed b with
    | ok r b' =>
      rw [hr] at hone
      exact ⟨_, hone⟩
    | error e b' =>
      rw [hr] at hone
      rw [wp_bind, wp_set, wp_bind]
      refine wp_mono (wp_onException t e (b', q)) (fun _ s' hs' => ?_) fun _ s' hs' => ?_
      · exact Only.trans (q := q) ⟨_, hone⟩ (.of_eq hs')
      · exact Only.trans (q := q) ⟨_, hone⟩ (.of_eq hs')
  · rw [wp_ite]
    split
    · rw [wp_bind]
      exact wp_mono wp_onQueue (fun _ _ => .of_eq) fun _ _ => .of_eq
    · exact .of_eq rfl

theorem wp_pass_only (v : SyncSetting H) (ts : List Transaction) (s : Block H × TransactionQueue c Transaction D) :
    wp (pass v ts) (fun _ => Only v s.1) (fun _ => Only v s.1) s := by
  induction ts generalizing s with
  | nil => exact .of_eq rfl
  | cons t ts ih =>
    unfold pass
    rw [wp_bind]
    refine wp_mono (wp_offer_only v t s) (fun _ s₁ h₁ => ?_) fun _ _ => id
    rw [wp_bind]
    exact wp_mono (ih s₁) (fun _ _ => h₁.trans) fun _ _ => h₁.trans

theorem wp_syncLoop_only (v : SyncSetting H) (late : Nat → Bool) (ts : List Transaction) (fuel i goodTxs : Nat)
    (s : Block H × TransactionQueue c Transaction D) :
    wp (syncLoop v late ts fuel i goodTxs) (fun _ => Only v s.1) (fun _ => Only v s.1) s := by
  induction fuel generalizing i goodTxs s with
  | zero =>
    unfold syncLoop
    rw [wp_ite]
    split <;> exact .of_eq rfl
  | succ fuel ih =>
    unfold syncLoop
    rw [wp_ite]
    split
    · exact .of_eq rfl
    dsimp only
    rw [wp_bind]
    refine wp_mono (wp_pass_only v ts s) (fun executed s₁ h₁ => ?_) fun _ _ => id
    rw [wp_ite]
    split
    · exact h₁
    · rw [wp_bind]
      exact wp_mono (ih (i + 1) executed.length s₁) (fun _ _ => h₁.trans) fun _ _ => h₁.trans

/-- Whatever comes of it, `sync` executes some transactions, one after the other. -/
theorem exists_tries (v : SyncSetting H) (late : Nat → Bool) (fuel : Nat) (b : Block H)
    (q : TransactionQueue c Transaction D) : ∃ tried, Tries v b tried (after (sync v late fuel) (b, q)).1 := by
  refine wp_after (P := fun s' => Only v b s') ?_
  unfold sync
  rw [wp_bind, wp_get, wp_ite]
  split
  · exact .of_eq rfl
  dsimp only
  rw [wp_ite]
  split
  · exact .of_eq rfl
  · rw [wp_bind]
    exact wp_syncLoop_only v late _ fuel 0 _ (b, q)

/-! ### One step -/

omit [Digest H] in
theorem uncommitToSeal_run (b : Block H) :
    uncommitToSeal b = .ok () { b with state := b.unrewarded, committedToSeal := false } := by
  obtain ⟨state, transactions, receipts, precommit, previousBlock, currentBlock, currentBytes, currentUncles,
      committed, author⟩ := b
  cases committed <;> rfl

omit [Digest H] in
/-- What `execute` does in a block that is not sealed. -/
theorem execute_run {b : Block H} (hsealed : b.isSealed = false) (exec : Exec H)
    (precedingHashes : H → List U256) (t : Transaction) : Block.execute exec precedingHashes t .committed b =
      match exec ⟨b.currentBlock, precedingHashes, b.gasUsed⟩ t .committed b.unrewarded with
      | .ok r s => .ok r.1 { b with
          state := s, committedToSeal := false, transactions := b.transactions ++ [t], receipts := b.receipts ++ [r.2] }
      | .error e s => .error e { b with state := s, committedToSeal := false } := by
  unfold Block.execute
  rw [run_bind, run_get]
  dsimp only
  rw [if_neg (by rw [hsealed]; exact Bool.false_ne_true), run_bind, uncommitToSeal_run]
  dsimp only
  rw [run_bind, run_get]
  dsimp only
  rw [run_bind, onState]
  dsimp only
  have hgas : gasUsed { b with state := b.unrewarded, committedToSeal := false } = b.gasUsed := rfl
  rw [hgas]
  cases exec ⟨b.currentBlock, precedingHashes, b.gasUsed⟩ t .committed b.unrewarded <;> rfl

/-- `commitToSeal` has returned. -/
structure Committed (chain : BlockChainFace H) (enc : Encodings H) (extraData : Bytes) (b b' : Block H) : Prop where
  currentBlock : b'.currentBlock = sealedHeader enc extraData { b' with currentBlock := b.currentBlock }
  committedToSeal : b'.committedToSeal = true
  precommit : b'.precommit = if b.committedToSeal then b.precommit else b.state.copy
  transactions : b'.transactions = b.transactions
  receipts : b'.receipts = b.receipts
  currentBytes : b'.currentBytes = b.currentBytes
  previousBlock : b'.previousBlock = b.previousBlock
  /-- The rewards are applied to the state without them. -/
  state : ∃ uncles, b.greatUncles chain = .ok uncles ∧ b'.currentUncles = uncles.map chain.headerData ∧
    State.finish chain b.currentBlock (uncles.map chain.info) b.unrewarded = .ok () b'.state

/-- It throws if the uncles or the rewards do. -/
def Fails (chain : BlockChainFace H) (b : Block H) (e : Exn) : Prop :=
  b.greatUncles chain = .error e ∨ ∃ (uncles : List H) (s : State H),
    State.finish chain b.currentBlock (uncles.map chain.info) b.unrewarded = .error e s

theorem wp_commitKept (chain : BlockChainFace H) (enc : Encodings H) (extraData : Bytes) (b : Block H) :
    wp (commitKept chain enc extraData) (fun _ b' => Committed chain enc extraData b b') (fun e _ => Fails chain b e)
      { b with state := b.unrewarded, committedToSeal := false
               precommit := if b.committedToSeal then b.precommit else b.state.copy } := by
  unfold commitKept
  rw [wp_bind, wp_get]
  have hgreat : greatUncles chain { b with state := b.unrewarded, committedToSeal := false
                                           precommit := if b.committedToSeal then b.precommit else b.state.copy } =
      b.greatUncles chain := rfl
  rw [hgreat]
  cases hu : b.greatUncles chain with
  | error e => exact .inl hu
  | ok uncles =>
    dsimp only
    rw [wp_bind, wp_modify, wp_bind, wp_onState]
    dsimp only
    unfold wp
    cases hf : State.finish chain b.currentBlock (uncles.map chain.info) b.unrewarded with
    | error e s => exact .inr ⟨uncles, s, hf⟩
    | ok _ s => exact ⟨rfl, rfl, rfl, rfl, rfl, rfl, rfl, uncles, hu, rfl, hf⟩

theorem wp_commitToSeal {b : Block H} (hsealed : b.isSealed = false) (chain : BlockChainFace H) (enc : Encodings H)
    (extraData : Bytes) :
    wp (commitToSeal chain enc extraData) (fun _ b' => Committed chain enc extraData b b')
      (fun e _ => Fails chain b e) b := by
  have hnot : ¬ b.isSealed = true := by rw [hsealed]; exact Bool.false_ne_true
  have hkept := wp_commitKept chain enc extraData b
  unfold commitToSeal
  rw [wp_bind, wp_get, wp_ite, if_neg hnot, wp_bind, wp_get, wp_ite]
  split
  · next hc =>
    rw [wp_bind]
    refine wp_of_eq_ok (uncommitToSeal_run b) ?_
    rwa [if_pos hc] at hkept
  · next hc =>
    rw [wp_bind, wp_modify]
    have hb : b.committedToSeal = false := by simpa using hc
    rw [if_neg hc, unrewarded, if_neg hc, ← hb] at hkept
    exact hkept

theorem Committed.of_ok {b b' : Block H} {chain : BlockChainFace H} {enc : Encodings H} {extraData : Bytes}
    (hsealed : b.isSealed = false) (h : commitToSeal chain enc extraData b = .ok () b') :
    Committed chain enc extraData b b' := by
  have hwp := wp_commitToSeal hsealed chain enc extraData
  rwa [wp, h] at hwp

/-- A block that is not sealed, and what its history says of it. -/
structure Tells (start : State H) (deeds : List (Deed H)) (b : Block H) : Prop where
  unrewarded : b.unrewarded = Deed.replay deeds start
  transactions : b.transactions = Deed.accepted deeds start
  currentBytes : b.currentBytes = []
  changeLog : b.committedToSeal = true → b.precommit.changeLog = []

namespace Tells

variable {start : State H} {deeds : List (Deed H)} {b b' : Block H}

omit [Digest H] in
theorem held (h : Tells start deeds b) (changeLog : List (Change H)) (hu : b'.unrewarded = { b.unrewarded with changeLog })
    (ht : b'.transactions = b.transactions) (hb : b'.currentBytes = b.currentBytes)
    (hl : b'.committedToSeal = true → b'.precommit.changeLog = []) : Tells start (deeds ++ [.held changeLog]) b' := by
  refine ⟨?_, ?_, hb.trans h.currentBytes, hl⟩
  · rw [hu, h.unrewarded, Deed.replay_append]
    rfl
  · rw [ht, h.transactions, Deed.accepted_append]
    simp [Deed.accepted]

omit [Digest H] in
theorem notSealed (h : Tells start deeds b) : b.isSealed = false := by rw [isSealed, h.currentBytes]; rfl

omit [Digest H] in
theorem execute (h : Tells start deeds b) (exec : Exec H) (precedingHashes : H → List U256) (t : Transaction) :
    Tells start (deeds ++ [.execute exec ⟨b.currentBlock, precedingHashes, b.gasUsed⟩ t])
      (after (Block.execute exec precedingHashes t .committed) b) := by
  have hrun := execute_run h.notSealed exec precedingHashes t
  have hreplay : Deed.replay (deeds ++ [.execute exec ⟨b.currentBlock, precedingHashes, b.gasUsed⟩ t]) start =
      after (exec ⟨b.currentBlock, precedingHashes, b.gasUsed⟩ t .committed) b.unrewarded := by
    rw [Deed.replay_append, ← h.unrewarded]
    rfl
  rw [after, hrun]
  rw [after] at hreplay
  refine ⟨?_, ?_, ?_, ?_⟩
  · rw [hreplay]
    cases exec ⟨b.currentBlock, precedingHashes, b.gasUsed⟩ t .committed b.unrewarded <;> rfl
  · rw [Deed.accepted_append, ← h.transactions, ← h.unrewarded, Deed.accepted]
    cases exec ⟨b.currentBlock, precedingHashes, b.gasUsed⟩ t .committed b.unrewarded with
    | ok r s => rfl
    | error e s => exact (List.append_nil _).symm
  · cases exec ⟨b.currentBlock, precedingHashes, b.gasUsed⟩ t .committed b.unrewarded <;> exact h.currentBytes
  · cases exec ⟨b.currentBlock, precedingHashes, b.gasUsed⟩ t .committed b.unrewarded <;> rintro ⟨⟩

omit [Digest H] in
theorem tries {v : SyncSetting H} {tried : List (Deed H)} (h : Tells start deeds b) (ht : Tries v b tried b') :
    Tells start (deeds ++ tried) b' := by
  induction ht generalizing deeds with
  | nil b => rwa [List.append_nil]
  | cons t _ ih =>
    rw [← List.singleton_append, ← List.append_assoc]
    exact ih (h.execute v.exec v.precedingHashes t)

omit [Digest H] in
theorem uncommitToSeal (h : Tells start deeds b) : Tells start deeds (after Block.uncommitToSeal b) := by
  rw [after, uncommitToSeal_run]
  exact ⟨h.unrewarded, h.transactions, h.currentBytes, by rintro ⟨⟩⟩

theorem commitToSeal (h : Tells start deeds b) {chain : BlockChainFace H} {enc : Encodings H} {extraData : Bytes}
    (hc : Committed chain enc extraData b b') : Tells start (deeds ++ [.held []]) b' := by
  have hprecommit : b'.precommit = { b.unrewarded with changeLog := [] } := by
    rw [hc.precommit, Block.unrewarded]
    split
    · next hcommitted => rw [← h.changeLog hcommitted]
    · rfl
  refine h.held [] ?_ hc.transactions hc.currentBytes fun _ => by rw [hprecommit]
  rw [Block.unrewarded, if_pos hc.committedToSeal, hprecommit]

end Tells

/-- Only a block that is not committed to seal may be copied. -/
abbrev Uncommitted (b : Block H) : Prop := b.committedToSeal = false

theorem Comes.tells {start b : Block H} {deeds : List (Deed H)} (h : Comes Uncommitted start deeds b) :
    Tells start.state deeds b := by
  induction h with
  | synced h =>
    exact ⟨by rw [unrewarded, h.committedToSeal]; rfl, h.transactions, h.currentBytes, by rw [h.committedToSeal]; nofun⟩
  | execute _ exec precedingHashes t ih => exact ih.execute exec precedingHashes t
  | sync _ v late fuel q htried ih => exact ih.tries htried
  | commitToSeal _ chain enc extraData hreturns ih =>
    exact ih.commitToSeal (.of_ok ih.notSealed hreturns)
  | uncommitToSeal _ ih => exact ih.uncommitToSeal
  | copy _ hc ih => exact ih.held [] (by rw [unrewarded, unrewarded, hc]; rfl) rfl rfl nofun
  | assign _ hc target ih => exact ih.held _ (by rw [unrewarded, unrewarded, hc]; rfl) rfl rfl nofun

end Block

variable {chain : BlockChainFace H}

theorem BlockChainFace.error_of_chooseUncles {generations : Nat} {p : H} {excluded : Finset H}
    {chosen : List H} {e : Exn} (h : chain.chooseUncles generations p excluded chosen = .error e) : e = .assertion := by
  induction generations generalizing p excluded chosen with
  | zero => cases h
  | succ generations ih =>
    unfold chooseUncles at h
    split at h
    · cases h
    · split at h
      · cases h
        rfl
      · exact ih h

namespace Block

/-- `commitToSeal` does not throw, but for the assertion. -/
theorem Fails.eq_assertion {b : Block H} {e : Exn} (h : Fails chain b e) (hn : b.unrewarded.Noted) :
    e = .assertion := by
  rcases h with h | ⟨uncles, s, h⟩
  · unfold greatUncles at h
    split at h
    · cases h
    · exact BlockChainFace.error_of_chooseUncles h
  · exact (wp_error (State.wp_finish hn chain b.currentBlock (uncles.map chain.info)) h).elim

theorem exists_committed {b : Block H} (hsealed : b.isSealed = false) (hn : b.unrewarded.Noted)
    {uncles : List H} (hu : b.greatUncles chain = .ok uncles) (enc : Encodings H) (extraData : Bytes) :
    ∃ b', commitToSeal chain enc extraData b = .ok () b' ∧ Committed chain enc extraData b b' := by
  have hnever : ∀ e, ¬ Fails chain b e := by
    rintro e (he | ⟨_, _, he⟩)
    · rw [hu] at he
      cases he
    · exact (wp_error (State.wp_finish hn chain b.currentBlock _) he).elim
  obtain ⟨_, b', hb', hc⟩ := exists_ok_of_wp
      (wp_mono (wp_commitToSeal hsealed chain enc extraData) (fun _ _ => id) fun e _ => hnever e)
  exact ⟨b', hb', hc⟩

/-- After a `commitToSeal` the state root is that of what the history comes to, with the rewards applied to it. -/
theorem rewarded_once {start b : Block H} {deeds : List (Deed H)} (h : Comes Uncommitted start deeds b)
    (hn : b.unrewarded.Noted) (chain : BlockChainFace H) (enc : Encodings H) (extraData : Bytes) :
    wp (commitToSeal chain enc extraData)
      (fun _ b' => b'.transactions = Deed.accepted deeds start.state ∧
        ∃ uncles s, b.greatUncles chain = .ok uncles ∧
          State.finish chain b.currentBlock (uncles.map chain.info) (Deed.replay deeds start.state) = .ok () s ∧
          b'.currentBlock.stateRoot = s.root)
      (fun e _ => e = .assertion) b := by
  refine wp_mono (wp_commitToSeal h.tells.notSealed chain enc extraData) (fun _ b' hb' => ?_) fun e _ he => he.eq_assertion hn
  obtain ⟨uncles, hu, -, hfinish⟩ := hb'.state
  refine ⟨hb'.transactions.trans h.tells.transactions, uncles, b'.state, hu, ?_, ?_⟩
  · rwa [← h.tells.unrewarded]
  · rw [hb'.currentBlock]
    rfl

end Block

/-! ### A reward of 5 -/

namespace State

/-- The trie with this account. -/
def withAccount (s : State H) (a : Address) (r : AccountRlp H) : State H :=
  { s with
    db := (stateInsert (s.db, s.root) a (some r)).1
    root := (stateInsert (s.db, s.root) a (some r)).2
    changeLog := [] }

/-- The author of a block has an account, and there are no uncles. -/
theorem finish_run {s : State H} {r : AccountRlp H} {header : BlockHeader H} (hcache : s.cache = ∅)
    (hne : s.nonExistingAccountsCache = ∅) (hu : s.unchangedCacheEntries = []) (hr : s.trieAt header.author = some r)
    (hnonce : r.nonce ≠ 0) (hfork : ¬ chain.eip158ForkBlock ≤ header.number) (hx : chain.blockReward header.number ≠ 0) :
    finish chain header [] s =
      .ok () (s.withAccount header.author { r with balance := r.balance + chain.blockReward header.number }) := by
  have hins : ∀ {K V : Type} [DecidableEq K] (k : K) (v w : V),
      (AList.singleton k v : AList fun _ : K => V).insert k w = AList.singleton k w := by
    intro K V _ k v w
    simp
  have hempty : (Account.ofRlp r).isEmpty = false := by
    rw [Account.isEmpty, Account.ofRlp, decide_eq_false hnonce]
    rfl
  have hbehaviour : (if chain.eip158ForkBlock ≤ header.number then CommitBehaviour.removeEmptyAccounts else
      .keepEmptyAccounts) = .keepEmptyAccounts := if_neg hfork
  have hload : s.load header.author =
      { s with cache := AList.singleton header.author (.ofRlp r), unchangedCacheEntries := [header.author] } := by
    unfold load
    simp only [hcache, AList.lookup_empty, hne, Finset.notMem_empty, if_false, hr]
    simp [clearCacheIfTooLarge, hu, purge, hcache, hne]
  rw [finish, run_bind, applyRewards, run_bind, rewardUncles, run_pure]
  dsimp only
  rw [addBalance, run_bind, account_run, hload, peek]
  simp only [hcache, AList.lookup_empty, hne, Finset.notMem_empty, if_false, hr, Option.map_some, hempty, Bool.and_false,
    Bool.false_eq_true]
  rw [run_bind, put, run_modify]
  dsimp only
  rw [if_pos hx, log, run_modify]
  dsimp only
  rw [commit, run_modify, hbehaviour, hins]
  obtain ⟨db, root, cache, entries, nonExisting, n, changeLog, engine⟩ := s
  dsimp only at hcache hne hu
  subst hcache hne hu
  rfl

theorem trieAt_withAccount (s : State H) (a : Address) (r : AccountRlp H) : (s.withAccount a r).trieAt a = some r := by
  simp [withAccount, trieAt, stateInsert]

theorem balance_of_root_eq {s s' : State PerfectDigest} {a : Address} {r r' : AccountRlp PerfectDigest}
    (h : (s.withAccount a r).root = (s'.withAccount a r').root) : r.balance = r'.balance := by
  have htrie := congrFun (PerfectDigest.state.inj h) a
  rw [Function.update_self, Function.update_self] at htrie
  exact congrArg AccountRlp.balance (Option.some_inj.1 htrie)

/-- Nothing is cached, and the first account has this balance. -/
structure HasOne (s : State PerfectDigest) (x : U256) : Prop where
  cache : s.cache = ∅
  nonExisting : s.nonExistingAccountsCache = ∅
  unchanged : s.unchangedCacheEntries = []
  account : s.trieAt 0 = some ⟨1, x, emptyTrie, emptySHA3⟩
  noted : s.Noted

theorem HasOne.withAccount {s : State PerfectDigest} {x : U256} (h : s.HasOne x) (y : U256) :
    (s.withAccount 0 ⟨1, y, emptyTrie, emptySHA3⟩).HasOne y :=
  ⟨h.cache, h.nonExisting, h.unchanged, s.trieAt_withAccount _ _, h.noted⟩

end State

namespace Block

/-- The author of the block has 100. -/
noncomputable def oneAuthor : Block PerfectDigest :=
  let state : State PerfectDigest := .preExisting 0
    ⟨fun _ => [], fun _ _ => 0, fun _ a => if a = 0 then some ⟨1, 100, emptyTrie, emptySHA3⟩ else none⟩ emptyTrie fun _ => 0
  { emptyBlock with state := state, precommit := state }

/-- The reward is 5. -/
noncomputable def paysFive : BlockChainFace PerfectDigest where
  genesisHash := emptyTrie
  known _ := false
  parent _ := emptyTrie
  children _ := []
  info _ := emptyBlock.currentBlock
  headerData _ := []
  uncles _ := []
  blockReward _ := 5
  eip158ForkBlock := 1

noncomputable def encodesNothing :
    Encodings PerfectDigest := ⟨fun _ => emptyTrie, fun _ => [], fun _ => [], fun _ => emptyTrie, fun _ => 0⟩

theorem synced_oneAuthor : Synced oneAuthor := ⟨rfl, rfl, rfl, rfl⟩

/-- What `oneAuthor` becomes while its author has `x` without the rewards -/
structure Holds (b : Block PerfectDigest) (x : U256) : Prop where
  previousBlock : b.previousBlock = oneAuthor.previousBlock
  currentBytes : b.currentBytes = []
  author : b.currentBlock.author = 0
  number : b.currentBlock.number = 0
  state : b.unrewarded.HasOne x

theorem holds_oneAuthor : oneAuthor.Holds 100 := by
  have haccount : ∀ r : Option (AccountRlp PerfectDigest), (if (0 : Address) = 0 then r else none) = r := fun _ => if_pos rfl
  have hnoted : (0 : U256) ≠ invalid256 := by decide
  exact ⟨rfl, rfl, rfl, rfl, rfl, rfl, rfl, haccount _, hnoted⟩

section Holds

variable {b b' : Block PerfectDigest} {x : U256}

theorem Holds.greatUncles (h : b.Holds x) : b.greatUncles paysFive = .ok [] := by
  rw [Block.greatUncles, h.previousBlock]
  rfl

/-- The author gets 5. -/
theorem Holds.finish (h : b.Holds x) : State.finish paysFive b.currentBlock [] b.unrewarded =
    .ok () (b.unrewarded.withAccount 0 ⟨1, x + 5, emptyTrie, emptySHA3⟩) := by
  have hfive : paysFive.blockReward b.currentBlock.number ≠ 0 := by
    show (5 : U256) ≠ 0
    decide
  have hone : (1 : U256) ≠ 0 := by decide
  have hrun := State.finish_run h.state.cache h.state.nonExisting h.state.unchanged (h.author ▸ h.state.account) hone
    (by rw [h.number]; decide) hfive
  rwa [h.author] at hrun

/-- The block is committed. -/
structure Rewarded (b : Block PerfectDigest) (x : U256) (b' : Block PerfectDigest) : Prop where
  returns : commitToSeal paysFive encodesNothing [] b = .ok () b'
  holds : b'.Holds x
  state : b'.state = b.unrewarded.withAccount 0 ⟨1, x + 5, emptyTrie, emptySHA3⟩
  stateRoot : b'.currentBlock.stateRoot = b'.state.root

theorem Holds.commits (h : b.Holds x) : ∃ b', b.Rewarded x b' := by
  have hsealed : b.isSealed = false := by rw [isSealed, h.currentBytes]; rfl
  obtain ⟨b', hb', hc⟩ := exists_committed hsealed h.state.noted h.greatUncles encodesNothing []
  obtain ⟨uncles, huncles, -, hfinish⟩ := hc.state
  rw [h.greatUncles] at huncles
  cases huncles
  rw [List.map_nil, h.finish] at hfinish
  have hunrewarded : b'.unrewarded = b.unrewarded ∨ b'.unrewarded = b.unrewarded.copy := by
    rw [unrewarded, if_pos hc.committedToSeal, hc.precommit, unrewarded]
    split
    · exact .inl rfl
    · exact .inr rfl
  have hstate : b'.unrewarded.HasOne x := by
    rcases hunrewarded with heq | heq <;> rw [heq]
    · exact h.state
    · exact ⟨h.state.cache, h.state.nonExisting, h.state.unchanged, h.state.account, h.state.noted⟩
  refine ⟨b', hb', ⟨hc.previousBlock.trans h.previousBlock, hc.currentBytes.trans h.currentBytes, ?_, ?_, hstate⟩,
    (EStateM.Result.ok.inj hfinish).2.symm, ?_⟩
  · rw [hc.currentBlock]
    exact h.author
  · rw [hc.currentBlock]
    exact h.number
  · rw [hc.currentBlock]
    rfl

/-- A copy has the rewards in it, if they have been applied. -/
theorem Holds.copy (h : b.Holds x) {y : U256} (hy : b.state.HasOne y) : b.copy.Holds y :=
  ⟨h.previousBlock, h.currentBytes, h.author, h.number, hy.cache, hy.nonExisting, hy.unchanged, hy.account, hy.noted⟩

end Holds

/-- A transaction from which the author gets 100. -/
noncomputable def payHundred : Exec PerfectDigest := fun _ _ _ s =>
  .ok ({}, ⟨.inl true, 21000, []⟩) (s.withAccount 0 ⟨1, 200, emptyTrie, emptySHA3⟩)

/-- A transaction is executed, and the block is committed, uncommitted, copied and committed again: the author gets 5 once. -/
theorem rewarded_once_oneAuthor : ∃ (b b' : Block PerfectDigest) (s : State PerfectDigest), Comes Uncommitted oneAuthor
      [.execute payHundred ⟨oneAuthor.currentBlock, fun _ => [], oneAuthor.gasUsed⟩ (paying 1), .held [], .held []] b ∧
    commitToSeal paysFive encodesNothing [] b = .ok () b' ∧ b'.transactions = [paying 1] ∧
    b'.currentBlock.stateRoot = s.root ∧ s.trieAt 0 = some ⟨1, 205, emptyTrie, emptySHA3⟩ := by
  have hcomes₀ : Comes Uncommitted oneAuthor [] oneAuthor := .synced synced_oneAuthor
  have hcomes₁ := hcomes₀.execute payHundred (fun _ => []) (paying 1)
  have hholds₁ : (after (Block.execute payHundred (fun _ => []) (paying 1) .committed) oneAuthor).Holds 200 := by
    rw [after, execute_run rfl]
    exact ⟨rfl, rfl, rfl, rfl, holds_oneAuthor.state.withAccount 200⟩
  obtain ⟨b₂, hb₂⟩ := hholds₁.commits
  have hcomes₂ := hcomes₁.commitToSeal paysFive encodesNothing [] hb₂.returns
  have hholds₃ : (after Block.uncommitToSeal b₂).copy.Holds 200 := by
    obtain ⟨hprevious, hbytes, hauthor, hnumber, hstate⟩ := hb₂.holds
    rw [after, uncommitToSeal_run]
    exact ⟨hprevious, hbytes, hauthor, hnumber, hstate.cache, hstate.nonExisting, hstate.unchanged,
      hstate.account, hstate.noted⟩
  have hcomes₃ := hcomes₂.uncommitToSeal.copy (by rw [after, uncommitToSeal_run])
  have hwp := rewarded_once hcomes₃ hholds₃.state.noted paysFive encodesNothing []
  obtain ⟨b', hb'⟩ := hholds₃.commits
  rw [wp, hb'.returns] at hwp
  obtain ⟨htransactions, uncles, s, huncles, hfinish, hroot⟩ := hwp
  rw [hholds₃.greatUncles] at huncles
  cases huncles
  rw [List.map_nil, ← hcomes₃.tells.unrewarded, hholds₃.finish] at hfinish
  refine ⟨_, b', s, hcomes₃, hb'.returns, htransactions, hroot, ?_⟩
  rw [← (EStateM.Result.ok.inj hfinish).2]
  exact State.trieAt_withAccount _ _ _

/-- The block is committed, copied and committed again. -/
theorem not_rewarded_once : ¬ ∀ (start b : Block PerfectDigest) (deeds : List (Deed PerfectDigest)),
    Comes (fun _ => True) start deeds b →
    b.unrewarded.Noted → ∀ (chain : BlockChainFace PerfectDigest) (enc : Encodings PerfectDigest) (extraData : Bytes),
    wp (commitToSeal chain enc extraData)
      (fun _ b' => b'.transactions = Deed.accepted deeds start.state ∧
        ∃ uncles s, b.greatUncles chain = .ok uncles ∧
          State.finish chain b.currentBlock (uncles.map chain.info) (Deed.replay deeds start.state) = .ok () s ∧
          b'.currentBlock.stateRoot = s.root)
      (fun e _ => e = .assertion) b := by
  intro h
  obtain ⟨b₁, hb₁⟩ := holds_oneAuthor.commits
  have hholds : b₁.copy.Holds 105 := hb₁.holds.copy (by rw [hb₁.state]; exact holds_oneAuthor.state.withAccount 105)
  have hcomes : Comes (fun _ => True) oneAuthor [.held [], .held []] b₁.copy :=
    .copy (.commitToSeal (.synced synced_oneAuthor) paysFive encodesNothing [] hb₁.returns) trivial
  obtain ⟨b₂, hb₂⟩ := hholds.commits
  have hwp := h oneAuthor b₁.copy _ hcomes hholds.state.noted paysFive encodesNothing []
  rw [wp, hb₂.returns] at hwp
  obtain ⟨-, uncles, s, huncles, hfinish, hroot⟩ := hwp
  rw [hholds.greatUncles] at huncles
  cases huncles
  rw [List.map_nil, State.finish_run (r := ⟨1, 100, emptyTrie, emptySHA3⟩) rfl rfl rfl
    (hholds.author ▸ holds_oneAuthor.state.account)
    (by decide) (by rw [hholds.number]; decide) (by show (5 : U256) ≠ 0; decide), hholds.author] at hfinish
  rw [hb₂.stateRoot, hb₂.state, ← (EStateM.Result.ok.inj hfinish).2] at hroot
  have hbalance : (105 + 5 : U256) = 100 + 5 := State.balance_of_root_eq hroot
  exact absurd hbalance (by decide)

end Block

end Kmdx
