import Kmdx.Transact

/-!
# Blocks (`libwing/Block`)

A `Block` holds the state after the transactions that were executed in it, and a receipt for each. How a
transaction is executed is a parameter (`Exec`); `State.executeWith` is the execution of the program.

Whatever is offered to a block and however it is rejected, the gas that the receipts say was used adds up
and stays below the limit of the block (`Block.execute_gas`).
-/

namespace Kmdx

open Wp

variable {H : Type}

/-- `m_state.execute(EnvInfo(..), *m_sealEngine, _t, _p, _onOp)` -/
abbrev Exec (H : Type) :=
  EnvInfo H → Transaction → Permanence → StateM H (ExecutionResult × TransactionReceipt H)

structure Block (H : Type) where
  state : State H
  transactions : List Transaction
  receipts : List (TransactionReceipt H)
  /-- The state before the rewards. -/
  precommit : State H
  previousBlock : BlockHeader H
  currentBlock : BlockHeader H
  currentBytes : Bytes
  /-- The encoded headers in `m_currentUncles`. -/
  currentUncles : List Bytes
  committedToSeal : Bool
  author : Address

abbrev BlockM (H : Type) := EStateM Exn (Block H)

namespace Block

def isSealed (b : Block H) : Bool := !b.currentBytes.isEmpty

def gasUsed (b : Block H) : U256 := (b.receipts.getLast?.map (·.gasUsed)).getD 0

/-- A call on `m_state`. -/
def onState {α : Type} (x : StateM H α) : BlockM H α := fun b =>
  match x b.state with
  | .ok a s => .ok a { b with state := s }
  | .error e s => .error e { b with state := s }

def uncommitToSeal : BlockM H Unit := modify fun b =>
  if b.committedToSeal then { b with state := b.precommit, committedToSeal := false } else b

def execute (exec : Exec H) (precedingHashes : H → List U256) (t : Transaction) (p : Permanence) :
    BlockM H ExecutionResult := do
  if (← get).isSealed then throw .invalidOperationOnSealedBlock
  -- Uncommitting is a non-trivial operation - only do it once we've verified as much of the
  -- transaction as possible.
  uncommitToSeal
  let b ← get
  let r ← onState (exec ⟨b.currentBlock, precedingHashes, b.gasUsed⟩ t p)
  if p = .committed then
    -- Add to the user-originated transactions that we've executed.
    modify fun b => { b with
      transactions := b.transactions ++ [t]
      receipts := b.receipts ++ [r.2] }
  return r.1

end Block

/-- The execution of a transaction whose code does what the script says. -/
def State.executeWith [Digest H] (sealEngine : SealEngine) (script : Script) : Exec H := fun env t p =>
  State.execute ⟨env, sealEngine, fun _ => false⟩ (script.run ⟨env, sealEngine, fun _ => false⟩) t p

/-! ### Gas -/

variable [Digest H]

/-- What the receipt says of a transaction that was accepted when `before` was used: `left` of its gas was
not spent, and of what was spent at most half was refunded. -/
structure GasOk (header : BlockHeader H) (before : U256) (t : Transaction) (receipt : TransactionReceipt H) :
    Prop where
  gas : ∃ spent left refunded : Nat, spent + left = t.gas.toNat ∧ refunded ≤ spent / 2 ∧
    receipt.gasUsed.toNat = before.toNat + (spent - refunded)
  limit : receipt.gasUsed.toNat ≤ header.gasLimit.toNat

theorem State.executeTransaction_returns {c : Context H} (script : Script) (t : Transaction) :
    Returns (fun r => r.2.t = t ∧ c.sealEngine.Accepted t c.envInfo.header c.envInfo.gasUsed ∧
      ∃ spent left refunded : Nat, spent + left = t.gas.toNat ∧ refunded ≤ spent / 2 ∧
        r.2.gas.toNat = left + refunded)
      (executeTransaction c (script.run c) { res := some {} } t) := by
  refine (Executive.initialise_returns t).bind fun e₁ hi => (Executive.execute_returns hi).bind fun r hp =>
    (Executive.goUnless_returns script.run_records script.run_spends hp).bind fun e₃ hs =>
      (Executive.finalize_returns hs).mono fun r' ⟨ht, refunded, hr, hg⟩ => ⟨ht, hi.accepted, ?_⟩
  have hle : e₃.gas.toNat ≤ t.gas.toNat := BitVec.le_def.1 hs.gas
  exact ⟨t.gas.toNat - e₃.gas.toNat, e₃.gas.toNat, refunded.toNat, Nat.sub_add_cancel hle, hr, hg⟩

theorem State.executeWith_returns (sealEngine : SealEngine) (script : Script) (env : EnvInfo H)
    (t : Transaction) (p : Permanence) :
    Returns (fun r => GasOk env.header env.gasUsed t r.2) (State.executeWith sealEngine script env t p) := by
  refine (State.executeTransaction_returns script t).bind fun r ⟨ht, hacc, spent, left, refunded, hsum, hle, hg⟩ =>
    .bind_right fun _ => .bind_right fun s => .pure ?_
  have hblock := hacc.blockGas
  have hlimit := env.header.gasLimit.isLt
  have hused : r.2.gasUsed.toNat = spent - refunded := by
    rw [Executive.gasUsed, ht, BitVec.toNat_sub_of_le (BitVec.le_def.2 (by omega)), hg]
    omega
  have hgas : (env.gasUsed + r.2.gasUsed).toNat = env.gasUsed.toNat + (spent - refunded) := by
    rw [BitVec.toNat_add, hused, Nat.mod_eq_of_lt]
    have : env.gasUsed.toNat + t.gas.toNat ≤ env.header.gasLimit.toNat := hblock
    omega
  refine ⟨⟨spent, left, refunded, hsum, hle, hgas⟩, ?_⟩
  show (env.gasUsed + r.2.gasUsed).toNat ≤ _
  have : env.gasUsed.toNat + t.gas.toNat ≤ env.header.gasLimit.toNat := hblock
  omega

namespace Block

/-- A transaction is offered to the block, whatever becomes of it. -/
def Offer (sealEngine : SealEngine) (b b' : Block H) : Prop :=
  ∃ script precedingHashes t p,
    after (execute (State.executeWith sealEngine script) precedingHashes t p) b = b'

/-- The receipts add up, and stay below the limit. -/
structure GasInv (b : Block H) : Prop where
  sorted : b.receipts.Pairwise fun r r' => r.gasUsed.toNat ≤ r'.gasUsed.toNat
  limit : ∀ r ∈ b.receipts, r.gasUsed.toNat ≤ b.currentBlock.gasLimit.toNat

/-- Nothing was added to the block. -/
structure SameList (b b' : Block H) : Prop where
  receipts : b'.receipts = b.receipts
  transactions : b'.transactions = b.transactions
  currentBlock : b'.currentBlock = b.currentBlock

/-- The transaction and its receipt were added. -/
structure Added (b : Block H) (t : Transaction) (b' : Block H) (receipt : TransactionReceipt H) : Prop where
  receipts : b'.receipts = b.receipts ++ [receipt]
  transactions : b'.transactions = b.transactions ++ [t]
  currentBlock : b'.currentBlock = b.currentBlock
  gas : GasOk b.currentBlock b.gasUsed t receipt

omit [Digest H] in
theorem SameList.gasUsed {b b' : Block H} (h : SameList b b') : b'.gasUsed = b.gasUsed := by
  rw [Block.gasUsed, h.receipts]; rfl

omit [Digest H] in
theorem SameList.trans {b b' b'' : Block H} (h : SameList b b') (h' : SameList b' b'') : SameList b b'' :=
  ⟨h'.receipts.trans h.receipts, h'.transactions.trans h.transactions, h'.currentBlock.trans h.currentBlock⟩

omit [Digest H] in
theorem sameList_uncommitToSeal (b : Block H) : ∃ b', uncommitToSeal b = .ok () b' ∧ SameList b b' := by
  refine ⟨_, rfl, ?_⟩
  dsimp only
  split <;> exact ⟨rfl, rfl, rfl⟩

omit [Digest H] in
theorem wp_onState {α : Type} {x : StateM H α} {b : Block H} {Q : α → Block H → Prop}
    {E : Exn → Block H → Prop} : wp (onState x) Q E b ↔
      wp x (fun a s => Q a { b with state := s }) (fun e s => E e { b with state := s }) b.state := by
  unfold wp onState
  cases x b.state <;> rfl

/-- What becomes of an offer. -/
theorem wp_execute (sealEngine : SealEngine) (script : Script) (precedingHashes : H → List U256)
    (t : Transaction) (p : Permanence) (b : Block H) :
    wp (execute (State.executeWith sealEngine script) precedingHashes t p)
      (fun _ b' => if p = .committed then ∃ receipt, Added b t b' receipt else SameList b b')
      (fun _ b' => SameList b b') b := by
  unfold execute
  rw [wp_bind, wp_get, wp_ite]
  split
  · exact ⟨rfl, rfl, rfl⟩
  obtain ⟨b₁, hb₁, h₁⟩ := sameList_uncommitToSeal b
  rw [wp_bind]
  refine wp_of_eq_ok hb₁ ?_
  rw [wp_bind, wp_get, wp_bind]
  rw [wp_onState]
  refine wp_mono ((State.executeWith_returns sealEngine script _ t p).wp _) ?_
    fun e s _ => h₁.trans ⟨rfl, rfl, rfl⟩
  intro r s hgas
  rw [wp_ite]
  split
  · refine ⟨r.2, ?_, ?_, h₁.currentBlock, ?_⟩
    · exact congrArg (· ++ [r.2]) h₁.receipts
    · exact congrArg (· ++ [t]) h₁.transactions
    · rw [← h₁.currentBlock, ← h₁.gasUsed]; exact hgas
  · exact h₁.trans ⟨rfl, rfl, rfl⟩

omit [Digest H] in
theorem GasInv.gasUsed_le {b : Block H} (h : GasInv b) :
    ∀ r ∈ b.receipts, r.gasUsed.toNat ≤ b.gasUsed.toNat := by
  intro r hr
  unfold Block.gasUsed
  obtain ⟨l, last, hl⟩ : ∃ l last, b.receipts = l ++ [last] :=
    ⟨_, _, (List.dropLast_append_getLast (List.ne_nil_of_mem hr)).symm⟩
  rw [hl, List.getLast?_concat]
  rw [hl, List.mem_append, List.mem_singleton] at hr
  rcases hr with hr | rfl
  · have := h.sorted
    rw [hl, List.pairwise_append] at this
    exact this.2.2 r hr last (List.mem_singleton_self _)
  · exact Nat.le_refl _

omit [Digest H] in
theorem GasInv.sameList {b b' : Block H} (h : GasInv b) (hs : SameList b b') : GasInv b' := by
  refine ⟨hs.receipts ▸ h.sorted, ?_⟩
  rw [hs.receipts, hs.currentBlock]
  exact h.limit

omit [Digest H] in
theorem GasInv.added {b b' : Block H} {t : Transaction} {receipt : TransactionReceipt H} (h : GasInv b)
    (ha : Added b t b' receipt) : GasInv b' := by
  obtain ⟨spent, left, refunded, -, -, hgas⟩ := ha.gas.gas
  constructor
  · rw [ha.receipts, List.pairwise_append]
    refine ⟨h.sorted, List.pairwise_singleton .., ?_⟩
    rintro r hr _ hr'
    rw [List.mem_singleton.1 hr', hgas]
    exact Nat.le_trans (h.gasUsed_le r hr) (Nat.le_add_right ..)
  · rw [ha.receipts, ha.currentBlock]
    intro r hr
    rcases List.mem_append.1 hr with hr | hr
    · exact h.limit r hr
    · rw [List.mem_singleton.1 hr]; exact ha.gas.limit

theorem GasInv.step {sealEngine : SealEngine} {b b' : Block H} (h : GasInv b) (hs : Offer sealEngine b b') :
    GasInv b' ∧ b'.currentBlock = b.currentBlock := by
  obtain ⟨script, precedingHashes, t, p, rfl⟩ := hs
  refine wp_after (P := fun b' => GasInv b' ∧ b'.currentBlock = b.currentBlock) ?_
  refine wp_mono (wp_execute sealEngine script precedingHashes t p b) ?_ ?_
  · intro r b' hb'
    split at hb'
    · obtain ⟨receipt, ha⟩ := hb'
      exact ⟨h.added ha, ha.currentBlock⟩
    · exact ⟨h.sameList hb', hb'.currentBlock⟩
  · exact fun e b' hb' => ⟨h.sameList hb', hb'.currentBlock⟩

/-- After any transactions were offered to a new block: its gas adds up, and the next one offered is either
rejected, and changes nothing of it, or accepted with gas used within its own limit. -/
theorem execute_gas (sealEngine : SealEngine) {b₀ b : Block H} (h₀ : b₀.receipts = [])
    (hrun : Relation.ReflTransGen (Offer sealEngine) b₀ b) :
    b.currentBlock = b₀.currentBlock ∧ GasInv b ∧ b.gasUsed.toNat ≤ b.currentBlock.gasLimit.toNat ∧
    (∀ receipt, b.receipts.getLast? = some receipt → b.gasUsed = receipt.gasUsed) ∧
    ∀ (script : Script) (precedingHashes : H → List U256) (t : Transaction) (p : Permanence),
      wp (execute (State.executeWith sealEngine script) precedingHashes t p)
        (fun _ b' => if p = .committed then ∃ receipt, Added b t b' receipt ∧ b'.gasUsed = receipt.gasUsed
          else SameList b b' ∧ b'.gasUsed = b.gasUsed)
        (fun _ b' => SameList b b' ∧ b'.gasUsed = b.gasUsed) b := by
  have hinv : GasInv b ∧ b.currentBlock = b₀.currentBlock := by
    induction hrun with
    | refl =>
      refine ⟨⟨?_, ?_⟩, rfl⟩
      · rw [h₀]; exact .nil
      · rw [h₀]; nofun
    | tail _ hs ih =>
      obtain ⟨h1, h2⟩ := ih.1.step hs
      exact ⟨h1, h2.trans ih.2⟩
  refine ⟨hinv.2, hinv.1, ?_, fun receipt hr => ?_, fun script precedingHashes t p => ?_⟩
  · unfold Block.gasUsed
    cases hl : b.receipts.getLast? with
    | none => exact Nat.zero_le _
    | some r => exact hinv.1.limit r (List.mem_of_getLast? hl)
  · rw [Block.gasUsed, hr]; rfl
  · refine wp_mono (wp_execute sealEngine script precedingHashes t p b) ?_ fun _ b' h => ⟨h, h.gasUsed⟩
    intro r b' hb'
    split at hb'
    · obtain ⟨receipt, ha⟩ := hb'
      rw [if_pos ‹_›]
      refine ⟨receipt, ha, ?_⟩
      rw [Block.gasUsed, ha.receipts, List.getLast?_concat]; rfl
    · rw [if_neg ‹_›]
      exact ⟨hb', hb'.gasUsed⟩

/-! ### A block with two transactions -/

open State

/-- What is sent to 1 is given back. -/
def echoes : SealEngine := ⟨.noProof, {
  constantinopleForkBlock := 0
  precompiled := fun a => if a = 1 then some ⟨fun _ => 0, fun d => (true, d), 0⟩ else none }⟩

noncomputable def roomForTwo : Block PerfectDigest where
  state := .preExisting 0 OverlayDB.empty emptyTrie fun _ => 0
  precommit := .preExisting 0 OverlayDB.empty emptyTrie fun _ => 0
  previousBlock := callContext.envInfo.header
  currentBlock := { callContext.envInfo.header with gasLimit := 42000 }
  transactions := []
  receipts := []
  currentBytes := []
  currentUncles := []
  committedToSeal := false
  author := 0

/-- A state in which accounts can be made -/
def Ready (s : State PerfectDigest) : Prop := (∃ base, Coherent base s) ∧ s.accountStartNonce = 0

theorem Ready.wp_addBalance {s : State PerfectDigest} (h : Ready s) (a : Address) (x : U256) :
    wp (addBalance a x) (fun _ s' => Ready s') (fun _ _ => False) s := by
  obtain ⟨⟨base, h⟩, hn⟩ := h
  exact wp_mono (h.addBalance x) (fun _ _ h' => ⟨⟨base, h'.1.coherent⟩, h'.1.accountStartNonce.trans hn⟩)
    fun _ _ he => absurd (hn.symm.trans he.startNonce) (by decide)

noncomputable abbrev echoing (gasUsed : U256) :
    Context PerfectDigest := ⟨⟨roomForTwo.currentBlock, fun _ => [], gasUsed⟩, echoes, fun _ => false⟩

abbrev echoed (savepoint : Nat) : Executive PerfectDigest :=
  { res := some {}, t := callTransaction, baseGasRequired := 21000, savepoint }

theorem initialise_echoing {gasUsed : U256} (hgas : gasUsed = 0 ∨ gasUsed = 21000) :
    Executive.initialise (echoing gasUsed) { res := some {} } callTransaction = pure (echoed 0) := by
  rcases hgas with rfl | rfl
  · exact rfl
  · exact rfl

theorem execute_echoing (gasUsed : U256) : (echoed 0).execute (echoing gasUsed) = (do
    let savepoint ← State.savepoint
    addBalance 1 0
    return (true, echoed savepoint)) := rfl

theorem finalize_echoing (savepoint : Nat) (gasUsed : U256) : (echoed savepoint).finalize (echoing gasUsed) = (do
    addBalance maxAddress 0
    addBalance 0 0
    return (true, { echoed savepoint with res := some { gasUsed := 21000, excepted := .none } })) := by
  have hauthor : (echoing gasUsed).envInfo.author = 0 := rfl
  have hnull : callTransaction.isNull = false := rfl
  have hsender : callTransaction.sender = .ok maxAddress := rfl
  have hgas : callTransaction.gas = 21000 := rfl
  have hprice : callTransaction.gasPrice = 0 := rfl
  simp [Executive.finalize, Executive.refund, Executive.payOut, Executive.takeSubState, Executive.gasUsed,
    Context.add, Context.mul,
    Context.sub, Context.addBalance, Context.stopIf, liftExcept, hauthor, hnull, hsender, hgas, hprice]

theorem Ready.exists_executeWith {s : State PerfectDigest} (h : Ready s) {gasUsed : U256}
    (hgas : gasUsed = 0 ∨ gasUsed = 21000) :
    ∃ r s', executeWith echoes (.stop [] 0) ⟨roomForTwo.currentBlock, fun _ => [], gasUsed⟩ callTransaction
      .committed s = .ok r s' ∧ Ready s' ∧ r.2.gasUsed = gasUsed + 21000 := by
  refine exists_ok_of_wp ?_
  rw [executeWith, State.execute]
  simp only [executeTransaction, initialise_echoing hgas, execute_echoing, wp_bind, wp_pure, wp_savepoint]
  refine wp_mono (h.wp_addBalance 1 0) (fun _ s₁ h₁ => ?_) fun _ _ => False.elim
  simp only [Executive.goUnless, if_true, finalize_echoing, wp_bind, wp_pure]
  refine wp_mono (h₁.wp_addBalance maxAddress 0) (fun _ s₂ h₂ => ?_) fun _ _ => False.elim
  rw [wp_bind]
  refine wp_mono (h₂.wp_addBalance 0 0) (fun _ s₃ h₃ => ?_) fun _ _ => False.elim
  obtain ⟨⟨base, hcoherent⟩, hn⟩ := h₃
  rw [wp_pure, wp_bind]
  refine wp_mono (wp_commit _ hcoherent (E := fun _ _ => False)) (fun _ s₄ h₄ => ?_) fun _ _ => False.elim
  exact ⟨⟨⟨0, h₄.1⟩, h₄.2.2.2.1.trans hn⟩, congrArg (gasUsed + ·) (BitVec.sub_zero _)⟩

/-- A block in which there is room for the transaction, and what it is with it. -/
structure Room (b : Block PerfectDigest) : Prop where
  header : b.currentBlock = roomForTwo.currentBlock
  bytes : b.currentBytes = []
  committedToSeal : b.committedToSeal = false
  state : Ready b.state

theorem Room.exists_offer {b : Block PerfectDigest} (h : Room b) (hgas : b.gasUsed = 0 ∨ b.gasUsed = 21000) :
    ∃ b', Offer echoes b b' ∧ b'.transactions = b.transactions ++ [callTransaction] ∧ b'.gasUsed =
      b.gasUsed + 21000 ∧ Room b' := by
  obtain ⟨r, s, hrun, hready, hused⟩ := h.state.exists_executeWith hgas
  rw [← h.header] at hrun
  refine ⟨{ b with state := s, transactions := b.transactions ++ [callTransaction], receipts := b.receipts ++ [r.2] },
    ⟨.stop [] 0, fun _ => [], callTransaction, .committed, ?_⟩, rfl, ?_, h.header, h.bytes, h.committedToSeal, hready⟩
  · have huncommit : uncommitToSeal b = .ok () b := congrArg (EStateM.Result.ok ())
        (if_neg (by rw [h.committedToSeal]; decide))
    have hstate : onState (executeWith echoes (.stop [] 0) ⟨b.currentBlock, fun _ => [], b.gasUsed⟩
        callTransaction .committed) b = .ok r { b with state := s } := by
      rw [onState, hrun]
    have hopen : ¬b.isSealed = true := by
      rw [isSealed, h.bytes]
      decide
    rw [after, execute, run_bind_of_ok run_get, if_neg hopen]
    dsimp only
    rw [run_bind_of_ok huncommit, run_bind_of_ok run_get, run_bind_of_ok hstate]
    rfl
  · rw [← hused, Block.gasUsed, List.getLast?_concat]
    rfl

/-- Two transactions are accepted. -/
theorem execute_gas_two : ∃ b : Block PerfectDigest, b.transactions = [callTransaction, callTransaction] ∧ b.gasUsed = 42000 ∧
    GasInv b ∧ b.gasUsed.toNat ≤ b.currentBlock.gasLimit.toNat := by
  have hroom : Room roomForTwo := ⟨rfl, rfl, rfl, ⟨0, (Reachable.preExisting OverlayDB.empty_ok).coherent⟩, rfl⟩
  obtain ⟨b₁, hoffer₁, htransactions₁, hgas₁, hroom₁⟩ := hroom.exists_offer (.inl rfl)
  have hgas₁ : b₁.gasUsed = 21000 := hgas₁.trans (BitVec.zero_add _)
  obtain ⟨b₂, hoffer₂, htransactions₂, hgas₂, -⟩ := hroom₁.exists_offer (.inr hgas₁)
  obtain ⟨-, hinv, hlimit, -⟩ := execute_gas echoes rfl (.tail (.single hoffer₁) hoffer₂)
  refine ⟨b₂, ?_, ?_, hinv, hlimit⟩
  · rw [htransactions₂, htransactions₁]
    rfl
  · rw [hgas₂, hgas₁]
    decide

end Block

end Kmdx
