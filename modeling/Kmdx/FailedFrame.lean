import Kmdx.Accrue

/-!
# A frame that fails

A frame is begun by a call or a creation, at whatever depth, and run by `go`. If it fails, the state is
as it was at its savepoint, and its parent, `finalize` and the receipt get nothing of it
(`Frame.leaves_no_trace`), provided that no word was pending where its creations cleared storage, and that no block
hash came from a transaction. Where words were pending they are lost (`Frame.not_leaves_no_trace`).
-/

namespace Kmdx

open Wp State

variable {H : Type} [Digest H]

/-- How a frame is begun. -/
inductive Frame
  | call (p : CallParameters) (gasPrice : U256) (origin : Address)
  /-- `CREATE2` if there is a salt. -/
  | create (sender : Address) (endowment gasPrice gas : U256) (init : Bytes) (origin : Address)
    (salt : Option U256)

namespace Frame

def start (c : Context H) (e : Executive H) : Frame → StateM H (Bool × Executive H)
  | call p gasPrice origin => e.call c p gasPrice origin
  | create sender endowment gasPrice gas init origin none =>
    e.createOpcode c sender endowment gasPrice gas init origin
  | create sender endowment gasPrice gas init origin (some salt) =>
    e.create2Opcode c sender endowment gasPrice gas init origin salt

/-- What is done before the savepoint. -/
def count (c : Context H) (e : Executive H) : Frame → StateM H Unit
  | call p _ _ => e.countTransaction c p.senderAddress
  | create sender _ _ _ _ _ none => Executive.countCreation c sender
  | create sender _ _ _ _ _ (some _) => Executive.countNonce c sender

/-- What keeps a frame from being taken back. -/
def watch : Watch → Bool
  | .clearStorage | .nestedTransaction => true
  | .arithmetic | .ownBeneficiary => false

variable {c : Context H} {R : World H → World H → Prop} {base : Nat} {s s₁ s₂ : State H}
  {e e₁ e₂ : Executive H}

theorem wp_start (h : Coherent base s) (hR : ∀ db, World.Fine db R) (he : e.Fresh) (f : Frame) :
    wp (f.start c e) (Executive.Begun R base (fun s₀ => f.count c e s = .ok () s₀) s) (c.NoWrap s) s := by
  rcases f with ⟨p, gasPrice, origin⟩ | ⟨sender, endowment, gasPrice, gas, init, origin, _ | salt⟩
  · exact Executive.wp_call h hR he ..
  · exact Executive.wp_createOpcode h hR he ..
  · exact Executive.wp_create2Opcode h hR he ..

/-- What was said about gas when the frame was begun. -/
def gas : Frame → U256
  | call p _ _ => p.gas
  | create _ _ _ gas _ _ _ => gas

theorem start_returns (he : e.Fresh) (f : Frame) :
    Returns (Executive.Prepared e.t f.gas) (f.start c e) := by
  rcases f with ⟨p, gasPrice, origin⟩ | ⟨sender, endowment, gasPrice, gas, init, origin, _ | salt⟩
  · exact Executive.call_returns he _ _ _
  · exact Executive.createOpcode_returns he _ _ _ _ _ _
  · exact Executive.create2Opcode_returns he _ _ _ _ _ _ _

end Frame

namespace Executive
variable {c : Context H} {e : Executive H}

/-- The gas that is left is refunded and paid for. -/
def settle (c : Context H) (e : Executive H) : StateM H Unit := do
  let e ← e.refund c
  let gas ← c.add e.gas e.refunded
  payOut c { e with gas := gas }

/-- What a frame collected is all that is killed and put into the receipt. -/
theorem finalize_ok (h : e.Recorded) {t t' : State H} {r : Bool × Executive H}
    (hf : e.finalize c t = .ok r t') : ∃ t₁, e.settle c t = .ok () t₁ ∧
      killAll (e.collected.suicides.sort (· ≤ ·)) t₁ = .ok () t' ∧
      (e.ext.isSome → r.2.logs = e.collected.logs) := by
  unfold finalize at hf
  obtain ⟨e', t₁, hrefund, hf⟩ := exists_of_bind_ok hf
  obtain ⟨gas, t₂, hgas, hf⟩ := exists_of_bind_ok hf
  obtain ⟨_, t₃, hpay, hf⟩ := exists_of_bind_ok hf
  obtain ⟨e'', t₄, htake, hf⟩ := exists_of_bind_ok hf
  cases hf
  refine ⟨t₃, ?_, ?_⟩
  · rw [settle, run_bind, hrefund]
    dsimp only
    rw [run_bind, hgas]
    exact hpay
  cases hext : e.ext with
  | none =>
    rw [refund, hext] at hrefund
    cases hrefund
    simp only [takeSubState] at htake
    cases htake
    have hnone : e.collected = {} := by rw [collected, hext, Option.elim_none, ite_self]
    have hempty : ({} : SubState).suicides.sort (· ≤ ·) = [] := Finset.sort_empty _
    rw [hnone, hempty]
    exact ⟨rfl, by rintro ⟨⟩⟩
  | some ext =>
    -- the refund leaves all of the substate but the refunds
    rw [refund, hext] at hrefund
    obtain ⟨spent, _, -, hrefund⟩ := exists_of_bind_ok hrefund
    cases hrefund
    dsimp only [takeSubState] at htake
    obtain ⟨_, _, hkill, htake⟩ := exists_of_bind_ok htake
    cases htake
    rw [← h ext hext]
    exact ⟨hkill, fun _ => rfl⟩

end Executive

namespace Frame
variable {c : Context H} {base : Nat} {s s₁ s₂ : State H} {e e₁ e₂ : Executive H}

theorem leaves_no_trace (c : Context H) (script : Script) (f : Frame) (h : Reachable base s) (he : e.Fresh)
    (hstart : f.start c.program e s = .ok (false, e₁) s₁)
    (hgo : e₁.go c.program (script.run c.program) s₁ = .ok e₂ s₂)
    (hwatch : eval (e₁.go (c.watching watch) (script.run (c.watching watch))) s₁ ≠ .error .monitor) :
    ∃ s₀, f.count c.program e s = .ok () s₀ ∧ e₁.savepoint = s₀.changeLog.length ∧
      (e₂.excepted ≠ .none → SameObs s₂ s₀ ∧ e₂.collected = {}) ∧
      (∀ parent, e₂.accrueSubState parent = parent.add e₂.collected) ∧
      (∀ t r t', e₂.finalize c.program t = .ok r t' → ∃ t₁, e₂.settle c.program t = .ok () t₁ ∧
        Executive.killAll (e₂.collected.suicides.sort (· ≤ ·)) t₁ = .ok () t' ∧
        r.2.logs = e₂.collected.logs) := by
  have hR : ∀ db : OverlayDB H, World.Fine db Eq := World.fine_eq
  obtain ⟨s₀, hcount, h₀, h₁, hready⟩ := wp_ok (f.wp_start h.coherent hR he) hstart
  have hready := hready rfl
  have hprep := f.start_returns he _ _ _ hstart
  have hsame := (e₁.go_follows c watch (fun ext gas => script.run_follows c watch ext gas)).eq_of_not_stopped hwatch
  have hend := wp_ok (Executive.wp_go (c := c.watching watch) hR (.inl rfl)
    (script.run_moves hR (.inl rfl) (.inl rfl)) hready h₀.ext.coherent.base_le) (hsame.trans hgo)
  have hdone := Executive.go_returns (script.run_records) (script.run_spends) (hprep.excepted rfl)
    hprep.clean _ _ _ hgo
  refine ⟨s₀, hcount, hready.savepoint, fun hne => ⟨?_, if_neg hne⟩, hdone.recorded.accrue,
    fun t r t' hf => ?_⟩
  · exact .of_view (hend.failed hne).1 hend.moves.ext.accountStartNonce
  · obtain ⟨t₁, hsettle, hkill, hlogs⟩ := Executive.finalize_ok hdone.recorded hf
    exact ⟨t₁, hsettle, hkill, hlogs (hdone.ext.trans (hprep.notDone rfl))⟩

/-- A creation at an account that is cached, whose code fails: if the account has storage in the trie, the
words that were pending are gone after it. -/
theorem create_then_fail {acc : Account H} {sender : Address} {init : Bytes} {salt : U256}
    (origin a : Address) (hadr : a = right160 (sha3 (BigEndian.toBytes 20 sender.toNat ++ toH256 salt ++
      toH256 (Digest.toU256 (sha3 init : H))) : H))
    (hsender : sender = maxAddress) (hc : c.params.constantinopleForkBlock ≤ c.number) (hinit : init ≠ [])
    (hl : s.cache.lookup a = some acc) (hcode : acc.codeHash = emptySHA3) (hnonce : acc.nonce = 0)
    (hu : acc.isUnchanged = false) (hn : s.accountStartNonce = 0) :
    ∃ e₁ s₁ e₂ s₂, (create sender 0 0 0 init origin (some salt)).start c.program {} s = .ok (false, e₁) s₁ ∧
      e₁.go c.program ((Script.vmException .outOfGas).run c.program) s₁ = .ok e₂ s₂ ∧
      e₂.excepted ≠ .none ∧
      (acc.storageRoot = emptyTrie → eval (e₁.go (c.watching watch)
        ((Script.vmException .outOfGas).run (c.watching watch))) s₁ ≠ .error .monitor) ∧
      (acc.storageRoot ≠ emptyTrie → ∃ acc', s₂.cache.lookup a = some acc' ∧
        acc'.storageOverlay = ∅ ∧ acc'.storageRoot = acc.storageRoot ∧ s₂.db = s.db) := by
  have hm : c.program.monitor = fun _ => false := rfl
  have hw : (c.watching watch).monitor = watch := rfl
  have hp : c.program.params = c.params := rfl
  have hfork : ¬ c.number < c.params.constantinopleForkBlock := Nat.not_lt.2 hc
  have hstart : (0#256 : U256) = invalid256 ↔ False := by decide
  have hlog : ∀ n : Nat, ¬ n = n + 1 + 1 := fun n => by omega
  have hself : ∀ (l : List (Change H)) (s : State H), rollbackLoop l.length l s = s := by
    intro l s
    cases l <;> simp [rollbackLoop]
  -- the account is there, so only its nonce is written
  simp only [start, Executive.create2Opcode, ← hadr]
  simp [hsender, Executive.executeCreate, Executive.countNonce, hp, hfork, hinit,
    Executive.accountAlreadyExist, Executive.createAccount, Context.transferBalance, Context.addBalance,
    Context.stopIf, hm, ExtVM.make, State.addressHasCode, State.addressInUse, State.getNonce,
    State.subBalance, State.addBalance, State.setNonce, State.requireAccountStartNonce, State.savepoint,
    State.put, State.log, account_run, State.peek, State.load, Account.isDirty, hl, hcode, hnonce, hu, hn,
    hstart, run_bind, run_pure, run_get, run_modify, run_map]
  -- its code fails at once, and the entries are undone
  by_cases hr : acc.storageRoot = emptyTrie <;>
  simp [Script.run, Executive.go, Executive.goCreate, Executive.onVMException, Executive.revert,
    Executive.copyOutput, Context.clearStorage, Context.stopIf, hm, hw, State.clearStorage, State.rollback,
    State.rollbackLoop, State.undoChange, State.cacheAt, State.log, Change.address, Account.setNonce,
    Account.setStorageRoot, Account.changed, Account.addBalance, Account.clearStorage, hr, hlog, hself, eval,
    run_bind, run_pure, run_get, run_modify, run_map, run_tryCatch, toTransactionException]

/-- A database with one account, with this storage. -/
noncomputable def oneAccount (a : Address) (words : StorageTrie) : OverlayDB PerfectDigest where
  codes _ := []
  storageTries
    | .storage f => f
    | _ => fun _ => 0
  stateTries _ b := if b = a then some ⟨0, 1, .storage words, emptySHA3⟩ else none

theorem oneAccount_ok (a : Address) (words : StorageTrie) : (oneAccount a words).Ok := by
  constructor
  · intro root b r hr
    obtain ⟨rfl, rfl⟩ : b = a ∧ _ = r := by simpa [oneAccount] using hr
    unfold OverlayDB.Has OverlayDB.storageTrie
    split
    · next h => exact h.symm
    · rfl
  · intro root b r hr
    obtain ⟨rfl, rfl⟩ : b = a ∧ _ = r := by simpa [oneAccount] using hr
    exact .inl rfl

/-- The account has a word that was not committed. -/
theorem exists_pending (a : Address) (words : StorageTrie) : ∃ (s : State PerfectDigest) (acc : Account PerfectDigest),
    Reachable 0 s ∧ s.cache.lookup a = some acc ∧ s.db = oneAccount a words ∧ s.accountStartNonce = 0 ∧
      acc.codeHash = emptySHA3 ∧ acc.nonce = 0 ∧ acc.isUnchanged = false ∧
      acc.storageRoot = .storage words ∧ acc.storageOverlay.lookup 0 = some 2 := by
  obtain ⟨s, hs, hrest⟩ : ∃ s : State PerfectDigest,
      State.setStorage a 0 2 (preExisting 0 (oneAccount a words) emptyTrie fun _ => 0) = .ok () s ∧
      ∃ acc, s.cache.lookup a = some acc ∧ s.db = oneAccount a words ∧ s.accountStartNonce = 0 ∧
        acc.codeHash = emptySHA3 ∧ acc.nonce = 0 ∧ acc.isUnchanged = false ∧
        acc.storageRoot = .storage words ∧ acc.storageOverlay.lookup 0 = some 2 := by
    have hat : ∀ root, (oneAccount a words).stateTries root a = some ⟨0, 1, .storage words, emptySHA3⟩ :=
      fun root => if_pos rfl
    have hone : ∀ {K V : Type} [DecidableEq K] (k : K) (v : V),
        (AList.singleton k v : AList fun _ : K => V).lookup k = some v :=
      fun {K V} _ k v => @List.dlookup_cons_eq K (fun _ => V) _ [] k v
    simp [hone, State.setStorage, State.storage, account_run, State.peek, State.load, preExisting, State.trieAt,
      hat, State.clearCacheIfTooLarge, State.purge, State.cacheAt, State.put, State.log, Account.ofRlp,
      Account.dead, Account.setStorage, Account.setStorageCache, Account.changed, run_bind, run_get,
      run_modify, run_map]
  exact ⟨s, hrest.choose, .call (.preExisting (oneAccount_ok a words)) (c := .mutate (.setStorage a 0 2))
    trivial (Call.next_of_ok hs), hrest.choose_spec⟩

/-- From Constantinople on, and before EIP158. -/
noncomputable def createContext : Context PerfectDigest where
  envInfo := {
    header := {
      parentHash := emptyTrie, sha3Uncles := emptyTrie, author := 0, stateRoot := emptyTrie
      transactionsRoot := emptyTrie, receiptsRoot := emptyTrie, logBloom := 0, difficulty := 0, number := 0
      gasLimit := 0, gasUsed := 0, timestamp := 0, extraData := [], sealFields := [] }
    precedingHashes := fun _ => []
    gasUsed := 0 }
  sealEngine := ⟨.noProof, { constantinopleForkBlock := 0, precompiled := fun _ => none }⟩

/-- The account to be made has a word in the trie, and another value pending for it. -/
theorem not_leaves_no_trace : ¬ ∀ (c : Context PerfectDigest) (script : Script) (f : Frame) (base : Nat)
    (s s₁ s₂ : State PerfectDigest) (e e₁ e₂ : Executive PerfectDigest), Reachable base s → e.Fresh →
    f.start c.program e s = .ok (false, e₁) s₁ →
    e₁.go c.program (script.run c.program) s₁ = .ok e₂ s₂ → e₂.excepted ≠ .none →
    ∃ s₀, f.count c.program e s = .ok () s₀ ∧ e₁.savepoint = s₀.changeLog.length ∧ SameObs s₂ s₀ := by
  intro hall
  obtain ⟨a, ha⟩ : ∃ a : Address, a = right160 (sha3 (BigEndian.toBytes 20 maxAddress.toNat ++ toH256 0 ++
    toH256 (Digest.toU256 (sha3 [0] : PerfectDigest))) : PerfectDigest) := ⟨_, rfl⟩
  obtain ⟨s, acc, hs, hl, hdb, hn, hcode, hnonce, hu, hroot, hword⟩ := exists_pending a fun _ => 1
  have hne : acc.storageRoot ≠ emptyTrie := by
    rw [hroot]
    intro h
    have := congrFun (PerfectDigest.storageRoot_injective h) 0
    revert this
    decide
  obtain ⟨e₁, s₁, e₂, s₂, hstart, hgo, hexc, -, hdrop⟩ := create_then_fail (c := createContext)
    0 a ha rfl (Nat.zero_le _) (List.cons_ne_nil 0 []) hl hcode hnonce hu hn
  obtain ⟨acc', hl', hover, hroot', hdb'⟩ := hdrop hne
  obtain ⟨s₀, hcount, -, hsame⟩ := hall _ _ _ 0 s s₁ s₂ {} e₁ e₂ hs ⟨rfl, rfl, rfl, rfl⟩ hstart hgo hexc
  obtain rfl : s = s₀ := by
    have : ¬ (maxAddress ≠ maxAddress ∨ createContext.program.number <
      createContext.program.params.constantinopleForkBlock) := by simp [createContext, Context.params]
    simp only [count, Executive.countNonce, if_neg this] at hcount
    cases hcount; rfl
  have h := hsame.storage a 0
  rw [eval_storage, eval_storage, view_of_lookup hl, view_of_lookup hl'] at h
  have h := Except.ok.inj h
  simp only [Option.elim_some, Account.view, Account.storageAt, hover, hword, AList.lookup_empty, hroot', hroot,
    hdb', hdb] at h
  rw [OverlayDB.storageTrie, if_neg (hroot ▸ hne)] at h
  revert h
  exact (by decide : ¬ (1 : U256) = 2)

/-- As above, with no storage in the trie. -/
theorem leaves_no_trace_create : ∃ (s s₀ s₁ s₂ : State PerfectDigest) (f : Frame) (e₁ e₂ : Executive PerfectDigest),
    f.start createContext.program {} s = .ok (false, e₁) s₁ ∧ e₁.savepoint = s₀.changeLog.length ∧
      e₁.go createContext.program ((Script.vmException .outOfGas).run createContext.program) s₁ = .ok e₂ s₂ ∧
      e₂.excepted ≠ .none ∧ SameObs s₂ s₀ := by
  obtain ⟨s, acc, hs, hl, -, hn, hcode, hnonce, hu, hroot, -⟩ := exists_pending
    (right160 (sha3 (BigEndian.toBytes 20 maxAddress.toNat ++ toH256 0 ++
      toH256 (Digest.toU256 (sha3 [0] : PerfectDigest))) : PerfectDigest)) fun _ => 0
  obtain ⟨e₁, s₁, e₂, s₂, hstart, hgo, hexc, hwatch, -⟩ := create_then_fail (c := createContext)
    0 _ rfl rfl (Nat.zero_le _) (List.cons_ne_nil 0 []) hl hcode hnonce hu hn
  obtain ⟨s₀, -, hsp, hfailed, -⟩ :=
    leaves_no_trace createContext _ _ hs ⟨rfl, rfl, rfl, rfl⟩ hstart hgo (hwatch hroot)
  exact ⟨s, s₀, s₁, s₂, _, e₁, e₂, hstart, hsp, hgo, hexc, (hfailed hexc).1⟩

end Frame

end Kmdx
