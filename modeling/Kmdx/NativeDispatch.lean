import Kmdx.FailedFrame

/-!
# Native dispatch (`libwingvm/Native.cpp`, `libwing/Executive.cpp`)

A code address is native if the root contract's storage has a name for it. `call` then makes an `ExtVM` for the account
called, which nothing has looked for, and `callVM` knows a single name. So the state decides whether the assertion of `ExtVM`
holds and whether `go` ends the process (`Executive.native_dispatch_iff`).
-/

namespace Kmdx

open Wp State

variable {H : Type} [Digest H]

/-! ### Storage under transfers -/

namespace World
variable {w : World H} {a : Address}

omit [Digest H] in
theorem wordsOf_debit (w : World H) (a : Address) (x : U256) :
    NativeStorage.wordsOf (w.debit a x) = NativeStorage.wordsOf w := by
  funext b key
  rw [NativeStorage.wordsOf, NativeStorage.wordsOf, debit]
  by_cases hb : b = a
  · subst hb
    rw [Function.update_self]
    cases w b <;> rfl
  · rw [Function.update_of_ne hb]

theorem wordsOf_credit (h : (w a).isSome) (db : OverlayDB H) (n x : U256) :
    NativeStorage.wordsOf (w.credit db n a x) = NativeStorage.wordsOf w := by
  obtain ⟨v, hv⟩ := Option.isSome_iff_exists.1 h
  funext b key
  rw [NativeStorage.wordsOf, NativeStorage.wordsOf, credit, upsert_of_some hv]
  by_cases hb : b = a
  · subst hb
    rw [Function.update_self, hv]
    rfl
  · rw [Function.update_of_ne hb]

end World

/-- The root contract's storage has a name at the key of `a`. -/
def NativeManager.HasVM (w : World H) (a : Address) : Prop :=
  (NativeStorage.readData (NativeStorage.wordsOf w rootContractAddress) (keyOn H partitionNativeContracts a) []).1 ≠ 0

/-- `vmName` -/
def NativeManager.vmName (w : World H) (a : Address) : Bytes :=
  (NativeStorage.readData (NativeStorage.wordsOf w rootContractAddress) (keyOn H partitionNativeContracts a) []).2

theorem NativeManager.hasVM_of_eval {base : Nat} {s : State H} {a : Address} (h : Coherent base s)
    (hnative : eval (isNativeContract a) s = .ok true) : HasVM s.view a := by
  obtain ⟨v, s', hrun, rfl, -⟩ := exists_ok_of_wp (wp_isNativeContract (a := a) h (E := fun _ _ => False))
  rw [eval, hrun] at hnative
  unfold HasVM
  exact of_decide_eq_true (Except.ok.inj hnative)

section
variable {c : Context H} {base : Nat} {s s₀ s₁ : State H} {a b : Address}

/-- To an account in use, all that keeps a transfer from being made is the balance. -/
theorem Context.wp_transferBalance_inUse (h : Coherent base s) (hin : (s.view b).isSome) (x : U256) :
    wp (c.program.transferBalance a b x)
      (fun _ s' => x ≤ s.view.balance a ∧ NativeStorage.wordsOf s'.view = NativeStorage.wordsOf s.view)
      (fun e _ => e = .notEnoughCash ∧ s.view.balance a < x) s := by
  unfold Context.transferBalance
  rw [wp_bind]
  refine wp_mono (h.subBalance x) ?_ fun _ _ he => ⟨he.exn, he.lt⟩
  rintro _ t ⟨hle, ht, hview⟩
  have hin' : (t.view b).isSome := by
    rw [hview]
    exact World.keeps_debit x b hin
  unfold Context.addBalance
  rw [wp_bind, wp_get, wp_bind]
  refine c.program.wp_stopIf (fun _ => ?_) fun hw => Bool.noConfusion hw
  refine wp_mono (ht.coherent.addBalance x) ?_ fun _ _ he => ?_
  · rintro _ s' ⟨-, hv'⟩
    exact ⟨hle, by rw [hv', World.wordsOf_credit hin', hview, World.wordsOf_debit]⟩
  · rw [he.absent] at hin'
    cases hin'

namespace Executive
variable {e e₁ : Executive H} {p : CallParameters} {gasPrice : U256} {origin : Address} {vm : Vm H} {ext : ExtVM H}

theorem wp_callContract_native (h : Coherent base s)
    (hnative : eval (NativeManager.isNativeContract p.codeAddress) s = .ok true) (gasPrice : U256) (origin : Address) :
    wp (e.callContract p gasPrice origin)
      (fun r s' => (∃ ext, r = { e with gas := p.gas, ext := some ext, native := some p.codeAddress }) ∧
        (s.view p.receiveAddress).isSome ∧ Looks base s s')
      (fun x _ => x = .assertion ∧ s.view p.receiveAddress = none) s := by
  unfold callContract
  rw [wp_bind]
  refine wp_mono (wp_run (NativeManager.wp_isNativeContract h (E := fun _ _ => False))) ?_ fun _ _ => False.elim
  rintro native s₁ ⟨hrun, -, h₁⟩
  rw [eval, hrun] at hnative
  obtain rfl : native = true := Except.ok.inj hnative
  rw [if_pos rfl, wp_bind]
  refine wp_mono (ExtVM.wp_make h₁.ext.coherent _) ?_ fun _ _ he => ⟨he.1, by rw [← h₁.view]; exact he.2⟩
  rintro x s₂ ⟨rfl, hin, h₂⟩
  exact ⟨⟨_, rfl⟩, by rw [← h₁.view]; exact hin, h₁.trans h₂⟩

/-- The frame of a native contract, or what keeps it from being made. -/
theorem wp_call_native (h : Coherent base s₀) (hcount : e.countTransaction c.program p.senderAddress s = .ok () s₀)
    (hpre : c.sealEngine.precompiledAt p.codeAddress c.number = none)
    (hnative : eval (NativeManager.isNativeContract p.codeAddress) s₀ = .ok true) (gasPrice : U256) (origin : Address) :
    wp (e.call c.program p gasPrice origin)
      (fun r s₁ => (∃ ext, r = (false, { e with
          savepoint := s₀.changeLog.length, gas := p.gas, ext := some ext, native := some p.codeAddress })) ∧
        (s₀.view p.receiveAddress).isSome ∧ p.valueTransfer ≤ s₀.view.balance p.senderAddress ∧
        NativeStorage.wordsOf s₁.view = NativeStorage.wordsOf s₀.view)
      (fun x _ => x = .assertion ∧ s₀.view p.receiveAddress = none ∨ x = .notEnoughCash ∧
        (s₀.view p.receiveAddress).isSome ∧ s₀.view.balance p.senderAddress < p.valueTransfer) s := by
  unfold call
  rw [wp_bind]
  refine wp_of_eq_ok hcount ?_
  rw [wp_bind, wp_savepoint, wp_bind, prepareCall, Context.program_sealEngine, Context.program_number, hpre]
  dsimp only
  rw [wp_bind]
  refine wp_mono (wp_callContract_native h hnative gasPrice origin) ?_ fun _ _ he => .inl he
  rintro r s₁ ⟨⟨ext, rfl⟩, hin, h₁⟩
  rw [wp_pure, if_neg Bool.false_ne_true, wp_bind]
  refine wp_mono (Context.wp_transferBalance_inUse h₁.ext.coherent (by rwa [h₁.view]) p.valueTransfer) ?_ ?_
  · rintro _ s₂ ⟨hle, hwords⟩
    rw [h₁.view] at hle hwords
    exact ⟨⟨ext, rfl⟩, hin, hle, hwords⟩
  · rintro x s₂ ⟨rfl, hlt⟩
    rw [h₁.view] at hlt
    exact .inr ⟨rfl, hin, hlt⟩

theorem wp_callVM (h : Coherent base s) (a : Address) (gas : U256)
    (hnative : NativeManager.HasVM s.view a) :
    wp (NativeManager.callVM a ext gas)
      (fun r s' => NativeManager.vmName s.view a = assetName ∧ r.ext = ext ∧ Looks base s s')
      (fun x _ => NativeManager.vmName s.view a ≠ assetName ∧ uncaught x = .terminate) s := by
  unfold NativeManager.callVM
  rw [wp_bind]
  refine wp_mono (NativeStorage.getData_reads h (E := fun _ _ => False)) ?_ fun _ _ => False.elim
  rintro r s' ⟨rfl, hext, hview⟩
  rw [wp_ite]
  split
  · next hname =>
    unfold AssetVM
    rw [wp_ite]
    split <;> exact ⟨hname.2, rfl, hext, hview⟩
  · next hname => exact ⟨fun heq => hname ⟨hnative, heq⟩, rfl⟩

omit [Digest H] in
theorem copyOutput_excepted (e : Executive H) : e.copyOutput.excepted = e.excepted := by
  unfold copyOutput
  split <;> rfl

/-- A frame of a native contract is run without its code: it returns, normally or rolled back, or the process ends. -/
theorem wp_go_native (hb : base ≤ s₀.changeLog.length) (h : e.Ready Eq base s₀ s) (hext : e.ext = some ext)
    (hcreation : e.isCreation = false) (hat : e.native = some a)
    (hnative : NativeManager.HasVM s.view a)
    (c : Context H) (vm : Vm H) :
    wp (e.go c vm)
      (fun e' s' => NativeManager.vmName s.view a = assetName ∧
        (e'.excepted ≠ .none → SameObs s' s₀ ∧ s'.changeLog = s₀.changeLog))
      (fun x _ => NativeManager.vmName s.view a ≠ assetName ∧ x = .terminate) s := by
  unfold go
  rw [hext]
  dsimp only
  rw [wp_bind, wp_tryCatch, hcreation, if_neg Bool.false_ne_true]
  unfold goCall
  rw [wp_bind, exec, hat]
  refine wp_mono (wp_callVM h.moves.ext.coherent a e.gas hnative) ?_ fun _ _ he => he
  rintro r s' ⟨hname, -, hlooks⟩
  have hmoves := h.moves.trans (World.fine_eq _) (hlooks.moves (World.fine_eq _))
  have hcopy : ∀ (e' : Executive H) s'', Ended Eq base s₀ e' s'' → e'.copyOutput.excepted ≠ .none →
      SameObs s'' s₀ ∧ s''.changeLog = s₀.changeLog := by
    intro e' s'' he hne
    have hne : e'.excepted ≠ .none := by rwa [copyOutput_excepted] at hne
    obtain ⟨hview, hlog⟩ := he.failed hne
    exact ⟨.of_view hview he.moves.ext.accountStartNonce, hlog⟩
  dsimp only
  split
  · exact ⟨hname, fun hne => absurd (by rw [copyOutput_excepted]; exact h.excepted) hne⟩
  · refine wp_mono (wp_onRevert (World.fine_eq _) hb hmoves (by exact h.savepoint) _ (E := fun _ _ => False))
      (fun e' s'' he => ⟨hname, hcopy e' s'' he⟩) fun _ _ => False.elim
  · refine wp_mono (wp_onVMException (World.fine_eq _) hb hmoves (by exact h.savepoint) _ (E := fun _ _ => False))
      (fun e' s'' he => ⟨hname, hcopy e' s'' he⟩) fun _ _ => False.elim

/-- What `go` does with the frame that the call has made -/
theorem wp_go_of_call (h : Coherent base s) (h₀ : Coherent base s₀) (he : e.Fresh)
    (hcount : e.countTransaction c.program p.senderAddress s = .ok () s₀)
    (hpre : c.sealEngine.precompiledAt p.codeAddress c.number = none)
    (hnative : eval (NativeManager.isNativeContract p.codeAddress) s₀ = .ok true)
    (hrun : e.call c.program p gasPrice origin s = .ok (false, e₁) s₁) (vm : Vm H) :
    wp (e₁.go c.program vm)
      (fun e₂ s₂ => NativeManager.vmName s₀.view p.codeAddress = assetName ∧
        (e₂.excepted ≠ .none → SameObs s₂ s₀ ∧ s₂.changeLog = s₀.changeLog))
      (fun x _ => NativeManager.vmName s₀.view p.codeAddress ≠ assetName ∧ x = .terminate) s₁ := by
  obtain ⟨⟨ext, hr⟩, -, -, hwords⟩ := wp_ok (wp_call_native h₀ hcount hpre hnative gasPrice origin) hrun
  obtain ⟨s', hcount', -, -, hready⟩ := wp_ok (wp_call (c := c.program) h World.fine_eq he p gasPrice origin) hrun
  obtain rfl : s' = s₀ := by
    rw [hcount] at hcount'
    cases hcount'
    rfl
  obtain rfl : e₁ = _ := congrArg Prod.snd hr
  have hvm : NativeManager.HasVM s₁.view p.codeAddress := by
    rw [NativeManager.HasVM, hwords]
    exact NativeManager.hasVM_of_eval h₀ hnative
  have hw := wp_go_native h₀.base_le (hready rfl) rfl he.isCreation rfl hvm c.program vm
  rw [NativeManager.vmName, hwords] at hw
  exact hw

/-- The account is there when the `ExtVM` is made, and `go` returns: normally, or rolled back to the savepoint. -/
structure Dispatches (c : Context H) (vm : Vm H) (e : Executive H) (p : CallParameters) (gasPrice : U256) (origin : Address)
    (s s₀ : State H) : Prop where
  inUse : eval (e.call c p gasPrice origin) s ≠ .error .assertion
  go : ∀ e₁ s₁, e.call c p gasPrice origin s = .ok (false, e₁) s₁ → ∃ e₂ s₂, e₁.go c vm s₁ = .ok e₂ s₂ ∧
    (e₂.excepted ≠ .none → SameObs s₂ s₀ ∧ s₂.changeLog = s₀.changeLog)

/-- Otherwise the assertion fails, or `go` ends the process. -/
theorem native_dispatch_iff (c : Context H) (vm : Vm H) (e : Executive H) (p : CallParameters)
    (gasPrice : U256) (origin : Address)
    (h : Reachable base s) (he : e.Fresh) (hcount : e.countTransaction c.program p.senderAddress s = .ok () s₀)
    (hpre : c.sealEngine.precompiledAt p.codeAddress c.number = none)
    (hnative : eval (NativeManager.isNativeContract p.codeAddress) s₀ = .ok true) :
    (Dispatches c.program vm e p gasPrice origin s s₀ ↔ (s₀.view p.receiveAddress).isSome ∧
      (p.valueTransfer ≤ s₀.view.balance p.senderAddress → NativeManager.vmName s₀.view p.codeAddress = assetName)) ∧
    (¬Dispatches c.program vm e p gasPrice origin s s₀ → eval (e.call c.program p gasPrice origin) s = .error .assertion ∨
      ∃ e₁ s₁, e.call c.program p gasPrice origin s = .ok (false, e₁) s₁ ∧ eval (e₁.go c.program vm) s₁ =
        .error .terminate) := by
  have hcoh := h.coherent
  have hcoh₀ := (wp_ok (wp_countTransaction (c := c.program) hcoh (World.fine_eq _) p.senderAddress) hcount).ext.coherent
  have hcall := wp_call_native (c := c) (e := e) hcoh₀ hcount hpre hnative gasPrice origin
  cases hrun : e.call c.program p gasPrice origin s with
  | ok r s₁ =>
    obtain ⟨⟨ext, rfl⟩, hin, hle, -⟩ := wp_ok hcall hrun
    have hgo := wp_go_of_call hcoh hcoh₀ he hcount hpre hnative hrun vm
    have hassert : eval (e.call c.program p gasPrice origin) s ≠ .error .assertion := by
      intro hassert
      rw [eval, hrun] at hassert
      cases hassert
    cases hgoes : Executive.go c.program vm _ s₁ with
    | ok e₂ s₂ =>
      obtain ⟨hname, hback⟩ := wp_ok hgo hgoes
      have hdispatches : Dispatches c.program vm e p gasPrice origin s s₀ := by
        refine ⟨hassert, fun e₁ s₁ hrun₁ => ?_⟩
        cases hrun.symm.trans hrun₁
        exact ⟨e₂, s₂, hgoes, hback⟩
      exact ⟨iff_of_true hdispatches ⟨hin, fun _ => hname⟩, fun hnot => absurd hdispatches hnot⟩
    | error x s₂ =>
      obtain ⟨hname, rfl⟩ := wp_error hgo hgoes
      refine ⟨iff_of_false (fun hd => ?_) fun hcond => hname (hcond.2 hle), fun _ => .inr ⟨_, s₁, rfl, by rw [eval, hgoes]⟩⟩
      obtain ⟨e₂, s₂, hgoes', -⟩ := hd.go _ _ hrun
      cases hgoes.symm.trans hgoes'
  | error x s₁ =>
    obtain ⟨rfl, hnone⟩ | ⟨rfl, hin, hlt⟩ := wp_error hcall hrun
    · refine ⟨iff_of_false (fun hd => hd.inUse (by rw [eval, hrun])) fun hcond => ?_, fun _ => .inl (by rw [eval, hrun])⟩
      rw [hnone] at hcond
      cases hcond.1
    · have hdispatches : Dispatches c.program vm e p gasPrice origin s s₀ := by
        refine ⟨fun hassert => ?_, fun e₁ s₁ hrun₁ => ?_⟩
        · rw [eval, hrun] at hassert
          cases hassert
        · rw [hrun] at hrun₁
          cases hrun₁
      refine ⟨iff_of_true hdispatches ⟨hin, fun hle => absurd hlt (BitVec.not_lt.2 hle)⟩, fun hnot => absurd hdispatches hnot⟩

end Executive

end

/-! ### A name for every address -/

/-- The length, and `assetName` -/
def nameWord : U256 := 0x00056173736574 <<< 200

/-- All words of the root contract's storage are that of the name. -/
noncomputable def namesAll : OverlayDB PerfectDigest where
  codes _ := []
  storageTries
    | .storage trie => trie
    | _ => fun _ => 0
  stateTries _ a := if a = rootContractAddress then some ⟨0, 0, .storage fun _ => nameWord, emptySHA3⟩ else none

theorem namesAll_ok : namesAll.Ok := by
  constructor
  · intro root a r hr
    obtain ⟨-, rfl⟩ : a = rootContractAddress ∧ _ = r := by simpa [namesAll] using hr
    rw [OverlayDB.Has, OverlayDB.storageTrie]
    split
    · next h => exact h.symm
    · rfl
  · intro root a r hr
    obtain ⟨-, rfl⟩ : a = rootContractAddress ∧ _ = r := by simpa [namesAll] using hr
    exact .inl rfl

theorem view_namesAll (a : Address) : (preExisting 0 namesAll emptyTrie fun _ => 0).view a =
    if a = rootContractAddress then
      some (AccountRlp.view namesAll ⟨0, 0, .storage fun _ => nameWord, emptySHA3⟩) else none := by
  rw [view_of_not_cached rfl fun h => absurd h (Finset.notMem_empty a)]
  show (if a = rootContractAddress then _ else _ : Option (AccountRlp PerfectDigest)).map _ = _
  split <;> rfl

theorem readData_namesAll (key : U256) : NativeStorage.readData
    (NativeStorage.wordsOf (preExisting 0 namesAll emptyTrie fun _ => 0).view rootContractAddress) key [] =
      (5, assetName) := by
  have hne : (PerfectDigest.storage fun _ => nameWord) ≠ emptyTrie := by
    intro h
    have := congrFun (PerfectDigest.storage.inj h) 0
    revert this
    decide
  have hwords : NativeStorage.wordsOf (preExisting 0 namesAll emptyTrie fun _ => 0).view rootContractAddress key =
      nameWord := by
    rw [NativeStorage.wordsOf, view_namesAll, if_pos rfl, Option.elim_some]
    exact congrFun (if_neg hne) key
  rw [NativeStorage.readData, hwords, if_neg (by decide), NativeStorage.readLoop, if_neg (by decide)]
  decide

theorem isNativeContract_namesAll (a : Address) :
    eval (NativeManager.isNativeContract a) (preExisting 0 namesAll emptyTrie fun _ => 0) = .ok true := by
  have hreach : Reachable 0 (preExisting 0 namesAll emptyTrie fun _ => 0) := .preExisting namesAll_ok
  obtain ⟨v, s', hrun, rfl, -⟩ := exists_ok_of_wp (NativeManager.wp_isNativeContract (a := a) hreach.coherent
    (E := fun _ _ => False))
  rw [eval, hrun, readData_namesAll]
  rfl

namespace Executive

def callNine (receiveAddress : Address) : CallParameters where
  senderAddress := 2
  codeAddress := 9
  receiveAddress
  valueTransfer := 0
  apparentValue := 0
  gas := 0
  data := []

/-- An account in use is called, and `go` returns; without an account at the address, it would not. -/
theorem native_dispatch_asset :
    Dispatches Frame.createContext.program AssetVM {} (callNine rootContractAddress) 0 0
      (preExisting 0 namesAll emptyTrie fun _ => 0) (preExisting 0 namesAll emptyTrie fun _ => 0) ∧
    ¬Dispatches Frame.createContext.program AssetVM {} (callNine 9) 0 0
      (preExisting 0 namesAll emptyTrie fun _ => 0) (preExisting 0 namesAll emptyTrie fun _ => 0) := by
  have hdispatch := fun receiveAddress => native_dispatch_iff Frame.createContext AssetVM {} (callNine receiveAddress) 0 0
    (.preExisting namesAll_ok) ⟨rfl, rfl, rfl, rfl⟩ rfl rfl (isNativeContract_namesAll _)
  refine ⟨(hdispatch _).1.2 ⟨?_, fun _ => ?_⟩, fun hd => ?_⟩
  · rw [view_namesAll]
    rfl
  · rw [NativeManager.vmName, readData_namesAll]
  · have hin := ((hdispatch _).1.1 hd).1
    rw [view_namesAll, callNine, if_neg (by decide)] at hin
    cases hin

end Executive

end Kmdx
