import Kmdx.Rollback

/-!
# Committing is invisible

What is read of a state does not change by a commit, nor by opening the committed root again, when every
call before it was made on an account that is there and, for `setCode`, marked as changed
(`commit_invisible`). `Account::setCode` does not mark the account itself: code set on an account that
was only read is gone after the commit (`not_commit_invisible`).
-/

namespace Kmdx

open Wp UndoLog Function

variable {H : Type} [Digest H]

namespace State

/-- What a commit after it needs of a call. -/
def Call.Committable (s : State H) : Call → Prop
  | mutate m => m.OnAccount s
  | read _ => True

/-- A step between commits, or a commit. -/
def CommitStep (P : State H → Call → Prop) (s s' : State H) : Prop :=
  Step P s s' ∨ ∃ behaviour, State.commit behaviour s = .ok () s'

/-- What commits and calls keep. -/
structure CommitInv (n : U256) (s : State H) : Prop where
  coherent : ∃ base, Coherent base s
  alive : s.view.AllAlive
  accountStartNonce : s.accountStartNonce = n

theorem trieView_allAlive (s : State H) : s.trieView.AllAlive := by
  intro a v hv
  obtain ⟨r, -, rfl⟩ := Option.map_eq_some_iff.1 hv
  rfl

theorem Coherent.view_of_empty_cache {base : Nat} {s : State H} (h : Coherent base s)
    (hc : s.cache = ∅) : s.view = s.trieView :=
  funext fun _ => h.view_eq_trieView (by rw [hc]; rfl)

theorem CommitInv.step {n : U256} {s s' : State H} (h : CommitInv n s)
    (hs : CommitStep Call.Committable s s') : CommitInv n s' := by
  obtain ⟨base, hcoh⟩ := h.coherent
  rcases hs with ⟨c, hc, hn⟩ | ⟨behaviour, hs'⟩
  · cases c with
    | mutate m =>
      have hmk : m.Marked s := by cases m <;> first | trivial | exact fun _ => hc
      have hp := m.next_post hcoh hmk hn
      exact ⟨⟨base, hp.ext.coherent⟩, hp.alive hc h.alive,
        hp.ext.accountStartNonce.trans h.accountStartNonce⟩
    | read q =>
      obtain ⟨hext, hview⟩ := Query.next_extends hcoh hn
      exact ⟨⟨base, hext.coherent⟩, hview ▸ h.alive, hext.accountStartNonce.trans h.accountStartNonce⟩
  · obtain ⟨h0, -, hcache, hn, -, -⟩ := wp_ok (wp_commit _ hcoh (E := fun _ _ => False)) hs'
    refine ⟨⟨0, h0⟩, ?_, hn.trans h.accountStartNonce⟩
    rw [h0.view_of_empty_cache hcache]
    exact trieView_allAlive s'

theorem CommitInv.empty {n : U256} {db : OverlayDB H} {engine : Nat → Nat} (h : db.Ok) :
    CommitInv n (State.empty n db engine) := by
  have hcoh := (.empty h : Reachable 0 (State.empty n db engine)).coherent
  refine ⟨⟨0, hcoh⟩, ?_, rfl⟩
  rw [hcoh.view_of_empty_cache rfl]
  exact trieView_allAlive _

/-- What a commit makes of living accounts reads as before. -/
theorem readable_commit {w : World H} (h : w.AllAlive) (a : Address) :
    (w.commit a).map AccountView.readable = (w a).map AccountView.readable := by
  unfold World.commit
  cases hv : w a with
  | none => rfl
  | some v => simp [h a v hv, AccountView.readable]

theorem commit_invisible (hstorage : Injective (Digest.storageRoot : StorageTrie → H))
    (hcode : Injective (sha3 : Bytes → H)) {n : U256} {db : OverlayDB H}
    {engine : Nat → Nat} {s s' : State H} (hdb : db.Ok)
    (hrun : Relation.ReflTransGen (CommitStep Call.Committable) (State.empty n db engine) s)
    (hs' : State.commit .keepEmptyAccounts s = .ok () s') :
    SameObs s' s ∧ ∀ engine', SameObs (preExisting n s'.db s'.root engine') s := by
  have hinv : CommitInv n s := by
    clear hs'
    induction hrun with
    | refl => exact .empty hdb
    | tail _ hs ih => exact ih.step hs
  obtain ⟨base, hcoh⟩ := hinv.coherent
  obtain ⟨h0, -, hcache, hn, -, -⟩ := wp_ok (wp_commit _ hcoh (E := fun _ _ => False)) hs'
  have hview := hcoh.commit_view hstorage hcode hs'
  have hread : ∀ a, (s'.view a).map AccountView.readable = (s.view a).map AccountView.readable :=
    fun a => by rw [hview]; exact readable_commit hinv.alive a
  refine ⟨.of_readable hread hn, fun engine' => .of_readable (fun a => ?_)
    hinv.accountStartNonce.symm⟩
  have hopen := (.preExisting h0.db : Reachable 0 (preExisting n s'.db s'.root engine')).coherent
  rw [← hread a, h0.view_of_empty_cache hcache, hopen.view_of_empty_cache rfl]
  rfl

/-- A new account with a word in its storage is committed. -/
theorem commit_invisible_setStorage : ∃ s s' : State PerfectDigest,
    eval (State.storage 1 0) s = .ok 5 ∧ State.commit .keepEmptyAccounts s = .ok () s' ∧
    SameObs s' s ∧ ∀ engine, SameObs (preExisting 0 s'.db s'.root engine) s := by
  have h₀ : CommitInv 0 (State.empty (H := PerfectDigest) 0 .empty fun _ => 0) :=
    .empty OverlayDB.empty_ok
  obtain ⟨_, hcoh₀⟩ := h₀.coherent
  obtain ⟨_, s₁, hs₁, hext₁, hv₁⟩ := exists_ok_of_wp (hcoh₀.setNonce (a := 1) 7 fun _ _ => False)
  obtain ⟨v, hv⟩ : ∃ v, s₁.view 1 = some v := by
    rw [hv₁, World.upsert, update_self]; exact ⟨_, rfl⟩
  obtain ⟨_, s₂, hs₂, hext₂, hv₂, -⟩ := exists_ok_of_wp
    (hext₁.coherent.setStorage (a := 1) 0 5 (E := fun _ _ => False))
  obtain ⟨_, s', hs', -⟩ := exists_ok_of_wp
    (wp_commit .keepEmptyAccounts hext₂.coherent (E := fun _ _ => False))
  have hrun := (Relation.ReflTransGen.single (r := CommitStep Call.Committable)
    (.inl ⟨.mutate (.setNonce 1 7), trivial, Call.next_of_ok hs₁⟩)).tail
    (.inl ⟨.mutate (.setStorage 1 0 5), by exact Option.isSome_iff_exists.2 ⟨v, hv⟩,
      Call.next_of_ok hs₂⟩)
  have hinv := commit_invisible PerfectDigest.storageRoot_injective PerfectDigest.sha3_injective
    OverlayDB.empty_ok hrun hs'
  refine ⟨s₂, s', ?_, hs', hinv⟩
  rw [eval_storage, hv₂, World.upsert_of_some hv, update_self]
  simp

/-- Code set on an account that is not marked is not there after the commit. -/
theorem setCode_lost {base : Nat} {s : State H} (h : Coherent base s) (hc : s.cache = ∅) {a : Address}
    {v : AccountView H} (hv : s.view a = some v) (hhash : v.codeHash = emptySHA3) {code : Bytes}
    (hne : sha3 code ≠ (emptySHA3 : H)) : ∃ t s', Call.next (.mutate (.setCode a code)) s = some t ∧
      State.commit .keepEmptyAccounts t = .ok () s' ∧ eval (State.code a) t = .ok code ∧
      eval (State.code a) s' = .ok [] := by
  have hnone : s.cache.lookup a = none := by rw [hc]; rfl
  obtain ⟨r, hr, rfl⟩ : ∃ r, s.trieAt a = some r ∧ r.view s.db = v := by
    rw [h.view_eq_trieView hnone] at hv
    exact Option.map_eq_some_iff.1 hv
  have hr0 : r.codeHash = emptySHA3 := hhash
  have hpeek : s.peek a = some (.ofRlp r) := by
    have hn : a ∉ s.nonExistingAccountsCache := fun hn => by
      have := h.nonExisting a hn; rw [hr] at this; cases this
    simp [peek, hnone, hn, hr]
  have ht := h.extends_load a
  have hl := lookup_load s a
  rw [hpeek] at hl
  obtain ⟨t, ht'⟩ : ∃ t, t = ({ s.load a with
    cache := (s.load a).cache.insert a ((Account.ofRlp r).setCode code)
    changeLog := .code a [] :: (s.load a).changeLog } : State H) := ⟨_, rfl⟩
  have hlt : t.cache.lookup a = some ((Account.ofRlp r).setCode code) := by
    rw [ht']; exact AList.lookup_insert _
  have hrun : State.setCode a code s = .ok () t := by
    have hat : State.cacheAt { s.load a with changeLog := .code a [] :: (s.load a).changeLog } a =
        .ofRlp r := cacheAt_of_lookup hl
    have hcd : State.code a s = .ok [] (s.load a) := by
      unfold State.code
      rw [run_bind, account_run, hpeek]
      simp only [show (Account.ofRlp r).codeHash = emptySHA3 from hr0, if_true]
      rfl
    unfold State.setCode
    rw [run_bind, hcd, ht', ← hat]
    rfl
  obtain ⟨s', hs', t', -, htt, hsdef⟩ := commit_run .keepEmptyAccounts t
  obtain rfl := htt rfl
  refine ⟨t', s', ?_, hs', ?_, ?_⟩
  · exact Call.next_of_ok hrun
  · rw [eval_code, view_of_lookup hlt, Account.view_setCode, if_neg hne]; rfl
  · -- the account is written only if it is marked
    have hok : ∀ i ∈ t'.cache.entries, i.2.Ok t'.db := by
      rintro ⟨b, acc⟩ hi
      have hli : t'.cache.lookup b = some acc := (List.mem_dlookup_iff t'.cache.nodupKeys).2 hi
      have hdb : t'.db = (s.load a).db := by rw [ht']
      rw [hdb]
      by_cases hba : b = a
      · rw [hba, hlt] at hli
        obtain rfl := Option.some.inj hli
        exact (ht.coherent.cached _ _ hl).ok.setCode code
      · rw [ht', AList.lookup_insert_ne hba] at hli
        exact (ht.coherent.cached _ _ hli).ok
    obtain ⟨-, -, _, htrie, -⟩ := commitCache_spec t'.cache.entries t'.cache.nodupKeys
      (p := (t'.db, t'.root)) (by rw [ht']; exact ht.coherent.db) hok rfl
    have hat : s'.trieAt a = some r := by
      have := htrie a
      rw [show t'.cache.entries.dlookup a = _ from hlt] at this
      rw [hsdef]
      refine this.trans ?_
      show t'.db.stateTries t'.root a = _
      rw [ht', ← hr]
      exact trieAt_load s a a
    rw [eval_code]
    have hcs : s'.cache.lookup a = none := by rw [hsdef]; rfl
    simp only [State.view, State.peek, hcs, hat]
    split
    · rfl
    · simp [Account.view, Account.codeAt, Account.ofRlp, hr0]

/-- An account is made and committed, then code is set. -/
theorem not_commit_invisible : ¬ ∀ (n : U256) (db : OverlayDB PerfectDigest) (engine : Nat → Nat)
    (s s' : State PerfectDigest), db.Ok →
    Relation.ReflTransGen (CommitStep fun _ _ => True) (State.empty n db engine) s →
    State.commit .keepEmptyAccounts s = .ok () s' → SameObs s' s := by
  intro hall
  obtain ⟨s₀, hs₀⟩ : ∃ s₀ : State PerfectDigest, s₀ = State.empty 0 .empty fun _ => 0 := ⟨_, rfl⟩
  have h₀ : CommitInv 0 s₀ := hs₀ ▸ .empty OverlayDB.empty_ok
  have hv₀ : s₀.view 1 = none := by
    obtain ⟨_, hcoh⟩ := h₀.coherent
    rw [hcoh.view_of_empty_cache (by rw [hs₀]; rfl), trieView, trieAt, hs₀]
    simp [State.empty, preExisting]
  -- one wei makes the account
  obtain ⟨_, hcoh₀⟩ := h₀.coherent
  obtain ⟨_, s₁, hs₁, hext₁, hv₁⟩ := exists_ok_of_wp (wp_mono (hcoh₀.addBalance (a := 1) 1)
    (fun _ _ h => h) fun e s' he => by
      have := he.startNonce
      rw [h₀.accountStartNonce] at this
      exact absurd this (by decide))
  have hn₁ : Call.next (.mutate (.addBalance 1 1)) s₀ = some s₁ := Call.next_of_ok hs₁
  obtain ⟨_, s₂, hs₂, hcoh₂, -, hcache₂, -⟩ := exists_ok_of_wp
    (wp_commit .keepEmptyAccounts hext₁.coherent (E := fun _ _ => False))
  have hv₂ := hext₁.coherent.commit_view PerfectDigest.storageRoot_injective
    PerfectDigest.sha3_injective hs₂
  obtain ⟨v, hat, hhash⟩ : ∃ v, s₂.view 1 = some v ∧ v.codeHash = emptySHA3 := by
    rw [hv₂, World.commit, hv₁, World.credit, World.upsert_of_none hv₀, update_self]
    exact ⟨_, rfl, rfl⟩
  have hne : sha3 [0x60] ≠ (emptySHA3 : PerfectDigest) :=
    fun h => by have := PerfectDigest.sha3_injective h; cases this
  obtain ⟨s₃, s₄, hn₃, hs₄, hc₃, hc₄⟩ := setCode_lost hcoh₂ hcache₂ hat hhash hne
  have hobs := hall 0 .empty (fun _ => 0) s₃ s₄ OverlayDB.empty_ok (hs₀ ▸ .tail (.tail (.single
    (.inl ⟨_, trivial, hn₁⟩)) (.inr ⟨_, hs₂⟩)) (.inl ⟨_, trivial, hn₃⟩)) hs₄
  have := hobs.code 1
  rw [hc₃, hc₄] at this
  cases this

end State

end Kmdx
