import Kmdx.Balances
import Kmdx.Watched

/-!
# What a frame does to the state

`Moves R base s s' out`: from `s` to `s'` what was logged can be taken back up to `R`, no account is
gone, and the balances add up to what they did, less `out`. Every step of a frame is of that kind, a
frame that fails is rolled back to its savepoint, and by induction over the script so is every run
(`Script.run_moves`, `Executive.go_moves`). `R` is equality as long as `clearStorage` drops no word that
was pending; up to storage it always holds.
-/

namespace Kmdx

open Wp UndoLog

variable {H : Type} [Digest H]

namespace State

structure Moves (R : World H → World H → Prop) (base : Nat) (s s' : State H) (out : Nat) : Prop where
  ext : Extends R base s s'
  keeps : s.view.Keeps s'.view
  total : s.view.total < 2 ^ 256 → s'.view.total + out = s.view.total

namespace Moves
variable {R : World H → World H → Prop} {base : Nat} {s s' s'' : State H} {out out' : Nat}

theorem trans (hR : World.Fine s.db R) (h : Moves R base s s' out) (h' : Moves R base s' s'' out') :
    Moves R base s s'' (out + out') where
  ext := h.ext.trans hR.respects h'.ext
  keeps := h.keeps.trans h'.keeps
  total hlt := by
    have h1 := h.total hlt
    have h2 := h'.total (by omega)
    omega

/-- Nothing that is seen has changed. -/
theorem of_view (hR : World.Fine s.db R) (h : Extends Eq base s s') (hv : s'.view = s.view) :
    Moves R base s s' 0 :=
  ⟨h.weaken hR.respects, hv ▸ World.keeps_refl _, fun _ => by rw [hv, Nat.add_zero]⟩

theorem of_balance (h : Extends R base s s') (hk : s.view.Keeps s'.view)
    (hb : ∀ a, s'.view.balance a = s.view.balance a) : Moves R base s s' 0 :=
  ⟨h, hk, fun _ => by rw [Nat.add_zero, World.total_congr hb]⟩

theorem refl (hR : World.Fine s.db R) (h : Coherent base s) : Moves R base s s 0 :=
  of_view hR h.refl rfl

/-- The frame that began at `s` is rolled back. -/
theorem rollback (hR : World.Fine s.db R) (hb : base ≤ s.changeLog.length) (h : Extends R base s s') :
    ∃ t, State.rollback s.changeLog.length s' = .ok () t ∧ Moves R base s t 0 ∧
      R t.view s.view ∧ t.changeLog = s.changeLog := by
  obtain ⟨t, ht, hcoh, hview, hlog, hdb, hroot, hn⟩ := h.rollback hb
  refine ⟨t, ht, .of_balance ⟨hcoh, hdb, hroot, hn, [], hlog, hview⟩ ?_ (hR.balance hview), hview, hlog⟩
  intro a ha
  rw [hR.isSome hview a]; exact ha

end Moves

end State

open State

/-! ### The steps of a frame -/

/-- Only arithmetic that wraps is watched for. -/
def Context.OnlyArithmetic (c : Context H) : Prop := ∀ w, c.monitor w = true → w = .arithmetic

/-- A watch for arithmetic alone does not stop the run: nothing wraps. -/
def Context.NoWrap (c : Context H) (s : State H) (e : Exn) (_ : State H) : Prop :=
  e = .monitor → c.OnlyArithmetic → 2 ^ 256 ≤ s.view.total

/-- `clearStorage` drops no word that `R` sees. -/
def Context.Clears (c : Context H) (R : World H → World H → Prop) : Prop :=
  c.monitor .clearStorage = true ∨ ∀ w w', World.SameButStorage w w' → R w w'

section
variable {c : Context H} {R : World H → World H → Prop} {base : Nat} {s : State H} {a b : Address} {s' : State H}

theorem Context.NoWrap.of_ne {e : Exn} (h : e ≠ .monitor) : c.NoWrap s e s' :=
  fun he => absurd he h

theorem Context.NoWrap.of_moves {t : State H} {e : Exn} {out : Nat} (h : Moves R base s s' out)
    (he : c.NoWrap s' e t) : c.NoWrap s e t := by
  intro hm ha
  by_contra hlt
  have := h.total (by omega)
  have := he hm ha
  omega

theorem State.NoStartNonce.noWrap {e : Exn} (h : State.NoStartNonce base s a e s') :
    c.NoWrap s e s' := .of_ne (by rw [h.exn]; nofun)

omit [Digest H] in
theorem Context.wp_stopIf {w : Watch} {x : Bool} {Q : Unit → State H → Prop} {E : Exn → State H → Prop}
    (hQ : (c.monitor w = true → x = false) → Q () s) (hE : c.monitor w = true → x = true → E .monitor s) :
    wp (c.stopIf w x) Q E s := by
  rw [Context.stopIf, wp_ite]
  split
  · next h =>
    rw [Bool.and_eq_true] at h
    exact hE h.1 h.2
  · next h => exact hQ fun hw => by simpa [hw] using h

theorem Context.wp_addBalance (h : Coherent base s) {w : Watch} {x : U256} :
    wp (c.addBalance w a x)
      (fun _ s' => Extends Eq base s s' ∧ s'.view = s.view.credit s.db s.accountStartNonce a x)
      (fun e _ => e = .monitor → c.monitor w = true ∧ 2 ^ 256 ≤ (s.view.balance a).toNat + x.toNat) s := by
  unfold Context.addBalance
  rw [wp_bind, wp_get, wp_bind]
  refine c.wp_stopIf (fun _ => ?_) fun hw hx _ => ⟨hw, of_decide_eq_true hx⟩
  exact wp_mono (h.addBalance x) (fun _ _ h => h) fun e s' he hm => by rw [he.exn] at hm; cases hm

theorem Context.wp_transferBalance (h : Coherent base s) (hR : World.Fine s.db R) {x : U256} :
    wp (c.transferBalance a b x) (fun _ s' => Moves R base s s' 0 ∧ (s'.view b).isSome)
      (c.NoWrap s) s := by
  unfold Context.transferBalance
  rw [wp_bind]
  refine wp_mono (h.subBalance x) ?_ fun e s' he => .of_ne (by rw [he.exn]; nofun)
  rintro _ t ⟨hle, ht, hview⟩
  have htotal := World.total_debit s.view a x hle
  rw [← hview] at htotal
  have hle' := World.balance_le_total t.view b
  refine wp_mono (c.wp_addBalance ht.coherent) ?_ fun e s' he hm _ => ?_
  · rintro _ s' ⟨hs', hv'⟩
    refine ⟨⟨(ht.trans (.eq _) hs').weaken hR.respects, ?_, fun hlt => ?_⟩, ?_⟩
    · rw [hv', hview]
      exact (World.keeps_debit x).trans (World.keeps_upsert _ _)
    · rw [hv', World.total_credit _ _ _ _ _ (by omega)]
      omega
    · rw [hv']; exact World.isSome_upsert ..
  · have := (he hm).2
    omega

/-- A change of one account that leaves its balance. -/
theorem moves_of_upsert (hR : World.Fine s.db R) {f : AccountView H → AccountView H}
    {new : AccountView H} (h : Extends Eq base s s') (hv : s'.view = s.view.upsert a f new)
    (hf : ∀ v, (f v).balance = v.balance) (hnew : new.balance = 0) : Moves R base s s' 0 := by
  refine .of_balance (h.weaken hR.respects) ?_ ?_
  · rw [hv]; exact World.keeps_upsert _ _
  · rw [hv]; exact World.balance_upsert hf hnew

theorem wp_countNonce (h : Coherent base s) (hR : World.Fine s.db R) :
    wp (Executive.countNonce c a) (fun _ s' => Moves R base s s' 0) (c.NoWrap s) s := by
  unfold Executive.countNonce
  rw [wp_ite]
  split
  · refine wp_mono h.incNonce (fun _ s' hs' => ?_) fun _ _ he => he.noWrap
    exact moves_of_upsert hR hs'.1 hs'.2 (fun _ => rfl) rfl
  · exact .refl hR h

/-- An account with entries in the log stays marked as changed. -/
theorem logOf_ne_nil (h : Extends R base s s') (hb : base ≤ s.changeLog.length)
    (ha : s.logOf base a ≠ []) : s'.logOf base a ≠ [] := by
  obtain ⟨d, hd, -⟩ := h.undoable
  have htake : s'.changeLog.take (s'.changeLog.length - base) =
      d ++ s.changeLog.take (s.changeLog.length - base) := by
    rw [hd, List.length_append, Nat.add_sub_assoc hb, List.take_length_add_append]
  rw [logOf, htake, List.filter_append]
  exact fun hnil => ha (List.append_eq_nil_iff.1 hnil).2

theorem changedAt_of_log (h : Coherent base s) (ha : s.logOf base a ≠ []) : s.ChangedAt a := by
  obtain ⟨acc, hl, hu, -⟩ := h.cached_of_log ha
  exact ⟨acc, hl, hu⟩

/-- `setNonce` logs one entry. -/
theorem setNonce_logs (s : State H) (n : U256) (E : Exn → State H → Prop) :
    wp (State.setNonce a n) (fun _ s' => ∃ ch, ch.address = a ∧ s'.changeLog = ch :: s.changeLog) E s := by
  have hlog := changeLog_load s a
  have hp := peek_load s a
  unfold State.setNonce
  rw [wp_bind, wp_account]
  cases hs : s.peek a with
  | some acc => exact ⟨.nonce a acc.nonce, rfl, by rw [← hlog]⟩
  | none =>
    refine wp_createAccount (s := s.load a) (by simp [view, hp, hs]) ⟨.create a, rfl, ?_⟩
    rw [← hlog, ← changeLog_load (s.load a) a]
    rfl

theorem wp_setNonce (h : Coherent base s) (hR : World.Fine s.db R) (n : U256) :
    wp (State.setNonce a n) (fun _ s' => Moves R base s s' 0 ∧ (s'.view a).isSome ∧
      s'.logOf base a ≠ []) (fun _ _ => False) s := by
  have hspec := h.setNonce (a := a) n fun _ _ => False
  obtain ⟨_, s', hs', hext, hv⟩ := exists_ok_of_wp hspec
  obtain ⟨ch, hch, hlog⟩ := wp_ok (setNonce_logs s n fun _ _ => False) hs'
  refine wp_of_eq_ok hs' ⟨moves_of_upsert hR hext hv (fun _ => rfl) rfl, ?_, ?_⟩
  · rw [hv]; exact World.isSome_upsert _ _
  · rw [logOf_append h.base_le (l := [ch]) (by simpa using hch) hlog, if_pos rfl]
    exact List.cons_ne_nil _ _

/-- The words of an account with no pending ones are those of its trie. -/
theorem storageAt_of_no_pending {acc : Account H} (hl : s.cache.lookup a = some acc)
    (hp : (Context.pendingWords s a).isEmpty = true) (key : U256) :
    acc.storageAt s.db key = s.db.storageTrie acc.storageRoot key := by
  unfold Context.pendingWords at hp
  rw [cacheAt_of_lookup hl] at hp
  unfold Account.storageAt
  cases ho : acc.storageOverlay.lookup key with
  | none => rfl
  | some v =>
    have hmem := (List.mem_dlookup_iff acc.storageOverlay.nodupKeys).1 ho
    have hnil := List.map_eq_nil_iff.1 (List.isEmpty_iff.1 hp)
    have := List.filter_eq_nil_iff.1 hnil _ hmem
    simpa using this

theorem Context.wp_clearStorage (h : Coherent base s) (hR : World.Fine s.db R) (hc : c.Clears R)
    (ha : s.ChangedAt a) : wp (c.clearStorage a) (fun _ s' => Moves R base s s' 0) (c.NoWrap s) s := by
  obtain ⟨acc, hl, -⟩ := ha
  have hva := view_of_lookup hl
  unfold Context.clearStorage
  rw [wp_bind, wp_get, wp_bind]
  refine c.wp_stopIf (fun hw => ?_) fun hw _ _ ho => ?_
  · refine wp_mono (h.clearStorage_cached hl (E := fun _ _ => False)) ?_ fun _ _ => False.elim
    rintro _ s' ⟨hany, hv, hexact, hlog, hempty⟩
    have hext : Extends R base s s' := by
      by_cases he : acc.storageRoot = emptyTrie
      · exact (hempty he).weaken hR.respects
      rcases hc with hc | hc
      · -- no word was pending
        refine (hexact fun key => storageAt_of_no_pending hl ?_ key).weaken hR.respects
        simpa [cacheAt_of_lookup hl, he] using hw hc
      · refine hany.strengthen (l := [.storageRoot a acc.storageRoot]) (hlog he) (hc _ _ fun b => ?_)
        rw [undoAll_cons, undoAll_nil, hv, World.undo, Change.address, Function.update_self,
          Function.update_idem, AccountView.clearStorage, if_neg (by exact he)]
        by_cases hb : b = a
        · rw [hb, Function.update_self, hva]; rfl
        · rw [Function.update_of_ne hb]
    refine .of_balance hext ?_ fun b => ?_
    · rw [hv]; exact World.keeps_update_some _
    · rw [hv, World.balance_update]
      split
      · next hb =>
        subst hb
        rw [World.balance, hva, AccountView.clearStorage]
        split <;> rfl
      · rfl
  · cases ho _ hw

omit [Digest H] in
theorem Context.wp_sub {x y : U256} (h : y ≤ x) {Q : U256 → State H → Prop} {E : Exn → State H → Prop}
    (hQ : Q (x - y) s) : wp (c.sub x y) Q E s := by
  unfold Context.sub
  rw [wp_bind]
  refine c.wp_stopIf (fun _ => hQ) fun _ hlt => ?_
  exact absurd (of_decide_eq_true hlt) (BitVec.not_lt.2 h)

/-- Nothing but reads. -/
structure Looks (base : Nat) (s s' : State H) : Prop where
  ext : Extends Eq base s s'
  view : s'.view = s.view

theorem Looks.refl (h : Coherent base s) : Looks base s s := ⟨h.refl, rfl⟩

theorem Looks.trans {s'' : State H} (h : Looks base s s') (h' : Looks base s' s'') : Looks base s s'' :=
  ⟨h.ext.trans (.eq _) h'.ext, h'.view.trans h.view⟩

theorem Looks.moves (hR : World.Fine s.db R) (h : Looks base s s') : Moves R base s s' 0 :=
  .of_view hR h.ext h.view

theorem wp_isRead {α : Type} {x : StateM H α} {r : State H → α} (hx : IsRead x r) (h : Coherent base s)
    {E : Exn → State H → Prop} : wp x (fun v s' => v = r s ∧ Looks base s s') E s :=
  wp_mono (hx base s h E) (fun _ _ hs' => ⟨hs'.1, hs'.2.1, hs'.2.2⟩) fun _ _ h => h

theorem NativeManager.wp_isNativeContract (h : Coherent base s) {E : Exn → State H → Prop} :
    wp (NativeManager.isNativeContract a) (fun v s' =>
      v = decide ((NativeStorage.readData (NativeStorage.wordsOf s.view rootContractAddress)
        (keyOn H partitionNativeContracts a) []).1 ≠ 0) ∧ Looks base s s') E s := by
  unfold NativeManager.isNativeContract
  rw [wp_bind]
  refine wp_mono (NativeStorage.getData_reads h (E := fun _ _ => False)) ?_ fun _ _ => False.elim
  rintro r s' ⟨rfl, hext, hview⟩
  exact ⟨rfl, hext, hview⟩

theorem ExtVM.wp_make (h : Coherent base s) (ext : ExtVM H) : wp (ExtVM.make ext)
    (fun x s' => x = ext ∧ (s.view ext.myAddress).isSome ∧ Looks base s s')
    (fun e _ => e = .assertion ∧ s.view ext.myAddress = none) s := by
  unfold ExtVM.make
  rw [wp_bind]
  refine wp_mono (wp_isRead isRead_addressInUse h (E := fun _ _ => False)) ?_ fun _ _ => False.elim
  rintro v t ⟨rfl, ht⟩
  dsimp only
  cases hv : s.view ext.myAddress with
  | none => exact ⟨rfl, rfl⟩
  | some v => exact ⟨rfl, rfl, ht⟩

end

/-! ### Setting a frame up -/

/-- What `e` keeps of `e₀` while the frame is set up; its new `ExtVM`, if any, is for an account in use. -/
structure Executive.SetUp (e₀ e : Executive H) (s : State H) : Prop where
  savepoint : e.savepoint = e₀.savepoint
  excepted : e.excepted = e₀.excepted
  isCreation : e.isCreation = e₀.isCreation
  ext : ∀ ext, e.ext = some ext → (s.view ext.myAddress).isSome ∧ ext.trace = .nil ∧ ext.sub = {}

/-- The frame of `e` began at the savepoint in `s₀` and has been set up. -/
structure Executive.Ready (R : World H → World H → Prop) (base : Nat) (s₀ : State H) (e : Executive H)
    (s : State H) : Prop where
  moves : Moves R base s₀ s 0
  savepoint : e.savepoint = s₀.changeLog.length
  excepted : e.excepted = .none
  ext : ∀ ext, e.ext = some ext → (s.view ext.myAddress).isSome ∧ ext.trace = .nil ∧ ext.sub = {}
  created : e.isCreation = true → ∀ ext, e.ext = some ext → s.logOf base ext.myAddress ≠ []

/-- From `s` the frame was begun at the savepoint in some `s₀` that satisfies `P`. -/
def Executive.Begun (R : World H → World H → Prop) (base : Nat) (P : State H → Prop) (s : State H)
    (r : Bool × Executive H) (s' : State H) : Prop :=
  ∃ s₀, P s₀ ∧ Moves R base s s₀ 0 ∧ Moves R base s₀ s' 0 ∧
    (r.1 = false → Executive.Ready R base s₀ r.2 s')

namespace Executive
variable {c : Context H} {R : World H → World H → Prop} {base : Nat} {s : State H} {e : Executive H}

theorem wp_callPrecompiled (h : Coherent base s) (hR : World.Fine s.db R) (hext : e.ext = none)
    (contract : PrecompiledContract) (p : CallParameters) :
    wp (e.callPrecompiled c contract p)
      (fun r s' => Moves R base s s' 0 ∧ (r.1 = false → e.SetUp r.2 s')) (c.NoWrap s) s := by
  unfold callPrecompiled
  dsimp only
  rw [wp_ite]
  split
  · rw [wp_ite]
    split
    · rw [wp_bind]
      refine wp_mono (h.addBalance 0) ?_ fun _ _ he => he.noWrap
      rintro _ s' ⟨hs', hv'⟩
      refine ⟨.of_balance (hs'.weaken hR.respects) (hv' ▸ World.keeps_upsert _ _) fun b => ?_, nofun⟩
      rw [hv', World.balance_credit]
      split
      · next hb => rw [hb]; exact BitVec.add_zero _
      · rfl
    · exact ⟨.refl hR h, nofun⟩
  · next hge =>
    rw [wp_bind]
    refine c.wp_sub (BitVec.le_def.2 ?_) ?_
    · exact Nat.le_trans (Nat.mod_le ..) (Nat.le_of_not_lt hge)
    · rw [wp_ite]
      split
      · exact ⟨.refl hR h, fun _ => ⟨rfl, rfl, rfl, by simp [hext]⟩⟩
      · exact ⟨.refl hR h, nofun⟩

theorem wp_callContract (h : Coherent base s) (hext : e.ext = none) (p : CallParameters)
    (gasPrice : U256) (origin : Address) :
    wp (e.callContract p gasPrice origin) (fun r s' => Looks base s s' ∧ e.SetUp r s')
      (fun e _ => e = .assertion) s := by
  unfold callContract
  rw [wp_bind]
  refine wp_mono (NativeManager.wp_isNativeContract h (E := fun _ _ => False)) ?_ fun _ _ => False.elim
  rintro native s₁ ⟨-, h₁⟩
  rw [wp_ite]
  split
  · rw [wp_bind]
    refine wp_mono (ExtVM.wp_make h₁.ext.coherent _) ?_ fun _ _ he => he.1
    rintro x s₂ ⟨rfl, hin, h₂⟩
    refine ⟨h₁.trans h₂, rfl, rfl, rfl, ?_⟩
    rintro ext ⟨⟩
    exact ⟨by rw [h₂.view]; exact hin, rfl, rfl⟩
  · rw [wp_bind]
    refine wp_mono (wp_isRead isRead_addressHasCode h₁.ext.coherent (E := fun _ _ => False)) ?_
      fun _ _ => False.elim
    rintro hasCode s₂ ⟨-, h₂⟩
    have h₁₂ := h₁.trans h₂
    rw [wp_ite]
    split
    · rw [wp_bind]
      refine wp_mono (h₂.ext.coherent.code (E := fun _ _ => False)) ?_ fun _ _ => False.elim
      rintro code s₃ ⟨-, h₃⟩
      rw [wp_bind]
      refine wp_mono (wp_isRead isRead_codeHash h₃.ext.coherent (E := fun _ _ => False)) ?_
        fun _ _ => False.elim
      rintro codeHash s₄ ⟨-, h₄⟩
      rw [wp_bind]
      refine wp_mono (ExtVM.wp_make h₄.ext.coherent _) ?_ fun _ _ he => he.1
      rintro x s₅ ⟨rfl, hin, h₅⟩
      refine ⟨h₁₂.trans (.trans ⟨h₃.ext, h₃.view⟩ (h₄.trans h₅)), rfl, rfl, rfl, ?_⟩
      rintro ext ⟨⟩
      exact ⟨by rw [h₅.view]; exact hin, rfl, rfl⟩
    · exact ⟨h₁₂, rfl, rfl, rfl, by simp [hext]⟩

theorem wp_prepareCall (h : Coherent base s) (hR : World.Fine s.db R) (hext : e.ext = none)
    (p : CallParameters) (gasPrice : U256) (origin : Address) :
    wp (e.prepareCall c p gasPrice origin)
      (fun r s' => Moves R base s s' 0 ∧ (r.1 = false → e.SetUp r.2 s')) (c.NoWrap s) s := by
  unfold prepareCall
  split
  · exact wp_callPrecompiled h hR hext _ p
  · rw [wp_bind]
    refine wp_mono (wp_callContract h hext p gasPrice origin) ?_ fun _ _ he => .of_ne (by rw [he]; nofun)
    rintro r s' ⟨hs', hset⟩
    exact ⟨hs'.moves hR, fun _ => hset⟩

theorem wp_countTransaction (h : Coherent base s) (hR : World.Fine s.db R) (a : Address) :
    wp (e.countTransaction c a) (fun _ s' => Moves R base s s' 0) (c.NoWrap s) s := by
  unfold countTransaction
  rw [wp_ite]
  split
  · exact .refl hR h
  · exact wp_countNonce h hR

/-- A frame about to be set up. -/
structure Fresh (e : Executive H) : Prop where
  ext : e.ext = none
  excepted : e.excepted = .none
  isCreation : e.isCreation = false
  gas : e.gas = 0

omit [Digest H] in
theorem Fresh.withAddress (he : e.Fresh) (a : Address) : Fresh { e with newAddress := a } :=
  ⟨he.ext, he.excepted, he.isCreation, he.gas⟩

theorem wp_call (h : Coherent base s) (hR : ∀ db, World.Fine db R) (he : e.Fresh) (p : CallParameters)
    (gasPrice : U256) (origin : Address) : wp (e.call c p gasPrice origin)
      (Begun R base (fun s₀ => e.countTransaction c p.senderAddress s = .ok () s₀) s) (c.NoWrap s) s := by
  unfold call
  rw [wp_bind]
  refine wp_mono (wp_run (wp_countTransaction h (hR _) p.senderAddress)) ?_ fun _ _ h => h
  rintro _ s₀ ⟨hcount, h₀⟩
  have hcoh₀ := h₀.ext.coherent
  rw [wp_bind, wp_savepoint, wp_bind]
  refine wp_mono (wp_prepareCall hcoh₀ (hR _) (by exact he.ext) p gasPrice origin) ?_
    fun _ _ he => .of_moves h₀ he
  rintro ⟨done, e₁⟩ s₁ ⟨h₁, hset⟩
  rw [wp_ite]
  split
  · exact ⟨s₀, hcount, h₀, h₁, nofun⟩
  · next hdone =>
    have hset := hset (by simpa using hdone)
    rw [wp_bind]
    refine wp_mono (c.wp_transferBalance h₁.ext.coherent (hR _)) ?_
      fun _ _ he => .of_moves h₀ (.of_moves h₁ he)
    rintro _ s₂ ⟨h₂, -⟩
    have h₀₂ := h₁.trans (hR _) h₂
    refine ⟨s₀, hcount, h₀, h₀₂, fun _ => ⟨h₀₂, hset.savepoint, hset.excepted.trans he.excepted, ?_, ?_⟩⟩
    · intro ext hext
      obtain ⟨hin, htr, hsub⟩ := hset.ext ext hext
      exact ⟨h₂.keeps _ hin, htr, hsub⟩
    · intro hcr
      rw [hset.isCreation] at hcr
      rw [show _ = false from he.isCreation] at hcr
      cases hcr

theorem wp_accountAlreadyExist (h : Coherent base s) {E : Exn → State H → Prop} :
    wp e.accountAlreadyExist (fun _ s' => Looks base s s') E s := by
  unfold accountAlreadyExist
  rw [wp_bind]
  refine wp_mono (wp_isRead isRead_addressHasCode h (E := fun _ _ => False)) ?_ fun _ _ => False.elim
  rintro hasCode s₁ ⟨-, h₁⟩
  rw [wp_ite]
  split
  · exact h₁
  · rw [wp_bind]
    refine wp_mono (wp_isRead isRead_getNonce h₁.ext.coherent (E := fun _ _ => False)) ?_
      fun _ _ => False.elim
    rintro nonce s₂ ⟨-, h₂⟩
    exact h₁.trans h₂

theorem wp_createAccount (h : Coherent base s) (hR : ∀ db, World.Fine db R) (hext : e.ext = none)
    (sender : Address) (endowment gasPrice : U256) (init : Bytes) (origin : Address) :
    wp (e.createAccount c sender endowment gasPrice init origin) (fun r s' => Moves R base s s' 0 ∧
      (r.1 = false → e.SetUp r.2 s' ∧
        ∀ ext, r.2.ext = some ext → s'.logOf base ext.myAddress ≠ [])) (c.NoWrap s) s := by
  unfold createAccount
  rw [wp_bind]
  refine wp_mono (c.wp_transferBalance h (hR _)) ?_ fun _ _ h => h
  rintro _ s₁ ⟨h₁, -⟩
  rw [wp_bind]
  refine wp_requireAccountStartNonce (fun _ => ?_) fun _ => .of_ne nofun
  rw [wp_bind]
  refine wp_mono (wp_setNonce h₁.ext.coherent (hR _) _) ?_ fun _ _ => False.elim
  rintro _ s₂ ⟨h₂, hin, hlog⟩
  have h₁₂ := h₁.trans (hR _) h₂
  rw [wp_ite]
  split
  · exact ⟨h₁₂, by simp [hext]⟩
  · rw [wp_bind]
    refine wp_mono (ExtVM.wp_make h₂.ext.coherent _) ?_ fun _ _ he => .of_ne (by rw [he.1]; nofun)
    rintro x s₃ ⟨rfl, -, h₃⟩
    refine ⟨h₁₂.trans (hR _) (h₃.moves (hR _)), fun _ => ⟨⟨rfl, rfl, rfl, ?_⟩, ?_⟩⟩
    · rintro ext ⟨⟩
      exact ⟨by rw [h₃.view]; exact hin, rfl, rfl⟩
    · rintro ext ⟨⟩
      exact logOf_ne_nil h₃.ext h₂.ext.coherent.base_le hlog

theorem wp_revert {s₀ : State H} (hR : World.Fine s₀.db R) (hb : base ≤ s₀.changeLog.length)
    (h : Extends R base s₀ s) (hsp : e.savepoint = s₀.changeLog.length) {E : Exn → State H → Prop} :
    wp e.revert (fun r s' => r = { e with
        ext := e.ext.map fun ext => { ext with sub := {} }, newAddress := 0 } ∧
      Moves R base s₀ s' 0 ∧ R s'.view s₀.view ∧ s'.changeLog = s₀.changeLog) E s := by
  unfold revert
  rw [wp_bind, hsp]
  obtain ⟨t, ht, hmoves, hview, hlog⟩ := Moves.rollback hR hb h
  exact wp_of_eq_ok ht ⟨rfl, hmoves, hview, hlog⟩

theorem wp_executeCreate (h : Coherent base s) (hR : ∀ db, World.Fine db R) (he : e.Fresh)
    (sender : Address) (endowment gasPrice gas : U256) (init : Bytes) (origin : Address) :
    wp (e.executeCreate c sender endowment gasPrice gas init origin)
      (Begun R base (fun s₀ => countNonce c sender s = .ok () s₀) s) (c.NoWrap s) s := by
  unfold executeCreate
  rw [wp_bind]
  refine wp_mono (wp_run (wp_countNonce h (hR _))) ?_ fun _ _ h => h
  rintro _ s₀ ⟨hcount, h₀⟩
  have hcoh₀ := h₀.ext.coherent
  rw [wp_bind, wp_savepoint]
  dsimp only
  rw [wp_bind]
  refine wp_mono (wp_accountAlreadyExist hcoh₀ (E := fun _ _ => False)) ?_ fun _ _ => False.elim
  rintro exist s₁ h₁
  rw [wp_ite]
  split
  · rw [wp_bind]
    refine wp_mono (wp_revert (hR _) hcoh₀.base_le (h₁.ext.weaken (hR _).respects) rfl
      (E := fun _ _ => False)) ?_ fun _ _ => False.elim
    rintro r s₂ ⟨-, h₂, -⟩
    exact ⟨s₀, hcount, h₀, h₂, nofun⟩
  · refine wp_mono (wp_createAccount h₁.ext.coherent hR (by exact he.ext) ..) ?_
      fun _ _ he => .of_moves h₀ (.of_moves (h₁.moves (hR _)) he)
    rintro ⟨done, e₁⟩ s₂ ⟨h₂, hset⟩
    have h₀₂ := (h₁.moves (hR _)).trans (hR _) h₂
    refine ⟨s₀, hcount, h₀, h₀₂, fun hd => ?_⟩
    obtain ⟨hset, hlog⟩ := hset hd
    exact ⟨h₀₂, hset.savepoint, hset.excepted.trans he.excepted, hset.ext, fun _ => hlog⟩

end Executive

/-! ### What a machine does -/

/-- The balances that went with contracts that named themselves, in frames that did not fail. -/
def Trace.burnt : Trace → Nat
  | nil => 0
  | log before _ => before.burnt
  | refund before _ => before.burnt
  | suicide before contract beneficiary balance =>
    before.burnt + if beneficiary = contract then balance.toNat else 0
  | frame before ok callee => before.burnt + if ok then callee.burnt else 0

/-- From `ext` and `s` a machine has come to `ext'` and `s'`. -/
structure ExtVM.Moved (R : World H → World H → Prop) (base : Nat) (ext : ExtVM H) (s : State H)
    (ext' : ExtVM H) (s' : State H) : Prop where
  myAddress : ext'.myAddress = ext.myAddress
  moves : ∃ out, ext'.trace.burnt = ext.trace.burnt + out ∧ Moves R base s s' out

/-- All that the machine does, it does through its `ExtVM`. -/
def Vm.Moves (c : Context H) (R : World H → World H → Prop) (base : Nat) (vm : Vm H) : Prop :=
  ∀ (ext : ExtVM H) (given : U256) (s : State H), Coherent base s → (s.view ext.myAddress).isSome →
    wp (vm ext given) (fun r s' => ext.Moved R base s r.ext s') (c.NoWrap s) s

theorem ExtVM.Moved.trans {R : World H → World H → Prop} {base : Nat} {ext ext' ext'' : ExtVM H}
    {s s' s'' : State H} (hR : World.Fine s.db R) (h : ext.Moved R base s ext' s')
    (h' : ext'.Moved R base s' ext'' s'') : ext.Moved R base s ext'' s'' := by
  obtain ⟨out, hout, hm⟩ := h.moves
  obtain ⟨out', hout', hm'⟩ := h'.moves
  exact ⟨h'.myAddress.trans h.myAddress, out + out', by omega, hm.trans hR hm'⟩

namespace Executive
variable {c : Context H} {R : World H → World H → Prop} {base : Nat} {s s₀ : State H} {e : Executive H}

def burnt (e : Executive H) : Nat := e.ext.elim 0 (·.trace.burnt)

/-- The frame that began at the savepoint in `s₀` is done: it has done what its trace says, or failed and
left everything as it was. -/
structure Ended (R : World H → World H → Prop) (base : Nat) (s₀ : State H) (e : Executive H)
    (s : State H) : Prop where
  moves : Moves R base s₀ s (if e.excepted = .none then e.burnt else 0)
  failed : e.excepted ≠ .none → R s.view s₀.view ∧ s.changeLog = s₀.changeLog

theorem Ended.of_ok {out : Nat} (h : Moves R base s₀ s out) (he : e.excepted = .none)
    (hout : e.burnt = out) : Ended R base s₀ e s :=
  ⟨by rw [if_pos he, hout]; exact h, fun hne => absurd he hne⟩

variable {E : Exn → State H → Prop}

/-- What a frame that has run so far can fail with. -/
theorem wp_fail {out : Nat} {f : Executive H → Executive H}
    (hR : World.Fine s₀.db R) (hb : base ≤ s₀.changeLog.length) (h : Moves R base s₀ s out)
    (hsp : e.savepoint = s₀.changeLog.length) (hf : ∀ e, (f e).excepted ≠ .none) :
    wp (do let e ← revert e; return f e) (fun e' s' => Ended R base s₀ e' s') E s := by
  rw [wp_bind]
  refine wp_mono (wp_revert hR hb h.ext hsp (E := fun _ _ => False)) ?_ fun _ _ => False.elim
  rintro e' s' ⟨-, hm, hv, hl⟩
  exact ⟨by rw [if_neg (hf e')]; exact hm, fun _ => ⟨hv, hl⟩⟩

omit [Digest H] in
theorem toTransactionException_ne (x : VMException) : toTransactionException x ≠ .none := by
  cases x <;> nofun

theorem wp_onVMException {out : Nat} (hR : World.Fine s₀.db R)
    (hb : base ≤ s₀.changeLog.length) (h : Moves R base s₀ s out)
    (hsp : e.savepoint = s₀.changeLog.length) (x : VMException) :
    wp (e.onVMException x) (fun e' s' => Ended R base s₀ e' s') E s := by
  unfold onVMException
  refine wp_mono (wp_revert hR hb h.ext (by exact hsp) (E := fun _ _ => False)) ?_ fun _ _ => False.elim
  rintro e' s' ⟨rfl, hm, hv, hl⟩
  have hne := toTransactionException_ne x
  exact ⟨by rw [if_neg (by exact hne)]; exact hm, fun _ => ⟨hv, hl⟩⟩

theorem wp_setCode {a : Address} {code : Bytes} (hR : World.Fine s.db R)
    (h : Coherent base s) (hin : (s.view a).isSome) (hch : s.ChangedAt a) :
    wp (State.setCode a code) (fun _ s' => Moves R base s s' 0) E s := by
  refine wp_mono (h.setCode (fun _ => hch) code (E := fun _ _ => False)) ?_ fun _ _ => False.elim
  rintro _ s' ⟨-, hv, hext⟩
  obtain ⟨v, hva⟩ := Option.isSome_iff_exists.1 hin
  refine .of_balance ((hext hin).1.weaken hR.respects) ?_ fun b => ?_
  · rw [hv]; exact World.keeps_upsert _ _
  · rw [hv, World.upsert_of_some hva, World.balance_update]
    split
    · next hb => rw [hb, World.balance, hva]; rfl
    · rfl

theorem wp_deposit {out : Nat} {a : Address} {code : Bytes} (hR : ∀ db, World.Fine db R)
    (hb : base ≤ s₀.changeLog.length) (h : Moves R base s₀ s out) (hout : e.burnt = out)
    (hsp : e.savepoint = s₀.changeLog.length) (he : e.excepted = .none) (hin : (s.view a).isSome)
    (hch : s.ChangedAt a) :
    wp (e.deposit c a code) (fun e' s' => Ended R base s₀ e' s') (c.NoWrap s) s := by
  have hset : ∀ (code : Bytes) (f : Executive H), f.excepted = .none → f.burnt = out →
      wp (do State.setCode a code; return f) (fun e' s' => Ended R base s₀ e' s') (c.NoWrap s) s := by
    intro code f hf hfo
    rw [wp_bind]
    refine wp_mono (wp_setCode (hR _) h.ext.coherent hin hch (E := fun _ _ => False)) ?_
      fun _ _ => False.elim
    intro _ s' hs'
    exact .of_ok (h.trans (hR _) hs') hf hfo
  unfold deposit
  dsimp only
  rw [wp_ite]
  split
  · exact wp_onVMException (hR _) hb h (by exact hsp) _
  rw [wp_ite]
  split
  · next hle =>
    rw [wp_bind]
    refine c.wp_sub (BitVec.le_def.2 ?_) (hset code _ he hout)
    exact Nat.le_trans (Nat.mod_le ..) hle
  rw [wp_ite]
  split
  · exact wp_onVMException (hR _) hb h (by exact hsp) _
  · exact hset [] _ he hout

theorem wp_onRevert {out : Nat} (hR : World.Fine s₀.db R)
    (hb : base ≤ s₀.changeLog.length) (h : Moves R base s₀ s out)
    (hsp : e.savepoint = s₀.changeLog.length) (output : Bytes) :
    wp (e.onRevert output) (fun e' s' => Ended R base s₀ e' s') E s :=
  wp_fail (f := fun e => { e with output := output, excepted := .revertInstruction }) hR hb h hsp
    fun _ => nofun

variable {vm : Vm H} {ext : ExtVM H}

theorem wp_exec (hR : ∀ db, World.Fine db R) (hvm : vm.Moves c R base) (h : Coherent base s)
    (hin : (s.view ext.myAddress).isSome) :
    wp (e.exec vm ext) (fun r s' => ext.Moved R base s r.ext s') (c.NoWrap s) s := by
  unfold exec
  split
  · unfold NativeManager.callVM
    rw [wp_bind]
    refine wp_mono (NativeStorage.getData_reads h (E := fun _ _ => False)) ?_ fun _ _ => False.elim
    rintro r s' ⟨-, hext, hview⟩
    have hmoved : ext.Moved R base s ext s' := ⟨rfl, 0, rfl, .of_view (hR _) hext hview⟩
    rw [wp_ite]
    split
    · unfold AssetVM
      rw [wp_ite]
      split <;> exact hmoved
    · exact fun hm => nomatch hm
  · exact hvm ext e.gas s h hin

theorem wp_goCall (hR : ∀ db, World.Fine db R) (hvm : vm.Moves c R base)
    (h : e.Ready R base s₀ s) (hb : base ≤ s₀.changeLog.length) (hext : e.ext = some ext) :
    wp (e.goCall vm ext) (fun e' s' => Ended R base s₀ e' s') (c.NoWrap s₀) s := by
  obtain ⟨hin, htr, -⟩ := h.ext ext hext
  unfold goCall
  rw [wp_bind]
  refine wp_mono (wp_exec hR hvm h.moves.ext.coherent hin) ?_ fun _ _ he => .of_moves h.moves he
  rintro r s' ⟨-, out, hout, hm⟩
  have hm := h.moves.trans (hR _) hm
  rw [Nat.zero_add] at hm
  dsimp only
  split
  · refine .of_ok hm h.excepted ?_
    rw [htr] at hout
    exact hout.trans (Nat.zero_add _)
  · exact wp_onRevert (hR _) hb hm (by exact h.savepoint) _
  · exact wp_onVMException (hR _) hb hm (by exact h.savepoint) _

theorem wp_goCreate (hR : ∀ db, World.Fine db R) (hc : c.Clears R) (hvm : vm.Moves c R base)
    (h : e.Ready R base s₀ s) (hb : base ≤ s₀.changeLog.length) (hext : e.ext = some ext)
    (hcr : e.isCreation = true) :
    wp (e.goCreate c vm ext) (fun e' s' => Ended R base s₀ e' s') (c.NoWrap s₀) s := by
  obtain ⟨hin, htr, -⟩ := h.ext ext hext
  have hlog := h.created hcr ext hext
  have hcoh := h.moves.ext.coherent
  unfold goCreate
  rw [wp_bind]
  refine wp_mono (c.wp_clearStorage hcoh (hR _) hc (changedAt_of_log hcoh hlog)) ?_
    fun _ _ he => .of_moves h.moves he
  rintro _ s₁ h₁
  have h₀₁ := h.moves.trans (hR _) h₁
  rw [wp_bind]
  refine wp_mono (hvm ext e.gas s₁ h₁.ext.coherent (h₁.keeps _ hin)) ?_ fun _ _ he => .of_moves h₀₁ he
  rintro r s₂ ⟨-, out, hout, hm⟩
  have h₀₂ := h₀₁.trans (hR _) hm
  rw [Nat.zero_add] at h₀₂
  dsimp only
  split
  · refine wp_mono (wp_deposit hR hb h₀₂ ?_ h.savepoint h.excepted (hm.keeps _ (h₁.keeps _ hin)) ?_)
      (fun _ _ h => h) fun _ _ he => .of_moves h₀₂ he
    · rw [htr] at hout
      exact hout.trans (Nat.zero_add _)
    · refine changedAt_of_log hm.ext.coherent ?_
      exact logOf_ne_nil hm.ext h₁.ext.coherent.base_le (logOf_ne_nil h₁.ext hcoh.base_le hlog)
  · exact wp_onRevert (hR _) hb h₀₂ (by exact h.savepoint) _
  · exact wp_onVMException (hR _) hb h₀₂ (by exact h.savepoint) _

theorem wp_go (hR : ∀ db, World.Fine db R) (hc : c.Clears R) (hvm : vm.Moves c R base)
    (h : e.Ready R base s₀ s) (hb : base ≤ s₀.changeLog.length) :
    wp (e.go c vm) (fun e' s' => Ended R base s₀ e' s') (c.NoWrap s₀) s := by
  unfold go
  split
  · next hn => exact .of_ok h.moves h.excepted (by rw [burnt, hn]; rfl)
  · next ext hext =>
    rw [wp_bind, wp_tryCatch]
    have hcopy : ∀ (e' : Executive H) s', Ended R base s₀ e' s' → Ended R base s₀ e'.copyOutput s' := by
      intro e' s' he
      unfold copyOutput
      split
      exacts [he, ⟨he.moves, he.failed⟩]
    have hE : ∀ x s', c.NoWrap s₀ x s' → c.NoWrap s₀ (uncaught x) s' := by
      intro x s' hx hu
      refine hx ?_
      cases x <;> first | rfl | cases hu
    rw [wp_ite]
    split
    · next hcr => exact wp_mono (wp_goCreate hR hc hvm h hb hext hcr) hcopy hE
    · exact wp_mono (wp_goCall hR hvm h hb hext) hcopy hE

end Executive

end Kmdx
