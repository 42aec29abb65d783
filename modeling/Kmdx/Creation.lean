import Kmdx.FailedFrame

/-!
# Creation at a fresh address (`libwing/Executive.cpp`)

Whether an address is used is told from its nonce, and that of an address with no account is `accountStartNonce`. So the
address is taken to be used unless that is zero (`createsRight_iff`).
-/

namespace Kmdx

open Wp State Function

variable {H : Type} [Digest H]

namespace World

/-- The sender's nonce counts, if it does. -/
def count (w : World H) (db : OverlayDB H) (startNonce : U256) (counts : Bool) (sender : Address) : World H :=
  if counts then w.upsert sender (fun v => { v with nonce := v.nonce + 1 }) (.new db (startNonce + 1) 0) else w

/-- `m_s.addressHasCode(a) || m_s.getNonce(a) > 0` -/
def Used (w : World H) (startNonce : U256) (a : Address) : Prop :=
  match w a with
  | some v => v.codeHash ≠ emptySHA3 ∨ v.nonce ≠ 0
  | none => startNonce ≠ 0

/-- The endowment, and the nonce of a new contract -/
def endow (w : World H) (db : OverlayDB H) (startNonce nonce : U256) (sender a : Address) (endowment : U256) : World H :=
  ((w.debit sender endowment).credit db startNonce a endowment).upsert a
    (fun v => { v with nonce := nonce }) (.new db nonce 0)

section
variable {w : World H} {db : OverlayDB H} {startNonce nonce endowment : U256} {counts : Bool} {sender a : Address}

theorem count_apply (h : ¬ (a = sender ∧ counts = true)) : w.count db startNonce counts sender a = w a := by
  rw [count]
  split_ifs with hcounts
  · exact update_of_ne (fun heq => h ⟨heq, hcounts⟩) _ _
  · rfl

theorem count_self : w.count db startNonce true sender sender =
    some ((w sender).elim (.new db (startNonce + 1) 0) fun v => { v with nonce := v.nonce + 1 }) := by
  rw [count, if_pos rfl, upsert, update_self]

theorem balance_count : (w.count db startNonce counts sender).balance sender = w.balance sender := by
  cases counts with
  | false => rfl
  | true =>
    rw [balance, count_self, balance]
    cases w sender <;> rfl

theorem endow_apply (h : w a = none) : w.endow db startNonce nonce sender a endowment a =
    some { (AccountView.new db startNonce endowment : AccountView H) with nonce := nonce } := by
  have hdebit : w.debit sender endowment a = none := by
    rw [debit, update_apply]
    split_ifs with hself
    · rw [← hself, h]
      rfl
    · exact h
  have hcredit : (w.debit sender endowment).credit db startNonce a endowment a = some (.new db startNonce endowment) := by
    rw [credit, upsert_of_none hdebit, update_self]
  rw [endow, upsert_of_some hcredit, update_self]

end

end World

namespace Executive

/-- Whether `executeCreate` counts in the sender's nonce. -/
def counts (c : Context H) (sender : Address) : Bool := sender ≠ maxAddress ∨ c.number < c.params.constantinopleForkBlock

/-- The nonce of a new contract -/
def newNonce (c : Context H) (startNonce : U256) :
    U256 := if c.params.eip158ForkBlock ≤ c.number then startNonce + 1 else startNonce

variable {c : Context H} {base : Nat} {s : State H} {e : Executive H} {sender : Address}

theorem wp_count (h : Coherent base s) (hn : s.accountStartNonce ≠ invalid256) : wp (countNonce c sender)
    (fun _ s' => Extends Eq base s s' ∧ s'.view = s.view.count s.db s.accountStartNonce (counts c sender) sender)
    (fun _ _ => False) s := by
  rw [countNonce, wp_ite]
  split
  · rename_i hcounts
    have hyes : counts c sender = true := decide_eq_true hcounts
    refine wp_mono h.incNonce (fun _ s' hs' => ⟨hs'.1, ?_⟩) fun e s' he => hn he.startNonce
    rw [hs'.2, World.count, if_pos hyes]
  · rename_i hcounts
    have hno : counts c sender = false := decide_eq_false hcounts
    refine ⟨h.refl, ?_⟩
    rw [World.count, hno]
    rfl

theorem wp_used (h : Coherent base s) : wp e.accountAlreadyExist
    (fun exist s' => (exist = true ↔ s.view.Used s.accountStartNonce e.newAddress) ∧ Looks base s s')
      (fun _ _ => False) s := by
  rw [accountAlreadyExist, wp_bind]
  refine wp_mono (wp_isRead isRead_addressHasCode h) ?_ fun _ _ => id
  rintro hasCode s₁ ⟨hcode, h₁⟩
  rw [wp_ite]
  split
  · rename_i hyes
    refine ⟨iff_of_true rfl ?_, h₁⟩
    rw [World.Used]
    rw [hcode] at hyes
    cases hv : s.view e.newAddress with
    | none =>
      rw [hv] at hyes
      cases hyes
    | some v =>
      rw [hv] at hyes
      exact .inl (of_decide_eq_true hyes)
  · rename_i hno
    rw [wp_bind]
    refine wp_mono (wp_isRead isRead_getNonce h₁.ext.coherent) ?_ fun _ _ => id
    rintro nonce s₂ ⟨hnonce, h₂⟩
    refine ⟨?_, h₁.trans h₂⟩
    rw [h₁.view, h₁.ext.accountStartNonce] at hnonce
    rw [decide_eq_true_eq, World.Used, hnonce]
    rw [hcode] at hno
    cases hv : s.view e.newAddress with
    | none => exact BitVec.pos_iff_ne_zero _
    | some v =>
      rw [hv] at hno
      have hnone : v.codeHash = emptySHA3 := by simpa using hno
      simp [hnone, BitVec.pos_iff_ne_zero]

theorem wp_endow (h : Coherent base s) (hn : s.accountStartNonce ≠ invalid256) (endowment gasPrice : U256) (init : Bytes)
    (origin : Address) : wp (e.createAccount c.program sender endowment gasPrice init origin)
      (fun r s' => endowment ≤ s.view.balance sender ∧ r.2.excepted = e.excepted ∧
        (init ≠ [] → ∃ ext, r.2.ext = some ext ∧ ext.myAddress = e.newAddress) ∧
        s'.view = s.view.endow s.db s.accountStartNonce (newNonce c s.accountStartNonce) sender e.newAddress endowment)
      (fun _ _ => ¬ endowment ≤ s.view.balance sender) s := by
  rw [createAccount, wp_bind, Context.transferBalance, wp_bind]
  refine wp_mono (h.subBalance endowment) ?_ fun _ _ he => BitVec.not_le.2 he.lt
  rintro _ s₁ ⟨hle, h₁, hview₁⟩
  rw [Context.addBalance, wp_bind, wp_get, wp_bind]
  refine Context.wp_stopIf (fun _ => ?_) fun hwatch => by cases hwatch
  refine wp_mono (h₁.coherent.addBalance endowment) ?_ fun _ _ he => absurd (h₁.accountStartNonce ▸ he.startNonce) hn
  rintro _ s₂ ⟨h₂, hview₂⟩
  rw [wp_bind]
  have hstart : s₂.accountStartNonce = s.accountStartNonce := h₂.accountStartNonce.trans h₁.accountStartNonce
  refine wp_requireAccountStartNonce (fun _ => ?_) fun heq => absurd (hstart ▸ heq) hn
  rw [wp_bind]
  refine wp_mono (h₂.coherent.setNonce _ _) ?_ fun _ _ => False.elim
  rintro _ s₃ ⟨h₃, hview₃⟩
  have hview : s₃.view =
      s.view.endow s.db s.accountStartNonce (newNonce c s.accountStartNonce) sender e.newAddress endowment := by
    rw [hview₃, hview₂, hview₁, h₂.db, h₁.db, h₁.accountStartNonce, hstart]
    rfl
  rw [wp_ite]
  split
  · rename_i hinit
    exact ⟨hle, rfl, fun hne => absurd hinit hne, hview⟩
  · rw [wp_bind]
    refine wp_mono (ExtVM.wp_make h₃.coherent _) ?_ fun _ _ he => ?_
    · rintro ext s₄ ⟨rfl, -, h₄⟩
      exact ⟨hle, rfl, fun _ => ⟨_, rfl, rfl⟩, h₄.view.trans hview⟩
    · rw [hview₃] at he
      exact absurd he.2 (by simp [World.upsert])

/-- What `executeCreate` comes to, by what is there once the sender's nonce has counted. -/
theorem wp_creates (h : Coherent base s) (hn : s.accountStartNonce ≠ invalid256) (e : Executive H)
    (endowment gasPrice gas : U256) (init : Bytes) (origin : Address) {w : World H}
    (hw : w = s.view.count s.db s.accountStartNonce (counts c sender) sender) :
    wp (e.executeCreate c.program sender endowment gasPrice gas init origin)
      (fun r s' => w.Used s.accountStartNonce e.newAddress ∧ r.2.excepted = .addressAlreadyUsed ∧ s'.view = w ∨
        ¬ w.Used s.accountStartNonce e.newAddress ∧ endowment ≤ w.balance sender ∧ r.2.excepted = e.excepted ∧
          (init ≠ [] → ∃ ext, r.2.ext = some ext ∧ ext.myAddress = e.newAddress) ∧
          s'.view = w.endow s.db s.accountStartNonce (newNonce c s.accountStartNonce) sender e.newAddress endowment)
      (fun _ _ => ¬ w.Used s.accountStartNonce e.newAddress ∧ ¬ endowment ≤ w.balance sender) s := by
  rw [executeCreate, wp_bind]
  refine wp_mono (wp_count (c := c) h hn) ?_ fun _ _ => False.elim
  rintro _ s₁ ⟨h₁, hview₁⟩
  rw [← hw] at hview₁
  rw [wp_bind, wp_savepoint]
  dsimp only
  rw [wp_bind]
  refine wp_mono (wp_used h₁.coherent) ?_ fun _ _ => False.elim
  rintro exist s₂ ⟨hused, h₂⟩
  rw [hview₁, h₁.accountStartNonce] at hused
  rw [wp_ite]
  split
  · rename_i hyes
    rw [wp_bind]
    refine wp_mono (wp_revert (World.fine_eq _) h₁.coherent.base_le h₂.ext rfl) ?_ fun _ _ => False.elim
    rintro r s₃ ⟨rfl, -, hview₃, -⟩
    exact .inl ⟨hused.1 hyes, rfl, hview₃.trans hview₁⟩
  · rename_i hno
    have hview₂ : s₂.view = w := h₂.view.trans hview₁
    have hstart : s₂.accountStartNonce = s.accountStartNonce := h₂.ext.accountStartNonce.trans h₁.accountStartNonce
    have hdb : s₂.db = s.db := h₂.ext.db.trans h₁.db
    refine wp_mono (wp_endow (c := c) h₂.ext.coherent (hstart ▸ hn) endowment gasPrice init origin) ?_ fun _ _ he => ?_
    · rintro r s₃ ⟨hle, hexcepted, hext, hview₃⟩
      rw [hview₂] at hle
      rw [hview₂, hstart, hdb] at hview₃
      exact .inr ⟨fun h => hno (hused.2 h), hle, hexcepted, hext, hview₃⟩
    · rw [hview₂] at he
      exact ⟨fun h => hno (hused.2 h), he⟩

/-! ### The property -/

/-- `executeCreate` makes an account at an address that has none, and refuses one that is used. -/
structure CreatesRight (c : Context H) (s : State H) (e : Executive H) (sender : Address) (endowment gasPrice gas : U256)
    (init : Bytes) (origin : Address) : Prop where
  fresh : s.view e.newAddress = none → endowment ≤ s.view.balance sender →
    ∃ r s', e.executeCreate c.program sender endowment gasPrice gas init origin s = .ok r s' ∧
      r.2.excepted ≠ .addressAlreadyUsed ∧ (init ≠ [] → ∃ ext, r.2.ext = some ext ∧ ext.myAddress = e.newAddress) ∧
      ∃ v, s'.view e.newAddress = some v ∧ v.isAlive = true ∧ v.balance = endowment ∧ v.nonce = newNonce c s.accountStartNonce
  used : ∀ v, s.view e.newAddress = some v → v.codeHash ≠ emptySHA3 ∨ v.nonce ≠ s.accountStartNonce →
    ∃ r s', e.executeCreate c.program sender endowment gasPrice gas init origin s = .ok r s' ∧
      r.2.excepted = .addressAlreadyUsed ∧ s'.view e.newAddress = some v

/-- The new address is that of the sender, whose nonce counts. -/
def SelfCounts (c : Context H) (e : Executive H) (sender : Address) : Prop := e.newAddress = sender ∧ counts c sender = true

/-- The nonces tell whether the address is used. -/
structure NonceTells (c : Context H) (s : State H) (e : Executive H) (sender : Address) (endowment : U256) : Prop where
  fresh : s.view e.newAddress = none → endowment ≤ s.view.balance sender → s.accountStartNonce = 0 ∧ ¬ SelfCounts c e sender
  used : ∀ v, s.view e.newAddress = some v → v.codeHash ≠ emptySHA3 ∨ v.nonce ≠ s.accountStartNonce →
    (v.codeHash ≠ emptySHA3 ∨ v.nonce ≠ 0) ∧ ¬ SelfCounts c e sender

variable {endowment gasPrice gas : U256} {init : Bytes} {origin : Address}

theorem CreatesRight.nonceTells (h : Coherent base s) (hn : s.accountStartNonce ≠ invalid256) (he : e.excepted = .none)
    (hright : CreatesRight c s e sender endowment gasPrice gas init origin) : NonceTells c s e sender endowment := by
  have hcreates := wp_creates h hn e endowment gasPrice gas init origin
    (Eq.refl (s.view.count s.db s.accountStartNonce (counts c sender) sender))
  refine ⟨fun hnone hle => ?_, fun v hv hused => ?_⟩
  · obtain ⟨r, s', hrun, hexcepted, -⟩ := hright.fresh hnone hle
    have hunused := ((wp_ok hcreates hrun).resolve_left fun h => hexcepted h.2.1).1
    have hself : ¬ SelfCounts c e sender := by
      rintro ⟨rfl, hcounts⟩
      refine hunused ?_
      rw [World.Used, hcounts, World.count_self, hnone]
      right
      show s.accountStartNonce + 1 ≠ 0
      intro hzero
      refine hn ?_
      rw [invalid256]
      grind
    rw [World.Used, World.count_apply hself, hnone] at hunused
    exact ⟨not_not.1 hunused, hself⟩
  · obtain ⟨r, s', hrun, hexcepted, hview⟩ := hright.used v hv hused
    rcases wp_ok hcreates hrun with ⟨hu, -, hw⟩ | ⟨-, -, hnone, -⟩
    · rw [hw] at hview
      refine ⟨?_, ?_⟩
      · rwa [World.Used, hview] at hu
      · rintro ⟨rfl, hcounts⟩
        rw [hcounts, World.count_self, hv] at hview
        have hnonce : v.nonce + 1 = v.nonce := congrArg AccountView.nonce (Option.some_inj.1 hview)
        grind
    · rw [hexcepted, he] at hnone
      cases hnone

theorem NonceTells.createsRight (h : Coherent base s) (hn : s.accountStartNonce ≠ invalid256) (he : e.excepted = .none)
    (htells : NonceTells c s e sender endowment) : CreatesRight c s e sender endowment gasPrice gas init origin := by
  have hcreates := wp_creates h hn e endowment gasPrice gas init origin
    (Eq.refl (s.view.count s.db s.accountStartNonce (counts c sender) sender))
  refine ⟨fun hnone hle => ?_, fun v hv hused => ?_⟩
  · obtain ⟨hzero, hself⟩ := htells.fresh hnone hle
    have happly : s.view.count s.db s.accountStartNonce (counts c sender) sender e.newAddress = none :=
      (World.count_apply hself).trans hnone
    have hunused : ¬ (s.view.count s.db s.accountStartNonce (counts c sender) sender).Used
        s.accountStartNonce e.newAddress := by
      rw [World.Used, happly]
      exact not_not.2 hzero
    have hbalance : (s.view.count s.db s.accountStartNonce (counts c sender) sender).balance sender = s.view.balance sender :=
      World.balance_count
    obtain ⟨r, s', hrun, hpost⟩ := exists_ok_of_wp
      (wp_mono hcreates (fun _ _ h => h) fun _ _ herror => herror.2 (hbalance.symm ▸ hle))
    obtain ⟨-, -, hexcepted, hext, hview⟩ := hpost.resolve_left fun h => hunused h.1
    refine ⟨r, s', hrun, ?_, hext, { (AccountView.new s.db s.accountStartNonce endowment : AccountView H) with
      nonce := newNonce c s.accountStartNonce }, ?_, rfl, rfl, rfl⟩
    · rw [hexcepted, he]
      nofun
    · rw [hview, World.endow_apply happly]
  · obtain ⟨hu, hself⟩ := htells.used v hv hused
    have happly : s.view.count s.db s.accountStartNonce (counts c sender) sender e.newAddress = some v :=
      (World.count_apply hself).trans hv
    have hw : (s.view.count s.db s.accountStartNonce (counts c sender) sender).Used s.accountStartNonce e.newAddress := by
      rw [World.Used, happly]
      exact hu
    obtain ⟨r, s', hrun, hpost⟩ := exists_ok_of_wp (wp_mono hcreates (fun _ _ h => h) fun _ _ herror => herror.1 hw)
    obtain ⟨-, hexcepted, hview⟩ := hpost.resolve_right fun h => h.1 hw
    exact ⟨r, s', hrun, hexcepted, by rw [hview, happly]⟩

theorem createsRight_iff (h : Coherent base s) (hn : s.accountStartNonce ≠ invalid256) (he : e.excepted = .none) :
    CreatesRight c s e sender endowment gasPrice gas init origin ↔ NonceTells c s e sender endowment :=
  ⟨CreatesRight.nonceTells h hn he, NonceTells.createsRight h hn he⟩

theorem reachable_first (startNonce : U256) :
    Reachable 0 (preExisting startNonce (OverlayDB.empty : OverlayDB PerfectDigest) emptyTrie fun _ => 0) :=
  .preExisting OverlayDB.empty_ok

/-- The sender has 100 and endows the new contract with 40. -/
theorem createsRight_first : ∃ s : State PerfectDigest,
    addBalance 2 100 (preExisting 0 (OverlayDB.empty : OverlayDB PerfectDigest) emptyTrie fun _ => 0) = .ok () s ∧
      (s.view 1 = none ∧ (40 : U256) ≤ s.view.balance 2) ∧
      CreatesRight Frame.createContext s { newAddress := 1 } 2 40 0 0 [0] 2 := by
  have hreachable := reachable_first 0
  obtain ⟨_, s, hrun, hext, hview⟩ := exists_ok_of_wp (wp_mono (hreachable.coherent.addBalance (a := 2) 100) (fun _ _ h => h)
    fun _ _ h => absurd h.startNonce (by decide))
  have hone : s.view 1 = none := by
    rw [hview, World.credit, World.upsert, update_of_ne (by decide)]
    rfl
  have htwo : s.view.balance 2 = 100 := by
    rw [World.balance, hview, World.credit, World.upsert_of_none rfl, update_self]
    rfl
  have hstart : s.accountStartNonce = 0 := hext.accountStartNonce
  refine ⟨s, hrun, ⟨hone, by rw [htwo]; decide⟩, (createsRight_iff hext.coherent ?_ rfl).2 ⟨fun _ _ => ⟨hstart, ?_⟩, ?_⟩⟩
  · rw [hstart]
    decide
  · rintro ⟨hself, -⟩
    exact absurd hself (by decide)
  · intro v hv
    cases hone.symm.trans hv

/-- With 1 as the nonce to start with, no address is fresh. -/
theorem not_createsRight : ¬ ∀ (c : Context PerfectDigest) (base : Nat) (s : State PerfectDigest)
    (e : Executive PerfectDigest)
    (sender : Address) (endowment gasPrice gas : U256) (init : Bytes) (origin : Address), Reachable base s →
    s.accountStartNonce ≠ invalid256 → e.excepted = .none → CreatesRight c s e sender endowment gasPrice gas init origin := by
  intro hall
  have hreachable := reachable_first 1
  have hright := hall Frame.createContext 0 _ { newAddress := 1 } 2 0 0 0 [] 2 hreachable (by decide) rfl
  have hstart := ((hright.nonceTells hreachable.coherent (by decide) rfl).fresh rfl (Nat.zero_le _)).1
  exact absurd hstart (by decide)

end Executive

end Kmdx
