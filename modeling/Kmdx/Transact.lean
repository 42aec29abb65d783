import Kmdx.FailedFrame

/-!
# A whole transaction

The sender pays for the gas first and gets back what is left of it, refunds included; the author gets the
rest. So a transaction leaves the sum of all balances as it was, less what contracts that end take with
them, and nothing wraps on the way (`State.executeTransaction_conserves`): but for one addition, that of the
balance of a contract to itself (`State.not_conserves`).
-/

namespace Kmdx

open Wp State

variable {H : Type} [Digest H]

/-! ### Before the frame -/

theorem Transaction.sender_ne_monitor (t : Transaction) : t.sender ≠ .error .monitor := by
  unfold Transaction.sender
  split
  · nofun
  split
  · nofun
  split <;> nofun

namespace SealEngine

/-- No check of a transaction throws `monitor`. -/
def Quiet (x : Except Exn Unit) : Prop := x ≠ .error .monitor

theorem Quiet.bind {x : Except Exn Unit} {f : Unit → Except Exn Unit} (hx : Quiet x)
    (hf : Quiet (f ())) : Quiet (x >>= f) := by
  cases x with
  | ok u => exact hf
  | error e => exact hx

theorem Quiet.ite {p : Prop} [Decidable p] {x y : Except Exn Unit} (hx : Quiet x) (hy : Quiet y) :
    Quiet (if p then x else y) := by
  split
  exacts [hx, hy]

theorem quiet_checkLowS (t : Transaction) : Quiet t.checkLowS := by
  unfold Transaction.checkLowS
  split
  · nofun
  · exact .ite nofun nofun

theorem quiet_checkChainId (t : Transaction) (id : Int) : Quiet (t.checkChainId id) := .ite nofun nofun

omit [Digest H] in
theorem quiet_verifyTransaction (se : SealEngine) (ir : ImportRequirements) (t : Transaction)
    (header : BlockHeader H) (gasUsed : U256) : Quiet (se.verifyTransaction ir t header gasUsed) := by
  refine .bind ?_ (.ite (.ite (quiet_checkChainId t _) (quiet_checkChainId t _)) nofun)
  refine .ite nofun (.ite nofun (.ite nofun (.ite (.bind (quiet_checkLowS t) ?_) ?_)))
  · exact .ite nofun (.ite nofun nofun)
  · exact .ite nofun (.ite nofun nofun)

end SealEngine

/-! ### The steps of a transaction -/

namespace Executive
variable {c : Context H} {R : World H → World H → Prop} {base : Nat} {s : State H} {e : Executive H}

omit [Digest H] in
theorem wp_liftExcept {α : Type} {x : Except Exn α} {Q : α → State H → Prop} {E : Exn → State H → Prop}
    (hQ : ∀ a, x = .ok a → Q a s) (hE : ∀ e, x = .error e → E e s) : wp (liftExcept x) Q E s := by
  cases x with
  | ok a => exact hQ a rfl
  | error e => exact hE e rfl

/-- `e` was initialised for the transaction `t`, which was accepted. -/
structure Initialised (c : Context H) (t : Transaction) (e : Executive H) : Prop where
  tx : e.t = t
  fresh : e.Fresh
  res : e.res = some {}
  accepted : c.sealEngine.Accepted t c.envInfo.header c.envInfo.gasUsed
  baseGasRequired : e.baseGasRequired = t.baseGasRequired c.schedule
  gasCost : e.gasCost.toNat = t.gas.toNat * t.gasPrice.toNat

omit [Digest H] in
theorem liftExcept_returns {α : Type} {x : Except Exn α} : Returns (fun a => x = .ok a) (liftExcept x : StateM H α) := by
  cases x with
  | ok a => exact .pure rfl
  | error e => exact .throw e

theorem initialise_returns (t : Transaction) :
    Returns (Initialised c t) (({ res := some {} } : Executive H).initialise c t) := by
  refine liftExcept_returns.bind fun _ hv => ?_
  have hacc := SealEngine.accepted_of_verify hv
  refine .ite (fun hz => .pure ⟨rfl, ⟨rfl, rfl, rfl, rfl⟩, rfl, hacc, rfl, ?_⟩) fun _ => ?_
  · rw [(hacc.zeroSignature hz).2.1]
    rfl
  refine .bind_right fun sender => .bind_right fun nonce => .ite (fun _ => .throw _) fun _ =>
    .bind_right fun balance => .ite (fun _ => .throw _) fun hcash => ?_
  refine .pure ⟨rfl, ⟨rfl, rfl, rfl, rfl⟩, rfl, hacc, rfl, ?_⟩
  have := balance.isLt
  exact Nat.mod_eq_of_lt (by omega)

theorem wp_initialise (h : Coherent base s) (t : Transaction) :
    wp (({ res := some {} } : Executive H).initialise c t) (fun _ s' => Looks base s s')
      (fun x _ => x ≠ .monitor) s := by
  unfold initialise
  dsimp only
  rw [wp_bind]
  refine wp_liftExcept (fun _ _ => ?_) fun x hx hm => SealEngine.quiet_verifyTransaction _ _ _ _ _ (hm ▸ hx)
  rw [wp_ite]
  split
  · exact .refl h
  rw [wp_bind]
  refine wp_liftExcept (fun sender _ => ?_) fun x hx hm => t.sender_ne_monitor (hm ▸ hx)
  rw [wp_bind]
  refine wp_mono (wp_isRead isRead_getNonce h (E := fun _ _ => False)) ?_ fun _ _ => False.elim
  rintro nonce s₁ ⟨-, h₁⟩
  rw [wp_ite]
  split
  · nofun
  rw [wp_bind]
  refine wp_mono (h₁.ext.coherent.balance (E := fun _ _ => False)) ?_ fun _ _ => False.elim
  rintro balance s₂ ⟨-, h₂, hv₂⟩
  rw [wp_ite]
  split
  · nofun
  · exact h₁.trans ⟨h₂, hv₂⟩

/-- The balances that are gone because of the frame. -/
def net (e : Executive H) : Nat := if e.excepted = .none then e.burnt else 0

theorem wp_payForGas (h : Coherent base s) (hR : World.Fine s.db R) (a : Address) (x : U256) :
    wp (State.subBalance a x) (fun _ s' => Moves R base s s' x.toNat) (c.NoWrap s) s := by
  refine wp_mono (h.subBalance x) ?_ fun e s' he => .of_ne (by rw [he.exn]; nofun)
  rintro _ s' ⟨hle, hs', hv⟩
  refine ⟨hs'.weaken hR.respects, ?_, fun _ => ?_⟩
  · rw [hv]; exact World.keeps_debit x
  · rw [hv]; exact World.total_debit s.view a x hle

variable {t : Transaction}

theorem wp_execute (h : Coherent base s) (hR : ∀ db, World.Fine db R) (hi : e.Initialised c t) :
    wp (e.execute c) (fun r s' => ∃ s₁, Moves R base s s₁ (t.gas.toNat * t.gasPrice.toNat) ∧
      Begun R base (fun _ => True) s₁ r s') (c.NoWrap s) s := by
  unfold execute
  rw [wp_bind]
  refine wp_liftExcept (fun sender _ => ?_) fun x hx hm => absurd (hm ▸ hx) e.t.sender_ne_monitor
  rw [wp_bind]
  refine wp_mono (wp_payForGas h (hR _) sender e.gasCost) ?_ fun _ _ h => h
  rintro _ s₁ h₁
  have hbegun : ∀ {r : Bool × Executive H} {s' : State H} {P : State H → Prop}, Begun R base P s₁ r s' →
      ∃ s₁, Moves R base s s₁ (t.gas.toNat * t.gasPrice.toNat) ∧ Begun R base (fun _ => True) s₁ r s' := by
    rintro r s' P ⟨s₀, -, hr⟩
    exact ⟨s₁, hi.gasCost ▸ h₁, s₀, trivial, hr⟩
  rw [wp_ite]
  split
  · exact fun hm => nomatch hm
  · next hbase =>
    rw [wp_bind]
    refine c.wp_sub (BitVec.le_def.2 ?_) ?_
    · exact Nat.le_trans (Nat.mod_le ..) (Nat.le_of_not_lt hbase)
    rw [wp_ite]
    split
    · exact wp_mono (wp_createOpcode h₁.ext.coherent hR hi.fresh ..) (fun _ _ => hbegun)
        fun _ _ he => .of_moves h₁ he
    · exact wp_mono (wp_call h₁.ext.coherent hR hi.fresh ..) (fun _ _ => hbegun)
        fun _ _ he => .of_moves h₁ he

theorem execute_returns (hi : e.Initialised c t) : Returns (Prepared t t.gas) (e.execute c) := by
  have hgas : ∀ {gas : U256} {r : Bool × Executive H}, gas ≤ e.t.gas → Prepared e.t gas r →
      Prepared t t.gas r := fun hle h =>
    ⟨hi.tx ▸ BitVec.le_trans h.gas hle, hi.tx ▸ h.t, h.done, h.notDone, h.excepted, h.clean⟩
  refine .bind_right fun sender => .bind_right fun _ => .ite (fun _ => .bind (.throw _) fun _ h => h)
    fun hbase => ?_
  refine .bind (sub_returns (BitVec.le_def.2 ?_)) fun gas hle => .ite (fun _ => ?_) fun _ => ?_
  · exact Nat.le_trans (Nat.mod_le ..) (Nat.le_of_not_lt hbase)
  · exact (createOpcode_returns hi.fresh _ _ _ _ _ _).mono fun _ => hgas hle
  · exact (call_returns hi.fresh _ _ _).mono fun _ => hgas hle

variable {vm : Vm H} {r : Bool × Executive H} {s' : State H}

theorem wp_goUnless {P : State H → Prop} (hR : ∀ db, World.Fine db R) (hc : c.Clears R)
    (hvm : vm.Moves c R base) (h : Begun R base P s r s') (hdone : r.1 = true → r.2.ext = none) :
    wp (r.2.goUnless c vm r.1) (fun e t => Moves R base s t e.net) (c.NoWrap s) s' := by
  obtain ⟨s₀, -, h₀, h₁, hready⟩ := h
  unfold goUnless
  rw [wp_ite]
  split
  · next hd =>
    have hnet : r.2.net = 0 := by rw [net, burnt, hdone hd, Option.elim_none, ite_self]
    rw [wp_pure, hnet]
    exact h₀.trans (hR _) h₁
  · next hd =>
    refine wp_mono (wp_go hR hc hvm (hready (by simpa using hd)) h₀.ext.coherent.base_le) ?_
      fun _ _ he => .of_moves h₀ he
    intro e t he
    have := h₀.trans (hR _) he.moves
    rwa [Nat.zero_add] at this

/-- `e` is ready to be finalized. -/
structure Spent (t : Transaction) (e : Executive H) : Prop where
  recorded : e.Recorded
  gas : e.gas ≤ t.gas
  tx : e.t = t

theorem goUnless_returns (hr : vm.Records) (hs : vm.Spends) (hp : Prepared t t.gas r) :
    Returns (Spent t) (r.2.goUnless c vm r.1) := by
  refine .ite (fun hd => .pure ⟨?_, hp.gas, hp.t⟩) fun hd => ?_
  · exact fun _ hx => nomatch (hp.done hd).symm.trans hx
  · exact (go_returns hr hs (hp.excepted (by simpa using hd)) hp.clean).mono fun _ h =>
      ⟨h.recorded, BitVec.le_trans h.gas hp.gas, h.t.trans hp.t⟩

/-! ### After the frame -/

omit [Digest H] in
/-- What is refunded is at most half of what was spent. -/
theorem wp_refund (h : e.Spent t) {E : Exn → State H → Prop} :
    wp (e.refund c) (fun e' s' => s' = s ∧ e'.gas = e.gas ∧ e'.t = e.t ∧
      e'.refunded.toNat ≤ (t.gas.toNat - e.gas.toNat) / 2) E s := by
  unfold refund
  split
  · exact ⟨rfl, rfl, rfl, Nat.zero_le _⟩
  · rw [wp_bind]
    refine c.wp_sub (h.tx ▸ h.gas) ⟨rfl, rfl, rfl, ?_⟩
    have hspent : ((e.t.gas - e.gas) / 2).toNat = (t.gas.toNat - e.gas.toNat) / 2 := by
      rw [h.tx, BitVec.toNat_udiv, BitVec.toNat_sub_of_le h.gas]
      rfl
    dsimp only
    split
    · exact Nat.le_of_eq hspent
    · next hlt =>
      rw [BitVec.not_le] at hlt
      exact Nat.le_trans (Nat.le_of_lt (BitVec.lt_def.1 hlt)) (Nat.le_of_eq hspent)

omit [Digest H] in
theorem wp_add {x y : U256} (h : x.toNat + y.toNat < 2 ^ 256) {Q : U256 → State H → Prop}
    {E : Exn → State H → Prop} (hQ : Q (x + y) s) : wp (c.add x y) Q E s := by
  unfold Context.add
  rw [wp_bind]
  refine c.wp_stopIf (fun _ => hQ) fun _ hle => ?_
  exact absurd (of_decide_eq_true hle) (Nat.not_le.2 h)

omit [Digest H] in
theorem wp_mul {x y : U256} (h : x.toNat * y.toNat < 2 ^ 256) {Q : U256 → State H → Prop}
    {E : Exn → State H → Prop} (hQ : Q (x * y) s) : wp (c.mul x y) Q E s := by
  unfold Context.mul
  rw [wp_bind]
  refine c.wp_stopIf (fun _ => hQ) fun _ hle => ?_
  exact absurd (of_decide_eq_true hle) (Nat.not_le.2 h)

theorem wp_credit (h : Coherent base s) {a : Address} {x : U256} (hlt : s.view.total + x.toNat < 2 ^ 256) :
    wp (c.addBalance .arithmetic a x)
      (fun _ s' => Coherent base s' ∧ s'.view.total = s.view.total + x.toNat)
      (fun e _ => e ≠ .monitor) s := by
  have hle := World.balance_le_total s.view a
  refine wp_mono (c.wp_addBalance h) ?_ fun e s' he hm => ?_
  · rintro _ s' ⟨hs', hv⟩
    exact ⟨hs'.coherent, by rw [hv, World.total_credit _ _ _ _ _ (by omega)]⟩
  · have := (he hm).2
    omega

/-- What was paid for the gas goes back to the sender and on to the author. -/
theorem wp_payOut (h : Coherent base s) (hx : e.t = t) (hgas : e.gas ≤ t.gas) (hnull : t.isNull = false)
    (hlt : s.view.total + t.gas.toNat * t.gasPrice.toNat < 2 ^ 256) :
    wp (e.payOut c) (fun _ s' => Coherent base s' ∧
        s'.view.total = s.view.total + t.gas.toNat * t.gasPrice.toNat)
      (fun x _ => x ≠ .monitor) s := by
  have hle : e.gas.toNat ≤ t.gas.toNat := BitVec.le_def.1 hgas
  have hsum : e.gas.toNat * t.gasPrice.toNat + (t.gas.toNat - e.gas.toNat) * t.gasPrice.toNat =
      t.gas.toNat * t.gasPrice.toNat := by
    rw [← Nat.add_mul, Nat.add_sub_cancel' hle]
  have hspent : (t.gas - e.gas).toNat = t.gas.toNat - e.gas.toNat := BitVec.toNat_sub_of_le hgas
  have hleft : (e.gas * t.gasPrice).toNat = e.gas.toNat * t.gasPrice.toNat := by
    rw [BitVec.toNat_mul, Nat.mod_eq_of_lt (by omega)]
  have hearned : ((t.gas - e.gas) * t.gasPrice).toNat = (t.gas.toNat - e.gas.toNat) * t.gasPrice.toNat := by
    rw [BitVec.toNat_mul, hspent, Nat.mod_eq_of_lt (by omega)]
  unfold payOut
  rw [hx, hnull, if_neg Bool.false_ne_true, wp_bind]
  refine wp_liftExcept (fun sender _ => ?_) fun x hs hm => t.sender_ne_monitor (hm ▸ hs)
  rw [wp_bind]
  refine wp_mul (by omega) ?_
  rw [wp_bind]
  refine wp_mono (wp_credit h (by omega)) ?_ fun _ _ h => h
  rintro _ s₁ ⟨h₁, ht₁⟩
  rw [wp_bind]
  refine c.wp_sub hgas ?_
  rw [wp_bind]
  refine wp_mul (by rw [hspent]; omega) ?_
  refine wp_mono (wp_credit h₁ (by omega)) ?_ fun _ _ h => h
  rintro _ s₂ ⟨h₂, ht₂⟩
  exact ⟨h₂, by omega⟩

theorem wp_settle (h : Coherent base s) (he : e.Spent t) (hnull : t.isNull = false)
    (hlt : s.view.total + t.gas.toNat * t.gasPrice.toNat < 2 ^ 256) :
    wp (e.settle c) (fun _ s' => Coherent base s' ∧
        s'.view.total = s.view.total + t.gas.toNat * t.gasPrice.toNat)
      (fun x _ => x ≠ .monitor) s := by
  have hle : e.gas.toNat ≤ t.gas.toNat := BitVec.le_def.1 he.gas
  have hgas := t.gas.isLt
  unfold settle
  rw [wp_bind]
  refine wp_mono (wp_refund he (E := fun _ _ => False)) ?_ fun _ _ => False.elim
  rintro e' _ ⟨rfl, hg, ht, hr⟩
  rw [wp_bind]
  refine wp_add (by rw [hg]; omega) (wp_payOut h (ht.trans he.tx) (BitVec.le_def.2 ?_) hnull hlt)
  show (e'.gas + e'.refunded).toNat ≤ _
  rw [hg, BitVec.toNat_add, Nat.mod_eq_of_lt (by omega)]
  omega

/-- The balances of these accounts. -/
def sumOf (w : World H) (l : List Address) : Nat := (l.map fun a => (w.balance a).toNat).sum

/-- What is killed takes its balance with it. -/
theorem wp_killAll (h : Coherent base s) (l : List Address) (hl : l.Nodup) {E : Exn → State H → Prop} :
    wp (killAll l) (fun _ s' => s'.view.total + sumOf s.view l = s.view.total) E s := by
  induction l generalizing base s with
  | nil => exact Nat.add_zero s.view.total
  | cons a l ih =>
    obtain ⟨ha, hl⟩ := List.nodup_cons.1 hl
    unfold killAll
    rw [wp_bind]
    refine wp_mono (h.kill (E := fun _ _ => False)) ?_ fun _ _ => False.elim
    rintro _ s₁ ⟨h₁, -, -, -, -, hv⟩
    refine wp_mono (ih h₁ hl) ?_ fun _ _ h => h
    intro _ s' hs'
    have hrest : sumOf s₁.view l = sumOf s.view l := by
      refine congrArg List.sum (List.map_congr_left fun b hb => ?_)
      rw [hv, World.balance_update, if_neg fun h : b = a => ha (h ▸ hb)]
    have htotal := World.total_update s.view a ((s.view a).map fun _ => Account.dead.view s.db)
    have hzero : ((s.view a).map fun _ => Account.dead.view s.db).elim 0 (·.balance) = (0 : U256) := by
      cases s.view a <;> rfl
    rw [hzero, ← hv] at htotal
    have hz : (0 : U256).toNat = 0 := rfl
    rw [sumOf, List.map_cons, List.sum_cons]
    rw [hrest, sumOf] at hs'
    omega

/-- The gas of the transaction, after the refund. -/
theorem finalize_returns (he : e.Spent t) : Returns (fun r => r.2.t = t ∧ ∃ refunded : U256,
    refunded.toNat ≤ (t.gas.toNat - e.gas.toNat) / 2 ∧ r.2.gas.toNat = e.gas.toNat + refunded.toNat)
    (e.finalize c) := by
  have hle : e.gas.toNat ≤ t.gas.toNat := BitVec.le_def.1 he.gas
  have hgas := t.gas.isLt
  have hrefund : Returns (fun e' => e'.gas = e.gas ∧ e'.t = e.t ∧
      e'.refunded.toNat ≤ (t.gas.toNat - e.gas.toNat) / 2) (e.refund c) :=
    fun e' s s' h => (wp_ok (wp_refund he (E := fun _ _ => True)) h).2
  refine hrefund.bind fun e' h => ?_
  refine .bind (P := fun gas => gas = e'.gas + e'.refunded) (.bind_right fun _ => .pure rfl) fun gas hg =>
    .bind_right fun _ => .bind (P := fun e'' => e''.t = e'.t ∧ e''.gas = gas) ?_ fun e'' h'' => .pure ?_
  · unfold takeSubState
    split
    · exact .pure ⟨rfl, rfl⟩
    · exact .bind_right fun _ => .pure ⟨rfl, rfl⟩
  · refine ⟨h''.1.trans (h.2.1.trans he.tx), e'.refunded, h.2.2, ?_⟩
    show e''.gas.toNat = _
    rw [h''.2, hg, h.1, BitVec.toNat_add, Nat.mod_eq_of_lt (by omega)]

theorem wp_takeSubState (h : Coherent base s) : wp e.takeSubState (fun _ _ => True) (fun x _ => x ≠ .monitor) s := by
  unfold takeSubState
  split
  · exact trivial
  · rw [wp_bind]
    exact wp_mono (wp_killAll h _ (Finset.sort_nodup ..)) (fun _ _ _ => trivial) fun _ _ => id

end Executive

/-! ### The transaction -/

namespace Watch

/-- Additions, subtractions and products that wrap. -/
def arithmeticOnly : Watch → Bool
  | .arithmetic => true
  | _ => false

/-- The same in a contract that ends in its own favour. -/
def allArithmetic : Watch → Bool
  | .arithmetic | .ownBeneficiary => true
  | _ => false

end Watch

namespace State
variable {c : Context H} {base : Nat} {s s' : State H} {t : Transaction}

omit [Digest H] in
theorem onlyArithmetic (c : Context H) : (c.watching Watch.arithmeticOnly).OnlyArithmetic := by
  intro w hw
  cases w <;> first | rfl | cases hw

omit [Digest H] in
theorem clears_sameButStorage (c : Context H) : c.Clears World.SameButStorage := .inr fun _ _ h => h

theorem wp_finalize {e : Executive H} (h : Coherent base s) (he : e.Spent t) (hnull : t.isNull = false)
    (hlt : s.view.total + t.gas.toNat * t.gasPrice.toNat < 2 ^ 256) :
    wp (e.finalize c) (fun _ _ => True) (fun x _ => x ≠ .monitor) s := by
  have hle : e.gas.toNat ≤ t.gas.toNat := BitVec.le_def.1 he.gas
  have hgas := t.gas.isLt
  unfold Executive.finalize
  rw [wp_bind]
  refine wp_mono (Executive.wp_refund he (E := fun _ _ => False)) ?_ fun _ _ => False.elim
  rintro e' _ ⟨rfl, hg, ht, hr⟩
  rw [wp_bind]
  refine Executive.wp_add (by rw [hg]; omega) ?_
  dsimp only
  rw [wp_bind]
  refine wp_mono (Executive.wp_payOut h (ht.trans he.tx) (BitVec.le_def.2 ?_) hnull hlt) ?_ fun _ _ h => h
  · show (e'.gas + e'.refunded).toNat ≤ _
    rw [hg, BitVec.toNat_add, Nat.mod_eq_of_lt (by omega)]
    omega
  · rintro _ s₁ ⟨h₁, -⟩
    rw [wp_bind]
    exact wp_mono (Executive.wp_takeSubState h₁) (fun _ _ _ => trivial) fun _ _ h => h

/-- A run that is watched for arithmetic is not stopped. -/
theorem wp_executeTransaction (hc : c.OnlyArithmetic) (h : Coherent base s) (hlt : s.view.total < 2 ^ 256)
    (hnull : t.isNull = false) (script : Script) (hn : script.noBlockHash = true) :
    wp (executeTransaction c (script.run c) { res := some {} } t) (fun _ _ => True)
      (fun x _ => x ≠ .monitor) s := by
  have hR := World.fine_sameButStorage (H := H)
  have hne : ∀ {s : State H} {x : Exn} {s' : State H}, s.view.total < 2 ^ 256 → c.NoWrap s x s' → x ≠ .monitor :=
    fun hlt hx hm => absurd (hx hm hc) (Nat.not_le.2 hlt)
  unfold executeTransaction
  rw [wp_bind]
  refine wp_mono (wp_run (Executive.wp_initialise h t)) ?_ fun _ _ h => h
  rintro e₁ s₁ ⟨hinit, h₁⟩
  have hi := Executive.initialise_returns t _ _ _ hinit
  have hlt₁ : s₁.view.total < 2 ^ 256 := by rw [h₁.view]; exact hlt
  rw [wp_bind]
  refine wp_mono (wp_run (Executive.wp_execute h₁.ext.coherent hR hi)) ?_ fun _ _ => hne hlt₁
  rintro r s₂ ⟨hrun, s₁', hpaid, hbegun⟩
  have hprep := Executive.execute_returns hi _ _ _ hrun
  have hpay := hpaid.total hlt₁
  rw [wp_bind]
  refine wp_mono (wp_run (Executive.wp_goUnless hR (clears_sameButStorage c)
    (script.run_moves hR (clears_sameButStorage c) (.inr hn)) hbegun hprep.done)) ?_
    fun _ _ => hne (by omega)
  rintro e₃ s₃ ⟨hgo, hm⟩
  have hspent := Executive.goUnless_returns script.run_records script.run_spends hprep _ _ _ hgo
  have hnet := hm.total (by omega)
  exact wp_finalize hm.ext.coherent hspent hnull (by omega)

/-- What is debited for the gas is credited, and otherwise the balances add up to what they did, less what
contracts that name themselves had, and less what the killed accounts have; and nothing wraps. -/
theorem executeTransaction_conserves (c : Context H) (script : Script) (t : Transaction)
    (h : Reachable base s) (hlt : s.view.total < 2 ^ 256) (hnull : t.isNull = false)
    (hn : script.noBlockHash = true) :
    eval (executeTransaction (c.watching Watch.arithmeticOnly)
      (script.run (c.watching Watch.arithmeticOnly)) { res := some {} } t) s ≠ .error .monitor ∧
    ∀ r s', executeTransaction c.program (script.run c.program) { res := some {} } t s = .ok r s' →
      ∃ (e₁ e₃ : Executive H) (begun : Bool × Executive H) (s₁ s₂ s₃ s₄ : State H),
        ({ res := some {} } : Executive H).initialise c.program t s = .ok e₁ s₁ ∧
        e₁.execute c.program s₁ = .ok begun s₂ ∧
        begun.2.goUnless c.program (script.run c.program) begun.1 s₂ = .ok e₃ s₃ ∧
        e₃.finalize c.program s₃ = .ok r s' ∧
        s₃.view.total + e₁.gasCost.toNat + e₃.net = s.view.total ∧
        e₁.gasCost.toNat = t.gas.toNat * t.gasPrice.toNat ∧
        e₃.settle c.program s₃ = .ok () s₄ ∧
        Executive.killAll (e₃.collected.suicides.sort (· ≤ ·)) s₄ = .ok () s' ∧
        s₄.view.total = s₃.view.total + e₁.gasCost.toNat ∧
        s'.view.total + Executive.sumOf s₄.view (e₃.collected.suicides.sort (· ≤ ·)) = s₄.view.total := by
  have hR := World.fine_sameButStorage (H := H)
  refine ⟨fun hm => ?_, fun r s' hrun => ?_⟩
  · have hwp := wp_executeTransaction (onlyArithmetic c) h.coherent hlt hnull script hn
    unfold eval at hm
    split at hm
    · cases hm
    · next he =>
      cases hm
      exact wp_error hwp he rfl
  · obtain ⟨e₁, s₁, hinit, hrun⟩ := exists_of_bind_ok hrun
    obtain ⟨begun, s₂, hexec, hrun⟩ := exists_of_bind_ok hrun
    obtain ⟨e₃, s₃, hgo, hfin⟩ := exists_of_bind_ok hrun
    have h₁ := wp_ok (Executive.wp_initialise h.coherent t) hinit
    have hi := Executive.initialise_returns t _ _ _ hinit
    obtain ⟨s₁', hpaid, hbegun⟩ := wp_ok (Executive.wp_execute h₁.ext.coherent hR hi) hexec
    have hprep := Executive.execute_returns hi _ _ _ hexec
    have hm := wp_ok (Executive.wp_goUnless hR (clears_sameButStorage _)
      (script.run_moves hR (clears_sameButStorage _) (.inr hn)) hbegun hprep.done) hgo
    have hspent := Executive.goUnless_returns script.run_records script.run_spends hprep _ _ _ hgo
    obtain ⟨s₄, hsettle, hkill, -⟩ := Executive.finalize_ok hspent.recorded hfin
    have hlt₁ : s₁.view.total < 2 ^ 256 := by rw [h₁.view]; exact hlt
    have hpay := hpaid.total hlt₁
    have hnet := hm.total (by omega)
    obtain ⟨h₄, hback⟩ := wp_ok (Executive.wp_settle hm.ext.coherent hspent hnull (by omega)) hsettle
    have hgone := wp_ok (Executive.wp_killAll h₄ _ (Finset.sort_nodup ..) (E := fun _ _ => False)) hkill
    rw [h₁.view] at hpay
    have hcost := hi.gasCost
    exact ⟨e₁, e₃, begun, s₁, s₂, s₃, s₄, hinit, hexec, hgo, hfin, by omega, hcost, hsettle, hkill,
      by omega, hgone⟩

/-! ### A contract that ends in its own favour -/

/-- A contract at 1 with half of all there can be. -/
noncomputable def richContract : OverlayDB PerfectDigest where
  codes _ := [0xff]
  storageTries _ _ := 0
  stateTries _ a := if a = 1 then some ⟨0, BitVec.ofNat 256 (2 ^ 255), emptyTrie, sha3 [0xff]⟩ else none

noncomputable def callContext : Context PerfectDigest where
  envInfo := { Frame.createContext.envInfo with
    header := { Frame.createContext.envInfo.header with gasLimit := 21000 } }
  sealEngine := Frame.createContext.sealEngine

def callTransaction : Transaction where
  type := .messageCall
  receiveAddress := 1
  gas := 21000
  vrs := some ⟨0, 0, 0⟩

theorem richContract_ok : richContract.Ok := by
  constructor
  · intro root a r hr
    obtain ⟨rfl, rfl⟩ : a = 1 ∧ _ = r := by simpa [richContract] using hr
    exact OverlayDB.has_emptyTrie _
  · intro root a r hr
    obtain ⟨rfl, rfl⟩ : a = 1 ∧ _ = r := by simpa [richContract] using hr
    exact .inr rfl

theorem total_richContract :
    (preExisting (H := PerfectDigest) 0 richContract emptyTrie fun _ => 0).view.total < 2 ^ 256 := by
  have hview : (preExisting (H := PerfectDigest) 0 richContract emptyTrie fun _ => 0).view =
      Function.update (fun _ => none) (1 : Address)
        (some (AccountRlp.view richContract ⟨0, BitVec.ofNat 256 (2 ^ 255), emptyTrie, sha3 [0xff]⟩)) := by
    funext a
    rw [view_of_not_cached rfl fun h => absurd h (Finset.notMem_empty a)]
    by_cases ha : a = 1
    · rw [ha, Function.update_self]; rfl
    · rw [Function.update_of_ne ha]
      exact congrArg _ (if_neg ha)
  have hnone : World.total (fun _ => none : World PerfectDigest) = 0 := Finset.sum_eq_zero fun _ _ => rfl
  have h := World.total_update (fun _ => none : World PerfectDigest) 1
    (some (AccountRlp.view richContract ⟨0, BitVec.ofNat 256 (2 ^ 255), emptyTrie, sha3 [0xff]⟩))
  rw [hnone] at h
  have hb : ((some (AccountRlp.view richContract ⟨0, BitVec.ofNat 256 (2 ^ 255), emptyTrie,
    (sha3 [0xff] : PerfectDigest)⟩)).elim 0 (·.balance) : U256).toNat = 2 ^ 255 := rfl
  rw [hview]
  omega

/-- The contract is called and ends: its balance is added to itself. -/
theorem own_balance_wraps (c : Context PerfectDigest)
    (hv : c.sealEngine.verifyTransaction .everything callTransaction c.envInfo.header c.envInfo.gasUsed = .ok ())
    (hbase : callTransaction.baseGasRequired c.schedule = 21000)
    (hpre : c.sealEngine.precompiledAt 1#160 c.number = none)
    (hcount : ¬ c.number < c.params.constantinopleForkBlock) (hw : c.monitor = Watch.allArithmetic) :
    ∃ s', executeTransaction c ((Script.suicide 1 (.stop [] 0)).run c) { res := some {} } callTransaction
      (preExisting 0 richContract emptyTrie fun _ => 0) = .error .monitor s' := by
  have hsender : callTransaction.sender = .ok maxAddress := rfl
  have hz : callTransaction.hasZeroSignature = true := rfl
  have hg : callTransaction.gas = 21000 := rfl
  have hcr : callTransaction.isCreation = false := rfl
  have hat : ∀ a root, richContract.stateTries root a = if a = 1#160 then
      some ⟨0, BitVec.ofNat 256 (2 ^ 255), emptyTrie, sha3 [0xff]⟩ else none := fun a root => rfl
  have hcodes : ∀ h, richContract.codes h = [0xff] := fun _ => rfl
  have hne : (sha3 [0xff] : PerfectDigest) ≠ emptySHA3 := fun h => by
    cases PerfectDigest.sha3_injective h
  have hroot : rootContractAddress = 1#160 ↔ False := by decide
  have hroot' : 1#160 = rootContractAddress ↔ False := by decide
  have hone : ∀ {K V : Type} [DecidableEq K] (k : K) (v : V),
      (AList.singleton k v : AList fun _ : K => V).lookup k = some v :=
    fun {K V} _ k v => @List.dlookup_cons_eq K (fun _ => V) _ [] k v
  have hinit : ({ res := some {} } : Executive PerfectDigest).initialise c callTransaction
      (preExisting 0 richContract emptyTrie fun _ => 0) =
      .ok { res := some {}, t := callTransaction, baseGasRequired := 21000 }
        (preExisting 0 richContract emptyTrie fun _ => 0) := by
    simp [Executive.initialise, hv, hz, hbase, liftExcept, run_pure]
  rw [executeTransaction, run_bind, hinit]
  simp [Executive.execute, liftExcept, hsender, hcr, hg, State.subBalance, Context.sub, Context.stopIf,
    run_bind]
  simp [callTransaction, Transaction.isNull, Executive.call, Executive.countTransaction,
    Executive.countNonce, Executive.prepareCall, Executive.callContract, Executive.goUnless, Executive.go,
    Executive.goCall, Executive.exec, Executive.uncaught, NativeManager.isNativeContract,
    NativeStorage.getData, NativeStorage.getWord, Script.run, ExtVM.make, ExtVM.suicide,
    Context.transferBalance, Context.addBalance, Context.stopIf, Watch.allArithmetic, hcount, hpre, hw,
    State.savepoint, State.storage, State.addressHasCode, State.addressInUse, State.code, State.codeHash,
    State.balance, State.addBalance, State.subBalance, State.put, State.clearCacheIfTooLarge, State.purge,
    preExisting, State.trieAt, State.view, State.peek, State.load, account_run, World.balance,
    Account.ofRlp, Account.dead, Account.noteCode, Account.isDirty, Account.isEmpty, Account.addBalance,
    Account.changed, Account.view, hat, hcodes, hne, hroot, hroot', hone, run_bind, run_pure, run_map,
    run_get, run_modify, run_throw, run_tryCatch]

theorem not_conserves : ¬ ∀ (c : Context PerfectDigest) (script : Script) (t : Transaction) (base : Nat)
    (s : State PerfectDigest), Reachable base s → s.view.total < 2 ^ 256 → t.isNull = false →
    script.noBlockHash = true → eval (executeTransaction (c.watching Watch.allArithmetic)
      (script.run (c.watching Watch.allArithmetic)) { res := some {} } t) s ≠ .error .monitor := by
  intro hall
  obtain ⟨s', hs'⟩ := own_balance_wraps (callContext.watching Watch.allArithmetic) rfl rfl rfl (by decide) rfl
  refine hall callContext (.suicide 1 (.stop [] 0)) callTransaction 0 _ (.preExisting richContract_ok)
    total_richContract rfl rfl ?_
  rw [eval, hs']

/-- The same transaction: but for that addition, nothing wraps. -/
theorem executeTransaction_conserves_call :
    eval (executeTransaction (callContext.watching Watch.arithmeticOnly)
      ((Script.suicide 1 (.stop [] 0)).run (callContext.watching Watch.arithmeticOnly))
      { res := some {} } callTransaction) (preExisting 0 richContract emptyTrie fun _ => 0) ≠ .error .monitor :=
  (executeTransaction_conserves callContext (.suicide 1 (.stop [] 0)) callTransaction
    (.preExisting richContract_ok) total_richContract rfl rfl).1

end State

end Kmdx
