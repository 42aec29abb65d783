import Mathlib.Algebra.BigOperators.Group.Finset.Basic
import Mathlib.Data.FinEnum
import Kmdx.Rollback

/-!
# The sum of all balances

`World.total` adds the balances up as natural numbers, so a change that wraps would show. Each change
of a world that the mutators make has its effect on the total here.
-/

namespace Kmdx

open UndoLog Function

variable {H : Type}

/-- An account without its words. -/
def AccountView.dropStorage (v : AccountView H) : AccountView H := { v with storage := fun _ => 0 }

namespace World

/-- The sum of the balances of all accounts. -/
def total (w : World H) : Nat := ∑ a : Address, (w.balance a).toNat

variable {w w' : World H} {a : Address}

theorem total_congr (h : ∀ a, w.balance a = w'.balance a) : w.total = w'.total :=
  Finset.sum_congr rfl fun a _ => by rw [h]

theorem balance_update (o : Option (AccountView H)) (b : Address) :
    World.balance (update w a o) b = if b = a then o.elim 0 (·.balance) else w.balance b := by
  unfold World.balance
  split
  · next h => rw [h, update_self]
  · next h => rw [update_of_ne h]

/-- One account is exchanged for another. -/
theorem total_update (w : World H) (a : Address) (o : Option (AccountView H)) :
    total (update w a o) + (w.balance a).toNat =
      w.total + (o.elim 0 (·.balance) : U256).toNat := by
  unfold total
  have h : ∀ v : World H, ∑ b : Address, (v.balance b).toNat =
      (v.balance a).toNat + ∑ b ∈ Finset.univ.erase a, (v.balance b).toNat :=
    fun v => (Finset.add_sum_erase _ _ (Finset.mem_univ a)).symm
  have hrest : ∑ b ∈ Finset.univ.erase a, (World.balance (update w a o) b).toNat =
      ∑ b ∈ Finset.univ.erase a, (w.balance b).toNat :=
    Finset.sum_congr rfl fun b hb => by rw [balance_update, if_neg (Finset.ne_of_mem_erase hb)]
  rw [h w, h (update w a o), hrest, balance_update, if_pos rfl]
  omega

theorem total_update_none (w : World H) (a : Address) :
    total (update w a none) + (w.balance a).toNat = w.total := by
  simpa using total_update w a none

theorem balance_le_total (w : World H) (a : Address) : (w.balance a).toNat ≤ w.total := by
  have := total_update_none w a
  omega

/-- Two balances, of two accounts. -/
theorem balance_add_balance_le_total (w : World H) {a b : Address} (h : a ≠ b) :
    (w.balance a).toNat + (w.balance b).toNat ≤ w.total := by
  have ha := total_update_none w a
  have hb := balance_le_total (update w a none) b
  rw [balance_update, if_neg (Ne.symm h)] at hb
  omega

variable [Digest H]

theorem balance_credit (db : OverlayDB H) (n : U256) (w : World H) (a : Address) (x : U256) (b : Address) :
    (w.credit db n a x).balance b = if b = a then w.balance a + x else w.balance b := by
  rw [credit, upsert, balance_update]
  split
  · cases h : w a <;> simp [World.balance, h, AccountView.new, Account.view, Account.mk']
  · rfl

omit [Digest H] in
theorem balance_debit (w : World H) (a : Address) (x : U256) (hx : x ≤ w.balance a) (b : Address) :
    (w.debit a x).balance b = if b = a then w.balance a - x else w.balance b := by
  rw [debit, balance_update]
  split
  · cases h : w a with
    | none =>
      have h0 : w.balance a = 0 := by rw [World.balance, h]; rfl
      rw [h0] at hx ⊢
      rw [BitVec.le_zero_iff.1 hx]
      rfl
    | some v => simp [World.balance, h]
  · rfl

/-- Adding an amount that the balance has room for. -/
theorem total_credit (db : OverlayDB H) (n : U256) (w : World H) (a : Address) (x : U256)
    (h : (w.balance a).toNat + x.toNat < 2 ^ 256) : (w.credit db n a x).total = w.total + x.toNat := by
  have hle := balance_le_total w a
  have ht := total_update w a (some ((w a).elim (.new db n x) fun v => { v with balance := v.balance + x }))
  have hb : ((w a).elim (AccountView.new db n x) fun v => { v with balance := v.balance + x }).balance =
      w.balance a + x := by
    have := balance_credit db n w a x a
    rwa [if_pos rfl, credit, upsert, balance_update, if_pos rfl] at this
  rw [Option.elim_some, hb, BitVec.toNat_add, Nat.mod_eq_of_lt (by omega)] at ht
  show total (update w a _) = _
  omega

omit [Digest H] in
theorem total_debit (w : World H) (a : Address) (x : U256) (hx : x ≤ w.balance a) :
    (w.debit a x).total + x.toNat = w.total := by
  have ht := total_update w a ((w a).map fun v => { v with balance := v.balance - x })
  have hb : ((w a).map fun v => ({ v with balance := v.balance - x } : AccountView H)).elim 0 (·.balance) =
      w.balance a - x := by
    have := balance_debit w a x hx a
    rwa [if_pos rfl, debit, balance_update, if_pos rfl] at this
  rw [hb, BitVec.toNat_sub_of_le hx] at ht
  have := BitVec.le_def.1 hx
  show total (update w a _) + _ = _
  omega

omit [Digest H] in
/-- A change of an account that leaves the balance, or a new account without one. -/
theorem balance_upsert {f : AccountView H → AccountView H} {new : AccountView H}
    (hf : ∀ v, (f v).balance = v.balance) (hnew : new.balance = 0) (b : Address) :
    (w.upsert a f new).balance b = w.balance b := by
  rw [upsert, balance_update]
  split
  · next h =>
    subst h
    cases hw : w b with
    | none => simp [World.balance, hw, hnew]
    | some v => simp [World.balance, hw, hf]
  · rfl

/-! ### Accounts that stay -/

/-- What exists in `w` exists in `w'`. -/
def Keeps (w w' : World H) : Prop := ∀ a, (w a).isSome → (w' a).isSome

omit [Digest H] in
theorem keeps_refl (w : World H) : w.Keeps w := fun _ h => h

omit [Digest H] in
theorem Keeps.trans {w'' : World H} (h : w.Keeps w') (h' : w'.Keeps w'') : w.Keeps w'' :=
  fun a ha => h' a (h a ha)

omit [Digest H] in
theorem keeps_update_some (v : AccountView H) : w.Keeps (update w a (some v)) := by
  intro b hb
  by_cases h : b = a
  · rw [h, update_self]; rfl
  · rwa [update_of_ne h]

omit [Digest H] in
theorem keeps_upsert (f : AccountView H → AccountView H) (new : AccountView H) :
    w.Keeps (w.upsert a f new) := keeps_update_some _

omit [Digest H] in
theorem keeps_debit (x : U256) : w.Keeps (w.debit a x) := by
  intro b hb
  by_cases h : b = a
  · subst h; rw [debit, update_self, Option.isSome_map]; exact hb
  · rwa [debit, update_of_ne h]

omit [Digest H] in
theorem isSome_upsert (f : AccountView H → AccountView H) (new : AccountView H) :
    ((w.upsert a f new) a).isSome := by
  rw [upsert, update_self]; rfl

/-! ### Up to storage -/

/-- The same accounts, whatever their words. -/
def SameButStorage (w w' : World H) : Prop :=
  ∀ a, (w a).map AccountView.dropStorage = (w' a).map AccountView.dropStorage

theorem SameButStorage.respects (db : OverlayDB H) : World.Respects db SameButStorage where
  refl _ _ := rfl
  trans h h' a := (h a).trans (h' a)
  undo c w w' h a := by
    unfold World.undo
    by_cases hb : a = c.address
    · subst hb
      rw [update_self, update_self]
      have ha := h c.address
      revert ha
      cases w c.address <;> cases w' c.address
      · exact fun _ => rfl
      · rintro ⟨⟩
      · rintro ⟨⟩
      · next v v' =>
        intro ha
        have hv := Option.some.inj ha
        cases c <;> simp_all [Change.undo, AccountView.undo, AccountView.dropStorage]
    · rw [update_of_ne hb, update_of_ne hb]; exact h a

/-- What relates worlds closely enough for the balances to be the same. -/
structure Fine (db : OverlayDB H) (R : World H → World H → Prop) : Prop where
  respects : World.Respects db R
  balance : ∀ {w w'}, R w w' → ∀ a, w.balance a = w'.balance a
  isSome : ∀ {w w'}, R w w' → ∀ a, (w a).isSome = (w' a).isSome

theorem fine_eq (db : OverlayDB H) : Fine db Eq :=
  ⟨.eq _, fun h _ => by rw [h], fun h _ => by rw [h]⟩

theorem fine_sameButStorage (db : OverlayDB H) : Fine db SameButStorage where
  respects := SameButStorage.respects db
  balance h a := by
    have hdrop : ∀ o : Option (AccountView H),
        o.elim (0 : U256) (·.balance) = (o.map AccountView.dropStorage).elim 0 (·.balance) := by
      rintro (_ | v) <;> rfl
    rw [World.balance, hdrop, h a, ← hdrop]
    rfl
  isSome h a := by
    have := congrArg Option.isSome (h a)
    simpa using this

end World

end Kmdx
