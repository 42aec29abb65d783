import Kmdx.Transact

/-!
# Estimating gas (`ClientBase::estimateGas`)

The transaction is executed with amounts of gas between a lower and an upper bound, and each time one of them is
moved to the middle, or onto the other one if it is there already. The upper bound is good as soon as it has been
moved, the lower one is not (`Bounds.Inv`), so they meet where the executions change from one to the other.
-/

namespace Kmdx.ClientBase

open Wp

variable {H : Type} [Digest H]

/-- `c_maxGasEstimate` -/
def maxGasEstimate : Int := 50000000

/-- The arguments of `estimateGas`. -/
structure GasQuery where
  sender : Address
  value : U256
  dest : Address
  data : Bytes
  maxGas : Int
  gasPrice : U256

/-- What `estimateGas` asks its client for: `block(_blockNumber)` (its state and its header), the chain and the price. -/
structure Client (H : Type) where
  state : State H
  info : BlockHeader H
  precedingHashes : H → List U256
  sealEngine : SealEngine
  gasBidPrice : U256
  /-- The virtual machine. -/
  vm : Context H → Vm H

/-! ### The bounds -/

structure Bounds where
  lower : Int
  upper : Int

namespace Bounds

def mid (b : Bounds) : Int := (b.lower + b.upper).tdiv 2

/-- The middle was too little gas. -/
def raise (b : Bounds) : Bounds := { b with lower := if b.lower = b.mid then b.upper else b.mid }

def reduce (b : Bounds) : Bounds := { b with upper := if b.upper = b.mid then b.lower else b.mid }

def size (b : Bounds) : Nat := (b.upper - b.lower).natAbs

/-- The middle is between the bounds, whichever is the greater one. -/
theorem mid_mem (b : Bounds) :
    b.lower ≤ b.upper ∧ b.lower ≤ b.mid ∧ b.mid ≤ b.upper ∨ b.upper ≤ b.lower ∧ b.upper ≤ b.mid ∧ b.mid ≤ b.lower := by
  rcases le_total 0 (b.lower + b.upper) with hsum | hsum
  · have hmid : b.mid = (b.lower + b.upper) / 2 := Int.tdiv_eq_ediv_of_nonneg hsum
    omega
  · have hmid : b.mid = -(-(b.lower + b.upper) / 2) := by
      rw [mid, ← Int.tdiv_eq_ediv_of_nonneg (Int.neg_nonneg.2 hsum), Int.neg_tdiv, Int.neg_neg]
    omega

theorem size_raise {b : Bounds} (h : b.upper ≠ b.lower) : b.raise.size < b.size := by
  have hmid := b.mid_mem
  by_cases hlower : b.lower = b.mid
  · rw [raise, if_pos hlower]
    change (b.upper - b.upper).natAbs < (b.upper - b.lower).natAbs
    omega
  · rw [raise, if_neg hlower]
    change (b.upper - b.mid).natAbs < (b.upper - b.lower).natAbs
    omega

theorem size_reduce {b : Bounds} (h : b.upper ≠ b.lower) : b.reduce.size < b.size := by
  have hmid := b.mid_mem
  by_cases hupper : b.upper = b.mid
  · rw [reduce, if_pos hupper]
    change (b.lower - b.lower).natAbs < (b.upper - b.lower).natAbs
    omega
  · rw [reduce, if_neg hupper]
    change (b.mid - b.lower).natAbs < (b.upper - b.lower).natAbs
    omega

end Bounds

/-! ### `estimateGas` -/

/-- What the loop takes for too little gas (and `OutOfGasIntrinsic`, which no execution returns: it is thrown). -/
def tooLittleGas (er : ExecutionResult) : Bool :=
  match er.excepted, er.codeDeposit with
  | .outOfGas, _ => true
  | .outOfGasBase, _ => true
  | .badJumpDestination, _ => true
  | _, .failed => true
  | _, _ => false

namespace Client

def gasPrice (cl : Client H) (q : GasQuery) : U256 :=
  if q.gasPrice = invalid256 then cl.gasBidPrice else q.gasPrice

/-- The transaction with `mid` gas, and `m_sender` forced. -/
def transaction (cl : Client H) (q : GasQuery) (mid : Int) (n : U256) : Transaction where
  type := if q.dest ≠ 0 then .messageCall else .contractCreation
  nonce := n
  value := q.value
  receiveAddress := q.dest
  gasPrice := cl.gasPrice q
  gas := BitVec.ofInt 256 mid
  data := q.data
  forcedSender := q.sender

/-- `EnvInfo env(bk.info(), bc().lastBlockHashes(), 0, mid)` -/
def context (cl : Client H) (mid : Int) : Context H where
  envInfo := {
    header := { cl.info with gasLimit := BitVec.ofInt 256 mid }
    precedingHashes := cl.precedingHashes
    gasUsed := 0 }
  sealEngine := cl.sealEngine

/-- The execution of one round, on a copy of the state of `bk`, which `transactionsFrom` looks into. -/
def tryGas (cl : Client H) (q : GasQuery) (mid : Int) : StateM H ExecutionResult := do
  let n ← State.getNonce q.sender
  let t := cl.transaction q mid n
  let run : StateM H ExecutionResult := do
    State.addBalance q.sender (t.gas * t.gasPrice + t.value)
    return (← State.execute (cl.context mid) (cl.vm (cl.context mid)) t .reverted).1
  liftExcept (eval run (← get).copy)

/-- The loop, with `er` and `lastGood`. -/
def search (cl : Client H) (q : GasQuery) (b : Bounds) (er : ExecutionResult) (lastGood : Option ExecutionResult) :
    StateM H (Int × ExecutionResult) := do
  if _h : b.upper = b.lower then
    return (b.upper, lastGood.getD er)
  else
    let er ← cl.tryGas q b.mid
    if tooLittleGas er then cl.search q b.raise er lastGood
    else cl.search q b.reduce er (some er)
termination_by b.size
decreasing_by
  · exact Bounds.size_raise _h
  · exact Bounds.size_reduce _h

/-- Where the search begins. Without a limit, or with a greater one, it is `c_maxGasEstimate`. -/
def bounds (q : GasQuery) : Bounds where
  lower := ({ type := if q.dest = 0 then .contractCreation else .messageCall, data := q.data } :
    Transaction).baseGasRequired {}
  upper := if q.maxGas = -1 ∨ q.maxGas > maxGasEstimate then maxGasEstimate else q.maxGas

/-- `estimateGas` -/
def estimateGas (cl : Client H) (q : GasQuery) : U256 × ExecutionResult :=
  match eval (cl.search q (bounds q) {} none) cl.state with
  | .ok (g, er) => (BitVec.ofInt 256 g, er)
  -- TODO: Some sort of notification of failure.
  | .error _ => (0, {})

end Client

/-! ### Where the search ends -/

/-- An execution that ends for want of gas, as the loop sees it. -/
def Short (x : Except Exn ExecutionResult) : Prop :=
  match x with
  | .ok er => tooLittleGas er = true
  | .error e => e = .outOfGasIntrinsic

section Bisection

variable (exec : Int → Except Exn ExecutionResult) (base cap : Int)

/-- The gas limit is good, as the loop sees it. -/
def Good (g : Int) : Prop := ¬Short (exec g)

/-- What the search finds between `base` and `cap`: good, but for `cap`, and with less than that it is not. -/
structure Found (g : Int) : Prop where
  ge : base ≤ g
  le : g ≤ cap
  good : g = cap ∨ Good exec g
  short : g = base ∨ ¬Good exec (g - 1)

/-- What is good with less gas is good with more. -/
def Increasing : Prop := ∀ x y, base ≤ x → x ≤ y → y ≤ cap → Good exec x → Good exec y

/-- The least amount that is good, or the most that may be if there is none. -/
def Least (g : Int) : Prop :=
  IsLeast {x | base ≤ x ∧ x ≤ cap ∧ Good exec x} g ∨ g = cap ∧ ∀ x, base ≤ x → x ≤ cap → ¬Good exec x

/-- The bounds while they are apart: what has been moved has been tried. -/
structure Bounds.Apart (b : Bounds) : Prop where
  ge : base ≤ b.lower
  lt : b.lower < b.upper
  le : b.upper ≤ cap
  good : b.upper = cap ∨ Good exec b.upper
  short : b.lower = base ∨ ¬Good exec b.lower

/-- What each round keeps. -/
def Bounds.Inv (b : Bounds) : Prop := b.Apart exec base cap ∨ b.upper = b.lower ∧ Found exec base cap b.upper

variable {exec base cap} {b : Bounds}

theorem Bounds.inv_start (h : base ≤ cap) : Bounds.Inv exec base cap ⟨base, cap⟩ := by
  rcases h.eq_or_lt with rfl | hlt
  · exact .inr ⟨rfl, le_rfl, le_rfl, .inl rfl, .inl rfl⟩
  · exact .inl ⟨le_rfl, hlt, le_rfl, .inl rfl, .inl rfl⟩

theorem Bounds.Apart.mid_eq (h : b.Apart exec base cap) (h0 : 0 ≤ base) : b.mid = (b.lower + b.upper) / 2 := by
  have hge := h.ge
  have hlt := h.lt
  exact Int.tdiv_eq_ediv_of_nonneg (by omega)

theorem Bounds.Apart.raise (h : b.Apart exec base cap) (h0 : 0 ≤ base) (hshort : ¬Good exec b.mid) :
    b.raise.Inv exec base cap := by
  have hmid := h.mid_eq h0
  have hge := h.ge
  have hlt := h.lt
  by_cases hlower : b.lower = b.mid
  · -- They are next to each other, and the lower one has been tried now.
    have hnext : b.upper - 1 = b.mid := by omega
    rw [Bounds.raise, if_pos hlower]
    exact .inr ⟨rfl, hge.trans hlt.le, h.le, h.good, .inr (hnext ▸ hshort)⟩
  · rw [Bounds.raise, if_neg hlower]
    refine .inl ⟨?_, ?_, h.le, h.good, .inr hshort⟩
    · change base ≤ b.mid
      omega
    · change b.mid < b.upper
      omega

theorem Bounds.Apart.reduce (h : b.Apart exec base cap) (h0 : 0 ≤ base) (hgood : Good exec b.mid) :
    b.reduce.Inv exec base cap := by
  have hmid := h.mid_eq h0
  have hge := h.ge
  have hlt := h.lt
  have hle := h.le
  have hupper : b.upper ≠ b.mid := by omega
  rw [Bounds.reduce, if_neg hupper]
  by_cases hlower : b.mid = b.lower
  · -- What has been found too little before is not good now.
    have hbase : b.mid = base := hlower.trans (h.short.resolve_right fun hshort => hshort (hlower ▸ hgood))
    refine .inr ⟨hlower, ?_, ?_, .inr hgood, .inl hbase⟩
    · exact hbase.ge
    · change b.mid ≤ cap
      omega
  · refine .inl ⟨hge, ?_, ?_, .inr hgood, h.short⟩
    · change b.lower < b.mid
      omega
    · change b.mid ≤ cap
      omega

theorem Found.least {g : Int} (h : Found exec base cap g) (hmono : Increasing exec base cap) : Least exec base cap g := by
  have hleast : ∀ x, base ≤ x → x ≤ cap → Good exec x → g ≤ x := by
    intro x hx hx' hgood
    by_contra hlt
    rcases h.short with hbase | hshort
    · omega
    · have hle := h.le
      exact hshort (hmono x (g - 1) hx (by omega) (by omega) hgood)
  by_cases hgood : Good exec g
  · exact .inl ⟨⟨h.ge, h.le, hgood⟩, fun x hx => hleast x hx.1 hx.2.1 hx.2.2⟩
  · have hcap : g = cap := h.good.resolve_right hgood
    refine .inr ⟨hcap, fun x hx hx' hgoodx => hgood ?_⟩
    have heq : x = g := le_antisymm (hcap ▸ hx') (hleast x hx hx' hgoodx)
    exact heq ▸ hgoodx

end Bisection

namespace Client

variable {cl : Client H} {q : GasQuery} {s : State H}

/-- What an execution with gas limit `g` gives, on the state of the block. -/
def exec (cl : Client H) (q : GasQuery) (g : Int) : Except Exn ExecutionResult := eval (cl.tryGas q g) cl.state

theorem getNonce_run (a : Address) (s : State H) : State.getNonce a s =
    .ok (((s.peek a).map Account.nonce).getD s.accountStartNonce) (s.load a) := by
  rw [State.getNonce, run_bind, State.account_run]
  cases s.peek a with
  | some acc => rfl
  | none => exact congrArg (EStateM.Result.ok · (s.load a)) (State.accountStartNonce_load s a)

/-- Looking an account up a second time changes nothing. -/
theorem peek_load_load (a : Address) (s : State H) : (s.load a).peek a = s.peek a ∧ (s.load a).load a = s.load a := by
  cases hcache : s.cache.lookup a with
  | some acc =>
    rw [State.lookup_load_of_lookup hcache]
    exact ⟨rfl, State.lookup_load_of_lookup hcache⟩
  | none =>
    by_cases hne : a ∈ s.nonExistingAccountsCache
    · have hload : s.load a = s := by simp [State.load, hcache, hne]
      rw [hload]
      exact ⟨rfl, hload⟩
    · cases htrie : s.trieAt a with
      | none =>
        have hload : s.load a = { s with nonExistingAccountsCache := insert a s.nonExistingAccountsCache } := by
          simp [State.load, hcache, hne, htrie]
        rw [hload]
        constructor
        · simp [State.peek, hcache, hne, htrie]
        · simp [State.load, hcache]
      | some r =>
        have hlookup : (s.load a).cache.lookup a = some (.ofRlp r) := by simp [State.load, hcache, hne, htrie]
        refine ⟨?_, State.lookup_load_of_lookup hlookup⟩
        rw [State.peek_of_lookup hlookup]
        simp [State.peek, hcache, hne, htrie]

/-- The state of the block in the loop: the sender may have been looked up. -/
def Looked (cl : Client H) (q : GasQuery) (s : State H) : Prop := s = cl.state ∨ s = cl.state.load q.sender

theorem Looked.getNonce (h : cl.Looked q s) :
    State.getNonce q.sender s = State.getNonce q.sender cl.state := by
  rcases h with rfl | rfl
  · rfl
  · rw [getNonce_run, getNonce_run, (peek_load_load _ _).1, (peek_load_load _ _).2, State.accountStartNonce_load]

omit [Digest H] in
theorem run_liftExcept {α : Type} (x : Except Exn α) (s : State H) :
    liftExcept x s = match x with | .ok a => .ok a s | .error e => .error e s := by
  cases x <;> rfl

/-- Each execution gives what it would give alone. -/
theorem wp_tryGas (h : cl.Looked q s) (g : Int) :
    wp (cl.tryGas q g) (fun er s' => cl.exec q g = .ok er ∧ cl.Looked q s') (fun e _ => cl.exec q g = .error e) s := by
  have hrun : cl.tryGas q g s = cl.tryGas q g cl.state := by
    rw [tryGas, run_bind, run_bind, h.getNonce]
  rw [exec, eval, ← hrun, wp]
  cases hres : cl.tryGas q g s with
  | error e s' => rfl
  | ok er s' =>
    refine ⟨rfl, .inr ?_⟩
    rw [hrun, tryGas, run_bind, getNonce_run] at hres
    dsimp only at hres
    rw [run_bind, run_get] at hres
    dsimp only at hres
    rw [run_liftExcept] at hres
    split at hres
    · cases hres
      rfl
    · cases hres

/-- The search ends between the bounds, or an execution between them has thrown. -/
theorem wp_search {base : Int} (cap : Int) (h0 : 0 ≤ base) (er : ExecutionResult)
    (lastGood : Option ExecutionResult) (b : Bounds) (h : cl.Looked q s) : wp (cl.search q b er lastGood)
      (fun r _ => b.Inv (cl.exec q) base cap → Found (cl.exec q) base cap r.1)
      (fun e _ => ∃ g, cl.exec q g = .error e ∧ (b.Inv (cl.exec q) base cap → base ≤ g ∧ g < cap)) s := by
  induction hsize : b.size using Nat.strong_induction_on generalizing b er lastGood s with
  | _ n ih =>
    subst hsize
    rw [search]
    split
    · rename_i heq
      rw [wp_pure]
      rintro (hapart | ⟨-, hfound⟩)
      · exact absurd heq hapart.lt.ne'
      · exact hfound
    · rename_i hne
      have hapart : b.Inv (cl.exec q) base cap → b.Apart (cl.exec q) base cap := fun h => h.resolve_right fun h => hne h.1
      rw [wp_bind]
      refine wp_mono (wp_tryGas h b.mid) ?_ ?_
      · rintro er' s' ⟨hexec, hs'⟩
        rw [wp_ite]
        split
        · rename_i hshort
          have hbad : ¬Good (cl.exec q) b.mid := by
            rw [Good, hexec, not_not]
            exact hshort
          have hkeep : b.Inv (cl.exec q) base cap → b.raise.Inv (cl.exec q) base cap :=
            fun h => (hapart h).raise h0 hbad
          refine wp_mono (ih _ (Bounds.size_raise hne) er' lastGood b.raise hs' rfl) ?_ ?_
          · exact fun r _ hr h => hr (hkeep h)
          · exact fun e _ ⟨g, hg, hin⟩ => ⟨g, hg, fun h => hin (hkeep h)⟩
        · rename_i hgood
          have hgood' : Good (cl.exec q) b.mid := by
            rw [Good, hexec]
            exact hgood
          have hkeep : b.Inv (cl.exec q) base cap → b.reduce.Inv (cl.exec q) base cap :=
            fun h => (hapart h).reduce h0 hgood'
          refine wp_mono (ih _ (Bounds.size_reduce hne) er' (some er') b.reduce hs' rfl) ?_ ?_
          · exact fun r _ hr h => hr (hkeep h)
          · exact fun e _ ⟨g, hg, hin⟩ => ⟨g, hg, fun h => hin (hkeep h)⟩
      · intro e _ hexec
        refine ⟨b.mid, hexec, fun hinv => ?_⟩
        have hmid := (hapart hinv).mid_eq h0
        have hge := (hapart hinv).ge
        have hlt := (hapart hinv).lt
        have hle := (hapart hinv).le
        omega

theorem base_nonneg (q : GasQuery) : 0 ≤ (bounds q).lower := Int.natCast_nonneg _

/-- An estimate is where the executions change from too little gas to enough, unless one of them has thrown. -/
theorem estimateGas_found (cl : Client H) (q : GasQuery) :
    (∃ g e, cl.exec q g = .error e ∧ ((bounds q).lower ≤ (bounds q).upper → (bounds q).lower ≤ g ∧ g < (bounds q).upper) ∧
      cl.estimateGas q = (0, {})) ∨
    ∃ g er, cl.estimateGas q = (BitVec.ofInt 256 g, er) ∧ ((bounds q).lower ≤ (bounds q).upper →
      Found (cl.exec q) (bounds q).lower (bounds q).upper g ∧
      (Increasing (cl.exec q) (bounds q).lower (bounds q).upper →
        Least (cl.exec q) (bounds q).lower (bounds q).upper g)) := by
  have hsearch := wp_search (bounds q).upper (base_nonneg q) {} none (bounds q) (.inl rfl : cl.Looked q cl.state)
  rw [estimateGas, eval]
  rw [wp] at hsearch
  cases hres : cl.search q (bounds q) {} none cl.state with
  | ok r s' =>
    rw [hres] at hsearch
    refine .inr ⟨r.1, r.2, rfl, fun hle => ?_⟩
    have hfound := hsearch (Bounds.inv_start hle)
    exact ⟨hfound, hfound.least⟩
  | error e s' =>
    rw [hres] at hsearch
    obtain ⟨g, hg, hin⟩ := hsearch
    exact .inl ⟨g, e, hg, fun hle => hin (Bounds.inv_start hle), rfl⟩

/-! ### A call without a sender -/

omit [Digest H] in
theorem exists_error_of_returns {α : Type} {x : StateM H α} (h : Returns (fun _ => False) x) (s : State H) :
    ∃ e, eval x s = .error e := by
  rw [eval]
  cases hx : x s with
  | ok a s' => exact (h a s s' hx).elim
  | error e s' => exact ⟨e, rfl⟩

omit [Digest H] in
theorem returns_liftExcept {α : Type} {x : Except Exn α} (h : ∃ e, x = .error e) :
    Returns (fun _ => False) (liftExcept x : StateM H α) := by
  obtain ⟨e, rfl⟩ := h
  exact nofun

/-- Nothing is executed for nobody: the transaction is unsigned. -/
theorem execute_unsigned (h : q.sender = 0) (c : Context H) (g : Int) (n : U256) :
    Returns (fun _ => False) (State.execute c (cl.vm c) (cl.transaction q g n) .reverted) := by
  have hzero : (cl.transaction q g n).hasZeroSignature = false := rfl
  have hforced : (cl.transaction q g n).forcedSender = 0 := h
  have hsender : (cl.transaction q g n).sender = .error .transactionIsUnsigned := by
    rw [Transaction.sender, hforced, if_neg (not_not.2 rfl), hzero]
    rfl
  have hinit : ∀ e : Executive H, Returns (fun _ => False) (e.initialise c (cl.transaction q g n)) := by
    intro e
    rw [Executive.initialise]
    refine .bind_right fun _ => .ite (fun hz => ?_) fun _ => (returns_liftExcept ⟨_, hsender⟩).bind fun _ => False.elim
    rw [hzero] at hz
    cases hz
  exact .bind ((hinit _).bind fun _ => False.elim) fun _ => False.elim

theorem tryGas_unsigned (h : q.sender = 0) (g : Int) : Returns (fun _ => False) (cl.tryGas q g) := by
  refine .bind_right fun n => .bind_right fun s => returns_liftExcept (exists_error_of_returns ?_ _)
  exact .bind_right fun _ => (execute_unsigned h (cl.context g) g n).bind fun _ => False.elim

theorem estimateGas_unsigned (h : q.sender = 0) (hne : (bounds q).upper ≠ (bounds q).lower) :
    cl.estimateGas q = (0, {}) := by
  have hsearch : Returns (fun _ => False) (cl.search q (bounds q) {} none) := by
    rw [search, dif_neg hne]
    exact (tryGas_unsigned h _).bind fun _ => False.elim
  obtain ⟨e, he⟩ := exists_error_of_returns hsearch cl.state
  rw [estimateGas, he]

/-- The state of a block in which nobody has anything. -/
noncomputable def emptyClient : Client PerfectDigest where
  state := State.empty 0 .empty fun _ => 0
  info := Frame.createContext.envInfo.header
  precedingHashes _ := []
  sealEngine := Frame.createContext.sealEngine
  gasBidPrice := 0
  vm _ := AssetVM

def unsignedQuery : GasQuery where
  sender := 0
  value := 0
  dest := 1
  data := []
  maxGas := -1
  gasPrice := 0

/-- The call is not executed, and 0 is what is left. -/
theorem not_estimateGas_found : ¬∀ (H : Type) [Digest H] (cl : Client H) (q : GasQuery),
    (bounds q).lower ≤ (bounds q).upper →
    ∃ g er, cl.estimateGas q = (BitVec.ofInt 256 g, er) ∧ Found (cl.exec q) (bounds q).lower (bounds q).upper g := by
  intro hall
  obtain ⟨g, er, hg, hfound⟩ := hall PerfectDigest emptyClient unsignedQuery (by decide)
  have hge : 21000 ≤ g := hfound.ge
  have hle : g ≤ 50000000 := hfound.le
  have hne : (bounds unsignedQuery).upper ≠ (bounds unsignedQuery).lower := by decide
  rw [estimateGas_unsigned rfl hne] at hg
  have hzero : (BitVec.ofInt 256 g).toNat = 0 := congrArg (fun r => r.1.toNat) hg.symm
  rw [BitVec.toNat_ofInt] at hzero
  omega

end Client

end Kmdx.ClientBase
