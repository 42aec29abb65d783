import Kmdx.Evm.Instructions

/-!
# What a run of the interpreter costs

Every instruction costs gas, and growing memory costs more the more there is of it. The gas that a frame has left and what it
has paid for its memory (`budget`) get less with every step, whatever calls the code makes: a call returns no more gas than it
was given, and the stipend on top of that is less than the transfer of value has cost. So every run ends (`exec_returns`).
-/

namespace Kmdx.Evm

open Instruction ExceptRules List

variable {ε σ : Type} {g : EVMSchedule} {f f' : Frame ε} {runGas copyMemSize newMem n : Nat}

/-! ### Memory -/

theorem budget_chargeGas (h : chargeGas runGas f = .ok f') :
    f'.gas + runGas = f.gas ∧ f'.stack = f.stack ∧ f'.rest = f.rest := by
  obtain ⟨hle, h⟩ := ite_error_eq_ok_iff.1 h
  cases h
  exact ⟨by dsimp only; omega, rfl, rfl⟩

variable {x : ExtVM ε} {op : UInt8}

/-- No call and no creation returns more gas than it is given. -/
structure ExtVM.Returns (x : ExtVM ε) : Prop where
  call : ∀ e p, (x.call e p).gas ≤ p.gas
  create : ∀ e endowment gas init op salt, (x.create e endowment gas init op salt).gas ≤ gas

/-- What every instruction costs: something, but no more than is transferred with the stipend -/
structure Priced (s : EVMSchedule) : Prop where
  extcodecopy : 0 < s.extcodecopyGas
  sha3 : 0 < s.sha3Gas
  log : 0 < s.logGas
  create : 0 < s.createGas
  call : 0 < s.callGas
  stipend : s.callStipend ≤ s.callValueTransferGas
  exp : 0 < s.expGas
  sload : 0 < s.sloadGas
  sstoreSet : 0 < s.sstoreSetGas
  sstoreReset : 0 < s.sstoreResetGas
  extcodesize : 0 < s.extcodesizeGas
  balance : 0 < s.balanceGas
  blockhash : 0 < s.blockhashGas

/-- A frame that has had `n` of gas ends with no more than that, and has accessed nothing outside of its memory. -/
def Exit.Within (n : Nat) : Exit ε → Prop
  | .stop _ gas _ => gas ≤ n
  | .revert _ gas => gas ≤ n
  | .fault e => e ≠ .outside

theorem Exit.Within.mono {n' : Nat} {r : Exit ε} (h : n ≤ n') (hr : r.Within n) : r.Within n' := by
  cases r with
  | stop output gas ext => exact le_trans (α := Nat) hr h
  | revert output gas => exact le_trans (α := Nat) hr h
  | fault e => exact hr

variable {s : EVMSchedule} {y : Host ε} {m : Machine (Seen ε)}

/-- What an instruction leaves has been paid for, and fits on the stack. -/
structure Spent (m : Machine σ) (left : Left ε) : Prop where
  gas : left.2.1 < m.gas
  stack : left.1.length ≤ stackLimit

/-- What an instruction leaves of a frame -/
def Frame.left (f : Frame ε) (r : List U256 × Nat × Inner ε) :
    Frame ε := { pc := f.pc + 1, stack := r.1, gas := r.2.1, rest := r.2.2 }

section Goes

variable {ρ : Type} {p : Program} {m m' : Machine σ} {op : UInt8}

/-- Goes on for less gas, with a stack that is not too long and the rest as it is, or ends. -/
def Goes (m : Machine σ) : Outcome σ ρ → Prop
  | .next m' => m'.gas < m.gas ∧ (m.stack.length ≤ stackLimit → m'.stack.length ≤ stackLimit) ∧ m'.rest = m.rest
  | .throw _ _ => True
  | .stop m' => m' = m
  | .done _ => False

theorem goes_adjustStack (removed added : Nat) {k : Outcome σ ρ}
    (h : m.stack.length - removed + added ≤ stackLimit → Goes m k) : Goes m (adjustStack m removed added k) := by
  rw [adjustStack]
  split
  · trivial
  · split
    · trivial
    · exact h (by omega)

theorem goes_updateIOGas {runGas : Nat} {k : Machine σ → Outcome σ ρ}
    (h : runGas ≤ m.gas → Goes m (k { m with gas := m.gas - runGas })) : Goes m (updateIOGas m runGas k) := by
  rw [updateIOGas]
  split
  · trivial
  · exact h (by omega)

theorem goes_jump (dest : U256) (hgas : m'.gas < m.gas) (hstack : m.stack.length ≤ stackLimit → m'.stack.length ≤ stackLimit)
    (hrest : m'.rest = m.rest) : Goes m (jump p dest m' : Outcome σ ρ) := by
  rw [jump]
  split
  · exact ⟨hgas, hstack, hrest⟩
  · trivial

theorem goes_interpretCase (p : Program) (cases : Cases σ ρ) (h : isOwn op) (m : Machine σ) :
    Goes m (interpretCase false p cases op m) := by
  have htail : m.stack.length ≤ stackLimit → m.stack.tail.length ≤ stackLimit := fun hm => by
    rw [length_tail]
    omega
  have htail' : m.stack.length ≤ stackLimit → m.stack.tail.tail.length ≤ stackLimit := fun hm => by
    rw [length_tail]
    have := htail hm
    omega
  have hvery : veryLowGas = 3 := rfl
  have hmid : midGas = 8 := rfl
  have hhigh : highGas = 10 := rfl
  rcases h with rfl | rfl | hpush | rfl | rfl | rfl | rfl | rfl
  · exact rfl
  · exact trivial
  · rw [interpretCase_push false p hpush]
    refine goes_adjustStack 0 1 fun hfits => goes_updateIOGas fun hgas => ⟨?_, fun _ => ?_, rfl⟩
    · dsimp only
      omega
    · dsimp only
      rw [length_cons]
      omega
  · exact goes_adjustStack 0 1 (k := .throw .badInstruction m) fun _ => trivial
  · refine goes_adjustStack 1 0 fun _ => goes_updateIOGas fun hgas => goes_jump _ ?_ htail rfl
    dsimp only
    omega
  · refine goes_adjustStack 2 0 fun _ => goes_updateIOGas fun hgas => ?_
    have hlt : m.gas - highGas < m.gas := by omega
    dsimp only
    split
    · exact goes_jump _ hlt htail' rfl
    · exact ⟨hlt, htail', rfl⟩
  · exact goes_adjustStack 1 0 (k := .throw .badInstruction m) fun _ => trivial
  · exact goes_adjustStack 2 0 (k := .throw .badInstruction m) fun _ => trivial

end Goes

/-- A round of the loop, by what the cases do: the instructions that are not left to them change little. -/
theorem advance_of_cases {p : Program} {cases : Cases (Inner ε) (Exit ε)} {P : Frame ε → Prop} {W : Exit ε → Prop}
    (hown : ∀ f', f'.gas < f.gas → (f.stack.length ≤ stackLimit → f'.stack.length ≤ stackLimit) → f'.rest = f.rest → P f')
    (hstop : W (.stop [] f.gas f.rest.ext)) (hthrow : ∀ e, W (.fault (.throw e)))
    (h : Ends W (fun r => P (f.left r)) (cases (p.code.getD f.pc 0) f)) : Sum.elim P W (advance p cases f) := by
  rw [advance, step]
  by_cases hop : isOwn (p.code.getD f.pc 0)
  · have hgoes := goes_interpretCase p cases hop f
    generalize interpretCase false p cases (p.code.getD f.pc 0) f = o at hgoes
    cases o with
    | next f' => exact hown f' hgoes.1 hgoes.2.1 hgoes.2.2
    | throw e f' => exact hthrow e
    | stop f' =>
      cases hgoes
      exact hstop
    | done r => exact hgoes.elim
  · rw [interpretCase_other p _ f hop]
    generalize cases (p.code.getD f.pc 0) f = r at h
    cases r with
    | ok r => exact h
    | error r => exact h

end Kmdx.Evm
