import Kmdx.Evm.MemoryInstructions

/-!
# The memory of a whole run

Beside a run goes a memory without end, which every instruction stores into where its operands say. The memory of the
interpreter is the same (`memory_exact`), as long as no word or byte is addressed beyond 32 bits.
-/

namespace Kmdx.Evm

open Instruction Overwrite ExceptRules

variable {ε ρ σ : Type}

/-! ### Steps -/

/-- The instructions that are not left to `Cases` -/
def isOwn (op : UInt8) : Prop :=
  op = STOP ∨ op = INVALID ∨ isPush op = true ∨ op = PUSHC ∨ op = JUMP ∨ op = JUMPI ∨ op = JUMPC ∨ op = JUMPCI

/-- Goes on, if at all, with everything behind the stack as it is. -/
def Keeps (m : Machine σ) : Outcome σ ρ → Prop
  | .next m' => m'.rest = m.rest
  | .throw _ _ => True
  | .stop _ => True
  | .done _ => False

section Keeps

variable {p : Program} {cases : Cases σ ρ} {m m' : Machine σ} {op : UInt8}

theorem Keeps.adjustStack {k : Outcome σ ρ} (removed added : Nat) (h : Keeps m k) :
    Keeps m (adjustStack m removed added k) := by
  rw [Evm.adjustStack]
  split
  · trivial
  · split
    · trivial
    · exact h

theorem Keeps.updateIOGas {k : Machine σ → Outcome σ ρ} (runGas : Nat) (h : Keeps m (k { m with gas := m.gas - runGas })) :
    Keeps m (updateIOGas m runGas k) := by
  rw [Evm.updateIOGas]
  split
  · trivial
  · exact h

theorem keeps_jump (dest : U256) (h : m'.rest = m.rest) : Keeps m (jump p dest m' : Outcome σ ρ) := by
  rw [jump]
  split
  · exact h
  · trivial

theorem keeps_interpretCase (p : Program) (cases : Cases σ ρ) (m : Machine σ) (h : isOwn op) :
    Keeps m (interpretCase false p cases op m) := by
  rcases h with rfl | rfl | hpush | rfl | rfl | rfl | rfl | rfl
  · exact trivial
  · exact trivial
  · rw [interpretCase_push false p hpush]
    exact .adjustStack 0 1 (.updateIOGas veryLowGas rfl)
  · exact Keeps.adjustStack 0 1 (k := .throw .badInstruction m) trivial
  · exact Keeps.adjustStack 1 0 (.updateIOGas midGas (keeps_jump _ rfl))
  · refine Keeps.adjustStack 2 0 (.updateIOGas highGas ?_)
    dsimp only
    split
    · exact keeps_jump _ rfl
    · rfl
  · exact Keeps.adjustStack 1 0 (k := .throw .badInstruction m) trivial
  · exact Keeps.adjustStack 2 0 (k := .throw .badInstruction m) trivial

theorem interpretCase_other (p : Program) (cases : Cases σ ρ) (m : Machine σ) (h : ¬isOwn op) :
    interpretCase false p cases op m = match cases op m with
      | .ok (stack, gas, rest) => .next { pc := m.pc + 1, stack := stack, gas := gas, rest := rest }
      | .error r => .done r := by
  simp only [isOwn, not_or] at h
  obtain ⟨hstop, hinvalid, hpush, hpushc, hjump, hjumpi, hjumpc, hjumpci⟩ := h
  rw [interpretCase, if_neg hstop, if_neg hinvalid, if_neg hpush, if_neg hpushc, if_neg hjump, if_neg hjumpi, if_neg hjumpc,
    if_neg hjumpci]
  generalize cases op m = r
  cases r <;> rfl

end Keeps

variable {s : EVMSchedule} {x : ExtVM ε} {others : OtherCases ε ρ} {f : Frame ε} {op : UInt8}

/-- An instruction that does not use the memory stores nothing. -/
theorem stored_of_metric (h : metric op = none) : stored s x op f = none := by
  have hne : ∀ op', metric op' ≠ none → op ≠ op' := fun op' hop' heq => hop' (heq ▸ h)
  rw [stored, if_neg (hne MSTORE (by decide)), if_neg (hne MSTORE8 (by decide)), if_neg (hne CALLDATACOPY (by decide)),
    if_neg (hne CODECOPY (by decide)), if_neg (hne RETURNDATACOPY (by decide)), if_neg (hne EXTCODECOPY (by decide)), if_neg]
  rintro (rfl | rfl | rfl | rfl) <;> cases h

theorem metric_of_isPush (h : isPush op = true) : metric op = none := by
  have hne : ∀ op', isPush op' = false → op ≠ op' := by
    rintro op' hop' rfl
    rw [h] at hop'
    cases hop'
  have hlog : ¬(LOG0 ≤ op ∧ op ≤ LOG4) := by
    rintro ⟨hle, -⟩
    have hpush : PUSH1 ≤ op ∧ op ≤ PUSH32 := by simpa [isPush] using h
    exact absurd (UInt8.le_trans hle hpush.2) (by decide)
  simp only [metric, hne MLOAD rfl, hne MSTORE rfl, hne MSTORE8 rfl, hne RETURN rfl, hne REVERT rfl, hne SHA3 rfl,
    hne CALLDATACOPY rfl, hne CODECOPY rfl, hne RETURNDATACOPY rfl, hne EXTCODECOPY rfl, hlog,
      hne CREATE rfl, hne CREATE2 rfl,
    hne CALL rfl, hne CALLCODE rfl, hne DELEGATECALL rfl, hne STATICCALL rfl, or_self, if_false]

theorem metric_of_isOwn (h : isOwn op) : metric op = none := by
  rcases h with rfl | rfl | hpush | rfl | rfl | rfl | rfl | rfl
  · rfl
  · rfl
  · exact metric_of_isPush hpush
  · rfl
  · rfl
  · rfl
  · rfl
  · rfl

theorem mapError_eq_ok_iff {α δ δ' : Type} {e : δ → δ'} {r : Except δ α} {a : α} : r.mapError e = .ok a ↔ r = .ok a := by
  cases r with
  | ok b => simp only [Except.mapError, Except.ok.injEq]
  | error d => exact ⟨nofun, nofun⟩

/-- What a case does to the memory. -/
theorem memory_of_memoryCases {stack : List U256} {gas : Nat} {rest : Inner ε} (hop : Addressable op f)
    (h : memoryCases s x others op f = .ok (stack, gas, rest)) :
    (fun p => rest.mem.getD p 0) = remember f.at (stored s x op f) ∧
      (op = MLOAD → stack = loadWord f.at (f.sp 0).toNat :: f.stack.drop 1) := by
  rw [memoryCases] at h
  split at h
  · rw [bind_eq_ok_iff] at h
    obtain ⟨-, -, h⟩ := h
    split at h
    · rw [bind_eq_ok_iff] at h
      obtain ⟨output, -, h⟩ := h
      cases h
    · split at h
      · split at h
        · cases h
        · rw [bind_eq_ok_iff] at h
          obtain ⟨output, -, h⟩ := h
          cases h
      · rw [bind_eq_ok_iff] at h
        obtain ⟨f', hf', h⟩ := h
        rw [mapError_eq_ok_iff] at hf'
        cases h
        refine ⟨at_memoryInstruction hf' hop, ?_⟩
        rintro rfl
        exact (mload_spec hf' (hop (.inl rfl))).2
  · rename_i hmetric
    rw [bind_eq_ok_iff] at h
    obtain ⟨r, -, h⟩ := h
    cases h
    refine ⟨?_, ?_⟩
    · rw [stored_of_metric hmetric]
      rfl
    · rintro rfl
      cases hmetric

/-! ### Runs -/

/-- A run from the machine `m₀`, whose steps meet `P`, beside what its instructions are to have stored. -/
inductive Recalls (s : EVMSchedule) (x : ExtVM ε) (others : OtherCases ε ρ) (p : Program) (P : UInt8 → Frame ε → Prop)
    (m₀ : Frame ε) : Frame ε → (Nat → Byte) → Prop
  | start : Recalls s x others p P m₀ m₀ fun _ => 0
  | next {m m' : Frame ε} {ideal : Nat → Byte} : Recalls s x others p P m₀ m ideal → P (p.code.getD m.pc 0) m →
    step false p (memoryCases s x others) m = .next m' →
    Recalls s x others p P m₀ m' (remember ideal (stored s x (p.code.getD m.pc 0) m))

/-- An instruction at `m` accesses nothing outside of the memory, loads what has been stored, and stores where it is to. -/
structure Exact (s : EVMSchedule) (x : ExtVM ε) (others : OtherCases ε ρ) (p : Program) (m : Frame ε) (ideal : Nat → Byte) :
    Prop where
  inside : step false p (memoryCases s x others) m ≠ .done (.fault .outside)
  load : ∀ m' : Frame ε, step false p (memoryCases s x others) m = .next m' → p.code.getD m.pc 0 = MLOAD →
    m'.stack = loadWord ideal (m.sp 0).toNat :: m.stack.drop 1
  store : ∀ m' : Frame ε, step false p (memoryCases s x others) m = .next m' →
    m'.at = remember ideal (stored s x (p.code.getD m.pc 0) m)

variable {p : Program} {m₀ m m' : Frame ε} {ideal : Nat → Byte}

/-- What a step does to the memory. -/
theorem memory_of_step (hop : Addressable (p.code.getD m.pc 0) m) (h : step false p (memoryCases s x others) m = .next m') :
    m'.at = remember m.at (stored s x (p.code.getD m.pc 0) m) ∧
      (p.code.getD m.pc 0 = MLOAD → m'.stack = loadWord m.at (m.sp 0).toNat :: m.stack.drop 1) := by
  rw [step] at h
  by_cases hown : isOwn (p.code.getD m.pc 0)
  · have hmetric := metric_of_isOwn hown
    have hrest : m'.rest = m.rest := by
      have hkeeps := keeps_interpretCase p (memoryCases s x others) m hown
      rwa [h] at hkeeps
    have hat : m'.at = m.at := by
      funext q
      rw [Frame.at, Frame.at, hrest]
    refine ⟨by rw [stored_of_metric hmetric, hat]; rfl, fun hmload => ?_⟩
    rw [hmload] at hmetric
    cases hmetric
  · rw [interpretCase_other p _ m hown] at h
    split at h
    · rename_i hcase
      cases h
      exact memory_of_memoryCases hop hcase
    · cases h

/-- Where an error comes from. -/
theorem bind_eq_error_iff {α β δ : Type} {r : Except δ α} {g : α → Except δ β} {e : δ} :
    r >>= g = .error e ↔ r = .error e ∨ ∃ a, r = .ok a ∧ g a = .error e := by
  cases r with
  | ok a => exact ⟨fun h => .inr ⟨a, rfl, h⟩, fun h => h.elim nofun fun ⟨_, ha, h⟩ => by cases ha; exact h⟩
  | error d =>
    refine ⟨fun h => .inl (by cases h; rfl), fun h => ?_⟩
    rcases h with h | ⟨_, ha, _⟩
    · cases h
      rfl
    · cases ha

theorem Inside.mapError {α : Type} {r : Except Fault α} (h : Inside r) :
    r.mapError .fault ≠ (.error (.fault .outside) : Except (Ended ρ) α) := by
  cases r with
  | ok a => nofun
  | error e =>
    intro heq
    injection heq with heq
    injection heq with he
    exact h (he ▸ rfl)

theorem inside_memoryCases : memoryCases s x others op f ≠ .error (.fault .outside) := by
  intro h
  rw [memoryCases] at h
  split at h
  · rename_i removed added _
    have hstack : Inside (checkStack f removed added) :=
      inside_ite (fun _ => inside_throw) fun _ => inside_ite (fun _ => inside_throw) fun _ => inside_ok
    rcases bind_eq_error_iff.1 h with h | ⟨-, -, h⟩
    · exact hstack.mapError h
    · split at h
      · rcases bind_eq_error_iff.1 h with h | ⟨output, -, h⟩
        · exact (inside_outputCase s 0 f).mapError h
        · cases h
      · split at h
        · split at h
          · cases h
          · rcases bind_eq_error_iff.1 h with h | ⟨output, -, h⟩
            · exact (inside_outputCase s 0 f).mapError h
            · cases h
        · rcases bind_eq_error_iff.1 h with h | ⟨f', -, h⟩
          · exact (inside_memoryInstruction s x op f).mapError h
          · cases h
  · rcases bind_eq_error_iff.1 h with h | ⟨r, -, h⟩
    · generalize hr : others op
        { f with rest := { memSize := f.rest.mem.length, returnData := f.rest.returnData, ext := f.rest.ext } } = r at h
      cases r <;> cases h
    · cases h

theorem inside_step (p : Program) (m : Frame ε) : step false p (memoryCases s x others) m ≠ .done (.fault .outside) := by
  intro h
  rw [step] at h
  by_cases hown : isOwn (p.code.getD m.pc 0)
  · have hkeeps := keeps_interpretCase p (memoryCases s x others) m hown
    rw [h] at hkeeps
    exact hkeeps
  · rw [interpretCase_other p _ m hown] at h
    split at h
    · cases h
    · rename_i hcase
      cases h
      exact inside_memoryCases hcase

theorem at_of_recalls (hmem : m₀.rest.mem = []) (h : Recalls s x others p Addressable m₀ m ideal) : m.at = ideal := by
  induction h with
  | start =>
    funext q
    rw [Frame.at, hmem]
    rfl
  | next _ hop hstep ih => rw [(memory_of_step hop hstep).1, ih]

/-- In a run that addresses no word beyond 32 bits, the memory is one without end. -/
theorem memory_exact (s : EVMSchedule) (x : ExtVM ε) (others : OtherCases ε ρ) (code : Code) (hmem : m₀.rest.mem = [])
    (h : Recalls s x others (program code) Addressable m₀ m ideal) (hop : Addressable ((program code).code.getD m.pc 0) m) :
    Exact s x others (program code) m ideal := by
  obtain rfl := at_of_recalls hmem h
  exact ⟨inside_step _ m, fun m' hstep => (memory_of_step hop hstep).2, fun m' hstep => (memory_of_step hop hstep).1⟩

/-! ### An offset of more than 32 bits -/

theorem step_mstore {f' : Frame ε} (hop : p.code.getD f.pc 0 = MSTORE) (hstack : f.stack.length = 2)
    (h : mstore s f = .ok f') : step false p (memoryCases s x others) f = .next { f' with pc := f.pc + 1 } := by
  have hown : ¬isOwn MSTORE := by
    rintro (h | h | h | h | h | h | h | h) <;> cases h
  have hcheck : checkStack f 2 0 = .ok () := by
    rw [checkStack, hstack]
    rfl
  have hcase : memoryCases s x others MSTORE f = do
      (checkStack f 2 0).mapError .fault
      let f' ← (mstore s f).mapError .fault
      return (f'.stack, f'.gas, f'.rest) := rfl
  rw [step, hop, interpretCase_other p _ f hown, hcase, hcheck, h]
  rfl

theorem chargeMem_of_updateGas {runGas copyMemSize newMem g : Nat}
    (h : updateGas s f.rest.mem.length ((newMem + 31) / 32 * 32) copyMemSize f.gas runGas = .ok g) (hg : g ≤ f.gas) :
    ∃ f', chargeMem s runGas copyMemSize newMem f = .ok f' := by
  rw [chargeMem]
  dsimp only
  rw [h, ok_bind, if_neg (not_lt.2 hg)]
  exact ⟨_, rfl⟩

theorem mstoreBytes_of_charged {n : Nat} {f₁ : Frame ε} (hoffset : (f.sp 0).toNat ≤ 0x7FFFFFFFFFFFFFFF)
    (h : chargeMem s veryLowGas 0 ((f.sp 0).toNat + n) f = .ok f₁) : ∃ f', mstoreBytes s n f = .ok f' := by
  have hle := (charged_of_chargeMem h).le
  have hmod := Nat.mod_le (f.sp 0).toNat (2 ^ 32)
  have hlen := BigEndian.length_toBytes n (f.sp 1).toNat
  have hwithin : Within ((f.sp 0).toNat % 2 ^ 32) (BigEndian.toBytes n (f.sp 1).toNat).length f₁.rest.mem.length :=
    .inr (by omega)
  obtain ⟨mem, hmem, -⟩ := writeBytes_of_within hwithin
  rw [mstoreBytes, toInt63_eq_ok_iff.2 ⟨hoffset, rfl⟩, ok_bind, h, ok_bind, hmem]
  exact ⟨_, rfl⟩

/-- `PUSH1 1 PUSH5 4294967296 MSTORE` -/
def farStore : Code := ⟨[0x60, 1, 0x64, 1, 0, 0, 0, 0, 0x52], by decide⟩

theorem fits_nil : ([] : Bytes).length < 2 ^ 64 := by decide

def idleVM : ExtVM Unit where
  myAddress := 0
  caller := 0
  value := 0
  data := ⟨[], fits_nil⟩
  code := ⟨farStore.bytes, by decide⟩
  depth := 0
  staticCall := false
  balance _ _ := 0
  exists' _ _ := true
  codeAt _ _ := ⟨[], fits_nil⟩
  log _ _ _ := ()
  create _ _ _ _ _ _ := ⟨0, ⟨[], fits_nil⟩, 0, ()⟩
  call _ _ := ⟨false, ⟨[], fits_nil⟩, 0, ()⟩
  sha3 _ := 0

theorem farStore_getD (i : Nat) : (program farStore).code.getD i 0 = farStore.bytes.getD i 0 := by
  refine code_getD farStore ?_
  by_cases hlt : i < 9
  · revert i
    decide
  · rw [List.getD_eq_default _ _ (not_lt.1 hlt)]
    rfl

/-- All the gas there is -/
def startFrame (ext : ε) : Frame ε := ⟨0, [], 2 ^ 63 - 1, ⟨[], ⟨[], fits_nil⟩, ext⟩⟩

theorem step_farStore {cases : Cases σ ρ} {m : Machine σ} (op : UInt8) (hop : farStore.bytes.getD m.pc 0 = op)
    (hpush : isPush op = true) (hstack : m.stack.length < stackLimit) (hgas : veryLowGas ≤ m.gas) :
    step false (program farStore) cases m = .next { m with
      pc := m.pc + nPush op + 1
      gas := m.gas - veryLowGas
      stack := pushed farStore.bytes (m.pc + 1) (nPush op) :: m.stack } := by
  have hpushed : pushed (program farStore).code (m.pc + 1) (nPush op) = pushed farStore.bytes (m.pc + 1) (nPush op) :=
    pushed_congr fun i _ => farStore_getD _
  rw [step, farStore_getD, hop, interpretCase_push false _ hpush, adjustStack, if_neg (Nat.not_lt_zero _),
    if_neg (by omega), updateIOGas, if_neg (not_lt.2 hgas), hpushed]

/-- Before the store -/
def farFrame : Frame Unit := ⟨8, [4294967296, 1], 2 ^ 63 - 7, ⟨[], ⟨[], fits_nil⟩, ()⟩⟩

theorem mstore_farFrame : ∃ f', mstore {} farFrame = .ok f' := by
  have hoffset : (farFrame.sp 0).toNat = 4294967296 := by simp [Frame.sp, farFrame]
  have hgas : updateGas {} 0 4294967328 0 (2 ^ 63 - 7) veryLowGas = .ok 35184775266310 := rfl
  have hcharge : ∃ f₁, chargeMem {} veryLowGas 0 4294967328 farFrame = .ok f₁ := chargeMem_of_updateGas hgas (by decide)
  obtain ⟨f₁, hcharge⟩ := hcharge
  have hle : (farFrame.sp 0).toNat ≤ 0x7FFFFFFFFFFFFFFF := by
    rw [hoffset]
    decide
  refine mstoreBytes_of_charged hle ((?_ : _ = Except.ok f₁))
  rw [hoffset]
  exact hcharge

/-- Stores at 4294967296, which `unsigned` cannot hold. -/
theorem not_memory_exact : ¬∀ (s : EVMSchedule) (x : ExtVM Unit) (others : OtherCases Unit Unit)
    (code : Code) (m₀ m : Frame Unit)
    (ideal : Nat → Byte), m₀.pc = 0 → m₀.stack = [] → m₀.gas < 2 ^ 63 → m₀.rest.mem = [] →
    Recalls s x others (program code) (fun _ _ => True) m₀ m ideal → Exact s x others (program code) m ideal := by
  intro h
  let cases : Cases (Inner Unit) (Ended Unit) := memoryCases {} idleVM fun _ _ => .error ()
  have hfirst : step false (program farStore) cases (startFrame ()) = .next ⟨2, [1], 2 ^ 63 - 4, ⟨[], ⟨[], fits_nil⟩, ()⟩⟩ :=
    step_farStore 0x60 rfl rfl (by decide) (by decide)
  have hsecond : step false (program farStore) cases ⟨2, [1], 2 ^ 63 - 4, ⟨[], ⟨[], fits_nil⟩, ()⟩⟩ = .next farFrame :=
    step_farStore 0x64 rfl rfl (by decide) (by decide)
  have hop : (program farStore).code.getD farFrame.pc 0 = MSTORE := farStore_getD 8
  obtain ⟨f', hf'⟩ := mstore_farFrame
  have hstore : step false (program farStore) cases farFrame = .next { f' with pc := 9 } := step_mstore hop rfl hf'
  have hrun : Recalls {} idleVM (fun _ _ => .error ()) (program farStore) (fun _ _ => True) (startFrame ()) farFrame _ :=
    .next (.next .start trivial hfirst) trivial hsecond
  have hexact := congrFun ((h _ _ _ _ _ _ _ rfl rfl (by decide) rfl hrun).store _ hstore) 31
  rw [hop, farStore_getD, farStore_getD] at hexact
  have hoffset : (farFrame.sp 0).toNat = 4294967296 := by simp [Frame.sp, farFrame]
  -- Nothing has been stored at 31, but the last byte of the word has gone there.
  have hzero : store (fun _ => 0) (farFrame.sp 0).toNat (BigEndian.toBytes 32 (farFrame.sp 1).toNat) 31 = 0 := by
    rw [hoffset]
    exact store_of_lt (by decide)
  have hone : f'.at 31 = 1 := by
    rw [mstoreBytes_spec hf', hoffset]
    exact (store_add (i := 31) (by simp) 0).trans rfl
  exact absurd (hone.symm.trans (hexact.trans hzero)) (by decide)

/-! ### Stores before a load -/

instance (op : UInt8) (f : Frame ε) : Decidable (Addressable op f) := inferInstanceAs (Decidable (_ → _))

/-- Goes on for `n` steps, if they are addressable. -/
def recalled (s : EVMSchedule) (x : ExtVM ε) (others : OtherCases ε ρ) (p : Program) :
    Nat → Frame ε × (Nat → Byte) → Option (Frame ε × (Nat → Byte))
  | 0, r => some r
  | n + 1, (m, ideal) =>
    if Addressable (p.code.getD m.pc 0) m then
      match step false p (memoryCases s x others) m with
      | .next m' => recalled s x others p n (m', remember ideal (stored s x (p.code.getD m.pc 0) m))
      | _ => none
    else none

theorem recalls_of_recalled {n : Nat} {r : Frame ε × (Nat → Byte)} (h : Recalls s x others p Addressable m₀ m ideal)
    (hrecall : recalled s x others p n (m, ideal) = some r) : Recalls s x others p Addressable m₀ r.1 r.2 := by
  induction n generalizing m ideal with
  | zero =>
    cases hrecall
    exact h
  | succ n ih =>
    rw [recalled] at hrecall
    split at hrecall
    · rename_i hop
      split at hrecall
      · rename_i hstep
        exact ih (.next h hop hstep) hrecall
      · cases hrecall
    · cases hrecall

/-- `PUSH1 5 PUSH1 0 MSTORE PUSH1 7 PUSH1 20 MSTORE8 PUSH1 16 MLOAD` -/
def overlap : Code := ⟨[0x60, 5, 0x60, 0, 0x52, 0x60, 7, 0x60, 20, 0x53, 0x60, 16, 0x51], by decide⟩

/-- A byte is stored into a word, and the word loaded that begins in the middle of it. -/
theorem memory_exact_load : ∃ m ideal, Recalls {} idleVM
    (fun _ _ => (.error () : Except Unit _)) (program overlap) Addressable
      (startFrame ()) m ideal ∧ overlap.bytes.getD m.pc 0 = MLOAD ∧ m.sp 0 = 16 ∧
    loadWord ideal 16 = 0x0000000007000000000000000000000500000000000000000000000000000000 ∧
    Exact {} idleVM (fun _ _ => (.error () : Except Unit _)) (program overlap) m ideal := by
  have hrun : (recalled {} idleVM (fun _ _ => (.error () : Except Unit _)) (program overlap) 7
      (startFrame (), fun _ => 0)).map (fun r => (r.1.pc, r.1.sp 0, loadWord r.2 16)) =
      some (12, 16, 0x0000000007000000000000000000000500000000000000000000000000000000) := by decide +kernel
  obtain ⟨⟨m, ideal⟩, hrecall, heq⟩ := Option.map_eq_some_iff.1 hrun
  obtain ⟨hpc, hsp, hload⟩ : m.pc = 12 ∧ m.sp 0 = 16 ∧ loadWord ideal 16 = _ := by simpa using heq
  have hrecalls := recalls_of_recalled .start hrecall
  refine ⟨m, ideal, hrecalls, by rw [hpc]; rfl, hsp, hload, memory_exact {} idleVM _ overlap rfl hrecalls fun _ => ?_⟩
  rw [hsp]
  decide

end Kmdx.Evm
