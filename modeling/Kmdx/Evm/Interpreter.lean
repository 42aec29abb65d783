import Kmdx.Executive
import Kmdx.Evm.JumpDests

/-!
# The interpreter's way through the code (`LegacyVM::interpretCases`, `VM::interpretCases`)

A step fetches the instruction at `m_PC`, adjusts the stack and charges for it. The instructions that read the code or
move in it are written out; the others (`Cases`) look at the opcode, the program counter and the machine, and go on
with the next instruction or end. Every run from the first byte stays on the instructions of the code
(`boundary_of_reaches`).
-/

namespace Kmdx.Evm

open Instruction

/-- What the interpreter runs: `m_code`, `m_jumpDests` and `m_pool`. -/
structure Program where
  code : Bytes
  jumpDests : List Nat
  pool : List U256 := []

/-- The stack, its top first, `m_io_gas`, and the rest: memory, return data and what is behind `m_ext`. -/
structure Machine (σ : Type) where
  pc : Nat
  stack : List U256
  gas : Nat
  rest : σ

inductive Outcome (σ ρ : Type)
  | next (m : Machine σ)
  | throw (e : VMException) (m : Machine σ)
  | stop (m : Machine σ)
  | done (r : ρ)

/-- The cases of the other instructions: what they leave of the stack, the gas and the rest, or how they end. -/
def Cases (σ ρ : Type) : Type := UInt8 → Machine σ → Except ρ (List U256 × Nat × σ)

/-- `VMSchedule::stackLimit` -/
def stackLimit : Nat := 1024

/-- `tierStepGas` of `Tier::VeryLow`, `Tier::Mid` and `Tier::High` -/
def veryLowGas : Nat := 3

def midGas : Nat := 8

def highGas : Nat := 10

variable {σ ρ : Type}

/-- `adjustStack` -/
def adjustStack (m : Machine σ) (removed added : Nat) (k : Outcome σ ρ) : Outcome σ ρ :=
  if m.stack.length < removed then .throw .stackUnderflow m
  else if stackLimit < m.stack.length - removed + added then .throw .outOfStack m
  else k

/-- `updateIOGas`, with `m_runGas` -/
def updateIOGas (m : Machine σ) (runGas : Nat) (k : Machine σ → Outcome σ ρ) : Outcome σ ρ :=
  if m.gas < runGas then .throw .outOfGas m else k { m with gas := m.gas - runGas }

/-- The number made of `n` bytes of code from `pc` on. -/
def pushed (code : Bytes) (pc n : Nat) : U256 :=
  (List.range n).foldl (fun v i => v <<< 8 ||| BitVec.ofNat 256 (code.getD (pc + i) 0).toNat) 0

/-- `m_PC = verifyJumpDest(..)` -/
def jump (p : Program) (dest : U256) (m : Machine σ) : Outcome σ ρ :=
  match verifyJumpDest p.jumpDests dest with
  | some pc => .next { m with pc := pc }
  | none => .throw .badJumpDestination m

/-- The place in the constant pool -/
def poolOffset (code : Bytes) (pc : Nat) : Nat := (code.getD (pc + 1) 0).toNat <<< 8 ||| (code.getD (pc + 2) 0).toNat

/-- The case of `m_OP`. `optimized` is `EVM_OPTIMIZE`, without which synthetic instructions are bad ones. -/
def interpretCase (optimized : Bool) (p : Program) (cases : Cases σ ρ) (op : UInt8) (m : Machine σ) : Outcome σ ρ :=
  if op = STOP then .stop m
  else if op = INVALID then .throw .badInstruction m
  else if isPush op then
    adjustStack m 0 1 <| updateIOGas m veryLowGas fun m =>
      .next { m with pc := m.pc + nPush op + 1, stack := pushed p.code (m.pc + 1) (nPush op) :: m.stack }
  else if op = PUSHC then
    adjustStack m 0 1 <|
      if optimized then updateIOGas m veryLowGas fun m => .next { m with
        pc := m.pc + 3 + (p.code.getD (m.pc + 3) 0).toNat
        stack := p.pool.getD (poolOffset p.code m.pc) 0 :: m.stack }
      else .throw .badInstruction m
  else if op = JUMP then
    adjustStack m 1 0 <| updateIOGas m midGas fun m => jump p m.stack.head! { m with stack := m.stack.tail }
  else if op = JUMPI then
    adjustStack m 2 0 <| updateIOGas m highGas fun m =>
      let popped := { m with stack := m.stack.tail.tail }
      if m.stack.tail.head! ≠ 0 then jump p m.stack.head! popped else .next { popped with pc := m.pc + 1 }
  else if op = JUMPC then
    adjustStack m 1 0 <|
      if optimized then updateIOGas m midGas fun m =>
        .next { m with pc := m.stack.head!.toNat % 2 ^ 64, stack := m.stack.tail }
      else .throw .badInstruction m
  else if op = JUMPCI then
    adjustStack m 2 0 <|
      if optimized then updateIOGas m highGas fun m => .next { m with
        pc := if m.stack.tail.head! ≠ 0 then m.stack.head!.toNat % 2 ^ 64 else m.pc + 1
        stack := m.stack.tail.tail }
      else .throw .badInstruction m
  else
    match cases op m with
    | .ok (stack, gas, rest) => .next { pc := m.pc + 1, stack := stack, gas := gas, rest := rest }
    | .error r => .done r

/-- One instruction -/
def step (optimized : Bool) (p : Program) (cases : Cases σ ρ) (m : Machine σ) : Outcome σ ρ :=
  interpretCase optimized p cases (p.code.getD m.pc 0) m

/-- The machines of a run -/
def Reaches (optimized : Bool) (p : Program) (cases : Cases σ ρ) : Machine σ → Machine σ → Prop :=
  Relation.ReflTransGen fun m m' => step optimized p cases m = .next m'

/-- The program of a code after the first pass -/
def program (code : Code) : Program where
  code := (firstPass code).1
  jumpDests := (firstPass code).2

/-! ### What a step does -/

variable {p : Program} {cases : Cases σ ρ} {m m' : Machine σ} {op : UInt8}

theorem adjustStack_next {removed added : Nat} {k : Outcome σ ρ} (h : adjustStack m removed added k = .next m') :
    removed ≤ m.stack.length ∧ k = .next m' := by
  rw [adjustStack] at h
  split at h
  · cases h
  · split at h
    · cases h
    · exact ⟨by omega, h⟩

theorem updateIOGas_next {runGas : Nat} {k : Machine σ → Outcome σ ρ} (h : updateIOGas m runGas k = .next m') :
    k { m with gas := m.gas - runGas } = .next m' := by
  rw [updateIOGas] at h
  split at h
  · cases h
  · exact h

theorem jump_next {dest : U256} (h : jump p dest m = (.next m' : Outcome σ ρ)) :
    verifyJumpDest p.jumpDests dest = some m'.pc := by
  rw [jump] at h
  split at h
  · rename_i pc hpc
    cases h
    exact hpc
  · cases h

theorem nPush_of_not (h : isPush op = false) : nPush op = 0 := by
  rw [nPush, h]
  rfl

theorem pushed_congr {c c' : Bytes} {pc pc' n : Nat} (h : ∀ i, i < n → c.getD (pc + i) 0 = c'.getD (pc' + i) 0) :
    pushed c pc n = pushed c' pc' n := by
  rw [pushed, pushed]
  refine List.foldl_ext _ _ _ fun v i hi => ?_
  rw [h i (List.mem_range.1 hi)]

/-- The case of a `PUSH` -/
theorem interpretCase_push (optimized : Bool) (p : Program) (hpush : isPush op = true) :
    interpretCase optimized p cases op m = adjustStack m 0 1 (updateIOGas m veryLowGas fun m => .next { m with
      pc := m.pc + nPush op + 1, stack := pushed p.code (m.pc + 1) (nPush op) :: m.stack }) := by
  have hstop : op ≠ STOP := by
    rintro rfl
    cases hpush
  have hinvalid : op ≠ INVALID := by
    rintro rfl
    cases hpush
  rw [interpretCase, if_neg hstop, if_neg hinvalid, if_pos hpush]

/-- A step goes on with the next instruction, or jumps to what has been verified. -/
theorem step_next (h : step false p cases m = .next m') :
    p.code.getD m.pc 0 ≠ STOP ∧
      (p.code.getD m.pc 0 ≠ JUMP ∧ m'.pc = m.pc + nPush (p.code.getD m.pc 0) + 1 ∨
        (p.code.getD m.pc 0 = JUMP ∨ p.code.getD m.pc 0 = JUMPI) ∧
          ∃ dest, verifyJumpDest p.jumpDests dest = some m'.pc) := by
  rw [step, interpretCase] at h
  generalize p.code.getD m.pc 0 = op at h
  by_cases hstop : op = STOP
  · rw [if_pos hstop] at h
    cases h
  refine ⟨hstop, ?_⟩
  rw [if_neg hstop] at h
  by_cases hinvalid : op = INVALID
  · rw [if_pos hinvalid] at h
    cases h
  rw [if_neg hinvalid] at h
  by_cases hpush : isPush op = true
  · rw [if_pos hpush] at h
    cases updateIOGas_next (adjustStack_next h).2
    refine .inl ⟨?_, rfl⟩
    rintro rfl
    cases hpush
  rw [if_neg hpush] at h
  rw [nPush_of_not (Bool.eq_false_iff.2 hpush)]
  by_cases hpushc : op = PUSHC
  · rw [if_pos hpushc] at h
    cases (adjustStack_next h).2
  rw [if_neg hpushc] at h
  by_cases hjump : op = JUMP
  · rw [if_pos hjump] at h
    have hnext := updateIOGas_next (adjustStack_next h).2
    exact .inr ⟨.inl hjump, _, jump_next hnext⟩
  rw [if_neg hjump] at h
  by_cases hjumpi : op = JUMPI
  · rw [if_pos hjumpi] at h
    have hnext := updateIOGas_next (adjustStack_next h).2
    dsimp only at hnext
    split at hnext
    · exact .inr ⟨.inr hjumpi, _, jump_next hnext⟩
    · cases hnext
      exact .inl ⟨hjump, rfl⟩
  rw [if_neg hjumpi] at h
  by_cases hjumpc : op = JUMPC
  · rw [if_pos hjumpc] at h
    cases (adjustStack_next h).2
  rw [if_neg hjumpc] at h
  by_cases hjumpci : op = JUMPCI
  · rw [if_pos hjumpci] at h
    cases (adjustStack_next h).2
  rw [if_neg hjumpci] at h
  split at h
  · cases h
    exact .inl ⟨hjump, rfl⟩
  · cases h

/-! ### Runs -/

variable {code : Code} {pc : Nat}

/-- The program counter is where an instruction begins, or in the zeros behind the code. -/
structure OnCode (code : Code) (pc : Nat) : Prop where
  boundary : Boundary code.bytes pc
  lt : pc < code.bytes.length + 33

theorem nPush_le (op : UInt8) : nPush op ≤ 32 := by
  rw [nPush]
  split
  · rename_i h
    have hle : op.toNat ≤ 0x7f := by
      have h' : PUSH1 ≤ op ∧ op ≤ PUSH32 := by simpa [isPush] using h
      exact UInt8.le_iff_toNat_le.1 h'.2
    have hone : PUSH1.toNat = 0x60 := rfl
    omega
  · exact Nat.zero_le _

theorem Valid.onCode (h : Valid code.bytes pc) : OnCode code pc := by
  obtain ⟨hlt, -⟩ := List.getElem?_eq_some_iff.1 h.get
  exact ⟨h.boundary, by omega⟩

/-- The instruction at the program counter: that of the code, or `STOP` behind it. -/
theorem OnCode.get (h : OnCode code pc) :
    (∃ op, code.bytes[pc]? = some op ∧ (program code).code.getD pc 0 = marked op) ∨
      code.bytes.length ≤ pc ∧ (program code).code.getD pc 0 = STOP := by
  obtain ⟨-, hget, hzero⟩ := code_spec code
  by_cases hlt : pc < code.bytes.length
  · have hop : code.bytes[pc]? = some code.bytes[pc] := List.getElem?_eq_getElem hlt
    exact .inl ⟨_, hop, hget pc _ h.boundary hop⟩
  · exact .inr ⟨not_lt.1 hlt, hzero pc (not_lt.1 hlt)⟩

/-- The instruction behind one that goes on. -/
theorem OnCode.next (h : OnCode code pc) (hstop : (program code).code.getD pc 0 ≠ STOP) :
    OnCode code (pc + nPush ((program code).code.getD pc 0) + 1) := by
  rcases h.get with ⟨op, hop, hget⟩ | ⟨-, hget⟩
  · rw [hget, nPush_marked]
    obtain ⟨hlt, -⟩ := List.getElem?_eq_some_iff.1 hop
    have hle := nPush_le op
    exact ⟨h.boundary.next hop, by omega⟩
  · exact absurd hget hstop

theorem OnCode.step (h : OnCode code m.pc) (hstep : step false (program code) cases m = .next m') : OnCode code m'.pc := by
  obtain ⟨hstop, ⟨-, hpc⟩ | ⟨-, dest, hdest⟩⟩ := step_next hstep
  · rw [hpc]
    exact h.next hstop
  · obtain ⟨hvalid, heq⟩ := (verifyJumpDest_iff code dest _).1 hdest
    rw [heq]
    exact hvalid.onCode

/-- No run leaves the instructions of the code. -/
theorem boundary_of_reaches (hm : m.pc = 0) (h : Reaches false (program code) cases m m') : OnCode code m'.pc := by
  induction h with
  | refl =>
    rw [hm]
    exact ⟨.refl 0, by omega⟩
  | tail _ hstep ih => exact ih.step hstep

/-- A jump that is taken ends at a `JUMPDEST` of the code. -/
theorem valid_of_jump (hop : (program code).code.getD m.pc 0 = JUMP ∨ (program code).code.getD m.pc 0 = JUMPI)
    (h : step false (program code) cases m = .next m') :
    Valid code.bytes m'.pc ∨ (program code).code.getD m.pc 0 = JUMPI ∧ m'.pc = m.pc + 1 := by
  obtain ⟨-, ⟨hne, hpc⟩ | ⟨-, dest, hdest⟩⟩ := step_next h
  · have hjumpi := hop.resolve_left hne
    rw [hjumpi] at hpc
    exact .inr ⟨hjumpi, hpc⟩
  · obtain ⟨hvalid, heq⟩ := (verifyJumpDest_iff code dest _).1 hdest
    rw [heq]
    exact .inl hvalid

/-- A run that begins at the first byte of the code stays on its instructions: the program counter is never inside of
push data, a jump ends at a valid destination, and behind the code there is only a `STOP`. -/
def StaysOn (code : Code) : Prop :=
  ∀ (σ ρ : Type) (cases : Cases σ ρ) (m m' : Machine σ), m.pc = 0 → Reaches false (program code) cases m m' →
    OnCode code m'.pc ∧
    (code.bytes.length ≤ m'.pc → step false (program code) cases m' = .stop m') ∧
    ∀ m'', step false (program code) cases m' = .next m'' →
      (program code).code.getD m'.pc 0 = JUMP ∨ (program code).code.getD m'.pc 0 = JUMPI →
        Valid code.bytes m''.pc ∨ (program code).code.getD m'.pc 0 = JUMPI ∧ m''.pc = m'.pc + 1

/-- `verifyJumpDest` accepts the `JUMPDEST`s at which an instruction begins, and no run leaves the instructions. -/
theorem jumps_valid (code : Code) :
    (∀ (dest : U256) (d : Nat),
      verifyJumpDest (firstPass code).2 dest = some d ↔ Valid code.bytes dest.toNat ∧ d = dest.toNat) ∧ StaysOn code := by
  refine ⟨verifyJumpDest_iff code, fun σ ρ cases m m' hm h => ?_⟩
  refine ⟨boundary_of_reaches hm h, fun hlen => ?_, fun m'' hstep hop => valid_of_jump hop hstep⟩
  obtain ⟨-, -, hzero⟩ := code_spec code
  have hstop : (program code).code.getD m'.pc 0 = STOP := hzero _ hlen
  rw [step, interpretCase, if_pos hstop]

end Kmdx.Evm
