import Kmdx.Evm.Interpreter

/-!
# The optimisations of the first pass (`VM::optimize` with `EVM_OPTIMIZE`)

A `PUSH` of more than five bytes becomes a `PUSHC`: its constant is put into a pool, and its place there and the number
of bytes left are written over the first three bytes that were to be pushed. A jump behind a `PUSH` becomes one that
does not look for its destination, if that is valid. The interpreter does the same with this code as with the other
one (`step_optimized`), up to the first constant whose place does not fit into its 16 bits.
-/

namespace Kmdx.Evm

open Instruction List

/-- `val`, as the optimiser decodes it. -/
def constant (code : Bytes) (pc n : Nat) : U256 :=
  (List.range (n - 1)).foldl (fun v i => v <<< 8 ||| BitVec.ofNat 256 (code.getD (pc + 2 + i) 0).toNat)
    (BitVec.ofNat 256 (code.getD (pc + 1) 0).toNat)

/-- Adds the value to the constant pool and replaces `PUSHn` with `PUSHC`. -/
def stash (code : Bytes) (pool : List U256) (pc n : Nat) (val : U256) : Bytes × List U256 :=
  if 5 < n then
    let poolOff := pool.length % 2 ^ 16
    ((((code.set pc PUSHC).set (pc + 3) (UInt8.ofNat (n - 2))).set (pc + 2) (UInt8.ofNat (poolOff &&& 0xff))).set
      (pc + 1) (UInt8.ofNat (poolOff >>> 8)), pool ++ [val])
  else (code, pool)

/-- Replaces `JUMP` or `JUMPI` to a constant location with `JUMPC` or `JUMPCI`. -/
def replaceJump (jumpDests : List Nat) (code : Bytes) (i : Nat) (val : U256) : Bytes :=
  let op := code.getD i 0
  if op = JUMP then
    if (verifyJumpDest jumpDests val).isSome then code.set i JUMPC else code
  else if op = JUMPI then
    if (verifyJumpDest jumpDests val).isSome then code.set i JUMPCI else code
  else code

/-- The loop of the optimisations from `pc` on: `m_code`, and `m_pool`. -/
def optimizeFrom (nBytes : Nat) (jumpDests : List Nat) (pc : Nat) (code : Bytes) (pool : List U256) : Bytes × List U256 :=
  if pc < nBytes then
    let op := code.getD pc 0
    if isPush op then
      let n := nPush op
      let val := constant code pc n
      let stashed := stash code pool pc n val
      optimizeFrom nBytes jumpDests (pc + n + 1) (replaceJump jumpDests stashed.1 (pc + n + 1) val) stashed.2
    else optimizeFrom nBytes jumpDests (pc + 1) code pool
  else (code, pool)
termination_by nBytes - pc

/-- What `VM::optimize` leaves with `EVM_OPTIMIZE`. -/
def optimize (code : Code) : Program where
  code := (optimizeFrom code.bytes.length (firstPass code).2 0 (firstPass code).1 []).1
  jumpDests := (firstPass code).2
  pool := (optimizeFrom code.bytes.length (firstPass code).2 0 (firstPass code).1 []).2

/-- What a `PUSH` at `pc` pushes. -/
def pushedAt (code : Code) (pc : Nat) : U256 :=
  pushed (program code).code (pc + 1) (nPush ((program code).code.getD pc 0))

/-- The places of the constants in the code, from `pc` on -/
def constantsFrom (code : Bytes) (pc : Nat) : List Nat :=
  if pc < code.length then
    if 5 < nPush (code.getD pc 0) then pc :: constantsFrom code (pc + nPush (code.getD pc 0) + 1)
    else constantsFrom code (pc + nPush (code.getD pc 0) + 1)
  else []
termination_by code.length - pc

/-- The `PUSH` at `pc` gets the constant of another one, which has the same number up to a multiple of 2^16. -/
def Misnumbered (code : Code) (pc : Nat) : Prop :=
  ∃ k pc', (constantsFrom code.bytes 0)[k]? = some pc ∧ (constantsFrom code.bytes 0)[k % 2 ^ 16]? = some pc' ∧
    pushedAt code pc' ≠ pushedAt code pc

/-! ### Constants -/

variable {code : Code} {bs now : Bytes} {pool : List U256} {dests : List Nat} {pc q n : Nat} {op : UInt8}

/-- The optimiser decodes what the interpreter would push. -/
theorem constant_eq (hn : 0 < n) : constant bs pc n = pushed bs (pc + 1) n := by
  obtain ⟨n, rfl⟩ := Nat.exists_eq_succ_of_ne_zero hn.ne'
  rw [constant, pushed, range_succ_eq_map, foldl_cons, foldl_map, Nat.succ_sub_one]
  have hzero : (0 : U256) <<< 8 ||| BitVec.ofNat 256 (bs.getD (pc + 1 + 0) 0).toNat =
      BitVec.ofNat 256 (bs.getD (pc + 1) 0).toNat := by simp
  rw [hzero]
  refine foldl_ext _ _ _ fun v i _ => ?_
  rw [show pc + 2 + i = pc + 1 + i.succ by omega]

variable {i k : Nat}

theorem getD_set_self (l : Bytes) (x : UInt8) (h : i < l.length) : (l.set i x).getD i 0 = x := by
  rw [List.getD_eq_getElem?_getD, List.getElem?_set_self h, Option.getD_some]

/-- The two bytes that a place in the pool is written into. -/
theorem ofNat_shift_or {off : Nat} (h : off < 2 ^ 16) :
    (UInt8.ofNat (off >>> 8)).toNat <<< 8 ||| (UInt8.ofNat (off &&& 0xff)).toNat = off := by
  have hhigh : (UInt8.ofNat (off >>> 8)).toNat = off / 256 := by
    rw [UInt8.toNat_ofNat', Nat.shiftRight_eq_div_pow, Nat.mod_eq_of_lt (by omega)]
  have hlow : (UInt8.ofNat (off &&& 0xff)).toNat = off % 256 := by
    rw [UInt8.toNat_ofNat', show (0xff : Nat) = 2 ^ 8 - 1 from rfl, Nat.and_two_pow_sub_one_eq_mod, Nat.mod_mod]
  rw [hhigh, hlow, ← Nat.shiftLeft_add_eq_or_of_lt (Nat.mod_lt _ (by decide)), Nat.shiftLeft_eq]
  omega

/-- What `stash` writes over a `PUSH` -/
theorem stash_spec (hn : 5 < n) (hn' : n ≤ 32) (hlen : pc + 3 < now.length) (pool : List U256) (val : U256) :
    (stash now pool pc n val).1.getD pc 0 = PUSHC ∧ poolOffset (stash now pool pc n val).1 pc = pool.length % 2 ^ 16 ∧
      ((stash now pool pc n val).1.getD (pc + 3) 0).toNat = n - 2 ∧ (stash now pool pc n val).2 = pool ++ [val] := by
  have hlow : pool.length % 2 ^ 16 < 2 ^ 16 := Nat.mod_lt _ (by decide)
  generalize hoff : pool.length % 2 ^ 16 = off at hlow
  have hstash : stash now pool pc n val = ((((now.set pc PUSHC).set (pc + 3) (UInt8.ofNat (n - 2))).set (pc + 2)
      (UInt8.ofNat (off &&& 0xff))).set (pc + 1) (UInt8.ofNat (off >>> 8)), pool ++ [val]) := by
    rw [stash, if_pos hn, hoff]
  rw [hstash]
  refine ⟨?_, ?_, ?_, rfl⟩
  · rw [getD_set_ne _ _ (by omega), getD_set_ne _ _ (by omega), getD_set_ne _ _ (by omega), getD_set_self _ _ (by omega)]
  · rw [poolOffset, getD_set_self _ _ (by simp; omega), getD_set_ne _ _ (by omega), getD_set_self _ _ (by simp; omega)]
    exact ofNat_shift_or hlow
  · rw [getD_set_ne _ _ (by omega), getD_set_ne _ _ (by omega), getD_set_self _ _ (by simp; omega)]
    simp
    omega

/-- It writes nothing else. -/
theorem stash_getD (hi : i < pc ∨ pc + n < i) (val : U256) : (stash now pool pc n val).1.getD i 0 = now.getD i 0 := by
  rw [stash]
  split
  · rw [getD_set_ne _ _ (by omega), getD_set_ne _ _ (by omega), getD_set_ne _ _ (by omega), getD_set_ne _ _ (by omega)]
  · rfl

theorem stash_length (val : U256) : (stash now pool pc n val).1.length = now.length := by
  rw [stash]
  split <;> simp

theorem replaceJump_getD {j : Nat} (h : i ≠ j) (val : U256) : (replaceJump dests now i val).getD j 0 = now.getD j 0 := by
  rw [replaceJump]
  split_ifs
  · exact getD_set_ne _ _ h
  · rfl
  · exact getD_set_ne _ _ h
  · rfl
  · rfl

theorem replaceJump_length (i : Nat) (val : U256) : (replaceJump dests now i val).length = now.length := by
  rw [replaceJump]
  split_ifs <;> simp

/-! ### What the loop leaves -/

/-- A `PUSH` of a valid destination stands in front of `pc`. -/
structure Known (code : Code) (pc push : Nat) : Prop where
  boundary : Boundary code.bytes push
  get : ∃ op, code.bytes[push]? = some op ∧ isPush op = true ∧ pc = push + nPush op + 1
  valid : (verifyJumpDest (firstPass code).2 (pushedAt code push)).isSome = true

/-- The first byte of the instruction at `pc`, if it has not been read yet. -/
inductive Head (code : Code) (now : Bytes) (pc : Nat) : Prop
  | same : now.getD pc 0 = (program code).code.getD pc 0 → Head code now pc
  | jump (push : Nat) : (program code).code.getD pc 0 = JUMP → now.getD pc 0 = JUMPC → Known code pc push → Head code now pc
  | jumpi (push : Nat) : (program code).code.getD pc 0 = JUMPI → now.getD pc 0 = JUMPCI → Known code pc push →
    Head code now pc

/-- The instruction at `pc` when it has been read. -/
inductive Rewritten (code : Code) (now : Bytes) (pc : Nat) : Prop
  | head : nPush ((program code).code.getD pc 0) ≤ 5 → Head code now pc → (∀ i < nPush ((program code).code.getD pc 0),
      now.getD (pc + 1 + i) 0 = (program code).code.getD (pc + 1 + i) 0) → Rewritten code now pc
  | constant (k : Nat) : 5 < nPush ((program code).code.getD pc 0) → (constantsFrom code.bytes 0)[k]? = some pc →
    now.getD pc 0 = PUSHC → poolOffset now pc = k % 2 ^ 16 →
    (now.getD (pc + 3) 0).toNat = nPush ((program code).code.getD pc 0) - 2 → Rewritten code now pc

/-- Only the bytes of the instruction matter. -/
theorem Rewritten.congr {now' : Bytes} (h : Rewritten code now pc)
    (hnow : ∀ i, i ≤ pc + nPush ((program code).code.getD pc 0) → now'.getD i 0 = now.getD i 0) : Rewritten code now' pc := by
  have hpc := hnow pc (by omega)
  cases h with
  | head hshort hhead hdata =>
    refine .head hshort ?_ fun i hi => (hnow _ (by omega)).trans (hdata i hi)
    cases hhead with
    | same hsame => exact .same (hpc.trans hsame)
    | jump push hop hc hknown => exact .jump push hop (hpc.trans hc) hknown
    | jumpi push hop hc hknown => exact .jumpi push hop (hpc.trans hc) hknown
  | constant k hlong hk hop hoff hrest =>
    refine .constant k hlong hk (hpc.trans hop) ?_ ((congrArg _ (hnow _ (by omega))).trans hrest)
    rw [← hoff, poolOffset, poolOffset, hnow _ (by omega), hnow _ (by omega)]

/-- The code and the pool in the loop -/
structure Loop (code : Code) (pc : Nat) (now : Bytes) (pool : List U256) : Prop where
  boundary : Boundary code.bytes pc
  length : now.length = code.bytes.length + 33
  behind : ∀ i, pc < i → now.getD i 0 = (program code).code.getD i 0
  head : Head code now pc
  read : ∀ q, Boundary code.bytes q → q < pc → Rewritten code now q
  pool : ∃ ks, constantsFrom code.bytes 0 = ks ++ constantsFrom code.bytes pc ∧ pool = ks.map (pushedAt code)

theorem isPush_iff : isPush op = true ↔ 0 < nPush op := by
  rw [nPush]
  split
  · rename_i h
    exact ⟨fun _ => by omega, fun _ => h⟩
  · rename_i h
    exact ⟨fun h' => absurd h' h, fun h' => absurd h' (lt_irrefl 0)⟩

theorem constantsFrom_of_get (hop : bs[pc]? = some op) : constantsFrom bs pc =
    (if 5 < nPush op then [pc] else []) ++ constantsFrom bs (pc + nPush op + 1) := by
  obtain ⟨hlt, -⟩ := List.getElem?_eq_some_iff.1 hop
  conv_lhs => rw [constantsFrom]
  rw [if_pos hlt, getD_eq_of_get hop]
  split <;> rfl

/-- The instruction at a boundary in front of the end -/
theorem program_getD (hb : Boundary code.bytes pc) (hop : code.bytes[pc]? = some op) :
    (program code).code.getD pc 0 = marked op := (code_spec code).2.1 pc op hb hop

theorem nPush_program (hb : Boundary code.bytes pc) (hop : code.bytes[pc]? = some op) :
    nPush ((program code).code.getD pc 0) = nPush op := by
  rw [program_getD hb hop, nPush_marked]

/-- What has been read ends in front of what is read. -/
theorem Loop.read_keep {now' : Bytes} (h : Loop code pc now pool) (hnow : ∀ i, i < pc → now'.getD i 0 = now.getD i 0)
    (hq : Boundary code.bytes q) (hlt : q < pc) : Rewritten code now' q := by
  refine (h.read q hq hlt).congr fun i hi => hnow i ?_
  have hfollows := hq.of_le h.boundary hlt.le
  cases hfollows with
  | refl => omega
  | next op hop hfollows =>
    rw [nPush_program hq hop] at hi
    have hle := hfollows.le
    omega

/-- A turn of the loop at an instruction that is not pushed from. -/
theorem Loop.skip (h : Loop code pc now pool) (hop : code.bytes[pc]? = some op) (hpush : nPush op = 0) :
    Loop code (pc + 1) now pool := by
  have hzero : nPush ((program code).code.getD pc 0) = 0 := (nPush_program h.boundary hop).trans hpush
  obtain ⟨ks, hks, hpool⟩ := h.pool
  refine ⟨?_, h.length, fun i hi => h.behind i (by omega), .same (h.behind _ (by omega)), fun q hq hlt => ?_, ks, ?_, hpool⟩
  · have hnext := h.boundary.next hop
    rwa [hpush] at hnext
  · rcases Nat.lt_succ_iff_lt_or_eq.1 hlt with hlt | rfl
    · exact h.read q hq hlt
    · exact .head (by omega) h.head fun i hi => by omega
  · rw [hks, constantsFrom_of_get hop, hpush]
    rfl

/-- The jump behind a `PUSH` -/
theorem head_replaceJump {val : U256} {push : Nat} (hpc : pc < now.length)
    (hsame : now.getD pc 0 = (program code).code.getD pc 0)
    (hknown : (verifyJumpDest (firstPass code).2 val).isSome = true → Known code pc push) :
    Head code (replaceJump (firstPass code).2 now pc val) pc := by
  rw [replaceJump, hsame]
  split_ifs with hjump hvalid hjumpi hvalid
  · exact .jump push hjump (getD_set_self _ _ hpc) (hknown hvalid)
  · exact .same hsame
  · exact .jumpi push hjumpi (getD_set_self _ _ hpc) (hknown hvalid)
  · exact .same hsame
  · exact .same hsame

/-- A turn of the loop at a `PUSH`. -/
theorem Loop.push (h : Loop code pc now pool) (hop : code.bytes[pc]? = some op) (hpush : 0 < nPush op)
    (hsame : now.getD pc 0 = (program code).code.getD pc 0) :
    Loop code (pc + nPush op + 1) (replaceJump (firstPass code).2 (stash now pool pc (nPush op) (pushedAt code pc)).1
      (pc + nPush op + 1) (pushedAt code pc)) (stash now pool pc (nPush op) (pushedAt code pc)).2 := by
  have hn : nPush ((program code).code.getD pc 0) = nPush op := nPush_program h.boundary hop
  obtain ⟨hlt, -⟩ := List.getElem?_eq_some_iff.1 hop
  have hle := nPush_le op
  have hlength := h.length
  have hkeep : ∀ i, i ≠ pc + nPush op + 1 → i < pc ∨ pc + nPush op < i →
      (replaceJump (firstPass code).2 (stash now pool pc (nPush op) (pushedAt code pc)).1 (pc + nPush op + 1)
        (pushedAt code pc)).getD i 0 = now.getD i 0 := by
    intro i hi hout
    rw [replaceJump_getD hi.symm, stash_getD hout]
  obtain ⟨ks, hks, hpool⟩ := h.pool
  refine ⟨h.boundary.next hop, ?_, ?_, ?_, fun q hq hqlt => ?_, ?_⟩
  · rw [replaceJump_length, stash_length, hlength]
  · intro i hi
    rw [hkeep i (by omega) (by omega), h.behind i (by omega)]
  · have hknown : (verifyJumpDest (firstPass code).2 (pushedAt code pc)).isSome = true → Known code (pc + nPush op + 1) pc :=
      fun hvalid => ⟨h.boundary, ⟨op, hop, isPush_iff.2 hpush, rfl⟩, hvalid⟩
    refine head_replaceJump ?_ ?_ hknown
    · rw [stash_length, hlength]
      omega
    · rw [stash_getD (by omega), h.behind _ (by omega)]
  · by_cases hqpc : q < pc
    · exact h.read_keep (fun i hi => hkeep i (by omega) (by omega)) hq hqpc
    · have hqeq : q = pc := by
        rcases (follows_iff hop).1 (h.boundary.of_le hq (not_lt.1 hqpc)) with rfl | hfollows
        · rfl
        · have hge := hfollows.le
          omega
      subst hqeq
      by_cases hlong : 5 < nPush op
      · obtain ⟨hpushc, hoff, hrest, -⟩ := stash_spec hlong hle (by omega : q + 3 < now.length) pool (pushedAt code q)
        refine .constant ks.length (hn.symm ▸ hlong) ?_ ?_ ?_ ?_
        · rw [hks, constantsFrom_of_get hop, if_pos hlong, List.getElem?_append_right le_rfl, Nat.sub_self]
          rfl
        · rw [replaceJump_getD (by omega), hpushc]
        · rw [poolOffset, replaceJump_getD (by omega), replaceJump_getD (by omega)]
          rw [hpool, length_map] at hoff
          exact hpool ▸ hoff
        · rw [replaceJump_getD (by omega), hrest, hn]
      · have hstash : stash now pool q (nPush op) (pushedAt code q) = (now, pool) := if_neg hlong
        rw [hstash]
        refine .head (by omega) (.same ?_) fun i hi => ?_
        · rw [replaceJump_getD (by omega), hsame]
        · rw [replaceJump_getD (by omega), h.behind _ (by omega)]
  · by_cases hlong : 5 < nPush op
    · refine ⟨ks ++ [pc], ?_, ?_⟩
      · rw [hks, constantsFrom_of_get hop, if_pos hlong, append_assoc]
      · rw [(stash_spec hlong hle (by omega) _ _).2.2.2, hpool, map_append]
        rfl
    · have hstash : stash now pool pc (nPush op) (pushedAt code pc) = (now, pool) := if_neg hlong
      refine ⟨ks, ?_, ?_⟩
      · rw [hks, constantsFrom_of_get hop, if_neg hlong, nil_append]
      · rw [hstash, hpool]

/-- The loop as a whole -/
theorem Loop.optimizeFrom (h : Loop code pc now pool) : ∃ pc', code.bytes.length ≤ pc' ∧
    Loop code pc' (optimizeFrom code.bytes.length (firstPass code).2 pc now pool).1
      (optimizeFrom code.bytes.length (firstPass code).2 pc now pool).2 := by
  induction hsize : code.bytes.length - pc using Nat.strong_induction_on generalizing pc now pool with
  | _ k ih =>
    rw [Evm.optimizeFrom]
    by_cases hlt : pc < code.bytes.length
    · rw [if_pos hlt]
      have hop : code.bytes[pc]? = some code.bytes[pc] := List.getElem?_eq_getElem hlt
      have hn := nPush_program h.boundary hop
      dsimp only
      split
      · rename_i hpush
        have hsame : now.getD pc 0 = (program code).code.getD pc 0 := by
          cases h.head with
          | same hsame => exact hsame
          | jump push _ hc _ =>
            rw [hc] at hpush
            cases hpush
          | jumpi push _ hc _ =>
            rw [hc] at hpush
            cases hpush
        have hpos : 0 < nPush code.bytes[pc] := by
          rw [← hn, ← hsame]
          exact isPush_iff.1 hpush
        have hval : constant now pc (nPush code.bytes[pc]) = pushedAt code pc := by
          rw [constant_eq hpos, pushedAt, hn]
          exact pushed_congr fun i _ => h.behind _ (by omega)
        rw [hsame, hn, hval]
        exact ih _ (by omega) (h.push hop hpos hsame) rfl
      · rename_i hpush
        have hzero : nPush code.bytes[pc] = 0 := by
          cases h.head with
          | same hsame =>
            rw [← hn, ← hsame]
            exact nPush_of_not (Bool.eq_false_iff.2 hpush)
          | jump push hjump _ _ =>
            rw [← hn, hjump]
            rfl
          | jumpi push hjumpi _ _ =>
            rw [← hn, hjumpi]
            rfl
        exact ih _ (by omega) (h.skip hop hzero) rfl
    · rw [if_neg hlt]
      exact ⟨pc, not_lt.1 hlt, h⟩

theorem Loop.start (code : Code) : Loop code 0 (firstPass code).1 [] where
  boundary := .refl 0
  length := (code_spec code).1
  behind _ _ := rfl
  head := .same rfl
  read _ _ hlt := absurd hlt (Nat.not_lt_zero _)
  pool := ⟨[], rfl, rfl⟩

/-- Only one instruction would begin behind the code. -/
theorem boundary_end {pc' : Nat} (hb : Boundary code.bytes pc) (hb' : Boundary code.bytes pc')
    (hle : code.bytes.length ≤ pc) (hle' : code.bytes.length ≤ pc') : pc = pc' := by
  have hend : ∀ {x y : Nat}, code.bytes.length ≤ x → Follows code.bytes x y → x = y := by
    intro x y hx hfollows
    cases hfollows with
    | refl => rfl
    | next op hop _ =>
      obtain ⟨hlt, -⟩ := List.getElem?_eq_some_iff.1 hop
      omega
  rcases le_total pc pc' with h | h
  · exact hend hle (hb.of_le hb' h)
  · exact (hend hle' (hb'.of_le hb h)).symm

/-- What the interpreter finds at an instruction of the optimised code -/
theorem rewritten_optimize (h : OnCode code pc) :
    Rewritten code (optimize code).code pc ∨
      (program code).code.getD pc 0 = STOP ∧ (optimize code).code.getD pc 0 = STOP := by
  obtain ⟨pc', hpc', hloop⟩ := (Loop.start code).optimizeFrom
  by_cases hlt : pc < code.bytes.length
  · exact .inl (hloop.read pc h.boundary (by omega))
  · obtain rfl := boundary_end h.boundary hloop.boundary (not_lt.1 hlt) hpc'
    have hstop : (program code).code.getD pc 0 = STOP := (code_spec code).2.2 pc hpc'
    refine .inr ⟨hstop, ?_⟩
    cases hloop.head with
    | same hsame => exact hsame.trans hstop
    | jump push hjump _ _ => cases hstop.symm.trans hjump
    | jumpi push hjumpi _ _ => cases hstop.symm.trans hjumpi

theorem pool_optimize (code : Code) : (optimize code).pool = (constantsFrom code.bytes 0).map (pushedAt code) := by
  obtain ⟨pc', hpc', hloop⟩ := (Loop.start code).optimizeFrom
  obtain ⟨ks, hks, hpool⟩ := hloop.pool
  have hend : constantsFrom code.bytes pc' = [] := by rw [constantsFrom, if_neg (not_lt.2 hpc')]
  rw [hks, hend, append_nil]
  exact hpool

/-! ### The same steps -/

variable {σ ρ : Type} {cases : Cases σ ρ} {m m' : Machine σ}

/-- Behind a `PUSH`, where nothing jumps to, stands what has been pushed. -/
def Fresh (code : Code) (m : Machine σ) : Prop :=
  ∀ push op, Boundary code.bytes push → code.bytes[push]? = some op → isPush op = true → m.pc = push + nPush op + 1 →
    (program code).code.getD m.pc 0 ≠ JUMPDEST → ∃ stack, m.stack = pushedAt code push :: stack

/-- The code is read only to push from it, and what is not generated by the interpreter is not optimised. -/
theorem interpretCase_congr {p p' : Program} (hsynthetic : isSynthetic op = false) (hdests : p'.jumpDests = p.jumpDests)
    (hdata : ∀ i < nPush op, p'.code.getD (m.pc + 1 + i) 0 = p.code.getD (m.pc + 1 + i) 0) :
    interpretCase true p' cases op m = interpretCase false p cases op m := by
  have hjump : ∀ (dest : U256) (m : Machine σ), jump (ρ := ρ) p' dest m = jump p dest m := by
    intro dest m
    rw [jump, jump, hdests]
  by_cases hpush : isPush op = true
  · rw [interpretCase_push true p' hpush, interpretCase_push false p hpush]
    have hpushed : pushed p'.code (m.pc + 1) (nPush op) = pushed p.code (m.pc + 1) (nPush op) := pushed_congr hdata
    simp only [updateIOGas, hpushed]
  · have hne : op ≠ PUSHC ∧ op ≠ JUMPC ∧ op ≠ JUMPCI := by simpa [isSynthetic] using hsynthetic
    simp only [interpretCase, hpush, hne.1, hne.2.1, hne.2.2, hjump, if_false, Bool.false_eq_true]

theorem isSynthetic_marked (op : UInt8) : isSynthetic (marked op) = false := by
  rw [marked]
  split
  · decide
  · rename_i h
    exact Bool.eq_false_iff.2 h

theorem marked_of_isPush (h : isPush op = true) : marked op = op := by
  rw [marked, if_neg]
  intro hsynthetic
  have hpos := isPush_iff.1 h
  rw [(nPush_of_isSynthetic hsynthetic).1] at hpos
  exact absurd hpos (lt_irrefl 0)

/-- One instruction ends in front of another one. -/
theorem eq_of_end_eq {op' : UInt8} (hb : Boundary code.bytes pc) (hop : code.bytes[pc]? = some op)
    (hb' : Boundary code.bytes q) (hop' : code.bytes[q]? = some op') (hend : pc + nPush op = q + nPush op') : pc = q := by
  rcases le_total pc q with hle | hle
  · rcases (follows_iff hop).1 (hb.of_le hb' hle) with heq | hfollows
    · exact heq.symm
    · have hge := hfollows.le
      omega
  · rcases (follows_iff hop').1 (hb'.of_le hb hle) with heq | hfollows
    · exact heq
    · have hge := hfollows.le
      omega

/-- After each step, what stands behind a `PUSH` is either jumped to or finds what has been pushed. -/
theorem Fresh.of_step (h : OnCode code m.pc) (hstep : step false (program code) cases m = .next m') : Fresh code m' := by
  intro push op hb hop hpush hpc hne
  obtain ⟨hstop, ⟨-, hnext⟩ | ⟨-, dest, hdest⟩⟩ := step_next hstep
  · rcases h.get with ⟨op', hop', hget⟩ | ⟨-, hget⟩
    · have hn : nPush ((program code).code.getD m.pc 0) = nPush op' := nPush_program h.boundary hop'
      obtain rfl : m.pc = push := eq_of_end_eq h.boundary hop' hb hop (by omega)
      cases hop.symm.trans hop'
      rw [step, hget, marked_of_isPush hpush, interpretCase_push false (program code) hpush] at hstep
      cases updateIOGas_next (adjustStack_next hstep).2
      refine ⟨m.stack, ?_⟩
      rw [pushedAt, hget, nPush_marked]
    · exact absurd hget hstop
  · obtain ⟨hvalid, heq⟩ := (verifyJumpDest_iff code dest _).1 hdest
    rw [← heq] at hvalid
    exact absurd (program_getD hvalid.boundary hvalid.get) hne

/-- A destination verified in advance -/
theorem Known.jump {push : Nat} (h : Known code pc push) (m : Machine σ) :
    jump (ρ := ρ) (program code) (pushedAt code push) m =
    .next { m with pc := (pushedAt code push).toNat % 2 ^ 64 } := by
  obtain ⟨d, hd⟩ := Option.isSome_iff_exists.1 h.valid
  obtain ⟨hvalid, rfl⟩ := (verifyJumpDest_iff code _ d).1 hd
  have hlt : (pushedAt code push).toNat < 2 ^ 64 := by
    obtain ⟨hlt, -⟩ := List.getElem?_eq_some_iff.1 hvalid.get
    have hfits := code.fits
    have hmax : maxVector = 2 ^ 63 - 1 := rfl
    omega
  have hjump : verifyJumpDest (program code).jumpDests (pushedAt code push) = some (pushedAt code push).toNat := hd
  rw [Evm.jump, hjump, Nat.mod_eq_of_lt hlt]

theorem Known.stack {push : Nat} (h : Known code m.pc push) (hfresh : Fresh code m)
    (hne : (program code).code.getD m.pc 0 ≠ JUMPDEST) : ∃ stack, m.stack = pushedAt code push :: stack := by
  obtain ⟨op, hop, hpush, hpc⟩ := h.get
  exact hfresh push op h.boundary hop hpush hpc hne

/-- A jump that does not look for its destination does the same as one that does. -/
theorem interpretCase_jumpc {push : Nat} (p : Program) (h : Known code m.pc push) (hfresh : Fresh code m)
    (hop : (program code).code.getD m.pc 0 = JUMP) :
    interpretCase true p cases JUMPC m = interpretCase false (program code) cases JUMP m := by
  obtain ⟨stack, hstack⟩ := h.stack hfresh (by rw [hop]; decide)
  have hjumpc : interpretCase true p cases JUMPC m = adjustStack m 1 0 (updateIOGas m midGas fun m =>
    .next { m with pc := m.stack.head!.toNat % 2 ^ 64, stack := m.stack.tail }) := rfl
  have hjump : interpretCase false (program code) cases JUMP m = adjustStack m 1 0 (updateIOGas m midGas fun m =>
    jump (program code) m.stack.head! { m with stack := m.stack.tail }) := rfl
  rw [hjumpc, hjump, updateIOGas, updateIOGas, hstack, List.head!_cons, h.jump]

theorem interpretCase_jumpci {push : Nat} (p : Program) (h : Known code m.pc push) (hfresh : Fresh code m)
    (hop : (program code).code.getD m.pc 0 = JUMPI) :
    interpretCase true p cases JUMPCI m = interpretCase false (program code) cases JUMPI m := by
  obtain ⟨stack, hstack⟩ := h.stack hfresh (by rw [hop]; decide)
  have hjumpci : interpretCase true p cases JUMPCI m = adjustStack m 2 0 (updateIOGas m highGas fun m => .next { m with
    pc := if m.stack.tail.head! ≠ 0 then m.stack.head!.toNat % 2 ^ 64 else m.pc + 1
    stack := m.stack.tail.tail }) := rfl
  have hjumpi : interpretCase false (program code) cases JUMPI m = adjustStack m 2 0 (updateIOGas m highGas fun m =>
    if m.stack.tail.head! ≠ 0 then jump (program code) m.stack.head! { m with stack := m.stack.tail.tail }
    else .next { m with stack := m.stack.tail.tail, pc := m.pc + 1 }) := rfl
  rw [hjumpci, hjumpi, updateIOGas, updateIOGas, hstack, List.head!_cons, h.jump]
  split_ifs <;> rfl

/-- The constant that a `PUSHC` finds -/
theorem poolAt (hk : (constantsFrom code.bytes 0)[k]? = some pc) :
    ∃ pc', (constantsFrom code.bytes 0)[k % 2 ^ 16]? = some pc' ∧ (optimize code).pool.getD (k % 2 ^ 16) 0 =
      pushedAt code pc' := by
  obtain ⟨hlt, -⟩ := List.getElem?_eq_some_iff.1 hk
  have hlt' : k % 2 ^ 16 < (constantsFrom code.bytes 0).length := (Nat.mod_le _ _).trans_lt hlt
  refine ⟨_, List.getElem?_eq_getElem hlt', ?_⟩
  rw [pool_optimize, List.getD_eq_getElem?_getD, List.getElem?_map, List.getElem?_eq_getElem hlt',
    Option.map_some, Option.getD_some]

/-- A `PUSHC` goes on behind the bytes of the `PUSH`, with a constant of the pool. -/
theorem step_pushc (cases : Cases σ ρ) (hlong : 5 < nPush ((program code).code.getD m.pc 0))
    (hop : (optimize code).code.getD m.pc 0 = PUSHC) (hoff : poolOffset (optimize code).code m.pc = k % 2 ^ 16)
    (hrest : ((optimize code).code.getD (m.pc + 3) 0).toNat = nPush ((program code).code.getD m.pc 0) - 2) :
    step true (optimize code) cases m = adjustStack m 0 1 (updateIOGas m veryLowGas fun m' => .next { m' with
      pc := m'.pc + nPush ((program code).code.getD m.pc 0) + 1
      stack := (optimize code).pool.getD (k % 2 ^ 16) 0 :: m'.stack }) := by
  have hpushc : interpretCase true (optimize code) cases PUSHC m = adjustStack m 0 1 (updateIOGas m veryLowGas fun m =>
    .next { m with
      pc := m.pc + 3 + ((optimize code).code.getD (m.pc + 3) 0).toNat
      stack := (optimize code).pool.getD (poolOffset (optimize code).code m.pc) 0 :: m.stack }) := rfl
  rw [step, hop, hpushc, updateIOGas, updateIOGas, hoff, hrest]
  congr 4
  omega

theorem step_push (cases : Cases σ ρ) (hlong : 0 < nPush ((program code).code.getD m.pc 0)) :
    step false (program code) cases m = adjustStack m 0 1 (updateIOGas m veryLowGas fun m' => .next { m' with
      pc := m'.pc + nPush ((program code).code.getD m.pc 0) + 1, stack := pushedAt code m.pc :: m'.stack }) := by
  rw [step, interpretCase_push false (program code) (isPush_iff.2 hlong)]
  rfl

theorem follows_of_mem_constantsFrom (h : q ∈ constantsFrom bs pc) :
    Follows bs pc q ∧ ∃ op, bs[q]? = some op ∧ 5 < nPush op := by
  induction hsize : bs.length - pc using Nat.strong_induction_on generalizing pc with
  | _ n ih =>
    by_cases hlt : pc < bs.length
    · have hop : bs[pc]? = some bs[pc] := List.getElem?_eq_getElem hlt
      rw [constantsFrom_of_get hop, mem_append] at h
      rcases h with h | h
      · split at h
        · rename_i hlong
          rw [mem_singleton.1 h]
          exact ⟨.refl pc, _, hop, hlong⟩
        · cases h
      · obtain ⟨hfollows, hget⟩ := ih _ (by omega) h rfl
        exact ⟨.next _ hop hfollows, hget⟩
    · rw [constantsFrom, if_neg hlt] at h
      cases h

theorem nodup_constantsFrom (bs : Bytes) (pc : Nat) : (constantsFrom bs pc).Nodup := by
  induction hsize : bs.length - pc using Nat.strong_induction_on generalizing pc with
  | _ n ih =>
    by_cases hlt : pc < bs.length
    · rw [constantsFrom_of_get (List.getElem?_eq_getElem hlt)]
      refine List.Nodup.append ?_ (ih _ (by omega) _ rfl) fun q hq hmem => ?_
      · split
        · exact nodup_singleton pc
        · exact nodup_nil
      · have hle := (follows_of_mem_constantsFrom hmem).1.le
        split at hq
        · rw [mem_singleton.1 hq] at hle
          omega
        · cases hq
    · rw [constantsFrom, if_neg hlt]
      exact nodup_nil

/-- How a step of the code and one of the optimised code are related. -/
inductive Steps (code : Code) (cases : Cases σ ρ) (m : Machine σ) : Prop
  | same : step true (optimize code) cases m = step false (program code) cases m →
    (Misnumbered code m.pc → ∀ m', step false (program code) cases m ≠ .next m') → Steps code cases m
  | wrong (m' m'' : Machine σ) : Misnumbered code m.pc → step false (program code) cases m = .next m' →
    step true (optimize code) cases m = .next m'' → m'' ≠ m' → Steps code cases m

/-- A `PUSH` with enough gas and space on the stack goes on; otherwise it does not matter what is pushed. -/
theorem push_cases (n : Nat) : (∃ m' : Machine σ, ∀ val : U256, adjustStack m 0 1 (updateIOGas (ρ := ρ) m veryLowGas fun m' =>
      .next { m' with pc := m'.pc + n + 1, stack := val :: m'.stack }) = .next { m' with stack := val :: m'.stack }) ∨
    ∃ e, ∀ val : U256, adjustStack m 0 1 (updateIOGas (ρ := ρ) m veryLowGas fun m' =>
      .next { m' with pc := m'.pc + n + 1, stack := val :: m'.stack }) = .throw e m := by
  by_cases hunder : m.stack.length < 0
  · omega
  by_cases hover : stackLimit < m.stack.length - 0 + 1
  · refine .inr ⟨.outOfStack, fun val => ?_⟩
    rw [adjustStack, if_neg hunder, if_pos hover]
  by_cases hgas : m.gas < veryLowGas
  · refine .inr ⟨.outOfGas, fun val => ?_⟩
    rw [adjustStack, if_neg hunder, if_neg hover, updateIOGas, if_pos hgas]
  · refine .inl ⟨{ m with pc := m.pc + n + 1, gas := m.gas - veryLowGas }, fun val => ?_⟩
    rw [adjustStack, if_neg hunder, if_neg hover, updateIOGas, if_neg hgas]

/-- A step of the optimised code is one of the code, or has been given the wrong constant. -/
theorem step_optimized (cases : Cases σ ρ) (h : OnCode code m.pc) (hfresh : Fresh code m) : Steps code cases m := by
  rcases rewritten_optimize h with (⟨hshort, hhead, hdata⟩ | ⟨k, hlong, hk, hop, hoff, hrest⟩) | ⟨hstop, hstop'⟩
  · have hmis : ¬Misnumbered code m.pc := by
      rintro ⟨k, pc', hk, -, -⟩
      obtain ⟨op, hop, hlong⟩ := (follows_of_mem_constantsFrom (List.mem_of_getElem? hk)).2
      rw [nPush_program h.boundary hop] at hshort
      omega
    refine .same ?_ fun hmis' => absurd hmis' hmis
    rw [step, step]
    cases hhead with
    | same hsame =>
      have hsynthetic : isSynthetic ((program code).code.getD m.pc 0) = false := by
        rcases h.get with ⟨op, -, hget⟩ | ⟨-, hget⟩
        · rw [hget, isSynthetic_marked]
        · rw [hget]
          rfl
      rw [hsame]
      exact interpretCase_congr hsynthetic rfl hdata
    | jump push hjump hjumpc hknown =>
      rw [hjump, hjumpc]
      exact interpretCase_jumpc _ hknown hfresh hjump
    | jumpi push hjumpi hjumpci hknown =>
      rw [hjumpi, hjumpci]
      exact interpretCase_jumpci _ hknown hfresh hjumpi
  · obtain ⟨pc', hpc', hpool⟩ := poolAt hk
    have hpush := step_push cases (by omega : 0 < nPush ((program code).code.getD m.pc 0))
    have hpushc := step_pushc cases hlong hop hoff hrest
    by_cases heq : pushedAt code pc' = pushedAt code m.pc
    · refine .same (by rw [hpushc, hpool, heq, hpush]) ?_
      rintro ⟨k', pc'', hk', hpc'', hne⟩
      obtain ⟨hlt, -⟩ := List.getElem?_eq_some_iff.1 hk
      obtain rfl := (List.getElem?_inj hlt (nodup_constantsFrom _ _)).1 (hk.trans hk'.symm)
      rw [hpc', Option.some_inj] at hpc''
      exact absurd (hpc'' ▸ heq) hne
    · rcases push_cases (m := m) (ρ := ρ) (nPush ((program code).code.getD m.pc 0)) with ⟨m', hnext⟩ | ⟨e, hthrow⟩
      · refine .wrong _ _ ⟨k, pc', hk, hpc', heq⟩ (hpush.trans (hnext _)) (hpushc.trans (hnext _)) ?_
        rw [hpool]
        intro hsame
        injection hsame with _ hstack
        injection hstack with hval
        exact heq hval
      · refine .same ((hpushc.trans (hthrow _)).trans (hpush.trans (hthrow _)).symm) fun _ m' hnext => ?_
        cases (hpush.trans (hthrow _)).symm.trans hnext
  · have hstep : step false (program code) cases m = .stop m := by
      rw [step, hstop]
      rfl
    refine .same ?_ fun _ m' hnext => ?_
    · rw [hstep, step, hstop']
      rfl
    · cases hstep.symm.trans hnext

/-! ### The same runs -/

/-- `k` instructions, or fewer if the run ends before. -/
def run (optimized : Bool) (p : Program) (cases : Cases σ ρ) : Nat → Machine σ → Outcome σ ρ
  | 0, m => .next m
  | k + 1, m =>
    match run optimized p cases k m with
    | .next m' => step optimized p cases m'
    | o => o

theorem run_succ {optimized : Bool} {p : Program} (h : run optimized p cases k m = .next m') :
    run optimized p cases (k + 1) m = step optimized p cases m' := by
  rw [run, h]

theorem reaches_iff {optimized : Bool} {p : Program} :
    Reaches optimized p cases m m' ↔ ∃ k, run optimized p cases k m = .next m' := by
  constructor
  · intro h
    induction h with
    | refl => exact ⟨0, rfl⟩
    | tail _ hstep ih =>
      obtain ⟨k, hk⟩ := ih
      exact ⟨k + 1, (run_succ hk).trans hstep⟩
  · rintro ⟨k, hk⟩
    induction k generalizing m' with
    | zero =>
      cases hk
      exact .refl
    | succ k ih =>
      cases hrun : run optimized p cases k m with
      | next m'' =>
        rw [run_succ hrun] at hk
        exact (ih hrun).tail hk
      | throw e m'' =>
        rw [run, hrun] at hk
        cases hk
      | stop m'' =>
        rw [run, hrun] at hk
        cases hk
      | done r =>
        rw [run, hrun] at hk
        cases hk

theorem fresh_of_reaches (hm : m.pc = 0) (h : Reaches false (program code) cases m m') : Fresh code m' := by
  rcases Relation.ReflTransGen.cases_tail h with rfl | ⟨m'', hreaches, hstep⟩
  · intro push op _ _ _ hpc
    omega
  · exact .of_step (boundary_of_reaches hm hreaches) hstep

/-- The optimised code keeps up to the first constant that is misnumbered. -/
theorem run_optimized (hm : m.pc = 0) (h : ∀ m' m'', Reaches false (program code) cases m m' →
      step false (program code) cases m' = .next m'' → ¬Misnumbered code m'.pc) (k : Nat) :
    run true (optimize code) cases k m = run false (program code) cases k m := by
  induction k with
  | zero => rfl
  | succ k ih =>
    rw [run, run, ih]
    cases hrun : run false (program code) cases k m with
    | next m' =>
      have hreaches : Reaches false (program code) cases m m' := reaches_iff.2 ⟨k, hrun⟩
      cases step_optimized cases (boundary_of_reaches hm hreaches) (fresh_of_reaches hm hreaches) with
      | same hsame _ => exact hsame
      | wrong m₁ m₂ hmis hnext _ _ => exact absurd hmis (h _ _ hreaches hnext)
    | throw e m' => rfl
    | stop m' => rfl
    | done r => rfl

/-- A constant that is misnumbered makes a difference. -/
theorem not_misnumbered_of_run {m'' : Machine σ} (hm : m.pc = 0)
    (h : ∀ k, run true (optimize code) cases k m = run false (program code) cases k m)
    (hreaches : Reaches false (program code) cases m m') (hstep : step false (program code) cases m' = .next m'') :
    ¬Misnumbered code m'.pc := by
  intro hmis
  obtain ⟨k, hk⟩ := reaches_iff.1 hreaches
  have hsame := h (k + 1)
  rw [run_succ hk, run_succ ((h k).trans hk)] at hsame
  cases step_optimized cases (boundary_of_reaches hm hreaches) (fresh_of_reaches hm hreaches) with
  | same _ hends => exact hends hmis m'' hstep
  | wrong m₁ m₂ _ hnext hnext' hne =>
    rw [hnext, hnext'] at hsame
    cases hsame
    exact hne rfl

/-- The optimised code runs as the code does, if and only if none of the constants that are pushed is misnumbered. -/
theorem optimize_same_iff (code : Code) (cases : Cases σ ρ) (m : Machine σ) (hm : m.pc = 0) :
    (∀ k, run true (optimize code) cases k m = run false (program code) cases k m) ↔
      ∀ m' m'', Reaches false (program code) cases m m' → step false (program code) cases m' = .next m'' →
        ¬Misnumbered code m'.pc :=
  ⟨fun h _ _ hreaches hstep => not_misnumbered_of_run hm h hreaches hstep, run_optimized hm⟩

theorem length_constantsFrom (bs : Bytes) (pc : Nat) : (constantsFrom bs pc).length ≤ bs.length - pc := by
  induction hsize : bs.length - pc using Nat.strong_induction_on generalizing pc with
  | _ n ih =>
    by_cases hlt : pc < bs.length
    · rw [constantsFrom_of_get (List.getElem?_eq_getElem hlt), length_append]
      have hrest := ih _ (by omega) (pc + nPush bs[pc] + 1) rfl
      have hone : (if 5 < nPush bs[pc] then [pc] else []).length ≤ 1 := by split <;> simp
      omega
    · rw [constantsFrom, if_neg hlt]
      exact Nat.zero_le n

/-- No constant of a code that has no more than 2^16 of them is misnumbered. -/
theorem not_misnumbered (h : (constantsFrom code.bytes 0).length ≤ 2 ^ 16) : ¬Misnumbered code pc := by
  rintro ⟨k, pc', hk, hpc', hne⟩
  obtain ⟨hlt, -⟩ := List.getElem?_eq_some_iff.1 hk
  rw [Nat.mod_eq_of_lt (by omega), hk, Option.some_inj] at hpc'
  exact hne (hpc' ▸ rfl)

/-- `PUSH1 3 JUMP JUMPDEST` -/
theorem optimize_same_jump :
    (fun k => run true (optimize ⟨[0x60, 3, 0x56, 0x5b], by decide⟩) (fun _ _ => .error ()) k ⟨0, [], 100, ()⟩) = fun k =>
      run false (program ⟨[0x60, 3, 0x56, 0x5b], by decide⟩) (fun _ _ => .error ()) k ⟨0, [], 100, ()⟩ :=
  funext <| (optimize_same_iff _ _ _ rfl).2 fun _ _ _ _ => not_misnumbered ((length_constantsFrom _ 0).trans (by decide))

/-! ### More constants than numbers -/

/-- `JUMPDEST PUSH6 0` -/
def block : Bytes := [0x5b, 0x65, 0, 0, 0, 0, 0, 0]

def blocks : Nat → Bytes
  | 0 => []
  | n + 1 => block ++ blocks n

theorem length_blocks (n : Nat) : (blocks n).length = 8 * n := by
  induction n with
  | zero => rfl
  | succ n ih =>
    rw [blocks, length_append, ih]
    have hlen : block.length = 8 := rfl
    omega

theorem blocks_get (hk : k < n) (hi : i < 8) (rest : Bytes) : (blocks n ++ rest)[8 * k + i]? = block[i]? := by
  have hlen : block.length = 8 := rfl
  induction k generalizing n with
  | zero =>
    obtain ⟨n, rfl⟩ := Nat.exists_eq_succ_of_ne_zero hk.ne'
    rw [blocks, append_assoc, List.getElem?_append_left (by omega), Nat.mul_zero, Nat.zero_add]
  | succ k ih =>
    obtain ⟨n, rfl⟩ := Nat.exists_eq_succ_of_ne_zero (Nat.ne_zero_of_lt hk)
    rw [blocks, append_assoc, List.getElem?_append_right (by omega), ← ih (by omega : k < n)]
    congr 1
    omega

/-- `PUSH3 524293 JUMP`, the blocks, and `JUMPDEST PUSH6 1` -/
def flooded (n : Nat) : Bytes := [0x62, 8, 0, 5, 0x56] ++ (blocks n ++ [0x5b, 0x65, 0, 0, 0, 0, 0, 1])

def overfull : Code where
  bytes := flooded 65536
  fits := by
    rw [flooded, length_append, length_append, length_blocks]
    decide

theorem flooded_first (hi : i < 5) : (flooded n)[i]? = [0x62, 8, 0, 5, 0x56][i]? := List.getElem?_append_left hi

theorem flooded_block (hk : k < n) (hi : i < 8) : (flooded n)[5 + 8 * k + i]? = block[i]? := by
  have hlen : ([0x62, 8, 0, 5, 0x56] : Bytes).length = 5 := rfl
  rw [flooded, List.getElem?_append_right (by omega), hlen, show 5 + 8 * k + i - 5 = 8 * k + i by omega]
  exact blocks_get hk hi _

theorem flooded_last (i : Nat) : (flooded n)[5 + 8 * n + i]? = [0x5b, 0x65, 0, 0, 0, 0, 0, 1][i]? := by
  have hlen : ([0x62, 8, 0, 5, 0x56] : Bytes).length = 5 := rfl
  rw [flooded, List.getElem?_append_right (by omega), hlen, List.getElem?_append_right (by rw [length_blocks]; omega),
    length_blocks, show 5 + 8 * n + i - 5 - 8 * n = i by omega]

/-- The `JUMPDEST` and the `PUSH6` of each block, and of what is behind the last -/
theorem flooded_get (hk : k ≤ n) :
    (flooded n)[5 + 8 * k]? = some JUMPDEST ∧ (flooded n)[5 + 8 * k + 1]? = some 0x65 := by
  rcases hk.lt_or_eq with hlt | rfl
  · exact ⟨flooded_block (i := 0) hlt (by decide), flooded_block (i := 1) hlt (by decide)⟩
  · exact ⟨flooded_last 0, flooded_last 1⟩

/-- The blocks that follow -/
theorem follows_blocks (h : ∀ j < k, bs[pc + 8 * j]? = some JUMPDEST ∧ bs[pc + 8 * j + 1]? = some 0x65) :
    Follows bs pc (pc + 8 * k) := by
  induction k with
  | zero => exact .refl pc
  | succ k ih =>
    obtain ⟨hdest, hpush⟩ := h k (by omega)
    exact (ih fun j hj => h j (by omega)).trans (.next _ hdest (.next _ hpush (.refl _)))

theorem constantsFrom_block (hdest : bs[pc]? = some JUMPDEST) (hpush : bs[pc + 1]? = some 0x65) :
    constantsFrom bs pc = (pc + 1) :: constantsFrom bs (pc + 8) :=
  (constantsFrom_of_get hdest).trans (constantsFrom_of_get hpush)

theorem constantsFrom_blocks (h : ∀ j ≤ k, bs[pc + 8 * j]? = some JUMPDEST ∧ bs[pc + 8 * j + 1]? = some 0x65) :
    (constantsFrom bs pc)[k]? = some (pc + 8 * k + 1) := by
  induction k generalizing pc with
  | zero =>
    obtain ⟨hdest, hpush⟩ := h 0 le_rfl
    rw [Nat.mul_zero, Nat.add_zero] at hdest hpush
    rw [constantsFrom_block hdest hpush]
    rfl
  | succ k ih =>
    obtain ⟨hdest, hpush⟩ := h 0 (Nat.zero_le _)
    rw [Nat.mul_zero, Nat.add_zero] at hdest hpush
    rw [constantsFrom_block hdest hpush, List.getElem?_cons_succ]
    have hnext : (constantsFrom bs (pc + 8))[k]? = some (pc + 8 + 8 * k + 1) := ih fun j hj => by
      have hj' := h (j + 1) (by omega)
      rwa [show pc + 8 * (j + 1) = pc + 8 + 8 * j by omega] at hj'
    rw [hnext, show pc + 8 * (k + 1) + 1 = pc + 8 + 8 * k + 1 by omega]

theorem pushedAt_eq {data : Bytes} (hb : Boundary code.bytes pc) (hop : code.bytes[pc]? = some op)
    (hdata : ∀ i < nPush op, code.bytes[pc + 1 + i]? = data[i]?) (hordinary : data.all fun x => isSynthetic x = false) :
    pushedAt code pc = pushed data 0 (nPush op) := by
  rw [pushedAt, nPush_program hb hop]
  refine pushed_congr fun i hi => ?_
  have heq : code.bytes.getD (pc + 1 + i) 0 = data.getD i 0 := by
    rw [List.getD_eq_getElem?_getD, List.getD_eq_getElem?_getD, hdata i hi]
  have hsynthetic : isSynthetic (code.bytes.getD (pc + 1 + i) 0) = false := by
    rw [heq]
    by_cases hlt : i < data.length
    · rw [getD_eq_getElem _ _ hlt]
      exact of_decide_eq_true (all_eq_true.1 hordinary _ (getElem_mem hlt))
    · rw [getD_eq_default _ _ (not_lt.1 hlt)]
      rfl
  rw [Nat.zero_add, ← heq]
  exact code_getD code hsynthetic

theorem boundary_flooded (hk : k ≤ n) : Boundary (flooded n) (5 + 8 * k) := by
  have hfirst : Follows (flooded n) 0 5 :=
    .next 0x62 (flooded_first (by decide)) (.next JUMP (flooded_first (i := 4) (by decide)) (.refl _))
  exact hfirst.trans (follows_blocks fun j hj => flooded_get (by omega))

theorem constants_flooded (hk : k ≤ n) : (constantsFrom (flooded n) 0)[k]? = some (5 + 8 * k + 1) := by
  have hfirst : constantsFrom (flooded n) 0 = constantsFrom (flooded n) 5 :=
    (constantsFrom_of_get (flooded_first (i := 0) (by decide))).trans
      (constantsFrom_of_get (flooded_first (i := 4) (by decide)))
  rw [hfirst]
  exact constantsFrom_blocks fun j hj => flooded_get (hj.trans hk)

theorem flooded_jump (hi : i < 3) : (flooded n)[0 + 1 + i]? = [8, 0, 5][i]? := by
  refine (flooded_first (by omega : 0 + 1 + i < 5)).trans ?_
  revert i
  decide

theorem flooded_zero (hk : k < n) (hi : i < 6) : (flooded n)[5 + 8 * k + 1 + 1 + i]? = [0, 0, 0, 0, 0, 0][i]? := by
  rw [show 5 + 8 * k + 1 + 1 + i = 5 + 8 * k + (2 + i) by omega]
  refine (flooded_block hk (by omega : 2 + i < 8)).trans ?_
  revert i
  decide

theorem flooded_one (hi : i < 6) : (flooded n)[5 + 8 * n + 1 + 1 + i]? = [0, 0, 0, 0, 0, 1][i]? := by
  rw [show 5 + 8 * n + 1 + 1 + i = 5 + 8 * n + (2 + i) by omega]
  refine (flooded_last (2 + i)).trans ?_
  revert i
  decide

theorem pushedAt_overfull_jump : pushedAt overfull 0 = 524293 := by
  have hop : overfull.bytes[0]? = some 0x62 := flooded_first (by decide)
  exact (pushedAt_eq (.refl 0) hop (fun i hi => flooded_jump hi) (by decide)).trans rfl

theorem pushedAt_overfull (hk : k ≤ 65536) : pushedAt overfull (5 + 8 * k + 1) = if k < 65536 then 0 else 1 := by
  have hb : Boundary overfull.bytes (5 + 8 * k + 1) := (boundary_flooded hk).next (flooded_get hk).1
  have hop : overfull.bytes[5 + 8 * k + 1]? = some 0x65 := (flooded_get hk).2
  split
  · rename_i hlt
    exact (pushedAt_eq hb hop (fun i hi => flooded_zero hlt hi) (by decide)).trans rfl
  · rename_i hge
    obtain rfl : k = 65536 := by omega
    exact (pushedAt_eq hb hop (fun i hi => flooded_one hi) (by decide)).trans rfl

theorem misnumbered_overfull : Misnumbered overfull (5 + 8 * 65536 + 1) := by
  refine ⟨65536, 5 + 8 * 0 + 1, constants_flooded le_rfl, constants_flooded (Nat.zero_le _), ?_⟩
  rw [pushedAt_overfull (Nat.zero_le _), pushedAt_overfull le_rfl]
  decide

theorem verifyJumpDest_of_valid {dest : U256} (h : Valid code.bytes dest.toNat) :
    verifyJumpDest (program code).jumpDests dest = some dest.toNat := (verifyJumpDest_iff code dest _).2 ⟨h, rfl⟩

theorem verify_overfull : verifyJumpDest (program overfull).jumpDests 524293 = some (5 + 8 * 65536) := by
  have hdest : (524293 : U256).toNat = 5 + 8 * 65536 := by simp
  rw [verifyJumpDest_of_valid, hdest]
  rw [hdest]
  exact ⟨(flooded_get le_rfl).1, boundary_flooded le_rfl⟩

/-- Runs `overfull` to its last constant. -/
theorem not_optimize_same : ¬∀ (code : Code) (cases : Cases Unit Unit) (m : Machine Unit), m.pc = 0 →
    ∀ k, run true (optimize code) cases k m = run false (program code) cases k m := by
  intro h
  let cases : Cases Unit Unit := fun _ m => .ok (m.stack, m.gas - 1, m.rest)
  have hfirst : overfull.bytes[0]? = some 0x62 := flooded_first (by decide)
  have hpush : step false (program overfull) cases ⟨0, [], 100, ()⟩ = .next ⟨4, [524293], 97, ()⟩ := by
    have hop : (program overfull).code.getD 0 0 = 0x62 := program_getD (.refl 0) hfirst
    rw [step_push cases (hop ▸ by decide), hop, pushedAt_overfull_jump]
    rfl
  have hjump : step false (program overfull) cases ⟨4, [524293], 97, ()⟩ = .next ⟨5 + 8 * 65536, [], 89, ()⟩ := by
    have hb : Boundary overfull.bytes 4 := Follows.next 0x62 hfirst (.refl 4)
    have hget : overfull.bytes[4]? = some JUMP := flooded_first (by decide)
    have hop : (program overfull).code.getD 4 0 = JUMP := program_getD hb hget
    have hcase : ∀ p, interpretCase false p cases JUMP ⟨4, [524293], 97, ()⟩ = jump p 524293 ⟨4, [], 89, ()⟩ := fun _ => rfl
    rw [step, hop, hcase, jump, verify_overfull]
  have hb : Boundary overfull.bytes (5 + 8 * 65536) := boundary_flooded le_rfl
  have hget : overfull.bytes[5 + 8 * 65536]? = some JUMPDEST := (flooded_get le_rfl).1
  have hdest : step false (program overfull) cases ⟨5 + 8 * 65536, [], 89, ()⟩ = .next ⟨5 + 8 * 65536 + 1, [], 88, ()⟩ := by
    have hop : (program overfull).code.getD (5 + 8 * 65536) 0 = JUMPDEST := program_getD hb hget
    have hcase : ∀ p pc, interpretCase false p cases JUMPDEST ⟨pc, [], 89, ()⟩ = .next ⟨pc + 1, [], 88, ()⟩ := fun _ _ => rfl
    rw [step, hop, hcase]
  have hlast : ∃ m, step false (program overfull) cases ⟨5 + 8 * 65536 + 1, [], 88, ()⟩ = .next m := by
    have hb' : Boundary overfull.bytes (5 + 8 * 65536 + 1) := hb.next hget
    have hget' : overfull.bytes[5 + 8 * 65536 + 1]? = some 0x65 := (flooded_get le_rfl).2
    have hop : (program overfull).code.getD (5 + 8 * 65536 + 1) 0 = 0x65 := program_getD hb' hget'
    rw [step_push cases (hop ▸ by decide), hop]
    exact ⟨_, rfl⟩
  obtain ⟨m, hlast⟩ := hlast
  have hreaches : Reaches false (program overfull) cases ⟨0, [], 100, ()⟩ ⟨5 + 8 * 65536 + 1, [], 88, ()⟩ :=
    .tail (.tail (.single hpush) hjump) hdest
  exact not_misnumbered_of_run rfl (h overfull cases _ rfl) hreaches hlast misnumbered_overfull

end Kmdx.Evm
