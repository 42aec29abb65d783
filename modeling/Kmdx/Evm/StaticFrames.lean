import Kmdx.Evm.Gas

/-!
# Static frames (`ExtVMFace::staticCall`)

In a static frame the instructions that would change the state are refused, and what is called is static again. `CREATE2` is
not refused: that nothing is changed holds exactly as long as there is no such instruction (`static_iff`).
-/

namespace Kmdx.Evm

open Instruction ExceptRules

variable {ε σ : Type} {R : ε → ε → Prop} {s : EVMSchedule} {f f' : Frame ε} {op : UInt8}

/-- What a host does for a static frame keeps `R`. -/
structure Host.Still (x : Host ε) (R : ε → ε → Prop) : Prop where
  refl : ∀ e, R e e
  trans : ∀ {a b c}, R a b → R b c → R a c
  call : ∀ e p, p.staticCall = true → R e (x.call e p).ext
  blockHash : ∀ e n, R e (x.blockHash e n).2

/-! ### Instructions that use the memory -/

section Memory

variable {g : EVMSchedule} {x : ExtVM ε} {n : Nat}

theorem ext_mload (h : mload g f = .ok f') : f'.rest.ext = f.rest.ext := by
  simp only [mload, bind_eq_ok_iff] at h
  obtain ⟨offset, -, f₁, hcharge, bs, -, h⟩ := h
  cases h
  exact (charged_of_chargeMem hcharge).ext

theorem ext_mstoreBytes (h : mstoreBytes g n f = .ok f') : f'.rest.ext = f.rest.ext := by
  simp only [mstoreBytes, bind_eq_ok_iff] at h
  obtain ⟨offset, -, f₁, hcharge, mem, -, h⟩ := h
  cases h
  exact (charged_of_chargeMem hcharge).ext

theorem ext_copyFrom {data : Data} {runGas k : Nat} (h : copyFrom g runGas data k f = .ok f') : f'.rest.ext = f.rest.ext := by
  simp only [copyFrom, payCopy, bind_eq_ok_iff] at h
  obtain ⟨f₁, ⟨size, -, newMem, -, hcharge⟩, mem, -, h⟩ := h
  cases h
  exact (charged_of_chargeMem hcharge).ext

theorem ext_sha3Case (h : sha3Case g x f = .ok f') : f'.rest.ext = f.rest.ext := by
  simp only [sha3Case, bind_eq_ok_iff] at h
  obtain ⟨runGas, -, newMem, -, f₁, hcharge, bs, -, h⟩ := h
  cases h
  exact (charged_of_chargeMem hcharge).ext

/-- The frame that a call is made from has only paid so far. -/
theorem ext_caseCallSetup {callParams : CallParameters} {isMade : Bool}
    (h : caseCallSetup g x op f = .ok (callParams, isMade, f')) :
    f'.rest.ext = f.rest.ext ∧ callParams.staticCall = decide (op = STATICCALL ∨ x.staticCall = true) := by
  simp only [caseCallSetup, bind_eq_ok_iff] at h
  obtain ⟨runGas, -, inputMemNeed, -, outputMemNeed, -, f₁, hcharge, runGas', -, f₂, hgas, data, -, h⟩ := h
  cases h
  obtain ⟨-, -, hrest⟩ := budget_chargeGas hgas
  exact ⟨hrest ▸ (charged_of_chargeMem hcharge).ext, rfl⟩

theorem still_caseCall (hstatic : x.staticCall = true) (hrefl : ∀ e, R e e)
    (hcall : ∀ e p, p.staticCall = true → R e (x.call e p).ext) (h : caseCall g x op f = .ok f') :
    R f.rest.ext f'.rest.ext := by
  rw [caseCall, ite_error_eq_ok_iff, ite_error_eq_ok_iff, ite_error_eq_ok_iff] at h
  simp only [bind_eq_ok_iff] at h
  obtain ⟨-, -, -, ⟨callParams, isMade, f₁⟩, hsetup, h⟩ := h
  obtain ⟨hext, hparams⟩ := ext_caseCallSetup hsetup
  rw [decide_eq_true (.inr hstatic)] at hparams
  cases isMade with
  | true =>
    rw [if_pos rfl] at h
    simp only [bind_eq_ok_iff] at h
    obtain ⟨mem, -, h⟩ := h
    cases h
    rw [← hext]
    exact hcall _ callParams hparams
  | false =>
    rw [if_neg Bool.false_ne_true] at h
    cases h
    rw [← hext]
    exact hrefl _

/-- `CREATE` and the logs are refused, and there is no `CREATE2`. -/
theorem still_memoryInstruction (hstatic : x.staticCall = true) (hcreate2 : g.haveCreate2 = false) (hrefl : ∀ e, R e e)
    (hcall : ∀ e p, p.staticCall = true → R e (x.call e p).ext) (h : memoryInstruction g x op f = .ok f') :
    R f.rest.ext f'.rest.ext := by
  have heq : f'.rest.ext = f.rest.ext → R f.rest.ext f'.rest.ext := fun heq => by
    rw [heq]
    exact hrefl _
  rw [memoryInstruction] at h
  split_ifs at h with _ _ _ _ _ _ _ _ hcreate
  · exact heq (ext_mload h)
  · exact heq (ext_mstoreBytes h)
  · exact heq (ext_mstoreBytes h)
  · exact heq (ext_sha3Case h)
  · exact heq (ext_copyFrom h)
  · exact heq (ext_copyFrom h)
  · exact heq (ext_copyFrom h)
  · rw [returndatacopy, ite_error_eq_ok_iff, ite_error_eq_ok_iff] at h
    exact heq (ext_copyFrom h.2.2)
  · rw [caseCreate, ite_error_eq_ok_iff, ite_error_eq_ok_iff] at h
    obtain ⟨hnot2, hnot, -⟩ := h
    rcases hcreate with rfl | rfl
    · exact absurd ⟨rfl, hstatic⟩ hnot
    · exact absurd ⟨rfl, by rw [hcreate2]; exact Bool.false_ne_true⟩ hnot2
  · exact still_caseCall hstatic hrefl hcall h
  · rw [logCase, ite_error_eq_ok_iff] at h
    exact absurd hstatic h.1

end Memory

/-! ### All instructions -/

/-- A frame that ends well leaves `P` behind. -/
def Exit.Leaves (P : ε → Prop) : Exit ε → Prop
  | .stop _ _ ext => P ext
  | _ => True

theorem leaves_throw {P : ε → Prop} (e : VMException) : Exit.Leaves P (.fault (.throw e)) := trivial

variable {x : Host ε} {m : Machine (Seen ε)} {P : ε → Prop}

theorem still_row {row : Row ε} (hP : P m.rest.ext) : Ends (Exit.Leaves P) (fun left => P left.2.2) (row.run m) := by
  refine (ends_fetchStack leaves_throw m _ _).bind fun _ _ => ?_
  split
  · refine (ends_pay leaves_throw _ m).bind fun m' hpaid => ?_
    rw [← hpaid.2.2] at hP
    exact hP
  · exact ends_throw leaves_throw _

theorem still_otherInstruction (hstatic : x.staticCall = true)
    (hblock : ∀ n, P (x.blockHash m.rest.ext n).2) (hP : P m.rest.ext)
    (op : UInt8) : Ends (Exit.Leaves P) (fun left => P left.2.2) (otherInstruction s x op m) := by
  have hpay : ∀ (runGas : Nat) (stack : Machine (Seen ε) → List U256), Ends (Exit.Leaves P) (fun left => P left.2.2)
      (pay runGas m >>= fun m' => pure (stack m', m'.gas, m'.rest.ext) : Except (Exit ε) (Left ε)) := fun runGas stack =>
    (ends_pay leaves_throw _ m).bind fun m' hpaid => by
      rw [← hpaid.2.2] at hP
      exact hP
  rw [otherInstruction]
  split
  · exact still_row hP
  · split_ifs
    · exact (ends_fetchStack leaves_throw m _ _).bind fun _ _ => hpay _ _
    · exact hpay _ _
    · exact (ends_fetchStack leaves_throw m _ _).bind fun _ _ => hpay _ _
    · exact (ends_fetchStack leaves_throw m _ _).bind fun _ _ => hpay _ _
    · refine (ends_fetchStack leaves_throw m _ _).bind fun _ _ => ?_
      rw [if_pos hstatic]
      exact ends_throw leaves_throw _
    · refine (ends_fetchStack leaves_throw m _ _).bind fun _ _ => (ends_pay leaves_throw _ m).bind fun m' hpaid => ?_
      rw [← hpaid.2.2] at hblock
      exact hblock _
    · refine (ends_fetchStack leaves_throw m _ _).bind fun _ _ => ?_
      rw [if_pos hstatic]
      exact ends_throw leaves_throw _
    · exact (ends_fetchStack leaves_throw m _ _).bind fun _ _ => ends_throw leaves_throw _

theorem still_legacyCases (hx : x.Still R) (hstatic : x.staticCall = true) (hcreate2 : s.haveCreate2 = false) (op : UInt8) :
    Ends (Exit.Leaves (R f.rest.ext)) (fun r => R f.rest.ext (f.left r).rest.ext) (legacyCases s x op f) := by
  unfold legacyCases
  cases metric op with
  | none =>
    refine (still_otherInstruction (P := R f.rest.ext) hstatic (hx.blockHash _) (hx.refl _) op).bind fun left hleft => ?_
    exact hleft
  | some metric =>
    obtain ⟨removed, added⟩ := metric
    have hreturned : Ends (Exit.Leaves (R f.rest.ext)) (fun _ => True) ((returned s f).mapError .fault) :=
      ends_mapError (fun _ _ => trivial) fun _ _ => trivial
    refine (ends_checkStack leaves_throw f removed added).bind fun _ hfits => ?_
    split_ifs with hreturn hrevert hhave
    · exact hreturned.bind fun _ _ => hx.refl _
    · exact hreturned.bind fun _ _ => trivial
    · exact ends_throw leaves_throw _
    · exact (ends_mapError (P := fun f' => R f.rest.ext f'.rest.ext) (fun e _ => trivial) fun f' hf' =>
        still_memoryInstruction hstatic hcreate2 hx.refl hx.call hf').bind fun f' hf' =>
          (show R f.rest.ext f'.rest.ext from hf')

/-! ### Runs -/

theorem still_advance (hx : x.Still R) (hstatic : x.staticCall = true) (hcreate2 : s.haveCreate2 = false)
    (code : Code) (f : Frame ε) :
    Sum.elim (fun f' => R f.rest.ext f'.rest.ext) (Exit.Leaves (R f.rest.ext)) (LegacyVM.advance s x code f) := by
  refine advance_of_cases (fun f' _ _ hrest => ?_) (hx.refl _) leaves_throw
    (still_legacyCases (x := { x with code := code.data }) ⟨hx.refl, hx.trans, hx.call, hx.blockHash⟩ hstatic hcreate2 _)
  rw [hrest]
  exact hx.refl _

/-- What a static frame keeps: in every frame of a run, and when it ends. -/
def StaysStill (s : EVMSchedule) (x : Host ε) (R : ε → ε → Prop) (code : Code) (gas : Nat) (ext : ε) : Prop :=
  ∀ n f, Fuel.Steps (LegacyVM.advance s x code) (Frame.entry gas ext) n f →
    R ext f.rest.ext ∧ ∀ r, LegacyVM.advance s x code f = .inr r → r.Leaves (R ext)

theorem staysStill (hx : x.Still R) (hstatic : x.staticCall = true) (hcreate2 : s.haveCreate2 = false) (code : Code)
    (gas : Nat) (ext : ε) : StaysStill s x R code gas ext := by
  intro n f h
  have hf : R ext f.rest.ext := by
    refine h.invariant (I := fun _ (f : Frame ε) => R ext f.rest.ext) (fun n f f' hi hstep => ?_) (hx.refl _)
    have hstill := still_advance hx hstatic hcreate2 code f
    rw [hstep] at hstill
    exact hx.trans hi hstill
  refine ⟨hf, fun r hr => ?_⟩
  have hstill := still_advance hx hstatic hcreate2 code f
  rw [hr] at hstill
  cases r with
  | stop output gas ext' => exact hx.trans hf hstill
  | revert output gas => trivial
  | fault e => trivial

/-! ### `CREATE2` -/

/-- Notes if a contract has been created. -/
def notingHost : Host Bool where
  myAddress := 0
  caller := 0
  value := 0
  data := ⟨[], fits_nil⟩
  code := ⟨[], fits_nil⟩
  depth := 0
  staticCall := true
  balance _ _ := 0
  exists' _ _ := true
  codeAt _ _ := ⟨[], fits_nil⟩
  log e _ _ := e
  create _ _ gas _ _ _ := ⟨0, ⟨[], fits_nil⟩, gas, true⟩
  call e p := ⟨true, ⟨[], fits_nil⟩, p.gas, e⟩
  sha3 _ := 0
  origin := 0
  gasPrice := 0
  author := 0
  timestamp := 0
  number := 0
  difficulty := 0
  gasLimit := 0
  store _ _ := 0
  setStore e _ _ := e
  addRefund e _ := e
  suicide e _ := e
  codeSizeAt _ _ := 0
  blockHash e _ := (0, e)

theorem still_notingHost : notingHost.Still Eq := ⟨fun _ => rfl, Eq.trans, fun _ _ _ => rfl, fun _ _ => rfl⟩

/-- `CREATE2`, with four zeros for its operands -/
def create2Code : Code := ⟨[0x60, 0, 0x60, 0, 0x60, 0, 0x60, 0, 0xfb], by decide⟩

theorem create2Code_getD (i : Nat) : (program create2Code).code.getD i 0 = create2Code.bytes.getD i 0 := by
  refine code_getD create2Code ?_
  by_cases hlt : i < 9
  · revert i
    decide
  · rw [List.getD_eq_default _ _ (not_lt.1 hlt)]
    rfl

/-- When `k` of the zeros have been pushed. -/
def create2Frame (k : Nat) : Frame Bool := ⟨2 * k, List.replicate k 0, 100000 - 3 * k, ⟨[], ⟨[], fits_nil⟩, false⟩⟩

theorem advance_create2Frame {k : Nat} (hk : k < 4) :
    LegacyVM.advance constantinopleSchedule notingHost create2Code (create2Frame k) = .inl (create2Frame (k + 1)) := by
  refine advance_eq_inl_iff.2 ?_
  have hbytes : create2Code.bytes.getD (2 * k) 0 = 0x60 ∧ create2Code.bytes.getD (2 * k + 1) 0 = 0 := by
    revert k
    decide
  have hop : (program create2Code).code.getD (2 * k) 0 = 0x60 := by
    rw [create2Code_getD, hbytes.1]
  have hpushed : pushed (program create2Code).code (2 * k + 1) 1 = pushed [0] 0 1 :=
    pushed_congr fun i hi => by
      rw [create2Code_getD, Nat.lt_one_iff.1 hi, Nat.add_zero, hbytes.2]
      rfl
  have hstack : (create2Frame k).stack.length = k := List.length_replicate
  have hpc : (create2Frame k).pc = 2 * k := rfl
  have hgas : (create2Frame k).gas = 100000 - 3 * k := rfl
  have hlimit : stackLimit = 1024 := rfl
  have hcost : veryLowGas = 3 := rfl
  rw [step, hpc, hop, interpretCase_push false _ (by decide), adjustStack, if_neg (Nat.not_lt_zero _),
    if_neg (by omega), updateIOGas, if_neg (by omega)]
  have hn : nPush 0x60 = 1 := rfl
  rw [hn, hpc, hpushed, show pushed [0] 0 1 = 0 from rfl]
  refine congrArg Outcome.next ?_
  rw [create2Frame, create2Frame, List.replicate_succ]
  congr 1

theorem advance_create2 : ∃ f, LegacyVM.advance constantinopleSchedule notingHost create2Code (create2Frame 4) =
    .inl f ∧ f.rest.ext = true := by
  have hop : (program create2Code).code.getD (create2Frame 4).pc 0 = CREATE2 := create2Code_getD 8
  have hown : ¬isOwn CREATE2 := by
    rintro (h | h | h | h | h | h | h | h) <;> cases h
  have hcase : ∃ r, legacyCases constantinopleSchedule { notingHost with code := create2Code.data } CREATE2
      (create2Frame 4) = .ok r ∧ r.2.2.ext = true := ⟨_, rfl, rfl⟩
  obtain ⟨r, hr, hext⟩ := hcase
  refine ⟨(create2Frame 4).left r, advance_eq_inl_iff.2 ?_, hext⟩
  rw [step, hop, interpretCase_other _ _ _ hown, hr]
  rfl

/-- After the four zeros, a contract is created in the static frame. -/
theorem creates_static {c : ChainOperationParams} {number : Nat} (hfork : c.constantinopleForkBlock ≤ number) :
    ∃ f f', Fuel.Steps (LegacyVM.advance (c.scheduleForBlockNumber number) notingHost create2Code)
      (Frame.entry 100000 false) 4 f ∧ (program create2Code).code.getD f.pc 0 = CREATE2 ∧ f.rest.ext = false ∧
      LegacyVM.advance (c.scheduleForBlockNumber number) notingHost create2Code f = .inl f' ∧ f'.rest.ext = true := by
  have hschedule : c.scheduleForBlockNumber number = constantinopleSchedule := if_pos hfork
  rw [hschedule]
  have hsteps : ∀ k ≤ 4, Fuel.Steps (LegacyVM.advance constantinopleSchedule notingHost create2Code)
      (Frame.entry 100000 false) k (create2Frame k) := by
    intro k hk
    induction k with
    | zero => exact .refl
    | succ k ih => exact .tail (ih (by omega)) (advance_create2Frame (by omega))
  obtain ⟨f, hf, hext⟩ := advance_create2
  exact ⟨create2Frame 4, f, hsteps 4 le_rfl, create2Code_getD 8, rfl, hf, hext⟩

/-- A static frame changes nothing, whatever the code and the host, exactly before the fork that brings `CREATE2`; from there
on that creates contracts in static frames. -/
theorem static_iff (c : ChainOperationParams) (number : Nat) :
    ((∀ (ε : Type) (x : Host ε) (R : ε → ε → Prop), x.staticCall = true → x.Still R → ∀ (code : Code) (gas : Nat) (ext : ε),
      StaysStill (c.scheduleForBlockNumber number) x R code gas ext) ↔ number < c.constantinopleForkBlock) ∧
    (c.constantinopleForkBlock ≤ number →
      ∃ f f', Fuel.Steps (LegacyVM.advance (c.scheduleForBlockNumber number) notingHost create2Code)
        (Frame.entry 100000 false) 4 f ∧ (program create2Code).code.getD f.pc 0 = CREATE2 ∧ f.rest.ext = false ∧
        LegacyVM.advance (c.scheduleForBlockNumber number) notingHost create2Code f = .inl f' ∧ f'.rest.ext = true) := by
  refine ⟨⟨fun h => ?_, fun hfork ε x R hstatic hx code gas ext => ?_⟩, creates_static⟩
  · by_contra hfork
    obtain ⟨f, f', hsteps, -, -, hf, hext⟩ := creates_static (not_lt.1 hfork)
    have hstill := (h Bool notingHost Eq rfl still_notingHost create2Code 100000 false 5 f' (.tail hsteps hf)).1
    rw [hext] at hstill
    cases hstill
  · refine staysStill hx hstatic ?_ code gas ext
    rw [ChainOperationParams.scheduleForBlockNumber, if_neg (not_le.2 hfork)]
    split_ifs <;> rfl

end Kmdx.Evm
