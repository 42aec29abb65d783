import Kmdx.ScriptRun

/-!
# What a frame hands to its parent

The substate of an `ExtVM` is what its trace collects, where a frame that failed contributes nothing; no
machine leaves more gas than it was given. Neither depends on the state.
-/

namespace Kmdx

open Wp

variable {H : Type} [Digest H]

theorem U256.zero_le (x : U256) : 0 ≤ x := BitVec.le_def.2 (Nat.zero_le _)

/-- The logs, self-destructs and refunds of the frames that did not fail, in order. -/
def Trace.collect : Trace → SubState
  | nil => {}
  | log before entry => { before.collect with logs := before.collect.logs ++ [entry] }
  | refund before x => { before.collect with refunds := before.collect.refunds + x }
  | suicide before contract _ _ =>
    { before.collect with suicides := insert contract before.collect.suicides }
  | frame before ok callee => if ok then before.collect.add callee.collect else before.collect

theorem SubState.add_empty (s : SubState) : s.add {} = s := by
  unfold SubState.add
  rw [Finset.union_empty, List.append_nil]
  exact congrArg (SubState.mk _ _) (BitVec.add_zero _)

/-- The substate is what the trace collects. -/
def ExtVM.Recorded (ext : ExtVM H) : Prop := ext.sub = ext.trace.collect

def Vm.Records (vm : Vm H) : Prop :=
  ∀ (ext : ExtVM H) (given : U256), ext.Recorded → Returns (fun r => r.ext.Recorded) (vm ext given)

def Vm.Spends (vm : Vm H) : Prop := ∀ (ext : ExtVM H) (given : U256), Returns (fun r => r.gas ≤ given) (vm ext given)

namespace Executive
variable {c : Context H} {e : Executive H}

/-- What the frame collected, nothing if it failed. -/
def collected (e : Executive H) : SubState :=
  if e.excepted = .none then e.ext.elim {} (·.trace.collect) else {}

/-- The substate is what the frame collected. -/
def Recorded (e : Executive H) : Prop := ∀ ext, e.ext = some ext → ext.sub = e.collected

omit [Digest H] in
theorem Recorded.accrue (h : e.Recorded) (parent : SubState) :
    e.accrueSubState parent = parent.add e.collected := by
  unfold accrueSubState
  cases he : e.ext with
  | some ext =>
    dsimp only
    rw [h ext he]
  | none =>
    rw [collected, he, Option.elim_none, ite_self]
    exact parent.add_empty.symm

/-! ### Setting a frame up -/

/-- Nothing is recorded yet. -/
def Clean (e : Executive H) : Prop := ∀ ext, e.ext = some ext → ext.sub = {} ∧ ext.trace = .nil

/-- A frame in a transaction, with no more than `gas`. -/
structure Prepared (t : Transaction) (gas : U256) (r : Bool × Executive H) : Prop where
  gas : r.2.gas ≤ gas
  t : r.2.t = t
  done : r.1 = true → r.2.ext = none
  notDone : r.1 = false → r.2.ext.isSome
  excepted : r.1 = false → r.2.excepted = .none
  clean : r.2.Clean

omit [Digest H] in
theorem clean_of_none (h : e.ext = none) : e.Clean := fun _ hx => nomatch h.symm.trans hx

omit [Digest H] in
theorem clean_some {ext : ExtVM H} (h : e.ext = some ext) (hs : ext.sub = {}) (ht : ext.trace = .nil) :
    e.Clean := by
  rintro ext' hx
  obtain rfl := Option.some.inj (h.symm.trans hx)
  exact ⟨hs, ht⟩

theorem make_returns (ext : ExtVM H) : Returns (· = ext) (ExtVM.make ext) := by
  refine .bind_right fun b => ?_
  cases b
  · exact .throw _
  · exact .pure rfl

omit [Digest H] in
theorem sub_returns {x y : U256} (h : y ≤ x) : Returns (· ≤ x) (c.sub x y : StateM H U256) := by
  refine .bind_right fun _ => .pure ?_
  rw [BitVec.le_def, BitVec.toNat_sub_of_le h]
  exact Nat.sub_le ..

theorem callPrecompiled_returns (he : e.Fresh) (contract : PrecompiledContract) (p : CallParameters) :
    Returns (fun r => r.2.gas ≤ p.gas ∧ r.2.t = e.t ∧ r.2.ext = none ∧ (r.1 = false → r.2.excepted = .none))
      (e.callPrecompiled c contract p) := by
  have h0 : e.gas ≤ p.gas := by rw [he.gas]; exact U256.zero_le _
  refine .ite (fun _ => ?_) fun hge => ?_
  · refine .ite (fun _ => .bind_right fun _ => ?_) fun _ => ?_
    · exact .pure ⟨h0, rfl, he.ext, nofun⟩
    · exact .pure ⟨h0, rfl, he.ext, nofun⟩
  · refine .bind (sub_returns (BitVec.le_def.2 ?_)) fun gas hgas => .ite (fun _ => ?_) fun _ => ?_
    · exact Nat.le_trans (Nat.mod_le ..) (Nat.le_of_not_lt hge)
    · exact .pure ⟨hgas, rfl, he.ext, fun _ => he.excepted⟩
    · exact .pure ⟨U256.zero_le _, rfl, he.ext, nofun⟩

section

variable (he : e.Fresh) (p : CallParameters) (gasPrice : U256) (origin : Address)
include he

theorem callContract_returns : Returns (fun e' => e'.gas ≤ p.gas ∧ e'.t = e.t ∧ e'.excepted = .none ∧ e'.Clean)
      (e.callContract p gasPrice origin) := by
  have hle : p.gas ≤ p.gas := BitVec.le_refl _
  refine .bind_right fun native => .ite (fun _ => ?_) fun _ => .bind_right fun hasCode =>
    .ite (fun _ => .bind_right fun code => .bind_right fun codeHash => ?_) fun _ => ?_
  · refine .bind (make_returns _) fun ext hext => .pure ⟨hle, rfl, he.excepted, ?_⟩
    exact clean_some rfl (hext ▸ rfl) (hext ▸ rfl)
  · refine .bind (make_returns _) fun ext hext => .pure ⟨hle, rfl, he.excepted, ?_⟩
    exact clean_some rfl (hext ▸ rfl) (hext ▸ rfl)
  · exact .pure ⟨hle, rfl, he.excepted, clean_of_none he.ext⟩

theorem prepareCall_returns : Returns (fun r => r.2.gas ≤ p.gas ∧ r.2.t = e.t ∧ (r.1 = true → r.2.ext = none) ∧
      (r.1 = false → r.2.excepted = .none) ∧ r.2.Clean) (e.prepareCall c p gasPrice origin) := by
  unfold prepareCall
  split
  · exact (callPrecompiled_returns he _ p).mono fun r h =>
      ⟨h.1, h.2.1, fun _ => h.2.2.1, h.2.2.2, clean_of_none h.2.2.1⟩
  · exact .bind (callContract_returns he p gasPrice origin) fun e' h =>
      .pure ⟨h.1, h.2.1, nofun, fun _ => h.2.2.1, h.2.2.2⟩

theorem call_returns : Returns (Prepared e.t p.gas) (e.call c p gasPrice origin) := by
  refine .bind_right fun _ => .bind_right fun savepoint =>
    .bind (prepareCall_returns (e := { e with savepoint := savepoint }) ⟨he.ext, he.excepted,
      he.isCreation, he.gas⟩ p gasPrice origin) fun r h => .ite (fun hd => ?_) fun hd => .bind_right fun _ => ?_
  · exact .pure ⟨h.1, h.2.1, fun _ => h.2.2.1 hd, nofun, nofun, h.2.2.2.2⟩
  · exact .pure ⟨h.1, h.2.1, Option.isNone_iff_eq_none.1, Option.isNone_eq_false_iff.1,
      fun _ => h.2.2.2.1 (by simpa using hd), h.2.2.2.2⟩

end

section

variable (he : e.Fresh) (sender : Address) (endowment gasPrice gas : U256) (init : Bytes) (origin : Address)
include he

theorem executeCreate_returns : Returns (Prepared e.t gas)
      (e.executeCreate c sender endowment gasPrice gas init origin) := by
  have hle : gas ≤ gas := BitVec.le_refl _
  refine .bind_right fun _ => .bind_right fun savepoint => .bind_right fun exist => .ite (fun _ => ?_) fun _ => ?_
  · exact .bind (P := fun e' => e'.gas = 0 ∧ e'.t = e.t) (.bind_right fun _ => .pure ⟨rfl, rfl⟩)
      fun e' h => .pure ⟨h.1 ▸ U256.zero_le _, h.2, fun _ => rfl, nofun, nofun, clean_of_none rfl⟩
  · refine .bind_right fun _ => .bind_right fun _ => .bind_right fun _ => .ite (fun _ => ?_) fun _ => ?_
    · exact .pure ⟨hle, rfl, Option.isNone_iff_eq_none.1, Option.isNone_eq_false_iff.1,
        fun _ => he.excepted, clean_of_none he.ext⟩
    · refine .bind (make_returns _) fun ext hext => .pure ⟨hle, rfl, nofun, fun _ => rfl, fun _ => he.excepted, ?_⟩
      exact clean_some rfl (hext ▸ rfl) (hext ▸ rfl)

theorem createOpcode_returns : Returns (Prepared e.t gas)
      (e.createOpcode c sender endowment gasPrice gas init origin) :=
  .bind_right fun _ => executeCreate_returns (he.withAddress _) _ _ _ _ _ _

theorem create2Opcode_returns (salt : U256) : Returns (Prepared e.t gas)
      (e.create2Opcode c sender endowment gasPrice gas init origin salt) :=
  executeCreate_returns (he.withAddress _) _ _ _ _ _ _

end

/-! ### Running its code -/

/-- The frame of `e` is done: it has recorded what it did, and left no more gas than it had. -/
structure Done (e e' : Executive H) : Prop where
  recorded : e'.Recorded
  ext : e'.ext.isSome = e.ext.isSome
  gas : e'.gas ≤ e.gas
  t : e'.t = e.t

omit [Digest H] in
theorem recorded_of_failed (h : e.excepted ≠ .none) (hs : ∀ ext, e.ext = some ext → ext.sub = {}) :
    e.Recorded := by
  intro ext hx
  rw [collected, if_neg h, hs ext hx]

omit [Digest H] in
theorem recorded_of_ok {ext : ExtVM H} (h : e.excepted = .none) (hx : e.ext = some ext)
    (hr : ext.Recorded) : e.Recorded := by
  intro ext' hx'
  obtain rfl := Option.some.inj (hx.symm.trans hx')
  rw [collected, if_pos h, hx]
  exact hr

theorem revert_returns : Returns (fun e' => (∀ ext, e'.ext = some ext → ext.sub = {}) ∧ e'.gas = e.gas ∧
    e'.t = e.t ∧ e'.excepted = e.excepted ∧ e'.ext.isSome = e.ext.isSome) e.revert := by
  refine .bind_right fun _ => .pure ⟨?_, rfl, rfl, rfl, Option.isSome_map ..⟩
  intro ext hx
  obtain ⟨_, -, rfl⟩ := Option.map_eq_some_iff.1 hx
  rfl

theorem onRevert_returns (output : Bytes) : Returns (Done e) (e.onRevert output) :=
  revert_returns.bind fun _ h => .pure ⟨recorded_of_failed nofun h.1, h.2.2.2.2,
    h.2.1 ▸ BitVec.le_refl _, h.2.2.1⟩

theorem onVMException_returns (x : VMException) : Returns (Done e) (e.onVMException x) :=
  revert_returns.mono fun _ h => ⟨recorded_of_failed (h.2.2.2.1 ▸ toTransactionException_ne x) h.1,
    h.2.2.2.2, h.2.1 ▸ U256.zero_le _, h.2.2.1⟩

theorem deposit_returns {a : Address} {out : Bytes} (h : e.Recorded) :
    Returns (Done e) (e.deposit c a out) := by
  have hle : e.gas ≤ e.gas := BitVec.le_refl _
  refine .ite (fun _ => ?_) fun _ => .ite (fun hle => ?_) fun _ => .ite (fun _ => ?_) fun _ => ?_
  · exact (onVMException_returns _).mono fun _ h => ⟨h.recorded, h.ext, h.gas, h.t⟩
  · refine .bind (sub_returns (BitVec.le_def.2 ?_)) fun gas hgas => .bind_right fun _ => .pure ⟨h, rfl, hgas, rfl⟩
    exact Nat.le_trans (Nat.mod_le ..) hle
  · exact (onVMException_returns _).mono fun _ h => ⟨h.recorded, h.ext, h.gas, h.t⟩
  · exact .bind_right fun _ => .pure ⟨h, rfl, hle, rfl⟩

variable {vm : Vm H} {ext : ExtVM H}

theorem ended_returns (hx : e.excepted = .none) (he : e.ext.isSome) {r : VmResult H}
    (hr : r.ext.Recorded) (hg : r.gas ≤ e.gas) {f : Executive H → Bytes → StateM H (Executive H)}
    (hf : ∀ e' out, e'.Recorded → Returns (Done e') (f e' out)) :
    Returns (Done e) (match r.ending with
      | .stop out => f { e with ext := some r.ext, gas := r.gas } out
      | .revert out => onRevert { e with ext := some r.ext, gas := r.gas } out
      | .vmException x => onVMException { e with ext := some r.ext, gas := r.gas } x) := by
  have hle : ∀ {e' : Executive H}, Done { e with ext := some r.ext, gas := r.gas } e' → Done e e' :=
    fun h => ⟨h.recorded, h.ext.trans he.symm, BitVec.le_trans h.gas hg, h.t⟩
  split
  · exact (hf { e with ext := some r.ext, gas := r.gas } _ (recorded_of_ok hx rfl hr)).mono fun _ => hle
  · exact Returns.mono (onRevert_returns _) fun _ => hle
  · exact Returns.mono (onVMException_returns _) fun _ => hle

theorem callVM_returns (a : Address) (gas : U256) (h : ext.Recorded) :
    Returns (fun r => r.ext.Recorded ∧ r.gas ≤ gas) (NativeManager.callVM a ext gas) := by
  refine .bind_right fun r => .ite (fun _ => ?_) fun _ => .throw _
  exact .ite (fun _ => .pure ⟨h, BitVec.le_refl _⟩) fun _ => .pure ⟨h, BitVec.le_refl _⟩

theorem go_returns (hr : vm.Records) (hs : vm.Spends) (hx : e.excepted = .none) (hc : e.Clean) :
    Returns (Done e) (e.go c vm) := by
  unfold go
  split
  · next hn => exact .pure ⟨fun _ h => (nomatch hn.symm.trans h), rfl, BitVec.le_refl _, rfl⟩
  · next ext hext =>
    obtain ⟨hsub, htr⟩ := hc ext hext
    have he : e.ext.isSome := by rw [hext]; rfl
    have hrec : ext.Recorded := by rw [ExtVM.Recorded, hsub, htr]; rfl
    have hvm : Returns (fun r => r.ext.Recorded ∧ r.gas ≤ e.gas) (vm ext e.gas) :=
      fun r s s' h => ⟨hr ext e.gas hrec r s s' h, hs ext e.gas r s s' h⟩
    have hgo : Returns (Done e) (if e.isCreation then e.goCreate c vm ext else e.goCall vm ext) := by
      refine .ite (fun _ => .bind_right fun _ => hvm.bind fun r h => ?_) fun _ => ?_
      · exact ended_returns (f := fun e' out => e'.deposit c ext.myAddress out) hx he h.1 h.2
          fun e' out => deposit_returns
      · refine .bind (P := fun r => r.ext.Recorded ∧ r.gas ≤ e.gas) ?_ fun r h => ?_
        · unfold exec
          split
          · exact callVM_returns _ _ hrec
          · exact hvm
        · exact ended_returns (f := fun e' out => return { e' with output := out }) hx he h.1 h.2
            fun e' out h => .pure ⟨h, rfl, BitVec.le_refl _, rfl⟩
    refine (hgo.tryCatch fun _ => .throw _).bind fun e' h => .pure ?_
    unfold copyOutput
    split
    · exact h
    · exact ⟨h.recorded, h.ext, h.gas, h.t⟩

end Executive

namespace ExtVM
variable {c : Context H} {vm : Vm H} {ext : ExtVM H}

theorem goAndAccrue_returns (h : ext.Recorded) (hr : vm.Records) (hs : vm.Spends) {t : Transaction}
    {gas : U256} {r : Bool × Executive H} (hp : Executive.Prepared t gas r) :
    Returns (fun p => p.1.Recorded ∧ p.2.gas ≤ gas) (ext.goAndAccrue c vm r.1 r.2) := by
  refine .ite (fun _ => .pure ⟨h, hp.gas⟩) fun hd => ?_
  refine (Executive.go_returns hr hs (hp.excepted (by simpa using hd)) hp.clean).bind fun e he =>
    .pure ⟨?_, BitVec.le_trans he.gas hp.gas⟩
  show e.accrueSubState ext.sub = (if decide (e.excepted = .none) = true then _ else _ : SubState)
  rw [he.recorded.accrue, h, Executive.collected]
  by_cases hx : e.excepted = .none
  · rw [if_pos hx, decide_eq_true hx, if_pos rfl]
    cases e.ext <;> rfl
  · rw [if_neg hx, decide_eq_false hx]
    exact SubState.add_empty _

theorem call_returns (h : ext.Recorded) (hr : vm.Records) (hs : vm.Spends) (p : CallParameters) :
    Returns (fun r => r.1.Recorded) (ext.call c vm p) :=
  (Executive.call_returns (e := { depth := ext.depth + 1 }) ⟨rfl, rfl, rfl, rfl⟩ p _ _).bind fun _ hp =>
    (goAndAccrue_returns h hr hs hp).bind fun _ h => .pure h.1

theorem create_returns (h : ext.Recorded) (hr : vm.Records) (hs : vm.Spends) (endowment gas : U256)
    (code : Bytes) (salt : Option U256) : Returns (fun r => r.1.Recorded) (ext.create c vm endowment gas code salt) := by
  refine .bind (P := Executive.Prepared {} gas) ?_ fun _ hp =>
    (goAndAccrue_returns h hr hs hp).bind fun _ h => .pure h.1
  cases salt with
  | none => exact Executive.createOpcode_returns ⟨rfl, rfl, rfl, rfl⟩ _ _ _ _ _ _
  | some salt => exact Executive.create2Opcode_returns ⟨rfl, rfl, rfl, rfl⟩ _ _ _ _ _ _ _

end ExtVM

namespace Script
variable {c : Context H}

theorem run_spends (script : Script) : (script.run c : Vm H).Spends := by
  have hle : ∀ gas given : U256, (if gas ≤ given then gas else given) ≤ given := by
    intro gas given
    split
    exacts [‹_›, BitVec.le_refl _]
  induction script with
  | stop output gas => exact fun ext given => .pure (hle ..)
  | revert output gas => exact fun ext given => .pure (hle ..)
  | vmException x => exact fun ext given => .pure (BitVec.le_refl _)
  | throw x hx => exact fun ext given => .throw _
  | log topics data next ih | addRefund x next ih => exact fun ext given => ih _ _
  | setStore n v next ih | read q next ih | suicide a next ih | call p callee next ihc ih
  | create endowment gas code salt callee next ihc ih | blockHash number callee next ihc ih =>
    exact fun ext given => .bind_right fun _ => ih _ _

/-- What a script did is what its trace says. -/
theorem run_records (script : Script) : (script.run c : Vm H).Records := by
  induction script with
  | stop output gas => exact fun ext given h => .pure h
  | revert output gas => exact fun ext given h => .pure h
  | vmException x => exact fun ext given h => .pure h
  | throw x hx => exact fun ext given h => .throw _
  | log topics data next ih =>
    refine fun ext given h => ih _ _ ?_
    show ({ ext.sub with logs := _ } : SubState) = _
    rw [h]; rfl
  | addRefund x next ih =>
    refine fun ext given h => ih _ _ ?_
    show ({ ext.sub with refunds := _ } : SubState) = _
    rw [h]; rfl
  | setStore n v next ih | read q next ih => exact fun ext given h => .bind_right fun _ => ih _ _ h
  | suicide a next ih =>
    refine fun ext given h => .bind (P := fun ext' => ext'.Recorded) ?_ fun _ h => ih _ _ h
    refine .bind_right fun _ => .bind_right fun _ => .bind_right fun _ => .pure ?_
    show ({ ext.sub with suicides := _ } : SubState) = _
    rw [h]; rfl
  | call p callee next ihc ih =>
    exact fun ext given h => (ExtVM.call_returns h ihc (run_spends callee) p).bind fun _ h => ih _ _ h
  | create endowment gas code salt callee next ihc ih =>
    exact fun ext given h => (ExtVM.create_returns h ihc (run_spends callee) endowment gas code salt).bind
      fun _ h => ih _ _ h
  | blockHash number callee next ihc ih => exact fun ext given h => .bind_right fun _ => ih _ _ h

end Script

end Kmdx
