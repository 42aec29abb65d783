import Kmdx.Evm.Interpreter
import Kmdx.Lib.ExceptRules
import Kmdx.Lib.Overwrite

/-!
# The memory of a frame (`updateMem`, `copyDataToMemory`, `EXTCODECOPY`)

`m_mem` grows by words, for gas, before an instruction works in it. The instructions that copy from call data, code
or returned data then write what is there from an index of 256 bits on, and zeros behind the end (`copyFrom_spec`);
`VM`, which asks its host for the code of another account, copies the same (`vmExtcodecopy_eq`).
-/

namespace Kmdx.Evm

open Overwrite ExceptRules List

/-- Bytes of the program; their number is a `size_t`. -/
structure Data where
  bytes : Bytes
  fits : bytes.length < 2 ^ 64

/-- `m_mem`, `m_returnData`, and what is behind `m_ext`. -/
structure Inner (ε : Type) where
  mem : Bytes
  returnData : Data
  ext : ε

abbrev Frame (ε : Type) := Machine (Inner ε)

/-- Why an instruction does not go on. -/
inductive Fault
  | throw (e : VMException)
  /-- An access outside of the bytes it is meant for. -/
  | outside

variable {ε : Type}

/-- `m_SP[i]` -/
def Frame.sp (f : Frame ε) (i : Nat) : U256 := f.stack.getD i 0

def asAddress (v : U256) : Address := v.setWidth 160

def toInt63 (v : Nat) : Except Fault Nat := if v > 0x7FFFFFFFFFFFFFFF then .error (.throw .outOfGas) else .ok v

def memNeed (offset size : U256) : Except Fault Nat := toInt63 (if size ≠ 0 then offset.toNat + size.toNat else 0)

def gasForMem (s : EVMSchedule) (size : Nat) : Except Fault Nat :=
  toInt63 (s.memoryGas * (size / 32) + size / 32 * (size / 32) / s.quadCoeffDiv)

/-- What the memory costs on top of `m_runGas`. -/
def memGas (s : EVMSchedule) (memSize newMemSize : Nat) : Except Fault Nat :=
  if memSize < newMemSize then do
    let new ← gasForMem s newMemSize
    let old ← gasForMem s memSize
    toInt63 (new - old)
  else .ok 0

/-- `updateGas`: `m_runGas`. No sum here reaches 2^64. -/
def updateGas (s : EVMSchedule) (memSize newMemSize copyMemSize ioGas runGas : Nat) : Except Fault Nat := do
  let mem ← memGas s memSize newMemSize
  let runGas := runGas + mem + s.copyGas * ((copyMemSize + 31) / 32)
  if ioGas < runGas then .error (.throw .outOfGas) else .ok runGas

/-- `m_mem.resize` to more. -/
def grow (mem : Bytes) (newMemSize : Nat) : Bytes :=
  if mem.length < newMemSize then mem ++ List.replicate (newMemSize - mem.length) 0 else mem

/-- `updateMem(newMem)` and `updateIOGas()` -/
def chargeMem (s : EVMSchedule) (runGas copyMemSize newMem : Nat) (f : Frame ε) : Except Fault (Frame ε) := do
  let newMemSize := (newMem + 31) / 32 * 32
  let runGas ← updateGas s f.rest.mem.length newMemSize copyMemSize f.gas runGas
  if f.gas < runGas then .error (.throw .outOfGas)
  else .ok { f with gas := f.gas - runGas, rest := { f.rest with mem := grow f.rest.mem newMemSize } }

/-- `std::memcpy` and `std::memset` into `m_mem` -/
def writeBytes (mem : Bytes) (offset : Nat) (bs : Bytes) : Except Fault Bytes :=
  match overwrite mem offset bs with
  | some mem => .ok mem
  | none => .error .outside

/-- `n` bytes from `index` on -/
def readBytes (bs : Bytes) (index n : Nat) : Except Fault Bytes :=
  if n = 0 ∨ index + n ≤ bs.length then .ok ((bs.drop index).take n) else .error .outside

/-- `copyDataToMemory` -/
def copyDataToMemory (data : Data) (sp : Nat → U256) (mem : Bytes) : Except Fault Bytes := do
  let offset := (sp 0).toNat % 2 ^ 64
  let bigIndex := (sp 1).toNat
  let index := bigIndex % 2 ^ 64
  let size := (sp 2).toNat % 2 ^ 64
  let sizeToBeCopied :=
    if bigIndex + size > data.bytes.length then
      if data.bytes.length < bigIndex then 0 else data.bytes.length - index
    else size
  let bs ← readBytes data.bytes index sizeToBeCopied
  let mem ← writeBytes mem offset bs
  writeBytes mem (offset + sizeToBeCopied) (List.replicate (size - sizeToBeCopied) 0)

/-- What an instruction that copies pays, its operands being `sp`. -/
def payCopy (s : EVMSchedule) (runGas : Nat) (sp : Nat → U256) (f : Frame ε) : Except Fault (Frame ε) := do
  let copyMemSize ← toInt63 (sp 2).toNat
  let newMem ← memNeed (sp 0) (sp 2)
  chargeMem s runGas copyMemSize newMem f

/-- An instruction that copies from `data`, with `k` operands on top of those of `copyDataToMemory`. -/
def copyFrom (s : EVMSchedule) (runGas : Nat) (data : Data) (k : Nat) (f : Frame ε) : Except Fault (Frame ε) := do
  let sp := fun i => f.sp (k + i)
  let f ← payCopy s runGas sp f
  let mem ← copyDataToMemory data sp f.rest.mem
  return { f with stack := f.stack.drop (k + 3), rest := { f.rest with mem := mem } }

/-- `CALLDATACOPY` of both interpreters -/
def calldatacopy (s : EVMSchedule) (data : Data) (f : Frame ε) : Except Fault (Frame ε) := copyFrom s veryLowGas data 0 f

/-- `CODECOPY` of both interpreters -/
def codecopy (s : EVMSchedule) (code : Data) (f : Frame ε) : Except Fault (Frame ε) := copyFrom s veryLowGas code 0 f

/-- `EXTCODECOPY` of `LegacyVM` -/
def extcodecopy (s : EVMSchedule) (extcodecopyGas : Nat) (codeAt : Address → Data) (f : Frame ε) : Except Fault (Frame ε) :=
  copyFrom s extcodecopyGas (codeAt (asAddress (f.sp 0))) 1 f

/-- `copyCode` of the host: what it writes into the buffer. -/
def hostCopyCode (code : Data) (codeOffset bufferSize : Nat) : Bytes :=
  if codeOffset ≥ code.bytes.length then []
  else (code.bytes.drop codeOffset).take (min (code.bytes.length - codeOffset) bufferSize)

/-- `EXTCODECOPY` of `VM` -/
def vmExtcodecopy (s : EVMSchedule) (extcodecopyGas : Nat) (codeAt : Address → Data) (f : Frame ε) :
    Except Fault (Frame ε) := do
  let sp := fun i => f.sp (1 + i)
  let copyMemSize ← toInt63 (sp 2).toNat
  let newMem ← memNeed (sp 0) (sp 2)
  let f' ← chargeMem s extcodecopyGas copyMemSize newMem f
  let memoryOffset := (sp 0).toNat % 2 ^ 64
  let codeOffsetMax := 2 ^ 64 - 1
  let codeOffset := if (sp 1).toNat > codeOffsetMax then codeOffsetMax else (sp 1).toNat % 2 ^ 64
  let bs := hostCopyCode (codeAt (asAddress (f.sp 0))) codeOffset copyMemSize
  let mem ← writeBytes f'.rest.mem memoryOffset bs
  let mem ← writeBytes mem (memoryOffset + bs.length) (List.replicate (copyMemSize - bs.length) 0)
  return { f' with stack := f'.stack.drop 4, rest := { f'.rest with mem := mem } }

/-- `size` bytes from `index` on, zeros where there are none -/
def window (data : Data) (index size : Nat) : Bytes := (List.range size).map fun i => data.bytes.getD (index + i) 0

/-- The memory at `p`, 0 where it has not grown to -/
def Frame.at (f : Frame ε) (p : Nat) : Byte := f.rest.mem.getD p 0

/-! ### Growth -/

variable {s : EVMSchedule} {f f' : Frame ε} {runGas copyMemSize newMem v w : Nat} {mem mem' bs cs : Bytes} {data : Data}
  {sp : Nat → U256} {offset index size : Nat}

theorem toInt63_eq_ok_iff : toInt63 v = .ok w ↔ v ≤ 0x7FFFFFFFFFFFFFFF ∧ v = w := by
  rw [toInt63, ite_error_eq_ok_iff, not_lt, Except.ok.injEq]

theorem getD_grow (p : Nat) : (grow mem newMem).getD p 0 = mem.getD p 0 := by
  rw [grow]
  split
  · exact getD_append_replicate
  · rfl

theorem le_length_grow (mem : Bytes) (newMem : Nat) : newMem ≤ (grow mem newMem).length := by
  rw [grow]
  split
  · rw [length_append, length_replicate]
    omega
  · omega

/-- A frame whose memory has grown to `n` bytes, and that has paid for it. -/
structure Charged (f f' : Frame ε) (n : Nat) : Prop where
  pc : f'.pc = f.pc
  stack : f'.stack = f.stack
  ext : f'.rest.ext = f.rest.ext
  returnData : f'.rest.returnData = f.rest.returnData
  le : n ≤ f'.rest.mem.length
  at_eq : ∀ p, f'.at p = f.at p

theorem charged_of_chargeMem (h : chargeMem s runGas copyMemSize newMem f = .ok f') : Charged f f' newMem := by
  rw [chargeMem, bind_eq_ok_iff] at h
  obtain ⟨g, -, h⟩ := h
  obtain ⟨-, h⟩ := ite_error_eq_ok_iff.1 h
  cases h
  refine ⟨rfl, rfl, rfl, rfl, ?_, fun p => getD_grow p⟩
  have hgrow := le_length_grow f.rest.mem ((newMem + 31) / 32 * 32)
  dsimp only
  omega

/-- Where an instruction may access the memory that it has paid for -/
def Within (offset size n : Nat) : Prop := size = 0 ∨ offset + size ≤ n

theorem memNeed_eq_ok {offset size : U256} (h : memNeed offset size = .ok w) :
    size.toNat = 0 ∨ w = offset.toNat + size.toNat ∧ w ≤ 0x7FFFFFFFFFFFFFFF := by
  rw [memNeed, toInt63_eq_ok_iff] at h
  by_cases hsize : size = 0
  · rw [hsize]
    exact .inl rfl
  · rw [if_pos hsize] at h
    exact .inr ⟨h.2.symm, h.2 ▸ h.1⟩

/-- What has been paid for an access. -/
theorem Charged.within {n : Nat} {offset size : U256} (h : Charged f f' n) (hneed : memNeed offset size = .ok n) :
    Within offset.toNat size.toNat f'.rest.mem.length := by
  rcases memNeed_eq_ok hneed with hzero | ⟨rfl, -⟩
  · exact .inl hzero
  · exact .inr h.le

/-! ### Copies -/

theorem writeBytes_of_within (h : Within offset bs.length mem.length) : ∃ mem', writeBytes mem offset bs = .ok mem' ∧
    mem'.length = mem.length ∧ ∀ p, mem'.getD p 0 = store (fun p => mem.getD p 0) offset bs p := by
  have hsome : overwrite mem offset bs = some (mem.take offset ++ bs ++ mem.drop (offset + bs.length)) :=
    overwrite_eq_some_iff.2 ⟨h, rfl⟩
  refine ⟨_, by rw [writeBytes, hsome], length_overwrite hsome, fun p => getD_overwrite hsome⟩

/-- What there is of `size` bytes from `index` on -/
def slice (data : Data) (index size : Nat) : Bytes := (data.bytes.drop index).take size

/-- `bs` and zeros behind it, so that they are `size` bytes. -/
def writePadded (mem : Bytes) (offset : Nat) (bs : Bytes) (size : Nat) : Except Fault Bytes := do
  let mem ← writeBytes mem offset bs
  writeBytes mem (offset + bs.length) (List.replicate (size - bs.length) 0)

theorem length_slice (data : Data) (index size : Nat) :
    (slice data index size).length = min size (data.bytes.length - index) := by
  rw [slice, length_take, length_drop]

theorem slice_append_replicate (data : Data) (index size : Nat) :
    slice data index size ++ List.replicate (size - (slice data index size).length) 0 = window data index size := by
  have hlen := length_slice data index size
  refine ext_getElem ?_ fun i hi hi' => ?_
  · rw [length_append, length_replicate, window, length_map, length_range]
    omega
  · rw [window, length_map, length_range] at hi'
    simp only [window, getElem_map, getElem_range]
    by_cases hlt : i < (slice data index size).length
    · rw [getElem_append_left hlt, getD_eq_getElem _ _ (by omega)]
      simp only [slice, getElem_take, getElem_drop]
    · rw [getElem_append_right (not_lt.1 hlt), getElem_replicate, getD_eq_default _ _ (by omega)]

theorem writePadded_of_within (data : Data) (index : Nat) (h : Within offset size mem.length) :
    ∃ mem', writePadded mem offset (slice data index size) size = .ok mem' ∧ mem'.length = mem.length ∧
      ∀ p, mem'.getD p 0 = store (fun p => mem.getD p 0) offset (window data index size) p := by
  have hlen := length_slice data index size
  have hbs : Within offset (slice data index size).length mem.length := by
    rcases h with h | h
    · exact .inl (by omega)
    · exact .inr (by omega)
  obtain ⟨mem₁, hmem₁, hlen₁, hstore₁⟩ := writeBytes_of_within hbs
  have hzeros : Within (offset + (slice data index size).length)
      (List.replicate (size - (slice data index size).length) (0 : Byte)).length mem₁.length := by
    rw [length_replicate]
    rcases h with h | h
    · exact .inl (by omega)
    · exact .inr (by omega)
  obtain ⟨mem₂, hmem₂, hlen₂, hstore₂⟩ := writeBytes_of_within hzeros
  refine ⟨mem₂, by rw [writePadded, hmem₁, ok_bind, hmem₂], hlen₂.trans hlen₁, fun p => ?_⟩
  rw [hstore₂, funext hstore₁, store_append, slice_append_replicate]

/-- What `copyDataToMemory` does, whatever the index is. -/
theorem copyDataToMemory_eq (hsize : (sp 2).toNat < 2 ^ 64) : copyDataToMemory data sp mem =
    writePadded mem ((sp 0).toNat % 2 ^ 64) (slice data (sp 1).toNat (sp 2).toNat) (sp 2).toNat := by
  have hlen := length_slice data (sp 1).toNat (sp 2).toNat
  have hfits := data.fits
  generalize hn : (if (sp 1).toNat + (sp 2).toNat > data.bytes.length then
    if data.bytes.length < (sp 1).toNat then 0 else data.bytes.length - (sp 1).toNat % 2 ^ 64 else (sp 2).toNat) = n
  have hcopied : n = (slice data (sp 1).toNat (sp 2).toNat).length := by
    rw [hlen, ← hn]
    split_ifs with hmore hbehind
    · omega
    · rw [Nat.mod_eq_of_lt (by omega)]
      omega
    · omega
  have hread : readBytes data.bytes ((sp 1).toNat % 2 ^ 64) n = .ok (slice data (sp 1).toNat (sp 2).toNat) := by
    by_cases hzero : n = 0
    · rw [readBytes, if_pos (.inl hzero), hzero, take_zero, length_eq_zero_iff.1 (hcopied.symm.trans hzero)]
    · have hlt : (sp 1).toNat % 2 ^ 64 = (sp 1).toNat := Nat.mod_eq_of_lt (by omega)
      rw [hlt, readBytes, if_pos (.inr (by omega)), slice, hcopied, length_slice, ← length_drop, take_eq_take_iff.2]
      omega
  rw [copyDataToMemory, Nat.mod_eq_of_lt hsize, hn, hread, ok_bind, writePadded, ← hcopied]

/-- What the host copies: an index beyond what a `size_t` can hold is behind every code. -/
theorem hostCopyCode_eq (code : Data) (index size : Nat) :
    hostCopyCode code (if index > 2 ^ 64 - 1 then 2 ^ 64 - 1 else index % 2 ^ 64) size = slice code index size := by
  have hfits := code.fits
  have hclamp : (if index > 2 ^ 64 - 1 then 2 ^ 64 - 1 else index % 2 ^ 64) = min index (2 ^ 64 - 1) := by
    split <;> omega
  rw [hclamp, hostCopyCode, slice]
  split
  · rw [drop_eq_nil_of_le (by omega), take_nil]
  · rename_i hlt
    have hmin : min index (2 ^ 64 - 1) = index := by omega
    rw [hmin, take_eq_take_iff, length_drop]
    omega

/-- What an instruction that copies does to the memory. -/
theorem copyFrom_eq (k : Nat) (f : Frame ε) : copyFrom s runGas data k f = do
    let f' ← payCopy s runGas (fun i => f.sp (k + i)) f
    let mem ← writePadded f'.rest.mem ((f.sp k).toNat % 2 ^ 64) (slice data (f.sp (k + 1)).toNat (f.sp (k + 2)).toNat)
      (f.sp (k + 2)).toNat
    return { f' with stack := f'.stack.drop (k + 3), rest := { f'.rest with mem := mem } } := by
  rw [copyFrom]
  refine bind_congr_ok fun f' hpay => ?_
  rw [payCopy, bind_eq_ok_iff] at hpay
  obtain ⟨n, hn, -⟩ := hpay
  obtain ⟨hle, -⟩ := toInt63_eq_ok_iff.1 hn
  rw [copyDataToMemory_eq (by omega)]
  rfl

/-- The two interpreters copy the code of another account in the same way. -/
theorem vmExtcodecopy_eq (s : EVMSchedule) (extcodecopyGas : Nat) (codeAt : Address → Data) (f : Frame ε) :
    vmExtcodecopy s extcodecopyGas codeAt f = extcodecopy s extcodecopyGas codeAt f := by
  rw [extcodecopy, copyFrom_eq, payCopy, vmExtcodecopy, bind_assoc]
  refine bind_congr_ok fun n hn => ?_
  obtain ⟨-, rfl⟩ := toInt63_eq_ok_iff.1 hn
  rw [bind_assoc]
  refine bind_congr_ok fun newMem _ => bind_congr_ok fun f' _ => ?_
  dsimp only
  rw [hostCopyCode_eq, writePadded, bind_assoc]

/-- Copying memory is paid for where it is written to. -/
theorem charged_of_payCopy (h : payCopy s runGas sp f = .ok f') :
    (∃ n, Charged f f' n) ∧ Within (sp 0).toNat (sp 2).toNat f'.rest.mem.length ∧
      ((sp 2).toNat = 0 ∨ (sp 0).toNat < 2 ^ 64) := by
  rw [payCopy, bind_eq_ok_iff] at h
  obtain ⟨_, -, h⟩ := h
  rw [bind_eq_ok_iff] at h
  obtain ⟨n, hneed, h⟩ := h
  have hcharged := charged_of_chargeMem h
  refine ⟨⟨n, hcharged⟩, hcharged.within hneed, (memNeed_eq_ok hneed).imp_right fun ⟨heq, hle⟩ => ?_⟩
  omega

/-- An instruction that copies stores what is in the window, and nothing else. -/
theorem copyFrom_spec (k : Nat) (data : Data) (h : payCopy s runGas (fun i => f.sp (k + i)) f = .ok f') :
    ∃ f'', copyFrom s runGas data k f = .ok f'' ∧ f''.gas = f'.gas ∧ f''.rest.ext = f.rest.ext ∧
      f''.at = store f.at (f.sp k).toNat (window data (f.sp (k + 1)).toNat (f.sp (k + 2)).toNat) := by
  obtain ⟨⟨n, hcharged⟩, hwithin, hfits⟩ := charged_of_payCopy h
  simp only [Nat.add_zero] at hwithin hfits
  have hmod : Within ((f.sp k).toNat % 2 ^ 64) (f.sp (k + 2)).toNat f'.rest.mem.length := by
    rcases hfits with hzero | hlt
    · exact .inl hzero
    · rwa [Nat.mod_eq_of_lt hlt]
  obtain ⟨mem, hmem, -, hstore⟩ := writePadded_of_within data (f.sp (k + 1)).toNat hmod
  refine ⟨{ f' with stack := f'.stack.drop (k + 3), rest := { f'.rest with mem := mem } }, ?_, rfl, hcharged.ext, ?_⟩
  · rw [copyFrom_eq, h, ok_bind, hmem]
    rfl
  · have hat : (fun p => f'.rest.mem.getD p 0) = f.at := funext hcharged.at_eq
    refine (funext hstore).trans ?_
    rw [hat]
    rcases hfits with hzero | hlt
    · rw [hzero]
      exact store_nil.trans store_nil.symm
    · rw [Nat.mod_eq_of_lt hlt]

theorem store_window (m : Nat → Byte) (offset : Nat) (data : Data) (index size p : Nat) :
    store m offset (window data index size) p =
      if offset ≤ p ∧ p < offset + size then data.bytes.getD (index + (p - offset)) 0 else m p := by
  have hlen : (window data index size).length = size := by rw [window, length_map, length_range]
  split
  · rename_i h
    obtain ⟨i, rfl⟩ := Nat.exists_eq_add_of_le h.1
    rw [store_add (by omega) 0, Nat.add_sub_cancel_left, getD_eq_getElem _ _ (by omega)]
    simp only [window, getElem_map, getElem_range]
  · rename_i h
    by_cases hle : offset ≤ p
    · exact store_of_le (by omega)
    · exact store_of_lt (not_le.1 hle)

/-- An instruction that has been paid for copies `data` from the index on, and zeros from behind its end, and changes no
other byte of the memory. -/
def CopiesExactly (s : EVMSchedule) (runGas : Nat) (data : Data) (k : Nat) (f : Frame ε)
    (r : Except Fault (Frame ε)) : Prop :=
  ∀ paid, payCopy s runGas (fun i => f.sp (k + i)) f = .ok paid → ∃ f', r = .ok f' ∧ f'.gas = paid.gas ∧ ∀ p, f'.at p =
    if (f.sp k).toNat ≤ p ∧ p < (f.sp k).toNat + (f.sp (k + 2)).toNat then
      data.bytes.getD ((f.sp (k + 1)).toNat + (p - (f.sp k).toNat)) 0
    else f.at p

theorem copiesExactly_copyFrom (k : Nat) (f : Frame ε) : CopiesExactly s runGas data k f (copyFrom s runGas data k f) := by
  intro paid hpaid
  obtain ⟨f', hf', hgas, -, hat⟩ := copyFrom_spec k data hpaid
  refine ⟨f', hf', hgas, fun p => ?_⟩
  rw [hat, store_window]

theorem copies_exact (s : EVMSchedule) (extcodecopyGas : Nat) (data : Data) (codeAt : Address → Data) (f : Frame ε) :
    CopiesExactly s veryLowGas data 0 f (calldatacopy s data f) ∧
    CopiesExactly s veryLowGas data 0 f (codecopy s data f) ∧
    CopiesExactly s extcodecopyGas (codeAt (asAddress (f.sp 0))) 1 f (extcodecopy s extcodecopyGas codeAt f) ∧
    CopiesExactly s extcodecopyGas (codeAt (asAddress (f.sp 0))) 1 f (vmExtcodecopy s extcodecopyGas codeAt f) ∧
    vmExtcodecopy s extcodecopyGas codeAt f = extcodecopy s extcodecopyGas codeAt f := by
  refine ⟨copiesExactly_copyFrom 0 f, copiesExactly_copyFrom 0 f, copiesExactly_copyFrom 1 f, ?_, vmExtcodecopy_eq _ _ _ _⟩
  rw [vmExtcodecopy_eq]
  exact copiesExactly_copyFrom 1 f

end Kmdx.Evm
