import Kmdx.Calls

/-!
# Byte strings in storage (`libwingvm/Native.h`, `libwingvm/NativeStorage.cpp`)

`NativeStorage` lays a byte string over consecutive words of an account's storage: its length in the
first two bytes, 30 bytes after them, then 32 to a word. A value that was put is got back whatever was
there before, as long as the windows of different keys do not meet (`getData_putAll`).
-/

namespace Kmdx

open Wp UndoLog Function List

/-- `h256(u256)` -/
def toH256 (x : U256) : Bytes := BigEndian.toBytes 32 x.toNat

/-- `u256(h256)` -/
def ofH256 (h : Bytes) : U256 := BitVec.ofNat 256 (BigEndian.ofBytes h)

/-- `memcpy(&dst[offset], src, src.size())` -/
def memcpy (dst : Bytes) (offset : Nat) (src : Bytes) : Bytes :=
  dst.take offset ++ src ++ dst.drop (offset + src.length)

/-- `vector::resize` -/
def resize (out : Bytes) (len : Nat) : Bytes := out.take len ++ List.replicate (len - out.length) 0

/-- The bytes of the word `j` of a value. -/
def wordBytes (input : Bytes) : Nat → Bytes
  | 0 => memcpy (toH256 (BitVec.ofNat 256 input.length <<< 240)) 2 (input.take (min input.length 30))
  | j + 1 => memcpy (List.replicate 32 0) 0
      ((input.drop (30 + 32 * j)).take (min (input.length - (30 + 32 * j)) 32))

theorem length_memcpy (dst : Bytes) (offset : Nat) (src : Bytes)
    (h : offset + src.length ≤ dst.length) : (memcpy dst offset src).length = dst.length := by
  simp only [memcpy, length_append, length_take, length_drop]
  omega

/-- What was before the offset, then what was copied. -/
theorem take_memcpy (dst : Bytes) (offset : Nat) (src : Bytes) (h : offset ≤ dst.length) :
    (memcpy dst offset src).take (offset + src.length) = dst.take offset ++ src := by
  have hlen : (dst.take offset ++ src).length = offset + src.length := by
    rw [length_append, length_take, Nat.min_eq_left h]
  rw [memcpy, ← hlen, take_left]

theorem length_toH256 (x : U256) : (toH256 x).length = 32 := BigEndian.length_toBytes ..

theorem toNat_ofH256 {h : Bytes} (hlen : h.length = 32) : (ofH256 h).toNat = BigEndian.ofBytes h := by
  have hlt := BigEndian.ofBytes_lt h
  rw [hlen] at hlt
  rw [ofH256, BitVec.toNat_ofNat, Nat.mod_eq_of_lt (Nat.lt_of_lt_of_eq hlt (by norm_num))]

theorem toH256_ofH256 {h : Bytes} (hlen : h.length = 32) : toH256 (ofH256 h) = h := by
  rw [toH256, toNat_ofH256 hlen, ← hlen, BigEndian.toBytes_ofBytes]

theorem length_wordBytes (input : Bytes) (j : Nat) : (wordBytes input j).length = 32 := by
  cases j with
  | zero =>
    rw [wordBytes, length_memcpy, length_toH256]
    simp only [length_toH256, length_take]
    omega
  | succ j =>
    rw [wordBytes, length_memcpy, length_replicate]
    simp only [length_take, length_drop, length_replicate]
    omega

theorem toH256_length {len : Nat} (h : len ≤ 8190) :
    toH256 (BitVec.ofNat 256 len <<< 240) = BigEndian.toBytes 2 len ++ List.replicate 30 0 := by
  have hlen : (BigEndian.toBytes 2 len ++ List.replicate 30 0).length = 32 := by simp
  have hnat : (BitVec.ofNat 256 len <<< 240).toNat = len * 256 ^ 30 := by
    rw [BitVec.toNat_shiftLeft, BitVec.toNat_ofNat, Nat.shiftLeft_eq]
    norm_num
    omega
  have hof : BigEndian.ofBytes (BigEndian.toBytes 2 len ++ List.replicate 30 0) = len * 256 ^ 30 := by
    rw [BigEndian.ofBytes_append, BigEndian.ofBytes_toBytes, BigEndian.ofBytes_replicate_zero,
      length_replicate, Nat.mod_eq_of_lt (by norm_num; omega), Nat.add_zero]
  rw [toH256, hnat, ← hof, ← hlen, BigEndian.toBytes_ofBytes]

variable {input out : Bytes}

/-- The first two bytes are the length. -/
theorem length_of_wordBytes (hlen : input.length ≤ 8190) :
    (ofH256 (wordBytes input 0) >>> 240).toNat = input.length := by
  obtain ⟨rest, hrest⟩ : ∃ rest, wordBytes input 0 = BigEndian.toBytes 2 input.length ++ rest := by
    rw [wordBytes, toH256_length hlen, memcpy, take_left' (by simp), append_assoc]
    exact ⟨_, rfl⟩
  have h32 := length_wordBytes input 0
  have hr : rest.length = 30 := by
    rw [hrest, length_append, BigEndian.length_toBytes] at h32; omega
  have hlt := BigEndian.ofBytes_lt rest
  rw [BitVec.toNat_ushiftRight, toNat_ofH256 h32, hrest, BigEndian.ofBytes_append,
    BigEndian.ofBytes_toBytes, Nat.shiftRight_eq_div_pow, hr]
  rw [hr] at hlt
  norm_num at hlt ⊢
  omega

variable {H : Type} [Digest H]

/-! ### Words of one account -/

/-- `storage(addr, ·)` -/
def State.words (s : State H) (addr : Address) (key : U256) : U256 :=
  (s.peek addr).elim 0 (·.storageAt s.db key)

namespace State
variable {s : State H} {addr : Address}

theorem eval_storage_words (key : U256) :
    eval (State.storage addr key) s = .ok (s.words addr key) := by
  rw [eval_storage]
  simp only [view, words]
  cases s.peek addr <;> rfl

theorem peek_load (s : State H) (a : Address) : (s.load a).peek a = s.peek a := by
  have hl := lookup_load s a
  cases hp : s.peek a with
  | some acc => rw [hp] at hl; exact peek_of_lookup hl
  | none =>
    rw [hp] at hl
    have hn : a ∉ s.nonExistingAccountsCache → s.trieAt a = none := fun hn => by
      unfold peek at hp
      split at hp
      · cases hp
      · rw [if_neg hn] at hp; exact Option.map_eq_none_iff.1 hp
    unfold peek
    rw [hl, trieAt_load]
    by_cases ha : a ∈ s.nonExistingAccountsCache
    · have hc : s.cache.lookup a = none := by
        cases hc : s.cache.lookup a with
        | none => rfl
        | some acc => rw [peek_of_lookup hc] at hp; cases hp
      simp [load, hc, ha]
    · rw [hn ha]; simp

theorem storage_words (s : State H) (addr : Address) (key : U256) :
    ∃ s', State.storage addr key s = .ok (s.words addr key) s' ∧ s'.words addr = s.words addr ∧
      (s'.cacheAt addr).storageAt s'.db = s'.words addr := by
  have hp := peek_load s addr
  have hl := lookup_load s addr
  have hdb := db_load s addr
  unfold State.storage words
  rw [run_bind, account_run]
  cases hpk : s.peek addr with
  | none =>
    rw [hpk] at hp hl
    refine ⟨_, rfl, by rw [hp]; rfl, ?_⟩
    rw [hp, cacheAt_of_none hl]
    exact OverlayDB.storageTrie_emptyTrie _
  | some acc =>
    rw [hpk] at hp hl
    dsimp only
    cases ho : acc.storageOverlay.lookup key with
    | some v =>
      refine ⟨s.load addr, ?_, by rw [hp, hdb], by rw [hp, cacheAt_of_lookup hl]; rfl⟩
      simp [Account.storageAt, ho]; rfl
    | none =>
      have hview := Account.view_setStorageCache (s.load addr).db acc key ho
      have hat := congrArg AccountView.storage hview
      refine ⟨{ s.load addr with
        cache := (s.load addr).cache.insert addr
          (acc.setStorageCache key ((s.load addr).db.storageTrie acc.storageRoot key)) }, ?_, ?_, ?_⟩
      · simp [Account.storageAt, ho, ← hdb]; rfl
      · rw [peek_of_lookup (AList.lookup_insert _)]
        exact hat.trans (by rw [hdb]; rfl)
      · rw [peek_of_lookup (AList.lookup_insert _), cacheAt_of_lookup (AList.lookup_insert _)]
        rfl

theorem setStorage_words (s : State H) (addr : Address) (key val : U256) :
    ∃ s', State.setStorage addr key val s = .ok () s' ∧
      s'.words addr = update (s.words addr) key val := by
  obtain ⟨t, ht, hw, hc⟩ := storage_words s addr key
  unfold State.setStorage
  rw [run_bind, ht]
  refine ⟨{ t with
    cache := t.cache.insert addr ((t.cacheAt addr).setStorage key val)
    changeLog := .storage addr key (s.words addr key) :: t.changeLog }, rfl, ?_⟩
  have hset := congrArg AccountView.storage (Account.view_setStorage t.db (t.cacheAt addr) key val)
  have hlook : ∀ l : List (Change H), State.peek { t with
      cache := t.cache.insert addr ((t.cacheAt addr).setStorage key val), changeLog := l } addr =
      some ((t.cacheAt addr).setStorage key val) := fun l => peek_of_lookup (AList.lookup_insert _)
  rw [← hw, ← hc]
  unfold words
  rw [hlook]
  exact hset

end State

namespace NativeStorage

variable (addr : Address)

def getWord (key : U256) : StateM H U256 := State.storage addr key

def putWord (key val : U256) : StateM H Unit := State.setStorage addr key val

/-- `while (read < len)` -/
def getLoop (len : Nat) (key : U256) (read : Nat) (out : Bytes) : StateM H (Nat × Bytes) :=
  if read < len then do
    let key := key + 1
    let h := toH256 (← getWord addr key)
    let n := min (len - read) 32
    getLoop len key (read + n) (memcpy out read (h.take n))
  else return (len, out)
termination_by len - read

/-- Returns the length and what `_out` becomes. -/
def getData (key : U256) (out : Bytes) : StateM H (Nat × Bytes) := do
  let first ← getWord addr key
  let len := (first >>> 240).toNat
  if len = 0 then return (0, out)
  let h := toH256 first
  let n := min len 30
  getLoop addr len key n (memcpy (resize out len) 0 ((h.drop 2).take n))

/-- `while (written < len)` -/
def putLoop (input : Bytes) (key : U256) (written : Nat) : StateM H Unit :=
  if written < input.length then do
    let n := min (input.length - written) 32
    let h := memcpy (List.replicate 32 0) 0 ((input.drop written).take n)
    let key := key + 1
    putWord addr key (ofH256 h)
    putLoop input key (written + n)
  else return
termination_by input.length - written

def putData (key : U256) (input : Bytes) : StateM H Unit := do
  let len := input.length
  if len > 8190 then throw .valueTooLarge
  let h := toH256 (BitVec.ofNat 256 len <<< 240)
  let n := min len 30
  putWord addr key (ofH256 (memcpy h 2 (input.take n)))
  putLoop addr input key n

/-- A sequence of `putData` calls. -/
def putAll : List (U256 × Bytes) → StateM H Unit
  | [] => return
  | p :: puts => do
    putData addr p.1 p.2
    putAll puts

/-! ### Putting -/

variable {addr}

/-- The word `j` of a value is put or read while `30 + 32 * (j - 1)` is below its length. -/
def HasWord (input : Bytes) (j : Nat) : Prop := 30 + 32 * (j - 1) < input.length

theorem add_ofNat_ne {k : U256} {i j : Nat} (hi : i < 256) (hj : j < 256) (h : i ≠ j) :
    k + BitVec.ofNat 256 i ≠ k + BitVec.ofNat 256 j := by
  intro he
  have := congrArg BitVec.toNat ((BitVec.add_right_inj k).1 he)
  rw [BitVec.toNat_ofNat, BitVec.toNat_ofNat, Nat.mod_eq_of_lt (by omega),
    Nat.mod_eq_of_lt (by omega)] at this
  exact h this

theorem add_ofNat_succ (key : U256) (j : Nat) :
    key + BitVec.ofNat 256 j + 1 = key + BitVec.ofNat 256 (j + 1) := by
  rw [BitVec.add_assoc, BitVec.ofNat_add]
  rfl

/-- The words after `j` are put; no other is touched. -/
theorem putLoop_words (addr : Address) (hlen : input.length ≤ 8190) (key : U256) (j : Nat) (s : State H) :
    ∃ s', putLoop addr input (key + BitVec.ofNat 256 j) (min input.length (30 + 32 * j)) s = .ok () s' ∧
      (∀ i, j < i → HasWord input i → s'.words addr (key + BitVec.ofNat 256 i) = ofH256 (wordBytes input i)) ∧
      ∀ x, (∀ i, j < i → HasWord input i → x ≠ key + BitVec.ofNat 256 i) → s'.words addr x = s.words addr x := by
  induction hm : input.length - (30 + 32 * j) using Nat.strong_induction_on generalizing j s with
  | _ m ih =>
    rw [putLoop]
    by_cases hlt : 30 + 32 * j < input.length
    · have hmin : min input.length (30 + 32 * j) = 30 + 32 * j := Nat.min_eq_right (by omega)
      have hnext : 30 + 32 * j + min (input.length - (30 + 32 * j)) 32 =
          min input.length (30 + 32 * (j + 1)) := by omega
      obtain ⟨s₁, hs₁, hw₁⟩ := State.setStorage_words s addr (key + BitVec.ofNat 256 (j + 1))
        (ofH256 (wordBytes input (j + 1)))
      obtain ⟨s', hs', hput, hkeep⟩ := ih (input.length - (30 + 32 * (j + 1))) (by omega) (j + 1) s₁ rfl
      refine ⟨s', ?_, fun i hi hin => ?_, fun x hx => ?_⟩
      · rw [wordBytes] at hs₁
        rw [hmin, if_pos hlt, hnext, add_ofNat_succ, run_bind, putWord, hs₁]
        exact hs'
      · by_cases hij : i = j + 1
        · subst hij
          rw [hkeep _ fun i hi hin => ?_, hw₁, update_self]
          exact add_ofNat_ne (by omega) (by unfold HasWord at hin; omega) (by omega)
        · exact hput i (by omega) hin
      · rw [hkeep x fun i hi hin => hx i (by omega) hin, hw₁,
          update_of_ne (hx (j + 1) (by omega) (by simpa [HasWord] using hlt))]
    · refine ⟨s, ?_, fun i hi hin => ?_, fun x _ => rfl⟩
      · rw [if_neg (by omega)]; rfl
      · unfold HasWord at hin; omega

/-- The window `[key, key + 255]` modulo 2^256. -/
def InWindow (key x : U256) : Prop := ∃ i < 256, x = key + BitVec.ofNat 256 i

/-- The words from `key` on hold the value. -/
def Holds (words : U256 → U256) (key : U256) (input : Bytes) : Prop :=
  input.length ≤ 8190 ∧ words key = ofH256 (wordBytes input 0) ∧
    ∀ i, 0 < i → HasWord input i → words (key + BitVec.ofNat 256 i) = ofH256 (wordBytes input i)

theorem putData_words (addr : Address) (hlen : input.length ≤ 8190) (key : U256) (s : State H) :
    ∃ s', putData addr key input s = .ok () s' ∧ Holds (s'.words addr) key input ∧
      ∀ x, ¬ InWindow key x → s'.words addr x = s.words addr x := by
  have hkey : key + BitVec.ofNat 256 0 = key := BitVec.add_zero ..
  obtain ⟨s₁, hs₁, hw₁⟩ := State.setStorage_words s addr key (ofH256 (wordBytes input 0))
  obtain ⟨s', hs', hput, hkeep⟩ := putLoop_words addr hlen key 0 s₁
  rw [hkey] at hs'
  refine ⟨s', ?_, ⟨hlen, ?_, hput⟩, fun x hx => ?_⟩
  · rw [wordBytes] at hs₁
    unfold putData
    dsimp only
    rw [if_neg (by omega), run_bind, putWord, hs₁, Nat.min_comm, Nat.min_comm (a := 30)]
    exact hs'
  · rw [hkeep key fun i hi hin => ?_, hw₁, update_self]
    unfold HasWord at hin
    have := add_ofNat_ne (k := key) (i := 0) (j := i) (by omega) (by omega) (by omega)
    rwa [hkey] at this
  · rw [hkeep x fun i hi hin he => hx ⟨i, by unfold HasWord at hin; omega, he⟩, hw₁,
      update_of_ne fun he => hx ⟨0, by omega, he.trans hkey.symm⟩]

/-! ### Getting -/

variable {key : U256}

/-- The loop reads on from the word `j`. -/
theorem getLoop_words (addr : Address) (j : Nat) {s : State H}
    (h : Holds (s.words addr) key input) (hout : out.length = input.length)
    (htake : out.take (min input.length (30 + 32 * j)) = input.take (min input.length (30 + 32 * j))) :
    ∃ s', getLoop addr input.length (key + BitVec.ofNat 256 j) (min input.length (30 + 32 * j)) out s =
      .ok (input.length, input) s' := by
  induction hm : input.length - (30 + 32 * j) using Nat.strong_induction_on generalizing j out s with
  | _ m ih =>
    rw [getLoop]
    by_cases hlt : 30 + 32 * j < input.length
    · have hmin : min input.length (30 + 32 * j) = 30 + 32 * j := Nat.min_eq_right (by omega)
      rw [hmin] at htake ⊢
      obtain ⟨n, hn⟩ : ∃ n, n = min (input.length - (30 + 32 * j)) 32 := ⟨_, rfl⟩
      have hnext : 30 + 32 * j + n = min input.length (30 + 32 * (j + 1)) := by omega
      obtain ⟨src, hsrc⟩ : ∃ src, src = (input.drop (30 + 32 * j)).take n := ⟨_, rfl⟩
      have hsrclen : src.length = n := by
        rw [hsrc, length_take, length_drop]; omega
      -- the bytes of the next word
      obtain ⟨t, ht, hwt, -⟩ := State.storage_words s addr (key + BitVec.ofNat 256 (j + 1))
      have hbytes : (toH256 (s.words addr (key + BitVec.ofNat 256 (j + 1)))).take n = src := by
        rw [h.2.2 (j + 1) (by omega) (by simpa [HasWord] using hlt), toH256_ofH256 (length_wordBytes ..),
          wordBytes, ← hn, ← hsrc]
        have := take_memcpy (List.replicate 32 0) 0 src (Nat.zero_le _)
        rwa [hsrclen, Nat.zero_add] at this
      have hlen' : (memcpy out (30 + 32 * j) src).length = input.length := by
        rw [length_memcpy _ _ _ (by omega), hout]
      have htake' : (memcpy out (30 + 32 * j) src).take (min input.length (30 + 32 * (j + 1))) =
          input.take (min input.length (30 + 32 * (j + 1))) := by
        have := take_memcpy out (30 + 32 * j) src (by omega)
        rw [hsrclen, hnext] at this
        rw [this, htake, hsrc, ← hnext]
        exact take_add.symm
      obtain ⟨s', hs'⟩ := ih (input.length - (30 + 32 * (j + 1))) (by omega) (j + 1) (s := t)
        (hwt ▸ h) hlen' htake' rfl
      refine ⟨s', ?_⟩
      rw [if_pos hlt]
      dsimp only
      rw [← hn, hnext, add_ofNat_succ, run_bind, getWord, ht]
      dsimp only
      rw [hbytes]
      exact hs'
    · have hmin : min input.length (30 + 32 * j) = input.length := Nat.min_eq_left (by omega)
      have hin : out = input := by
        rwa [hmin, take_length, ← hout, take_length] at htake
      rw [if_neg (by omega), hin]
      exact ⟨s, rfl⟩

theorem getData_words {s : State H} (h : Holds (s.words addr) key input) :
    ∃ s', getData addr key [] s = .ok (input.length, input) s' := by
  obtain ⟨t, ht, hwt, -⟩ := State.storage_words s addr key
  unfold getData
  rw [run_bind, getWord, ht]
  dsimp only
  rw [h.2.1, length_of_wordBytes h.1]
  by_cases h0 : input.length = 0
  · rw [if_pos h0, h0, length_eq_zero_iff.1 h0]
    exact ⟨t, rfl⟩
  · obtain ⟨src, hsrc⟩ : ∃ src, src = input.take (min input.length 30) := ⟨_, rfl⟩
    have hsrclen : src.length = min input.length 30 := by rw [hsrc, length_take]; omega
    have hres : (resize [] input.length).length = input.length := by
      simp [resize]
    -- the bytes after the length
    have hbytes : ((wordBytes input 0).drop 2).take (min input.length 30) = src := by
      have := take_memcpy (toH256 (BitVec.ofNat 256 input.length <<< 240)) 2 src
        (by rw [length_toH256]; omega)
      have hdrop := congrArg (List.drop 2) this
      rw [drop_take, drop_left' (by rw [length_take, length_toH256]; rfl)] at hdrop
      rw [Nat.add_sub_cancel_left] at hdrop
      rw [wordBytes, ← hsrc, ← hsrclen]
      exact hdrop
    rw [if_neg h0, toH256_ofH256 (length_wordBytes ..), hbytes]
    have hout : (memcpy (resize [] input.length) 0 src).length = input.length := by
      rw [length_memcpy _ _ _ (by omega), hres]
    have htake := take_memcpy (resize [] input.length) 0 src (Nat.zero_le _)
    obtain ⟨s', hs'⟩ := getLoop_words addr 0 (s := t) (hwt ▸ h) hout (by
      rw [Nat.zero_add, hsrclen] at htake
      rw [Nat.mul_zero, Nat.add_zero, htake, hsrc]; rfl)
    exact ⟨s', by simpa using hs'⟩

/-! ### Runs -/

/-- The value last put at `key`. -/
def LastPut (puts : List (U256 × Bytes)) (key : U256) (input : Bytes) : Prop :=
  ∃ l l', puts = l ++ (key, input) :: l' ∧ ∀ p ∈ l', p.1 ≠ key

theorem Holds.congr {f g : U256 → U256} (h : Holds f key input)
    (hfg : ∀ x, InWindow key x → g x = f x) : Holds g key input := by
  refine ⟨h.1, ?_, fun i hi hin => ?_⟩
  · rw [hfg key ⟨0, by omega, (BitVec.add_zero ..).symm⟩]; exact h.2.1
  · rw [hfg _ ⟨i, by have := h.1; unfold HasWord at hin; omega, rfl⟩]; exact h.2.2 i hi hin

variable {puts : List (U256 × Bytes)}

theorem putAll_words (addr : Address) (hlen : ∀ p ∈ puts, p.2.length ≤ 8190)
    (hdisj : ∀ p ∈ puts, ∀ q ∈ puts, p.1 ≠ q.1 → ∀ x, InWindow p.1 x → ¬ InWindow q.1 x)
    (s : State H) : ∃ s', putAll addr puts s = .ok () s' ∧
      (∀ key input, LastPut puts key input → Holds (s'.words addr) key input) ∧
      ∀ x, (∀ p ∈ puts, ¬ InWindow p.1 x) → s'.words addr x = s.words addr x := by
  induction puts generalizing s with
  | nil =>
    refine ⟨s, rfl, ?_, fun _ _ => rfl⟩
    rintro key input ⟨l, l', h, -⟩
    simp at h
  | cons p puts ih =>
    obtain ⟨s₁, hs₁, hput, hkeep⟩ := putData_words addr (hlen p (mem_cons_self ..)) p.1 s
    obtain ⟨s', hs', hlast, hkeep'⟩ := ih (fun q hq => hlen q (mem_cons_of_mem _ hq))
      (fun q hq r hr => hdisj q (mem_cons_of_mem _ hq) r (mem_cons_of_mem _ hr)) s₁
    refine ⟨s', ?_, ?_, fun x hx => ?_⟩
    · rw [putAll, run_bind, hs₁]; exact hs'
    · rintro key input ⟨l, l', h, hl'⟩
      cases l with
      | nil =>
        -- no put after this one is at the same key
        obtain ⟨rfl, rfl⟩ := List.cons.inj h
        refine hput.congr fun x hx => hkeep' x fun q hq => ?_
        exact hdisj _ (mem_cons_self ..) q (mem_cons_of_mem _ hq) (hl' q hq).symm x hx
      | cons q l =>
        obtain ⟨rfl, rfl⟩ := List.cons.inj h
        exact hlast key input ⟨l, l', rfl, hl'⟩
    · rw [hkeep' x fun q hq => hx q (mem_cons_of_mem _ hq), hkeep x (hx p (mem_cons_self ..))]

/-- From a coherent state, other accounts are not touched either. -/
def Elsewhere (addr : Address) (base : Nat) (s s' : State H) : Prop :=
  State.Coherent base s' ∧ ∀ b, b ≠ addr → s'.view b = s.view b

theorem Elsewhere.trans {base : Nat} {s s' s'' : State H} (h : Elsewhere addr base s s')
    (h' : Elsewhere addr base s' s'') : Elsewhere addr base s s'' :=
  ⟨h'.1, fun b hb => (h'.2 b hb).trans (h.2 b hb)⟩

section

variable {base : Nat} {s s' : State H} (h : State.Coherent base s)
include h

theorem putWord_elsewhere {val : U256} (hs' : putWord addr key val s = .ok () s') : Elsewhere addr base s s' := by
  obtain ⟨hext, hview, -⟩ := wp_ok (h.setStorage key val (E := fun _ _ => False)) hs'
  exact ⟨hext.coherent, fun b hb => by rw [hview, World.upsert, update_of_ne hb]⟩

theorem putLoop_elsewhere {written : Nat} (hs' : putLoop addr input key written s = .ok () s') :
    Elsewhere addr base s s' := by
  induction hm : input.length - written using Nat.strong_induction_on generalizing key written s with
  | _ m ih =>
    rw [putLoop] at hs'
    by_cases hlt : written < input.length
    · rw [if_pos hlt, run_bind] at hs'
      split at hs'
      · next s₁ hs₁ =>
        have h₁ := putWord_elsewhere h hs₁
        exact h₁.trans (ih _ (by omega) h₁.1 hs' rfl)
      · cases hs'
    · rw [if_neg hlt] at hs'
      cases hs'
      exact ⟨h, fun _ _ => rfl⟩

theorem putAll_elsewhere (hs' : putAll addr puts s = .ok () s') : Elsewhere addr base s s' := by
  induction puts generalizing s with
  | nil => cases hs'; exact ⟨h, fun _ _ => rfl⟩
  | cons p puts ih =>
    rw [putAll, run_bind] at hs'
    split at hs'
    · next s₁ hs₁ =>
      have h₁ : Elsewhere addr base s s₁ := by
        unfold putData at hs₁
        dsimp only at hs₁
        split at hs₁
        · cases hs₁
        · rw [run_bind] at hs₁
          split at hs₁
          · next s₂ hs₂ =>
            have h₂ := putWord_elsewhere h hs₂
            exact h₂.trans (putLoop_elsewhere h₂.1 hs₁)
          · cases hs₁
      exact h₁.trans (ih h₁.1 hs')
    · cases hs'

end

/-! ### Getting only reads -/

/-- What `getLoop` returns from these words. -/
def readLoop (words : U256 → U256) (len : Nat) (key : U256) (read : Nat) (out : Bytes) : Nat × Bytes :=
  if read < len then
    let n := min (len - read) 32
    readLoop words len (key + 1) (read + n) (memcpy out read ((toH256 (words (key + 1))).take n))
  else (len, out)
termination_by len - read

/-- What `getData` returns from these words. -/
def readData (words : U256 → U256) (key : U256) (out : Bytes) : Nat × Bytes :=
  let len := (words key >>> 240).toNat
  if len = 0 then (0, out)
  else
    let n := min len 30
    readLoop words len key n (memcpy (resize out len) 0 (((toH256 (words key)).drop 2).take n))

/-- The words at `addr` in a world. -/
def wordsOf (w : World H) (addr : Address) (key : U256) : U256 := (w addr).elim 0 (·.storage key)

theorem getLoop_reads {base : Nat} {len : Nat} {read : Nat} {s : State H}
    (h : State.Coherent base s) {E : Exn → State H → Prop} : wp (getLoop addr len key read out)
      (fun r s' => r = readLoop (wordsOf s.view addr) len key read out ∧ State.Extends Eq base s s' ∧
        s'.view = s.view) E s := by
  induction hm : len - read using Nat.strong_induction_on generalizing key read out s with
  | _ m ih =>
    rw [getLoop, readLoop]
    by_cases hlt : read < len
    · rw [if_pos hlt, if_pos hlt, wp_bind]
      refine wp_mono (h.storage (key + 1) (E := fun _ _ => False)) ?_ fun _ _ => False.elim
      rintro v t ⟨rfl, ht⟩
      refine wp_mono (ih (len - (read + min (len - read) 32)) (by omega) ht.ext.coherent rfl) ?_
        fun _ _ h => h
      rintro r s' ⟨hr, hs', hv'⟩
      rw [ht.view] at hr hv'
      exact ⟨hr, ht.ext.trans (.eq _) hs', hv'⟩
    · rw [if_neg hlt, if_neg hlt]
      exact ⟨rfl, h.refl, rfl⟩

theorem getData_reads {base : Nat} {s : State H}
    (h : State.Coherent base s) {E : Exn → State H → Prop} : wp (getData addr key out)
      (fun r s' => r = readData (wordsOf s.view addr) key out ∧ State.Extends Eq base s s' ∧
        s'.view = s.view) E s := by
  unfold getData
  rw [wp_bind]
  refine wp_mono (h.storage key (E := fun _ _ => False)) ?_ fun _ _ => False.elim
  rintro v t ⟨rfl, ht⟩
  dsimp only
  rw [wp_ite, readData]
  dsimp only [wordsOf]
  split
  · next h0 => exact ⟨(if_pos h0).symm, ht.ext, ht.view⟩
  · next h0 =>
    refine wp_mono (getLoop_reads ht.ext.coherent (E := fun _ _ => False)) ?_ fun _ _ => False.elim
    rintro r s' ⟨hr, hs', hv'⟩
    rw [ht.view] at hr hv'
    exact ⟨hr.trans (if_neg h0).symm, ht.ext.trans (.eq _) hs', hv'⟩

theorem getData_putAll (addr : Address) (hlen : ∀ p ∈ puts, p.2.length ≤ 8190)
    (hdisj : ∀ p ∈ puts, ∀ q ∈ puts, p.1 ≠ q.1 → ∀ x, InWindow p.1 x → ¬ InWindow q.1 x)
    (s : State H) : ∃ s', putAll addr puts s = .ok () s' ∧ (∀ key input, LastPut puts key input →
        eval (getData addr key []) s' = .ok (input.length, input)) ∧
      (∀ key, (∀ p ∈ puts, ∀ x, InWindow key x → ¬ InWindow p.1 x) →
        (∀ x, InWindow key x → eval (State.storage addr x) s = .ok 0) → eval (getData addr key []) s' = .ok (0, [])) ∧
      (∀ x, (∀ p ∈ puts, ¬ InWindow p.1 x) → eval (State.storage addr x) s' = eval (State.storage addr x) s) ∧
      (∀ base, State.Reachable base s → ∀ b, b ≠ addr → ∀ x,
        eval (State.storage b x) s' = eval (State.storage b x) s) ∧ ∀ (t : State H) key input, 8190 < input.length →
        putData addr key input t = .error .valueTooLarge t := by
  obtain ⟨s', hs', hlast, hkeep⟩ := putAll_words addr hlen hdisj s
  refine ⟨s', hs', fun key input h => ?_, fun key hk h0 => ?_, fun x hx => ?_, fun base h b hb x => ?_,
    fun t key input hlong => ?_⟩
  · obtain ⟨_, ht⟩ := getData_words (hlast key input h)
    exact eval_of_eq_ok ht
  · have hin : InWindow key key := ⟨0, by omega, (BitVec.add_zero ..).symm⟩
    have hw : s'.words addr key = 0 := by
      rw [hkeep key fun p hp => hk p hp key hin]
      have := h0 key hin
      rw [State.eval_storage_words] at this
      exact Except.ok.inj this
    obtain ⟨t, ht, -, -⟩ := State.storage_words s' addr key
    have hget : getData addr key [] s' = .ok (0, []) t := by
      unfold getData
      rw [run_bind, getWord, ht, hw]
      rfl
    exact eval_of_eq_ok hget
  · rw [State.eval_storage_words, State.eval_storage_words, hkeep x hx]
  · rw [State.eval_storage, State.eval_storage, (putAll_elsewhere h.coherent hs').2 b hb]
  · unfold putData
    dsimp only
    rw [if_pos hlong]; rfl

/-- Two keys, one of them put again with a shorter value. -/
theorem getData_putAll_overwrite : ∃ s' : State PerfectDigest,
    putAll 7 [(0, List.replicate 40 1), (300, [2]), (0, [3])]
      (State.preExisting 0 .empty emptyTrie fun _ => 0) = .ok () s' ∧
    eval (getData 7 0 []) s' = .ok (1, [3]) ∧ eval (getData 7 300 []) s' = .ok (1, [2]) := by
  have hdisj : ∀ p ∈ [((0 : U256), List.replicate 40 (1 : Byte)), (300, [2]), (0, [3])],
      ∀ q ∈ [((0 : U256), List.replicate 40 (1 : Byte)), (300, [2]), (0, [3])],
      p.1 ≠ q.1 → ∀ x, InWindow p.1 x → ¬ InWindow q.1 x := by
    intro p hp q hq hne x hpx hqx
    obtain ⟨i, hi, rfl⟩ := hpx
    obtain ⟨j, hj, he⟩ := hqx
    have hi' : (BitVec.ofNat 256 i).toNat = i := by rw [BitVec.toNat_ofNat]; omega
    have hj' : (BitVec.ofNat 256 j).toNat = j := by rw [BitVec.toNat_ofNat]; omega
    have hnat := congrArg BitVec.toNat he
    rw [BitVec.toNat_add, BitVec.toNat_add, hi', hj'] at hnat
    simp only [mem_cons, not_mem_nil, or_false] at hp hq
    rcases hp with rfl | rfl | rfl <;> rcases hq with rfl | rfl | rfl <;>
      first | exact absurd rfl hne | (simp at hnat; omega)
  obtain ⟨s', hs', hlast, -⟩ := getData_putAll 7 (by decide) hdisj
    (State.preExisting (H := PerfectDigest) 0 .empty emptyTrie fun _ => 0)
  exact ⟨s', hs', hlast 0 [3] ⟨[_, _], [], rfl, nofun⟩, hlast 300 [2] ⟨[_], [_], rfl, by simp⟩⟩

end NativeStorage

end Kmdx
