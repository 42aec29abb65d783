import Kmdx.Lib.Runs
import Kmdx.BlockQueue

/-!
# The bytes a block queue holds

`m_size` of a queue follows the data it holds, but for `removeIf` where it removes a block with data from
in front of blocks that stay; `m_size` of a map does not follow what is inserted. So the counters, and with
them `knownFull` and `unknownFull`, tell what is held exactly in the runs in which neither happens
(`BlockQueue.accounted_iff_accountable`).
-/

namespace Kmdx

open RemoveIf Runs

variable {H : Type}

def bytesHeld {T : Type} [Movable T] (l : List T) : Nat := (l.map fun t => (blockData t).length).sum

def entryBytes {K : Type} (l : List (MapEntry K H)) : Nat := (l.map fun e => e.blockData.length).sum

/-- `m_size` is the size of the data. -/
def SizedBlockQueue.Counted {T : Type} [Movable T] (q : SizedBlockQueue T) : Prop :=
  q.size.toNat = bytesHeld q.queue

def SizedBlockMap.Counted {K : Type} (m : SizedBlockMap K H) : Prop := m.size.toNat = entryBytes m.map

instance {K : Type} (m : SizedBlockMap K H) : Decidable m.Counted := inferInstanceAs (Decidable (_ = _))

/-! ### The operations -/

inductive QueueOp (T : Type)
  | enqueue (t : T)
  | dequeue
  | dequeueMultiple (n : Nat)
  | removeIf (p : T → Bool)
  | clear

/-- `remove` and `replace` are there for verified blocks only. -/
inductive VerifiedOp (H : Type)
  | queue (op : QueueOp (VerifiedBlock H))
  | remove (hash : H)
  | replace (hash : H) (t : VerifiedBlock H)

inductive MapOp (K H : Type)
  | insert (key : K) (hash : H) (data : Bytes)
  | removeByKeyEqual (key : K)
  | removeByKeyNotGreater (key : K)
  | clear

inductive ContainerOp (H : Type)
  | verified (op : VerifiedOp H)
  | verifying (op : VerifiedOp H)
  | unverified (op : QueueOp (UnverifiedBlock H))
  | unknown (op : MapOp H H)
  | future (op : MapOp Nat H)

section
variable {T : Type} [Movable T]

def QueueOp.apply (q : SizedBlockQueue T) : QueueOp T → Option (SizedBlockQueue T)
  | .enqueue t => some (q.enqueue t)
  | .dequeue => q.dequeue.map Prod.snd
  | .dequeueMultiple n => (q.dequeueMultiple n).map Prod.snd
  | .removeIf p => some (q.removeIf p).2
  | .clear => some q.clear

/-- The blocks with data that `p` removes stand behind as many blocks as stay. -/
def SparesFront (q : SizedBlockQueue T) (p : T → Bool) : Prop :=
  ∀ t ∈ q.queue.take (q.queue.filter (!p ·)).length, p t = true → blockData t = []

def QueueOp.Sound (q : SizedBlockQueue T) : QueueOp T → Prop
  | .removeIf p => SparesFront q p
  | _ => True

/-- The bytes that the queue has to hold at most. -/
def QueueOp.needs (q : SizedBlockQueue T) : QueueOp T → Nat
  | .enqueue t => bytesHeld q.queue + (blockData t).length
  | _ => bytesHeld q.queue

end

/-! ### One operation -/

section
variable {T : Type} [Movable T] {q q' : SizedBlockQueue T}

theorem toNat_sub_ofNat {a : Size} {n : Nat} (h : n ≤ a.toNat) : (a - BitVec.ofNat 64 n).toNat = a.toNat - n := by
  have := a.isLt
  rw [BitVec.toNat_sub, BitVec.toNat_ofNat, Nat.mod_eq_of_lt (a := n) (by omega)]
  omega

@[simp] theorem bytesHeld_nil : bytesHeld ([] : List T) = 0 := rfl

@[simp] theorem bytesHeld_cons (t : T) (l : List T) :
    bytesHeld (t :: l) = (blockData t).length + bytesHeld l := by simp [bytesHeld]

@[simp] theorem bytesHeld_append (l l' : List T) : bytesHeld (l ++ l') = bytesHeld l + bytesHeld l' := by
  simp [bytesHeld]

theorem SizedBlockQueue.size_removeRange (q : SizedBlockQueue T) (removed left : List T) :
    (q.removeRange removed left).2.size = q.size - BitVec.ofNat 64 (bytesHeld removed) := by
  suffices h : ∀ size : Size, removed.foldl (fun size t => size - dataSize (blockData t)) size =
      size - BitVec.ofNat 64 (bytesHeld removed) from h q.size
  induction removed with
  | nil => simp
  | cons t removed ih =>
    intro size
    rw [List.foldl_cons, ih, bytesHeld_cons, dataSize, BitVec.ofNat_add]
    ring

/-- Taking out a range is counted right if what is counted is what the queue no longer holds. -/
theorem SizedBlockQueue.counted_removeRange_iff {removed left : List T} (lost : Nat) (hq : q.Counted)
    (h : bytesHeld removed + lost + bytesHeld left = bytesHeld q.queue) :
    (q.removeRange removed left).2.Counted ↔ lost = 0 := by
  have hsize : (q.removeRange removed left).2.size.toNat = bytesHeld q.queue - bytesHeld removed := by
    rw [size_removeRange, toNat_sub_ofNat (by rw [hq]; omega), hq]
  rw [Counted, hsize, show (q.removeRange removed left).2.queue = left from rfl]
  omega

theorem SizedBlockQueue.eq_removeRange_of_dequeue {t : T} (h : q.dequeue = some (t, q')) :
    q' = (q.removeRange [t] q'.queue).2 := by
  rcases q with ⟨_ | ⟨u, l⟩, size⟩ <;> cases h
  rfl

theorem SizedBlockQueue.bytesHeld_dequeue {t : T} (h : q.dequeue = some (t, q')) :
    (blockData t).length + bytesHeld q'.queue = bytesHeld q.queue := by
  rw [q.queue_of_dequeue h, bytesHeld_cons]

theorem SizedBlockQueue.counted_removeIf_iff {p : T → Bool} (hq : q.Counted) :
    (q.removeIf p).2.Counted ↔ SparesFront q p := by
  have hf : ∀ t : T, (blockData (moved t)).length = 0 := by simp
  have hremoved := sum_removedRange (f := fun t => (blockData t).length) (p := p) (l := q.queue) hf
  have hkept := sum_keptRange (p := p) (l := q.queue) (f := fun t => (blockData t).length) moved
  rw [removeIf, counted_removeRange_iff _ hq (by unfold bytesHeld; rw [hremoved]; omega), keptRange_eq,
    SparesFront]
  simp only [List.sum_eq_zero_iff_forall_eq_nat, List.forall_mem_map, List.mem_filter, and_imp,
    List.length_eq_zero_iff]

theorem SizedBlockQueue.bytesHeld_removeIf_le {p : T → Bool} :
    bytesHeld (q.removeIf p).2.queue ≤ bytesHeld q.queue := by
  have hkept := sum_keptRange (p := p) (l := q.queue) (f := fun t => (blockData t).length) moved
  rw [show (q.removeIf p).2.queue = keptRange moved p q.queue from rfl]
  unfold bytesHeld
  omega

theorem SizedBlockQueue.counted_add_iff {l : List T} {t : T} {size : Size} (held : Nat)
    (hsize : size.toNat = held) (hl : bytesHeld l = held + (blockData t).length) :
    (⟨l, size + dataSize (blockData t)⟩ : SizedBlockQueue T).Counted ↔ bytesHeld l < 2 ^ 64 := by
  have := size.isLt
  rw [Counted, hl, dataSize, BitVec.toNat_add, BitVec.toNat_ofNat, hsize]
  omega

/-- An operation that is sound is counted right unless the bytes do not fit. -/
theorem QueueOp.counted_iff {op : QueueOp T} (hq : q.Counted) (h : op.apply q = some q') :
    q'.Counted ↔ op.Sound q ∧ bytesHeld q'.queue < 2 ^ 64 := by
  have hlt : bytesHeld q.queue < 2 ^ 64 := hq ▸ q.size.isLt
  cases op with
  | enqueue t =>
    cases h
    exact (SizedBlockQueue.counted_add_iff _ hq (by simp)).trans ⟨And.intro trivial, And.right⟩
  | dequeue =>
    obtain ⟨⟨t, q'⟩, hd, rfl⟩ := Option.map_eq_some_iff.1 h
    have hheld := SizedBlockQueue.bytesHeld_dequeue hd
    rw [SizedBlockQueue.eq_removeRange_of_dequeue hd,
      SizedBlockQueue.counted_removeRange_iff 0 hq (by simpa using hheld)]
    exact ⟨fun _ => ⟨trivial, show bytesHeld q'.queue < _ by omega⟩, fun _ => rfl⟩
  | dequeueMultiple n =>
    obtain ⟨r, hd, rfl⟩ := Option.map_eq_some_iff.1 h
    obtain ⟨hn, hr⟩ := Option.ite_none_right_eq_some.1 hd
    obtain rfl := Option.some.inj hr
    have hheld := bytesHeld_append (q.queue.take n) (q.queue.drop n)
    rw [List.take_append_drop] at hheld
    rw [SizedBlockQueue.counted_removeRange_iff 0 hq (by simpa using hheld.symm)]
    exact ⟨fun _ => ⟨trivial, show bytesHeld (q.queue.drop n) < _ by omega⟩, fun _ => rfl⟩
  | removeIf p =>
    cases h
    have := SizedBlockQueue.bytesHeld_removeIf_le (q := q) (p := p)
    rw [SizedBlockQueue.counted_removeIf_iff hq]
    exact ⟨fun h => ⟨h, by omega⟩, And.left⟩
  | clear =>
    cases h
    simp [SizedBlockQueue.Counted, SizedBlockQueue.clear, Sound]

/-- An operation needs what it leaves, unless it only takes away. -/
theorem QueueOp.bytesHeld_eq_or {op : QueueOp T} (h : op.apply q = some q') :
    bytesHeld q'.queue = op.needs q ∨ bytesHeld q'.queue ≤ bytesHeld q.queue ∧ op.needs q = bytesHeld q.queue := by
  cases op with
  | enqueue t =>
    cases h
    exact .inl (by simp [SizedBlockQueue.enqueue, needs])
  | dequeue =>
    obtain ⟨⟨t, q'⟩, hd, rfl⟩ := Option.map_eq_some_iff.1 h
    have hheld := SizedBlockQueue.bytesHeld_dequeue hd
    exact .inr ⟨by dsimp only; omega, rfl⟩
  | dequeueMultiple n =>
    obtain ⟨r, hd, rfl⟩ := Option.map_eq_some_iff.1 h
    obtain ⟨hn, hr⟩ := Option.ite_none_right_eq_some.1 hd
    obtain rfl := Option.some.inj hr
    have hheld := bytesHeld_append (q.queue.take n) (q.queue.drop n)
    rw [List.take_append_drop] at hheld
    exact .inr ⟨show bytesHeld (q.queue.drop n) ≤ _ by omega, rfl⟩
  | removeIf p =>
    cases h
    exact .inr ⟨SizedBlockQueue.bytesHeld_removeIf_le, rfl⟩
  | clear =>
    cases h
    exact .inr ⟨Nat.zero_le _, rfl⟩

end

variable [LinearOrder H]

def VerifiedOp.apply (q : SizedBlockQueue (VerifiedBlock H)) : VerifiedOp H →
    Option (SizedBlockQueue (VerifiedBlock H))
  | .queue op => op.apply q
  | .remove hash => some (q.remove hash).2
  | .replace hash t => some (q.replace hash t).2

def VerifiedOp.Sound (q : SizedBlockQueue (VerifiedBlock H)) : VerifiedOp H → Prop
  | .queue op => op.Sound q
  | .remove hash => SparesFront q (SizedBlockQueue.sha3UnclesEquals hash)
  | .replace _ _ => True

def VerifiedOp.needs (q : SizedBlockQueue (VerifiedBlock H)) : VerifiedOp H → Nat
  | .queue op => op.needs q
  | .remove _ => bytesHeld q.queue
  | .replace hash t =>
    match q.queue.find? (SizedBlockQueue.sha3UnclesEquals hash) with
    | none => bytesHeld q.queue
    | some u => bytesHeld q.queue - u.blockData.length + t.blockData.length

def MapOp.apply {K : Type} [LinearOrder K] (m : SizedBlockMap K H) : MapOp K H → SizedBlockMap K H
  | .insert key hash data => m.insert key hash data
  | .removeByKeyEqual key => (m.removeByKeyEqual key).2
  | .removeByKeyNotGreater key => (m.removeByKeyNotGreater key).2
  | .clear => m.clear

/-- Only a block without data is inserted. -/
def MapOp.Sound {K : Type} : MapOp K H → Prop
  | .insert _ _ data => data = []
  | _ => True

/-! ### One operation on the verified blocks, and on a map -/

section
variable {q q' : SizedBlockQueue (VerifiedBlock H)} {hash : H} {t u : VerifiedBlock H}

omit [LinearOrder H] in
theorem SizedBlockQueue.bytesHeld_replaceFirst {p : VerifiedBlock H → Bool} {l : List (VerifiedBlock H)}
    (h : l.find? p = some u) :
    bytesHeld (replaceFirst p t l) + u.blockData.length = bytesHeld l + t.blockData.length := by
  induction l with
  | nil => cases h
  | cons v l ih =>
    by_cases hv : p v
    · obtain rfl : v = u := by simpa [hv] using h
      simp only [replaceFirst, if_pos hv, bytesHeld_cons]
      change t.blockData.length + _ + _ = v.blockData.length + _ + _
      omega
    · have := ih (by simpa [hv] using h)
      simp only [replaceFirst, if_neg hv, bytesHeld_cons]
      omega

omit [LinearOrder H] in
theorem SizedBlockQueue.length_le_bytesHeld {l : List (VerifiedBlock H)} (h : u ∈ l) :
    u.blockData.length ≤ bytesHeld l := by
  obtain ⟨l₁, l₂, rfl⟩ := List.append_of_mem h
  rw [bytesHeld_append, bytesHeld_cons]
  exact Nat.le_add_left_of_le (Nat.le_add_right _ _)

theorem SizedBlockQueue.counted_replace_iff (hq : q.Counted) :
    (q.replace hash t).2.Counted ↔ bytesHeld (q.replace hash t).2.queue < 2 ^ 64 := by
  rw [replace]
  cases hu : q.queue.find? (sha3UnclesEquals hash) with
  | none => exact ⟨fun h => h ▸ q.size.isLt, fun _ => hq⟩
  | some u =>
    have hle := length_le_bytesHeld (List.mem_of_find?_eq_some hu)
    have hheld := bytesHeld_replaceFirst (t := t) hu
    refine counted_add_iff (bytesHeld q.queue - u.blockData.length) ?_ ?_
    · rw [dataSize, toNat_sub_ofNat (by rw [hq]; exact hle), hq]
    · change _ = _ + t.blockData.length
      omega

theorem VerifiedOp.counted_iff {op : VerifiedOp H} (hq : q.Counted) (h : op.apply q = some q') :
    q'.Counted ↔ op.Sound q ∧ bytesHeld q'.queue < 2 ^ 64 := by
  cases op with
  | queue op => exact op.counted_iff hq h
  | remove hash =>
    cases h
    exact (QueueOp.removeIf (SizedBlockQueue.sha3UnclesEquals hash)).counted_iff hq rfl
  | replace hash t =>
    cases h
    rw [SizedBlockQueue.counted_replace_iff hq]
    exact ⟨And.intro trivial, And.right⟩

theorem VerifiedOp.bytesHeld_eq_or {op : VerifiedOp H} (h : op.apply q = some q') :
    bytesHeld q'.queue = op.needs q ∨ bytesHeld q'.queue ≤ bytesHeld q.queue ∧ op.needs q = bytesHeld q.queue := by
  cases op with
  | queue op => exact op.bytesHeld_eq_or h
  | remove hash =>
    cases h
    exact .inr ⟨SizedBlockQueue.bytesHeld_removeIf_le, rfl⟩
  | replace hash t =>
    cases h
    left
    rw [SizedBlockQueue.replace, needs]
    cases hu : q.queue.find? (SizedBlockQueue.sha3UnclesEquals hash) with
    | none => rfl
    | some u =>
      have hle := SizedBlockQueue.length_le_bytesHeld (List.mem_of_find?_eq_some hu)
      have hheld := SizedBlockQueue.bytesHeld_replaceFirst (t := t) hu
      dsimp only
      omega

end

section
omit [LinearOrder H]
variable {K : Type} [LinearOrder K] {m : SizedBlockMap K H}

omit [LinearOrder K] in
@[simp] theorem entryBytes_cons (e : MapEntry K H) (l : List (MapEntry K H)) :
    entryBytes (e :: l) = e.blockData.length + entryBytes l := by simp [entryBytes]

theorem SizedBlockMap.entryBytes_insertEntry (e : MapEntry K H) (l : List (MapEntry K H)) :
    entryBytes (insertEntry e l) = e.blockData.length + entryBytes l := by
  induction l with
  | nil => rfl
  | cons x l ih =>
    rw [insertEntry]
    split
    · simp
    · simp only [entryBytes_cons, ih]
      omega

omit [LinearOrder K] in
theorem entryBytes_filter (p : MapEntry K H → Prop) [DecidablePred p] (l : List (MapEntry K H)) :
    entryBytes (l.filter p) + entryBytes (l.filter (¬ p ·)) = entryBytes l := by
  induction l with
  | nil => rfl
  | cons e l ih =>
    by_cases he : p e
    · rw [List.filter_cons_of_pos (by simpa using he), List.filter_cons_of_neg (by simpa using he),
        entryBytes_cons, entryBytes_cons]
      omega
    · rw [List.filter_cons_of_neg (by simpa using he), List.filter_cons_of_pos (by simpa using he),
        entryBytes_cons, entryBytes_cons]
      omega

omit [LinearOrder K] in
theorem SizedBlockMap.removedSize (removed : List (MapEntry K H)) :
    removed.foldl (fun size e => size + dataSize e.blockData) (0 : Size) =
      BitVec.ofNat 64 (entryBytes removed) := by
  suffices h : ∀ size : Size, removed.foldl (fun size e => size + dataSize e.blockData) size =
      size + BitVec.ofNat 64 (entryBytes removed) from (h 0).trans (BitVec.zero_add _)
  induction removed with
  | nil => simp [entryBytes]
  | cons e removed ih =>
    intro size
    rw [List.foldl_cons, ih, entryBytes_cons, dataSize, BitVec.ofNat_add]
    ring

omit [LinearOrder K] in
theorem SizedBlockMap.counted_removeRange (p : MapEntry K H → Prop) [DecidablePred p] (hm : m.Counted) :
    (m.removeRange (m.map.filter p) (m.map.filter (¬ p ·))).2.Counted := by
  have hheld := entryBytes_filter p m.map
  rw [Counted, removeRange, removedSize, toNat_sub_ofNat (by rw [hm]; omega), hm]
  dsimp only
  omega

/-- What is inserted is not counted. -/
theorem MapOp.counted_iff {op : MapOp K H} (hm : m.Counted) : (op.apply m).Counted ↔ op.Sound := by
  cases op with
  | insert key hash data =>
    have hsize : (m.insert key hash data).size = m.size := BitVec.add_zero _
    rw [apply, SizedBlockMap.Counted, hsize, hm, SizedBlockMap.insert, SizedBlockMap.entryBytes_insertEntry,
      Sound, ← List.length_eq_zero_iff]
    dsimp only
    omega
  | removeByKeyEqual key => exact ⟨fun _ => trivial, fun _ => SizedBlockMap.counted_removeRange (·.key = key) hm⟩
  | removeByKeyNotGreater key =>
    exact ⟨fun _ => trivial, fun _ => SizedBlockMap.counted_removeRange (·.key ≤ key) hm⟩
  | clear => exact ⟨fun _ => trivial, fun _ => rfl⟩

theorem MapOp.entryBytes_le {op : MapOp K H} (h : op.Sound) : entryBytes (op.apply m).map ≤ entryBytes m.map := by
  cases op with
  | insert key hash data =>
    obtain rfl : data = [] := h
    simp [apply, SizedBlockMap.insert, SizedBlockMap.entryBytes_insertEntry]
  | removeByKeyEqual key =>
    have := entryBytes_filter (·.key = key) m.map
    simp only [apply, SizedBlockMap.removeByKeyEqual, SizedBlockMap.removeRange, ne_eq]
    omega
  | removeByKeyNotGreater key =>
    have := entryBytes_filter (·.key ≤ key) m.map
    simp only [apply, SizedBlockMap.removeByKeyNotGreater, SizedBlockMap.removeRange]
    omega
  | clear => exact Nat.zero_le _

end

namespace BlockQueue

def applyOp (s : BlockQueue H) : ContainerOp H → Option (BlockQueue H)
  | .verified op => (op.apply s.verified).map fun verified => { s with verified }
  | .verifying op => (op.apply s.verifying).map fun verifying => { s with verifying }
  | .unverified op => (op.apply s.unverified).map fun unverified => { s with unverified }
  | .unknown op => some { s with unknown := op.apply s.unknown }
  | .future op => some { s with future := op.apply s.future }

/-- The data in `m_verified`, `m_unverified` and `m_verifying`. -/
def knownBytes (s : BlockQueue H) : Nat :=
  bytesHeld s.verified.queue + bytesHeld s.unverified.queue + bytesHeld s.verifying.queue

/-- The data in `m_future` and `m_unknown`. -/
def unknownBytes (s : BlockQueue H) : Nat := entryBytes s.future.map + entryBytes s.unknown.map

/-- The counters, their sums and the two predicates tell what is held. -/
structure Accounted (s : BlockQueue H) : Prop where
  verified : s.verified.Counted
  verifying : s.verifying.Counted
  unverified : s.unverified.Counted
  unknown : s.unknown.Counted
  future : s.future.Counted
  knownSize : s.knownSize.toNat = s.knownBytes
  unknownSize : s.unknownSize.toNat = s.unknownBytes
  knownFull : s.knownFull = true ↔ maxKnownSize.toNat < s.knownBytes ∨ maxKnownCount < s.knownCount
  unknownFull : s.unknownFull = true ↔
    maxUnknownSize.toNat < s.unknownBytes ∨ maxUnknownCount < s.unknownCount

/-- No removal loses the size of a block, nothing with data goes into a map, and the queues never have to
hold `2 ^ 64` bytes. -/
def Accountable (s : BlockQueue H) : ContainerOp H → Prop
  | .verified op => op.Sound s.verified ∧
      s.knownBytes - bytesHeld s.verified.queue + op.needs s.verified < 2 ^ 64
  | .verifying op => op.Sound s.verifying ∧
      s.knownBytes - bytesHeld s.verifying.queue + op.needs s.verifying < 2 ^ 64
  | .unverified op => op.Sound s.unverified ∧
      s.knownBytes - bytesHeld s.unverified.queue + op.needs s.unverified < 2 ^ 64
  | .unknown op => op.Sound
  | .future op => op.Sound

omit [LinearOrder H] in
/-- The counters are enough: with no more than `2 ^ 64` bytes, their sums are right too. -/
theorem accounted_iff (s : BlockQueue H) : s.Accounted ↔
    (s.verified.Counted ∧ s.verifying.Counted ∧ s.unverified.Counted ∧ s.unknown.Counted ∧ s.future.Counted) ∧
      s.knownBytes < 2 ^ 64 ∧ s.unknownBytes < 2 ^ 64 := by
  constructor
  · intro h
    exact ⟨⟨h.verified, h.verifying, h.unverified, h.unknown, h.future⟩, h.knownSize ▸ s.knownSize.isLt,
      h.unknownSize ▸ s.unknownSize.isLt⟩
  · rintro ⟨⟨hv, hw, hu, hm, hf⟩, hknown, hunknown⟩
    have hknownSize : s.knownSize.toNat = s.knownBytes := by
      simp only [SizedBlockQueue.Counted] at hv hw hu
      rw [knownSize, BitVec.toNat_add, BitVec.toNat_add, hv, hu, hw]
      rw [knownBytes] at hknown ⊢
      omega
    have hunknownSize : s.unknownSize.toNat = s.unknownBytes := by
      simp only [SizedBlockMap.Counted] at hm hf
      rw [unknownSize, BitVec.toNat_add, hm, hf]
      rw [unknownBytes] at hunknown ⊢
      omega
    refine ⟨hv, hw, hu, hm, hf, hknownSize, hunknownSize, ?_, ?_⟩
    · rw [knownFull, Bool.or_eq_true, decide_eq_true_iff, decide_eq_true_iff, ← hknownSize]
      rfl
    · rw [unknownFull, Bool.or_eq_true, decide_eq_true_iff, decide_eq_true_iff, ← hunknownSize]
      rfl

/-- What one of the known queues holds decides what all three hold. -/
theorem lt_iff_of_held_or {total t held held' needs n : Nat} (hle : held ≤ total)
    (htotal : t + held = total + held') (hlt : total < n) (h : held' = needs ∨ held' ≤ held ∧ needs = held) :
    t < n ↔ total - held + needs < n := by
  rcases h with h | ⟨h, h'⟩ <;> omega

theorem accounted_applyOp_iff {s s' : BlockQueue H} {op : ContainerOp H} (hs : s.Accounted)
    (h : s.applyOp op = some s') : s'.Accounted ↔ s.Accountable op := by
  obtain ⟨⟨hv, hw, hu, hm, hf⟩, hknown, hunknown⟩ := s.accounted_iff.1 hs
  rw [accounted_iff]
  cases op with
  | verified op =>
    obtain ⟨q, hq, rfl⟩ := Option.map_eq_some_iff.1 h
    have htotal := lt_iff_of_held_or (t := knownBytes { s with verified := q }) (by rw [knownBytes]; omega)
      (by simp only [knownBytes]; omega) hknown (op.bytesHeld_eq_or hq)
    rw [op.counted_iff hv hq, Accountable, ← htotal]
    refine ⟨fun h => ⟨h.1.1.1, h.2.1⟩, fun h => ⟨⟨⟨h.1, ?_⟩, hw, hu, hm, hf⟩, h.2, hunknown⟩⟩
    simp only [knownBytes] at h
    omega
  | verifying op =>
    obtain ⟨q, hq, rfl⟩ := Option.map_eq_some_iff.1 h
    have htotal := lt_iff_of_held_or (t := knownBytes { s with verifying := q }) (by rw [knownBytes]; omega)
      (by simp only [knownBytes]; omega) hknown (op.bytesHeld_eq_or hq)
    rw [op.counted_iff hw hq, Accountable, ← htotal]
    refine ⟨fun h => ⟨h.1.2.1.1, h.2.1⟩, fun h => ⟨⟨hv, ⟨h.1, ?_⟩, hu, hm, hf⟩, h.2, hunknown⟩⟩
    simp only [knownBytes] at h
    omega
  | unverified op =>
    obtain ⟨q, hq, rfl⟩ := Option.map_eq_some_iff.1 h
    have htotal := lt_iff_of_held_or (t := knownBytes { s with unverified := q }) (by rw [knownBytes]; omega)
      (by simp only [knownBytes]; omega) hknown (op.bytesHeld_eq_or hq)
    rw [op.counted_iff hu hq, Accountable, ← htotal]
    refine ⟨fun h => ⟨h.1.2.2.1.1, h.2.1⟩, fun h => ⟨⟨hv, hw, ⟨h.1, ?_⟩, hm, hf⟩, h.2, hunknown⟩⟩
    simp only [knownBytes] at h
    omega
  | unknown op =>
    cases h
    rw [Accountable, op.counted_iff hm]
    refine ⟨fun h => h.1.2.2.2.1, fun h => ⟨⟨hv, hw, hu, h, hf⟩, hknown, ?_⟩⟩
    have := op.entryBytes_le (m := s.unknown) h
    simp only [unknownBytes] at hunknown ⊢
    omega
  | future op =>
    cases h
    rw [Accountable, op.counted_iff hf]
    refine ⟨fun h => h.1.2.2.2.2, fun h => ⟨⟨hv, hw, hu, hm, h⟩, hknown, ?_⟩⟩
    have := op.entryBytes_le (m := s.future) h
    simp only [unknownBytes] at hunknown ⊢
    omega

/-- In a run of the ten operations the counters tell what is held, all the time, exactly if every step is
`Accountable`. -/
theorem accounted_iff_accountable (ops : List (ContainerOp H)) :
    Always applyOp Accounted ({} : BlockQueue H) ops ↔ Each applyOp Accountable ({} : BlockQueue H) ops := by
  refine always_iff_each accounted_applyOp_iff ?_ ops
  rw [accounted_iff]
  exact ⟨⟨rfl, rfl, rfl, rfl, rfl⟩, Nat.two_pow_pos 64, Nat.two_pow_pos 64⟩

/-- One block with one byte of data in `m_unknown` is not counted. -/
theorem not_always_accounted :
    ¬ ∀ ops : List (ContainerOp Nat), Always applyOp Accounted ({} : BlockQueue Nat) ops := by
  intro h
  have hrun := (h [.unknown (.insert 1 2 [0])]).2 _ rfl
  exact absurd hrun.unknown (by decide)

end BlockQueue

end Kmdx
