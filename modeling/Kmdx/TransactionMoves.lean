import Kmdx.TransactionIndex

/-!
# What the functions of the transaction queue do

Each function is a few moves of transactions into the current ones (`Added`), out of them (`Removed`), or between
them and the future ones.
-/

namespace Kmdx.TransactionQueue

open Wp QueuedTransaction List

variable {c : Containers} {T H : Type}
variable {s s' s₁ s₂ : TransactionQueue c T H} {t u : T} {n : Nat}

/-! ### Dropping future transactions -/

/-- The future transactions are counted. -/
structure Counted (s : TransactionQueue c T H) : Prop where
  eq : s.futureSize = s.future.keys.length
  lt : s.futureSize < 2 ^ 32

theorem decrement_eq (h : 0 < n) (hn : n < 2 ^ 32) : decrement n = n - 1 := by
  rw [decrement]
  omega

theorem increment_eq (hn : n + 1 < 2 ^ 32) : increment n = n + 1 := by
  rw [increment]
  omega

/-- Only future transactions go, and none as long as there are not too many. -/
structure Shrunk (s s' : TransactionQueue c T H) : Prop where
  state : s' = { s with future := s'.future, futureSize := s'.futureSize }
  sub : ∀ {k t}, s'.future.lookup k = some t → s.future.lookup k = some t
  counted : Counted s'
  stays : s.futureSize ≤ s.futureLimit → s' = s

namespace Shrunk

theorem refl (h : Counted s) : Shrunk s s := ⟨rfl, id, h, fun _ => rfl⟩

theorem current (h : Shrunk s s') : s'.current = s.current := by rw [h.state]

theorem slots (h : Shrunk s s') : s'.currentByAddressAndNonce = s.currentByAddressAndNonce := by rw [h.state]

theorem currentByHash (h : Shrunk s s') : s'.currentByHash = s.currentByHash := by rw [h.state]

theorem next (h : Shrunk s s') : s'.next = s.next := by rw [h.state]

theorem known (h : Shrunk s s') : s'.known = s.known := by rw [h.state]

end Shrunk

variable {k : Address × Nat}

/-- One of them goes. -/
theorem shrunk_erase (hlimit : s.futureLimit < s.futureSize) {s' : TransactionQueue c T H}
    (hs' : Shrunk { s with future := s.future.erase k, futureSize := decrement s.futureSize } s') : Shrunk s s' := by
  refine ⟨hs'.state, fun {k' t} ht => ?_, hs'.counted, fun hle => absurd hle (not_le.2 hlimit)⟩
  have ht := hs'.sub ht
  by_cases heq : k' = k
  · rw [heq, AList.lookup_erase] at ht
    cases ht
  · rwa [AList.lookup_erase_ne heq] at ht

theorem counted_erase (h : Counted s) (hk : k ∈ s.future) :
    Counted { s with future := s.future.erase k, futureSize := decrement s.futureSize } := by
  have hlen := length_keys_erase hk
  have hpos : 0 < s.futureSize := by rw [h.eq]; omega
  have hsize := decrement_eq hpos h.lt
  refine ⟨?_, ?_⟩
  · dsimp only
    rw [hsize, h.eq]
    omega
  · dsimp only
    rw [hsize]
    exact (Nat.sub_le _ _).trans_lt h.lt

variable {Q : Unit → TransactionQueue c T H → Prop} {E : Exn → TransactionQueue c T H → Prop}

theorem wp_dropFuture (h : Counted s) (hpos : 0 < s.futureSize)
    (hQ : ∀ k ∈ s.future, Q () { s with future := s.future.erase k, futureSize := decrement s.futureSize }) :
    wp dropFuture Q E s := by
  have hne : s.future.keys.map Prod.fst ≠ [] := by
    intro hnil
    rw [map_eq_nil_iff] at hnil
    rw [h.eq, hnil] at hpos
    exact lt_irrefl _ hpos
  obtain ⟨a, ha, hfront⟩ := c.front_mem hne
  obtain ⟨k, hk, rfl⟩ := mem_map.1 ha
  obtain ⟨v, hv⟩ := mem_iff_exists_lookup.1 (AList.mem_keys.2 hk)
  have hentries : (k.2, v) ∈ entriesOf s.future k.1 := mem_entriesOf.2 hv
  rw [dropFuture, wp_bind, wp_get, hfront]
  dsimp only
  cases hlast : (entriesOf s.future k.1).getLast? with
  | none =>
    rw [List.getLast?_eq_none_iff] at hlast
    rw [hlast] at hentries
    cases hentries
  | some e =>
    have he := mem_entriesOf.1 (List.mem_of_getLast? hlast)
    exact hQ _ (mem_iff_exists_lookup.2 ⟨_, he⟩)

theorem wp_dropFutures {fuel : Nat} (h : Counted s) (hfuel : s.futureSize < fuel)
    (hQ : ∀ s', Shrunk s s' → s'.futureSize ≤ s'.futureLimit → Q () s') : wp (dropFutures fuel) Q E s := by
  induction fuel generalizing s with
  | zero => exact absurd hfuel (Nat.not_lt_zero _)
  | succ fuel ih =>
    rw [dropFutures, wp_bind, wp_get, wp_bind, wp_get, wp_ite]
    split
    · rename_i hlimit
      have hpos : 0 < s.futureSize := (Nat.zero_le _).trans_lt hlimit
      rw [wp_bind]
      refine wp_dropFuture h hpos fun k hk => ih (counted_erase h hk) ?_ fun s' hs' => hQ s' (shrunk_erase hlimit hs')
      dsimp only
      rw [decrement_eq hpos h.lt]
      omega
    · exact hQ s (Shrunk.refl h) (not_lt.1 ‹_›)

/-! ### The future transactions -/

theorem isCurrent_congr (h : s'.current = s.current) : IsCurrent s' u ↔ IsCurrent s u := by
  rw [IsCurrent, IsCurrent, h]

variable [QueuedTransaction T H]

structure FutureOk (s : TransactionQueue c T H) : Prop where
  slot_eq : ∀ {k t}, s.future.lookup k = some t → slot t = k
  sender : ∀ {k t}, s.future.lookup k = some t → (sender t).isSome
  apart : ∀ {k}, k ∈ s.currentByAddressAndNonce → k ∉ s.future

/-- The current and the future transactions, and their indices. -/
structure Indexed (s : TransactionQueue c T H) : Prop where
  current : CurrentOk s
  future : FutureOk s
  counted : Counted s

/-- `t` is in `m_future`. -/
def IsFuture (s : TransactionQueue c T H) (t : T) : Prop := s.future.lookup (slot t) = some t

theorem FutureOk.isFuture (h : FutureOk s) (ht : s.future.lookup k = some t) : IsFuture s t := by
  rw [IsFuture, h.slot_eq ht, ht]

theorem IsFuture.mem (h : IsFuture s t) : slot t ∈ s.future := mem_iff_exists_lookup.2 ⟨t, h⟩

theorem consecutive_sublist (l : List (Nat × T)) (n : Nat) : (consecutive l n).Sublist (l.map Prod.snd) := by
  induction l generalizing n with
  | nil => exact List.Sublist.refl _
  | cons e l ih =>
    rw [consecutive]
    split
    · rw [map_cons]
      exact (ih _).cons_cons e.2
    · exact nil_sublist _

theorem following_sublist (s : TransactionQueue c T H) (t : T) :
    (s.following t).Sublist ((entriesOf s.future (sender' t)).map Prod.snd) := by
  simp only [following]
  split
  · exact (consecutive_sublist _ _).trans (filter_sublist.map Prod.snd)
  · exact nil_sublist _

theorem following_congr (h : s'.future = s.future) : s'.following t = s.following t := by
  rw [following, following, h]

theorem lookup_of_mem_following (h : u ∈ s.following t) : ∃ n, s.future.lookup (sender' t, n) = some u := by
  obtain ⟨e, he, rfl⟩ := mem_map.1 ((following_sublist s t).subset h)
  exact ⟨e.1, mem_entriesOf.1 he⟩

theorem FutureOk.isFuture_following (hs : FutureOk s) (h : u ∈ s.following t) : IsFuture s u := by
  obtain ⟨n, hn⟩ := lookup_of_mem_following h
  exact hs.isFuture hn

theorem FutureOk.nodup_following (hs : FutureOk s) (t : T) : ((s.following t).map slot).Nodup := by
  refine ((following_sublist s t).map slot).nodup ?_
  rw [map_map, List.Nodup, pairwise_map]
  refine (pairwise_entriesOf (m := s.future) (a := sender' t)).imp_of_mem fun {x y} hx hy hxy heq => ?_
  have hx' := hs.slot_eq (mem_entriesOf.1 hx)
  have hy' := hs.slot_eq (mem_entriesOf.1 hy)
  have hxy' : (sender' t, x.1) = (sender' t, y.1) := by rw [← hx', ← hy']; exact heq
  exact absurd (congrArg Prod.snd hxy') hxy.ne

/-- Only the elements and their indices matter. -/
theorem CurrentOk.congr (h : CurrentOk s) (hcurrent : s'.current = s.current) (hnext : s'.next = s.next)
    (hhash : s'.currentByHash = s.currentByHash) (hslots : s'.currentByAddressAndNonce = s.currentByAddressAndNonce) :
    CurrentOk s' := by
  obtain ⟨h1, h2, h3, h4, h5⟩ := h
  refine ⟨?_, ?_, ?_, ?_, ?_⟩
  · rwa [hcurrent]
  · rwa [hcurrent, hnext]
  · rwa [hcurrent]
  · rwa [hcurrent, hhash]
  · rwa [hcurrent, hslots]

/-- The sets of hashes are no indices. -/
theorem Indexed.sets (h : Indexed s) (known dropped : Finset H) : Indexed { s with known, dropped } :=
  ⟨h.current.congr rfl rfl rfl rfl, ⟨h.future.slot_eq, h.future.sender, h.future.apart⟩, ⟨h.counted.eq, h.counted.lt⟩⟩

theorem Shrunk.currentOk (h : Shrunk s s') (hs : CurrentOk s) : CurrentOk s' :=
  hs.congr h.current h.next h.currentByHash h.slots

theorem Shrunk.futureOk (h : Shrunk s s') (hs : FutureOk s) : FutureOk s' := by
  refine ⟨fun ht => hs.slot_eq (h.sub ht), fun ht => hs.sender (h.sub ht), fun {k} hk hmem => ?_⟩
  obtain ⟨t, ht⟩ := mem_iff_exists_lookup.1 hmem
  rw [h.slots] at hk
  exact hs.apart hk (mem_iff_exists_lookup.2 ⟨t, h.sub ht⟩)

/-! ### Becoming current -/

/-- What can become current. -/
structure Promotable (ts : List T) (s : TransactionQueue c T H) : Prop where
  sender : ∀ t ∈ ts, (sender t).isSome
  nodup : (ts.map slot).Nodup
  free : ∀ t ∈ ts, slot t ∉ s.currentByAddressAndNonce

theorem Indexed.promotable (hs : Indexed s) (t : T) : Promotable (s.following t) s := by
  refine ⟨fun u hu => hs.future.sender (hs.future.isFuture_following hu), hs.future.nodup_following t, fun u hu hmem => ?_⟩
  exact hs.future.apart hmem (hs.future.isFuture_following hu).mem

theorem Indexed.length_following (hs : Indexed s) (t : T) :
    (eraseSlots s.future ((s.following t).map slot)).keys.length + (s.following t).length = s.futureSize := by
  have hmem : ∀ k ∈ (s.following t).map slot, k ∈ s.future := by
    intro k hk
    obtain ⟨u, hu, rfl⟩ := mem_map.1 hk
    exact (hs.future.isFuture_following hu).mem
  have hlen := length_keys_eraseSlots (hs.future.nodup_following t) hmem
  rwa [length_map, ← hs.counted.eq] at hlen

/-! ### Replacing -/

/-- There is a transaction in the same place, with a higher gas price. -/
def Overbid (s : TransactionQueue c T H) (t : T) : Prop :=
  ∃ old, (IsCurrent s old ∨ IsFuture s old) ∧ slot old = slot t ∧ gasPrice t < gasPrice old

theorem wp_replaceFuture {Q : Bool → TransactionQueue c T H → Prop}
    (hs : Indexed s) (hfalse : Overbid s t → Q false s) (hfree : slot t ∉ s.future → Q true s)
    (htrue : ∀ old, s.future.lookup (slot t) = some old → ¬ gasPrice t < gasPrice old →
      Q true { s with future := s.future.erase (slot t), futureSize := decrement s.futureSize }) :
    wp (replaceFuture t) Q E s := by
  rw [replaceFuture, wp_bind, wp_get]
  cases hlookup : s.future.lookup (slot t) with
  | none => exact hfree (AList.lookup_eq_none.1 hlookup)
  | some old =>
    dsimp only
    rw [wp_ite]
    split
    · exact hfalse ⟨old, .inr (hs.future.isFuture hlookup), hs.future.slot_eq hlookup, ‹_›⟩
    · exact htrue old hlookup ‹_›

theorem Indexed.eraseFuture (hs : Indexed s) (hk : k ∈ s.future) :
    Indexed { s with future := s.future.erase k, futureSize := decrement s.futureSize } := by
  have hsub : ∀ {k' : Address × Nat} {u : T}, (s.future.erase k).lookup k' = some u → s.future.lookup k' = some u := by
    intro k' u hu
    by_cases heq : k' = k
    · rw [heq, AList.lookup_erase] at hu
      cases hu
    · rwa [AList.lookup_erase_ne heq] at hu
  refine ⟨hs.current.congr rfl rfl rfl rfl, ⟨fun hu => hs.future.slot_eq (hsub hu), fun hu => hs.future.sender (hsub hu),
    fun hk' hmem => hs.future.apart hk' (AList.mem_erase.1 hmem).2⟩, counted_erase hs.counted hk⟩

variable [DecidableEq H]

/-- Future transactions become current, one by one. -/
inductive Promoted : List T → TransactionQueue c T H → TransactionQueue c T H → Prop
  | nil (s : TransactionQueue c T H) : Promoted [] s s
  | cons {t : T} {ts : List T} {s s₁ s' : TransactionQueue c T H} : Added t s s₁ →
      Promoted ts { s₁ with futureSize := decrement s₁.futureSize } s' → Promoted (t :: ts) s s'

variable {ts : List T}

theorem Added.mem_slots_iff (h : Added t s s') :
    k ∈ s'.currentByAddressAndNonce ↔ k = slot t ∨ k ∈ s.currentByAddressAndNonce := by
  obtain ⟨shape, hstate⟩ := h.state
  have hslots : s'.currentByAddressAndNonce = s.currentByAddressAndNonce.insert (slot t) (some s.next) := by rw [hstate]
  rw [hslots, AList.mem_insert]

theorem Promotable.tail (h : Promotable (t :: ts) s) (hadd : Added t s s₁) :
    Promotable ts { s₁ with futureSize := decrement s₁.futureSize } := by
  have hnodup := h.nodup
  rw [map_cons, nodup_cons] at hnodup
  refine ⟨fun u hu => h.sender u (mem_cons_of_mem _ hu), hnodup.2, fun u hu hmem => ?_⟩
  rcases hadd.mem_slots_iff.1 hmem with heq | hmem
  · exact hnodup.1 (mem_map.2 ⟨u, hu, heq⟩)
  · exact h.free u (mem_cons_of_mem _ hu) hmem

theorem Added.currentOk_promote (h : Added t s s₁) (hs : CurrentOk s) (hts : Promotable (t :: ts) s) :
    CurrentOk { s₁ with futureSize := decrement s₁.futureSize } :=
  (h.currentOk hs (hts.sender t mem_cons_self) (hts.free t mem_cons_self)).congr rfl rfl rfl rfl

theorem wp_promotes (hs : CurrentOk s)
    (hts : Promotable ts s) (hQ : ∀ s', Promoted ts s s' → Q () s') : wp (ts.forM promote) Q E s := by
  induction ts generalizing s with
  | nil => exact hQ s (.nil s)
  | cons t ts ih =>
    rw [forM_eq_forM, forM_cons, wp_bind, promote, wp_bind]
    refine wp_addCurrent hs (hts.sender t mem_cons_self) (hts.free t mem_cons_self) fun s₁ hadd => ?_
    rw [wp_modify]
    exact ih (hadd.currentOk_promote hs hts) (hts.tail hadd) fun s' hs' => hQ s' (.cons hadd hs')

namespace Promoted

section

variable (h : Promoted ts s s')
include h

theorem currentOk (hs : CurrentOk s) (hts : Promotable ts s) : CurrentOk s' := by
  induction h with
  | nil => exact hs
  | cons hadd _ ih => exact ih (hadd.currentOk_promote hs hts) (hts.tail hadd)

theorem isCurrent_iff : IsCurrent s' u ↔ u ∈ ts ∨ IsCurrent s u := by
  induction h with
  | nil => simp
  | @cons t ts s s₁ s' hadd _ ih =>
    have hcurrent : IsCurrent { s₁ with futureSize := decrement s₁.futureSize } u ↔ IsCurrent s₁ u := isCurrent_congr rfl
    rw [ih, hcurrent, hadd.isCurrent_iff, mem_cons, or_assoc, or_left_comm]

theorem mem_slots_iff : k ∈ s'.currentByAddressAndNonce ↔ k ∈ ts.map slot ∨ k ∈ s.currentByAddressAndNonce := by
  induction h with
  | nil => simp
  | cons hadd _ ih =>
    rw [ih, hadd.mem_slots_iff, map_cons, mem_cons]
    tauto

theorem future : s'.future = s.future := by
  induction h with
  | nil => rfl
  | cons hadd _ ih =>
    obtain ⟨shape, hstate⟩ := hadd.state
    rw [ih, hstate]

theorem known : s'.known = s.known := by
  induction h with
  | nil => rfl
  | cons hadd _ ih =>
    obtain ⟨shape, hstate⟩ := hadd.state
    rw [ih, hstate]

theorem futureLimit : s'.futureLimit = s.futureLimit := by
  induction h with
  | nil => rfl
  | cons hadd _ ih =>
    obtain ⟨shape, hstate⟩ := hadd.state
    rw [ih, hstate]

theorem futureSize (hle : ts.length ≤ s.futureSize) (hlt : s.futureSize < 2 ^ 32) :
    s'.futureSize = s.futureSize - ts.length := by
  induction h with
  | nil => rfl
  | @cons t ts s s₁ s' hadd _ ih =>
    obtain ⟨shape, hstate⟩ := hadd.state
    have hsize : s₁.futureSize = s.futureSize := by rw [hstate]
    rw [length_cons] at hle ⊢
    have hdecrement := decrement_eq (n := s.futureSize) (by omega) hlt
    rw [hsize, hdecrement] at ih
    dsimp only at ih
    rw [ih (by omega) (by omega)]
    omega

end

end Promoted

/-- `makeCurrent_WITH_LOCK` -/
def MadeCurrent (t : T) (s s' : TransactionQueue c T H) : Prop :=
  ∃ s₁, Promoted (s.following t) s s₁ ∧ Shrunk { s₁ with future := eraseSlots s₁.future ((s.following t).map slot) } s'

theorem wp_makeCurrent (hs : Indexed s)
    (hQ : ∀ s', MadeCurrent t s s' → s'.futureSize ≤ s'.futureLimit → Q () s') : wp (makeCurrent t) Q E s := by
  rw [makeCurrent, wp_bind, wp_get, wp_bind]
  refine wp_promotes hs.current (hs.promotable t) fun s₁ hs₁ => ?_
  have hlen := hs.length_following t
  have hsize := hs₁.futureSize (by omega) hs.counted.lt
  have hlt := hs.counted.lt
  rw [wp_bind, wp_modify, wp_bind, wp_get]
  refine wp_dropFutures ⟨?_, ?_⟩ (Nat.lt_succ_self _) fun s' hs' hsize => hQ s' ⟨s₁, hs₁, hs'⟩ hsize
  · dsimp only
    rw [hs₁.future, hsize]
    omega
  · dsimp only
    rw [hsize]
    omega

namespace MadeCurrent

theorem indexed (h : MadeCurrent t s s') (hs : Indexed s) : Indexed s' := by
  obtain ⟨s₁, hs₁, hshrunk⟩ := h
  have hcurrent : CurrentOk s₁ := hs₁.currentOk hs.current (hs.promotable t)
  refine ⟨hshrunk.currentOk (hcurrent.congr rfl rfl rfl rfl), hshrunk.futureOk ⟨?_, ?_, ?_⟩, hshrunk.counted⟩
  · intro k u hu
    dsimp only at hu
    rw [lookup_eraseSlots, hs₁.future] at hu
    split at hu
    · cases hu
    · exact hs.future.slot_eq hu
  · intro k u hu
    dsimp only at hu
    rw [lookup_eraseSlots, hs₁.future] at hu
    split at hu
    · cases hu
    · exact hs.future.sender hu
  · intro k hk hmem
    obtain ⟨u, hu⟩ := mem_iff_exists_lookup.1 hmem
    dsimp only at hu
    rw [lookup_eraseSlots, hs₁.future] at hu
    split at hu
    · cases hu
    · rename_i hnot
      rcases hs₁.mem_slots_iff.1 hk with hk | hk
      · exact hnot hk
      · exact hs.future.apart hk (mem_iff_exists_lookup.2 ⟨u, hu⟩)

theorem isCurrent_iff (h : MadeCurrent t s s') : IsCurrent s' u ↔ u ∈ s.following t ∨ IsCurrent s u := by
  obtain ⟨s₁, hs₁, hshrunk⟩ := h
  rw [IsCurrent, hshrunk.current]
  exact hs₁.isCurrent_iff

theorem known (h : MadeCurrent t s s') : s'.known = s.known := by
  obtain ⟨s₁, hs₁, hshrunk⟩ := h
  rw [hshrunk.known]
  exact hs₁.known

/-- Where none is dropped, the others stay. -/
theorem isFuture_iff (h : MadeCurrent t s s') (hs : Indexed s)
    (hroom : s.futureSize ≤ s.futureLimit + (s.following t).length) : IsFuture s' u ↔ IsFuture s u ∧ u ∉ s.following t := by
  obtain ⟨s₁, hs₁, hshrunk⟩ := h
  have hlen := hs.length_following t
  have hsize := hs₁.futureSize (by omega) hs.counted.lt
  rw [hshrunk.stays (by dsimp only; rw [hsize, hs₁.futureLimit]; omega), IsFuture, lookup_eraseSlots, hs₁.future]
  constructor
  · intro hu
    split at hu
    · cases hu
    · rename_i hnot
      exact ⟨hu, fun hmem => hnot (mem_map.2 ⟨u, hmem, rfl⟩)⟩
  · rintro ⟨hu, hnot⟩
    rw [if_neg, IsFuture.eq_1 s u |>.mp hu]
    intro hmem
    obtain ⟨v, hv, heq⟩ := mem_map.1 hmem
    have hv' := hs.future.isFuture_following hv
    rw [IsFuture, heq, hu] at hv'
    exact hnot (Option.some.inj hv' ▸ hv)

end MadeCurrent

/-! ### Importing -/

section

variable (h : Removed n t s s')
include h

theorem Removed.slots : s'.currentByAddressAndNonce = s.currentByAddressAndNonce.erase (slot t) := by
  obtain ⟨-, shape, hstate⟩ := h
  rw [hstate]

theorem Removed.future : s'.future = s.future := by
  obtain ⟨-, shape, hstate⟩ := h
  rw [hstate]

theorem Removed.futureSize : s'.futureSize = s.futureSize := by
  obtain ⟨-, shape, hstate⟩ := h
  rw [hstate]

/-- The limits of a queue. -/
theorem Removed.limits : s'.limit = s.limit ∧ s'.futureLimit = s.futureLimit := by
  obtain ⟨-, shape, hstate⟩ := h
  rw [hstate]
  exact ⟨rfl, rfl⟩

theorem Removed.indexed (hs : Indexed s) : Indexed s' := by
  refine ⟨h.currentOk hs.current, ⟨?_, ?_, ?_⟩, ⟨?_, ?_⟩⟩
  · rw [h.future]
    exact hs.future.slot_eq
  · rw [h.future]
    exact hs.future.sender
  · intro k hk
    rw [h.slots, AList.mem_erase] at hk
    rw [h.future]
    exact hs.future.apart hk.2
  · rw [h.future, h.futureSize]
    exact hs.counted.eq
  · rw [h.futureSize]
    exact hs.counted.lt

theorem Removed.length (hs : CurrentOk s) : s'.current.length + 1 = s.current.length := by
  obtain ⟨ht, shape, hstate⟩ := h
  have hcurrent : s'.current = s.current.eraseP fun e => some e.1 = some n := by rw [hstate, eraseP_eq_filter hs.nodes]
  have hlen := length_eraseP_of_mem (p := fun e => decide (some e.1 = some n)) ht (by simp)
  have hpos := length_pos_of_mem ht
  rw [hcurrent, hlen]
  omega

end

theorem Added.future (h : Added t s s') : s'.future = s.future := by
  obtain ⟨shape, hstate⟩ := h.state
  rw [hstate]

theorem Added.futureSize (h : Added t s s') : s'.futureSize = s.futureSize := by
  obtain ⟨shape, hstate⟩ := h.state
  rw [hstate]

theorem Added.indexed (h : Added t s s') (hs : Indexed s) (hsender : (sender t).isSome)
    (hslot : slot t ∉ s.currentByAddressAndNonce) (hfuture : slot t ∉ s.future) : Indexed s' := by
  refine ⟨h.currentOk hs.current hsender hslot, ⟨?_, ?_, ?_⟩, ⟨?_, ?_⟩⟩
  · rw [h.future]
    exact hs.future.slot_eq
  · rw [h.future]
    exact hs.future.sender
  · intro k hk
    rw [h.future]
    rcases h.mem_slots_iff.1 hk with rfl | hk
    · exact hfuture
    · exact hs.future.apart hk
  · rw [h.future, h.futureSize]
    exact hs.counted.eq
  · rw [h.futureSize]
    exact hs.counted.lt

/-- `insertCurrent_WITH_LOCK`, of a transaction that is not current -/
def Inserted (t : T) (s s' : TransactionQueue c T H) : Prop :=
  ∃ s₁ s₂, Added t s s₁ ∧ MadeCurrent t s₁ s₂ ∧ s' = { s₂ with known := insert (digest t) s₂.known }

theorem wp_insertCurrent
    (hs : Indexed s) (hsender : (sender t).isSome) (hslot : slot t ∉ s.currentByAddressAndNonce) (hfuture : slot t ∉ s.future)
    (hQ : ∀ s', Inserted t s s' → s'.futureSize ≤ s'.futureLimit → Q () s') : wp (insertCurrent (digest t) t) Q E s := by
  have hnone : s.currentByHash (digest t) = none :=
    hs.current.currentByHash_eq_none_iff.2 fun ht => hslot (hs.current.mem_slots.2 ⟨t, ht, rfl⟩)
  rw [insertCurrent, wp_bind, wp_get, hnone, wp_ite, if_neg (by simp), wp_bind]
  refine wp_addCurrent hs.current hsender hslot fun s₁ hadd => ?_
  rw [wp_bind]
  refine wp_makeCurrent (hadd.indexed hs hsender hslot hfuture) fun s₂ hmade hsize => ?_
  exact hQ _ ⟨s₁, s₂, hadd, hmade, rfl⟩ hsize

/-- The last ones are removed. -/
inductive Trimmed : TransactionQueue c T H → TransactionQueue c T H → Prop
  | done (s : TransactionQueue c T H) : Trimmed s s
  | last {n : Nat} {t : T} {s s₁ s' : TransactionQueue c T H} : s.current.getLast? = some (n, t) → Removed n t s s₁ →
      Trimmed s₁ s' → Trimmed s s'

theorem wp_removeLast {fuel : Nat} (hs : CurrentOk s) (hfuel : s.current.length < fuel)
    (hQ : ∀ s', Trimmed s s' → s'.current.length = min s.current.length s.limit → Q () s') : wp (removeLast fuel) Q E s := by
  induction fuel generalizing s with
  | zero => exact absurd hfuel (Nat.not_lt_zero _)
  | succ fuel ih =>
    rw [removeLast, wp_bind, wp_get, wp_bind, wp_get, wp_ite]
    split
    · rename_i hlimit
      rw [wp_bind, wp_get]
      cases hlast : s.current.getLast? with
      | none =>
        rw [List.getLast?_eq_none_iff] at hlast
        rw [hlast] at hlimit
        exact absurd hlimit (Nat.not_lt_zero _)
      | some e =>
        have he := List.mem_of_getLast? hlast
        dsimp only
        rw [wp_bind, wp_discard]
        refine wp_remove hs (digest e.2) (fun hnone => ?_) fun n t s₁ heq hremoved => ?_
        · exact absurd ⟨e.1, he⟩ (hs.currentByHash_eq_none_iff.1 hnone)
        · have hlen := hremoved.length hs
          have hlast : s.current.getLast? = some (n, t) := by
            have ht := QueuedTransaction.digest_injective heq
            rw [hlast, ht, (hs.eq_of_slot hremoved.1 he (congrArg slot ht)).1]
          refine ih (hremoved.currentOk hs) (by omega) fun s' hs' hlen' => hQ s' (.last hlast hremoved hs') ?_
          rw [hremoved.limits.1] at hlen'
          omega
    · exact hQ s (.done s) (min_eq_left (not_lt.1 ‹_›)).symm

theorem Trimmed.limits (h : Trimmed s s') : s'.limit = s.limit ∧ s'.futureLimit = s.futureLimit := by
  induction h with
  | done => exact ⟨rfl, rfl⟩
  | last _ hremoved _ ih => exact ⟨ih.1.trans hremoved.limits.1, ih.2.trans hremoved.limits.2⟩

theorem Trimmed.futureSize (h : Trimmed s s') : s'.futureSize = s.futureSize := by
  induction h with
  | done => rfl
  | last _ hremoved _ ih => exact ih.trans hremoved.futureSize

theorem Trimmed.indexed (h : Trimmed s s') (hs : Indexed s) : Indexed s' := by
  induction h with
  | done => exact hs
  | last _ hremoved _ ih => exact ih (hremoved.indexed hs)

/-- What a new transaction replaces. -/
structure Replaced (t : T) (s s' : TransactionQueue c T H) : Prop where
  current : slot t ∉ s'.currentByAddressAndNonce
  future : slot t ∉ s'.future
  moves : ∃ s₁, (s₁ = s ∨ ∃ n old, slot old = slot t ∧ Removed n old s s₁) ∧
    (s' = s₁ ∨ slot t ∈ s.future ∧ s' = { s₁ with future := s₁.future.erase (slot t), futureSize := decrement s₁.futureSize })

theorem wp_replaceCurrent {Q : Bool → TransactionQueue c T H → Prop}
    (hs : Indexed s) (hfalse : Overbid s t → Q false s) (hfree : slot t ∉ s.currentByAddressAndNonce → Q true s)
    (htrue : ∀ n old s', slot old = slot t → Removed n old s s' → ¬ gasPrice t < gasPrice old → Q true s') :
    wp (replaceCurrent t) Q E s := by
  rw [replaceCurrent, wp_bind, wp_get]
  cases hlookup : s.currentByAddressAndNonce.lookup (slot t) with
  | none => exact hfree (AList.lookup_eq_none.1 hlookup)
  | some handle =>
    obtain ⟨n, old, rfl, hold, hslot⟩ := (hs.current.bySlot _ _).1 hlookup
    dsimp only
    rw [wp_bind]
    refine wp_deref hs.current.nodes rfl hold ?_
    rw [wp_ite]
    split
    · exact hfalse ⟨old, .inl ⟨n, hold⟩, hslot, ‹_›⟩
    · rw [wp_bind, wp_discard]
      refine wp_remove hs.current (digest old) (fun hnone => ?_) fun n' t' s₁ heq hremoved => ?_
      · exact absurd ⟨n, hold⟩ (hs.current.currentByHash_eq_none_iff.1 hnone)
      · rw [QueuedTransaction.digest_injective heq] at hremoved
        exact htrue n' old s₁ hslot hremoved ‹_›

namespace Replaced

theorem indexed (h : Replaced t s s') (hs : Indexed s) : Indexed s' := by
  obtain ⟨s₁, hs₁, hs'⟩ := h.moves
  have hindexed : Indexed s₁ := by
    rcases hs₁ with rfl | ⟨n, old, -, hremoved⟩
    · exact hs
    · exact hremoved.indexed hs
  have hfuture : s₁.future = s.future := by
    rcases hs₁ with rfl | ⟨n, old, -, hremoved⟩
    · rfl
    · exact hremoved.future
  rcases hs' with rfl | ⟨hmem, rfl⟩
  · exact hindexed
  · exact hindexed.eraseFuture (hfuture ▸ hmem)

end Replaced

/-- A new transaction is current, which others make room for. -/
def Entered (t : T) (s s' : TransactionQueue c T H) : Prop :=
  ∃ s₁ s₂, Replaced t s s₁ ∧ Inserted t s₁ s₂ ∧ Trimmed s₂ s'

/-- With what the loops leave. -/
def EnteredWithin (t : T) (s s' : TransactionQueue c T H) : Prop :=
  ∃ s₁ s₂, Replaced t s s₁ ∧ Inserted t s₁ s₂ ∧ Trimmed s₂ s' ∧ s'.current.length = min s₂.current.length s₂.limit ∧
    s'.futureSize ≤ s'.futureLimit

theorem EnteredWithin.entered (h : EnteredWithin t s s') : Entered t s s' := by
  obtain ⟨s₁, s₂, hreplaced, hinserted, htrimmed, -⟩ := h
  exact ⟨s₁, s₂, hreplaced, hinserted, htrimmed⟩

theorem Inserted.indexed (h : Inserted t s s') (hs : Indexed s) (hsender : (sender t).isSome)
    (hslot : slot t ∉ s.currentByAddressAndNonce) (hfuture : slot t ∉ s.future) : Indexed s' := by
  obtain ⟨s₁, s₂, hadd, hmade, rfl⟩ := h
  exact (hmade.indexed (hadd.indexed hs hsender hslot hfuture)).sets _ _

theorem Entered.indexed (h : Entered t s s') (hs : Indexed s) (hsender : (sender t).isSome) : Indexed s' := by
  obtain ⟨s₁, s₂, hreplaced, hinserted, htrimmed⟩ := h
  exact htrimmed.indexed (hinserted.indexed (hreplaced.indexed hs) hsender hreplaced.current hreplaced.future)

theorem wp_enter {Q : ImportResult → TransactionQueue c T H → Prop}
    (hs : Indexed s) (hsender : (sender t).isSome) (hreplaced : Replaced t s s₁)
    (hQ : ∀ s', EnteredWithin t s s' → Q .success s') : wp (enter t) Q E s₁ := by
  have hs₁ := hreplaced.indexed hs
  rw [enter, wp_bind]
  refine wp_insertCurrent hs₁ hsender hreplaced.current hreplaced.future fun s₂ hinserted hsize => ?_
  have hs₂ := hinserted.indexed hs₁ hsender hreplaced.current hreplaced.future
  rw [wp_bind, wp_get, wp_bind]
  refine wp_removeLast hs₂.current (Nat.lt_succ_self _) fun s' htrimmed hlength => ?_
  refine hQ s' ⟨s₁, s₂, hreplaced, hinserted, htrimmed, hlength, ?_⟩
  rw [htrimmed.futureSize, htrimmed.limits.2]
  exact hsize

/-- A transaction that is worse than another one changes nothing. -/
theorem wp_replaceAndEnter {Q : ImportResult → TransactionQueue c T H → Prop}
    (hs : Indexed s) (hsender : ¬ Overbid s t → (sender t).isSome) (hoverbid : Overbid s t → Q .overbidGasPrice s)
    (hQ : ¬ Overbid s t → ∀ s', EnteredWithin t s s' → Q .success s') : wp (replaceAndEnter t) Q E s := by
  -- No other transaction in the same place than the one that is found.
  have hnot : ∀ {old : T}, (IsCurrent s old ∨ IsFuture s old) → slot old = slot t → ¬ gasPrice t < gasPrice old →
      ¬ Overbid s t := by
    rintro old hold hslot hprice ⟨old', hold', hslot', hprice'⟩
    have heq : old' = old := by
      rcases hold with ⟨n, hold⟩ | hold <;> rcases hold' with ⟨n', hold'⟩ | hold'
      · exact (hs.current.eq_of_slot hold' hold (hslot'.trans hslot.symm)).2
      · exact absurd hold'.mem (hs.future.apart (hs.current.mem_slots.2 ⟨old, ⟨n, hold⟩, hslot.trans hslot'.symm⟩))
      · exact absurd hold.mem (hs.future.apart (hs.current.mem_slots.2 ⟨old', ⟨n', hold'⟩, hslot'.trans hslot.symm⟩))
      · rw [IsFuture, hslot'] at hold'
        rw [IsFuture, hslot, hold'] at hold
        exact Option.some.inj hold
    exact hprice (heq ▸ hprice')
  rw [replaceAndEnter, wp_bind]
  refine wp_replaceCurrent hs hoverbid (fun hfree => ?_) fun n old s₁ hslot hremoved hprice => ?_
  · rw [wp_ite, if_neg (by simp), wp_bind]
    refine wp_replaceFuture hs hoverbid (fun hfree' => ?_) fun old hlookup hprice => ?_
    · refine wp_enter hs (hsender ?_) ⟨hfree, hfree', s, .inl rfl, .inl rfl⟩ (hQ ?_) <;>
      · rintro ⟨old, ⟨n, hold⟩ | hold, hslot, -⟩
        · exact hfree (hs.current.mem_slots.2 ⟨old, ⟨n, hold⟩, hslot⟩)
        · exact hfree' (hslot ▸ hold.mem)
    · have hnot' := hnot (.inr (hs.future.isFuture hlookup)) (hs.future.slot_eq hlookup) hprice
      refine wp_enter hs (hsender hnot') ⟨hfree, ?_, s, .inl rfl,
        .inr ⟨mem_iff_exists_lookup.2 ⟨old, hlookup⟩, rfl⟩⟩ (hQ hnot')
      exact fun hmem => (AList.mem_erase.1 hmem).1 rfl
  · have hnot' := hnot (.inl ⟨n, hremoved.1⟩) hslot hprice
    have hmem : slot t ∈ s.currentByAddressAndNonce := hs.current.mem_slots.2 ⟨old, ⟨n, hremoved.1⟩, hslot⟩
    have hfree : slot t ∉ s₁.currentByAddressAndNonce := by
      rw [hremoved.slots, hslot]
      exact fun hmem' => (AList.mem_erase.1 hmem').1 rfl
    have hfree' : slot t ∉ s₁.future := by
      rw [hremoved.future]
      exact hs.future.apart hmem
    rw [wp_ite, if_neg (by simp), wp_bind]
    refine wp_replaceFuture (hremoved.indexed hs) ?_ (fun _ => ?_) fun old' hlookup _ => ?_
    · rintro ⟨old', ⟨n', hold'⟩ | hold', hslot', -⟩
      · exact absurd ((hremoved.indexed hs).current.mem_slots.2 ⟨old', ⟨n', hold'⟩, hslot'⟩) hfree
      · exact absurd (hslot' ▸ hold'.mem) hfree'
    · exact wp_enter hs (hsender hnot') ⟨hfree, hfree', s₁, .inr ⟨n, old, hslot, hremoved⟩, .inl rfl⟩ (hQ hnot')
    · exact absurd (mem_iff_exists_lookup.2 ⟨old', hlookup⟩) hfree'

end Kmdx.TransactionQueue
