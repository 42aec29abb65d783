import Kmdx.Lib.Runs
import Kmdx.TransactionMoves

/-!
# Runs of the transaction queue

Under any calls the indices stay right (`Indexed`), if the senders can be recovered. What the queue knows is what it
holds (`Balanced`) only as long as no future transaction is replaced or dropped, which leaves its hash behind.
-/

namespace Kmdx.TransactionQueue

open Wp QueuedTransaction Function List

variable {c : Containers} {T H : Type} [QueuedTransaction T H]
variable {s s' s₁ : TransactionQueue c T H} {t u : T} {n : Nat}

/-! ### Becoming future -/

variable {es : List (Nat × T)}

theorem lookup_foldl_insertNew {m : ByAddressAndNonce T} (hnodup : (es.map fun e => slot e.2).Nodup)
    (hnot : ∀ e ∈ es, slot e.2 ∉ m) {k : Address × Nat} :
    (es.foldl (fun m e => insertNew m (slot e.2) e.2) m).lookup k = some u ↔
      m.lookup k = some u ∨ ∃ e ∈ es, slot e.2 = k ∧ e.2 = u := by
  induction es generalizing m with
  | nil => simp
  | cons e es ih =>
    rw [map_cons, nodup_cons] at hnodup
    have he := hnot e mem_cons_self
    rw [foldl_cons, lookup_insertNew_of_notMem he, ih hnodup.2]
    · by_cases heq : k = slot e.2
      · have hnone := AList.lookup_eq_none.2 he
        have hes : ¬ ∃ e' ∈ es, slot e'.2 = slot e.2 ∧ e'.2 = u := by
          rintro ⟨e', he', heq', -⟩
          exact hnodup.1 (mem_map.2 ⟨e', he', heq'⟩)
        subst heq
        simp [hnone, hes]
      · rw [AList.lookup_insert_ne heq]
        simp [Ne.symm heq]
    · intro e' he' hmem
      rcases (AList.mem_insert _).1 hmem with heq | hmem
      · exact hnodup.1 (mem_map.2 ⟨e', he', heq⟩)
      · exact hnot e' (mem_cons_of_mem _ he') hmem

theorem length_foldl_insertNew {m : ByAddressAndNonce T} (hnodup : (es.map fun e => slot e.2).Nodup)
    (hnot : ∀ e ∈ es, slot e.2 ∉ m) :
    (es.foldl (fun m e => insertNew m (slot e.2) e.2) m).keys.length = m.keys.length + es.length := by
  induction es generalizing m with
  | nil => rfl
  | cons e es ih =>
    rw [map_cons, nodup_cons] at hnodup
    have he := hnot e mem_cons_self
    rw [foldl_cons, lookup_insertNew_of_notMem he, ih hnodup.2, length_keys_insert he, length_cons]
    · omega
    · intro e' he' hmem
      rcases (AList.mem_insert _).1 hmem with heq | hmem
      · exact hnodup.1 (mem_map.2 ⟨e', he', heq⟩)
      · exact hnot e' (mem_cons_of_mem _ he') hmem

/-- What `m_currentByAddressAndNonce` says about an element. -/
def entry (e : Nat × T) : Nat × Option Nat := (nonce e.2, some e.1)

/-- The transactions of the sender of `t` from `t` on. -/
def From (t u : T) : Prop := sender' u = sender' t ∧ nonce t ≤ nonce u

instance (t u : T) : Decidable (From t u) := instDecidableAnd

/-- The entries of the transactions that become future. -/
def demotable (s : TransactionQueue c T H) (t : T) : List (Nat × Option Nat) :=
  (entriesOf s.currentByAddressAndNonce (sender' t)).filter (nonce t ≤ ·.1)

theorem exists_demotable (hs : CurrentOk s) (t : T) : ∃ es : List (Nat × T), s.demotable t = es.map entry ∧
    (es.map fun e => slot e.2).Nodup ∧ ∀ e, e ∈ es ↔ e ∈ s.current ∧ From t e.2 := by
  have hentry : ∀ x : Nat × Option Nat, x ∈ s.demotable t ↔ ∃ e ∈ s.current, From t e.2 ∧ entry e = x := by
    rintro ⟨n, i⟩
    rw [demotable, mem_filter, mem_entriesOf, hs.bySlot, decide_eq_true_eq]
    constructor
    · rintro ⟨⟨j, u, rfl, hu, heq⟩, hle⟩
      have hsender : sender' u = sender' t := congrArg Prod.fst heq
      have hnonce : nonce u = n := congrArg Prod.snd heq
      rw [← hnonce] at hle
      exact ⟨(j, u), hu, ⟨hsender, hle⟩, by rw [entry, hnonce]⟩
    · rintro ⟨e, he, hfrom, heq⟩
      cases heq
      exact ⟨⟨e.1, e.2, rfl, he, Prod.ext hfrom.1 rfl⟩, hfrom.2⟩
  have hlist : ∀ l : List (Nat × Option Nat), (∀ x ∈ l, ∃ e ∈ s.current, From t e.2 ∧ entry e = x) →
      ∃ es : List (Nat × T), l = es.map entry ∧ ∀ e ∈ es, e ∈ s.current ∧ From t e.2 := by
    intro l hl
    induction l with
    | nil => exact ⟨[], rfl, nofun⟩
    | cons x l ih =>
      obtain ⟨e, he, hfrom, rfl⟩ := hl x mem_cons_self
      obtain ⟨es, rfl, hes⟩ := ih fun x hx => hl x (mem_cons_of_mem _ hx)
      exact ⟨e :: es, rfl, forall_mem_cons.2 ⟨⟨he, hfrom⟩, hes⟩⟩
  obtain ⟨es, heq, hes⟩ := hlist (s.demotable t) fun x hx => (hentry x).1 hx
  refine ⟨es, heq, ?_, fun e => ⟨hes e, fun ⟨he, hfrom⟩ => ?_⟩⟩
  · have hsorted : (es.map entry).Pairwise fun x y => x.1 < y.1 := by
      rw [← heq]
      exact pairwise_entriesOf.sublist filter_sublist
    rw [List.Nodup, pairwise_map]
    rw [pairwise_map] at hsorted
    exact hsorted.imp fun hxy heq => hxy.ne (congrArg Prod.snd heq)
  have hmem := (hentry (entry e)).2 ⟨e, he, hfrom, rfl⟩
  rw [heq] at hmem
  obtain ⟨e', he', heq'⟩ := mem_map.1 hmem
  have hfst : e'.1 = e.1 := Option.some.inj (congrArg Prod.snd heq')
  rwa [inj_on_of_nodup_map hs.nodes (hes e' he').1 he hfst] at he'

/-- They are future, and not current. -/
structure Demoted (t : T) (s s' : TransactionQueue c T H) : Prop where
  current : s'.current = s.current.filter fun e => ¬ From t e.2
  state : ∃ shape slots hashes future size, s' = { s with
    current := s'.current, shape, currentByAddressAndNonce := slots, currentByHash := hashes, future, futureSize := size }
  bySlot : ∀ {k : Address × Nat}, s'.currentByAddressAndNonce.lookup k =
    if k.1 = sender' t ∧ nonce t ≤ k.2 then none else s.currentByAddressAndNonce.lookup k
  byHash : ∀ {h : H} {i : Nat}, s'.currentByHash h = some i ↔ s.currentByHash h = some i ∧
    ∀ e ∈ s.current, From t e.2 → digest e.2 ≠ h
  future : ∀ {k : Address × Nat} {u : T}, s'.future.lookup k = some u ↔
    s.future.lookup k = some u ∨ IsCurrent s u ∧ From t u ∧ slot u = k
  counted : Counted s'

namespace Demoted

section

variable (h : Demoted t s s')
include h

theorem mem_iff {e : Nat × T} : e ∈ s'.current ↔ e ∈ s.current ∧ ¬ From t e.2 := by
  rw [h.current, mem_filter, decide_eq_true_eq]

theorem isCurrent_iff : IsCurrent s' u ↔ IsCurrent s u ∧ ¬ From t u := by
  simp only [IsCurrent, h.mem_iff, exists_and_right]

theorem isFuture_iff : IsFuture s' u ↔ IsFuture s u ∨ IsCurrent s u ∧ From t u := by
  rw [IsFuture, h.future]
  simp [IsFuture]

theorem known : s'.known = s.known := by
  obtain ⟨shape, slots, hashes, future, size, hstate⟩ := h.state
  rw [hstate]

theorem next : s'.next = s.next := by
  obtain ⟨shape, slots, hashes, future, size, hstate⟩ := h.state
  rw [hstate]

theorem currentOk (hs : CurrentOk s) : CurrentOk s' := by
  refine ⟨?_, fun e he => ?_, fun e he => hs.sender e (h.mem_iff.1 he).1, fun hash i => ?_, fun k i => ?_⟩
  · rw [h.current]
    exact hs.nodes.sublist (filter_sublist.map Prod.fst)
  · rw [h.next]
    exact hs.fresh e (h.mem_iff.1 he).1
  · rw [h.byHash, hs.byHash]
    simp only [h.mem_iff]
    constructor
    · rintro ⟨⟨u, hu, heq⟩, hall⟩
      exact ⟨u, ⟨hu, fun hfrom => hall _ hu hfrom heq⟩, heq⟩
    · rintro ⟨u, ⟨hu, hnot⟩, rfl⟩
      exact ⟨⟨u, hu, rfl⟩, fun e he hfrom heq => hnot (QueuedTransaction.digest_injective heq ▸ hfrom)⟩
  · rw [h.bySlot]
    simp only [h.mem_iff]
    split
    · rename_i hfrom
      refine ⟨nofun, ?_⟩
      rintro ⟨n, u, -, ⟨-, hnot⟩, rfl⟩
      exact absurd hfrom hnot
    · rename_i hnot
      rw [hs.bySlot]
      refine exists_congr fun n => exists_congr fun u => and_congr_right fun _ => ⟨?_, ?_⟩
      · rintro ⟨hu, rfl⟩
        exact ⟨⟨hu, hnot⟩, rfl⟩
      · rintro ⟨⟨hu, -⟩, hk⟩
        exact ⟨hu, hk⟩

theorem indexed (hs : Indexed s) : Indexed s' := by
  refine ⟨h.currentOk hs.current, ⟨fun {k u} hu => ?_, fun {k u} hu => ?_, fun {k} hk hmem => ?_⟩, h.counted⟩
  · rcases h.future.1 hu with hu | ⟨-, -, hk⟩
    · exact hs.future.slot_eq hu
    · exact hk
  · rcases h.future.1 hu with hu | ⟨⟨n, hu⟩, -, -⟩
    · exact hs.future.sender hu
    · exact hs.current.sender _ hu
  · obtain ⟨u, hu, rfl⟩ := (h.currentOk hs.current).mem_slots.1 hk
    obtain ⟨hu, hnot⟩ := h.isCurrent_iff.1 hu
    obtain ⟨v, hv⟩ := mem_iff_exists_lookup.1 hmem
    rcases h.future.1 hv with hv | ⟨-, hfrom, heq⟩
    · exact hs.future.apart (hs.current.mem_slots.2 ⟨u, hu, rfl⟩) (mem_iff_exists_lookup.2 ⟨v, hv⟩)
    · refine hnot ⟨(congrArg Prod.fst heq).symm.trans hfrom.1, hfrom.2.trans_eq (congrArg Prod.snd heq)⟩

end

end Demoted

theorem indexed_constructed (limit futureLimit next : Nat) :
    Indexed ({ limit, futureLimit, next } : TransactionQueue c T H) := by
  refine ⟨⟨nodup_nil, nofun, nofun, fun h n => ⟨nofun, ?_⟩, fun k i => ⟨nofun, ?_⟩⟩, ⟨nofun, nofun, nofun⟩,
    ⟨rfl, Nat.two_pow_pos 32⟩⟩
  · rintro ⟨t, ht, -⟩
    cases ht
  · rintro ⟨n, t, -, ht, -⟩
    cases ht

/-! ### What is known -/

/-- The queue holds `t`. -/
def Held (s : TransactionQueue c T H) (t : T) : Prop := IsCurrent s t ∨ IsFuture s t

/-- The indices are right, and `m_known` is what the queue holds. -/
structure Balanced (s : TransactionQueue c T H) : Prop where
  indexed : Indexed s
  known : ∀ h, h ∈ s.known ↔ ∃ t, Held s t ∧ digest t = h

theorem Demoted.balanced (h : Demoted t s s') (hs : Balanced s) : Balanced s' := by
  refine ⟨h.indexed hs.indexed, fun hash => ?_⟩
  have hheld : ∀ u, Held s' u ↔ Held s u := by
    intro u
    rw [Held, Held, h.isCurrent_iff, h.isFuture_iff]
    tauto
  simp only [h.known, hs.known, hheld]

theorem Balanced.sets (h : Balanced s) (dropped : Finset H) : Balanced { s with dropped } := ⟨h.indexed.sets _ _, h.known⟩

theorem balanced_constructed (limit futureLimit next : Nat) :
    Balanced ({ limit, futureLimit, next } : TransactionQueue c T H) := by
  refine ⟨indexed_constructed _ _ _, fun h => ⟨fun hmem => absurd hmem (Finset.notMem_empty h), ?_⟩⟩
  rintro ⟨t, ⟨n, ht⟩ | ht, -⟩
  · cases ht
  · cases ht

variable [DecidableEq H] {Q : Unit → TransactionQueue c T H → Prop} {E : Exn → TransactionQueue c T H → Prop}

theorem wp_demote {e : Nat × T}
    (hs : (s.current.map Prod.fst).Nodup) (he : e ∈ s.current) (hlt : s.futureSize + 1 < 2 ^ 32)
    (hQ : ∀ shape, Q () { s with
      current := s.current.filter fun e' => e'.1 ≠ e.1
      shape
      currentByHash := update s.currentByHash (digest e.2) none
      future := insertNew s.future (slot e.2) e.2
      futureSize := s.futureSize + 1 }) : wp (demote (entry e)) Q E s := by
  rw [demote, wp_bind]
  refine wp_deref hs rfl he ?_
  rw [wp_bind, wp_modify, wp_bind]
  refine wp_eraseHandle (t := e.2) hs rfl he fun shape => ?_
  rw [wp_modify, increment_eq hlt]
  exact hQ shape

theorem wp_demotes
    (hs : (s.current.map Prod.fst).Nodup) (hmem : ∀ e ∈ es, e ∈ s.current) (hnodup : (es.map Prod.fst).Nodup)
    (hlt : s.futureSize + es.length < 2 ^ 32) (hQ : ∀ shape, Q () { s with
      current := s.current.filter fun e => e.1 ∉ es.map Prod.fst
      shape
      currentByHash := es.foldl (fun f e => update f (digest e.2) none) s.currentByHash
      future := es.foldl (fun m e => insertNew m (slot e.2) e.2) s.future
      futureSize := s.futureSize + es.length }) : wp ((es.map entry).forM demote) Q E s := by
  induction es generalizing s with
  | nil =>
    have hfilter : (s.current.filter fun e => e.1 ∉ ([] : List (Nat × T)).map Prod.fst) = s.current :=
      filter_eq_self.2 fun e _ => by simp
    have h := hQ s.shape
    rw [hfilter] at h
    exact h
  | cons e es ih =>
    rw [map_cons, nodup_cons] at hnodup
    rw [length_cons] at hlt
    rw [map_cons, forM_eq_forM, forM_cons, wp_bind]
    refine wp_demote hs (hmem e mem_cons_self) (by omega) fun shape => ih ?_ (fun e' he' => ?_) hnodup.2 ?_ fun shape' => ?_
    · exact hs.sublist (filter_sublist.map Prod.fst)
    · refine mem_filter.2 ⟨hmem e' (mem_cons_of_mem _ he'), decide_eq_true ?_⟩
      exact fun heq => hnodup.1 (heq ▸ mem_map_of_mem he')
    · dsimp only
      omega
    · have h := hQ shape'
      have hfilter : ((s.current.filter fun e' => e'.1 ≠ e.1).filter fun e' => e'.1 ∉ es.map Prod.fst) =
          s.current.filter fun e' => e'.1 ∉ (e :: es).map Prod.fst := by
        rw [filter_filter]
        refine filter_congr fun e' _ => ?_
        rw [← Bool.decide_and, decide_eq_decide, map_cons, mem_cons, not_or, and_comm]
      have hlen : s.futureSize + 1 + es.length = s.futureSize + (e :: es).length := by
        rw [length_cons]
        omega
      rw [← hfilter, ← hlen] at h
      exact h

theorem foldl_update_none {f : H → Option Nat} {h : H} {i : Nat} :
    es.foldl (fun f e => update f (digest e.2) none) f h = some i ↔ f h = some i ∧ ∀ e ∈ es, digest e.2 ≠ h := by
  induction es generalizing f with
  | nil => simp
  | cons e es ih =>
    rw [foldl_cons, ih, forall_mem_cons]
    by_cases heq : h = digest e.2
    · simp [heq]
    · rw [update_of_ne heq]
      simp [Ne.symm heq]

theorem wp_setFuture {h : H} (hs : Indexed s) (hnone : s.currentByHash h = none → Q () s)
    (hlt : ∀ t, IsCurrent s t → digest t = h → s.futureSize + (s.demotable t).length < 2 ^ 32)
    (hQ : ∀ t s', IsCurrent s t → digest t = h → Demoted t s s' → Q () s') : wp (setFuture h) Q E s := by
  rw [setFuture, wp_bind, wp_get]
  cases hhash : s.currentByHash h with
  | none => exact hnone hhash
  | some n =>
    obtain ⟨t, ht, rfl⟩ := (hs.current.byHash h n).1 hhash
    obtain ⟨es, hes, hslots, hmem⟩ := exists_demotable hs.current t
    have hlen := hlt t ⟨n, ht⟩ rfl
    rw [hes, length_map] at hlen
    rw [demotable] at hes
    have hnodup : (es.map Prod.fst).Nodup := by
      rw [List.Nodup, pairwise_map] at hslots ⊢
      refine hslots.imp_of_mem fun {x y} hx hy hxy heq => hxy ?_
      rw [inj_on_of_nodup_map hs.current.nodes ((hmem x).1 hx).1 ((hmem y).1 hy).1 heq]
    have hapart : ∀ e ∈ es, slot e.2 ∉ s.future := fun e he =>
      hs.future.apart (hs.current.mem_slots.2 ⟨e.2, ⟨e.1, ((hmem e).1 he).1⟩, rfl⟩)
    dsimp only
    rw [wp_bind]
    refine wp_deref hs.current.nodes rfl ht ?_
    rw [wp_bind, wp_get, wp_bind, hes]
    refine wp_demotes hs.current.nodes (fun e he => ((hmem e).1 he).1) hnodup hlen fun shape => ?_
    rw [wp_modify]
    refine hQ t _ ⟨n, ht⟩ rfl ⟨?_, ⟨_, _, _, _, _, rfl⟩, ?_, ?_, ?_, ⟨?_, hlen⟩⟩
    · refine filter_congr fun e he => decide_eq_decide.2 (not_congr ⟨fun hin => ?_, fun hfrom => ?_⟩)
      · obtain ⟨e', he', heq⟩ := mem_map.1 hin
        rw [inj_on_of_nodup_map hs.current.nodes ((hmem e').1 he').1 he heq] at he'
        exact ((hmem e).1 he').2
      · exact mem_map_of_mem ((hmem e).2 ⟨he, hfrom⟩)
    · intro k
      dsimp only
      rw [lookup_eraseSlots]
      by_cases hk : k ∈ (es.map entry).map fun e => (sender' t, e.1)
      · obtain ⟨x, hx, rfl⟩ := mem_map.1 hk
        obtain ⟨e, he, rfl⟩ := mem_map.1 hx
        rw [if_pos hk, if_pos ⟨rfl, ((hmem e).1 he).2.2⟩]
      · rw [if_neg hk]
        split
        · rename_i hfrom
          cases hlookup : s.currentByAddressAndNonce.lookup k with
          | none => rfl
          | some i =>
            obtain ⟨m, u, -, hu, rfl⟩ := (hs.current.bySlot k i).1 hlookup
            refine absurd (mem_map.2 ⟨_, mem_map_of_mem ((hmem (m, u)).2 ⟨hu, hfrom⟩), ?_⟩) hk
            exact Prod.ext hfrom.1.symm rfl
        · rfl
    · intro h i
      dsimp only
      rw [foldl_update_none]
      refine and_congr_right fun _ => ⟨fun hall e he hfrom => hall e ((hmem e).2 ⟨he, hfrom⟩), fun hall e he => ?_⟩
      exact hall e ((hmem e).1 he).1 ((hmem e).1 he).2
    · intro k u
      dsimp only
      rw [lookup_foldl_insertNew hslots hapart]
      refine or_congr_right ⟨?_, ?_⟩
      · rintro ⟨e, he, hk, rfl⟩
        exact ⟨⟨e.1, ((hmem e).1 he).1⟩, ((hmem e).1 he).2, hk⟩
      · rintro ⟨⟨m, hu⟩, hfrom, hk⟩
        exact ⟨(m, u), (hmem _).2 ⟨hu, hfrom⟩, hk, rfl⟩
    · dsimp only
      rw [length_foldl_insertNew hslots hapart, hs.counted.eq]

/-! ### The operations -/

/-- A call of a public function. -/
inductive Op (T H : Type)
  | importTransaction (t : T) (ik : IfDropped)
  | drop (h : H)
  | dropGood (t : T)
  | setFuture (h : H)
  | clear

def perform : Op T H → M c T H Unit
  | .importTransaction t ik => discard (importTransaction t ik)
  | .drop h => dropTransaction h
  | .dropGood t => dropGood t
  | .setFuture h => setFuture h
  | .clear => clear

/-- The transaction gets past the checks, and takes its place. -/
structure Accepts (s : TransactionQueue c T H) (t : T) (ik : IfDropped) : Prop where
  hasSignature : hasSignature t
  check : s.check (digest t) ik = .success
  best : ¬ Overbid s t

/-- The senders can be recovered, and `m_futureSize` does not overflow. -/
def Allowed (s : TransactionQueue c T H) : Op T H → Prop
  | .importTransaction t ik => Accepts s t ik → (sender t).isSome
  | .setFuture h => ∀ t, IsCurrent s t → digest t = h → s.futureSize + (s.demotable t).length < 2 ^ 32
  | _ => True

/-- What an operation does. -/
inductive Moves : Op T H → TransactionQueue c T H → TransactionQueue c T H → Prop
  | rests {o : Op T H} (s : TransactionQueue c T H) : Moves o s s
  | enters {t : T} {ik : IfDropped} {s s' : TransactionQueue c T H} : Accepts s t ik → Entered t s s' →
      Moves (.importTransaction t ik) s s'
  | drops {h : H} {s : TransactionQueue c T H} : h ∈ s.known → s.currentByHash h = none →
      Moves (.drop h) s { s with dropped := insert h s.dropped }
  | removes {n : Nat} {t : T} {s s' : TransactionQueue c T H} : digest t ∈ s.known →
      Removed n t { s with dropped := insert (digest t) s.dropped } s' → Moves (.drop (digest t)) s s'
  | makesCurrent {t : T} {s s' : TransactionQueue c T H} : MadeCurrent t s s' → Moves (.dropGood t) s s'
  | dropsGood {n : Nat} {t : T} {s s₁ s' : TransactionQueue c T H} : hasSignature t → digest t ∈ s.known →
      MadeCurrent t s s₁ → Removed n t s₁ s' → Moves (.dropGood t) s s'
  | demotes {t : T} {s s' : TransactionQueue c T H} : IsCurrent s t → Demoted t s s' → Moves (.setFuture (digest t)) s s'
  | clears {s : TransactionQueue c T H} :
      Moves .clear s { limit := s.limit, futureLimit := s.futureLimit, next := s.next }

theorem wp_importTransaction {ik : IfDropped} {Q : ImportResult → TransactionQueue c T H → Prop} (hs : Indexed s)
    (hsender : Accepts s t ik → (sender t).isSome) (hrests : ∀ r, Q r s) (hunsigned : E .transactionIsUnsigned s)
    (hQ : Accepts s t ik → ∀ s', EnteredWithin t s s' → Q .success s') : wp (importTransaction t ik) Q E s := by
  rw [importTransaction, wp_ite]
  split
  · exact hrests _
  · rw [wp_ite]
    split
    · exact hunsigned
    · rename_i hsignature
      rw [Bool.not_eq_true', Bool.not_eq_false] at hsignature
      rw [wp_bind, wp_get]
      dsimp only
      rw [wp_ite]
      split
      · exact hrests _
      · rename_i hcheck
        have haccepts : ¬ Overbid s t → Accepts s t ik := fun hbest => ⟨hsignature, not_not.1 hcheck, hbest⟩
        rw [manageImport, wp_tryCatch]
        exact wp_replaceAndEnter hs (fun hbest => hsender (haccepts hbest)) (fun _ => hrests _) fun hbest =>
          hQ (haccepts hbest)

/-- What the loops at the end of an operation see to. -/
def Trims (s s' : TransactionQueue c T H) : Op T H → Prop
  | .importTransaction t ik => s' = s ∨ Accepts s t ik ∧ EnteredWithin t s s'
  | .dropGood t => s'.futureSize ≤ s'.futureLimit ∧ (hasSignature t → digest t ∈ s.known → ¬ IsCurrent s' t)
  | _ => True

theorem wp_perform_trims (o : Op T H) (hs : Indexed s) (ho : Allowed s o) :
    wp (perform o) (fun _ s' => Moves o s s' ∧ Trims s s' o)
      (fun e s' => e = .transactionIsUnsigned ∧ Moves o s s' ∧ Trims s s' o) s := by
  cases o with
  | importTransaction t ik =>
    rw [perform, wp_discard]
    exact wp_importTransaction hs ho (fun _ => ⟨.rests s, .inl rfl⟩) ⟨rfl, .rests s, .inl rfl⟩
      fun haccepts s' hentered => ⟨.enters haccepts hentered.entered, .inr ⟨haccepts, hentered⟩⟩
  | drop h =>
    rw [perform, dropTransaction, wp_bind, wp_get, wp_ite]
    split
    · rename_i hknown
      have hs₁ := (hs.sets s.known (insert h s.dropped)).current
      rw [wp_bind, wp_modify, wp_discard]
      refine wp_remove hs₁ h (fun hnone => ⟨.drops hknown hnone, trivial⟩) fun n t s' heq hremoved => ?_
      subst heq
      exact ⟨.removes hknown hremoved, trivial⟩
    · exact ⟨.rests s, trivial⟩
  | dropGood t =>
    rw [perform, dropGood, wp_bind]
    refine wp_makeCurrent hs fun s₁ hmade hsize => ?_
    have hs₁ := (hmade.indexed hs).current
    rw [wp_ite]
    split
    · rename_i hsignature
      exact ⟨rfl, .makesCurrent hmade, hsize, fun h => absurd h (by simpa using hsignature)⟩
    · rename_i hsignature
      rw [Bool.not_eq_true', Bool.not_eq_false] at hsignature
      rw [wp_bind, wp_get, wp_ite, hmade.known]
      split
      · rename_i hknown
        rw [wp_discard]
        refine wp_remove hs₁ (digest t) (fun hnone => ⟨.makesCurrent hmade, hsize, fun _ _ => ?_⟩)
          fun n t' s' heq hremoved => ?_
        · exact hs₁.currentByHash_eq_none_iff.1 hnone
        · rw [QueuedTransaction.digest_injective heq] at hremoved
          have hgone : ¬ IsCurrent s' t := fun ht => ((hremoved.isCurrent_iff hs₁).1 ht).2 rfl
          refine ⟨.dropsGood hsignature hknown hmade hremoved, ?_, fun _ _ => hgone⟩
          obtain ⟨-, shape, hstate⟩ := hremoved
          rw [hstate]
          exact hsize
      · rename_i hknown
        exact ⟨.makesCurrent hmade, hsize, fun _ h => absurd h hknown⟩
  | setFuture h =>
    refine wp_setFuture hs (fun _ => ⟨.rests s, trivial⟩) ho fun t s' ht heq hdemoted => ?_
    subst heq
    exact ⟨.demotes ht hdemoted, trivial⟩
  | clear => exact ⟨.clears, trivial⟩

theorem wp_perform (o : Op T H) (hs : Indexed s) (ho : Allowed s o) :
    wp (perform o) (fun _ s' => Moves o s s') (fun e s' => e = .transactionIsUnsigned ∧ Moves o s s') s :=
  wp_mono (wp_perform_trims o hs ho) (fun _ _ h => h.1) fun _ _ h => ⟨h.1, h.2.1⟩

theorem Moves.indexed {o : Op T H} (h : Moves o s s') (hs : Indexed s) (ho : Allowed s o) : Indexed s' := by
  cases h with
  | rests => exact hs
  | enters haccepts hentered => exact hentered.indexed hs (ho haccepts)
  | drops => exact hs.sets _ _
  | removes _ hremoved => exact hremoved.indexed (hs.sets _ _)
  | makesCurrent hmade => exact hmade.indexed hs
  | dropsGood _ _ hmade hremoved => exact hremoved.indexed (hmade.indexed hs)
  | demotes _ hdemoted => exact hdemoted.indexed hs
  | clears => exact indexed_constructed _ _ _

/-! ### What the operations do to it -/

/-- No future transaction goes without its hash. -/
def Clean (s : TransactionQueue c T H) : Op T H → Prop
  | .importTransaction t ik => Accepts s t ik →
      (sender t).isSome ∧ slot t ∉ s.future ∧ s.futureSize ≤ s.futureLimit + (s.following t).length
  | .dropGood t => s.futureSize ≤ s.futureLimit + (s.following t).length
  | .setFuture h => ∀ t, IsCurrent s t → digest t = h → s.futureSize + (s.demotable t).length < 2 ^ 32
  | _ => True

theorem Clean.allowed {o : Op T H} (h : Clean s o) : Allowed s o := by
  cases o with
  | importTransaction t ik => exact fun haccepts => (h haccepts).1
  | setFuture h' => exact h
  | drop | dropGood | clear => trivial

theorem Removed.balanced (h : Removed n t s s') (hs : Balanced s) : Balanced s' := by
  have hknown : s'.known = s.known.erase (digest t) := by
    obtain ⟨-, shape, hstate⟩ := h
    rw [hstate]
  refine ⟨h.indexed hs.indexed, fun hash => ?_⟩
  have hheld : ∀ u, Held s' u ↔ Held s u ∧ u ≠ t := by
    intro u
    rw [Held, Held, h.isCurrent_iff hs.indexed.current, IsFuture, h.future, or_and_right]
    refine or_congr_right ⟨fun hu => ⟨hu, ?_⟩, And.left⟩
    rintro rfl
    exact hs.indexed.future.apart (hs.indexed.current.mem_slots.2 ⟨u, ⟨n, h.1⟩, rfl⟩) (IsFuture.mem hu)
  rw [hknown, Finset.mem_erase, hs.known]
  simp only [hheld]
  constructor
  · rintro ⟨hne, u, hu, rfl⟩
    exact ⟨u, ⟨hu, fun heq => hne (congrArg _ heq)⟩, rfl⟩
  · rintro ⟨u, ⟨hu, hne⟩, rfl⟩
    exact ⟨fun heq => hne (QueuedTransaction.digest_injective heq), u, hu, rfl⟩

theorem Trimmed.balanced (h : Trimmed s s') (hs : Balanced s) : Balanced s' := by
  induction h with
  | done => exact hs
  | last _ hremoved _ ih => exact ih (hremoved.balanced hs)

theorem MadeCurrent.held_iff (h : MadeCurrent t s s') (hs : Indexed s)
    (hroom : s.futureSize ≤ s.futureLimit + (s.following t).length) : Held s' u ↔ Held s u := by
  rw [Held, Held, h.isCurrent_iff, h.isFuture_iff hs hroom]
  have hfuture : u ∈ s.following t → IsFuture s u := fun hu => hs.future.isFuture_following hu
  tauto

theorem MadeCurrent.balanced (h : MadeCurrent t s s') (hs : Balanced s)
    (hroom : s.futureSize ≤ s.futureLimit + (s.following t).length) : Balanced s' := by
  refine ⟨h.indexed hs.indexed, fun hash => ?_⟩
  rw [h.known, hs.known]
  exact exists_congr fun u => and_congr_left fun _ => (h.held_iff hs.indexed hroom).symm

theorem Inserted.balanced (h : Inserted t s s') (hs : Balanced s) (hsender : (sender t).isSome)
    (hslot : slot t ∉ s.currentByAddressAndNonce) (hfuture : slot t ∉ s.future)
    (hroom : s.futureSize ≤ s.futureLimit + (s.following t).length) : Balanced s' := by
  refine ⟨h.indexed hs.indexed hsender hslot hfuture, fun hash => ?_⟩
  obtain ⟨s₁, s₂, hadd, hmade, rfl⟩ := h
  have hindexed := hadd.indexed hs.indexed hsender hslot hfuture
  have hlimit : s₁.futureLimit = s.futureLimit := by
    obtain ⟨shape, hstate⟩ := hadd.state
    rw [hstate]
  have hknown : s₁.known = s.known := by
    obtain ⟨shape, hstate⟩ := hadd.state
    rw [hstate]
  have hheld : ∀ u, Held s₂ u ↔ u = t ∨ Held s u := by
    intro u
    rw [hmade.held_iff hindexed (by rw [hadd.futureSize, hlimit, following_congr hadd.future]; exact hroom), Held, Held,
      hadd.isCurrent_iff, IsFuture, hadd.future, or_assoc]
    rfl
  have hheld' : ∀ u, Held { s₂ with known := insert (digest t) s₂.known } u ↔ u = t ∨ Held s u := hheld
  simp only [hheld']
  rw [hmade.known, hknown, Finset.mem_insert, hs.known]
  constructor
  · rintro (rfl | ⟨u, hu, rfl⟩)
    · exact ⟨t, .inl rfl, rfl⟩
    · exact ⟨u, .inr hu, rfl⟩
  · rintro ⟨u, rfl | hu, rfl⟩
    · exact .inl rfl
    · exact .inr ⟨u, hu, rfl⟩

theorem Entered.balanced (h : Entered t s s') (hs : Balanced s) (hsender : (sender t).isSome) (hfuture : slot t ∉ s.future)
    (hroom : s.futureSize ≤ s.futureLimit + (s.following t).length) : Balanced s' := by
  obtain ⟨s₁, s₂, hreplaced, hinserted, htrimmed⟩ := h
  obtain ⟨s₀, hs₀, rfl | ⟨hmem, -⟩⟩ := hreplaced.moves
  · refine htrimmed.balanced ?_
    rcases hs₀ with rfl | ⟨n, old, -, hremoved⟩
    · exact hinserted.balanced hs hsender hreplaced.current hreplaced.future hroom
    · refine hinserted.balanced (hremoved.balanced hs) hsender hreplaced.current hreplaced.future ?_
      have hlimit : s₁.futureLimit = s.futureLimit := by
        obtain ⟨-, shape, hstate⟩ := hremoved
        rw [hstate]
      rw [hremoved.futureSize, hlimit, following_congr hremoved.future]
      exact hroom
  · exact absurd hmem hfuture

theorem Moves.balanced {o : Op T H} (h : Moves o s s') (hs : Balanced s) (ho : Clean s o) : Balanced s' := by
  cases h with
  | rests => exact hs
  | enters haccepts hentered =>
    obtain ⟨hsender, hfuture, hroom⟩ := ho haccepts
    exact hentered.balanced hs hsender hfuture hroom
  | drops => exact hs.sets _
  | removes _ hremoved => exact hremoved.balanced (hs.sets _)
  | makesCurrent hmade => exact hmade.balanced hs ho
  | dropsGood _ _ hmade hremoved => exact hremoved.balanced (hmade.balanced hs ho)
  | demotes _ hdemoted => exact hdemoted.balanced hs
  | clears => exact balanced_constructed _ _ _

/-! ### Runs -/

/-- The queues that calls lead to which meet `C`, whether they return or throw. -/
inductive Reaches (C : TransactionQueue c T H → Op T H → Prop) : TransactionQueue c T H → Prop
  | constructed (limit futureLimit : Nat) : Reaches C { limit, futureLimit }
  | step {s : TransactionQueue c T H} {o : Op T H} : Reaches C s → C s o → Reaches C (after (perform o) s)

/-- A call returns, or `sha3` throws at a transaction that is not signed. -/
def Ends (s : TransactionQueue c T H) (o : Op T H) : Prop :=
  wp (perform o) (fun _ _ => True) (fun e _ => e = .transactionIsUnsigned) s

theorem balanced_of_reaches (h : Reaches Clean s) : Balanced s := by
  induction h with
  | constructed limit futureLimit => exact balanced_constructed _ _ _
  | @step s o _ ho ih =>
    refine wp_after (P := Balanced) (wp_mono (wp_perform o ih.indexed ho.allowed) (fun _ s' hs' => hs'.balanced ih ho) ?_)
    exact fun e s' hs' => hs'.2.balanced ih ho

/-- Whatever is listed is held. -/
theorem held_of_knownTransactions (h : Reaches Clean s) {hash : H} (hknown : hash ∈ s.knownTransactions) :
    ∃ t, Held s t ∧ digest t = hash :=
  ((balanced_of_reaches h).known hash).1 hknown

/-- As long as no future transaction is replaced or dropped, what the queue knows is what it holds. -/
theorem books_balance (h : Reaches Clean s) : Balanced s ∧ (∀ o, Clean s o → Ends s o) ∧
    ∀ t ik, ¬ Held s t → digest t ∉ s.dropped → s.check (digest t) ik = .success := by
  have hs := balanced_of_reaches h
  refine ⟨hs, fun o ho => wp_mono (wp_perform o hs.indexed ho.allowed) (fun _ _ _ => trivial) fun e s' he => he.1, ?_⟩
  intro t ik hnot hdropped
  have hknown : digest t ∉ s.known := by
    rw [hs.known]
    rintro ⟨u, hu, heq⟩
    exact hnot (QueuedTransaction.digest_injective heq ▸ hu)
  rw [check, if_neg hknown, if_neg fun hand => hdropped hand.1]

/-! ### Plain transactions -/

/-- A transaction that is its own hash. -/
structure Plain where
  sender : Address
  nonce : Fin 256
  gasPrice : Nat
deriving DecidableEq

instance : QueuedTransaction Plain Plain where
  digest := id
  hasSignature _ := true
  hasZeroSignature _ := false
  sender t := some t.sender
  nonce t := t.nonce
  gasPrice := Plain.gasPrice
  digest_injective := injective_id
  nonce_lt t := t.nonce.isLt.trans (by decide)

/-- Containers that are lists. -/
def lists : Containers where
  tree := SearchTree.linear Exn
  front := List.head?
  front_mem {l} hl := by
    cases l with
    | nil => exact absurd rfl hl
    | cons a l => exact ⟨a, mem_cons_self, rfl⟩

/-- The queue after some operations. -/
def ran (ops : List (Op Plain Plain)) (limit : Nat := 8) (futureLimit : Nat := 8) : TransactionQueue lists Plain Plain :=
  ops.foldl (fun s o => after (perform o) s) { limit, futureLimit }

theorem reaches_ran {C : TransactionQueue lists Plain Plain → Op Plain Plain → Prop} {ops : List (Op Plain Plain)}
    {limit futureLimit : Nat} (hC : ∀ i (h : i < ops.length), C (ran (ops.take i) limit futureLimit) ops[i]) :
    Reaches C (ran ops limit futureLimit) := by
  induction ops using List.reverseRecOn with
  | nil => exact .constructed limit futureLimit
  | append_singleton ops o ih =>
    rw [ran, foldl_append]
    refine (ih fun i h => ?_).step ?_
    · have hi := hC i (by rw [length_append]; omega)
      rwa [take_append_of_le_length h.le, getElem_append_left h] at hi
    · simpa using hC ops.length (by simp)

/-- Clean, and none is made current by `dropGood`. -/
def tidy (s : TransactionQueue lists Plain Plain) : Op Plain Plain → Bool
  | .importTransaction t _ => slot t ∉ s.future ∧ s.futureSize ≤ s.futureLimit + (s.following t).length
  | .setFuture h => ∀ e ∈ s.current, digest e.2 = h → s.futureSize + (s.demotable e.2).length < 2 ^ 32
  | .drop _ => true
  | _ => false

theorem clean_of_tidy {s : TransactionQueue lists Plain Plain} {o : Op Plain Plain} (h : tidy s o = true) : Clean s o := by
  cases o with
  | importTransaction t ik => exact fun _ => ⟨rfl, of_decide_eq_true h⟩
  | setFuture hash => exact fun t ⟨n, ht⟩ => of_decide_eq_true h (n, t) ht
  | drop hash => trivial
  | _ => cases h

/-- One transaction replaces another, one is put into the future, and one is dropped. -/
def importFour : List (Op Plain Plain) :=
  [.importTransaction ⟨1, 5, 2⟩ .ignore, .importTransaction ⟨1, 5, 4⟩ .ignore, .importTransaction ⟨1, 6, 1⟩ .ignore,
    .importTransaction ⟨2, 0, 1⟩ .ignore, .setFuture ⟨1, 6, 1⟩, .drop ⟨2, 0, 1⟩]

theorem books_balance_import : (ran importFour).current.map Prod.snd = [⟨1, 5, 4⟩] ∧ (ran importFour).futureSize = 1 ∧
    Balanced (ran importFour) := by
  have htidy : ∀ i (h : i < importFour.length), tidy (ran (importFour.take i)) importFour[i] = true := by decide +kernel
  exact ⟨by decide +kernel, by decide +kernel, (books_balance (reaches_ran fun i h => clean_of_tidy (htidy i h))).1⟩

/-- A future transaction is replaced, and stays known. -/
def replaceFutureOne : List (Op Plain Plain) :=
  [.importTransaction ⟨1, 5, 2⟩ .ignore, .setFuture ⟨1, 5, 2⟩, .importTransaction ⟨1, 5, 3⟩ .ignore]

theorem not_books_balance : ¬ ∀ s : TransactionQueue lists Plain Plain, Reaches (fun _ _ => True) s → Balanced s := by
  intro h
  have hbalanced := h (ran replaceFutureOne) (reaches_ran fun _ _ => trivial)
  have hknown : (⟨1, 5, 2⟩ : Plain) ∈ (ran replaceFutureOne).known := by decide +kernel
  have hcurrent : (ran replaceFutureOne).current.map Prod.snd = [⟨1, 5, 3⟩] := by decide +kernel
  have hfuture : (ran replaceFutureOne).future.lookup (slot (⟨1, 5, 2⟩ : Plain)) = none := by decide +kernel
  obtain ⟨t, ⟨n, ht⟩ | ht, heq⟩ := (hbalanced.known _).1 hknown
  · have hmem := mem_map_of_mem (f := Prod.snd) ht
    rw [hcurrent, show t = ⟨1, 5, 2⟩ from heq] at hmem
    have hne : (⟨1, 5, 2⟩ : Plain) ≠ ⟨1, 5, 3⟩ := by decide
    exact hne (mem_singleton.1 hmem)
  · rw [IsFuture, show t = ⟨1, 5, 2⟩ from heq, hfuture] at ht
    cases ht

end Kmdx.TransactionQueue
