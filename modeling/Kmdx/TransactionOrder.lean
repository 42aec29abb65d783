import Kmdx.TransactionRun

/-!
# The order of the current transactions

`PriorityCompare` measures from the lowest current nonce of a sender. Where that changes, the order lasts only if the
transactions that are there compare as before (`Calm`).
-/

namespace Kmdx.TransactionQueue

open Wp QueuedTransaction SearchTree List

variable {c : Containers} {T H : Type}
variable {s s' s₁ : TransactionQueue c T H} {t u : T} {l l' : List T} {a : Address} {n : Nat}

/-- The current transactions, in order. -/
def transactions (s : TransactionQueue c T H) : List T := s.current.map Prod.snd

theorem mem_transactions : t ∈ s.transactions ↔ IsCurrent s t := by
  rw [transactions, mem_map]
  constructor
  · rintro ⟨e, he, rfl⟩
    exact ⟨e.1, he⟩
  · rintro ⟨n, ht⟩
    exact ⟨(n, t), ht, rfl⟩

theorem sorted_of_agree {f g : T → Nat ×ₗ Natᵒᵈ} (h : Agree f g l) (hl : ∀ e ∈ s.current, e.2 ∈ l)
    (hsorted : s.current.Pairwise fun e e' => f e.2 ≤ f e'.2) : s.current.Pairwise fun e e' => g e.2 ≤ g e'.2 := by
  have hmap : (s.current.map Prod.snd).Pairwise fun a b => f a ≤ f b := pairwise_map.2 hsorted
  have hagree : Agree f g (s.current.map Prod.snd) := by
    intro x hx y hy
    obtain ⟨e, he, rfl⟩ := mem_map.1 hx
    obtain ⟨e', he', rfl⟩ := mem_map.1 hy
    exact h _ (hl e he) _ (hl e' he')
  have hmap' := SearchTree.Agree.sorted hagree hmap
  rwa [pairwise_map] at hmap'

variable [QueuedTransaction T H]

/-! ### Ranks among some transactions -/

/-- The lowest nonce of a sender. -/
def lowestIn (l : List T) (a : Address) : Option Nat := ((l.filter (sender' · = a)).map nonce).min?

/-- Where a transaction stands among others. -/
def rankIn (l : List T) (t : T) : Nat ×ₗ Natᵒᵈ :=
  toLex ((nonce t + 2 ^ 256 - (lowestIn l (sender' t)).getD 0) % 2 ^ 256, OrderDual.toDual (gasPrice t))

theorem lowestIn_eq_some_iff : lowestIn l a = some n ↔
    (∃ x ∈ l, sender' x = a ∧ nonce x = n) ∧ ∀ x ∈ l, sender' x = a → n ≤ nonce x := by
  rw [lowestIn, List.min?_eq_some_iff]
  simp only [mem_map, mem_filter, decide_eq_true_eq, and_assoc, forall_exists_index, and_imp]
  refine and_congr_right fun _ => ⟨fun h x hx ha => h _ x hx ha rfl, ?_⟩
  rintro h _ x hx ha rfl
  exact h x hx ha

theorem isSome_lowestIn (ht : t ∈ l) : (lowestIn l (sender' t)).isSome := by
  have hmem : t ∈ l.filter (sender' · = sender' t) := mem_filter.2 ⟨ht, decide_eq_true rfl⟩
  have hne := ne_nil_of_mem (mem_map_of_mem (f := nonce) hmem)
  rw [lowestIn, Option.isSome_iff_ne_none, Ne, List.min?_eq_none_iff]
  exact hne

theorem rankIn_congr (h : ∀ x, x ∈ l ↔ x ∈ l') : rankIn l = rankIn l' := by
  have hlowest : lowestIn l = lowestIn l' := by
    refine funext fun a => Option.ext fun n => ?_
    rw [lowestIn_eq_some_iff, lowestIn_eq_some_iff]
    simp only [h]
  funext t
  rw [rankIn, rankIn, hlowest]

/-- Transactions that go do not matter, if a lower one of the same sender stays. -/
theorem rankIn_eq_of_subset (hsub : l' ⊆ l)
    (hlow : ∀ x ∈ l, sender' x = sender' t → ∃ y ∈ l', sender' y = sender' t ∧ nonce y ≤ nonce x) :
    rankIn l' t = rankIn l t := by
  have hlowest : lowestIn l' (sender' t) = lowestIn l (sender' t) := by
    refine Option.ext fun n => ?_
    rw [lowestIn_eq_some_iff, lowestIn_eq_some_iff]
    constructor
    · rintro ⟨⟨x, hx, hsender, rfl⟩, hle⟩
      refine ⟨⟨x, hsub hx, hsender, rfl⟩, fun y hy hsender' => ?_⟩
      obtain ⟨z, hz, hz', hle'⟩ := hlow y hy hsender'
      exact (hle z hz hz').trans hle'
    · rintro ⟨⟨x, hx, hsender, rfl⟩, hle⟩
      obtain ⟨z, hz, hz', hle'⟩ := hlow x hx hsender
      exact ⟨⟨z, hz, hz', hle'.antisymm (hle z (hsub hz) hz')⟩, fun y hy => hle y (hsub hy)⟩
  rw [rankIn, rankIn, hlowest]

/-- Those of one sender are in the order of their nonces. -/
theorem rankIn_le_iff (ht : t ∈ l) (hu : u ∈ l) (hsender : sender' t = sender' u) (hne : nonce t ≠ nonce u) :
    rankIn l t ≤ rankIn l u ↔ nonce t < nonce u := by
  obtain ⟨low, hlow⟩ := Option.isSome_iff_exists.1 (isSome_lowestIn ht)
  have hle := (lowestIn_eq_some_iff.1 hlow).2
  have ht' := hle t ht rfl
  have hu' := hle u hu hsender.symm
  have htlt := nonce_lt t
  have hult := nonce_lt u
  have hheight : ∀ {n : Nat}, low ≤ n → n < 2 ^ 256 → (n + 2 ^ 256 - low) % 2 ^ 256 = n - low := fun h1 h2 => by omega
  rw [rankIn, rankIn, ← hsender, hlow, Option.getD_some, hheight ht' htlt, hheight hu' hult, Prod.Lex.toLex_le_toLex]
  constructor
  · rintro (h | ⟨h, -⟩) <;> dsimp only at h <;> omega
  · intro h
    exact .inl (by dsimp only; omega)

/-! ### The order of the queue -/

/-- `m_current` is in the order of its indices. -/
def Sorted (s : TransactionQueue c T H) : Prop := s.current.Pairwise fun e e' => s.rank e.2 ≤ s.rank e'.2

theorem CurrentOk.rank_eq (h : CurrentOk s) : s.rank = rankIn s.transactions := by
  have hlowest : ∀ a, s.lowest a = lowestIn s.transactions a := by
    refine fun a => Option.ext fun n => ?_
    rw [lowest_eq_some_iff, lowestIn_eq_some_iff]
    simp only [h.mem_slots, mem_transactions]
    constructor
    · rintro ⟨⟨t, ht, heq⟩, hle⟩
      refine ⟨⟨t, ht, congrArg Prod.fst heq, congrArg Prod.snd heq⟩, fun x hx hsender => hle _ ⟨x, hx, ?_⟩⟩
      exact Prod.ext hsender rfl
    · rintro ⟨⟨t, ht, hsender, rfl⟩, hle⟩
      refine ⟨⟨t, ht, Prod.ext hsender rfl⟩, ?_⟩
      rintro n' ⟨x, hx, heq⟩
      exact (hle x hx (congrArg Prod.fst heq)).trans_eq (congrArg Prod.snd heq)
  funext t
  rw [rank, rankIn, hlowest]

theorem CurrentOk.nodup_transactions (h : CurrentOk s) : s.transactions.Nodup := by
  have hnodes := h.nodes
  rw [List.Nodup, pairwise_map] at hnodes
  rw [transactions, List.Nodup, pairwise_map]
  refine hnodes.imp_of_mem fun {e e'} he he' hne heq => hne ?_
  exact (h.eq_of_slot he he' (congrArg slot heq)).1

theorem Sorted.congr (h : Sorted s) (hcurrent : s'.current = s.current)
    (hslots : s'.currentByAddressAndNonce = s.currentByAddressAndNonce) : Sorted s' := by
  have hrank : s'.rank = s.rank := by
    funext t
    rw [rank, rank, lowest, lowest, hslots]
  rw [Sorted, hcurrent, hrank]
  exact h

/-- What `PriorityCompare` says of a queue in order. -/
theorem Sorted.priorityCompare (h : Sorted s) (hs : CurrentOk s) :
    s.current.Pairwise fun e e' => s.priorityCompare e'.2 e.2 = .ok false :=
  h.imp_of_mem fun {e e'} he he' hle => by
    rw [priorityCompare_eq (hs.comparable he') (hs.comparable he), decide_eq_false (not_lt.2 hle)]

theorem Sorted.nonces (h : Sorted s) (hs : CurrentOk s) :
    s.current.Pairwise fun e e' => sender' e.2 = sender' e'.2 → nonce e.2 < nonce e'.2 := by
  have hnodup : s.current.Pairwise fun e e' => e.1 ≠ e'.1 := pairwise_map.1 hs.nodes
  refine (h.and hnodup).imp_of_mem fun {e e'} he he' ⟨hle, hne⟩ hsender => ?_
  rw [hs.rank_eq] at hle
  have hnonce : nonce e.2 ≠ nonce e'.2 := fun heq => hne (hs.eq_of_slot he he' (Prod.ext hsender heq)).1
  exact (rankIn_le_iff (mem_transactions.2 ⟨e.1, he⟩) (mem_transactions.2 ⟨e'.1, he'⟩) hsender hnonce).1 hle

/-! ### What goes -/

/-- What goes from the end of a sender's transactions does not disturb the others. -/
theorem Sorted.filter (h : Sorted s) (hs : CurrentOk s) (hs' : CurrentOk s') {p : Nat × T → Bool}
    (hcurrent : s'.current = s.current.filter p)
    (hlow : ∀ e ∈ s.current, p e = false → ∀ e' ∈ s.current,
      p e' = true → sender' e.2 = sender' e'.2 → nonce e'.2 ≤ nonce e.2) :
    Sorted s' := by
  have hmem : ∀ {e : Nat × T}, e ∈ s'.current ↔ e ∈ s.current ∧ p e = true := by
    intro e
    rw [hcurrent, mem_filter]
  have hrank : ∀ e ∈ s'.current, s'.rank e.2 = s.rank e.2 := by
    intro e he
    rw [hs.rank_eq, hs'.rank_eq]
    refine rankIn_eq_of_subset ?_ fun x hx hsender => ?_
    · rw [transactions, transactions, hcurrent]
      exact map_subset _ filter_sublist.subset
    · obtain ⟨n, hx⟩ := mem_transactions.1 hx
      cases hp : p (n, x) with
      | true => exact ⟨x, mem_transactions.2 ⟨n, hmem.2 ⟨hx, hp⟩⟩, hsender, le_rfl⟩
      | false =>
        refine ⟨e.2, mem_transactions.2 ⟨e.1, he⟩, rfl, ?_⟩
        exact hlow _ hx hp e (hmem.1 he).1 (hmem.1 he).2 hsender
  have hsorted := List.Pairwise.sublist (filter_sublist (p := p)) h
  rw [← hcurrent] at hsorted
  refine hsorted.imp_of_mem fun {e e'} he he' hle => ?_
  rw [hrank e he, hrank e' he']
  exact hle

theorem Demoted.sorted (h : Demoted t s s') (hs : CurrentOk s) (hsorted : Sorted s) : Sorted s' := by
  refine hsorted.filter hs (h.currentOk hs) h.current fun e he hp e' he' hp' hsender => ?_
  rw [decide_eq_false_iff_not, not_not] at hp
  rw [decide_eq_true_eq] at hp'
  exact le_of_lt (lt_of_not_ge fun hle => hp' ⟨hsender.symm.trans hp.1, hp.2.trans hle⟩)

variable [DecidableEq H]

theorem Trimmed.sorted (h : Trimmed s s') (hs : CurrentOk s) (hsorted : Sorted s) : Sorted s' := by
  induction h with
  | done => exact hsorted
  | @last n t s s₁ s' hlast hremoved _ ih =>
    refine ih (hremoved.currentOk hs) ?_
    have hcurrent : s₁.current = s.current.filter fun e => e.1 ≠ n := by
      obtain ⟨-, shape, hstate⟩ := hremoved
      rw [hstate]
    refine hsorted.filter hs (hremoved.currentOk hs) hcurrent fun e he hp e' he' hp' hsender => ?_
    rw [decide_eq_false_iff_not, not_not] at hp
    rw [decide_eq_true_eq] at hp'
    have heq : e = (n, t) := inj_on_of_nodup_map hs.nodes he hremoved.1 hp
    have hnonces := hsorted.nonces hs
    obtain ⟨front, hfront⟩ := List.getLast?_eq_some_iff.1 hlast
    rw [hfront, pairwise_append] at hnonces
    rw [hfront, mem_append, mem_singleton] at he'
    rcases he' with he' | rfl
    · rw [heq] at hsender ⊢
      exact (hnonces.2.2 e' he' (n, t) mem_cons_self hsender.symm).le
    · exact absurd rfl hp'

/-! ### What comes -/

/-- Among the transactions that are there, nothing changes. -/
theorem Added.sorted (h : Added t s s') (hsorted : s.current.Pairwise fun e e' => s'.rank e.2 ≤ s'.rank e'.2) :
    Sorted s' := by
  obtain ⟨i, hi, hplaces⟩ := h.place
  rw [Sorted, hi]
  exact sorted_insert (α := Nat × T) (x := (s.next, t)) hsorted hplaces

/-- Each time another transaction becomes current, those that are compare as before. -/
def Enters (l : List T) : List T → Prop
  | [] => True
  | u :: us => Agree (rankIn l) (rankIn (u :: l)) l ∧ Enters (u :: l) us

theorem Promoted.sorted {ts : List T} (h : Promoted ts s s') (hs : CurrentOk s) (hts : Promotable ts s) (hsorted : Sorted s)
    (hl : ∀ x, x ∈ l ↔ IsCurrent s x) (henters : Enters l ts) : Sorted s' := by
  induction h generalizing l with
  | nil => exact hsorted
  | @cons t ts s s₁ s' hadd _ ih =>
    have hs₁ := hadd.currentOk hs (hts.sender t mem_cons_self) (hts.free t mem_cons_self)
    have hrank : s.rank = rankIn l := by
      rw [hs.rank_eq]
      exact rankIn_congr fun x => mem_transactions.trans (hl x).symm
    have hl₁ : ∀ x, x ∈ t :: l ↔ IsCurrent s₁ x := fun x => by rw [mem_cons, hadd.isCurrent_iff, hl]
    have hrank₁ : s₁.rank = rankIn (t :: l) := by
      rw [hs₁.rank_eq]
      exact rankIn_congr fun x => mem_transactions.trans (hl₁ x).symm
    have hsorted₁ : Sorted s₁ := by
      refine hadd.sorted ?_
      rw [hrank₁]
      rw [Sorted, hrank] at hsorted
      exact sorted_of_agree henters.1 (fun e he => (hl _).2 ⟨e.1, he⟩) hsorted
    have hcurrent : ∀ x, IsCurrent { s₁ with futureSize := decrement s₁.futureSize } x ↔ IsCurrent s₁ x :=
      fun x => isCurrent_congr rfl
    have hsorted₂ : Sorted { s₁ with futureSize := decrement s₁.futureSize } := hsorted₁.congr rfl rfl
    exact ih (hadd.currentOk_promote hs hts) (hts.tail hadd) hsorted₂ (fun x => (hl₁ x).trans (hcurrent x).symm) henters.2

theorem MadeCurrent.sorted (h : MadeCurrent t s s') (hs : Indexed s) (hsorted : Sorted s)
    (hl : ∀ x, x ∈ l ↔ IsCurrent s x) (henters : Enters l (s.following t)) : Sorted s' := by
  obtain ⟨s₁, hs₁, hshrunk⟩ := h
  have hsorted₁ := hs₁.sorted hs.current (hs.promotable t) hsorted hl henters
  exact hsorted₁.congr hshrunk.current hshrunk.slots

/-- What is current while `t` replaces the one in its place. -/
def others (s : TransactionQueue c T H) (t : T) : List T := s.transactions.filter (slot · ≠ slot t)

/-- The future transactions that follow `t`, which replaces the one in its place. -/
def followers (s : TransactionQueue c T H) (t : T) : List T := following { s with future := s.future.erase (slot t) } t

/-- What is current without a transaction. -/
def without (l : List T) (h : H) : List T := l.filter (digest · ≠ h)

/-- When one goes, the others compare as before. -/
def Leaves (l : List T) (h : H) : Prop := Agree (rankIn l) (rankIn (without l h)) (without l h)

/-- Where a lowest nonce changes, the transactions that are current compare as before. -/
def Calm (s : TransactionQueue c T H) : Op T H → Prop
  | .importTransaction t ik => Accepts s t ik →
      Agree (rankIn s.transactions) (rankIn (t :: s.others t)) (s.others t) ∧ Enters (t :: s.others t) (s.followers t)
  | .dropGood t => Enters s.transactions (s.following t) ∧
      (hasSignature t → digest t ∈ s.known → Leaves (s.following t ++ s.transactions) (digest t))
  | .drop h => h ∈ s.known → Leaves s.transactions h
  | _ => True

theorem Replaced.isCurrent_iff (h : Replaced t s s₁) (hs : CurrentOk s) : IsCurrent s₁ u ↔ u ∈ s.others t := by
  obtain ⟨s₀, hs₀, hs₁⟩ := h.moves
  have hcurrent : s₁.current = s₀.current := by
    rcases hs₁ with rfl | ⟨-, rfl⟩ <;> rfl
  have hslots : s₁.currentByAddressAndNonce = s₀.currentByAddressAndNonce := by
    rcases hs₁ with rfl | ⟨-, rfl⟩ <;> rfl
  have hfree := h.current
  rw [isCurrent_congr hcurrent, others, mem_filter, mem_transactions, decide_eq_true_eq]
  rw [hslots] at hfree
  rcases hs₀ with rfl | ⟨n, old, hslot, hremoved⟩
  · refine ⟨fun hu => ⟨hu, fun heq => hfree (hs.mem_slots.2 ⟨u, hu, heq⟩)⟩, And.left⟩
  · rw [hremoved.isCurrent_iff hs]
    refine and_congr_right fun ⟨n', hu⟩ => not_congr ⟨fun heq => by rw [heq, hslot], fun heq => ?_⟩
    exact (hs.eq_of_slot hu hremoved.1 (heq.trans hslot.symm)).2

theorem Replaced.sublist (h : Replaced t s s₁) : s₁.current.Sublist s.current := by
  obtain ⟨s₀, hs₀, hs₁⟩ := h.moves
  have hcurrent : s₁.current = s₀.current := by
    rcases hs₁ with rfl | ⟨-, rfl⟩ <;> rfl
  rw [hcurrent]
  rcases hs₀ with rfl | ⟨n, old, -, -, shape, hstate⟩
  · exact List.Sublist.refl _
  · have hfilter : s₀.current = s.current.filter fun e => e.1 ≠ n := by rw [hstate]
    rw [hfilter]
    exact filter_sublist

theorem Replaced.following (h : Replaced t s s₁) : s₁.following t = s.followers t := by
  obtain ⟨s₀, hs₀, hs₁⟩ := h.moves
  have hfuture : s₀.future = s.future := by
    rcases hs₀ with rfl | ⟨n, old, -, hremoved⟩
    · rfl
    · exact hremoved.future
  have hfree := h.future
  refine following_congr ?_
  rcases hs₁ with rfl | ⟨-, rfl⟩
  · rw [hfuture] at hfree ⊢
    exact (AList.ext (kerase_of_notMem_keys hfree)).symm
  · dsimp only
    rw [hfuture]

/-- What is current once `t` is, before anything is trimmed. -/
theorem isCurrent_inserted (hreplaced : Replaced t s s₁) (hinserted : Inserted t s₁ s') (hs : CurrentOk s) :
    IsCurrent s' u ↔ u ∈ s.followers t ++ t :: s.others t := by
  obtain ⟨s₂, s₃, hadd, hmade, rfl⟩ := hinserted
  have hcurrent : IsCurrent { s₃ with known := insert (digest t) s₃.known } u ↔ IsCurrent s₃ u := isCurrent_congr rfl
  rw [hcurrent, hmade.isCurrent_iff, (following_congr hadd.future).trans hreplaced.following, hadd.isCurrent_iff,
    hreplaced.isCurrent_iff hs, mem_append, mem_cons]

theorem sorted_inserted (hreplaced : Replaced t s s₁) (hinserted : Inserted t s₁ s') (hs : Indexed s)
    (hsender : (sender t).isSome) (hsorted : Sorted s)
    (hagree : Agree (rankIn s.transactions) (rankIn (t :: s.others t)) (s.others t))
    (henters : Enters (t :: s.others t) (s.followers t)) : Sorted s' := by
  have hs₁ := hreplaced.indexed hs
  obtain ⟨s₂, s₄, hadd, hmade, rfl⟩ := hinserted
  have hs₂ := hadd.indexed hs₁ hsender hreplaced.current hreplaced.future
  have hl : ∀ x, x ∈ t :: s.others t ↔ IsCurrent s₂ x := fun x => by
    rw [mem_cons, hadd.isCurrent_iff, hreplaced.isCurrent_iff hs.current]
  have hrank₂ : s₂.rank = rankIn (t :: s.others t) := by
    rw [hs₂.current.rank_eq]
    exact rankIn_congr fun x => mem_transactions.trans (hl x).symm
  have hsorted₂ : Sorted s₂ := by
    refine hadd.sorted ?_
    rw [Sorted, hs.current.rank_eq] at hsorted
    rw [hrank₂]
    refine sorted_of_agree hagree (fun e he => ?_) (hsorted.sublist hreplaced.sublist)
    exact (hreplaced.isCurrent_iff hs.current).1 ⟨e.1, he⟩
  have hfollowing : s₂.following t = s.followers t :=
    (following_congr hadd.future).trans hreplaced.following
  have hsorted₄ := hmade.sorted hs₂ hsorted₂ hl (hfollowing ▸ henters)
  exact hsorted₄.congr rfl rfl

theorem Entered.sorted (h : Entered t s s') (hs : Indexed s) (hsender : (sender t).isSome) (hsorted : Sorted s)
    (hagree : Agree (rankIn s.transactions) (rankIn (t :: s.others t)) (s.others t))
    (henters : Enters (t :: s.others t) (s.followers t)) : Sorted s' := by
  obtain ⟨s₁, s₃, hreplaced, hinserted, htrimmed⟩ := h
  have hs₃ := hinserted.indexed (hreplaced.indexed hs) hsender hreplaced.current hreplaced.future
  exact htrimmed.sorted hs₃.current (sorted_inserted hreplaced hinserted hs hsender hsorted hagree henters)

theorem Removed.sorted (h : Removed n t s s') (hs : CurrentOk s) (hsorted : Sorted s) (hl : ∀ x, x ∈ l ↔ IsCurrent s x)
    (hleaves : Leaves l (digest t)) : Sorted s' := by
  have hs' := h.currentOk hs
  have hrank : s.rank = rankIn l := by
    rw [hs.rank_eq]
    exact rankIn_congr fun x => mem_transactions.trans (hl x).symm
  have hl' : ∀ x, x ∈ without l (digest t) ↔ IsCurrent s' x := by
    intro x
    rw [without, mem_filter, decide_eq_true_eq, hl, h.isCurrent_iff hs]
    exact and_congr_right fun _ => not_congr QueuedTransaction.digest_injective.eq_iff
  have hrank' : s'.rank = rankIn (without l (digest t)) := by
    rw [hs'.rank_eq]
    exact rankIn_congr fun x => mem_transactions.trans (hl' x).symm
  have hcurrent : s'.current = s.current.filter fun e => e.1 ≠ n := by
    obtain ⟨-, shape, hstate⟩ := h
    rw [hstate]
  have hstays : s'.current.Pairwise fun e e' => s.rank e.2 ≤ s.rank e'.2 := by
    rw [hcurrent]
    exact hsorted.sublist filter_sublist
  rw [hrank] at hstays
  rw [Sorted, hrank']
  exact sorted_of_agree hleaves (fun e he => (hl' _).2 ⟨e.1, he⟩) hstays

theorem Moves.sorted {o : Op T H} (h : Moves o s s') (hs : Indexed s) (hsorted : Sorted s)
    (ho : Allowed s o) (hcalm : Calm s o) : Sorted s' := by
  cases h with
  | rests => exact hsorted
  | enters haccepts hentered =>
    obtain ⟨hagree, henters⟩ := hcalm haccepts
    exact hentered.sorted hs (ho haccepts) hsorted hagree henters
  | drops => exact hsorted.congr rfl rfl
  | @removes n t s s' hknown hremoved =>
    have hs₁ := hs.sets s.known (insert (digest t) s.dropped)
    have hsorted₁ : Sorted { s with dropped := insert (digest t) s.dropped } := hsorted.congr rfl rfl
    exact hremoved.sorted hs₁.current hsorted₁ (fun x => mem_transactions) (hcalm hknown)
  | makesCurrent hmade => exact hmade.sorted hs hsorted (fun x => mem_transactions) hcalm.1
  | dropsGood hsignature hknown hmade hremoved =>
    have hsorted₁ := hmade.sorted hs hsorted (fun x => mem_transactions) hcalm.1
    refine hremoved.sorted (hmade.indexed hs).current hsorted₁ (fun x => ?_) (hcalm.2 hsignature hknown)
    rw [mem_append, mem_transactions, hmade.isCurrent_iff]
  | demotes _ hdemoted => exact hdemoted.sorted hs.current hsorted
  | clears => exact List.Pairwise.nil

/-! ### Runs -/

theorem sorted_of_reaches (h : Reaches (fun s o => Allowed s o ∧ Calm s o) s) : Indexed s ∧ Sorted s := by
  induction h with
  | constructed limit futureLimit => exact ⟨indexed_constructed _ _ _, List.Pairwise.nil⟩
  | @step s o _ ho ih =>
    have hkeeps : ∀ s', Moves o s s' → Indexed s' ∧ Sorted s' := fun s' hs' =>
      ⟨hs'.indexed ih.1 ho.1, hs'.sorted ih.1 ih.2 ho.1 ho.2⟩
    exact wp_after (P := fun s => Indexed s ∧ Sorted s)
      (wp_mono (wp_perform o ih.1 ho.1) (fun _ s' => hkeeps s') fun e s' hs' => hkeeps s' hs'.2)

/-- What `topTransactions` promises. -/
structure Best (s : TransactionQueue c T H) (limit : Nat) (avoid : Finset H) (top : List T) : Prop where
  current : ∀ t ∈ top, IsCurrent s t ∧ digest t ∉ avoid
  nodup : top.Nodup
  length : top.length = min limit (s.transactions.filter (digest · ∉ avoid)).length
  best : ∀ t ∈ top, ∀ u, IsCurrent s u → digest u ∉ avoid → u ∉ top → s.priorityCompare u t = .ok false
  sorted : top.Pairwise fun t u => s.priorityCompare u t = .ok false

theorem best_topTransactions (hs : Indexed s) (hsorted : Sorted s) (limit : Nat) (avoid : Finset H) :
    Best s limit avoid (s.topTransactions limit avoid) := by
  have hpriority : s.transactions.Pairwise fun t u => s.priorityCompare u t = .ok false :=
    pairwise_map.2 (hsorted.priorityCompare hs.current)
  have hsub : (s.topTransactions limit avoid).Sublist (s.transactions.filter (digest · ∉ avoid)) := take_sublist _ _
  have hmem : ∀ {u : T}, u ∈ s.transactions.filter (digest · ∉ avoid) ↔ IsCurrent s u ∧ digest u ∉ avoid := by
    intro u
    rw [mem_filter, mem_transactions, decide_eq_true_eq]
  have hnodup := hs.current.nodup_transactions
  refine ⟨fun t ht => hmem.1 (hsub.subset ht), (hsub.trans filter_sublist).nodup hnodup, length_take,
    fun t ht u hu havoid hnot => ?_, hpriority.sublist (hsub.trans filter_sublist)⟩
  have hsplit := take_append_drop limit (s.transactions.filter (digest · ∉ avoid))
  have hpairs := hpriority.sublist (filter_sublist (p := (digest · ∉ avoid)))
  rw [← hsplit, pairwise_append] at hpairs
  have hu' := hmem.2 ⟨hu, havoid⟩
  rw [← hsplit, mem_append] at hu'
  exact hpairs.2.2 t ht u (hu'.resolve_left hnot)

/-- As long as the transactions that are there compare as before, they stay in order. -/
theorem best_first (h : Reaches (fun s o => Allowed s o ∧ Calm s o) s) :
    (s.current.Pairwise fun e e' => s.priorityCompare e'.2 e.2 = .ok false) ∧
    (s.current.Pairwise fun e e' => sender' e.2 = sender' e'.2 → nonce e.2 < nonce e'.2) ∧
    ∀ limit avoid, Best s limit avoid (s.topTransactions limit avoid) := by
  obtain ⟨hs, hsorted⟩ := sorted_of_reaches h
  exact ⟨hsorted.priorityCompare hs.current, hsorted.nonces hs.current, best_topTransactions hs hsorted⟩

instance {κ : Type} [LT κ] [DecidableLT κ] (f g : T → κ) (l : List T) : Decidable (SearchTree.Agree f g l) :=
  inferInstanceAs (Decidable (∀ x ∈ l, ∀ y ∈ l, _))

/-- Calm, without a future transaction that follows. -/
def quiet (s : TransactionQueue lists Plain Plain) : Op Plain Plain → Bool
  | .importTransaction t _ => Agree (rankIn s.transactions) (rankIn (t :: s.others t)) (s.others t) ∧ s.followers t = []
  | .drop h => Agree (rankIn s.transactions) (rankIn (without s.transactions h)) (without s.transactions h)
  | _ => false

theorem calm_of_quiet {s : TransactionQueue lists Plain Plain} {o : Op Plain Plain} (h : quiet s o = true) :
    Allowed s o ∧ Calm s o := by
  cases o with
  | importTransaction t ik =>
    obtain ⟨hagree, hfollowers⟩ := of_decide_eq_true h
    exact ⟨fun _ => rfl, fun _ => ⟨hagree, by rw [hfollowers]; trivial⟩⟩
  | drop hash => exact ⟨trivial, fun _ => (of_decide_eq_true h : SearchTree.Agree _ _ _)⟩
  | _ => cases h

/-- Three senders, one of whom has a single transaction, which is dropped, and two have two each. -/
def importFive : List (Op Plain Plain) :=
  [.importTransaction ⟨1, 0, 1⟩ .ignore, .importTransaction ⟨2, 0, 3⟩ .ignore, .importTransaction ⟨2, 1, 2⟩ .ignore,
    .importTransaction ⟨3, 7, 4⟩ .ignore, .importTransaction ⟨1, 1, 5⟩ .ignore, .drop ⟨3, 7, 4⟩]

theorem best_first_import : (ran importFive).current.map Prod.snd = [⟨2, 0, 3⟩, ⟨1, 0, 1⟩, ⟨1, 1, 5⟩, ⟨2, 1, 2⟩] ∧
    (ran importFive).current.Pairwise (fun e e' => sender' e.2 = sender' e'.2 → nonce e.2 < nonce e'.2) ∧
    Best (ran importFive) 2 {⟨1, 0, 1⟩} [⟨2, 0, 3⟩, ⟨1, 1, 5⟩] := by
  have hquiet : ∀ i (h : i < importFive.length), quiet (ran (importFive.take i)) importFive[i] = true := by decide +kernel
  obtain ⟨-, hnonces, hbest⟩ := best_first (reaches_ran fun i h => calm_of_quiet (hquiet i h))
  have htop : (ran importFive).topTransactions 2 {⟨1, 0, 1⟩} = [⟨2, 0, 3⟩, ⟨1, 1, 5⟩] := by decide +kernel
  exact ⟨by decide +kernel, hnonces, htop ▸ hbest 2 {⟨1, 0, 1⟩}⟩

/-- When the first transaction of a sender is dropped, its second one should overtake that of another sender. -/
def dropFirst : List (Op Plain Plain) :=
  [.importTransaction ⟨1, 0, 1⟩ .ignore, .importTransaction ⟨2, 0, 1⟩ .ignore, .importTransaction ⟨2, 1, 1⟩ .ignore,
    .importTransaction ⟨1, 1, 1⟩ .ignore, .drop ⟨1, 0, 1⟩]

theorem not_best_first : ¬ ∀ s : TransactionQueue lists Plain Plain, Reaches (fun _ _ => True) s →
    s.current.Pairwise fun e e' => s.priorityCompare e'.2 e.2 = .ok false := by
  intro h
  have hpairs := h (ran dropFirst) (reaches_ran fun _ _ => trivial)
  have hcurrent : (ran dropFirst).current = [(1, ⟨2, 0, 1⟩), (2, ⟨2, 1, 1⟩), (3, ⟨1, 1, 1⟩)] := by decide +kernel
  have hless : (ran dropFirst).priorityCompare ⟨1, 1, 1⟩ ⟨2, 1, 1⟩ = .ok true := by decide +kernel
  rw [hcurrent, pairwise_cons, pairwise_cons] at hpairs
  have hnot := hpairs.2.1 _ (mem_singleton_self _)
  rw [hless] at hnot
  cases hnot

end Kmdx.TransactionQueue
