import Kmdx.TransactionOrder

/-!
# The limits of the transaction queue

`import` trims what is current at its end, and `makeCurrent` what is future; `dropGood` makes transactions current
and `setFuture` makes them future without trimming these. As long as neither goes over its limit, both limits hold
after every operation, and what `import` trims comes last in the order (`limits_kept`).
-/

namespace Kmdx.TransactionQueue

open Wp QueuedTransaction SearchTree List

variable {c : Containers} {T H : Type} [QueuedTransaction T H]
variable {s s' s₁ : TransactionQueue c T H} {t u : T} {n : Nat}

/-! ### How many there are -/

theorem Demoted.futureSize (h : Demoted t s s') (hs : Indexed s) :
    s'.futureSize = s.futureSize + (s.demotable t).length := by
  obtain ⟨es, hes, hslots, hmem⟩ := exists_demotable hs.current t
  have hapart : ∀ e ∈ es, slot e.2 ∉ s.future := fun e he =>
    hs.future.apart (hs.current.mem_slots.2 ⟨e.2, ⟨e.1, ((hmem e).1 he).1⟩, rfl⟩)
  have hnodup : (s.future.keys ++ es.map fun e => slot e.2).Nodup := by
    refine nodup_append.2 ⟨AList.keys_nodup _, hslots, ?_⟩
    rintro k hk _ hk' rfl
    obtain ⟨e, he, rfl⟩ := mem_map.1 hk'
    exact hapart e he (AList.mem_keys.2 hk)
  have hperm : s'.future.keys.Perm (s.future.keys ++ es.map fun e => slot e.2) := by
    refine (perm_ext_iff_of_nodup (AList.keys_nodup _) hnodup).2 fun k => ?_
    rw [mem_append, ← AList.mem_keys, ← AList.mem_keys, mem_iff_exists_lookup, mem_iff_exists_lookup, mem_map]
    simp only [h.future, exists_or]
    refine or_congr_right ⟨?_, ?_⟩
    · rintro ⟨u, ⟨m, hu⟩, hfrom, hk⟩
      exact ⟨(m, u), (hmem _).2 ⟨hu, hfrom⟩, hk⟩
    · rintro ⟨e, he, hk⟩
      exact ⟨e.2, ⟨e.1, ((hmem e).1 he).1⟩, ((hmem e).1 he).2, hk⟩
  rw [h.counted.eq, hs.counted.eq, hperm.length_eq, length_append, length_map, hes, length_map]

theorem Demoted.length_le (h : Demoted t s s') : s'.current.length ≤ s.current.length := by
  rw [h.current]
  exact length_filter_le _ _

variable [DecidableEq H]

theorem Promoted.length {ts : List T} (h : Promoted ts s s') : s'.current.length = s.current.length + ts.length := by
  induction h with
  | nil => rfl
  | cons hadd _ ih =>
    have hlen := hadd.perm.length_eq
    rw [length_cons] at hlen ⊢
    dsimp only at ih
    omega

theorem MadeCurrent.length (h : MadeCurrent t s s') : s'.current.length = s.current.length + (s.following t).length := by
  obtain ⟨s₁, hs₁, hshrunk⟩ := h
  rw [hshrunk.current]
  exact hs₁.length

/-! ### The limits stay the same -/

theorem Added.limits (h : Added t s s') : s'.limit = s.limit ∧ s'.futureLimit = s.futureLimit := by
  obtain ⟨-, shape, hstate⟩ := h
  rw [hstate]
  exact ⟨rfl, rfl⟩

theorem Promoted.limits {ts : List T} (h : Promoted ts s s') : s'.limit = s.limit ∧ s'.futureLimit = s.futureLimit := by
  induction h with
  | nil => exact ⟨rfl, rfl⟩
  | cons hadd _ ih => exact ⟨ih.1.trans hadd.limits.1, ih.2.trans hadd.limits.2⟩

theorem MadeCurrent.limits (h : MadeCurrent t s s') : s'.limit = s.limit ∧ s'.futureLimit = s.futureLimit := by
  obtain ⟨s₁, hs₁, hshrunk⟩ := h
  rw [hshrunk.state]
  exact hs₁.limits

theorem Replaced.limits (h : Replaced t s s') : s'.limit = s.limit ∧ s'.futureLimit = s.futureLimit := by
  obtain ⟨s₁, hs₁, hs'⟩ := h.moves
  have hlimits : s₁.limit = s.limit ∧ s₁.futureLimit = s.futureLimit := by
    rcases hs₁ with rfl | ⟨n, old, -, hremoved⟩
    · exact ⟨rfl, rfl⟩
    · exact hremoved.limits
  rcases hs' with rfl | ⟨-, rfl⟩
  · exact hlimits
  · exact hlimits

theorem Inserted.limits (h : Inserted t s s') : s'.limit = s.limit ∧ s'.futureLimit = s.futureLimit := by
  obtain ⟨s₁, s₂, hadd, hmade, rfl⟩ := h
  exact ⟨hmade.limits.1.trans hadd.limits.1, hmade.limits.2.trans hadd.limits.2⟩

/-! ### What is trimmed -/

/-- What is left are the first ones. -/
theorem Trimmed.prefix (h : Trimmed s s') (hs : CurrentOk s) : s'.current <+: s.current := by
  induction h with
  | done => exact prefix_rfl
  | @last n t s s₁ s' hlast hremoved _ ih =>
    refine (ih (hremoved.currentOk hs)).trans ?_
    obtain ⟨front, hfront⟩ := List.getLast?_eq_some_iff.1 hlast
    have hnodes := hs.nodes
    rw [hfront, map_append, nodup_append] at hnodes
    have hcurrent : s₁.current = s.current.filter fun e => e.1 ≠ n := by
      obtain ⟨-, shape, hstate⟩ := hremoved
      rw [hstate]
    have hkept : front.filter (fun e => e.1 ≠ n) = front :=
      filter_eq_self.2 fun e he => decide_eq_true (hnodes.2.2 e.1 (mem_map_of_mem he) n (by simp))
    rw [hcurrent, hfront, filter_append, hkept]
    simp

/-- What is current when `t` has entered, before anything is trimmed. -/
def entered (s : TransactionQueue c T H) (t : T) : List T := s.followers t ++ t :: s.others t

/-- From `s` to `s'`, with `t` entered, only what came last in the order was trimmed. -/
structure TrimsLast (t : T) (s s' : TransactionQueue c T H) : Prop where
  kept : ∀ u, IsCurrent s' u → u ∈ s.entered t
  last : ∀ u ∈ s.entered t, ¬ IsCurrent s' u → ∀ v, IsCurrent s' v → rankIn (s.entered t) v ≤ rankIn (s.entered t) u

/-- As long as nothing has to be trimmed nothing is; else the order must be right. -/
theorem EnteredWithin.trimsLast (h : EnteredWithin t s s') (hs : Indexed s) (hsender : (sender t).isSome)
    (hcalm : s.limit < (s.entered t).length → Sorted s ∧
      Agree (rankIn s.transactions) (rankIn (t :: s.others t)) (s.others t) ∧
      Enters (t :: s.others t) (s.followers t)) : TrimsLast t s s' := by
  obtain ⟨s₁, s₂, hreplaced, hinserted, htrimmed, hlength, -⟩ := h
  have hs₂ := (hinserted.indexed (hreplaced.indexed hs) hsender hreplaced.current hreplaced.future).current
  have hmem : ∀ {u}, IsCurrent s₂ u ↔ u ∈ s.entered t := isCurrent_inserted hreplaced hinserted hs.current
  have hprefix := htrimmed.prefix hs₂
  refine ⟨fun u hu => ?_, fun u hu hnot v hv => ?_⟩
  · obtain ⟨n, hu⟩ := hu
    exact hmem.1 ⟨n, hprefix.subset hu⟩
  · have hover : s.limit < (s.entered t).length := by
      by_contra hroom
      have hle : s₂.transactions.length ≤ (s.entered t).length :=
        (hs₂.nodup_transactions.subperm fun x hx => hmem.1 (mem_transactions.1 hx)).length_le
      have hlimit := hinserted.limits.1.trans hreplaced.limits.1
      rw [transactions, length_map] at hle
      rw [min_eq_left (by omega)] at hlength
      obtain ⟨n, hu⟩ := hmem.2 hu
      exact hnot ⟨n, hprefix.eq_of_length hlength ▸ hu⟩
    obtain ⟨hsorted, hagree, henters⟩ := hcalm hover
    have hsorted₂ := sorted_inserted hreplaced hinserted hs hsender hsorted hagree henters
    have hrank : s₂.rank = rankIn (s.entered t) := by
      rw [hs₂.rank_eq]
      exact rankIn_congr fun x => mem_transactions.trans hmem
    obtain ⟨back, hback⟩ := hprefix
    rw [Sorted, ← hback, pairwise_append, hrank] at hsorted₂
    obtain ⟨m, hu⟩ := hmem.2 hu
    obtain ⟨n, hv⟩ := hv
    rw [← hback, mem_append] at hu
    rcases hu with hu | hu
    · exact absurd ⟨m, hu⟩ hnot
    · exact hsorted₂.2.2 _ hv _ hu

/-! ### The operations -/

/-- There are not too many transactions. -/
structure Bounded (s : TransactionQueue c T H) : Prop where
  current : s.current.length ≤ s.limit
  future : s.future.keys.length ≤ s.futureLimit

/-- `dropGood` and `setFuture` go over no limit, and `import` finds the order right where it has to trim. -/
def StaysWithin (s : TransactionQueue c T H) : Op T H → Prop
  | .importTransaction t ik => Accepts s t ik → (sender t).isSome ∧ (s.limit < (s.entered t).length → Sorted s ∧
      Agree (rankIn s.transactions) (rankIn (t :: s.others t)) (s.others t) ∧ Enters (t :: s.others t) (s.followers t))
  | .dropGood t => s.current.length + (s.following t).length ≤ s.limit ∨
      s.current.length + (s.following t).length = s.limit + 1 ∧ hasSignature t ∧ digest t ∈ s.known ∧ IsCurrent s t
  | .setFuture h => ∀ t, IsCurrent s t → digest t = h →
      s.futureSize + (s.demotable t).length ≤ s.futureLimit ∧ s.futureSize + (s.demotable t).length < 2 ^ 32
  | _ => True

theorem StaysWithin.allowed {o : Op T H} (h : StaysWithin s o) : Allowed s o := by
  cases o with
  | importTransaction t ik => exact fun haccepts => (h haccepts).1
  | setFuture hash => exact fun t ht heq => (h t ht heq).2
  | drop | dropGood | clear => trivial

theorem EnteredWithin.bounded (h : EnteredWithin t s s') (hs' : Indexed s') : Bounded s' := by
  obtain ⟨s₁, s₂, -, -, htrimmed, hlength, hsize⟩ := h
  refine ⟨?_, hs'.counted.eq ▸ hsize⟩
  rw [hlength, htrimmed.limits.1]
  exact min_le_right _ _

theorem bounded_of_moves {o : Op T H} (h : Moves o s s') (htrims : Trims s s' o) (hs : Indexed s) (hb : Bounded s)
    (ho : StaysWithin s o) : Bounded s' := by
  have hs' := h.indexed hs ho.allowed
  cases h with
  | rests => exact hb
  | enters =>
    rcases htrims with rfl | ⟨-, hentered⟩
    · exact hb
    · exact hentered.bounded hs'
  | drops => exact ⟨hb.current, hb.future⟩
  | removes _ hremoved =>
    have hlen := hremoved.length (hs.sets _ _).current
    have hlimits := hremoved.limits
    have hcurrent := hb.current
    refine ⟨?_, ?_⟩
    · dsimp only at hlen hlimits
      omega
    · rw [hremoved.future, hlimits.2]
      exact hb.future
  | makesCurrent hmade =>
    obtain ⟨hsize, hgone⟩ := htrims
    refine ⟨?_, hs'.counted.eq ▸ hsize⟩
    rw [hmade.length, hmade.limits.1]
    rcases ho with hle | ⟨-, hsignature, hknown, ht⟩
    · exact hle
    · exact absurd (hmade.isCurrent_iff.2 (.inr ht)) (hgone hsignature hknown)
  | dropsGood _ _ hmade hremoved =>
    have hlen := hremoved.length (hmade.indexed hs).current
    refine ⟨?_, hs'.counted.eq ▸ htrims.1⟩
    rw [hmade.length] at hlen
    rw [hremoved.limits.1, hmade.limits.1]
    rcases ho with hle | ⟨heq, -⟩ <;> omega
  | demotes ht hdemoted =>
    obtain ⟨hle, -⟩ := ho _ ht rfl
    have hcurrent := hdemoted.length_le
    have hsize := hdemoted.futureSize hs
    have heq := hs'.counted.eq
    obtain ⟨shape, slots, hashes, future, size, hstate⟩ := hdemoted.state
    have hlimit : s'.limit = s.limit := by rw [hstate]
    have hfutureLimit : s'.futureLimit = s.futureLimit := by rw [hstate]
    refine ⟨?_, ?_⟩
    · rw [hlimit]
      exact hcurrent.trans hb.current
    · rw [hfutureLimit, ← heq, hsize]
      exact hle
  | clears => exact ⟨Nat.zero_le _, Nat.zero_le _⟩

/-- An import that led from `s` to `s'` changed nothing, or trimmed only what came last. -/
def ImportsRight (s s' : TransactionQueue c T H) (t : T) (ik : IfDropped) : Prop :=
  s' = s ∨ Accepts s t ik ∧ TrimsLast t s s'

theorem importsRight_after {ik : IfDropped} (hs : Indexed s) (ho : StaysWithin s (.importTransaction t ik)) :
    ImportsRight s (after (perform (.importTransaction t ik)) s) t ik := by
  have hright : ∀ s', Trims s s' (.importTransaction t ik) → ImportsRight s s' t ik := by
    rintro s' (rfl | ⟨haccepts, hentered⟩)
    · exact .inl rfl
    · obtain ⟨hsender, hcalm⟩ := ho haccepts
      exact .inr ⟨haccepts, hentered.trimsLast hs hsender hcalm⟩
  exact wp_after (P := fun s' => ImportsRight s s' t ik)
    (wp_mono (wp_perform_trims _ hs ho.allowed) (fun _ s' h => hright s' h.2) fun e s' h => hright s' h.2.2)

/-! ### Runs -/

/-- As long as `dropGood` and `setFuture` go over no limit, there are never too many transactions; `import` trims only
what comes last. -/
theorem limits_kept (h : Reaches StaysWithin s) : Bounded s ∧ ∀ t ik, StaysWithin s (.importTransaction t ik) →
    ImportsRight s (after (perform (.importTransaction t ik)) s) t ik := by
  have hboth : Indexed s ∧ Bounded s := by
    induction h with
    | constructed limit futureLimit => exact ⟨indexed_constructed _ _ _, Nat.zero_le _, Nat.zero_le _⟩
    | @step s o _ ho ih =>
      have hkeeps : ∀ s', Moves o s s' ∧ Trims s s' o → Indexed s' ∧ Bounded s' := fun s' hs' =>
        ⟨hs'.1.indexed ih.1 ho.allowed, bounded_of_moves hs'.1 hs'.2 ih.1 ih.2 ho⟩
      exact wp_after (P := fun s => Indexed s ∧ Bounded s)
        (wp_mono (wp_perform_trims o ih.1 ho.allowed) (fun _ s' => hkeeps s') fun e s' hs' => hkeeps s' hs'.2)
  exact ⟨hboth.2, fun t ik ho => importsRight_after hboth.1 ho⟩

/-! ### A small queue -/

/-- The queue holds one transaction. -/
abbrev holdsOne : TransactionQueue lists Plain Plain := ran [.importTransaction ⟨1, 5, 2⟩ .ignore] 1 8

/-- Another sender's transaction comes, and there is room for one only. -/
theorem limits_kept_import : holdsOne.transactions = [⟨1, 5, 2⟩] ∧ Bounded holdsOne ∧
    ImportsRight holdsOne (after (perform (.importTransaction ⟨2, 0, 9⟩ .ignore)) holdsOne) ⟨2, 0, 9⟩ .ignore := by
  have hwithin : StaysWithin ({ limit := 1, futureLimit := 8 } : TransactionQueue lists Plain Plain)
      (.importTransaction ⟨1, 5, 2⟩ .ignore) := fun _ => ⟨rfl, fun hover => absurd hover (by decide +kernel)⟩
  have hcurrent : holdsOne.current = [(0, ⟨1, 5, 2⟩)] := by decide +kernel
  have hothers : holdsOne.others ⟨2, 0, 9⟩ = [⟨1, 5, 2⟩] := by decide +kernel
  have hfollowers : holdsOne.followers ⟨2, 0, 9⟩ = [] := by decide +kernel
  obtain ⟨hbounded, himport⟩ := limits_kept (.step (.constructed 1 8) hwithin)
  refine ⟨by rw [transactions, hcurrent]; rfl, hbounded, himport _ _ fun _ => ⟨rfl, fun _ => ⟨?_, ?_, ?_⟩⟩⟩
  · change holdsOne.current.Pairwise _
    rw [hcurrent]
    exact pairwise_singleton _ _
  · change Agree _ _ (holdsOne.others ⟨2, 0, 9⟩)
    rw [hothers]
    intro x hx y hy
    rw [mem_singleton.1 hx, mem_singleton.1 hy]
    exact iff_of_false (lt_irrefl _) (lt_irrefl _)
  · change Enters _ (holdsOne.followers ⟨2, 0, 9⟩)
    rw [hfollowers]
    trivial

/-- A future transaction becomes current where there is room for one only. -/
def dropGoodOne : List (Op Plain Plain) :=
  [.importTransaction ⟨1, 1, 1⟩ .ignore, .setFuture ⟨1, 1, 1⟩, .importTransaction ⟨2, 0, 1⟩ .ignore, .dropGood ⟨1, 0, 1⟩]

theorem not_limits_kept : ¬ ∀ s : TransactionQueue lists Plain Plain, Reaches (fun _ _ => True) s → Bounded s := by
  intro h
  have hcurrent := (h (ran dropGoodOne 1 8) (reaches_ran fun _ _ => trivial)).current
  have hlength : (ran dropGoodOne 1 8).current.length = 2 := by decide +kernel
  have hlimit : (ran dropGoodOne 1 8).limit = 1 := by decide +kernel
  omega

end Kmdx.TransactionQueue
