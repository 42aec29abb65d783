import Mathlib.Data.Finset.Basic

/-!
# Jobs that wait for their parents

A `Track` follows jobs, each with a parent, from where they are admitted to where they are delivered. A job
waits (`waiting`) until its parent is there, or it is admitted to the end of `ready`, whose head is delivered
next. A job that is bad is condemned: it is taken out of `ready`, which makes it `pending`, and then out of
the sets. The sets say where a job is without the lists having to be searched; `Consistent` says that they
are right.

With `strict` a job is admitted only if its parent is there before it. Then parents are delivered before
their children, and what is admitted and not condemned is delivered once (`Ordered`).
-/

namespace JobTrack

open Relation
open List hiding Disjoint

structure Job (H : Type) where
  hash : H
  parent : H
deriving DecidableEq

structure Track (H : Type) where
  ready : List (Job H)
  /-- Taken out of `ready`, to be condemned. -/
  pending : Multiset (Job H)
  waiting : Multiset (Job H)
  readySet : Finset H
  waitingSet : Finset H
  /-- Delivered, but not yet done with. -/
  openSet : Finset H
  bad : Finset H
  /-- Reported to be bad, while they may still be ready. -/
  reported : Finset H
  /-- What was ever admitted to `ready`. -/
  admitted : List H
  delivered : List (Job H)
  /-- What others have been known to be done with. -/
  known : H → Prop

variable {H : Type}

/-- All jobs in `readySet`. -/
def Track.active (t : Track H) : Multiset H := (t.pending + (t.ready : Multiset (Job H))).map Job.hash

/-- The parent `p` is ready, or past that. -/
def Track.Settled (t : Track H) (p : H) : Prop :=
  p ∈ t.readySet ∨ p ∈ t.openSet ∨ t.known p ∧ p ∉ t.waitingSet

/-- The job is in none of the sets. -/
structure Track.Fresh (t : Track H) (h : H) : Prop where
  ready : h ∉ t.readySet
  waiting : h ∉ t.waitingSet
  opened : h ∉ t.openSet
  bad : h ∉ t.bad

variable [DecidableEq H]

def hashes (l : List (Job H)) : Finset H := (l.map Job.hash).toFinset

@[simp] theorem mem_hashes {l : List (Job H)} {h : H} : h ∈ hashes l ↔ ∃ j ∈ l, j.hash = h := by simp [hashes]

inductive Move (strict : Prop) (t : Track H) : Track H → Prop
  | accept (j : Job H) : t.Fresh j.hash → (strict → ¬ t.known j.hash) → (strict → t.Settled j.parent) →
    Move strict t { t with
      ready := t.ready ++ [j]
      readySet := insert j.hash t.readySet
      admitted := t.admitted ++ [j.hash] }
  | hold (j : Job H) : t.Fresh j.hash → (strict → ¬ t.known j.hash) →
    Move strict t { t with waiting := j ::ₘ t.waiting, waitingSet := insert j.hash t.waitingSet }
  | release (jobs : List (Job H)) (rest : Multiset (Job H)) : t.waiting = jobs + rest →
    (strict → ∀ j ∈ jobs, t.Settled j.parent) →
    Move strict t { t with
      ready := t.ready ++ jobs
      waiting := rest
      readySet := t.readySet ∪ hashes jobs
      waitingSet := t.waitingSet \ hashes jobs
      admitted := t.admitted ++ jobs.map Job.hash }
  | condemnWaiting (jobs : List (Job H)) (rest : Multiset (Job H)) : t.waiting = jobs + rest →
    Move strict t { t with
      waiting := rest
      waitingSet := t.waitingSet \ hashes jobs
      bad := t.bad ∪ hashes jobs }
  | takeOut (jobs ready : List (Job H)) : ready.Sublist t.ready → (t.ready : Multiset (Job H)) = jobs + ready →
    Move strict t { t with ready, pending := jobs + t.pending }
  | condemn (j : Job H) (rest : Multiset (Job H)) : t.pending = j ::ₘ rest →
    Move strict t { t with
      pending := rest
      readySet := t.readySet.erase j.hash
      bad := insert j.hash t.bad }
  | blame (h : H) : h ∉ t.readySet → h ∉ t.waitingSet → h ∉ t.openSet →
    Move strict t { t with bad := insert h t.bad }
  | report (hs : Finset H) : Disjoint hs t.waitingSet → t.openSet = ∅ →
    Move strict t { t with bad := t.bad ∪ hs, reported := t.reported ∪ hs }
  | settle : Disjoint t.readySet t.reported → Move strict t { t with reported := ∅ }
  | deliver (j : Job H) (ready : List (Job H)) : t.ready = j :: ready → t.reported = ∅ →
    Move strict t { t with
      ready
      readySet := t.readySet.erase j.hash
      openSet := insert j.hash t.openSet
      delivered := t.delivered ++ [j] }
  | close : Move strict t { t with openSet := ∅ }
  | clear : ¬ strict → t.pending = 0 →
    Move strict t { t with ready := [], waiting := 0, readySet := ∅, waitingSet := ∅, openSet := ∅ }
  | relabel (l l' : List (Job H)) (h p p' : H) : t.ready = l ++ ⟨h, p⟩ :: l' → (strict → p = p') →
    Move strict t { t with ready := l ++ ⟨h, p'⟩ :: l' }
  | learn (known : H → Prop) : (∀ h, t.known h → known h) → Move strict t { t with known }

/-- The sets are right about `h`, and it is in one of them at most. -/
structure ConsistentAt (t : Track H) (h : H) : Prop where
  ready : t.active.count h = if h ∈ t.readySet then 1 else 0
  waiting : (t.waiting.map Job.hash).count h = if h ∈ t.waitingSet then 1 else 0
  readyWaiting : h ∈ t.readySet → h ∉ t.waitingSet
  readyOpen : h ∈ t.readySet → h ∉ t.openSet
  readyBad : h ∈ t.readySet → h ∈ t.bad → h ∈ t.reported
  waitingOpen : h ∈ t.waitingSet → h ∉ t.openSet
  waitingBad : h ∈ t.waitingSet → h ∉ t.bad
  openBad : h ∈ t.openSet → h ∉ t.bad

def Consistent (t : Track H) : Prop := ∀ h, ConsistentAt t h

variable {strict : Prop} {t t' : Track H}

theorem mem_hashes_iff_count {l : List (Job H)} {h : H} : h ∈ hashes l ↔ 0 < (l.map Job.hash).count h := by
  rw [count_pos_iff, hashes, mem_toFinset]

theorem count_active (t : Track H) (h : H) :
    t.active.count h = (t.pending.map Job.hash).count h + (t.ready.map Job.hash).count h := by
  simp [Track.active]

/-- What a move does to the sets is said job by job, so one `h` at a time is enough. -/
theorem Consistent.move (ht : Consistent t) (hm : Move strict t t') : Consistent t' := by
  intro h
  obtain ⟨hready, hwaiting, hrw, hro, hrb, hwo, hwb, hob⟩ := ht h
  rw [count_active] at hready
  cases hm with
  | accept j hfresh hknown hp =>
    obtain ⟨h₁, h₂, h₃, h₄⟩ := hfresh
    constructor <;> simp only [count_active, map_append, count_append, map_cons, map_nil,
      count_singleton, Finset.mem_insert]
    all_goals grind
  | hold j hfresh hknown =>
    obtain ⟨h₁, h₂, h₃, h₄⟩ := hfresh
    constructor <;> simp only [count_active, Multiset.map_cons, Multiset.count_cons, Finset.mem_insert]
    all_goals grind
  | release jobs rest hw hp =>
    rw [hw, Multiset.map_add, Multiset.count_add, Multiset.map_coe, Multiset.coe_count] at hwaiting
    constructor <;> simp only [count_active, map_append, count_append, Finset.mem_union,
      Finset.mem_sdiff, mem_hashes_iff_count]
    all_goals grind
  | condemnWaiting jobs rest hw =>
    rw [hw, Multiset.map_add, Multiset.count_add, Multiset.map_coe, Multiset.coe_count] at hwaiting
    constructor <;> simp only [count_active, Finset.mem_union, Finset.mem_sdiff, mem_hashes_iff_count]
    all_goals grind
  | takeOut jobs ready hsub hperm =>
    have hcount := congrArg (fun m => (m.map Job.hash).count h) hperm
    simp only [Multiset.map_coe, Multiset.coe_count, Multiset.map_add, Multiset.count_add] at hcount
    constructor <;> simp only [count_active, Multiset.map_add, Multiset.count_add, Multiset.map_coe,
      Multiset.coe_count]
    all_goals grind
  | condemn j rest hp =>
    rw [hp, Multiset.map_cons, Multiset.count_cons] at hready
    constructor <;> simp only [count_active, Finset.mem_erase, Finset.mem_insert]
    all_goals grind
  | blame x h₁ h₂ h₃ =>
    constructor <;> simp only [count_active, Finset.mem_insert]
    all_goals grind
  | report hs hdisj hopen =>
    have := Finset.disjoint_left.1 hdisj
    constructor <;> simp only [count_active, Finset.mem_union]
    all_goals grind
  | settle hdisj =>
    have := Finset.disjoint_left.1 hdisj
    constructor <;> simp only [count_active]
    all_goals grind
  | deliver j ready hr hrep =>
    rw [hr, map_cons, count_cons] at hready
    constructor <;> simp only [count_active, Finset.mem_erase, Finset.mem_insert]
    all_goals grind
  | close =>
    constructor <;> simp only [count_active]
    all_goals grind
  | clear _ hp =>
    constructor <;> simp [count_active, hp]
  | relabel l l' x p p' hr hp =>
    simp only [hr, map_append, map_cons] at hready
    constructor <;> simp only [count_active, map_append, map_cons]
    all_goals grind
  | learn known hk =>
    constructor <;> simp only [count_active]
    all_goals grind

/-! ### Order -/

/-- No job comes before its parent, if that comes at all. -/
def InOrder (l : List (Job H)) : Prop :=
  ∀ l₁ j l₂, l = l₁ ++ j :: l₂ → j.parent ∈ hashes l → j.parent ∈ hashes l₁

structure Ordered (t : Track H) : Prop where
  /-- A parent that is not there will not come any more. -/
  closed : ∀ j ∈ t.delivered ++ t.ready, j.parent ∈ hashes t.delivered ∨ j.parent ∈ t.readySet ∨
    j.parent ∈ t.bad ∨ t.known j.parent ∧ j.parent ∉ t.waitingSet
  opened : t.openSet ⊆ hashes t.delivered
  ready : t.ready.Pairwise fun j k => k.hash = j.parent → k.hash ∈ hashes t.delivered
  self : ∀ j ∈ t.ready, j.hash ≠ j.parent
  later : ∀ j ∈ t.delivered, ∀ k ∈ t.ready, k.hash = j.parent → k.hash ∈ hashes t.delivered
  delivered : InOrder t.delivered
  admitted : ∀ h ∉ t.bad, (t.delivered.map Job.hash).count h + t.active.count h = t.admitted.count h

theorem InOrder.concat {l : List (Job H)} {j : Job H} (h : InOrder l) (hself : j.hash ≠ j.parent)
    (hlater : ∀ k ∈ l, k.parent = j.hash → j.hash ∈ hashes l) : InOrder (l ++ [j]) := by
  intro l₁ k l₂ heq hk
  have hk' : k.parent ∈ hashes l ∨ k.parent = j.hash := by simpa [or_and_right, exists_or, eq_comm] using hk
  rcases eq_nil_or_concat l₂ with rfl | ⟨l₂, x, rfl⟩
  · obtain ⟨rfl, heq⟩ := append_inj' heq rfl
    obtain rfl : j = k := by simpa using heq
    exact hk'.resolve_right hself.symm
  · have heq : l ++ [j] = (l₁ ++ k :: l₂) ++ [x] := by simpa using heq
    obtain ⟨rfl, -⟩ := append_inj' heq rfl
    refine h l₁ k l₂ rfl (hk'.elim id fun hp => ?_)
    rw [hp]
    exact hlater k (by simp) hp

/-- A job that is yet to come, or still waits, is not missed by those already there. -/
theorem Ordered.mem_delivered (ho : Ordered t) {h : H} (hready : h ∉ t.readySet) (hbad : h ∉ t.bad)
    (hknown : t.known h → h ∈ t.waitingSet) {j : Job H} (hj : j ∈ t.delivered ++ t.ready) (hp : h = j.parent) :
    h ∈ hashes t.delivered := by
  subst hp
  rcases ho.closed j hj with h | h | h | ⟨hk, hw⟩
  · exact h
  · exact absurd h hready
  · exact absurd h hbad
  · exact absurd (hknown hk) hw

theorem Ordered.closed_of_settled (ho : Ordered t) {p : H} (hp : t.Settled p) :
    p ∈ hashes t.delivered ∨ p ∈ t.readySet ∨ p ∈ t.bad ∨ t.known p ∧ p ∉ t.waitingSet := by
  rcases hp with h | h | h
  · exact .inr (.inl h)
  · exact .inl (ho.opened h)
  · exact .inr (.inr (.inr h))

theorem Ordered.move (ho : Ordered t) (ht : Consistent t) (hm : Move True t t') : Ordered t' := by
  cases hm with
  | accept j hfresh hknown hp =>
    obtain ⟨h₁, h₂, h₃, h₄⟩ := hfresh
    have hmiss : ∀ k ∈ t.delivered ++ t.ready, j.hash = k.parent → j.hash ∈ hashes t.delivered :=
      fun k hk => ho.mem_delivered h₁ h₄ (fun h => absurd h (hknown trivial)) hk
    have hself : j.hash ≠ j.parent := by
      intro heq
      rcases hp trivial with h | h | h
      · exact h₁ (heq ▸ h)
      · exact h₃ (heq ▸ h)
      · exact hknown trivial (heq ▸ h.1)
    refine { ho with closed := ?_, ready := ?_, self := ?_, later := ?_, admitted := ?_ }
    · intro k hk
      rw [← append_assoc, mem_append, mem_singleton] at hk
      have : k.parent ∈ hashes t.delivered ∨ k.parent ∈ t.readySet ∨ k.parent ∈ t.bad ∨
          t.known k.parent ∧ k.parent ∉ t.waitingSet := by
        rcases hk with hk | rfl
        · exact ho.closed k hk
        · exact ho.closed_of_settled (hp trivial)
      exact this.imp_right (Or.imp_left (Finset.mem_insert_of_mem))
    · refine pairwise_append.2 ⟨ho.ready, pairwise_singleton _ _, fun k hk u hu heq => ?_⟩
      obtain rfl := mem_singleton.1 hu
      exact hmiss k (mem_append_right _ hk) heq
    · intro k hk
      rcases mem_append.1 hk with hk | hk
      · exact ho.self k hk
      · rwa [mem_singleton.1 hk]
    · intro k hk u hu heq
      rcases mem_append.1 hu with hu | hu
      · exact ho.later k hk u hu heq
      · obtain rfl := mem_singleton.1 hu
        exact hmiss k (mem_append_left _ hk) heq
    · intro h hh
      have := ho.admitted h hh
      simp only [count_active, map_append, count_append, map_cons, map_nil] at this ⊢
      omega
  | hold j hfresh hknown =>
    refine { ho with closed := fun k hk => (ho.closed k hk).imp_right (Or.imp_right (Or.imp_right ?_)) }
    intro ⟨hk, hw⟩
    refine ⟨hk, fun hmem => ?_⟩
    rcases Finset.mem_insert.1 hmem with heq | hmem
    · exact hknown trivial (heq ▸ hk)
    · exact hw hmem
  | release jobs rest hw hp =>
    have hwaiting : ∀ j ∈ jobs, j.hash ∈ t.waitingSet := by
      intro j hj
      have hcount := (ht j.hash).waiting
      have hpos : 0 < (t.waiting.map Job.hash).count j.hash :=
        Multiset.count_pos.2 (Multiset.mem_map_of_mem _ (by simp [hw, hj]))
      by_contra hmem
      rw [if_neg hmem] at hcount
      omega
    have hmiss : ∀ j ∈ jobs, ∀ k ∈ t.delivered ++ t.ready, j.hash = k.parent → j.hash ∈ hashes t.delivered :=
      fun j hj k hk => ho.mem_delivered (fun h => (ht _).readyWaiting h (hwaiting j hj))
        ((ht _).waitingBad (hwaiting j hj)) (fun _ => hwaiting j hj) hk
    have hnew : ∀ j ∈ jobs, ∀ k ∈ jobs, k.hash ≠ j.parent := by
      intro j hj k hk heq
      have hk := hwaiting k hk
      rw [heq] at hk
      rcases hp trivial j hj with h | h | h
      · exact (ht _).readyWaiting h hk
      · exact (ht _).waitingOpen hk h
      · exact h.2 hk
    refine { ho with closed := ?_, ready := ?_, self := ?_, later := ?_, admitted := ?_ }
    · intro k hk
      have : k.parent ∈ hashes t.delivered ∨ k.parent ∈ t.readySet ∨ k.parent ∈ t.bad ∨
          t.known k.parent ∧ k.parent ∉ t.waitingSet := by
        rw [← append_assoc, mem_append] at hk
        rcases hk with hk | hk
        · exact ho.closed k hk
        · exact ho.closed_of_settled (hp trivial k hk)
      refine this.imp_right (Or.imp (Finset.mem_union_left _) (Or.imp_right fun ⟨h, h'⟩ => ⟨h, fun hm => ?_⟩))
      exact h' (Finset.mem_sdiff.1 hm).1
    · refine pairwise_append.2 ⟨ho.ready, ?_, fun k hk u hu heq => ?_⟩
      · exact pairwise_of_forall_mem_list fun j hj k hk heq => absurd heq (hnew j hj k hk)
      · exact hmiss u hu k (mem_append_right _ hk) heq
    · intro k hk
      rcases mem_append.1 hk with hk | hk
      · exact ho.self k hk
      · exact hnew k hk k hk
    · intro k hk u hu heq
      rcases mem_append.1 hu with hu | hu
      · exact ho.later k hk u hu heq
      · exact hmiss u hu k (mem_append_left _ hk) heq
    · intro h hh
      have := ho.admitted h hh
      simp only [count_active, map_append, count_append] at this ⊢
      omega
  | condemnWaiting jobs rest hw =>
    refine { ho with closed := fun k hk => ?_, admitted := fun h hh => ?_ }
    · refine (ho.closed k hk).imp_right (Or.imp_right (Or.imp (Finset.mem_union_left _) fun ⟨h, h'⟩ =>
        ⟨h, fun hm => h' (Finset.mem_sdiff.1 hm).1⟩))
    · exact ho.admitted h fun hm => hh (Finset.mem_union_left _ hm)
  | takeOut jobs ready hsub hperm =>
    have hmem : ∀ {k}, k ∈ ready → k ∈ t.ready := fun hk => hsub.subset hk
    refine { ho with closed := ?_, ready := ho.ready.sublist hsub, self := ?_, later := ?_, admitted := ?_ }
    · exact fun k hk => ho.closed k (mem_append.2 ((mem_append.1 hk).imp_right hmem))
    · exact fun k hk => ho.self k (hmem hk)
    · exact fun k hk u hu => ho.later k hk u (hmem hu)
    · intro h hh
      have hcount := congrArg (fun m => (m.map Job.hash).count h) hperm
      have := ho.admitted h hh
      simp only [Multiset.map_coe, Multiset.coe_count, Multiset.map_add, Multiset.count_add, count_active] at this hcount ⊢
      omega
  | condemn j rest hp =>
    refine { ho with closed := fun k hk => ?_, admitted := fun h hh => ?_ }
    · rcases ho.closed k hk with h | h | h | h
      · exact .inl h
      · by_cases heq : k.parent = j.hash
        · exact .inr (.inr (.inl (heq ▸ Finset.mem_insert_self _ _)))
        · exact .inr (.inl (Finset.mem_erase.2 ⟨heq, h⟩))
      · exact .inr (.inr (.inl (Finset.mem_insert_of_mem h)))
      · exact .inr (.inr (.inr h))
    · have hne : h ≠ j.hash := fun heq => hh (heq ▸ Finset.mem_insert_self _ _)
      have := ho.admitted h fun hm => hh (Finset.mem_insert_of_mem hm)
      simpa [count_active, hp, Multiset.count_cons_of_ne hne] using this
  | blame x h₁ h₂ h₃ =>
    exact { ho with
      closed := fun k hk => (ho.closed k hk).imp_right (Or.imp_right (Or.imp_left Finset.mem_insert_of_mem))
      admitted := fun h hh => ho.admitted h fun hm => hh (Finset.mem_insert_of_mem hm) }
  | report hs hdisj hopen =>
    exact { ho with
      closed := fun k hk => (ho.closed k hk).imp_right (Or.imp_right (Or.imp_left (Finset.mem_union_left _)))
      admitted := fun h hh => ho.admitted h fun hm => hh (Finset.mem_union_left _ hm) }
  | settle hdisj => exact { ho with }
  | deliver j ready hr hrep =>
    obtain ⟨hpair, hready⟩ := pairwise_cons.1 (hr ▸ ho.ready)
    have hj : j ∈ t.ready := by simp [hr]
    have hmem : ∀ {k}, k ∈ ready → k ∈ t.ready := fun hk => by simp [hr, hk]
    have hmono : ∀ {x}, x ∈ hashes t.delivered → x ∈ hashes (t.delivered ++ [j]) := fun hx => by
      obtain ⟨k, hk, rfl⟩ := mem_hashes.1 hx
      exact mem_hashes.2 ⟨k, mem_append_left _ hk, rfl⟩
    have hnow : j.hash ∈ hashes (t.delivered ++ [j]) := mem_hashes.2 ⟨j, by simp, rfl⟩
    refine ⟨?_, ?_, ?_, fun k hk => ho.self k (hmem hk), ?_, ?_, ?_⟩
    · intro k hk
      have hk : k ∈ t.delivered ++ t.ready := by simpa [hr, or_assoc, or_left_comm] using hk
      rcases ho.closed k hk with h | h | h | h
      · exact .inl (hmono h)
      · by_cases heq : k.parent = j.hash
        · exact .inl (heq ▸ hnow)
        · exact .inr (.inl (Finset.mem_erase.2 ⟨heq, h⟩))
      · exact .inr (.inr (.inl h))
      · exact .inr (.inr (.inr h))
    · intro x hx
      rcases Finset.mem_insert.1 hx with rfl | hx
      · exact hnow
      · exact hmono (ho.opened hx)
    · exact hready.imp fun h heq => hmono (h heq)
    · intro k hk u hu heq
      rcases mem_append.1 hk with hk | hk
      · exact hmono (ho.later k hk u (hmem hu) heq)
      · obtain rfl := mem_singleton.1 hk
        exact hmono (hpair u hu heq)
    · refine ho.delivered.concat (ho.self j hj) fun k hk hp => ho.later k hk j hj hp.symm
    · intro h hh
      have := ho.admitted h hh
      simp only [count_active, hr, map_append, count_append, map_cons, map_nil,
        count_cons, count_nil] at this ⊢
      omega
  | close => exact { ho with opened := Finset.empty_subset _ }
  | clear h => exact absurd trivial h
  | relabel l l' x p p' hr hp =>
    obtain rfl := hp trivial
    rw [← hr]
    exact ho
  | learn known hk =>
    exact { ho with
      closed := fun j hj => (ho.closed j hj).imp_right (Or.imp_right (Or.imp_right (And.imp_left (hk _)))) }

/-! ### Runs of moves -/

abbrev Moves (strict : Prop) : Track H → Track H → Prop := ReflTransGen (Move strict)

theorem Move.bad_subset (hm : Move strict t t') : t.bad ⊆ t'.bad := by
  cases hm with
  | condemnWaiting => exact Finset.subset_union_left
  | condemn => exact Finset.subset_insert _ _
  | blame => exact Finset.subset_insert _ _
  | report => exact Finset.subset_union_left
  | _ => exact Finset.Subset.refl _

theorem bad_subset_of_moves (hm : Moves strict t t') : t.bad ⊆ t'.bad := by
  induction hm with
  | refl => exact Finset.Subset.refl _
  | tail _ hm ih => exact ih.trans hm.bad_subset

theorem Consistent.moves (ht : Consistent t) (hm : Moves strict t t') : Consistent t' := by
  induction hm with
  | refl => exact ht
  | tail _ hm ih => exact ih.move hm

theorem Ordered.moves (ho : Ordered t) (ht : Consistent t) (hm : Moves True t t') : Ordered t' := by
  induction hm with
  | refl => exact ho
  | tail hms hm ih => exact ih.move (ht.moves hms) hm

end JobTrack
