import Mathlib.Data.List.Iterate
import Kmdx.Chain.BlockChain

/-!
# What an insertion does

Reading the details of a block only loads them. So what `import` and `insert` leave behind is what was there,
but for the block, the details of the block and of its parent, and if the block is the best one, for the
index (`Inserts`).
-/

namespace Kmdx.Chain

open Wp

set_option linter.unusedSectionVars false

variable {H : Type} [DecidableEq H] [BlockSha3 H]

namespace BlockChain

/-- What `details` answers. -/
def detailsOf (s : BlockChain H) (h : H) : BlockDetails H := (s.extraDetails.get h).getD nullBlockDetails

/-- What `isKnown` answers. -/
def known (s : BlockChain H) (h : H) (isCurrent : Bool) : Bool :=
  h = s.genesisHash ∨ (s.blocks h).isSome ∧ (s.extraDetails.get h).isSome ∧
    (isCurrent = true → (s.detailsOf h).number ≤ s.lastBlockNumber)

/-- Some details have been read. -/
structure Loads (s t : BlockChain H) : Prop where
  details : s.extraDetails.Loads t.extraDetails
  rest : t = { s with extraDetails := t.extraDetails }

variable {s t u : BlockChain H}

theorem Loads.refl (s : BlockChain H) : Loads s s := ⟨.refl _, rfl⟩

theorem Loads.trans (h : Loads s t) (h' : Loads t u) : Loads s u := by
  refine ⟨h.details.trans h'.details, ?_⟩
  rw [h'.rest, h.rest]

theorem loads_query (s : BlockChain H) (h : H) : Loads s { s with extraDetails := s.extraDetails.query h } :=
  ⟨s.extraDetails.loads_query h, rfl⟩

theorem Loads.get_eq (h : Loads s t) (x : H) : t.extraDetails.get x = s.extraDetails.get x := h.details.get_eq x

theorem Loads.detailsOf (h : Loads s t) (x : H) : t.detailsOf x = s.detailsOf x := by
  rw [BlockChain.detailsOf, BlockChain.detailsOf, h.get_eq]

/-! ### Calls that only load -/

/-- `x` returns `a` with `R a`, or throws, and only loads. -/
abbrev Reads {α : Type} (x : M H α) (R : α → Prop) (s : BlockChain H) : Prop :=
  wp x (fun a t => Loads s t ∧ R a) (fun _ t => Loads s t) s

theorem Reads.bind {α β : Type} {x : M H α} {f : α → M H β} {R : α → Prop} {Q : β → BlockChain H → Prop}
    {E : Exn → BlockChain H → Prop} (hx : Reads x R s) (hf : ∀ a t, Loads s t → R a → wp (f a) Q E t)
    (hE : ∀ e t, Loads s t → E e t) : wp (x >>= f) Q E s :=
  (wp_bind x f).2 (wp_mono hx (fun a t ht => hf a t ht.1 ht.2) hE)

/-- A sequence of calls that only load. -/
theorem Reads.seq {α β : Type} {x : M H α} {f : α → M H β} {R : α → Prop} {R' : β → Prop} (hx : Reads x R s)
    (hf : ∀ a t, Loads s t → R a → Reads (f a) R' t) : Reads (x >>= f) R' s :=
  hx.bind (fun a t ht ha => wp_mono (hf a t ht ha) (fun _ _ hu => ⟨ht.trans hu.1, hu.2⟩) fun _ _ hu => ht.trans hu)
    fun _ _ => id

theorem reads_details (h : H) : Reads (details h) (fun d => d = s.detailsOf h) s := ⟨loads_query s h, rfl⟩

theorem reads_isKnown (h : H) (isCurrent : Bool) : Reads (isKnown h isCurrent) (fun k => k = s.known h isCurrent) s := by
  unfold isKnown
  simp only [Reads, wp_bind, wp_get, wp_ite]
  split
  · rename_i hgenesis
    exact ⟨.refl s, by simp [known, hgenesis]⟩
  · rename_i hgenesis
    split
    · rename_i hblocks
      exact ⟨.refl s, by simp [known, hgenesis, hblocks]⟩
    · rename_i hblocks
      split
      · rename_i hdetails
        exact ⟨.refl s, by simp_all [known]⟩
      · rename_i hdetails
        have hblocks : (s.blocks h).isSome = true := Option.isSome_iff_ne_none.2 hblocks
        have hdetails : (s.extraDetails.get h).isSome = true :=
          Option.isSome_iff_ne_none.2 (by simpa using hdetails)
        split
        · rename_i hcurrent
          exact ⟨.refl s, by simp_all [known]⟩
        · rename_i hcurrent
          refine (reads_details h).bind (fun d t ht hd => ⟨ht, ?_⟩) fun _ _ ht => ht
          simp_all [known]

theorem reads_block (h : H) : Reads (block h)
    (fun b => h = s.genesisHash ∧ b = s.genesis ∨ h ≠ s.genesisHash ∧ s.blocks h = some b) s := by
  unfold block
  simp only [Reads, wp_bind, wp_get, wp_ite]
  split
  · rename_i hh
    exact ⟨.refl s, .inl ⟨hh, rfl⟩⟩
  · rename_i hh
    cases hb : s.blocks h with
    | none => exact .refl s
    | some b => exact ⟨.refl s, .inr ⟨hh, rfl⟩⟩

/-! ### Routes -/

def parentOf (s : BlockChain H) (h : H) : H := (s.detailsOf h).parent

theorem Loads.parentOf (h : Loads s t) : t.parentOf = s.parentOf := by
  funext x
  rw [BlockChain.parentOf, BlockChain.parentOf, h.detailsOf]

theorem reads_climb (k : Nat) (h : H) :
    Reads (climb k h) (fun r => r = (List.iterate s.parentOf h k, s.parentOf^[k] h)) s := by
  induction k generalizing s h with
  | zero => exact ⟨.refl s, rfl⟩
  | succ k ih =>
    refine (reads_details h).seq fun d t ht hd => (ih d.parent).seq fun r u hu hr => ⟨.refl u, ?_⟩
    rw [hr, hd, ht.parentOf]
    rfl

/-- `i` steps from `x`, and `i` from `y`, the two sides meet, if they do within `k`. -/
structure Meeting (s : BlockChain H) (x y : H) (k i : Nat) : Prop where
  le : i ≤ k
  eq : s.parentOf^[i] x = s.parentOf^[i] y ∨ i = k

theorem reads_meet (k : Nat) (x y : H) : Reads (meet k x y) (fun r => ∃ i, s.Meeting x y k i ∧
    r = (List.iterate s.parentOf x (i + 1), List.iterate s.parentOf y i, s.parentOf^[i] x)) s := by
  induction k generalizing s x y with
  | zero => exact ⟨.refl s, 0, ⟨le_refl _, .inr rfl⟩, rfl⟩
  | succ k ih =>
    unfold meet
    simp only [Reads, wp_ite]
    split
    · rename_i heq
      exact ⟨.refl s, 0, ⟨Nat.zero_le _, .inl heq⟩, rfl⟩
    · refine (reads_details x).seq fun d t ht hd => (reads_details y).seq fun d' u hu hd' => ?_
      refine (ih d.parent d'.parent).seq fun r v hv hr => ⟨.refl v, ?_⟩
      obtain ⟨i, hmeeting, hr⟩ := hr
      have hparent : u.parentOf = s.parentOf := hu.parentOf.trans ht.parentOf
      have hx : d.parent = s.parentOf x := by rw [hd]; rfl
      have hy : d'.parent = s.parentOf y := by rw [hd', ht.detailsOf]; rfl
      rw [hx, hy] at hmeeting hr
      refine ⟨i + 1, ⟨Nat.succ_le_succ hmeeting.le, ?_⟩, ?_⟩
      · have heq := hmeeting.eq
        rw [hparent] at heq
        exact heq.imp_right (congrArg Nat.succ)
      · rw [hr, hparent]
        rfl

/-- What the route from `x` to `y` is, if both are in the database: `i` steps from `x`, and `j` back to `y`. -/
structure IsRoute (s : BlockChain H) (x y : H) (r : List H × H × Nat) (i j : Nat) : Prop where
  route : r.1 = List.iterate s.parentOf x (i + 1) ++ (List.iterate s.parentOf y j).reverse
  common : r.2.1 = s.parentOf^[i] x
  level : (s.detailsOf x).number + j = (s.detailsOf y).number + i
  le : i ≤ (s.detailsOf x).number
  eq : s.parentOf^[i] x = s.parentOf^[j] y ∨ i = (s.detailsOf x).number

theorem reads_treeRoute (x y : H) : Reads (treeRoute x y) (fun r => x ≠ 0 → y ≠ 0 →
    (s.detailsOf x).isNull = false → (s.detailsOf y).isNull = false → ∃ i j, s.IsRoute x y r i j) s := by
  unfold treeRoute
  simp only [Reads, wp_ite]
  split
  · rename_i hzero
    exact ⟨.refl s, fun hx hy => absurd hzero (not_or.2 ⟨hx, hy⟩)⟩
  refine (reads_details x).seq fun d t ht hd => (reads_details y).seq fun d' u hu hd' => ?_
  have hu := ht.trans hu
  rw [ht.detailsOf] at hd'
  subst hd hd'
  simp only [Reads, wp_ite]
  split
  · rename_i hnull
    exact ⟨.refl u, fun _ _ hx hy => by simp [hx, hy] at hnull⟩
  refine (reads_climb _ x).seq fun r v hv hr => (reads_climb _ y).seq fun r' w hw hr' => ?_
  refine (reads_meet _ r.2 r'.2).seq fun m w' hw' hm => ⟨.refl w', fun _ _ _ _ => ?_⟩
  obtain ⟨i, hmeeting, hm⟩ := hm
  have hparentv : v.parentOf = s.parentOf := (hu.trans hv).parentOf
  have hparentw : w.parentOf = s.parentOf := ((hu.trans hv).trans hw).parentOf
  rw [hu.parentOf] at hr
  rw [hparentv] at hr'
  rw [hparentw, hr, hr'] at hm
  have heq := hmeeting.eq
  have hle := hmeeting.le
  rw [hparentw, hr, hr', ← Function.iterate_add_apply, ← Function.iterate_add_apply] at heq
  let fn := (s.detailsOf x).number
  let tn := (s.detailsOf y).number
  have hret : r.1 ++ m.1 = List.iterate s.parentOf x (fn - tn + i + 1) := by
    rw [hm, hr, Nat.add_assoc]
    exact (List.iterate_add ..).symm
  have hback : r'.1 ++ m.2.1 = List.iterate s.parentOf y (tn - fn + i) := by
    rw [hm, hr']
    exact (List.iterate_add ..).symm
  have hcommon : m.2.2 = s.parentOf^[fn - tn + i] x := by
    rw [hm, Nat.add_comm (fn - tn)]
    exact (Function.iterate_add_apply ..).symm
  refine ⟨fn - tn + i, tn - fn + i, by rw [← hret, ← hback], hcommon, by omega, by omega, ?_⟩
  rw [Nat.add_comm (fn - tn), Nat.add_comm (tn - fn)]
  exact heq.imp_right fun h => by omega

/-! ### Insertion -/

/-- The details of the parent, with one child more. -/
def withChild (s : BlockChain H) (b : VerifiedBlockRef H) : BlockDetails H :=
  { s.detailsOf b.parentHash with children := (s.detailsOf b.parentHash).children ++ [hash b] }

/-- The child has been pushed, which is not in the database yet. -/
def pushed (s : BlockChain H) (b : VerifiedBlockRef H) : BlockChain H :=
  { s with extraDetails := (s.extraDetails.query b.parentHash).edit b.parentHash (s.withChild b) }

/-- The block is stored, and the details of it and of its parent are. -/
def stored (s : BlockChain H) (b : VerifiedBlockRef H) (parentDetails details : BlockDetails H) : BlockChain H :=
  { s with
    blocks := Function.update s.blocks (hash b) (some b)
    extraDetails := (s.extraDetails.put b.parentHash parentDetails).put (hash b) details }

/-- What `newOrBlock` gives for `h`. -/
def IsBlock (s : BlockChain H) (new : VerifiedBlockRef H) (h : H) (tbi : VerifiedBlockRef H) : Prop :=
  h = hash new ∧ tbi = new ∨
    h ≠ hash new ∧ (h = s.genesisHash ∧ tbi = s.genesis ∨ h ≠ s.genesisHash ∧ s.blocks h = some tbi)

theorem Loads.isBlock {new tbi : VerifiedBlockRef H} {h : H} (ht : Loads s t) (hb : t.IsBlock new h tbi) :
    s.IsBlock new h tbi := by
  rw [ht.rest] at hb
  exact hb

theorem reads_newOrBlock (new : VerifiedBlockRef H) (h : H) : Reads (newOrBlock new h) (s.IsBlock new h) s := by
  rw [newOrBlock, Reads, wp_ite]
  split
  · rename_i hh
    exact ⟨.refl s, .inl ⟨hh, rfl⟩⟩
  · rename_i hh
    exact wp_mono (reads_block h) (fun _ _ ht => ⟨ht.1, .inr ⟨hh, ht.2⟩⟩) fun _ _ ht => ht

theorem reads_canonize (new : VerifiedBlockRef H) (hs : List H) : Reads (canonize new hs)
    (fun ws => ∃ bs, List.Forall₂ (s.IsBlock new) hs bs ∧ ws = bs.flatMap canonWrites) s := by
  induction hs generalizing s with
  | nil => exact ⟨.refl s, [], .nil, rfl⟩
  | cons h hs ih =>
    refine (reads_newOrBlock new h).seq fun tbi t ht htbi => ih.seq fun ws u hu hws => ⟨.refl u, ?_⟩
    obtain ⟨bs, hbs, rfl⟩ := hws
    exact ⟨tbi :: bs, .cons htbi (hbs.imp fun _ _ => ht.isBlock), rfl⟩

/-- A block of this total difficulty may be the head. -/
def Better (s : BlockChain H) (totalDifficulty : U256) : Prop :=
  totalDifficulty > (s.detailsOf s.lastBlockHash).totalDifficulty ∨
    s.tieBreakingGas = true ∧ totalDifficulty = (s.detailsOf s.lastBlockHash).totalDifficulty

theorem reads_isBest (b : VerifiedBlockRef H) (td : U256) : Reads (isBest b td s.lastBlockHash)
    (fun best => if best then s.Better td else td ≤ (s.detailsOf s.lastBlockHash).totalDifficulty) s := by
  unfold isBest
  refine (reads_details _).seq fun d t ht hd => ?_
  subst hd
  simp only [Reads, wp_ite]
  split
  · rename_i hgt
    exact ⟨.refl t, .inl hgt⟩
  · rename_i hle
    have hle : td ≤ (s.detailsOf s.lastBlockHash).totalDifficulty := BitVec.not_lt.1 hle
    rw [wp_bind, wp_get, wp_ite]
    split
    · rename_i htie
      have hbreaking : s.tieBreakingGas = true := by
        have htie := htie.1
        rw [ht.rest] at htie
        exact htie
      refine (reads_block _).seq fun last u hu _ => ⟨.refl u, ?_⟩
      dsimp only
      split
      · exact .inr ⟨hbreaking, htie.2⟩
      · exact hle
    · exact ⟨.refl t, hle⟩

/-- The caches may have been cleared after that. -/
def LoadsCleared (s t : BlockChain H) : Prop := ∃ u, Loads s u ∧ (t = u ∨ ∃ first, t = u.cleared first)

/-- With the caches cleared from the common block on, if it is not the last one. -/
def reverted (u : BlockChain H) (common : H) : BlockChain H :=
  if common ≠ u.lastBlockHash then u.cleared (((u.detailsOf common).number + 1) % 2 ^ 32) else u

theorem loadsCleared_reverted {common : H} (h : Loads s t) : s.LoadsCleared (t.reverted common) := by
  unfold reverted
  split
  · exact ⟨t, h, .inr ⟨_, rfl⟩⟩
  · exact ⟨t, h, .inl rfl⟩

/-- What is loaded after that might have been loaded before. -/
theorem Loads.reverted {common : H} (h : Loads (s.reverted common) t) : ∃ u, Loads s u ∧ t = u.reverted common := by
  unfold BlockChain.reverted at h ⊢
  split at h
  · rename_i hne
    have hload : Loads s { s with extraDetails := t.extraDetails } := ⟨h.details, rfl⟩
    refine ⟨_, hload, ?_⟩
    rw [if_pos hne, hload.detailsOf]
    exact h.rest
  · rename_i heq
    exact ⟨t, h, by rw [h.rest, if_neg heq]⟩

theorem isBlock_reverted {common h : H} {new tbi : VerifiedBlockRef H} :
    (s.reverted common).IsBlock new h tbi ↔ s.IsBlock new h tbi := by
  unfold reverted
  split <;> rfl

theorem wp_clearIfReverted (common : H) : wp (clearIfReverted s.lastBlockHash common)
    (fun _ t => ∃ u, Loads s u ∧ t = u.reverted common) (fun _ t => s.LoadsCleared t) s := by
  unfold clearIfReverted
  rw [wp_ite]
  split
  · rename_i hne
    unfold numberOf
    rw [bind_assoc]
    refine (reads_details common).bind (fun d t ht hd => ⟨t, ht, ?_⟩) fun _ t ht => ⟨t, ht, .inl rfl⟩
    have hlast : t.lastBlockHash = s.lastBlockHash := by rw [ht.rest]
    rw [BlockChain.reverted, hlast, if_pos hne, ht.detailsOf, hd]
  · rename_i heq
    exact ⟨s, .refl s, by rw [BlockChain.reverted, if_neg heq]⟩

/-- What `reindex` finds, and what it leaves behind but for the caches it clears. -/
structure Reindexed (s : BlockChain H) (b : VerifiedBlockRef H) (r : List H × H × Nat) (bs : List (VerifiedBlockRef H))
    (u : BlockChain H) : Prop where
  loads : Loads s u
  route : s.lastBlockHash ≠ 0 → b.parentHash ≠ 0 → (s.detailsOf s.lastBlockHash).isNull = false →
    (s.detailsOf b.parentHash).isNull = false → ∃ i j, s.IsRoute s.lastBlockHash b.parentHash r i j
  blocks : List.Forall₂ (s.IsBlock b) ((r.1 ++ [hash b]).reverse.takeWhile (· ≠ r.2.1)) bs

theorem wp_reindex (b : VerifiedBlockRef H) : wp (reindex b s.lastBlockHash)
    (fun ws t => ∃ r bs u, s.Reindexed b r bs u ∧ ws = bs.flatMap canonWrites ∧ t = u.reverted r.2.1)
    (fun _ t => s.LoadsCleared t) s := by
  unfold reindex
  refine (reads_treeRoute _ _).bind (fun r t ht hr => ?_) fun _ t ht => ⟨t, ht, .inl rfl⟩
  have hlast : t.lastBlockHash = s.lastBlockHash := by rw [ht.rest]
  rw [wp_bind, ← hlast]
  refine wp_mono (wp_clearIfReverted r.2.1) ?_ fun _ u ⟨v, hv, hu⟩ => ⟨v, ht.trans hv, hu⟩
  rintro _ _ ⟨u, hu, rfl⟩
  have hblocks : ∀ h tbi, (u.reverted r.2.1).IsBlock b h tbi → s.IsBlock b h tbi :=
    fun _ _ htbi => (ht.trans hu).isBlock (isBlock_reverted.1 htbi)
  refine wp_mono (reads_canonize _ _) ?_ fun _ v hv => ?_
  · rintro ws v ⟨hv, bs, hbs, rfl⟩
    obtain ⟨w, hw, rfl⟩ := hv.reverted
    exact ⟨r, bs, w, ⟨(ht.trans hu).trans hw, hr, hbs.imp hblocks⟩, rfl, rfl⟩
  · obtain ⟨w, hw, rfl⟩ := hv.reverted
    exact loadsCleared_reverted ((ht.trans hu).trans hw)

/-- The details of a block that is new, without children. -/
def newDetails (b : VerifiedBlockRef H) (totalDifficulty : U256) : BlockDetails H :=
  ⟨b.number % 2 ^ 32, totalDifficulty, b.parentHash, []⟩

def withHead (s : BlockChain H) (b : VerifiedBlockRef H) : BlockChain H :=
  if s.lastBlockHash = hash b then s else { s with lastBlockHash := hash b, lastBlockNumber := b.number % 2 ^ 32 }

/-- What `insertBlockAndExtras` makes of `s`. -/
inductive Inserts (s : BlockChain H) (b : VerifiedBlockRef H) (td : U256) : BlockChain H → Prop
  | side (c : BlockChain H) : Loads (s.pushed b) c → td ≤ (s.detailsOf s.lastBlockHash).totalDifficulty →
    Inserts s b td (c.stored b (s.withChild b) (newDetails b td))
  | best (c u : BlockChain H) (r : List H × H × Nat) (bs : List (VerifiedBlockRef H)) : Loads (s.pushed b) c →
    s.Better td → c.Reindexed b r bs u →
    Inserts s b td (((bs.flatMap canonWrites).foldl commit
      ((u.reverted r.2.1).stored b (s.withChild b) (newDetails b td))).withHead b)

theorem totalDifficulty_detailsOf_pushed (b : VerifiedBlockRef H) (h : H) :
    ((s.pushed b).detailsOf h).totalDifficulty = (s.detailsOf h).totalDifficulty := by
  by_cases hh : h = b.parentHash
  · subst hh
    rw [detailsOf, pushed, Cached.get_edit_self]
    rfl
  · rw [detailsOf, pushed, Cached.get_edit_of_ne hh, (s.extraDetails.loads_query b.parentHash).get_eq]
    rfl

/-- The details of the parent are cached when the child is pushed. -/
theorem wp_pushChild (b : VerifiedBlockRef H) :
    wp (pushChild b.parentHash (hash b)) (fun d t => t = s.pushed b ∧ d = s.withChild b) (fun _ _ => False)
      { s with extraDetails := s.extraDetails.query b.parentHash } := by
  have hcache : (s.extraDetails.query b.parentHash).cache b.parentHash = s.extraDetails.get b.parentHash :=
    Cached.cache_query_self
  unfold pushChild
  rw [wp_bind, wp_get]
  simp only [hcache]
  exact ⟨rfl, rfl⟩

theorem wp_insertBlockAndExtras (b : VerifiedBlockRef H) (td : U256) : wp (insertBlockAndExtras b td)
    (fun _ t => s.Inserts b td t) (fun _ t => (s.pushed b).LoadsCleared t) s := by
  unfold insertBlockAndExtras
  rw [wp_bind, wp_get, wp_bind]
  change wp _ _ _ { s with extraDetails := s.extraDetails.query b.parentHash }
  rw [wp_bind]
  refine wp_mono (wp_pushChild b) ?_ fun _ _ h => h.elim
  rintro _ _ ⟨rfl, rfl⟩
  have hlast : (s.pushed b).lastBlockHash = s.lastBlockHash := rfl
  rw [← hlast]
  refine (reads_isBest b td).bind (fun best c hc hbest => ?_) fun _ c hc => ⟨c, hc, .inl rfl⟩
  have hlast' : c.lastBlockHash = s.lastBlockHash := by rw [hc.rest]; rfl
  have hbetter : s.Better td ↔ (s.pushed b).Better td := by
    rw [Better, Better, totalDifficulty_detailsOf_pushed]
    rfl
  cases best with
  | false =>
    refine .side c hc ?_
    rw [← totalDifficulty_detailsOf_pushed b]
    exact hbest
  | true =>
    rw [hlast, ← hlast']
    rw [if_pos rfl, wp_bind]
    refine wp_mono (wp_reindex b) ?_ fun _ _ ⟨u, hu, ht⟩ => ⟨u, hc.trans hu, ht⟩
    rintro _ _ ⟨r, bs, u, hu, rfl, rfl⟩
    simp only [wp_bind, wp_modify]
    rw [List.foldl_append]
    exact Inserts.best c u r bs hc (hbetter.2 hbest) hu

/-! ### Import -/

theorem reads_checkBlockIsNew (b : VerifiedBlockRef H) (mustBeNew : Bool) : Reads (checkBlockIsNew b mustBeNew)
    (fun _ => mustBeNew = true → s.known (hash b) true = false) s := by
  unfold checkBlockIsNew
  cases mustBeNew with
  | false => exact ⟨.refl s, fun h => by cases h⟩
  | true =>
    refine (reads_isKnown _ _).seq fun k t ht hk => ?_
    cases k with
    | true => exact .refl t
    | false => exact ⟨.refl t, fun _ => hk.symm⟩

/-- The header of the parent is `header`. -/
def ParentHeader (s : BlockChain H) (b header : VerifiedBlockRef H) : Prop :=
  b.parentHash = s.genesisHash ∧ header = s.genesis ∨
    b.parentHash ≠ s.genesisHash ∧ s.blocks b.parentHash = some header

theorem reads_verifyBlock (b : VerifiedBlockRef H) : Reads (verifyBlock b)
    (fun _ => b.number ≤ 2 ^ 32 - 1 ∧ ∃ header, s.ParentHeader b header ∧ b.number = header.number + 1) s := by
  unfold verifyBlock
  refine (reads_block b.parentHash).seq fun header t ht hheader => ?_
  simp only [Reads, wp_bind, wp_ite, wp_throw]
  split
  · exact .refl t
  · rename_i hle
    split
    · exact .refl t
    · rename_i hnumber
      exact ⟨.refl t, not_lt.1 hle, header, hheader, not_not.1 hnumber⟩

/-- What a block has been checked for when it is inserted. -/
structure Accepts (s : BlockChain H) (b : VerifiedBlockRef H) (mustBeNew valid : Bool) : Prop where
  new : mustBeNew = true → s.known (hash b) true = false
  parent : s.known b.parentHash false = true
  notNull : (s.detailsOf b.parentHash).isNull = false
  le : b.number ≤ 2 ^ 32 - 1
  number : ∃ header, s.ParentHeader b header ∧ b.number = header.number + 1
  valid : valid = true

def newTotalDifficulty (s : BlockChain H) (b : VerifiedBlockRef H) : U256 :=
  (s.detailsOf b.parentHash).totalDifficulty + b.difficulty

theorem Loads.known (ht : Loads s t) (h : H) (isCurrent : Bool) : t.known h isCurrent = s.known h isCurrent := by
  rw [BlockChain.known, BlockChain.known, ht.detailsOf, ht.get_eq]
  rw [ht.rest]
  rfl

theorem Loads.parentHeader (ht : Loads s t) {b header : VerifiedBlockRef H} (h : t.ParentHeader b header) :
    s.ParentHeader b header := by
  rw [ht.rest] at h
  exact h

theorem wp_import (b : VerifiedBlockRef H) (mustBeNew valid : Bool) : wp (import_ b mustBeNew valid)
    (fun _ t => ∃ u v, Loads s u ∧ s.Accepts b mustBeNew valid ∧ u.Inserts b (s.newTotalDifficulty b) v ∧
      t = { v with imported := hash b :: v.imported })
    (fun _ t => Loads s t ∨ ∃ u, Loads s u ∧ s.Accepts b mustBeNew valid ∧ (u.pushed b).LoadsCleared t) s := by
  unfold import_
  refine (reads_checkBlockIsNew b mustBeNew).bind (fun _ t ht hnew => ?_) fun _ t ht => .inl ht
  refine (reads_isKnown b.parentHash false).bind (fun k u hu hk => ?_) fun _ u hu => .inl (ht.trans hu)
  have hu := ht.trans hu
  rw [ht.known] at hk
  rw [wp_ite]
  split
  · exact .inl hu
  rename_i hparent
  refine (reads_details b.parentHash).bind (fun pd v hv hpd => ?_) fun _ v hv => .inl (hu.trans hv)
  have hv := hu.trans hv
  rw [hu.detailsOf] at hpd
  rw [wp_ite]
  split
  · exact .inl hv
  rename_i hnull
  refine (reads_verifyBlock b).bind (fun _ w hw hverify => ?_) fun _ w hw => .inl (hv.trans hw)
  have hw := hv.trans hw
  obtain ⟨hle, header, hheader, hnumber⟩ := hverify
  rw [wp_ite]
  split
  · exact .inl hw
  rename_i hvalid
  have haccepts : s.Accepts b mustBeNew valid :=
    ⟨hnew, by rw [← hk]; simpa using hparent, by rw [← hpd]; simpa using hnull, hle,
      ⟨header, hv.parentHeader hheader, hnumber⟩, by simpa using hvalid⟩
  rw [wp_bind]
  have htd : pd.totalDifficulty + b.difficulty = s.newTotalDifficulty b := by rw [hpd]; rfl
  rw [htd]
  refine wp_mono (wp_insertBlockAndExtras b _) ?_ fun _ x hx => .inr ⟨w, hw, haccepts, hx⟩
  exact fun _ x hx => ⟨w, x, hw, haccepts, hx, rfl⟩

/-- What `insert` makes of `s`. -/
inductive InsertsSide (s : BlockChain H) (b : VerifiedBlockRef H) : BlockChain H → Prop
  | present (c : BlockChain H) : Loads s c → hash b ∈ (s.detailsOf b.parentHash).children →
    InsertsSide s b (c.stored b (s.detailsOf b.parentHash)
      ⟨(s.detailsOf b.parentHash).number + 1, s.newTotalDifficulty b, b.parentHash, []⟩)
  | absent (c : BlockChain H) : Loads s c → hash b ∉ (s.detailsOf b.parentHash).children →
    InsertsSide s b ((c.pushed b).stored b (s.withChild b)
      ⟨(s.detailsOf b.parentHash).number + 1, s.newTotalDifficulty b, b.parentHash, []⟩)

theorem wp_insert (b : VerifiedBlockRef H) (mustBeNew validReceipts valid : Bool) :
    wp (insert b mustBeNew validReceipts valid) (fun _ t => s.Accepts b mustBeNew valid ∧ s.InsertsSide b t)
      (fun _ t => Loads s t) s := by
  unfold insert
  refine (reads_checkBlockIsNew b mustBeNew).bind (fun _ t ht hnew => ?_) fun _ t ht => ht
  refine (reads_isKnown b.parentHash false).bind (fun k u hu hk => ?_) fun _ u hu => ht.trans hu
  have hu := ht.trans hu
  rw [ht.known] at hk
  rw [wp_ite]
  split
  · exact hu
  rename_i hparent
  rw [wp_ite]
  split
  · exact hu
  refine (reads_details b.parentHash).bind (fun pd v hv hpd => ?_) fun _ v hv => hu.trans hv
  have hv := hu.trans hv
  rw [hu.detailsOf] at hpd
  rw [wp_ite]
  split
  · exact hv
  rename_i hnull
  refine (reads_verifyBlock b).bind (fun _ w hw hverify => ?_) fun _ w hw => hv.trans hw
  have hw := hv.trans hw
  obtain ⟨hle, header, hheader, hnumber⟩ := hverify
  rw [wp_ite]
  split
  · exact hw
  rename_i hvalid
  have haccepts : s.Accepts b mustBeNew valid :=
    ⟨hnew, by rw [← hk]; simpa using hparent, by rw [← hpd]; simpa using hnull, hle,
      ⟨header, hv.parentHeader hheader, hnumber⟩, by simpa using hvalid⟩
  subst hpd
  rw [wp_bind]
  change wp (pushNewChild b.parentHash (hash b) (w.detailsOf b.parentHash) >>= _) _ _
    { w with extraDetails := w.extraDetails.query b.parentHash }
  rw [hw.detailsOf, wp_bind, pushNewChild, wp_ite]
  split
  · rename_i hmem
    exact ⟨haccepts, .present _ (hw.trans (loads_query w b.parentHash)) hmem⟩
  · rename_i hmem
    refine wp_mono (wp_pushChild b) ?_ fun _ _ h => h.elim
    rintro _ _ ⟨rfl, rfl⟩
    have hchild : w.withChild b = s.withChild b := by rw [withChild, withChild, hw.detailsOf]
    rw [hchild]
    exact ⟨haccepts, .absent w hw hmem⟩

/-! ### Steps -/

end BlockChain

inductive Event (H : Type)
  | import_ (b : VerifiedBlockRef H) (mustBeNew valid : Bool)
  | insert (b : VerifiedBlockRef H) (mustBeNew validReceipts valid : Bool)
  | rewind (newHead : Nat)
  | details (h : H)
  | numberHash (i : Nat)
  | transactionLocation (h : H)

def Event.run : Event H → M H Unit
  | .import_ b mustBeNew valid => BlockChain.import_ b mustBeNew valid
  | .insert b mustBeNew validReceipts valid => BlockChain.insert b mustBeNew validReceipts valid
  | .rewind newHead => BlockChain.rewind newHead
  | .details h => do let _ ← BlockChain.details h
  | .numberHash i => do let _ ← BlockChain.numberHash i
  | .transactionLocation h => do let _ ← BlockChain.transactionLocation h

namespace BlockChain

variable {s t u : BlockChain H}

/-- What is thrown is caught by the caller, if the process has not exited. -/
def step (s : BlockChain H) (e : Event H) : Option (BlockChain H) :=
  match e.run s with
  | .ok _ t => some t
  | .error .exit _ => none
  | .error _ t => some t

/-- What `rewind` makes of `s`, if it does not return at once. -/
def rewoundTo (s : BlockChain H) (newHead : Nat) : BlockChain H :=
  let c := s.cleared (newHead + 1)
  { c with
    extraBlockHash := if newHead = 0 then c.extraBlockHash else c.extraBlockHash.query newHead
    lastBlockHash := if newHead = 0 then s.genesisHash else (c.extraBlockHash.get newHead).getD 0
    lastBlockNumber := newHead
    rewound := true }

/-- What a step does. -/
inductive Does (s : BlockChain H) : Event H → BlockChain H → Prop
  | loads {e t} : Loads s t → Does s e t
  | abandons {b mustBeNew valid t} (u : BlockChain H) : Loads s u → s.Accepts b mustBeNew valid →
    (u.pushed b).LoadsCleared t → Does s (.import_ b mustBeNew valid) t
  | imports {b mustBeNew valid} (u v : BlockChain H) : Loads s u → s.Accepts b mustBeNew valid →
    u.Inserts b (s.newTotalDifficulty b) v →
    Does s (.import_ b mustBeNew valid) { v with imported := hash b :: v.imported }
  | inserts {b mustBeNew validReceipts valid t} : s.Accepts b mustBeNew valid → s.InsertsSide b t →
    Does s (.insert b mustBeNew validReceipts valid) t
  | rewinds {newHead} : newHead < s.lastBlockNumber → Does s (.rewind newHead) (s.rewoundTo newHead)
  | numberHash {i} : i ≠ 0 → Does s (.numberHash i) { s with extraBlockHash := s.extraBlockHash.query i }
  | transactionLocation {h} :
    Does s (.transactionLocation h) { s with extraTransactionAddress := s.extraTransactionAddress.query h }

theorem wp_rewind {newHead : Nat} (hlt : newHead < s.lastBlockNumber) :
    wp (do
      clearCachesDuringChainReversion (newHead + 1)
      let h ← BlockChain.numberHash newHead
      modify fun s => { s with lastBlockHash := h, lastBlockNumber := newHead, rewound := true })
    (fun _ => s.Does (.rewind newHead)) (fun _ => s.Does (.rewind newHead)) s := by
  have hdoes := Does.rewinds hlt
  unfold BlockChain.numberHash clearCachesDuringChainReversion
  rw [rewoundTo] at hdoes
  simp only [wp_bind, wp_modify, wp_get, wp_ite]
  split
  · rename_i hzero
    simp only [if_pos hzero] at hdoes
    exact hdoes
  · rename_i hpos
    simp only [if_neg hpos] at hdoes
    exact hdoes

theorem does_step {e : Event H} (h : s.step e = some t) : s.Does e t := by
  have hdoes : wp e.run (fun _ => s.Does e) (fun _ => s.Does e) s := by
    cases e with
    | import_ b mustBeNew valid =>
      refine wp_mono (wp_import b mustBeNew valid) ?_ ?_
      · rintro _ _ ⟨u, v, hu, haccepts, hinserts, rfl⟩
        exact .imports u v hu haccepts hinserts
      · rintro _ _ (hloads | ⟨u, hu, haccepts, ht⟩)
        · exact .loads hloads
        · exact .abandons u hu haccepts ht
    | insert b mustBeNew validReceipts valid =>
      refine wp_mono (wp_insert b mustBeNew validReceipts valid) ?_ fun _ _ => .loads
      exact fun _ _ ⟨haccepts, hinserts⟩ => .inserts haccepts hinserts
    | rewind newHead =>
      unfold Event.run BlockChain.rewind
      rw [wp_bind, wp_get, wp_ite]
      split
      · exact .loads (.refl s)
      · rename_i hlt
        exact wp_rewind (not_le.1 hlt)
    | details x => exact .loads (loads_query s x)
    | numberHash i =>
      unfold Event.run BlockChain.numberHash
      simp only [wp_bind, wp_get, wp_ite]
      split
      · exact .loads (.refl s)
      · rename_i hi
        exact .numberHash hi
    | transactionLocation h =>
      unfold Event.run BlockChain.transactionLocation
      simp only [wp_bind, wp_get, wp_set, wp_ite, wp_pure]
      split
      · exact .transactionLocation
      · exact .transactionLocation
  rw [step] at h
  rw [wp] at hdoes
  cases hrun : e.run s with
  | ok a u =>
    rw [hrun] at h hdoes
    exact Option.some.inj h ▸ hdoes
  | error exn u =>
    rw [hrun] at h hdoes
    cases exn with
    | exit => cases h
    | _ => exact Option.some.inj h ▸ hdoes

/-! ### Runs -/

/-- A chain that has just been opened, with an empty database. -/
structure Start (s : BlockChain H) : Prop where
  number : s.genesis.number = 0
  transactions : s.genesis.transactions = []
  opened : s = {
    genesis := s.genesis
    tieBreakingGas := s.tieBreakingGas
    extraDetails := ({} : Cached H _).put (hash s.genesis) ⟨0, s.genesis.difficulty, 0, []⟩
      |>.edit (hash s.genesis) ⟨0, s.genesis.difficulty, 0, []⟩
    lastBlockHash := hash s.genesis }

/-- The states that runs reach whose steps all meet `C`. -/
def Reaches (C : BlockChain H → Event H → Prop) (s s' : BlockChain H) : Prop :=
  Relation.ReflTransGen (fun s s' => ∃ e, C s e ∧ s.step e = some s') s s'

/-- A run, if it comes to its end and `P` holds at each of its steps. -/
def run (s : BlockChain H) (events : List (Event H)) (P : BlockChain H → Event H → Bool := fun _ _ => true) :
    Option (BlockChain H) :=
  events.foldlM (fun s e => if P s e then s.step e else none) s

theorem Reaches.run {C : BlockChain H → Event H → Prop} {events : List (Event H)} {P : BlockChain H → Event H → Bool}
    (hC : ∀ s, ∀ e ∈ events, P s e = true → C s e) (h : s.run events P = some t) : Reaches C s t := by
  induction events generalizing s with
  | nil => exact Option.some.inj h ▸ .refl
  | cons e events ih =>
    obtain ⟨u, hu, h⟩ := Option.bind_eq_some_iff.1 h
    obtain ⟨hP, hu⟩ := Option.ite_none_right_eq_some.1 hu
    exact .head ⟨e, hC s e List.mem_cons_self hP, hu⟩ (ih (fun s e he => hC s e (List.mem_cons_of_mem _ he)) h)

end BlockChain

end Kmdx.Chain
