import Kmdx.Chain.TwinCalls

/-!
# Garbage collection is not seen

A run with garbage collections, and the run without them (`Twinned`). A collection only takes from the caches of the first
what is clean, or what has been noted as used, so it is not seen (`collections_unseen`), as long as all calls leave what is
cached and not in the database where it is not going to be noted. A block that is stored again with children has lost them
after a collection (`not_collections_unseen`).
-/

namespace Kmdx.Chain

open Wp Cached List

set_option linter.unusedSectionVars false

variable {H : Type} [DecidableEq H] [BlockSha3 H] [BlockLogs H]

namespace FullChain

variable {s t s₁ t₁ t' : FullChain H} {e : Call H}

/-! ### What is noted -/

theorem exists_noteUsed {usage : List (CacheID H → Bool)} {ids : CacheID H → Bool} (h : 2 ≤ usage.length) (id : CacheID H) :
    (∃ x ∈ noteUsed ids usage, x id = true) ↔ (∃ x ∈ usage, x id = true) ∨ ids id = true := by
  match usage with
  | newest :: next :: rest =>
    cases hids : ids id <;> simp [noteUsed, hids]

theorem length_noteUsed {usage : List (CacheID H → Bool)} {ids : CacheID H → Bool} (h : 2 ≤ usage.length) :
    (noteUsed ids usage).length = usage.length := by
  match usage with
  | newest :: next :: rest => rfl

/-- With what was loaded from `s` to `s₁` -/
def withNotes (s s₁ : FullChain H) : FullChain H := { s₁ with cacheUsage := noteUsed (s.loaded s₁) s₁.cacheUsage }

theorem both_noting {x : FM H Unit} {R : FullChain H → FullChain H → Prop} (h : both x x (fun _ _ => R) (fun _ => R) s t) :
    both (noting x) (noting x) (fun _ _ s' t' => ∃ s₁ t₁, R s₁ t₁ ∧ s' = s.withNotes s₁ ∧ t' = t.withNotes t₁)
      (fun _ s' t' => ∃ s₁ t₁, R s₁ t₁ ∧ s' = s.withNotes s₁ ∧ t' = t.withNotes t₁) s t := by
  unfold both at h
  unfold both noting
  cases hx : x s <;> cases hy : x t <;> rw [hx, hy] at h
  · exact ⟨_, _, h, rfl, rfl⟩
  · exact h.elim
  · exact h.elim
  · exact ⟨h.1, _, _, h.2, rfl, rfl⟩

/-! ### The two runs -/

/-- `s` is reached with collections, and `t` without them. Of the index, what is dirty is pinned, and only what has been noted
as used has been lost. -/
structure Twinned (s t : FullChain H) : Prop where
  abreast : Abreast s.cacheUsage t.cacheUsage {id | t.Pinned id} {id | ¬ t.Noted id} s t
  noted : ∀ id, s.Noted id → t.Noted id
  left : 2 ≤ s.cacheUsage.length
  right : 2 ≤ t.cacheUsage.length

/-- What is pinned is not loaded. -/
theorem Twinned.withNotes (h : Twinned s t)
    (h₁ : Abreast s.cacheUsage t.cacheUsage {id | t.Pinned id} {id | ¬ t.Noted id} s₁ t₁) :
    Twinned (s.withNotes s₁) (t.withNotes t₁) := by
  have hleft : (s.withNotes s₁).Noted = fun id => s.Noted id ∨ s.loaded s₁ (.blocksBlooms id) = true := by
    funext id
    rw [Noted, FullChain.withNotes, h₁.left, exists_noteUsed h.left]
    rfl
  have hright : (t.withNotes t₁).Noted = fun id => t.Noted id ∨ t.loaded t₁ (.blocksBlooms id) = true := by
    funext id
    rw [Noted, FullChain.withNotes, h₁.right, exists_noteUsed h.right]
    rfl
  have hloaded : ∀ {s s₁ : FullChain H} {id}, s.loaded s₁ (.blocksBlooms id) = true ↔ s.extraBlocksBlooms.cache id = none ∧
      (s.extraBlocksBlooms.db id).isSome ∧ (s₁.extraBlocksBlooms.cache id).isSome := by
    intro s s₁ id
    simp [loaded, isLoaded, and_assoc]
  constructor
  case left =>
    change 2 ≤ (noteUsed _ s₁.cacheUsage).length
    rw [h₁.left, length_noteUsed h.left]
    exact h.left
  case right =>
    change 2 ≤ (noteUsed _ t₁.cacheUsage).length
    rw [h₁.right, length_noteUsed h.right]
    exact h.right
  case noted =>
    intro id hid
    rw [hleft] at hid
    rw [hright]
    by_cases hnoted : t.Noted id
    · exact .inl hnoted
    · -- What is not noted is the same in both, before and after.
      obtain ⟨hnone, hdb, hcache⟩ := hloaded.1 (hid.resolve_left (mt (h.noted id) hnoted))
      refine .inr (hloaded.2 ⟨?_, ?_, ?_⟩)
      · rw [← h.abreast.blooms.same id hnoted, hnone]
      · rw [← h.abreast.blooms.db]
        exact hdb
      · rw [← h₁.blooms.same id hnoted]
        exact hcache
  case abreast =>
    refine ⟨⟨h₁.chain, h₁.receipts, h₁.logBlooms, ?_, rfl, rfl⟩, h₁.tree, h₁.logged.congr rfl rfl⟩
    refine h₁.blooms.weaken (fun id hid => ?_) (fun id hid => ?_) fun id hid => hid.noted
    · by_cases hpinned : t.Pinned id
      · cases hcache : t₁.extraBlocksBlooms.cache id with
        | none => exact .inl rfl
        | some blooms =>
          refine absurd ⟨fun hnoted => ?_, fun hnone => ?_⟩ hid
          · rw [hright] at hnoted
            refine hnoted.elim hpinned.noted fun hload => ?_
            obtain ⟨hnone, hdb, -⟩ := hloaded.1 hload
            rw [hpinned.loaded hnone] at hdb
            cases hdb
          · have hnone : t₁.extraBlocksBlooms.cache id = none := hnone
            rw [hcache] at hnone
            cases hnone
      · exact h₁.blooms.clean id hpinned
    · change ¬ (t.withNotes t₁).Noted id at hid
      rw [hright, not_or] at hid
      exact hid.1

theorem Twinned.closed (h : Twinned s t) : Twinned s.closed t.closed := by
  have hnot : ∀ {s : FullChain H} {id}, ¬ s.closed.Noted id := by
    rintro s id ⟨ids, hmem, hid⟩
    rw [eq_of_mem_replicate hmem] at hid
    cases hid
  have hempty : ∀ {K V : Type} {c d : Cached K V} {dirty tied : Set K}, c.db = d.db → dirty ⊆ tied →
      Twins dirty tied (c.evict fun _ => true) (d.evict fun _ => true) :=
    fun hdb hle => ⟨hdb, fun _ => .inl rfl, fun _ _ => .inl rfl, fun _ _ => rfl, hle⟩
  refine ⟨⟨⟨⟨hempty h.abreast.chain.details.db (Set.Subset.refl _),
    hempty h.abreast.chain.addresses.db (Set.Subset.refl _), ?_⟩,
    hempty h.abreast.receipts.db (Set.Subset.refl _), hempty h.abreast.logBlooms.db (Set.Subset.refl _),
    hempty h.abreast.blooms.db fun id hid => hid.noted, rfl, rfl⟩, ?_, h.abreast.logged.congr rfl rfl⟩,
    fun id hid => absurd hid hnot, ?_, ?_⟩
  · rw [FullChain.closed, h.abreast.chain.rest]
    rfl
  · have hget : ∀ x, t.closed.chain.extraDetails.get x = t.chain.extraDetails.get x := by
      intro x
      rw [h.abreast.chain.details.get_eq_db]
      exact get_evict_of rfl
    refine h.abreast.tree.congr rfl rfl ?_ fun x => by rw [hget]
    funext x
    rw [BlockChain.node, BlockChain.node, BlockChain.detailsOf, BlockChain.detailsOf, hget]
  · exact (length_replicate ..).symm ▸ (by decide : 2 ≤ collectionQueueSize)
  · exact (length_replicate ..).symm ▸ (by decide : 2 ≤ collectionQueueSize)

theorem Twinned.step (h : Twinned s t) (hunseen : t.Unseen e) (ht : t.step e = some t') :
    ∃ s', s.step e = some s' ∧ Twinned s' t' := by
  have hat : Twinned (s.atBody e) (t.atBody e) ∧ (t.atBody e).Unseen e := by
    cases e with
    | reopen => exact ⟨h.closed, trivial⟩
    | _ => exact ⟨h, hunseen⟩
  obtain ⟨hat, hunseen⟩ := hat
  have hboth := both_noting (both_body hat.abreast hunseen fun _ hid => hid)
  rw [FullChain.step] at ht ⊢
  cases hrun : noting (body e) (t.atBody e) with
  | ok a t₁ =>
    rw [hrun] at ht
    cases ht
    obtain ⟨a', s', hs, s₁, t₁', h₁, rfl, rfl⟩ := both_ok hboth hrun
    rw [hs]
    exact ⟨_, rfl, hat.withNotes h₁⟩
  | error exn t₁ =>
    obtain ⟨s', hs, s₁, t₁', h₁, rfl, rfl⟩ := both_error hboth hrun
    rw [hrun] at ht
    rw [hs]
    cases exn with
    | exit => cases ht
    | _ =>
      cases ht
      exact ⟨_, rfl, hat.withNotes h₁⟩

/-! ### Collections -/

theorem Twinned.swept (h : Twinned s t) (enough : Bool) : Twinned (s.swept enough) t := by
  cases enough with
  | false => exact h
  | true =>
    have hlast : s.cacheUsage.getLastD (fun _ => false) ∈ s.cacheUsage := by
      have hne : s.cacheUsage ≠ [] := fun hnil => by
        have hleft := h.left
        rw [hnil] at hleft
        exact absurd hleft (Nat.not_succ_le_zero 1)
      rw [List.getLastD_eq_getLast?, List.getLast?_eq_some_getLast hne]
      exact getLast_mem hne
    have hlost : ∀ id, id ∈ {id | ¬ t.Noted id} → s.cacheUsage.getLastD (fun _ => false) (.blocksBlooms id) = false := by
      intro id hid
      by_contra hlost
      exact hid (h.noted id ⟨_, hlast, by simpa using hlost⟩)
    refine ⟨⟨⟨⟨?_, ?_, ?_⟩, ?_, ?_, ?_, rfl, rfl⟩, h.abreast.tree, h.abreast.logged⟩, fun id hid => ?_, ?_, h.right⟩
    · exact h.abreast.chain.details.evict_left nofun
    · exact h.abreast.chain.addresses.evict_left nofun
    · exact congrArg (fun c : BlockChain H => { c with
        extraDetails := (s.swept true).chain.extraDetails
        extraTransactionAddress := (s.swept true).chain.extraTransactionAddress }) h.abreast.chain.rest
    · exact h.abreast.receipts.evict_left nofun
    · exact h.abreast.logBlooms.evict_left nofun
    · exact h.abreast.blooms.evict_left hlost
    · obtain ⟨ids, hmem, hid⟩ := hid
      rcases mem_cons.1 hmem with rfl | hmem
      · cases hid
      · exact h.noted id ⟨ids, mem_of_mem_dropLast hmem, hid⟩
    · have hleft := h.left
      change 2 ≤ (_ :: s.cacheUsage.dropLast).length
      rw [length_cons, length_dropLast]
      omega

/-! ### Answers -/

theorem eval_eq {α : Type} {x : FM H α} {Q : FullChain H → FullChain H → Prop} {E : Exn → FullChain H → FullChain H → Prop}
    (h : both x x (fun a b s' t' => a = b ∧ Q s' t') E s t) : eval x s = eval x t := by
  unfold both at h
  unfold eval
  cases hx : x s <;> cases hy : x t <;> rw [hx, hy] at h
  · rw [h.1]
  · exact h.elim
  · exact h.elim
  · rw [h.1]

theorem Twinned.sameAnswers (h : Twinned s t) : s.SameAnswers t where
  block x := eval_eq (both_keeps h.abreast (BlockChain.akin_twin.block x)
    (wp_mono (BlockChain.reads_block x) (fun _ _ hl => .of_loads hl.1) fun _ _ => .of_loads))
  details x := eval_eq (both_keeps h.abreast (BlockChain.agree_details x)
    (wp_mono (BlockChain.reads_details x) (fun _ _ hl => .of_loads hl.1) fun _ _ => .of_loads))
  receipts x := congrArg (fun r => Except.ok (Option.getD r [])) (h.abreast.receipts.get_eq x)
  logBlooms x := congrArg (fun r => Except.ok (Option.getD r [])) (h.abreast.logBlooms.get_eq x)
  numberHash i := eval_eq (both_keeps h.abreast (BlockChain.agree_numberHash i) (BlockChain.wp_numberHash i))
  transactionLocation x :=
    eval_eq (both_keeps h.abreast (BlockChain.agree_transactionLocation x) (BlockChain.wp_transactionLocation x))
  blocksBlooms id := congrArg Except.ok (bloomsAt_eq h.abreast.blooms id)

/-! ### Runs -/

theorem Start.tree (h : Start s) : s.chain.Tree := h.chain.sound.tree

theorem Start.twinned (h : Start s) : Twinned s s := by
  have hdetails : s.chain.extraDetails =
      (({} : Cached H _).put (hash s.chain.genesis) ⟨0, s.chain.genesis.difficulty, 0, []⟩).edit
      (hash s.chain.genesis) ⟨0, s.chain.genesis.difficulty, 0, []⟩ := congrArg BlockChain.extraDetails h.chain.opened
  have haddresses : s.chain.extraTransactionAddress = {} := congrArg BlockChain.extraTransactionAddress h.chain.opened
  have hreceipts : s.extraReceipts = {} := congrArg FullChain.extraReceipts h.opened
  have hlogBlooms : s.extraLogBlooms = {} := congrArg FullChain.extraLogBlooms h.opened
  have hblooms : s.extraBlocksBlooms = {} := congrArg FullChain.extraBlocksBlooms h.opened
  have husage : s.cacheUsage = List.replicate collectionQueueSize fun _ => false := congrArg FullChain.cacheUsage h.opened
  have hempty : ∀ {K V : Type} {c : Cached K V} {dirty tied : Set K}, c = {} → dirty ⊆ tied → Twins dirty tied c c := by
    rintro K V _ dirty tied rfl hle
    exact ⟨rfl, fun _ => .inl rfl, fun _ _ => .inl rfl, fun _ _ => rfl, hle⟩
  have hclean : ∀ k, s.chain.extraDetails.cache k = none ∨ s.chain.extraDetails.cache k = s.chain.extraDetails.db k := by
    intro k
    rw [hdetails]
    by_cases hk : k = hash s.chain.genesis
    · rw [hk]
      refine .inr (Eq.trans (b := some ⟨0, s.chain.genesis.difficulty, 0, []⟩) ?_ (Eq.symm ?_))
      · exact Function.update_self ..
      · exact Function.update_self ..
    · exact .inl (Function.update_of_ne hk _ _)
  have hlength : 2 ≤ s.cacheUsage.length := by
    rw [husage, length_replicate]
    decide
  refine ⟨⟨⟨⟨.refl hclean, hempty haddresses (Set.Subset.refl _), rfl⟩, hempty hreceipts (Set.Subset.refl _),
    hempty hlogBlooms (Set.Subset.refl _), hempty hblooms fun id hid => hid.noted, rfl, rfl⟩, h.tree, ?_⟩, fun _ => id,
    hlength, hlength⟩
  constructor
  case receipts =>
    intro x w hw
    rw [hreceipts] at hw
    cases hw
  case logBlooms =>
    intro x w hw
    rw [hlogBlooms] at hw
    cases hw

theorem run_of_leads {actions : List (Action H)} (h : Twinned s t) (hl : Leads Unseen t (actions.filterMap Action.call?) t') :
    ∃ s', s.run actions = some s' ∧ Twinned s' t' := by
  induction actions generalizing s t with
  | nil =>
    cases hl
    exact ⟨s, rfl, h⟩
  | cons a actions ih =>
    cases a with
    | call e =>
      rw [filterMap_cons_some (rfl : Action.call? (.call e) = some e)] at hl
      cases hl with
      | cons hunseen ht hl =>
        obtain ⟨s₁, hs, h₁⟩ := h.step hunseen ht
        obtain ⟨s', hs', h'⟩ := ih h₁ hl
        exact ⟨s', by rw [run, foldlM_cons, act, hs]; exact hs', h'⟩
    | garbageCollect enough =>
      rw [filterMap_cons_none (rfl : Action.call? (.garbageCollect (H := H) enough) = none)] at hl
      exact ih (h.swept enough) hl

/-- A run with garbage collections, and the one without them, all of whose calls leave nothing behind that a collection could
uncover, come to the same answers. -/
theorem collections_unseen {actions : List (Action H)} (h : Start s)
    (hl : Leads Unseen s (actions.filterMap Action.call?) t) : ∃ s', s.run actions = some s' ∧ s'.SameAnswers t := by
  obtain ⟨s', hs, h'⟩ := run_of_leads h.twinned hl
  exact ⟨s', hs, h'.sameAnswers⟩

end FullChain

/-! ### Two runs -/

namespace Numbered

instance : BlockLogs Nat := ⟨fun _ => 0, fun _ => 1, fun _ => []⟩

@[reducible] def fullyOpened : FullChain Nat := { chain := opened }

theorem start_fullyOpened : fullyOpened.Start := ⟨start_opened, rfl⟩

/-- A block and its child -/
@[reducible] def twoImports : List (Call Nat) :=
  [.import_ (child genesisBlock 1) true true, .import_ (child (child genesisBlock 1) 1) true true]

end Numbered

namespace FullChain

open Numbered

theorem leads_of_run {C : FullChain H → Call H → Prop} {s t : FullChain H} {es : List (Call H)} (hC : ∀ e ∈ es, ∀ s, C s e)
    (h : s.run (es.map .call) = some t) : Leads C s es t := by
  induction es generalizing s with
  | nil => exact Option.some.inj h ▸ .nil s
  | cons e es ih =>
    rw [map_cons, run, foldlM_cons] at h
    obtain ⟨u, hu, h⟩ := Option.bind_eq_some_iff.1 h
    exact .cons (hC e mem_cons_self s) hu (ih (fun e he => hC e (mem_cons_of_mem _ he)) h)

theorem filterMap_call? (es : List (Call H)) (n : Nat) (enough : Bool) :
    (es.map Action.call ++ List.replicate n (Action.garbageCollect enough)).filterMap Action.call? = es := by
  rw [filterMap_append, filterMap_map, filterMap_replicate_of_none rfl, append_nil]
  exact filterMap_some

/-- A block is imported, the chain is opened again, and the details of the block are read, and collected. -/
theorem collections_unseen_one : ∃ t, Leads Unseen fullyOpened
      [.import_ (child genesisBlock 1) true true, .reopen, .details (hash (child genesisBlock 1))] t ∧
    ∃ s', fullyOpened.run
      ([.import_ (child genesisBlock 1) true true, .reopen, .details (hash (child genesisBlock 1))].map .call ++
        List.replicate 20 (.garbageCollect true)) = some s' ∧ s'.SameAnswers t := by
  have hchildren : (Numbered.opened.detailsOf (hash (child genesisBlock 1))).children = [] := by decide +kernel
  have hcommon : (Numbered.opened.routeTo (child genesisBlock 1)).2.1 = Numbered.opened.lastBlockHash := by decide +kernel
  have hbetter : Numbered.opened.newTotalDifficulty (child genesisBlock 1) >
      (Numbered.opened.detailsOf Numbered.opened.lastBlockHash).totalDifficulty := by
    decide +kernel
  have hunseen : fullyOpened.Unseen (.import_ (child genesisBlock 1) true true) := by
    refine fun _ => ⟨hchildren, true, Numbered.opened.queried Numbered.opened.lastBlockHash, ?_,
      fun _ => ⟨nofun, fun hreverts => ?_⟩⟩
    · exact BlockChain.run_isBest hbetter
    · exact absurd hcommon hreverts
  have hrun : (fullyOpened.run ([.import_ (child genesisBlock 1) true true, .reopen,
      .details (hash (child genesisBlock 1))].map .call)).isSome := by decide +kernel
  obtain ⟨t, ht⟩ := Option.isSome_iff_exists.1 hrun
  have hleads : Leads Unseen fullyOpened [.import_ (child genesisBlock 1) true true, .reopen,
      .details (hash (child genesisBlock 1))] t := by
    cases leads_of_run (C := fun _ _ => True) (fun _ _ _ => trivial) ht with
    | cons _ h₁ hl =>
      cases hl with
      | cons _ h₂ hl =>
        cases hl with
        | cons _ h₃ hl =>
          cases hl
          exact .cons hunseen h₁ (.cons trivial h₂ (.cons trivial h₃ (.nil _)))
  refine ⟨t, hleads, collections_unseen start_fullyOpened ?_⟩
  rw [filterMap_call?]
  exact hleads

/-- With a block of height 1 for the head, a block of height 2 on a side chain is imported again, which has a child. What is
stored for it has none, and that is seen once its details have been collected. -/
theorem not_collections_unseen : ¬ ∀ (H : Type) [DecidableEq H] [BlockSha3 H] [BlockLogs H] (s t : FullChain H)
    (actions : List (Action H)), Start s → Leads (fun _ _ => True) s (actions.filterMap Action.call?) t →
    ∃ s', s.run actions = some s' ∧ s'.SameAnswers t := by
  intro h
  let side := child genesisBlock 1
  let top := child side 1
  let calls : List (Call Nat) := [.import_ (child genesisBlock 10) true true, .import_ side true true, .import_ top true true,
    .import_ (child top 1) true true, .import_ top true true]
  have hrun : ∃ t, fullyOpened.run (calls.map .call) = some t ∧ (t.chain.detailsOf (hash top)).children.length = 1 := by
    decide +kernel
  have hcollected : ∃ s', fullyOpened.run (calls.map .call ++ List.replicate 20 (.garbageCollect true)) = some s' ∧
      (s'.chain.detailsOf (hash top)).children.length = 0 := by
    decide +kernel
  obtain ⟨t, ht, hone⟩ := hrun
  obtain ⟨u, hu, hzero⟩ := hcollected
  obtain ⟨s', hs', hsame⟩ := h Nat fullyOpened t (calls.map .call ++ List.replicate 20 (.garbageCollect true))
      start_fullyOpened
    (by rw [filterMap_call?]; exact leads_of_run (fun _ _ _ => trivial) ht)
  rw [hu] at hs'
  cases hs'
  have hdetails : u.chain.detailsOf (hash top) = t.chain.detailsOf (hash top) := Except.ok.inj (hsame.details (hash top))
  rw [hdetails, hone] at hzero
  exact absurd hzero (by decide)

end FullChain

end Kmdx.Chain
