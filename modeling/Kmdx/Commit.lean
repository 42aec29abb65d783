import Kmdx.StateSpec

/-!
# Committing

`commit` writes the changed accounts of the cache into the tries and empties the cache. With digests
that do not collide, the accounts seen after it are those seen before, under their new storage roots,
less the ones that are not alive (`Coherent.commit_view`).
-/

namespace Kmdx

open Wp UndoLog Function List

variable {H : Type} [Digest H]

/-- What `db` has, `db'` has too. -/
structure OverlayDB.Grows (db db' : OverlayDB H) : Prop where
  has : ∀ root, db.Has root → db'.Has root
  code : ∀ h, sha3 (db.codes h) = h → sha3 (db'.codes h) = h

namespace OverlayDB.Grows
variable {db db' db'' : OverlayDB H}

theorem refl (db : OverlayDB H) : db.Grows db := ⟨fun _ h => h, fun _ h => h⟩

theorem trans (h : db.Grows db') (h' : db'.Grows db'') : db.Grows db'' :=
  ⟨fun r hr => h'.has r (h.has r hr), fun c hc => h'.code c (h.code c hc)⟩

/-- A trie found under its root is found as it was. -/
theorem storageTrie_eq (h : db.Grows db')
    (hinj : Injective (Digest.storageRoot : StorageTrie → H)) {root : H} (hr : db.Has root) :
    db'.storageTrie root = db.storageTrie root :=
  hinj ((h.has root hr).trans hr.symm)

theorem storageAt_eq (h : db.Grows db')
    (hinj : Injective (Digest.storageRoot : StorageTrie → H)) {acc : Account H}
    (hr : db.Has acc.storageRoot) : acc.storageAt db' = acc.storageAt db := by
  funext k; rw [Account.storageAt, Account.storageAt, h.storageTrie_eq hinj hr]

theorem account_ok {acc : Account H} (h : db.Grows db') (hok : acc.Ok db) : acc.Ok db' := by
  refine ⟨h.has _ hok.storage, ?_, hok.newCode, fun hal hn => (hok.oldCode hal hn).imp id (h.code _)⟩
  have hc := hok.code
  unfold Account.codeAt at hc ⊢
  split
  · next he => rw [he]; rfl
  · next he =>
    rw [if_neg he] at hc
    split
    · next hnil => rw [if_pos hnil] at hc; exact h.code _ hc
    · next hnil => rwa [if_neg hnil] at hc

end OverlayDB.Grows

namespace Account

/-- The record `commit` makes of a changed account: none when it is not alive. -/
def toRlp (root : H) (acc : Account H) : Option (AccountRlp H) :=
  if acc.isAlive then
    some { nonce := acc.nonce, balance := acc.balance, storageRoot := root, codeHash := acc.codeHash }
  else none

end Account

namespace State

/-! ### Storage -/

variable {p q : OverlayDB H × H}

theorem storageInsert_spec (key value : U256) (hq : q = storageInsert p key value) : q.1.Has q.2 ∧ p.1.Grows q.1 ∧
      q.1.codes = p.1.codes ∧ q.1.stateTries = p.1.stateTries ∧
      (Injective (Digest.storageRoot : StorageTrie → H) →
        q.1.storageTrie q.2 = update (p.1.storageTrie p.2) key value) := by
  obtain ⟨t, ht⟩ : ∃ t, t = update (p.1.storageTrie p.2) key value := ⟨_, rfl⟩
  have hroot : q.2 = Digest.storageRoot t := by rw [hq, ht]; rfl
  have hself : q.2 ≠ emptyTrie → q.1.storageTrie q.2 = t := fun hne => by
    rw [OverlayDB.storageTrie, if_neg hne, hq, ht]
    exact update_self ..
  have hhas : q.1.Has q.2 := by
    by_cases he : q.2 = emptyTrie
    · rw [he]; exact OverlayDB.has_emptyTrie _
    · rw [OverlayDB.Has, hself he, hroot]
  refine ⟨hhas, ⟨fun r hr => ?_, fun _ h => by rw [hq]; exact h⟩, by rw [hq]; rfl, by rw [hq]; rfl,
    fun hinj => ?_⟩
  · by_cases he : r = q.2
    · rw [he]; exact hhas
    · have : q.1.storageTries r = p.1.storageTries r := by
        rw [hq] at he ⊢; exact update_of_ne he _ _
      rw [OverlayDB.Has, OverlayDB.storageTrie, this]; exact hr
  · by_cases he : q.2 = emptyTrie
    · have : t = fun _ => 0 := hinj (hroot.symm.trans he)
      rw [he, OverlayDB.storageTrie_emptyTrie, ← ht, this]
    · rw [hself he, ht]

theorem storageInsert_foldl (l : List (Σ _ : U256, U256)) (hp : p.1.Has p.2)
    (hq : q = l.foldl (fun p j => storageInsert p j.1 j.2) p) : q.1.Has q.2 ∧ p.1.Grows q.1 ∧
      q.1.codes = p.1.codes ∧ q.1.stateTries = p.1.stateTries ∧
      (Injective (Digest.storageRoot : StorageTrie → H) → q.1.storageTrie q.2 =
        l.foldl (fun f j => update f j.1 j.2) (p.1.storageTrie p.2)) := by
  induction l generalizing p with
  | nil => subst hq; exact ⟨hp, .refl _, rfl, rfl, fun _ => rfl⟩
  | cons j l ih =>
    obtain ⟨h1, h2, h3, h4, h5⟩ := storageInsert_spec (p := p) j.1 j.2 rfl
    obtain ⟨k1, k2, k3, k4, k5⟩ := ih h1 hq
    exact ⟨k1, h2.trans k2, k3.trans h3, k4.trans h4,
      fun hinj => (k5 hinj).trans (by rw [h5 hinj]; rfl)⟩

/-- The overlay's words over those of the trie. -/
theorem foldl_update (l : List (Σ _ : U256, U256)) (hl : l.NodupKeys) (f : U256 → U256) (key : U256) :
    l.foldl (fun f j => update f j.1 j.2) f key = (l.dlookup key).getD (f key) := by
  induction l generalizing f with
  | nil => rfl
  | cons j l ih =>
    obtain ⟨k, v⟩ := j
    rw [nodupKeys_cons] at hl
    rw [foldl_cons, ih hl.2]
    by_cases hk : key = k
    · subst hk
      rw [dlookup_eq_none.2 hl.1, dlookup_cons_eq]
      simp
    · rw [dlookup_cons_ne _ _ hk]
      simp [update_of_ne hk]

theorem commitStorage_spec {db : OverlayDB H} {acc : Account H}
    (h : db.Has acc.storageRoot) (hq : q = commitStorage db acc) : q.1.Has q.2 ∧ db.Grows q.1 ∧
      q.1.codes = db.codes ∧ q.1.stateTries = db.stateTries ∧
      (Injective (Digest.storageRoot : StorageTrie → H) → q.2 = Digest.storageRoot (acc.storageAt db)) := by
  obtain ⟨h1, h2, h3, h4, h5⟩ := storageInsert_foldl acc.storageOverlay.entries
    (p := (db, acc.storageRoot)) h hq
  refine ⟨h1, h2, h3, h4, fun hinj => ?_⟩
  have hst : q.1.storageTrie q.2 = acc.storageAt db :=
    (h5 hinj).trans (funext fun k => foldl_update _ acc.storageOverlay.nodupKeys _ k)
  rw [← hst]; exact h1.symm

/-! ### Accounts -/

theorem commitCode_spec {db : OverlayDB H} {acc : Account H} (hok : acc.Ok db)
    (hal : acc.isAlive = true) : db.Grows (commitCode db acc) ∧
      (acc.codeHash = emptySHA3 ∨ sha3 ((commitCode db acc).codes acc.codeHash) = acc.codeHash) ∧
      (commitCode db acc).stateTries = db.stateTries := by
  unfold commitCode
  cases hn : acc.hasNewCode with
  | false => exact ⟨.refl _, hok.oldCode hal hn, rfl⟩
  | true =>
    have hnew := hok.newCode hal hn
    refine ⟨⟨fun r hr => hr, fun c hc => ?_⟩, .inr ?_, rfl⟩
    · show sha3 (update db.codes acc.codeHash acc.codeCache c) = c
      by_cases he : c = acc.codeHash
      · rw [he, update_self]; exact hnew
      · rw [update_of_ne he]; exact hc
    · show sha3 (update db.codes acc.codeHash acc.codeCache acc.codeHash) = _
      rw [update_self]; exact hnew

theorem stateInsert_spec {a : Address} {r : Option (AccountRlp H)}
    (hp : p.1.Ok) (hr : ∀ x, r = some x → p.1.Has x.storageRoot ∧
      (x.codeHash = emptySHA3 ∨ sha3 (p.1.codes x.codeHash) = x.codeHash))
    (hq : q = stateInsert p a r) : p.1.Grows q.1 ∧ q.1.Ok ∧
      q.1.stateTries q.2 = update (p.1.stateTries p.2) a r := by
  have hself : q.1.stateTries q.2 = update (p.1.stateTries p.2) a r := by
    rw [hq]; simp [stateInsert]
  have hold : ∀ root, root ≠ q.2 → q.1.stateTries root = p.1.stateTries root := fun root hne => by
    rw [hq] at hne ⊢; exact update_of_ne hne _ _
  have hst : q.1.storageTrie = p.1.storageTrie := by rw [hq]; rfl
  have hco : q.1.codes = p.1.codes := by rw [hq]; rfl
  have hhas : ∀ root, p.1.Has root → q.1.Has root := fun root h => by
    rw [OverlayDB.Has, hst]; exact h
  -- an account of the new trie is `r` or one of the old trie
  have hmem : ∀ root b x, q.1.stateTries root b = some x →
      r = some x ∨ ∃ root, p.1.stateTries root b = some x := by
    intro root b x hx
    by_cases he : root = q.2
    · rw [he, hself] at hx
      by_cases hb : b = a
      · rw [hb, update_self] at hx; exact .inl hx
      · rw [update_of_ne hb] at hx; exact .inr ⟨_, hx⟩
    · rw [hold root he] at hx; exact .inr ⟨_, hx⟩
  refine ⟨⟨hhas, fun c hc => by rw [hco]; exact hc⟩, ⟨?_, ?_⟩, hself⟩
  · intro root b x hx
    rcases hmem root b x hx with h | ⟨root', h⟩
    exacts [hhas _ (hr x h).1, hhas _ (hp.storage root' b x h)]
  · intro root b x hx
    rw [hco]
    rcases hmem root b x hx with h | ⟨root', h⟩
    exacts [(hr x h).2, hp.code root' b x h]

theorem commitAccount_spec {a : Address} {acc : Account H} (hp : p.1.Ok)
    (hok : acc.Ok p.1) (hq : q = commitAccount p a acc) : p.1.Grows q.1 ∧ q.1.Ok ∧ ∃ root,
      q.1.stateTries q.2 = (if acc.isDirty then update (p.1.stateTries p.2) a (acc.toRlp root)
        else p.1.stateTries p.2) ∧ (Injective (Digest.storageRoot : StorageTrie → H) →
        root = Digest.storageRoot (acc.storageAt p.1)) := by
  unfold commitAccount at hq
  obtain ⟨s1, s2, s3, s4, s5⟩ := commitStorage_spec hok.storage rfl
  cases hd : acc.isDirty with
  | false =>
    simp only [hd, Bool.not_false, if_true] at hq
    subst hq
    exact ⟨.refl _, hp, _, rfl, s5⟩
  | true =>
    simp only [hd, Bool.not_true, Bool.false_eq_true, if_false, if_true] at hq ⊢
    cases hal : acc.isAlive with
    | false =>
      simp only [hal, Bool.not_false, if_true] at hq
      obtain ⟨h1, h2, h3⟩ := stateInsert_spec hp (by rintro x ⟨⟩) hq
      exact ⟨h1, h2, _, by rw [h3, Account.toRlp, hal]; rfl, s5⟩
    | true =>
      simp only [hal, Bool.not_true, Bool.false_eq_true, if_false] at hq
      obtain ⟨c1, c2, c3⟩ := commitCode_spec (s2.account_ok hok) hal
      have hdb : (commitCode (commitStorage p.1 acc).1 acc).Ok := by
        refine ⟨fun root b x hx => ?_, fun root b x hx => ?_⟩ <;> rw [c3, s4] at hx
        · exact c1.has _ (s2.has _ (hp.storage root b x hx))
        · exact (hp.code root b x hx).imp id fun h => c1.code _ (s2.code _ h)
      obtain ⟨h1, h2, h3⟩ := stateInsert_spec
        (p := (commitCode (commitStorage p.1 acc).1 acc, p.2)) hdb
        (fun x hx => by obtain rfl := Option.some.inj hx; exact ⟨c1.has _ s1, c2⟩) hq
      refine ⟨(s2.trans c1).trans h1, h2, _, ?_, s5⟩
      rw [h3, Account.toRlp, hal]
      show update ((commitCode _ acc).stateTries p.2) a _ = _
      rw [c3, s4]; rfl

/-- The whole cache: every account that is marked is written. -/
theorem commitCache_spec (l : List (Σ _ : Address, Account H)) (hl : l.NodupKeys) (hp : p.1.Ok) (hok : ∀ i ∈ l, i.2.Ok p.1)
    (hq : q = l.foldl (fun p i => commitAccount p i.1 i.2) p) : p.1.Grows q.1 ∧ q.1.Ok ∧
      ∃ rootOf : Address → H, (∀ a, q.1.stateTries q.2 a = match l.dlookup a with
          | some acc => if acc.isDirty then acc.toRlp (rootOf a) else p.1.stateTries p.2 a
          | none => p.1.stateTries p.2 a) ∧ (Injective (Digest.storageRoot : StorageTrie → H) → ∀ a acc,
          l.dlookup a = some acc → rootOf a = Digest.storageRoot (acc.storageAt p.1)) := by
  induction l generalizing p with
  | nil =>
    have hq : q = p := hq
    rw [hq]; exact ⟨.refl _, hp, fun _ => emptyTrie, fun _ => rfl, fun _ _ _ h => by cases h⟩
  | cons i l ih =>
    obtain ⟨b, acc⟩ := i
    rw [nodupKeys_cons] at hl
    obtain ⟨g1, g2, root, g3, g4⟩ := commitAccount_spec hp (hok _ (mem_cons_self ..)) rfl
    obtain ⟨k1, k2, rootOf, k3, k4⟩ := ih hl.2 g2
      (fun i hi => g1.account_ok (hok i (mem_cons_of_mem _ hi))) hq
    refine ⟨g1.trans k1, k2, update rootOf b root, fun a => ?_, fun hinj a acc' ha => ?_⟩
    · rw [k3 a, g3]
      by_cases ha : a = b
      · subst ha
        rw [dlookup_eq_none.2 hl.1, dlookup_cons_eq, update_self]
        dsimp only
        split
        · rw [update_self]
        · rfl
      · rw [dlookup_cons_ne _ _ ha, update_of_ne ha]
        have : (if acc.isDirty = true then update (p.1.stateTries p.2) b (acc.toRlp root)
            else p.1.stateTries p.2) a = p.1.stateTries p.2 a := by
          split
          · exact update_of_ne ha _ _
          · rfl
        rw [this]
    · by_cases hab : a = b
      · subst hab
        rw [dlookup_cons_eq] at ha
        cases ha
        rw [update_self]; exact g4 hinj
      · rw [dlookup_cons_ne _ _ hab] at ha
        have hmem : (⟨a, acc'⟩ : Σ _ : Address, Account H) ∈ l := of_mem_dlookup ha
        rw [update_of_ne hab, k4 hinj a acc' ha,
          g1.storageAt_eq hinj (hok _ (mem_cons_of_mem _ hmem)).storage]

/-! ### The state after a commit -/

theorem removeEmptyAccounts_lookup (s : State H) (a : Address) :
    s.removeEmptyAccounts.cache.lookup a = (s.cache.lookup a).map killIfEmpty :=
  dlookup_map₂ (f := fun _ => killIfEmpty) a

theorem commit_run (behaviour : CommitBehaviour) (s : State H) : ∃ s', commit behaviour s = .ok () s' ∧
    ∃ t, (t = s ∨ t = s.removeEmptyAccounts) ∧ (behaviour = .keepEmptyAccounts → t = s) ∧
      s' = { t with
        db := (commitCache t.cache (t.db, t.root)).1
        root := (commitCache t.cache (t.db, t.root)).2
        changeLog := [], cache := ∅, unchangedCacheEntries := [] } := by
  cases behaviour with
  | keepEmptyAccounts => exact ⟨_, rfl, s, .inl rfl, fun _ => rfl, rfl⟩
  | removeEmptyAccounts => exact ⟨_, rfl, s.removeEmptyAccounts, .inr rfl, nofun, rfl⟩

theorem Coherent.removeEmptyAccounts {base : Nat} {s : State H} (h : Coherent base s) :
    Coherent s.changeLog.length s.removeEmptyAccounts := by
  have hr := h.raise h.base_le (Nat.le_refl _)
  refine ⟨Nat.le_refl _, h.db, h.nonExisting, ?_, ?_, ?_⟩
  · intro a acc ha
    rw [removeEmptyAccounts_lookup, Option.map_eq_some_iff] at ha
    obtain ⟨acc₀, h₀, rfl⟩ := ha
    unfold killIfEmpty
    split
    · refine ⟨.kill, fun hu => by simp [Account.kill] at hu, ?_⟩
      rw [show s.removeEmptyAccounts.logOf s.changeLog.length a = [] from logOf_length s a]
      trivial
    · exact hr.cached a acc₀ h₀
  · intro a acc ha
    rw [removeEmptyAccounts_lookup, Option.map_eq_some_iff] at ha
    obtain ⟨acc₀, h₀, rfl⟩ := ha
    unfold killIfEmpty
    split
    · intro hal; simp [Account.kill] at hal
    · exact h.alive a acc₀ h₀
  · intro a ha
    exact logOf_length s a

theorem wp_commit (behaviour : CommitBehaviour) {base : Nat} {s : State H} (h : Coherent base s)
    {E : Exn → State H → Prop} : wp (commit behaviour) (fun _ s' => Coherent 0 s' ∧
      s'.changeLog = [] ∧ s'.cache = ∅ ∧ s'.accountStartNonce = s.accountStartNonce ∧
      s.db.Grows s'.db ∧ (behaviour = .keepEmptyAccounts → ∃ rootOf : Address → H,
        (∀ a, s'.trieAt a = match s.cache.lookup a with
          | some acc => if acc.isDirty then acc.toRlp (rootOf a) else s.trieAt a
          | none => s.trieAt a) ∧
        (Injective (Digest.storageRoot : StorageTrie → H) → ∀ a acc,
          s.cache.lookup a = some acc → rootOf a = Digest.storageRoot (acc.storageAt s.db)))) E s := by
  obtain ⟨s', hs', t, ht, hkeep, rfl⟩ := commit_run behaviour s
  refine wp_of_eq_ok hs' ?_
  have hfr : t.db = s.db ∧ t.root = s.root ∧ t.accountStartNonce = s.accountStartNonce := by
    rcases ht with rfl | rfl <;> exact ⟨rfl, rfl, rfl⟩
  have htc : ∃ b, Coherent b t := by
    rcases ht with rfl | rfl
    exacts [⟨_, h⟩, ⟨_, h.removeEmptyAccounts⟩]
  obtain ⟨b, htc⟩ := htc
  obtain ⟨g1, g2, rootOf, g4, g3⟩ := commitCache_spec t.cache.entries t.cache.nodupKeys
    (p := (t.db, t.root)) htc.db (fun i hi => (htc.cached i.1 i.2 (mem_dlookup_iff
      t.cache.nodupKeys |>.2 hi)).ok) rfl
  refine ⟨⟨Nat.zero_le _, g2, ?_, ?_, ?_, ?_⟩, rfl, rfl, hfr.2.2, hfr.1 ▸ g1, fun hb => ?_⟩
  · intro a ha
    refine (g4 a).trans ?_
    have hnone : t.db.stateTries t.root a = none := htc.nonExisting a ha
    split
    · next acc hacc =>
      split
      · cases hal : acc.isAlive with
        | false => rw [Account.toRlp, hal]; rfl
        | true => exact absurd ha (htc.alive a acc hacc hal)
      · exact hnone
    · exact hnone
  · intro a acc ha; simp at ha
  · intro a acc ha; simp at ha
  · intro a _; rfl
  · obtain rfl := hkeep hb
    exact ⟨rootOf, g4, g3⟩

end State

/-- What a commit makes of the accounts. -/
def World.commit (w : World H) : World H := fun a => (w a).bind fun v =>
  if v.isAlive then some { v with storageRoot := Digest.storageRoot v.storage } else none

/-- An alive account read back from the record made of it. -/
theorem Account.view_toRlp {db db' : OverlayDB H} {acc : Account H} {r : AccountRlp H}
    (hstorage : Injective (Digest.storageRoot : StorageTrie → H))
    (hcode : Injective (sha3 : Bytes → H)) (hok : acc.Ok db)
    (hr : acc.toRlp (Digest.storageRoot (acc.storageAt db)) = some r) (hhas : db'.Has r.storageRoot)
    (hsha : r.codeHash = emptySHA3 ∨ sha3 (db'.codes r.codeHash) = r.codeHash) :
    r.view db' = { acc.view db with storageRoot := Digest.storageRoot (acc.storageAt db) } := by
  unfold toRlp at hr
  split at hr
  · next hal =>
    obtain rfl := Option.some.inj hr
    have hst : db'.storageTrie (Digest.storageRoot (acc.storageAt db)) = acc.storageAt db :=
      hstorage hhas
    have hco : (if acc.codeHash = emptySHA3 then [] else db'.codes acc.codeHash) = acc.codeAt db := by
      split
      · next he => simp [codeAt, he]
      · next he => exact hcode ((hsha.resolve_left he).trans hok.code.symm)
    rw [AccountRlp.view_eq, hst, hco, ← hal]; rfl
  · cases hr

/-- The record in the trie is the one made of the account it stands for. -/
theorem Account.toRlp_ofRlp {db : OverlayDB H} {r : AccountRlp H} (h : db.Has r.storageRoot) :
    (Account.ofRlp r).toRlp (Digest.storageRoot ((Account.ofRlp r).storageAt db)) = some r := by
  have : Digest.storageRoot ((Account.ofRlp r).storageAt db) = r.storageRoot := h
  rw [toRlp, this]; rfl

namespace State

/-- A commit that keeps empty accounts drops those that are not alive and recomputes the storage roots;
nothing else changes. -/
theorem Coherent.commit_view {base : Nat} {s s' : State H} (h : Coherent base s)
    (hstorage : Injective (Digest.storageRoot : StorageTrie → H))
    (hcode : Injective (sha3 : Bytes → H))
    (hs' : commit .keepEmptyAccounts s = .ok () s') : s'.view = s.view.commit := by
  obtain ⟨h0, -, hcache, -, hgrow, hview⟩ := wp_ok (wp_commit _ h (E := fun _ _ => False)) hs'
  obtain ⟨rootOf, htrie, hroot⟩ := hview rfl
  funext a
  have hnone : s'.cache.lookup a = none := by rw [hcache]; rfl
  rw [h0.view_eq_trieView hnone, trieView, World.commit]
  -- the account seen at `a` is one that the new record is made of
  have key : ∀ acc : Account H, acc.Ok s.db → s.view a = some (acc.view s.db) →
      s'.trieAt a = acc.toRlp (Digest.storageRoot (acc.storageAt s.db)) → (s'.trieAt a).map (AccountRlp.view s'.db) =
        (s.view a).bind fun v =>
          if v.isAlive then some { v with storageRoot := Digest.storageRoot v.storage } else none := by
    intro acc hok hv ht
    rw [hv]
    cases hal : acc.isAlive with
    | false =>
      rw [ht, Account.toRlp, hal]
      simp [Account.view, hal]
    | true =>
      obtain ⟨r, hr⟩ : ∃ r, acc.toRlp (Digest.storageRoot (acc.storageAt s.db)) =
          some r := by rw [Account.toRlp, hal]; exact ⟨_, rfl⟩
      rw [ht, hr, Option.map_some, Account.view_toRlp hstorage hcode hok hr
        (h0.db.storage _ a r (ht.trans hr)) (h0.db.code _ a r (ht.trans hr))]
      simp [Account.view, hal]
  have hold : s.view a = s.trieView a → s'.trieAt a = s.trieAt a →
      (s'.trieAt a).map (AccountRlp.view s'.db) = (s.view a).bind fun v =>
        if v.isAlive then some { v with storageRoot := Digest.storageRoot v.storage } else none := by
    intro hv ht
    cases hr : s.trieAt a with
    | none => rw [ht, hv, trieView, hr]; rfl
    | some r =>
      have hhas := h.db.storage _ a r hr
      refine key (.ofRlp r) (.ofRlp hhas (h.db.code _ a r hr)) ?_ ?_
      · rw [hv, trieView, hr]; rfl
      · rw [ht, hr, Account.toRlp_ofRlp hhas]
  cases hl : s.cache.lookup a with
  | none =>
    refine hold (h.view_eq_trieView hl) ?_
    rw [htrie a, hl]
  | some acc =>
    have hok := h.cached a acc hl
    have hv := view_of_lookup hl
    cases hd : acc.isDirty with
    | true =>
      refine key acc hok.ok hv ?_
      rw [htrie a, hl, ← hroot hstorage a acc hl]; simp only [hd, if_true]
    | false =>
      refine hold ?_ ?_
      · rw [hv, ← (hok.clean (by simpa [Account.isDirty] using hd)).2]; rfl
      · rw [htrie a, hl]; simp [hd]

end State

end Kmdx
