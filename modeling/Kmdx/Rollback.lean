import Kmdx.Calls

/-!
# Rolling back to a savepoint

A run of calls after a savepoint, each on an account that `m_cache[a]` finds, is taken back by
`rollback` (`rollback_run`). Storage needs one thing more: `clearStorage` drops the overlay, and undoing
it gives back the words of the trie only, so the words that were pending have to be in the log above the
savepoint (`Covered`). Where no account is found, a dead one is left behind (`not_rollback_run`).
-/

namespace Kmdx

open Wp UndoLog Function

variable {H : Type} [Digest H]

namespace State

/-- Undoing down to where the words in which the storages differ were written makes no difference. -/
theorem undoAll_dropOverlay {db : OverlayDB H} {t : Option (AccountRlp H)} {a : Address}
    {l : List (Change H)} {w : World H} {v : AccountView H} {f : U256 → U256} (hw : w a = some v)
    (hlog : LogOk db t v (l.filter fun c => c.address = a)) (hroot : v.storageRoot ≠ emptyTrie)
    (hf : ∀ k, f k ≠ v.storage k → ∃ value, Change.storage a k value ∈ l) :
    undoAll (World.undo db) l (update w a (some { v with storage := f })) =
      undoAll (World.undo db) l w := by
  induction l generalizing w v f with
  | nil =>
    have : f = v.storage := funext fun k => by
      by_contra hk
      obtain ⟨_, hmem⟩ := hf k hk
      cases hmem
    rw [this, undoAll_nil, undoAll_nil, ← hw, update_eq_self]
  | cons c l ih =>
    rw [undoAll_cons, undoAll_cons]
    by_cases hc : c.address = a
    · -- entries of `a`: the same is undone on both sides
      subst hc
      rw [List.filter_cons_of_pos (by simp)] at hlog
      have hrest : ∀ k, (∀ value, c ≠ .storage c.address k value) → f k ≠ v.storage k →
          ∃ value, Change.storage c.address k value ∈ l := by
        intro k hck hk
        obtain ⟨value, hmem⟩ := hf k hk
        exact ⟨value, (List.mem_cons.1 hmem).resolve_left fun h => hck value h.symm⟩
      have hstep : ∀ (g : U256 → U256), (∀ x, c ≠ .create x) →
          ({ v with storage := f } : AccountView H).undo db c = { v.undo db c with storage := g } →
          LogOk db t (v.undo db c) (l.filter fun c' => c'.address = c.address) →
          (v.undo db c).storageRoot ≠ emptyTrie →
          (∀ k, g k ≠ (v.undo db c).storage k → ∃ value, Change.storage c.address k value ∈ l) →
          undoAll (World.undo db) l (World.undo db c
              (update w c.address (some { v with storage := f }))) =
            undoAll (World.undo db) l (World.undo db c w) := by
        intro g hcr hg hl hr hcov
        have hu : ∀ (w : World H) u, w c.address = some u →
            World.undo db c w = update w c.address (some (u.undo db c)) := by
          intro w u hwu
          rw [World.undo, hwu, Change.undo_some hcr]
        have hw' : (World.undo db c w) c.address = some (v.undo db c) := by
          rw [hu w v hw, update_self]
        rw [hu _ _ (update_self ..), update_idem, hg, hu w v hw,
          ← ih (w := update w c.address (some (v.undo db c))) (update_self ..) hl hr hcov,
          update_idem]
      cases c with
      | create x => exact absurd hlog.2.2 hroot
      | storageRoot x r => exact absurd hlog.1 hroot
      | storage x k y =>
        refine hstep (update f k y) (fun _ h => by cases h) rfl hlog hroot fun k' hk' => ?_
        have hne : k' ≠ k := fun h => hk' (by simp [h, AccountView.undo])
        refine hrest k' (fun value h => hne (by injection h with _ h; exact h.symm)) ?_
        simpa [AccountView.undo, update_of_ne hne] using hk'
      | balance x y => exact hstep f (fun _ h => by cases h) rfl hlog hroot fun k => hrest k fun _ h => by cases h
      | nonce x y => exact hstep f (fun _ h => by cases h) rfl hlog hroot fun k => hrest k fun _ h => by cases h
      | code x y => exact hstep f (fun _ h => by cases h) rfl hlog hroot fun k => hrest k fun _ h => by cases h
      | touch x =>
        exact hstep f (fun _ h => by cases h) rfl (by rw [hlog.1]; trivial) hroot
          fun k => hrest k fun _ h => by cases h
    · -- entries of other accounts are undone beside it
      rw [List.filter_cons_of_neg (by simpa using hc)] at hlog
      have hu : World.undo db c (update w a (some { v with storage := f })) =
          update (World.undo db c w) a (some { v with storage := f }) := by
        rw [World.undo, update_of_ne hc, update_comm (Ne.symm hc), World.undo]
      rw [hu]
      refine ih ?_ hlog hroot fun k hk => ?_
      · rw [World.undo, update_of_ne (Ne.symm hc)]; exact hw
      · obtain ⟨value, hmem⟩ := hf k hk
        refine ⟨value, (List.mem_cons.1 hmem).resolve_left fun h => hc ?_⟩
        rw [← h]; rfl

/-- The words of `a` that the trie does not have were written since the savepoint. -/
def Covered (savepoint : Nat) (s : State H) (a : Address) : Prop :=
  ∀ acc, s.cache.lookup a = some acc → acc.storageRoot ≠ emptyTrie →
    ∀ key, acc.storageAt s.db key ≠ s.db.storageTrie acc.storageRoot key →
      ∃ value, Change.storage a key value ∈ s.changeLog.take (s.changeLog.length - savepoint)

/-- What a rollback to the savepoint needs of a call. -/
def Call.Restorable (savepoint : Nat) (s : State H) : Call → Prop
  | mutate (.clearStorage a) => (s.cache.lookup a).isSome ∧ s.Covered savepoint a
  | mutate m => m.OnAccount s
  | read _ => True

/-- A step of a run: a call that meets `P`. -/
def Step (P : State H → Call → Prop) (s s' : State H) : Prop := ∃ c : Call, P s c ∧ c.next s = some s'

/-- From the savepoint at `s` on: a step that meets the condition keeps the way back. -/
theorem Extends.step {base : Nat} {s t t' : State H} (hb : base ≤ s.changeLog.length)
    (h : Extends Eq base s t) (hs : Step (Call.Restorable s.changeLog.length) t t') :
    Extends Eq base s t' := by
  obtain ⟨c, hc, hn⟩ := hs
  have hany := World.respects_anything s.db
  cases c with
  | read q => exact h.trans (.eq _) (Query.next_extends h.coherent hn).1
  | mutate m =>
    by_cases hcl : ∃ a, m = .clearStorage a
    · obtain ⟨a, rfl⟩ := hcl
      obtain ⟨hin, hcov⟩ := hc
      obtain ⟨acc, hl⟩ := Option.isSome_iff_exists.1 hin
      obtain ⟨hext, hview, -, hlog, hempty⟩ := next_of_wp (c := .mutate (.clearStorage a))
        (wp_mono (h.coherent.clearStorage_cached hl (E := fun _ _ => False)) (fun _ _ h => h)
          fun _ _ => False.elim) hn
      by_cases hroot : acc.storageRoot = emptyTrie
      · exact h.trans (.eq _) (hempty hroot)
      · obtain ⟨d, hd, hu⟩ := h.undoable
        have hlogd : t'.changeLog = (.storageRoot a acc.storageRoot :: d) ++ s.changeLog := by
          rw [hlog hroot, hd]; rfl
        refine ((h.weaken hany).trans hany hext).strengthen hlogd ?_
        have hv := view_of_lookup hl
        have hun : World.undo s.db (.storageRoot a acc.storageRoot) t'.view =
            update t.view a (some { acc.view t.db with
              storage := t.db.storageTrie acc.storageRoot }) := by
          rw [hview, World.undo, Change.address, update_self, update_idem,
            Change.undo_some (c := .storageRoot a acc.storageRoot) (fun _ h => by cases h),
            AccountView.clearStorage, if_neg (by exact hroot), h.db]
          rfl
        rw [undoAll_cons, hun, ← hu]
        have htake : t.changeLog.take (t.changeLog.length - s.changeLog.length) = d := by
          rw [hd, List.length_append, Nat.add_sub_cancel, List.take_left]
        have hpre : d.filter (fun c => c.address = a) <+: t.logOf base a := by
          refine List.IsPrefix.filter _ ?_
          rw [← htake]
          exact List.take_prefix_take_left (by omega)
        rw [← h.db]
        refine undoAll_dropOverlay hv ((h.coherent.cached a acc hl).log.of_prefix hpre) hroot
          fun k hk => ?_
        have := hcov acc hl hroot k (Ne.symm hk)
        rwa [htake] at this
    · have hm : m.OnAccount t := by
        cases m <;> first | exact hc | exact absurd ⟨_, rfl⟩ hcl
      have hmk : m.Marked t := by
        cases m <;> first | trivial | exact fun _ => hm
      exact h.trans (.eq _) ((m.next_post h.coherent hmk hn).exact hm fun a ha => hcl ⟨a, ha⟩)

/-- A rollback to the savepoint of `s` gives back what was seen there, up to `R`. -/
theorem Extends.rollback {R : World H → World H → Prop} {base : Nat} {s t : State H}
    (hb : base ≤ s.changeLog.length) (h : Extends R base s t) :
    ∃ t', State.rollback s.changeLog.length t = .ok () t' ∧
      Coherent base t' ∧ R t'.view s.view ∧ t'.changeLog = s.changeLog ∧ t'.db = s.db ∧
      t'.root = s.root ∧ t'.accountStartNonce = s.accountStartNonce := by
  obtain ⟨t', ht', hcoh, hview, hlog, hdb, hroot, hn⟩ :=
    h.coherent.rollbackLoop t.changeLog rfl hb h.undoable.length_le
  obtain ⟨h1, h2⟩ := h.undoable.rollback
  refine ⟨t', ?_, hcoh, ?_, hlog.trans h2, hdb.trans h.db, hroot.trans h.root,
    hn.trans h.accountStartNonce⟩
  · rw [← ht']; rfl
  · rw [hview, h.db]; exact h1

theorem rollback_run {base savepoint : Nat} {s t : State H} (h : Reachable base s)
    (hsp : eval State.savepoint s = .ok savepoint)
    (hrun : Relation.ReflTransGen (Step (Call.Restorable savepoint)) s t) :
    SameObs (after (State.rollback savepoint) t) s := by
  have hcoh := h.coherent
  obtain rfl : s.changeLog.length = savepoint := Except.ok.inj hsp
  have hext : Extends Eq base s t := by
    induction hrun with
    | refl => exact hcoh.refl
    | tail _ hs ih => exact ih.step hcoh.base_le hs
  obtain ⟨t', ht', -, hview, -, -, -, hn⟩ := hext.rollback hcoh.base_le
  have : after (State.rollback s.changeLog.length) t = t' := by rw [after, ht']
  rw [this]
  exact .of_view hview hn

/-- A word written where there is no account leaves an account behind. -/
theorem not_rollback_run : ¬ ∀ (base savepoint : Nat) (s t : State PerfectDigest), Reachable base s →
    eval State.savepoint s = .ok savepoint → Relation.ReflTransGen (Step fun _ _ => True) s t →
    SameObs (after (State.rollback savepoint) t) s := by
  intro h
  have hs := h 0 0 (preExisting 0 .empty emptyTrie fun _ => 0) _ (.preExisting OverlayDB.empty_ok) rfl
    (.single ⟨.mutate (.setStorage 1 0 5), trivial, rfl⟩)
  have hfalse : Except.ok true = (Except.ok false : Except Exn Bool) := hs.addressInUse 1
  cases hfalse

/-- An account is made after the savepoint and gets a word. -/
theorem rollback_run_createContract : ∃ t : State PerfectDigest,
    Relation.ReflTransGen (Step (Call.Restorable 0)) (preExisting 0 .empty emptyTrie fun _ => 0) t ∧
    SameObs (after (State.rollback 0) t) (preExisting 0 .empty emptyTrie fun _ => 0) := by
  have h₁ : Step (Call.Restorable 0) (preExisting (H := PerfectDigest) 0 .empty emptyTrie fun _ => 0) _ :=
    ⟨.mutate (.createContract 1), trivial, rfl⟩
  have hrun := (Relation.ReflTransGen.single h₁).tail ⟨.mutate (.setStorage 1 0 5), rfl, rfl⟩
  exact ⟨_, hrun, rollback_run (.preExisting OverlayDB.empty_ok : Reachable 0 _) rfl hrun⟩

end State

end Kmdx
