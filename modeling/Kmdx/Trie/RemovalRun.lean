import Kmdx.Trie.Holds

/-!
# Runs with removals

A removal does exactly what its caller expects if and only if the key is `Removable` (`removals_exact`). It is not, for
one, where the key of the only entry is a proper prefix of the key that is removed (`not_removals_exact`).
-/

namespace Kmdx.Trie

open Wp

section Runs

variable [Sha3] {s s' : TrieDB} {m : Contents} {k : Bytes}

/-- The removal returns and takes no value for the hash of a node, the key has no value then, all the others have the
values that they had, and if the key had none, then nothing changes. -/
def RemovesExactly (s : TrieDB) (k : Bytes) : Prop :=
  ∃ s', (remove k).run s = .ok () s' ∧ Clean s s' ∧ eval (at_ k).run s' = .ok [] ∧
    (∀ k', k' ≠ k → ∃ b, eval (at_ k').run s = .ok b ∧ eval (at_ k').run s' = .ok b) ∧
    (eval (at_ k).run s = .ok [] → s'.root = s.root ∧ s'.main = s.main)

/-- So do all removals of a run. -/
def RemoveExactly : TrieDB → List Op → Prop
  | _, [] => True
  | s, .insert k v :: ops => ∀ s', (insert k v).run s = .ok () s' → RemoveExactly s' ops
  | s, .remove k :: ops => RemovesExactly s k ∧ ∀ s', (remove k).run s = .ok () s' → RemoveExactly s' ops

theorem Rooted.eval_at {t : RadixTree 16 Bytes} (h : Rooted s m t) (hno : NoCollision s) (k : Bytes) :
    eval (at_ k).run s = .ok ((m k).getD []) := by
  obtain ⟨b, s', hrun, -, -, rfl, -⟩ := (h.does_at k).run_of_reads (reads_at k) hno
  exact eval_of_eq_ok hrun

theorem eval_at (h : Holds s m) (hno : NoCollision s) (k : Bytes) : eval (at_ k).run s = .ok ((m k).getD []) := by
  obtain ⟨t, ht⟩ := h
  exact ht.rooted.eval_at hno k

theorem Holds.eval_at_eq_nil_iff (h : Holds s m) (hno : NoCollision s) : eval (at_ k).run s = .ok [] ↔ m k = none := by
  rw [eval_at h hno, Except.ok.injEq]
  obtain ⟨t, ht⟩ := h
  cases hm : m k with
  | none => exact iff_of_true rfl rfl
  | some v => exact iff_of_false (ht.valued k v hm) nofun

/-- The end of a call, seen from the end of the run. -/
theorem noCollision_of_bind {α β : Type} {x : M α} {f : α → M β} (hno : NoCollision (after (x >>= f).run s)) :
    NoCollision (after x.run s) := by
  change NoCollision (after (x.run >>= fun a => (f a).run) s) at hno
  rw [after, run_bind] at hno
  rw [after]
  cases hx : x.run s with
  | error e s' =>
    rw [hx] at hno
    exact hno
  | ok a s' =>
    rw [hx] at hno
    have hgrew := (f a).grew s'
    rw [wp] at hgrew
    cases hf : (f a).run s' with
    | ok b s'' =>
      simp only [hf] at hno hgrew
      exact hgrew.noCollision hno
    | error e s'' =>
      simp only [hf] at hno hgrew
      exact hgrew.noCollision hno

theorem after_bind_of_ok {α β : Type} {x : M α} {f : α → M β} {a : α} (hx : x.run s = .ok a s') :
    after (x >>= f).run s = after (f a).run s' := by
  change after (x.run >>= fun a => (f a).run) s = _
  rw [after, run_bind, hx]
  rfl

theorem removesExactly_iff (h : Holds s m) (hclean : ¬Spoiled s) (hno : NoCollision (after (remove k).run s)) :
    RemovesExactly s k ↔ Removable m k := by
  constructor
  · rintro ⟨s', hrun, hclean', -⟩
    by_contra hk
    have hstrays := wp_ok (strays_remove h hk) hrun
    rw [after, hrun] at hno
    obtain ⟨p, hp, hvalue⟩ := hstrays hno
    exact hclean ⟨p, hclean' p hp hvalue, hvalue⟩
  · intro hk
    obtain ⟨_, s', hrun, hclean', hholds, hreads⟩ := (does_remove h hk).run hno
    rw [after, hrun] at hno
    have hgrew := wp_ok ((remove k).grew s) hrun
    have hno' := hgrew.noCollision hno
    refine ⟨s', hrun, hclean', ?_, fun k' hk' => ⟨(m k').getD [], eval_at h hno' k', ?_⟩, fun habsent => ?_⟩
    · rw [eval_at hholds hno, Function.update_self]
      rfl
    · rw [eval_at hholds hno, Function.update_of_ne hk']
    · have hsame := hreads ((h.eval_at_eq_nil_iff hno').1 habsent)
      exact ⟨hsame.root, hsame.main⟩

theorem removeExactly_iff {ops : List Op} (h : Holds s m) (hclean : ¬Spoiled s)
    (hvalues : ∀ k v, Op.insert k v ∈ ops → v ≠ [])
    (hno : NoCollision (after (runAll ops).run s)) : RemoveExactly s ops ↔ AllAllowed m ops := by
  induction ops generalizing s m with
  | nil => exact Iff.rfl
  | cons o ops ih =>
    have hvalues' : ∀ k v, Op.insert k v ∈ ops → v ≠ [] := fun k v hmem => hvalues k v (List.mem_cons_of_mem o hmem)
    have hno' : NoCollision (after o.run.run s) := noCollision_of_bind hno
    have hrest : ∀ s', o.run.run s = .ok () s' → Clean s s' → Holds s' (o.write m) →
        ((∀ s'', o.run.run s = .ok () s'' → RemoveExactly s'' ops) ↔ AllAllowed (o.write m) ops) := by
      intro s' hrun hclean' hholds
      have hno'' : NoCollision (after (runAll ops).run s') := by
        rw [← after_bind_of_ok (f := fun _ => runAll ops) hrun]
        exact hno
      rw [← ih hholds (fun ⟨p, hp, hvalue⟩ => hclean ⟨p, hclean' p hp hvalue, hvalue⟩) hvalues' hno'']
      refine ⟨fun hall => hall s' hrun, fun hs' s'' hrun' => ?_⟩
      rw [hrun] at hrun'
      cases hrun'
      exact hs'
    cases o with
    | insert k v =>
      have hv := hvalues k v List.mem_cons_self
      obtain ⟨_, s', hrun, hclean', hholds⟩ := (does_insert h k hv).run hno'
      rw [RemoveExactly, AllAllowed]
      exact (hrest s' hrun hclean' hholds).trans (and_iff_right hv).symm
    | remove k =>
      rw [RemoveExactly, AllAllowed, removesExactly_iff h hclean hno']
      refine and_congr_right fun hk => ?_
      obtain ⟨_, s', hrun, hclean', hholds, -⟩ := (does_remove h hk).run hno'
      exact hrest s' hrun hclean' hholds

/-- In every run of insertions and removals from the empty trie, the removals do exactly what their callers expect if and
only if the keys are removable. -/
theorem removals_exact (root : H256) (ops : List Op) (hvalues : ∀ k v, Op.insert k v ∈ ops → v ≠ [])
    (hno : NoCollision (after (do init; runAll ops).run (.empty root))) :
    RemoveExactly (after init.run (.empty root)) ops ↔ AllAllowed (fun _ => none) ops := by
  obtain ⟨_, s, hrun, hclean, hholds⟩ := (does_init (s := .empty root)).run (noCollision_of_bind hno)
  rw [after_bind_of_ok hrun] at hno
  rw [after, hrun]
  refine removeExactly_iff hholds ?_ hvalues hno
  rintro ⟨p, hp, hvalue⟩
  cases hclean p hp hvalue

end Runs

/-! ### With the bytes for their hash -/

/-- The bytes themselves, cut down or filled up. -/
abbrev padded : Sha3 where
  hash b := ⟨(b ++ List.replicate 32 0).take 32, by simp⟩

attribute [local instance] padded

/-- The root of no trie. -/
def noRoot : H256 := ⟨List.replicate 32 0, rfl⟩

theorem noCollision_padded {s : TrieDB} (h : ∀ t ∈ s.inserted, t = .data [] ∨ t = .list [.data [0x20, 1], .data [2]]) :
    NoCollision s := by
  intro t ht t' ht' heq
  rcases h t ht with rfl | rfl <;> rcases h t' ht' with rfl | rfl
  · rfl
  · exact absurd heq (by decide)
  · exact absurd heq (by decide)
  · rfl

theorem removals_exact_one : RemoveExactly (after init.run (.empty noRoot)) [.insert [1] [2], .remove [1]] ↔
    AllAllowed (fun _ => none) [.insert [1] [2], .remove [1]] := by
  have hinserted : (after (do init; runAll [.insert [1] [2], .remove [1]]).run (.empty noRoot)).inserted =
      [.data [], .list [.data [0x20, 1], .data [2]], .data []] := rfl
  refine removals_exact noRoot [.insert [1] [2], .remove [1]] (fun k v hv => ?_) (noCollision_padded ?_)
  · simp only [List.mem_cons, Op.insert.injEq, reduceCtorEq, List.not_mem_nil, or_false] at hv
    rw [hv.2]
    exact List.cons_ne_nil _ _
  · rw [hinserted]
    simp

/-- With one entry, the removal of a longer key takes its value for the hash of a node. -/
theorem not_removals_exact : ¬∀ (_ : Sha3) (root : H256) (ops : List Op), (∀ k v, Op.insert k v ∈ ops → v ≠ []) →
    NoCollision (after (do init; runAll ops).run (.empty root)) → RemoveExactly (after init.run (.empty root)) ops := by
  intro h
  have hinserted : (after (do init; runAll [.insert [1] [2], .remove [1, 3]]).run (.empty noRoot)).inserted =
      [.list [.data [0x20, 1], .data [2]], .data []] := rfl
  have hexact := h padded noRoot [.insert [1] [2], .remove [1, 3]] (fun k v hv => ?_) (noCollision_padded ?_)
  · have hinsert : (insert [1] [2]).run (after init.run (.empty noRoot)) =
        .ok () (after (do init; insert [1] [2]).run (.empty noRoot)) := rfl
    have hremove : eval (remove [1, 3]).run (after (do init; insert [1] [2]).run (.empty noRoot)) = .error .assertion := rfl
    obtain ⟨s', hrun, -⟩ := (hexact _ hinsert).1
    rw [eval_of_eq_ok hrun] at hremove
    cases hremove
  · simp only [List.mem_cons, Op.insert.injEq, reduceCtorEq, List.not_mem_nil, or_false] at hv
    rw [hv.2]
    exact List.cons_ne_nil _ _
  · rw [hinserted]
    simp

end Kmdx.Trie
