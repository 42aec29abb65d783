import Mathlib.Data.List.AList

/-!
# Filling a map

A loop that inserts one entry after the other. If all entries are of one function, so is what is found afterwards, wherever it
has been before or an entry says it.
-/

namespace AList

variable {α : Type} {β γ : α → Type} [DecidableEq α] {m : AList β} {l : List (Sigma β)} {a : α}

def insertAll (m : AList β) (l : List (Sigma β)) : AList β := l.foldl (fun m e => m.insert e.1 e.2) m

theorem lookup_insertAll_of_agree {g : ∀ a, Option (β a)} (hl : ∀ e ∈ l, g e.1 = some e.2)
    (ha : a ∈ l.keys ∨ m.lookup a = g a) : (m.insertAll l).lookup a = g a := by
  induction l generalizing m with
  | nil => exact ha.resolve_left List.not_mem_nil
  | cons e l ih =>
    refine ih (fun e' he' => hl e' (List.mem_cons_of_mem _ he')) ?_
    by_cases hae : a = e.1
    · subst hae
      exact .inr ((AList.lookup_insert m).trans (hl e List.mem_cons_self).symm)
    · rw [AList.lookup_insert_ne hae]
      refine ha.imp_left fun hmem => ?_
      rw [List.keys_cons, List.mem_cons] at hmem
      exact hmem.resolve_left hae

/-- The entries of another map, with other values -/
theorem lookup_insertAll_map (m : AList β) (n : AList γ) (f : ∀ a, γ a → β a) (a : α) :
    (m.insertAll (n.entries.map fun e => ⟨e.1, f e.1 e.2⟩)).lookup a = ((n.lookup a).map (f a)).or (m.lookup a) := by
  refine lookup_insertAll_of_agree (g := fun a => ((n.lookup a).map (f a)).or (m.lookup a)) ?_ ?_
  · intro e he
    obtain ⟨⟨k, v⟩, hv, rfl⟩ := List.mem_map.1 he
    dsimp only
    rw [AList.mem_lookup_iff.2 hv]
    rfl
  · cases hn : n.lookup a with
    | none => exact .inr rfl
    | some v =>
      rw [List.keys, List.map_map]
      exact .inl (List.mem_map_of_mem (AList.mem_lookup_iff.1 hn) : Sigma.fst (⟨a, v⟩ : Sigma γ) ∈ _)

theorem lookup_insertAll_entries (m n : AList β) (a : α) :
    (m.insertAll n.entries).lookup a = (n.lookup a).or (m.lookup a) := by
  have hmap := lookup_insertAll_map m n (fun _ v => v) a
  rwa [show (n.entries.map fun e => (⟨e.1, e.2⟩ : Sigma β)) = n.entries from List.map_id _, Option.map_id'] at hmap

end AList
