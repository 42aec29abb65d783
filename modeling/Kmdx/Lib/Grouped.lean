import Mathlib.Data.List.Destutter

/-!
# Lists of runs

Removing an element that equals its neighbour leaves no repetition exactly if the list is grouped, that is, if what
is equal stands together.
-/

namespace Groups

variable {α : Type} {a b : α} {l l' : List α}

/-- Between two equal elements there are no others. -/
def Grouped (l : List α) : Prop := ∀ a b, [a, b, a].Sublist l → b = a

theorem Grouped.sublist (h : Grouped l) (hl : l'.Sublist l) : Grouped l' := fun a b hab => h a b (hab.trans hl)

theorem grouped_nil : Grouped ([] : List α) := by
  intro a b hab
  have hlen := hab.length_le
  simp at hlen

/-- One element more in front of its like. -/
theorem grouped_cons_self : Grouped (a :: a :: l) ↔ Grouped (a :: l) := by
  constructor
  · exact fun h => h.sublist (List.sublist_cons_self a _)
  · intro h x y hxy
    rcases List.sublist_cons_iff.1 hxy with hxy | ⟨r, hr, hrl⟩
    · exact h x y hxy
    · simp only [List.cons.injEq] at hr
      obtain ⟨rfl, rfl⟩ := hr
      rcases List.sublist_cons_iff.1 hrl with hrl | ⟨r', hr', hrl'⟩
      · exact h x y (hrl.cons_cons x)
      · simp only [List.cons.injEq] at hr'
        exact hr'.1

/-- Another element ends a run for good. -/
theorem grouped_cons_of_ne (hab : a ≠ b) : Grouped (a :: b :: l) ↔ a ∉ b :: l ∧ Grouped (b :: l) := by
  constructor
  · intro h
    refine ⟨fun hmem => ?_, h.sublist (List.sublist_cons_self a _)⟩
    rcases List.mem_cons.1 hmem with rfl | hmem
    · exact hab rfl
    · have hsub : [a, b, a].Sublist (a :: b :: l) := ((List.singleton_sublist.2 hmem).cons_cons b).cons_cons a
      exact hab (h a b hsub).symm
  · rintro ⟨hmem, h⟩ x y hxy
    rcases List.sublist_cons_iff.1 hxy with hxy | ⟨r, hr, hrl⟩
    · exact h x y hxy
    · simp only [List.cons.injEq] at hr
      obtain ⟨rfl, rfl⟩ := hr
      exact absurd (hrl.subset (by simp)) hmem

/-! ### Without neighbours that are equal -/

variable [DecidableEq α]

theorem mem_destutter'_ne {x : α} : x ∈ l.destutter' (· ≠ ·) a ↔ x ∈ a :: l := by
  induction l generalizing a with
  | nil => rfl
  | cons b l ih =>
    by_cases hab : a ≠ b
    · simp only [List.destutter'_cons_pos _ hab, List.mem_cons, ih]
    · obtain rfl := not_not.1 hab
      rw [List.destutter'_cons_neg _ hab, ih]
      simp

@[simp] theorem mem_destutter_ne {x : α} : x ∈ l.destutter (· ≠ ·) ↔ x ∈ l := by
  cases l with
  | nil => rfl
  | cons a l => exact mem_destutter'_ne

theorem nodup_destutter'_iff : (l.destutter' (· ≠ ·) a).Nodup ↔ Grouped (a :: l) := by
  induction l generalizing a with
  | nil =>
    rw [List.destutter'_nil]
    refine iff_of_true (List.nodup_singleton a) fun x y hxy => ?_
    have hlen := hxy.length_le
    simp at hlen
  | cons b l ih =>
    by_cases hab : a ≠ b
    · rw [List.destutter'_cons_pos _ hab, List.nodup_cons, mem_destutter'_ne, ih, grouped_cons_of_ne hab]
    · obtain rfl := not_not.1 hab
      rw [List.destutter'_cons_neg _ hab, ih, grouped_cons_self]

theorem nodup_destutter_iff : (l.destutter (· ≠ ·)).Nodup ↔ Grouped l := by
  cases l with
  | nil => exact iff_of_true List.nodup_nil grouped_nil
  | cons a l => exact nodup_destutter'_iff

end Groups
