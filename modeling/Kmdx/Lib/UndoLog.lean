import Mathlib.Data.List.Basic

/-!
# Undo logs

A journal is a list of entries, newest first; `undo` takes one entry back. `Undoable` says that the
entries a piece of work pushed take that work back, up to a relation `R` that says how much of the
state has to come back. It composes, and undoing down to a savepoint of such work restores the state
there (`Undoable.rollback`).
-/

namespace UndoLog

variable {S E : Type} (undo : E → S → S)

/-- Take back the entries of `l`, newest (head) first. -/
def undoAll (l : List E) (s : S) : S := l.foldl (fun s e => undo e s) s

@[simp] theorem undoAll_nil (s : S) : undoAll undo [] s = s := rfl

@[simp] theorem undoAll_cons (e : E) (l : List E) (s : S) :
    undoAll undo (e :: l) s = undoAll undo l (undo e s) := rfl

theorem undoAll_append (l l' : List E) (s : S) :
    undoAll undo (l ++ l') s = undoAll undo l' (undoAll undo l s) := by
  simp [undoAll, List.foldl_append]

/-- `R` relates states that undoing keeps related. -/
structure Respects (R : S → S → Prop) : Prop where
  refl : ∀ s, R s s
  trans : ∀ {s t u}, R s t → R t u → R s u
  undo : ∀ e {s t}, R s t → R (undo e s) (undo e t)

theorem Respects.eq : Respects undo Eq := ⟨fun _ => rfl, Eq.trans, fun _ _ _ h => h ▸ rfl⟩

/-- The work from `(l, s)` to `(l', s')` is taken back, up to `R`, by the entries it pushed. -/
def Undoable (R : S → S → Prop) (l : List E) (s : S) (l' : List E) (s' : S) : Prop :=
  ∃ d, l' = d ++ l ∧ R (undoAll undo d s') s

variable {undo} {R : S → S → Prop} {l l' l'' : List E} {s s' s'' : S}

theorem Respects.undoAll (hR : Respects undo R) (l : List E) (h : R s s') :
    R (undoAll undo l s) (undoAll undo l s') := by
  induction l generalizing s s' with
  | nil => exact h
  | cons e l ih => exact ih (hR.undo e h)

namespace Undoable

theorem refl (hR : Respects undo R) : Undoable undo R l s l s := ⟨[], rfl, hR.refl s⟩

theorem of_eq (hR : Respects undo R) (h : s' = s) : Undoable undo R l s l s' := h ▸ refl hR

theorem weaken (hR : Respects undo R) (h : Undoable undo Eq l s l' s') : Undoable undo R l s l' s' := by
  obtain ⟨d, hl, hd⟩ := h
  exact ⟨d, hl, hd ▸ hR.refl _⟩

theorem trans (hR : Respects undo R) (h : Undoable undo R l s l' s')
    (h' : Undoable undo R l' s' l'' s'') : Undoable undo R l s l'' s'' := by
  obtain ⟨d, rfl, hd⟩ := h
  obtain ⟨d', rfl, hd'⟩ := h'
  refine ⟨d' ++ d, (List.append_assoc ..).symm, ?_⟩
  rw [undoAll_append]
  exact hR.trans (hR.undoAll d hd') hd

theorem length_le (h : Undoable undo R l s l' s') : l.length ≤ l'.length := by
  obtain ⟨d, rfl, -⟩ := h; simp

/-- Undoing down to the length the log had at the savepoint restores the savepoint's state. -/
theorem rollback (h : Undoable undo R l s l' s') :
    R (UndoLog.undoAll undo (l'.take (l'.length - l.length)) s') s ∧
      l'.drop (l'.length - l.length) = l := by
  obtain ⟨d, rfl, hd⟩ := h
  simpa using hd

end Undoable

end UndoLog
