/-!
# Runs

A run from a state is a list of operations, each of which may be impossible in the state it finds.
`Always` is about the states of a run and `Each` about its steps; where a step keeps `P` exactly under a
condition, the two are the same (`always_iff_each`).
-/

namespace Runs

variable {S O : Type} (step : S → O → Option S)

/-- `P` holds in every state of the run, as far as it goes. -/
def Always (P : S → Prop) : S → List O → Prop
  | s, [] => P s
  | s, o :: ops => P s ∧ ∀ s', step s o = some s' → Always P s' ops

/-- `C` holds of every step of the run. -/
def Each (C : S → O → Prop) : S → List O → Prop
  | _, [] => True
  | s, o :: ops => ∀ s', step s o = some s' → C s o ∧ Each C s' ops

variable {step} {P : S → Prop} {C : S → O → Prop}

theorem Always.start {s : S} {ops : List O} (h : Always step P s ops) : P s := by
  cases ops with
  | nil => exact h
  | cons o ops => exact h.1

theorem Always.imp {Q : S → Prop} (hPQ : ∀ {s}, P s → Q s) {s : S} {ops : List O} (h : Always step P s ops) :
    Always step Q s ops := by
  induction ops generalizing s with
  | nil => exact hPQ h
  | cons o ops ih => exact ⟨hPQ h.1, fun s' hs' => ih (h.2 s' hs')⟩

theorem Always.after {s s' : S} {ops : List O} (h : Always step P s ops) (hs' : ops.foldlM step s = some s') : P s' := by
  induction ops generalizing s with
  | nil => exact Option.some.inj hs' ▸ h
  | cons o ops ih =>
    obtain ⟨s₁, hs₁, hs'⟩ := Option.bind_eq_some_iff.1 hs'
    exact ih (h.2 s₁ hs₁) hs'

theorem always_of_inv {I : S → Prop} (hI : ∀ {s o s'}, I s → step s o = some s' → I s')
    (hP : ∀ {s}, I s → P s) {s : S} (hi : I s) (ops : List O) : Always step P s ops := by
  induction ops generalizing s with
  | nil => exact hP hi
  | cons o ops ih => exact ⟨hP hi, fun s' hs' => ih (hI hi hs')⟩

/-- An invariant that a step keeps under a condition -/
theorem always_of_each {I : S → Prop} (hI : ∀ {s o s'}, I s → C s o → step s o = some s' → I s')
    (hP : ∀ {s}, I s → P s) {s : S} (hi : I s) {ops : List O} (h : Each step C s ops) : Always step P s ops := by
  induction ops generalizing s with
  | nil => exact hP hi
  | cons o ops ih =>
    refine ⟨hP hi, fun s' hs' => ?_⟩
    obtain ⟨hC, hrest⟩ := h s' hs'
    exact ih (hI hi hC hs') hrest

/-- The condition may rest on what every state of the run satisfies anyway. -/
theorem always_iff_each_of_inv {I : S → Prop} (hI : ∀ {s o s'}, I s → step s o = some s' → I s')
    (hstep : ∀ {s o s'}, I s → P s → step s o = some s' → (P s' ↔ C s o)) {s : S} (hi : I s) (hs : P s) (ops : List O) :
    Always step P s ops ↔ Each step C s ops := by
  induction ops generalizing s with
  | nil => exact ⟨fun _ => trivial, fun _ => hs⟩
  | cons o ops ih =>
    constructor
    · intro h s' hs'
      have hrest := h.2 s' hs'
      exact ⟨(hstep hi hs hs').1 hrest.start, (ih (hI hi hs') hrest.start).1 hrest⟩
    · refine fun h => ⟨hs, fun s' hs' => ?_⟩
      obtain ⟨hC, hrest⟩ := h s' hs'
      exact (ih (hI hi hs') ((hstep hi hs hs').2 hC)).2 hrest

theorem always_iff_each (hstep : ∀ {s o s'}, P s → step s o = some s' → (P s' ↔ C s o)) {s : S}
    (hs : P s) (ops : List O) : Always step P s ops ↔ Each step C s ops :=
  always_iff_each_of_inv (I := fun _ => True) (fun _ _ => trivial) (fun _ => hstep) trivial hs ops

end Runs
