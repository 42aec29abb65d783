import Mathlib.Data.List.Iterate

/-!
# Trees of parents

Each node but the root has a parent one level below. Where two nodes meet first on their ways to the root, there is their
lowest common ancestor (`Rooted.isLca`).
-/

namespace Ancestry

variable {H : Type} {known : H → Prop} {root : H} {parent : H → H} {level : H → Nat} {a b x y : H} {i j : Nat}

structure Rooted (known : H → Prop) (root : H) (parent : H → H) (level : H → Nat) : Prop where
  root_level : level root = 0
  parent_known : ∀ {x}, known x → x ≠ root → known (parent x)
  parent_level : ∀ {x}, known x → x ≠ root → level x = level (parent x) + 1

/-- `a` is `x`, or on the way from `x` to the root. -/
def Ancestor (parent : H → H) (level : H → Nat) (a x : H) : Prop := ∃ i ≤ level x, parent^[i] x = a

structure IsLca (parent : H → H) (level : H → Nat) (x y a : H) : Prop where
  left : Ancestor parent level a x
  right : Ancestor parent level a y
  lowest : ∀ b, Ancestor parent level b x → Ancestor parent level b y → Ancestor parent level b a

/-- The way from `x` to its ancestor `a`, without that -/
def path (parent : H → H) (level : H → Nat) (x a : H) : List H := List.iterate parent x (level x - level a)

@[simp] theorem length_path (x a : H) : (path parent level x a).length = level x - level a := List.length_iterate ..

namespace Rooted

section

variable (h : Rooted known root parent level)
include h

theorem eq_root (hx : known x) (hlevel : level x = 0) : x = root := by
  by_contra hne
  have := h.parent_level hx hne
  omega

theorem ne_root (hlevel : level x ≠ 0) : x ≠ root := by
  rintro rfl
  exact hlevel h.root_level

theorem iterate (hx : known x) (hi : i ≤ level x) : known (parent^[i] x) ∧ level (parent^[i] x) = level x - i := by
  induction i generalizing x with
  | zero => exact ⟨hx, rfl⟩
  | succ i ih =>
    have hne := h.ne_root (x := x) (by omega)
    have hlevel := h.parent_level hx hne
    obtain ⟨hknown, hi'⟩ := ih (h.parent_known hx hne) (by omega)
    rw [Function.iterate_succ_apply]
    exact ⟨hknown, by omega⟩

theorem known_of_ancestor (hx : known x) (ha : Ancestor parent level a x) : known a := by
  obtain ⟨i, hi, rfl⟩ := ha
  exact (h.iterate hx hi).1

/-- An ancestor is found by its level. -/
theorem ancestor_iff (hx : known x) :
    Ancestor parent level a x ↔ level a ≤ level x ∧ parent^[level x - level a] x = a := by
  constructor
  · rintro ⟨i, hi, rfl⟩
    have hlevel := (h.iterate hx hi).2
    rw [hlevel, Nat.sub_sub_self hi]
    exact ⟨Nat.sub_le _ _, rfl⟩
  · rintro ⟨hle, heq⟩
    exact ⟨level x - level a, Nat.sub_le _ _, heq⟩

/-- Of two ancestors the one that is not above is an ancestor of the other. -/
theorem ancestor_of_le (hx : known x) (ha : Ancestor parent level a x)
    (hb : Ancestor parent level b x) (hle : level b ≤ level a) : Ancestor parent level b a := by
  obtain ⟨hax, ha'⟩ := (h.ancestor_iff hx).1 ha
  obtain ⟨hbx, hb'⟩ := (h.ancestor_iff hx).1 hb
  refine (h.ancestor_iff (h.known_of_ancestor hx ha)).2 ⟨hle, ?_⟩
  have hsteps : level x - level b = level a - level b + (level x - level a) := by omega
  rw [hsteps, Function.iterate_add_apply, ha'] at hb'
  exact hb'

/-- `i` steps from `x` and `j` steps from `y` there is one node, and there is none at a higher level. -/
theorem isLca (hx : known x) (hy : known y) (hi : i ≤ level x) (hj : j ≤ level y) (heq : parent^[i] x = parent^[j] y)
    (hfirst : ∀ i' j', i' < i → level x + j' = level y + i' → parent^[i'] x ≠ parent^[j'] y) :
    IsLca parent level x y (parent^[i] x) := by
  have hleft : Ancestor parent level (parent^[i] x) x := ⟨i, hi, rfl⟩
  refine ⟨hleft, ⟨j, hj, heq.symm⟩, fun b hbx hby => h.ancestor_of_le hx hleft hbx ?_⟩
  obtain ⟨hle, hb⟩ := (h.ancestor_iff hx).1 hbx
  obtain ⟨hle', hb'⟩ := (h.ancestor_iff hy).1 hby
  rw [(h.iterate hx hi).2]
  by_contra hlt
  exact hfirst (level x - level b) (level y - level b) (by omega) (by omega) (hb.trans hb'.symm)

end

theorem ancestor_refl (x : H) : Ancestor parent level x x := ⟨0, Nat.zero_le _, rfl⟩

theorem path_eq_iterate (h : Rooted known root parent level) (hx : known x) (hi : i ≤ level x) :
    path parent level x (parent^[i] x) = List.iterate parent x i := by
  rw [path, (h.iterate hx hi).2, Nat.sub_sub_self hi]

end Rooted

end Ancestry
