import Mathlib.Data.List.Pairwise
import Mathlib.Order.Lattice

/-!
# Sets as ranges

A set is written down as half-open ranges that are not empty, do not overlap and do not touch. A further range is taken in by
putting one range in the place of those that it meets; the complement is what lies between them.
-/

namespace Intervals

variable {α : Type} [LinearOrder α] {rs rs' : List (α × α)} {b e n last stop : α} {r : α × α}

/-- In one of the ranges -/
def Covers (rs : List (α × α)) (n : α) : Prop := ∃ r ∈ rs, r.1 ≤ n ∧ n < r.2

/-- In order from `b` to `e` -/
structure Laid (b e : α) (rs : List (α × α)) : Prop where
  le : b ≤ e
  within : ∀ r ∈ rs, b ≤ r.1 ∧ r.1 < r.2 ∧ r.2 ≤ e
  apart : rs.Pairwise fun r r' => r.2 < r'.1

theorem laid_nil (h : b ≤ e) : Laid b e [] := ⟨h, nofun, .nil⟩

@[simp] theorem not_covers_nil : ¬Covers ([] : List (α × α)) n := nofun

theorem covers_cons : Covers (r :: rs) n ↔ (r.1 ≤ n ∧ n < r.2) ∨ Covers rs n := by
  simp [Covers]

namespace Laid

theorem mono {b' e' : α} (h : Laid b e rs) (hb : b' ≤ b) (he : e ≤ e') : Laid b' e' rs where
  le := hb.trans (h.le.trans he)
  within r hr := ⟨hb.trans (h.within r hr).1, (h.within r hr).2.1, (h.within r hr).2.2.trans he⟩
  apart := h.apart

/-- Of two ranges, the one that begins first also ends before the other. -/
theorem lt_of_lt (h : Laid b e rs) {r' : α × α} (hr : r ∈ rs) (hr' : r' ∈ rs) (hlt : r.1 < r'.1) : r.2 < r'.1 := by
  obtain ⟨l₁, l₂, rfl⟩ := List.append_of_mem hr
  obtain ⟨_, hafter, hbefore⟩ := List.pairwise_append.1 h.apart
  rcases List.mem_append.1 hr' with hmem | hmem
  · exact absurd (hbefore r' hmem r List.mem_cons_self) (hlt.trans (h.within r' hr').2.1).asymm
  · rcases List.mem_cons.1 hmem with rfl | hmem
    · exact absurd hlt (lt_irrefl _)
    · exact (List.pairwise_cons.1 hafter).1 r' hmem

theorem pairwise_fst (h : Laid b e rs) : rs.Pairwise (·.1 < ·.1) :=
  h.apart.imp_of_mem fun hr _ hlt => (h.within _ hr).2.1.trans hlt

theorem tail (h : Laid b e (r :: rs)) : Laid r.2 e rs := by
  obtain ⟨hlt, hapart⟩ := List.pairwise_cons.1 h.apart
  refine ⟨(h.within r List.mem_cons_self).2.2, fun r' hr' => ⟨(hlt r' hr').le, ?_⟩, hapart⟩
  exact (h.within r' (List.mem_cons_of_mem _ hr')).2

theorem cons (h : Laid r.2 e rs) (hb : b ≤ r.1) (hr : r.1 < r.2) (hlt : ∀ r' ∈ rs, r.2 < r'.1) : Laid b e (r :: rs) where
  le := hb.trans (hr.le.trans h.le)
  within r' hr' := by
    rcases List.mem_cons.1 hr' with rfl | hr'
    · exact ⟨hb, hr, h.le⟩
    · exact ⟨hb.trans (hr.trans (hlt r' hr')).le, (h.within r' hr').2⟩
  apart := List.pairwise_cons.2 ⟨hlt, h.apart⟩

theorem le_of_covers (h : Laid b e rs) (hn : Covers rs n) : b ≤ n ∧ n < e := by
  obtain ⟨r, hr, hle, hlt⟩ := hn
  exact ⟨(h.within r hr).1.trans hle, hlt.trans_le (h.within r hr).2.2⟩

end Laid

/-! ### One more range -/

/-- `rs'` has `[b, e)` in the place of the ranges of `rs` that meet or touch it, all of which lie in it. -/
structure Merged (rs : List (α × α)) (b e : α) (rs' : List (α × α)) : Prop where
  lt : b < e
  mem : ∀ r, r ∈ rs' ↔ r = (b, e) ∨ r ∈ rs ∧ (r.2 < b ∨ e < r.1)
  within : ∀ r ∈ rs, r.2 < b ∨ e < r.1 ∨ b ≤ r.1 ∧ r.2 ≤ e

theorem Laid.merged (hrs : Laid last stop rs) (h : Merged rs b e rs') (hsorted : rs'.Pairwise (·.1 < ·.1)) (hb : last ≤ b)
    (he : e ≤ stop) : Laid last stop rs' where
  le := hrs.le
  within r hr := by
    rcases (h.mem r).1 hr with rfl | ⟨hr, _⟩
    · exact ⟨hb, h.lt, he⟩
    · exact hrs.within r hr
  apart := by
    refine hsorted.imp_of_mem fun {r r'} hr hr' hlt => ?_
    rcases (h.mem r).1 hr with rfl | ⟨hr, hside⟩ <;> rcases (h.mem r').1 hr' with rfl | ⟨hr', hside'⟩
    · exact absurd hlt (lt_irrefl b)
    · rcases hside' with hbefore | hafter
      · exact absurd ((hrs.within r' hr').2.1.trans hbefore) hlt.asymm
      · exact hafter
    · rcases hside with hbefore | hafter
      · exact hbefore
      · exact absurd (h.lt.trans hafter) hlt.asymm
    · exact hrs.lt_of_lt hr hr' hlt

theorem Merged.covers (h : Merged rs b e rs') : Covers rs' n ↔ Covers rs n ∨ b ≤ n ∧ n < e := by
  constructor
  · rintro ⟨r, hr, hn⟩
    rcases (h.mem r).1 hr with rfl | ⟨hr, _⟩
    · exact .inr hn
    · exact .inl ⟨r, hr, hn⟩
  · rintro (⟨r, hr, hn⟩ | hn)
    · rcases h.within r hr with hbefore | hafter | ⟨hb, he⟩
      · exact ⟨r, (h.mem r).2 (.inr ⟨hr, .inl hbefore⟩), hn⟩
      · exact ⟨r, (h.mem r).2 (.inr ⟨hr, .inr hafter⟩), hn⟩
      · exact ⟨(b, e), (h.mem _).2 (.inl rfl), hb.trans hn.1, hn.2.trans_le he⟩
    · exact ⟨(b, e), (h.mem _).2 (.inl rfl), hn⟩

/-! ### What is between -/

/-- What is between the ranges, from `last` to `stop`. -/
def gaps (last stop : α) : List (α × α) → List (α × α)
  | [] => if last ≠ stop then [(last, stop)] else []
  | r :: rs => if r.1 ≠ last then (last, r.1) :: gaps r.2 stop rs else gaps r.2 stop rs

theorem Laid.gaps (h : Laid last stop rs) : Laid last stop (gaps last stop rs) := by
  induction rs generalizing last with
  | nil =>
    rw [Intervals.gaps]
    split_ifs with hne
    · have hlt : last < stop := lt_of_le_of_ne h.le hne
      exact Laid.cons (r := (last, stop)) (laid_nil le_rfl) le_rfl hlt nofun
    · exact h
  | cons r rs ih =>
    obtain ⟨hle, hr, hstop⟩ := h.within r List.mem_cons_self
    have hrest := ih h.tail
    rw [Intervals.gaps]
    split_ifs with hne
    · refine (hrest.mono hr.le le_rfl).cons le_rfl (lt_of_le_of_ne hle hne.symm) fun g hg => ?_
      exact hr.trans_le (hrest.within g hg).1
    · exact hrest.mono (hle.trans hr.le) le_rfl

theorem Laid.covers_gaps (h : Laid last stop rs) :
    Covers (Intervals.gaps last stop rs) n ↔ last ≤ n ∧ n < stop ∧ ¬Covers rs n := by
  induction rs generalizing last with
  | nil =>
    rw [Intervals.gaps]
    split_ifs with hne
    · simp [covers_cons]
    · obtain rfl : last = stop := not_not.1 hne
      simp
  | cons r rs ih =>
    obtain ⟨hle, hr, hstop⟩ := h.within r List.mem_cons_self
    have hfirst : Covers (Intervals.gaps last stop (r :: rs)) n ↔ last ≤ n ∧ n < r.1 ∨
        Covers (Intervals.gaps r.2 stop rs) n := by
      rw [Intervals.gaps]
      split_ifs with hne
      · rw [covers_cons]
      · rw [← not_not.1 hne]
        exact (or_iff_right fun hn => absurd hn.2 (not_lt.2 hn.1)).symm
    rw [hfirst, ih h.tail, covers_cons]
    have hrest : Covers rs n → r.2 ≤ n := fun hn => (h.tail.le_of_covers hn).1
    constructor
    · rintro (⟨hn, hlt⟩ | ⟨hn, hlt, hnot⟩)
      · refine ⟨hn, hlt.trans (hr.trans_le hstop), ?_⟩
        rintro (hn' | hn')
        · exact absurd hlt (not_lt.2 hn'.1)
        · exact absurd (hlt.trans hr) (not_lt.2 (hrest hn'))
      · refine ⟨hle.trans (hr.le.trans hn), hlt, ?_⟩
        rintro (hn' | hn')
        · exact absurd hn'.2 (not_lt.2 hn)
        · exact hnot hn'
    · rintro ⟨hn, hlt, hnot⟩
      rcases lt_or_ge n r.1 with hbefore | hafter
      · exact .inl ⟨hn, hbefore⟩
      · refine .inr ⟨not_lt.1 fun hin => hnot (.inl ⟨hafter, hin⟩), hlt, fun hn' => hnot (.inr hn')⟩

end Intervals
