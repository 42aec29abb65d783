import Kmdx.RangeMask

/-!
# Differences and lowest elements of masks (`libdevcore/RangeMask.h`)

A difference is a complement, a union and a complement again; but the union widens the ground range, so what only the other
mask has room for comes in. Of a mask and itself it is the mask. The begin of a range and the number of elements are added in
32 bits.
-/

namespace Kmdx.RangeMask

open Intervals List

variable {a b : RangeMask} {r : Nat × Nat} {l : List (Nat × Nat)} {n x items first last : Nat}

/-! ### The code -/

/-- `operator-=`, of another mask -/
def minusAssign (a m : RangeMask) : Option RangeMask := (a.inverted.unionWith m).map inverted

/-- `operator-=`, of the mask itself, which `invert` has changed when it is united. -/
def minusAssignItself (a : RangeMask) : Option RangeMask := (a.inverted.unionWith a.inverted).map inverted

/-- `operator-`, on a copy -/
def minus (a m : RangeMask) : Option RangeMask :=
  let ret := a
  ret.minusAssign m

/-- The loop of `lowest` -/
def lowestLoop : List (Nat × Nat) → Nat → SortedMap Nat Nat → SortedMap Nat Nat
  | [], _, ret => ret
  | i :: is, items, ret =>
    if items = 0 then ret
    else
      let end_ := min ((i.1 + items) % 2 ^ 32) i.2
      lowestLoop is ((items + 2 ^ 32 - (end_ + 2 ^ 32 - i.1) % 2 ^ 32) % 2 ^ 32) (ret.insert i.1 end_)

def lowest (a : RangeMask) (items : Nat) : RangeMask := { a with ranges := lowestLoop a.ranges.entries items ∅ }

/-! ### What is promised -/

/-- The elements of `a` that are not in `b`. -/
def IsMinus (a b : RangeMask) (d : Option RangeMask) : Prop := ∃ c, d = some c ∧ ∀ x,
    c.contains x ↔ a.contains x ∧ ¬b.contains x

/-- The least elements, as many as there are or as are asked for. -/
def IsLowest (a : RangeMask) (n : Nat) (c : RangeMask) : Prop := ∀ x, c.contains x ↔ x ∈ (a.toFinset.sort (· ≤ ·)).take n

/-! ### Differences -/

/-- What a difference has. -/
theorem minus_spec (ha : Valid a) (hb : Valid b) : ∃ c, a.minusAssign b = some c ∧ ∀ x, c.contains x ↔
    min b.all.1 a.all.1 ≤ x ∧ x < max b.all.2 a.all.2 ∧ ¬b.contains x ∧ (a.all.1 ≤ x → x < a.all.2 → a.contains x) := by
  obtain ⟨hinverted, hall, hcovers⟩ := inverted_spec ha
  obtain ⟨c, hc, hvalid, hall', hcovers'⟩ := unionWith_spec hinverted hb
  obtain ⟨hvalid', _, hcovers''⟩ := inverted_spec hvalid
  refine ⟨c.inverted, by rw [minusAssign, hc, Option.map_some], fun x => ?_⟩
  rw [contains_iff hvalid', hcovers'', hall', hall, hcovers', hcovers, contains_iff hb, contains_iff ha]
  tauto

theorem isMinus_iff (ha : Valid a) (hb : Valid b) : IsMinus a b (a.minus b) ↔
    ∀ x, min b.all.1 a.all.1 ≤ x → x < max b.all.2 a.all.2 → ¬(a.all.1 ≤ x ∧ x < a.all.2) → b.contains x := by
  obtain ⟨c, hc, hcontains⟩ := minus_spec ha hb
  have hin : ∀ {x}, a.contains x → a.all.1 ≤ x ∧ x < a.all.2 := fun hx => ha.laid.le_of_covers ((contains_iff ha).1 hx)
  constructor
  · rintro ⟨d, hd, hright⟩ x hmin hmax hout
    by_contra hnot
    obtain rfl := Option.some_inj.1 (hc.symm.trans hd)
    have hx := (hright x).1 ((hcontains x).2 ⟨hmin, hmax, hnot, fun h h' => absurd ⟨h, h'⟩ hout⟩)
    exact hout (hin hx.1)
  · intro h
    refine ⟨c, hc, fun x => ?_⟩
    rw [hcontains]
    constructor
    · rintro ⟨hmin, hmax, hnot, ha⟩
      refine ⟨?_, hnot⟩
      by_contra hnot'
      exact hnot (h x hmin hmax fun hx => hnot' (ha hx.1 hx.2))
    · rintro ⟨hx, hnot⟩
      obtain ⟨hle, hlt⟩ := hin hx
      exact ⟨(min_le_right _ _).trans hle, hlt.trans_le (le_max_right _ _), hnot, fun _ _ => hx⟩

/-- A mask without itself is itself. -/
theorem minusAssignItself_spec (ha : Valid a) : ∃ c, a.minusAssignItself = some c ∧ ∀ x, c.contains x ↔ a.contains x := by
  obtain ⟨hinverted, hall, hcovers⟩ := inverted_spec ha
  obtain ⟨c, hc, hvalid, hall', hcovers'⟩ := unionWith_spec hinverted hinverted
  obtain ⟨hvalid', _, hcovers''⟩ := inverted_spec hvalid
  refine ⟨c.inverted, by rw [minusAssignItself, hc, Option.map_some], fun x => ?_⟩
  have hin := fun hx => ha.laid.le_of_covers (n := x) hx
  rw [contains_iff hvalid', hcovers'', hall', hall, hcovers', hcovers, contains_iff ha, min_self, max_self]
  tauto

theorem isMinus_itself_iff (ha : Valid a) : IsMinus a a a.minusAssignItself ↔ a.toFinset = ∅ := by
  obtain ⟨c, hc, hcontains⟩ := minusAssignItself_spec ha
  rw [Finset.eq_empty_iff_forall_notMem]
  constructor
  · rintro ⟨d, hd, hright⟩ x hx
    obtain rfl := Option.some_inj.1 (hc.symm.trans hd)
    rw [mem_toFinset, ← contains_iff ha] at hx
    exact ((hright x).1 ((hcontains x).2 hx)).2 hx
  · intro h
    refine ⟨c, hc, fun x => ?_⟩
    have hx := h x
    rw [mem_toFinset, ← contains_iff ha] at hx
    rw [hcontains]
    exact iff_of_false hx fun hx' => hx hx'.1

/-! ### The lowest elements -/

/-- The ranges that the loop of `lowest` gives. -/
def lowestRanges : List (Nat × Nat) → Nat → List (Nat × Nat)
  | [], _ => []
  | i :: is, items =>
    if items = 0 then []
    else
      let end_ := min ((i.1 + items) % 2 ^ 32) i.2
      (i.1, end_) :: lowestRanges is ((items + 2 ^ 32 - (end_ + 2 ^ 32 - i.1) % 2 ^ 32) % 2 ^ 32)

theorem lowestLoop_entries {ret : SortedMap Nat Nat} (hl : l.Pairwise (·.1 < ·.1))
    (hret : ∀ e ∈ ret.entries, ∀ r ∈ l, e.1 < r.1) :
    (lowestLoop l items ret).entries = ret.entries ++ lowestRanges l items := by
  fun_induction lowestLoop l items ret with
  | case1 items ret => rw [lowestRanges, append_nil]
  | case2 r l ret => rw [lowestRanges, if_pos rfl, append_nil]
  | case3 r l items ret hitems end_ ih =>
    obtain ⟨hlt, hl⟩ := pairwise_cons.1 hl
    have hentries := SortedMap.entries_insert_of_gt (v := end_) fun e he => hret e he r mem_cons_self
    rw [ih hl, hentries, append_assoc, singleton_append, lowestRanges, if_neg hitems]
    intro e he r' hr'
    rw [hentries] at he
    rcases mem_append.1 he with he | he
    · exact hret e he r' (mem_cons_of_mem _ hr')
    · rw [mem_singleton.1 he]
      exact hlt r' hr'

/-- No addition is too large. -/
def Fits : List (Nat × Nat) → Nat → Prop
  | [], _ => True
  | r :: l, items => items = 0 ∨ r.1 + items < 2 ^ 32 ∧ Fits l (items - (r.2 - r.1))

theorem lowestRanges_fst {r' : Nat × Nat} (h : r' ∈ lowestRanges l items) : ∃ r ∈ l, r.1 = r'.1 := by
  induction l generalizing items with
  | nil => cases h
  | cons r l ih =>
    rw [lowestRanges] at h
    split_ifs at h
    · cases h
    · rcases mem_cons.1 h with rfl | h
      · exact ⟨r, mem_cons_self, rfl⟩
      · obtain ⟨r₁, hr₁, heq⟩ := ih h
        exact ⟨r₁, mem_cons_of_mem _ hr₁, heq⟩

/-- A turn of the loop that adds nothing too large. -/
theorem lowestRanges_cons (hr : r.1 < r.2) (hitems : items ≠ 0) (hfits : r.1 + items < 2 ^ 32) :
    lowestRanges (r :: l) items = (r.1, min (r.1 + items) r.2) :: lowestRanges l (items - (r.2 - r.1)) := by
  have hrest : (items + 2 ^ 32 - (min (r.1 + items) r.2 + 2 ^ 32 - r.1) % 2 ^ 32) % 2 ^ 32 = items - (r.2 - r.1) := by omega
  rw [lowestRanges, if_neg hitems, Nat.mod_eq_of_lt hfits]
  dsimp only
  rw [hrest]

theorem take_elements (r : Nat × Nat) (l : List (Nat × Nat)) (items : Nat) : (elements (r :: l)).take items =
    List.range' r.1 (min items (r.2 - r.1)) ++ (elements l).take (items - (r.2 - r.1)) := by
  have htake : (List.range' r.1 (r.2 - r.1)).take items = List.range' r.1 (min items (r.2 - r.1)) := by
    rcases le_total items (r.2 - r.1) with hle | hle
    · rw [take_range'_of_length_ge hle, min_eq_left hle]
    · rw [take_range'_of_length_le hle, min_eq_right hle]
  rw [elements, flatMap_cons, take_append, htake, length_range']
  rfl

theorem lowestRanges_of_fits (hl : Laid first last l) (h : Fits l items) :
    Laid first last (lowestRanges l items) ∧ ∀ x, Covers (lowestRanges l items) x ↔ x ∈ (elements l).take items := by
  induction l generalizing first items with
  | nil => exact ⟨hl, fun x => by simp [lowestRanges, elements]⟩
  | cons r l ih =>
    obtain ⟨hle, hlt, _⟩ := hl.within r mem_cons_self
    have hbehind := (pairwise_cons.1 hl.apart).1
    by_cases hitems : items = 0
    · rw [hitems, lowestRanges, if_pos rfl]
      exact ⟨laid_nil hl.le, fun x => by simp⟩
    · obtain ⟨hfits, hrest⟩ := h.resolve_left hitems
      obtain ⟨hlaid, hcovers⟩ := ih hl.tail hrest
      rw [lowestRanges_cons hlt hitems hfits]
      have hend : min (r.1 + items) r.2 ≤ r.2 := min_le_right _ _
      refine ⟨Laid.cons (r := (r.1, _)) (hlaid.mono hend le_rfl) hle (by dsimp only; omega) fun r' hr' => ?_, fun x => ?_⟩
      · obtain ⟨r₁, hr₁, heq⟩ := lowestRanges_fst hr'
        exact hend.trans_lt (heq ▸ hbehind r₁ hr₁)
      · rw [covers_cons, hcovers, take_elements, mem_append, mem_range'_1]
        refine or_congr_left ?_
        dsimp only
        omega

/-- The first addition that is too large gives a range that has nothing of what is asked for. -/
theorem lowestRanges_of_not_fits (hl : Laid first last l) (hlast : last < 2 ^ 32) (hitems : items < 2 ^ 32)
    (h : ¬Fits l items) : ∃ r ∈ lowestRanges l items, r.2 ≤ r.1 ∧ r.1 ∈ (elements l).take items := by
  induction l generalizing first items with
  | nil => exact absurd trivial h
  | cons r l ih =>
    obtain ⟨_, hlt, hle⟩ := hl.within r mem_cons_self
    rw [Fits, not_or] at h
    obtain ⟨hzero, h⟩ := h
    by_cases hfits : r.1 + items < 2 ^ 32
    · obtain ⟨r', hr', hreversed, hmem⟩ := ih hl.tail (by omega) fun hrest => h ⟨hfits, hrest⟩
      rw [lowestRanges_cons hlt hzero hfits, take_elements]
      exact ⟨r', mem_cons_of_mem _ hr', hreversed, mem_append_right _ hmem⟩
    · rw [lowestRanges, if_neg hzero, take_elements]
      refine ⟨_, mem_cons_self, ?_, mem_append_left _ (mem_range'_1.2 ?_)⟩
      · dsimp only
        omega
      · dsimp only
        omega

/-- A range that begins with `v` has `v` only if it ends behind. -/
theorem contains_fst {v : Nat} (h : (x, v) ∈ a.ranges.entries) : a.contains x ↔ x < v := by
  rw [contains]
  cases hbefore : a.ranges.before x with
  | none => exact absurd (SortedMap.before_eq_none hbefore h) (lt_irrefl x)
  | some it =>
    obtain ⟨_, hle, hall⟩ := SortedMap.before_eq_some hbefore
    rcases hall _ h le_rfl with rfl | hlt
    · exact decide_eq_true_iff
    · exact absurd hle (not_le.2 hlt)

theorem isLowest_iff_fits (ha : Valid a) (hn : n < 2 ^ 32) : IsLowest a n (a.lowest n) ↔ Fits a.ranges.entries n := by
  have hentries : (a.lowest n).ranges.entries = lowestRanges a.ranges.entries n :=
    lowestLoop_entries ha.laid.pairwise_fst (show ∀ e ∈ (∅ : SortedMap Nat Nat).entries, _ from nofun)
  rw [IsLowest, sort_toFinset ha]
  constructor
  · intro h
    by_contra hnot
    obtain ⟨r, hr, hle, hmem⟩ := lowestRanges_of_not_fits ha.laid ha.lt hn hnot
    rw [← hentries] at hr
    exact absurd ((contains_fst hr).1 ((h r.1).2 hmem)) (not_lt.2 hle)
  · intro h x
    obtain ⟨hlaid, hcovers⟩ := lowestRanges_of_fits ha.laid h
    rw [← hentries] at hlaid hcovers
    rw [contains_iff (a := a.lowest n) ⟨hlaid, ha.lt⟩, hcovers]

theorem length_elements_cons (r : Nat × Nat) (l : List (Nat × Nat)) :
    (elements (r :: l)).length = r.2 - r.1 + (elements l).length := by
  rw [elements, flatMap_cons, length_append, length_range']
  rfl

theorem fits_iff : Fits l items ↔ ∀ before r after, l = before ++ r :: after → (elements before).length < items →
    r.1 + (items - (elements before).length) < 2 ^ 32 := by
  induction l generalizing items with
  | nil => exact iff_of_true trivial fun before r after h => by simp at h
  | cons r l ih =>
    rw [Fits, ih]
    constructor
    · intro h before r' after heq hlt
      obtain ⟨hfits, hrest⟩ := h.resolve_left (by omega)
      cases before with
      | nil =>
        obtain ⟨rfl, -⟩ := List.cons.inj heq
        exact hfits
      | cons r₁ before =>
        obtain ⟨rfl, htail⟩ := List.cons.inj heq
        rw [length_elements_cons] at hlt ⊢
        have hrest := hrest before r' after htail (by omega)
        omega
    · intro h
      refine or_iff_not_imp_left.2 fun hitems => ⟨h [] r l rfl (Nat.pos_of_ne_zero hitems), fun before r' after heq hlt => ?_⟩
      have hrest := h (r :: before) r' after (by rw [heq, cons_append])
      rw [length_elements_cons] at hrest
      have hrest := hrest (by omega)
      omega

/-- How many elements are below a range. -/
theorem card_below (ha : Valid a) {before after : List (Nat × Nat)} (h : a.ranges.entries = before ++ r :: after) :
    (a.toFinset.filter (· < r.1)).card = (elements before).length := by
  have hlaid := ha.laid
  have hsorted := pairwise_elements ha.laid
  rw [h] at hlaid hsorted
  obtain ⟨_, hafter, hbefore⟩ := pairwise_append.1 hlaid.apart
  have hnodup : (elements before).Nodup := by
    rw [elements, flatMap_append] at hsorted
    exact (pairwise_append.1 hsorted).1.imp ne_of_lt
  have hbelow : a.toFinset.filter (· < r.1) = (elements before).toFinset := by
    refine Finset.ext fun x => ?_
    rw [Finset.mem_filter, mem_toFinset, List.mem_toFinset, mem_elements, h]
    constructor
    · rintro ⟨⟨r', hr', hle, hlt⟩, hx⟩
      rcases mem_append.1 hr' with hr' | hr'
      · exact ⟨r', hr', hle, hlt⟩
      · rcases mem_cons.1 hr' with rfl | hr'
        · exact absurd hle (not_le.2 hx)
        · have hfar := (pairwise_cons.1 hafter).1 r' hr'
          have hne := (hlaid.within r (by simp)).2.1
          omega
    · rintro ⟨r', hr', hle, hlt⟩
      exact ⟨⟨r', mem_append_left _ hr', hle, hlt⟩, hlt.trans (hbefore r' hr' r mem_cons_self)⟩
  rw [hbelow, toFinset_card_of_nodup hnodup]

theorem isLowest_iff (ha : Valid a) (hn : n < 2 ^ 32) : IsLowest a n (a.lowest n) ↔ ∀ r ∈ a.ranges.entries,
    (a.toFinset.filter (· < r.1)).card < n → r.1 + (n - (a.toFinset.filter (· < r.1)).card) < 2 ^ 32 := by
  rw [isLowest_iff_fits ha hn, fits_iff]
  constructor
  · intro h r hr
    obtain ⟨before, after, heq⟩ := append_of_mem hr
    rw [card_below ha heq]
    exact h before r after heq
  · intro h before r after heq
    rw [← card_below ha heq]
    exact h r (heq ▸ mem_append_right _ mem_cons_self)

/-! ### What holds -/

/-- A difference is right if and only if the other mask has all that its ground range has more, and in place also only if the
other mask is another; the lowest elements are right if and only if none of the additions is too large. -/
theorem minus_lowest_iff (ha : Reached a) (hb : Reached b) (hn : n < 2 ^ 32) :
    (IsMinus a b (a.minus b) ↔
      ∀ x, min b.all.1 a.all.1 ≤ x → x < max b.all.2 a.all.2 → ¬(a.all.1 ≤ x ∧ x < a.all.2) → b.contains x) ∧
    (IsMinus a b (a.minusAssign b) ↔
      ∀ x, min b.all.1 a.all.1 ≤ x → x < max b.all.2 a.all.2 → ¬(a.all.1 ≤ x ∧ x < a.all.2) → b.contains x) ∧
    (IsMinus a a a.minusAssignItself ↔ a.toFinset = ∅) ∧
    (IsLowest a n (a.lowest n) ↔ ∀ r ∈ a.ranges.entries,
      (a.toFinset.filter (· < r.1)).card < n → r.1 + (n - (a.toFinset.filter (· < r.1)).card) < 2 ^ 32) :=
  ⟨isMinus_iff ha.valid hb.valid, isMinus_iff ha.valid hb.valid, isMinus_itself_iff ha.valid, isLowest_iff ha.valid hn⟩

theorem minus_lowest_two : IsMinus two two (two.minus two) ∧ ¬IsMinus two two two.minusAssignItself ∧
    IsLowest two 3 (two.lowest 3) := by
  obtain ⟨hminus, -, hitself, hlowest⟩ := minus_lowest_iff reached_two reached_two (show 3 < 2 ^ 32 by decide)
  refine ⟨hminus.2 fun x hmin hmax hout => ?_, fun h => ?_, hlowest.2 (by decide)⟩
  · rw [min_self] at hmin
    rw [max_self] at hmax
    exact absurd ⟨hmin, hmax⟩ hout
  · have hempty := hitself.1 h
    revert hempty
    decide

/-- From the empty mask, one that has room for a number more is taken. -/
theorem not_minus_lowest : ¬∀ (a b : RangeMask) (n : Nat), Reached a → Reached b → n < 2 ^ 32 →
    IsMinus a b (a.minus b) ∧ IsLowest a n (a.lowest n) := by
  intro h
  obtain ⟨⟨c, hc, hright⟩, -⟩ := h { all := (0, 1) } { all := (0, 2) } 0 (.constructed (by decide) (by decide))
    (.constructed (by decide) (by decide)) (by decide)
  have hone : ({ all := (0, 1) } : RangeMask).minus { all := (0, 2) } =
      some { all := (0, 2), ranges := ⟨[(1, 2)], by simp⟩ } := rfl
  obtain rfl := Option.some_inj.1 (hone.symm.trans hc)
  exact absurd ((hright 1).1 (by decide)).1 (by decide)

end Kmdx.RangeMask
