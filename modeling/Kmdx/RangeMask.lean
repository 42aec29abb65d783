import Mathlib.Data.Finset.Sort
import Mathlib.Order.Interval.Finset.Nat
import Kmdx.Lib.Intervals
import Kmdx.Lib.SortedMap

/-!
# Masks of ranges (`libdevcore/RangeMask.h`)

A set of numbers in a ground range, as a map from the begin of each range to its end. Whatever is united, complemented or
extended, the ranges stay in order and apart, and the mask is the finite set that they cover (`isFiniteSet`).
-/

namespace Kmdx

open List

/-- `RangeMask` -/
structure RangeMask where
  all : Nat × Nat
  ranges : SortedMap Nat Nat := ∅

namespace RangeMask

open Intervals

variable {a b c : RangeMask} {all r : Nat × Nat} {m m' : SortedMap Nat Nat} {i second n : Nat}

/-! ### The code -/

/-- The loop of `unionWith`. Nothing comes of it if an assertion fails, or if it takes more turns. -/
def unionLoop (all : Nat × Nat) (second : Nat) : Nat → Nat → SortedMap Nat Nat → Option (SortedMap Nat Nat)
  | 0, i, m => if i < second then none else some m
  | turns + 1, i, m =>
    if i < second then
      if i < all.1 ∨ all.2 ≤ i then none
      else
        -- a range after `i` that is not too high, and one before that is not too low
        let rangeAfter := (m.upperBound i).filter (·.1 ≤ second)
        match (m.before i).filter (i ≤ ·.2) with
        | none =>
          match rangeAfter with
          | none => some (m.insert i second)
          | some after =>
            if after.1 = i then unionLoop all second turns after.2 m
            else unionLoop all second turns after.2 ((m.insert i after.2).erase after.1)
        | some it =>
          if it.2 = i then
            match rangeAfter with
            | none => some (m.insert it.1 second)
            | some after => unionLoop all second turns after.2 ((m.insert it.1 after.2).erase after.1)
          else unionLoop all second turns it.2 m
    else some m

/-- `unionWith`, of a range -/
def unionWithRange (a : RangeMask) (r : Nat × Nat) : Option RangeMask :=
  (unionLoop a.all r.2 (r.2 - r.1) r.1 a.ranges).map fun ranges => { a with ranges }

/-- `unionWith`, of an element -/
def unionWithElement (a : RangeMask) (i : Nat) : Option RangeMask := a.unionWithRange (i, (i + 1) % 2 ^ 32)

/-- `unionWith`, of a mask -/
def unionWith (a m : RangeMask) : Option RangeMask :=
  m.ranges.entries.foldlM unionWithRange { a with all := (min m.all.1 a.all.1, max m.all.2 a.all.2) }

def inverted (a : RangeMask) : RangeMask :=
  let (ret, last) := a.ranges.entries.foldl
    (fun (ret, last) i => (if i.1 ≠ last then ret.insert last i.1 else ret, i.2)) ((∅ : SortedMap Nat Nat), a.all.1)
  { all := a.all, ranges := if last ≠ a.all.2 then ret.insert last a.all.2 else ret }

def extendAll (a : RangeMask) (i : Nat) : RangeMask := { a with all := (min a.all.1 i, max a.all.2 ((i + 1) % 2 ^ 32)) }

def contains (a : RangeMask) (i : Nat) : Bool :=
  match a.ranges.before i with
  | none => false
  | some it => it.2 > i

/-- What `begin` and `end` stand at. -/
def beginValue (a : RangeMask) : Nat := match a.ranges.entries with | [] => a.all.2 | r :: _ => r.1

def endValue (a : RangeMask) : Nat := a.all.2

def next (a : RangeMask) (t : Nat) : Nat :=
  let t := (t + 1) % 2 ^ 32
  match (a.ranges.before t).filter fun it => it.1 ≤ t ∧ it.2 > t with
  | some _ => t
  | none =>
    match a.ranges.upperBound t with
    | none => a.all.2
    | some uit => uit.1

def size (a : RangeMask) : Nat := a.ranges.entries.foldl (fun c r => (c + (r.2 + 2 ^ 32 - r.1) % 2 ^ 32) % 2 ^ 64) 0

/-! ### What is promised -/

/-- The elements -/
def toFinset (a : RangeMask) : Finset Nat := a.ranges.entries.toFinset.biUnion fun r => Finset.Ico r.1 r.2

/-- Going on from `v`, the iteration gives these, and then stands at the end. -/
inductive Iterates (a : RangeMask) : Nat → List Nat → Prop
  | done : Iterates a a.endValue []
  | next {v : Nat} {l : List Nat} (h : v ≠ a.endValue) (hl : Iterates a (a.next v) l) : Iterates a v (v :: l)

/-- A range in the ground range -/
def Within (all r : Nat × Nat) : Prop := r.1 < r.2 → all.1 ≤ r.1 ∧ r.2 ≤ all.2

/-- How a mask comes about. -/
inductive Reached : RangeMask → Prop
  | empty : Reached { all := (0, 0) }
  | constructed {b e : Nat} (h : b ≤ e) (he : e < 2 ^ 32) : Reached { all := (b, e) }
  | unionWithRange {a b : RangeMask} {r : Nat × Nat} (ha : Reached a) (hr : Within a.all r)
      (h : a.unionWithRange r = some b) :
    Reached b
  | unionWithElement {a b : RangeMask} {i : Nat} (ha : Reached a) (hi : a.all.1 ≤ i ∧ i < a.all.2)
    (h : a.unionWithElement i = some b) : Reached b
  | unionWith {a b c : RangeMask} (ha : Reached a) (hb : Reached b) (h : a.unionWith b = some c) : Reached c
  | inverted {a : RangeMask} (ha : Reached a) : Reached a.inverted
  | extendAll {a : RangeMask} {i : Nat} (ha : Reached a) (hi : i < 2 ^ 32) : Reached (a.extendAll i)

/-- The ranges are in order and apart, in the ground range. -/
structure Valid (a : RangeMask) : Prop where
  laid : Laid a.all.1 a.all.2 a.ranges.entries
  lt : a.all.2 < 2 ^ 32

structure IsFiniteSet (a : RangeMask) : Prop where
  valid : Valid a
  unionWithRange : ∀ r, Within a.all r → ∃ b, a.unionWithRange r = some b ∧ b.toFinset = a.toFinset ∪ Finset.Ico r.1 r.2
  unionWithElement : ∀ i, a.all.1 ≤ i → i < a.all.2 → ∃ b, a.unionWithElement i = some b ∧ b.toFinset = insert i a.toFinset
  unionWith : ∀ b, Reached b → ∃ c, a.unionWith b = some c ∧ c.toFinset = a.toFinset ∪ b.toFinset
  inverted : a.inverted.toFinset = Finset.Ico a.all.1 a.all.2 \ a.toFinset
  contains : ∀ i, a.contains i ↔ i ∈ a.toFinset
  size : a.size = a.toFinset.card
  iterates : Iterates a a.beginValue (a.toFinset.sort (· ≤ ·))

@[simp] theorem mem_toFinset : n ∈ a.toFinset ↔ Covers a.ranges.entries n := by
  simp [toFinset, Covers]

/-! ### Turns of the loop -/

theorem merged_insert {b e : Nat} (hb : b ≤ i) (he : i < e) (hlaid : Laid all.1 all.2 m.entries)
    (hlow : ∀ r ∈ m.entries, r.1 ≤ i → r.2 < b ∨ r.1 = b ∧ r.2 ≤ i) (hhigh : ∀ r ∈ m.entries, i < r.1 → e < r.1) :
    Merged m.entries b e (m.insert b e).entries where
  lt := hb.trans_lt he
  mem r := by
    rw [SortedMap.mem_insert]
    refine or_congr_right (and_congr_right fun hr => ?_)
    have hlt := (hlaid.within r hr).2.1
    have hl := hlow r hr
    have hh := hhigh r hr
    omega
  within r hr := by
    have hlt := (hlaid.within r hr).2.1
    have hl := hlow r hr
    have hh := hhigh r hr
    omega

theorem merged_erase {b : Nat} (hb : b ≤ i) (hlaid : Laid all.1 all.2 m.entries)
    (hlow : ∀ r ∈ m.entries, r.1 ≤ i → r.2 < b ∨ r.1 = b ∧ r.2 ≤ i) (hr : r ∈ m.entries) (hi : i < r.1)
    (hhigh : ∀ r' ∈ m.entries, i < r'.1 → r' = r ∨ r.1 < r'.1) :
    Merged m.entries b r.2 ((m.insert b r.2).erase r.1).entries where
  lt := hb.trans_lt (hi.trans (hlaid.within r hr).2.1)
  mem r' := by
    rw [SortedMap.mem_erase, SortedMap.mem_insert]
    have hlt := (hlaid.within r hr).2.1
    constructor
    · rintro ⟨rfl | ⟨hr', hne⟩, hne'⟩
      · exact .inl rfl
      · refine .inr ⟨hr', ?_⟩
        have hlt' := (hlaid.within r' hr').2.1
        have hl := hlow r' hr'
        rcases lt_or_ge i r'.1 with hi' | hi'
        · rcases hhigh r' hr' hi' with rfl | hafter
          · exact absurd rfl hne'
          · exact .inr (hlaid.lt_of_lt hr hr' hafter)
        · omega
    · rintro (rfl | ⟨hr', hside⟩)
      · exact ⟨.inl rfl, (hb.trans_lt hi).ne⟩
      · have hlt' := (hlaid.within r' hr').2.1
        exact ⟨.inr ⟨hr', by omega⟩, by omega⟩
  within r' hr' := by
    have hlt' := (hlaid.within r' hr').2.1
    have hl := hlow r' hr'
    rcases lt_or_ge i r'.1 with hi' | hi'
    · rcases hhigh r' hr' hi' with rfl | hafter
      · exact .inr (.inr ⟨(hb.trans_lt hi).le, le_rfl⟩)
      · exact .inr (.inl (hlaid.lt_of_lt hr hr' hafter))
    · have hlt := (hlaid.within r hr).2.1
      omega

theorem low_of_none (h : (m.before i).filter (i ≤ ·.2) = none) (hlaid : Laid all.1 all.2 m.entries) :
    ∀ r ∈ m.entries, r.1 ≤ i → r.2 < i := by
  intro r hr hle
  cases hbefore : m.before i with
  | none => exact absurd (SortedMap.before_eq_none hbefore hr) (not_lt.2 hle)
  | some d =>
    obtain ⟨hd, hdi, hall⟩ := SortedMap.before_eq_some hbefore
    have hlt : d.2 < i := by simpa [hbefore, Option.filter_some] using h
    rcases hall r hr hle with rfl | hbelow
    · exact hlt
    · exact (hlaid.lt_of_lt hr hd hbelow).trans_le hdi

theorem low_of_some {it : Nat × Nat} (h : (m.before i).filter (i ≤ ·.2) = some it) (hlaid : Laid all.1 all.2 m.entries) :
    it ∈ m.entries ∧ it.1 ≤ i ∧ i ≤ it.2 ∧ ∀ r ∈ m.entries, r.1 ≤ i → r = it ∨ r.2 < it.1 := by
  obtain ⟨hbefore, hreach⟩ := Option.filter_eq_some_iff.1 h
  obtain ⟨hit, hle, hall⟩ := SortedMap.before_eq_some hbefore
  refine ⟨hit, hle, of_decide_eq_true hreach, fun r hr hri => ?_⟩
  exact (hall r hr hri).imp_right (hlaid.lt_of_lt hr hit)

theorem high_of_none (h : (m.upperBound i).filter (·.1 ≤ second) = none) : ∀ r ∈ m.entries, i < r.1 → second < r.1 := by
  intro r hr hlt
  cases hupper : m.upperBound i with
  | none => exact absurd (SortedMap.upperBound_eq_none hupper hr) (not_le.2 hlt)
  | some d =>
    obtain ⟨hd, hid, hall⟩ := SortedMap.upperBound_eq_some hupper
    have hhigh : second < d.1 := by simpa [hupper, Option.filter_some] using h
    rcases hall r hr hlt with rfl | habove
    · exact hhigh
    · exact hhigh.trans habove

theorem high_of_some {after : Nat × Nat} (h : (m.upperBound i).filter (·.1 ≤ second) = some after) :
    after ∈ m.entries ∧ i < after.1 ∧ after.1 ≤ second ∧ ∀ r ∈ m.entries, i < r.1 → r = after ∨ after.1 < r.1 := by
  obtain ⟨hupper, hreach⟩ := Option.filter_eq_some_iff.1 h
  obtain ⟨hafter, hlt, hall⟩ := SortedMap.upperBound_eq_some hupper
  exact ⟨hafter, hlt, of_decide_eq_true hreach, hall⟩

/-- What two conditions differ in is covered. -/
theorem or_congr_of_covers {P Q : Prop} {rs : List (Nat × Nat)} (h : ¬Covers rs n → (P ↔ Q)) :
    Covers rs n ∨ P ↔ Covers rs n ∨ Q := by
  by_cases hn : Covers rs n
  · exact iff_of_true (.inl hn) (.inl hn)
  · exact or_congr_right (h hn)

theorem not_in {rs : List (Nat × Nat)} (hn : ¬Covers rs n) (hr : r ∈ rs) : n < r.1 ∨ r.2 ≤ n := by
  by_contra! hin
  exact hn ⟨r, hr, hin⟩

/-- The range comes in, whatever the turns do. -/
theorem unionLoop_spec {turns : Nat} (hlaid : Laid all.1 all.2 m.entries) (hin : i < second → all.1 ≤ i ∧ second ≤ all.2)
    (hturns : second - i ≤ turns) : ∃ m', unionLoop all second turns i m = some m' ∧ Laid all.1 all.2 m'.entries ∧
      ∀ n, Covers m'.entries n ↔ Covers m.entries n ∨ i ≤ n ∧ n < second := by
  induction turns generalizing i m with
  | zero =>
    have hge : ¬i < second := by omega
    exact ⟨m, if_neg hge, hlaid, fun n => (or_iff_left (by omega)).symm⟩
  | succ turns ih =>
    rw [unionLoop]
    by_cases hlt : i < second
    · obtain ⟨hall, hsecond⟩ := hin hlt
      rw [if_pos hlt, if_neg (by omega)]
      dsimp only
      cases hbefore : (m.before i).filter (i ≤ ·.2) with
      | none =>
        have hlow := low_of_none hbefore hlaid
        cases hafter : (m.upperBound i).filter (·.1 ≤ second) with
        | none =>
          have hmerged := merged_insert le_rfl hlt hlaid (fun r hr hle => .inl (hlow r hr hle)) (high_of_none hafter)
          exact ⟨_, rfl, hlaid.merged hmerged (SortedMap.sorted _) hall hsecond, fun n => hmerged.covers⟩
        | some after =>
          obtain ⟨hmem, hi, hle, hhigh⟩ := high_of_some hafter
          have hmerged := merged_erase le_rfl hlaid (fun r hr hle => .inl (hlow r hr hle)) hmem hi hhigh
          have hreach := (hlaid.within after hmem).2
          obtain ⟨m', hm', hlaid', hcovers⟩ := ih (hlaid.merged hmerged (SortedMap.sorted _) hall hreach.2) (i := after.2)
            (fun _ => ⟨by omega, hsecond⟩) (by omega)
          refine ⟨m', ?_, hlaid', fun n => ?_⟩
          · dsimp only
            rw [if_neg hi.ne', hm']
          · rw [hcovers, hmerged.covers, or_assoc]
            refine or_congr_of_covers fun hn => ?_
            have hout := not_in hn hmem
            omega
      | some it =>
        obtain ⟨hit, hiti, hile, hbelow⟩ := low_of_some hbefore hlaid
        have hstart := hlaid.within it hit
        dsimp only
        by_cases heq : it.2 = i
        · have hlow : ∀ r ∈ m.entries, r.1 ≤ i → r.2 < it.1 ∨ r.1 = it.1 ∧ r.2 ≤ i := fun r hr hle => by
            rcases hbelow r hr hle with rfl | hlt
            · exact .inr ⟨rfl, heq.le⟩
            · exact .inl hlt
          rw [if_pos heq]
          cases hafter : (m.upperBound i).filter (·.1 ≤ second) with
          | none =>
            have hmerged := merged_insert hiti hlt hlaid hlow (high_of_none hafter)
            refine ⟨_, rfl, hlaid.merged hmerged (SortedMap.sorted _) hstart.1 hsecond, fun n => ?_⟩
            rw [hmerged.covers]
            refine or_congr_of_covers fun hn => ?_
            have hout := not_in hn hit
            omega
          | some after =>
            obtain ⟨hmem, hi, hle, hhigh⟩ := high_of_some hafter
            have hmerged := merged_erase hiti hlaid hlow hmem hi hhigh
            have hreach := (hlaid.within after hmem).2
            obtain ⟨m', hm', hlaid', hcovers⟩ :=
              ih (i := after.2) (hlaid.merged hmerged (SortedMap.sorted _) hstart.1 hreach.2)
                (fun _ => ⟨by omega, hsecond⟩) (by omega)
            refine ⟨m', hm', hlaid', fun n => ?_⟩
            rw [hcovers, hmerged.covers, or_assoc]
            refine or_congr_of_covers fun hn => ?_
            have hout := not_in hn hmem
            have hout' := not_in hn hit
            omega
        · obtain ⟨m', hm', hlaid', hcovers⟩ := ih hlaid (i := it.2) (fun _ => ⟨by omega, hsecond⟩) (by omega)
          rw [if_neg heq]
          refine ⟨m', hm', hlaid', fun n => ?_⟩
          rw [hcovers]
          refine or_congr_of_covers fun hn => ?_
          have hout := not_in hn hit
          omega
    · rw [if_neg hlt]
      exact ⟨m, rfl, hlaid, fun n => (or_iff_left (by omega)).symm⟩

/-! ### The operations -/

theorem unionWithRange_spec (h : Valid a) (hr : Within a.all r) : ∃ b, a.unionWithRange r = some b ∧ Valid b ∧ b.all = a.all ∧
    ∀ n, Covers b.ranges.entries n ↔ Covers a.ranges.entries n ∨ r.1 ≤ n ∧ n < r.2 := by
  obtain ⟨m, hm, hlaid, hcovers⟩ := unionLoop_spec h.laid hr le_rfl
  exact ⟨{ a with ranges := m }, by rw [unionWithRange, hm, Option.map_some], ⟨hlaid, h.lt⟩, rfl, hcovers⟩

variable {l : List (Nat × Nat)}

theorem foldlM_unionWithRange (h : Valid a) (hl : ∀ r ∈ l, Within a.all r) :
    ∃ b, l.foldlM unionWithRange a = some b ∧ Valid b ∧ b.all = a.all ∧
      ∀ n, Covers b.ranges.entries n ↔ Covers a.ranges.entries n ∨ Covers l n := by
  induction l generalizing a with
  | nil => exact ⟨a, rfl, h, rfl, fun n => by simp⟩
  | cons r l ih =>
    obtain ⟨b, hb, hvalid, hall, hcovers⟩ := unionWithRange_spec h (hl r mem_cons_self)
    have hl' : ∀ r ∈ l, Within b.all r := fun r hr => hall ▸ hl r (mem_cons_of_mem _ hr)
    obtain ⟨c, hc, hvalid', hall', hcovers'⟩ := ih hvalid hl'
    refine ⟨c, ?_, hvalid', hall'.trans hall, fun n => ?_⟩
    · rw [foldlM_cons, hb]
      exact hc
    · rw [hcovers', hcovers, covers_cons, or_assoc]

theorem unionWith_spec (ha : Valid a) (hb : Valid b) : ∃ c, a.unionWith b = some c ∧ Valid c ∧
    c.all = (min b.all.1 a.all.1, max b.all.2 a.all.2) ∧
    ∀ n, Covers c.ranges.entries n ↔ Covers a.ranges.entries n ∨ Covers b.ranges.entries n := by
  refine foldlM_unionWithRange ⟨ha.laid.mono (min_le_right _ _) (le_max_right _ _), max_lt hb.lt ha.lt⟩ fun r hr _ => ?_
  obtain ⟨hfirst, _, hsecond⟩ := hb.laid.within r hr
  exact ⟨(min_le_left _ _).trans hfirst, hsecond.trans (le_max_left _ _)⟩

/-- The loop of `inverted` collects what is between the ranges. -/
theorem foldl_inverted {ret : SortedMap Nat Nat} {last : Nat} (hret : ∀ e ∈ ret.entries, e.1 < last)
    (hl : Laid last second l) :
    let (ret', last') := l.foldl (fun (ret, last) i => (if i.1 ≠ last then ret.insert last i.1 else ret, i.2)) (ret, last)
    (if last' ≠ second then ret'.insert last' second else ret').entries = ret.entries ++ gaps last second l := by
  induction l generalizing ret last with
  | nil =>
    rw [gaps]
    dsimp only [foldl_nil]
    split_ifs
    · exact SortedMap.entries_insert_of_gt hret
    · rw [append_nil]
  | cons r l ih =>
    obtain ⟨hle, hlt, _⟩ := hl.within r mem_cons_self
    rw [gaps, foldl_cons]
    by_cases hne : r.1 = last
    · have hret' : ∀ e ∈ ret.entries, e.1 < r.2 := fun e he => (hret e he).trans (hne ▸ hlt)
      simp only [if_neg (not_not.2 hne)]
      exact ih hret' hl.tail
    · have hentries := SortedMap.entries_insert_of_gt (v := r.1) hret
      have hret' : ∀ e ∈ (ret.insert last r.1).entries, e.1 < r.2 := by
        intro e he
        rw [hentries] at he
        rcases mem_append.1 he with he | he
        · exact (hret e he).trans (hle.trans_lt hlt)
        · rw [mem_singleton.1 he]
          exact hle.trans_lt hlt
      have hrest := ih hret' hl.tail
      rw [hentries, append_assoc] at hrest
      simp only [if_pos hne]
      exact hrest

theorem inverted_entries (h : Valid a) : a.inverted.ranges.entries = gaps a.all.1 a.all.2 a.ranges.entries :=
  foldl_inverted (show ∀ e ∈ (∅ : SortedMap Nat Nat).entries, _ from nofun) h.laid

theorem inverted_spec (h : Valid a) : Valid a.inverted ∧ a.inverted.all = a.all ∧
    ∀ n, Covers a.inverted.ranges.entries n ↔ a.all.1 ≤ n ∧ n < a.all.2 ∧ ¬Covers a.ranges.entries n := by
  refine ⟨⟨?_, h.lt⟩, rfl, fun n => ?_⟩
  · rw [inverted_entries h]
    exact h.laid.gaps
  · rw [inverted_entries h]
    exact h.laid.covers_gaps

theorem extendAll_valid (h : Valid a) (i : Nat) : Valid (a.extendAll i) where
  laid := h.laid.mono (min_le_left _ _) (le_max_left _ _)
  lt := max_lt h.lt (Nat.mod_lt _ (by decide))

theorem unionWithElement_eq (hi : i < a.all.2) (h : Valid a) : a.unionWithElement i = a.unionWithRange (i, i + 1) := by
  have hlt := h.lt
  rw [unionWithElement, Nat.mod_eq_of_lt (by omega)]

theorem contains_iff (h : Valid a) : a.contains i ↔ Covers a.ranges.entries i := by
  rw [contains]
  constructor
  · intro hcontains
    cases hbefore : a.ranges.before i with
    | none =>
      rw [hbefore] at hcontains
      cases hcontains
    | some it =>
      rw [hbefore] at hcontains
      obtain ⟨hit, hle, _⟩ := SortedMap.before_eq_some hbefore
      exact ⟨it, hit, hle, of_decide_eq_true hcontains⟩
  · rintro ⟨r, hr, hle, hlt⟩
    cases hbefore : a.ranges.before i with
    | none => exact absurd (SortedMap.before_eq_none hbefore hr) (not_lt.2 hle)
    | some it =>
      obtain ⟨hit, hiti, hall⟩ := SortedMap.before_eq_some hbefore
      rcases hall r hr hle with rfl | hbelow
      · exact decide_eq_true hlt
      · exact absurd (h.laid.lt_of_lt hr hit hbelow) (not_lt.2 (hiti.trans hlt.le))

/-! ### Counting and iterating -/

/-- The elements of ranges, one after the other -/
def elements (l : List (Nat × Nat)) : List Nat := l.flatMap fun r => List.range' r.1 (r.2 - r.1)

theorem mem_elements : n ∈ elements l ↔ Covers l n := by
  simp only [elements, mem_flatMap, mem_range'_1, Covers]
  refine exists_congr fun r => and_congr_right fun _ => ?_
  omega

theorem pairwise_elements {b e : Nat} (h : Laid b e l) : (elements l).Pairwise (· < ·) := by
  refine pairwise_flatMap.2 ⟨fun r _ => pairwise_lt_range', h.apart.imp fun hlt x hx y hy => ?_⟩
  have hx := mem_range'_1.1 hx
  have hy := mem_range'_1.1 hy
  omega

theorem toFinset_eq : a.toFinset = (elements a.ranges.entries).toFinset := by
  refine Finset.ext fun n => ?_
  rw [mem_toFinset, List.mem_toFinset, mem_elements]

theorem sort_toFinset (h : Valid a) : a.toFinset.sort (· ≤ ·) = elements a.ranges.entries := by
  have hsorted := pairwise_elements h.laid
  rw [toFinset_eq]
  exact (toFinset_sort (· ≤ ·) (hsorted.imp ne_of_lt)).2 (hsorted.imp le_of_lt)

theorem foldl_size {b e c : Nat} (h : Laid b e l) (he : e < 2 ^ 32) (hc : c ≤ b) :
    l.foldl (fun c r => (c + (r.2 + 2 ^ 32 - r.1) % 2 ^ 32) % 2 ^ 64) c = c + (elements l).length := by
  induction l generalizing b c with
  | nil => rfl
  | cons r l ih =>
    obtain ⟨hb, hlt, hle⟩ := h.within r mem_cons_self
    have hstep : (c + (r.2 + 2 ^ 32 - r.1) % 2 ^ 32) % 2 ^ 64 = c + (r.2 - r.1) := by omega
    rw [foldl_cons, hstep, ih h.tail (by omega), elements, elements, flatMap_cons, length_append, length_range',
      Nat.add_assoc]

theorem size_eq (h : Valid a) : a.size = a.toFinset.card := by
  have hnodup : (elements a.ranges.entries).Nodup := (pairwise_elements h.laid).imp ne_of_lt
  rw [size, foldl_size h.laid h.lt (Nat.zero_le _), Nat.zero_add, toFinset_eq, toFinset_card_of_nodup hnodup]

/-- `next` goes to the least element behind, or to the end. -/
theorem next_spec (h : Valid a) {t : Nat} (ht : t + 1 < 2 ^ 32) :
    (Covers a.ranges.entries (a.next t) ∧ t < a.next t ∧ ∀ n, Covers a.ranges.entries n → t < n → a.next t ≤ n) ∨
      a.next t = a.endValue ∧ ∀ n, Covers a.ranges.entries n → n ≤ t := by
  rw [next, Nat.mod_eq_of_lt ht]
  cases hbefore : (a.ranges.before (t + 1)).filter fun it => it.1 ≤ t + 1 ∧ it.2 > t + 1 with
  | some it =>
    obtain ⟨hit, hin⟩ := Option.filter_eq_some_iff.1 hbefore
    exact .inl ⟨⟨it, (SortedMap.before_eq_some hit).1, of_decide_eq_true hin⟩, Nat.lt_succ_self t, fun n _ hn => hn⟩
  | none =>
    -- what covers something behind `t` begins behind it
    have hbegins : ∀ r ∈ a.ranges.entries, t + 1 < r.2 → t + 1 < r.1 := by
      intro r hr hlt
      by_contra! hle
      cases hit : a.ranges.before (t + 1) with
      | none => exact absurd (SortedMap.before_eq_none hit hr) (not_lt.2 hle)
      | some it =>
        obtain ⟨hmem, hle', hall⟩ := SortedMap.before_eq_some hit
        have hnot : ¬t + 1 < it.2 := by
          intro hlt'
          rw [hit, Option.filter_some, if_pos (decide_eq_true ⟨hle', hlt'⟩)] at hbefore
          cases hbefore
        rcases hall r hr hle with rfl | hbelow
        · exact hnot hlt
        · have hapart := h.laid.lt_of_lt hr hmem hbelow
          omega
    have hcovers : ∀ n, Covers a.ranges.entries n → t < n → ∃ r ∈ a.ranges.entries, t + 1 < r.1 ∧ r.1 ≤ n := by
      rintro n ⟨r, hr, hle, hlt⟩ htn
      exact ⟨r, hr, hbegins r hr (by omega), hle⟩
    cases hupper : a.ranges.upperBound (t + 1) with
    | none =>
      refine .inr ⟨rfl, fun n hn => not_lt.1 fun htn => ?_⟩
      obtain ⟨r, hr, hlt, _⟩ := hcovers n hn htn
      exact absurd (SortedMap.upperBound_eq_none hupper hr) (not_le.2 hlt)
    | some uit =>
      obtain ⟨huit, hlt, hall⟩ := SortedMap.upperBound_eq_some hupper
      refine .inl ⟨⟨uit, huit, le_rfl, (h.laid.within uit huit).2.1⟩, (Nat.lt_succ_self t).trans hlt, fun n hn htn => ?_⟩
      obtain ⟨r, hr, hlt', hle⟩ := hcovers n hn htn
      rcases hall r hr hlt' with rfl | hgt
      · exact hle
      · exact hgt.le.trans hle

theorem lt_endValue (h : Valid a) (hn : Covers a.ranges.entries n) : n < a.endValue := (h.laid.le_of_covers hn).2

theorem mem_tail_iff {P : Nat → Prop} {l : List Nat} (hsorted : (n :: l).Pairwise (· < ·))
    (h : ∀ x, x ∈ n :: l ↔ P x) (x : Nat) : x ∈ l ↔ P x ∧ n < x := by
  have hlt := (pairwise_cons.1 hsorted).1
  rw [← h, mem_cons]
  constructor
  · exact fun hx => ⟨.inr hx, hlt x hx⟩
  · exact fun hx => hx.1.resolve_left hx.2.ne'

/-- From an element, the iteration goes through all that are behind it. -/
theorem iterates_from (h : Valid a) {l : List Nat} (hn : Covers a.ranges.entries n) (hsorted : (n :: l).Pairwise (· < ·))
    (hmem : ∀ x, x ∈ l ↔ Covers a.ranges.entries x ∧ n < x) : Iterates a n (n :: l) := by
  have hlt := h.lt
  have hend := lt_endValue h hn
  induction l generalizing n with
  | nil =>
    refine .next hend.ne ?_
    rcases next_spec h (show n + 1 < 2 ^ 32 by rw [endValue] at hend; omega) with ⟨hcovers, hgt, _⟩ | ⟨heq, _⟩
    · exact absurd ((hmem _).2 ⟨hcovers, hgt⟩) not_mem_nil
    · rw [heq]
      exact .done
  | cons x l ih =>
    obtain ⟨hall, hrest⟩ := pairwise_cons.1 hsorted
    obtain ⟨hx, hnx⟩ := (hmem x).1 mem_cons_self
    have hnext : a.next n = x := by
      rcases next_spec h (show n + 1 < 2 ^ 32 by rw [endValue] at hend; omega) with ⟨hcovers, hgt, hleast⟩ | ⟨_, hnone⟩
      · refine le_antisymm (hleast x hx hnx) ?_
        rcases mem_cons.1 ((hmem _).2 ⟨hcovers, hgt⟩) with heq | hin
        · exact heq.ge
        · exact ((pairwise_cons.1 hrest).1 _ hin).le
      · exact absurd hnx (not_lt.2 (hnone x hx))
    refine .next hend.ne ?_
    rw [hnext]
    refine ih hx hrest (fun y => ?_) (lt_endValue h hx)
    rw [mem_tail_iff hrest hmem, and_assoc]
    exact and_congr_right fun _ => and_iff_right_of_imp hnx.trans

theorem iterates_elements (h : Valid a) : Iterates a a.beginValue (elements a.ranges.entries) := by
  have hsorted := pairwise_elements h.laid
  have hmem : ∀ x, x ∈ elements a.ranges.entries ↔ Covers a.ranges.entries x := fun x => mem_elements
  rw [beginValue]
  cases hl : a.ranges.entries with
  | nil => exact .done
  | cons r l =>
    have hr : r ∈ a.ranges.entries := hl ▸ mem_cons_self
    have hlt := (h.laid.within r hr).2.1
    have helements : elements (r :: l) = r.1 :: (List.range' (r.1 + 1) (r.2 - r.1 - 1) ++ elements l) := by
      obtain ⟨k, hk⟩ := Nat.exists_eq_add_of_lt hlt
      have hsub : r.2 - r.1 = k + 1 := by omega
      rw [elements, flatMap_cons, hsub, List.range'_succ]
      rfl
    rw [hl, helements] at hsorted
    rw [helements]
    refine iterates_from h ⟨r, hr, le_rfl, hlt⟩ hsorted (mem_tail_iff hsorted fun x => ?_)
    rw [← helements, ← hl, hmem]

/-- Whatever has been done with masks, the ranges are in order and apart. -/
theorem Reached.valid (h : Reached a) : Valid a := by
  induction h with
  | empty => exact ⟨laid_nil le_rfl, by decide⟩
  | constructed h he => exact ⟨laid_nil h, he⟩
  | unionWithRange _ hr h ih =>
    obtain ⟨b, hb, hvalid, _⟩ := unionWithRange_spec ih hr
    rwa [Option.some_inj.1 (h.symm.trans hb)]
  | unionWithElement _ hi h ih =>
    rw [unionWithElement_eq hi.2 ih] at h
    obtain ⟨b, hb, hvalid, _⟩ := unionWithRange_spec ih (r := (_, _)) fun _ => hi
    rwa [Option.some_inj.1 (h.symm.trans hb)]
  | unionWith _ _ h ha hb =>
    obtain ⟨c, hc, hvalid, _⟩ := unionWith_spec ha hb
    rwa [Option.some_inj.1 (h.symm.trans hc)]
  | inverted _ ih => exact (inverted_spec ih).1
  | extendAll _ _ ih => exact extendAll_valid ih _

/-- Whatever has been done with masks, each is a finite set. -/
theorem isFiniteSet (h : Reached a) : IsFiniteSet a where
  valid := h.valid
  unionWithRange r hr := by
    obtain ⟨b, hb, _, _, hcovers⟩ := unionWithRange_spec h.valid hr
    refine ⟨b, hb, Finset.ext fun n => ?_⟩
    rw [mem_toFinset, hcovers, Finset.mem_union, mem_toFinset, Finset.mem_Ico]
  unionWithElement i hlow hhigh := by
    obtain ⟨b, hb, _, _, hcovers⟩ := unionWithRange_spec h.valid (r := (i, i + 1)) fun _ => ⟨hlow, hhigh⟩
    rw [unionWithElement_eq hhigh h.valid]
    refine ⟨b, hb, Finset.ext fun n => ?_⟩
    rw [mem_toFinset, hcovers, Finset.mem_insert, mem_toFinset, or_comm]
    exact or_congr_left (by omega)
  unionWith b hb := by
    obtain ⟨c, hc, _, _, hcovers⟩ := unionWith_spec h.valid hb.valid
    refine ⟨c, hc, Finset.ext fun n => ?_⟩
    rw [mem_toFinset, hcovers, Finset.mem_union, mem_toFinset, mem_toFinset]
  inverted := by
    refine Finset.ext fun n => ?_
    rw [mem_toFinset, (inverted_spec h.valid).2.2, Finset.mem_sdiff, mem_toFinset, Finset.mem_Ico, and_assoc]
  contains i := by rw [contains_iff h.valid, mem_toFinset]
  size := size_eq h.valid
  iterates := sort_toFinset h.valid ▸ iterates_elements h.valid

/-- A range, and one more that does not touch it. -/
def two : RangeMask where
  all := (0, 2000)
  ranges := ⟨[(7, 9), (200, 205)], by simp⟩

theorem reached_two : Reached two := by
  have hground : Reached { all := (0, 2000) } := .constructed (by decide) (by decide)
  have hone : Reached { all := (0, 2000), ranges := ⟨[(7, 9)], by simp⟩ } := hground.unionWithRange (r := (7, 9))
      (fun _ => by decide) rfl
  exact hone.unionWithRange (r := (200, 205)) (fun _ => by decide) rfl

theorem isFiniteSet_two : IsFiniteSet two := isFiniteSet reached_two

end RangeMask

end Kmdx
