import Mathlib.Data.List.Pairwise
import Mathlib.Data.List.Basic
import Mathlib.Order.Lattice

/-!
# Pages of a list with two sources

A page is the first elements from a key on, and the next page begins at a key that comes with it. The elements are listed, or
changed, or both; of the listed ones only a page's worth is looked at, of the changed ones all. The next key goes too far if a
page is of listed elements only, an unchanged one follows it and a changed one follows that (`Skips`).
-/

namespace Paging

open List

variable {T : Type} {listed changed : T → Bool} {l rest beyond : List T} {n m b : Nat} {e t : T}

/-- What is left if only `n` of the listed elements are looked at -/
def merged (listed changed : T → Bool) : Nat → List T → List T
  | _, [] => []
  | 0, e :: rest => if changed e then e :: merged listed changed 0 rest else merged listed changed 0 rest
  | n + 1, e :: rest => e :: merged listed changed (if listed e then n else n + 1) rest

/-- Where the next page begins: behind the page in what is left, or else in what is listed. -/
def next (listed changed : T → Bool) (n : Nat) (rest : List T) : Option T :=
  ((merged listed changed n rest)[n]?).or (rest.filter listed)[n]?

structure Skips (listed changed : T → Bool) (n : Nat) (rest : List T) : Prop where
  listed : ∀ e ∈ rest.take n, listed e = true
  unchanged : ∃ t beyond, rest.drop n = t :: beyond ∧ changed t = false ∧ ∃ e ∈ beyond, changed e = true

theorem merged_sublist (n : Nat) (rest : List T) : (merged listed changed n rest).Sublist rest := by
  induction rest generalizing n with
  | nil => exact .slnil
  | cons e rest ih =>
    cases n with
    | zero =>
      rw [merged]
      split
      · exact (ih 0).cons_cons e
      · exact (ih 0).cons e
    | succ n => exact (ih _).cons_cons e

theorem mem_merged (hcover : ∀ e ∈ rest, listed e = true ∨ changed e = true) (n : Nat) :
    e ∈ merged listed changed n rest ↔ e ∈ (rest.filter listed).take n ∨ e ∈ rest.filter changed := by
  induction rest generalizing n with
  | nil => simp [merged]
  | cons d rest ih =>
    have ih := ih fun e he => hcover e (mem_cons_of_mem _ he)
    cases n with
    | zero =>
      have h0 := ih 0
      rw [take_zero] at h0
      by_cases hd : changed d <;> simp [merged, hd, h0]
    | succ n =>
      by_cases hlisted : listed d
      · have hn := ih n
        by_cases hd : changed d <;> simp [merged, hd, hlisted, hn, or_assoc]
        tauto
      · have hd : changed d = true := (hcover d mem_cons_self).resolve_left hlisted
        have hn := ih (n + 1)
        simp only [merged, hlisted, Bool.false_eq_true, if_false, mem_cons, hn, filter_cons, hd, if_true]
        tauto

theorem take_merged (hmn : m ≤ n) (rest : List T) : (merged listed changed n rest).take m = rest.take m := by
  induction rest generalizing m n with
  | nil => simp [merged]
  | cons e rest ih =>
    cases m with
    | zero => rfl
    | succ m =>
      obtain ⟨n, rfl⟩ := Nat.exists_eq_add_one_of_ne_zero (n := n) (by omega)
      rw [merged, take_succ_cons, take_succ_cons, ih]
      split <;> omega

theorem getElem?_merged (hmn : m < n) (rest : List T) : (merged listed changed n rest)[m]? = rest[m]? := by
  have htake : ((merged listed changed n rest).take (m + 1))[m]? = (rest.take (m + 1))[m]? := by
    rw [take_merged (Nat.succ_le_of_lt hmn)]
  simpa [List.getElem?_take] using htake

theorem getElem?_merged_zero (rest : List T) : (merged listed changed 0 rest)[0]? = rest.find? changed := by
  induction rest with
  | nil => rfl
  | cons e rest ih => by_cases he : changed e <;> simp [merged, he, ih]

/-- A listed element takes one off the page. -/
theorem next_cons_of_listed (he : listed e = true) :
    next listed changed (n + 1) (e :: rest) = next listed changed n rest := by
  rw [next, merged, if_pos he, filter_cons_of_pos he]
  rfl

theorem next_cons_of_not_listed (he : listed e = false) : next listed changed (n + 1) (e :: rest) = rest[n]? := by
  have hmerged : (merged listed changed (n + 1) (e :: rest))[n + 1]? = rest[n]? := by
    rw [merged, if_neg (by simp [he]), List.getElem?_cons_succ, getElem?_merged (Nat.lt_succ_self n)]
  rw [next, hmerged, filter_cons_of_neg (by simp [he])]
  cases hn : rest[n]? with
  | some d => rfl
  | none =>
    have hlen := Nat.le_trans (length_filter_le listed rest) (List.getElem?_eq_none_iff.1 hn)
    rw [List.getElem?_eq_none (Nat.le_trans hlen (Nat.le_succ n))]
    rfl

theorem skips_cons_of_listed (he : listed e = true) :
    Skips listed changed (n + 1) (e :: rest) ↔ Skips listed changed n rest := by
  constructor
  · rintro ⟨hlisted, hunchanged⟩
    exact ⟨fun d hd => hlisted d (mem_cons_of_mem _ hd), hunchanged⟩
  · rintro ⟨hlisted, hunchanged⟩
    refine ⟨fun d hd => ?_, hunchanged⟩
    rcases mem_cons.1 hd with rfl | hd
    · exact he
    · exact hlisted d hd

theorem next_eq (hcover : ∀ e ∈ rest, listed e = true ∨ changed e = true) (hskips : ¬ Skips listed changed n rest) :
    next listed changed n rest = rest[n]? := by
  induction rest generalizing n with
  | nil => rfl
  | cons e rest ih =>
    have hrest : ∀ e ∈ rest, listed e = true ∨ changed e = true := fun d hd => hcover d (mem_cons_of_mem _ hd)
    cases n with
    | zero =>
      by_cases he : changed e
      · simp [next, merged, he]
      · have hlisted : listed e = true := (hcover e mem_cons_self).resolve_right he
        have hnone : rest.find? changed = none := by
          rw [List.find?_eq_none]
          intro d hd hchanged
          exact hskips ⟨fun _ h => (nomatch h), e, rest, rfl, by simpa using he, d, hd, hchanged⟩
        simp [next, merged, he, getElem?_merged_zero, hnone, hlisted]
    | succ n =>
      by_cases he : listed e
      · rw [next_cons_of_listed he, ih hrest fun h => hskips ((skips_cons_of_listed he).2 h), List.getElem?_cons_succ]
      · rw [next_cons_of_not_listed (by simpa using he), List.getElem?_cons_succ]

/-- The next page begins too late. -/
theorem Skips.next (hskips : Skips listed changed n rest) :
    ∃ t beyond e, rest.drop n = t :: beyond ∧ Paging.next listed changed n rest = some e ∧ e ∈ beyond := by
  induction rest generalizing n with
  | nil =>
    obtain ⟨t, beyond, hdrop, -⟩ := hskips.unchanged
    rw [drop_nil] at hdrop
    cases hdrop
  | cons d rest ih =>
    cases n with
    | zero =>
      obtain ⟨t, beyond, hdrop, ht, hex⟩ := hskips.unchanged
      cases hdrop
      obtain ⟨e, he⟩ : ∃ e, rest.find? changed = some e := by
        rw [← Option.isSome_iff_exists, List.find?_isSome]
        exact hex
      refine ⟨d, rest, e, rfl, ?_, List.mem_of_find?_eq_some he⟩
      simp [Paging.next, merged, ht, getElem?_merged_zero, he]
    | succ n =>
      have hd := hskips.listed d mem_cons_self
      rw [next_cons_of_listed hd]
      exact ih ((skips_cons_of_listed hd).1 hskips)

theorem mem_drop_of_next (hcover : ∀ e ∈ rest, listed e = true ∨ changed e = true)
    (hnext : next listed changed n rest = some e) : e ∈ rest.drop n := by
  by_cases hskips : Skips listed changed n rest
  · obtain ⟨t, beyond, d, hdrop, hd, hmem⟩ := hskips.next
    rw [hnext] at hd
    cases hd
    rw [hdrop]
    exact mem_cons_of_mem _ hmem
  · rw [next_eq hcover hskips] at hnext
    rw [List.mem_iff_getElem?]
    exact ⟨0, by rw [List.getElem?_drop, Nat.add_zero, hnext]⟩

/-! ### From page to page -/

/-- The pages from `b` on. A next key of 0 ends them. -/
inductive Visits (page : Nat → List T × Nat) : Nat → List (List T) → Prop
  | last {b : Nat} : (page b).2 = 0 → Visits page b [(page b).1]
  | more {b : Nat} {ps : List (List T)} : (page b).2 ≠ 0 → Visits page (page b).2 ps → Visits page b ((page b).1 :: ps)

variable {page : Nat → List T × Nat} {ps qs : List (List T)} {key : T → Nat}

/-- Pages of up to `n` elements of `l`, which is in the order of the keys. -/
structure PagesOf (listed changed : T → Bool) (key : T → Nat) (l : List T) (n : Nat) (page : Nat → List T × Nat) : Prop where
  sorted : l.Pairwise (key · < key ·)
  cover : ∀ e ∈ l, listed e = true ∨ changed e = true
  pos : 0 < n
  elements : ∀ b, (page b).1 = (l.filter (b ≤ key ·)).take n
  next : ∀ b, (page b).2 = ((next listed changed n (l.filter (b ≤ key ·))).map key).getD 0

/-- The elements from the key of one of them on -/
theorem filter_eq_drop {K : Type} [LinearOrder K] {key : T → K} {b : K} (hsorted : l.Pairwise (key · < key ·))
    (he : (l.filter (b ≤ key ·))[n]? = some e) : l.filter (key e ≤ key ·) = (l.filter (b ≤ key ·)).drop n := by
  have hb : b ≤ key e := by simpa using (mem_filter.1 (List.mem_of_getElem? he)).2
  have hrest : (l.filter (b ≤ key ·)).Pairwise (key · < key ·) := hsorted.filter _
  have htwice : l.filter (key e ≤ key ·) = (l.filter (b ≤ key ·)).filter (key e ≤ key ·) := by
    rw [filter_filter]
    refine filter_congr fun d _ => ?_
    by_cases hd : key e ≤ key d
    · simp [hd, le_trans hb hd]
    · simp [hd]
  obtain ⟨hn, hget⟩ := List.getElem?_eq_some_iff.1 he
  have hsplit := take_append_drop n (l.filter (b ≤ key ·))
  have hdrop := drop_eq_getElem_cons hn
  rw [hget] at hdrop
  rw [← hsplit, pairwise_append] at hrest
  obtain ⟨-, hlater, hbetween⟩ := hrest
  rw [hdrop] at hlater hbetween
  rw [htwice]
  conv_lhs => rw [← hsplit, filter_append, hdrop]
  have hbefore : ((l.filter (b ≤ key ·)).take n).filter (key e ≤ key ·) = [] := by
    rw [filter_eq_nil_iff]
    intro d hd
    simpa using hbetween d hd e mem_cons_self
  have hafter : (e :: (l.filter (b ≤ key ·)).drop (n + 1)).filter (key e ≤ key ·) =
      e :: (l.filter (b ≤ key ·)).drop (n + 1) := by
    refine filter_eq_self.2 fun d hd => ?_
    rcases mem_cons.1 hd with rfl | hd
    · simp
    · simpa using le_of_lt ((pairwise_cons.1 hlater).1 d hd)
  rw [hbefore, hafter, nil_append, hdrop]

namespace PagesOf

section

variable (h : PagesOf listed changed key l n page)
include h

theorem cover_filter (b : Nat) :
    ∀ e ∈ l.filter (b ≤ key ·), listed e = true ∨ changed e = true := fun e he => h.cover e (mem_filter.1 he).1

/-- The next key is that of an element behind the page. -/
theorem of_next (hmore : (page b).2 ≠ 0) :
    ∃ e, Paging.next listed changed n (l.filter (b ≤ key ·)) = some e ∧ (page b).2 = key e ∧
      e ∈ (l.filter (b ≤ key ·)).drop n := by
  have hnext := h.next b
  cases hn : Paging.next listed changed n (l.filter (b ≤ key ·)) with
  | none =>
    rw [hn] at hnext
    exact absurd hnext hmore
  | some e =>
    rw [hn] at hnext
    exact ⟨e, rfl, hnext, mem_drop_of_next (h.cover_filter b) hn⟩

theorem le_next (hmore : (page b).2 ≠ 0) : b ≤ (page b).2 := by
  obtain ⟨e, -, hkey, hmem⟩ := h.of_next hmore
  rw [hkey]
  simpa using (mem_filter.1 (mem_of_mem_drop hmem)).2

/-- The pages come to an end. -/
theorem visits (b : Nat) : ∃ ps, Visits page b ps := by
  induction hlen : (l.filter (b ≤ key ·)).length using Nat.strong_induction_on generalizing b with
  | _ len ih =>
    by_cases hend : (page b).2 = 0
    · exact ⟨_, .last hend⟩
    -- the next key is one of those behind this page, which has an element
    obtain ⟨e, -, hkey, hmem⟩ := h.of_next hend
    obtain ⟨m, hm⟩ := List.mem_iff_getElem?.1 hmem
    rw [List.getElem?_drop] at hm
    have hfewer : (l.filter ((page b).2 ≤ key ·)).length < len := by
      rw [hkey, filter_eq_drop h.sorted hm, length_drop]
      have hlt := (List.getElem?_eq_some_iff.1 hm).1
      have hpos := h.pos
      omega
    obtain ⟨ps, hps⟩ := ih _ hfewer _ rfl
    exact ⟨_, .more hend hps⟩

theorem of_mem_flatten (hps : Visits page b ps) {e : T} (he : e ∈ ps.flatten) : e ∈ l ∧ b ≤ key e := by
  induction hps with
  | last hend =>
    rw [flatten_singleton, h.elements] at he
    simpa using mem_filter.1 (mem_of_mem_take he)
  | more hmore hps ih =>
    rw [flatten_cons, mem_append, h.elements] at he
    rcases he with he | he
    · simpa using mem_filter.1 (mem_of_mem_take he)
    · exact ⟨(ih he).1, Nat.le_trans (h.le_next hmore) (ih he).2⟩

theorem length_le (hps : Visits page b ps) : ∀ p ∈ ps, p.length ≤ n := by
  induction hps with
  | last hend =>
    intro p hp
    rw [mem_singleton.1 hp, h.elements]
    exact length_take_le n _
  | more hmore hps ih =>
    intro p hp
    rcases mem_cons.1 hp with rfl | hp
    · rw [h.elements]
      exact length_take_le n _
    · exact ih p hp

/-- Behind a page whose next key is not too large there is the rest. -/
theorem filter_next (hskips : ¬ Skips listed changed n (l.filter (b ≤ key ·)))
    (hmore : (page b).2 ≠ 0) : l.filter ((page b).2 ≤ key ·) = (l.filter (b ≤ key ·)).drop n := by
  obtain ⟨e, hnext, hkey, -⟩ := h.of_next hmore
  rw [next_eq (h.cover_filter b) hskips] at hnext
  rw [hkey, filter_eq_drop h.sorted hnext]

theorem drop_eq_nil (hskips : ¬ Skips listed changed n (l.filter (b ≤ key ·)))
    (hend : (page b).2 = 0) : (l.filter (b ≤ key ·)).drop n = [] := by
  have hnext := h.next b
  rw [next_eq (h.cover_filter b) hskips, hend] at hnext
  cases hn : (l.filter (b ≤ key ·))[n]? with
  | none => exact drop_eq_nil_of_le (List.getElem?_eq_none_iff.1 hn)
  | some e =>
    -- a key of 0 is the first one, and a page is not empty
    rw [hn] at hnext
    have hzero : key e = 0 := hnext.symm
    obtain ⟨hlt, hget⟩ := List.getElem?_eq_some_iff.1 hn
    have hfirst := pairwise_iff_getElem.1 (h.sorted.filter (b ≤ key ·)) 0 n (Nat.zero_lt_of_lt hlt) hlt h.pos
    rw [hget, hzero] at hfirst
    exact absurd hfirst (Nat.not_lt_zero _)

theorem flatten_eq (hps : Visits page b ps)
    (hskips : ∀ k, ¬ Skips listed changed n ((l.filter (b ≤ key ·)).drop (k * n))) : ps.flatten = l.filter (b ≤ key ·) := by
  induction hps with
  | last hend =>
    have h0 := hskips 0
    rw [Nat.zero_mul, drop_zero] at h0
    rw [flatten_singleton, h.elements]
    conv_rhs => rw [← take_append_drop n (l.filter _), h.drop_eq_nil h0 hend, append_nil]
  | @more b ps hmore hps ih =>
    have h0 := hskips 0
    rw [Nat.zero_mul, drop_zero] at h0
    have hrest := h.filter_next h0 hmore
    rw [flatten_cons, h.elements, ih fun k => ?_, hrest, take_append_drop]
    rw [hrest, drop_drop]
    have hk := hskips (k + 1)
    rwa [Nat.add_mul, Nat.one_mul, Nat.add_comm] at hk

/-- The next key is too large: it is that of an element behind the one that follows the page. -/
theorem of_skips (hskips : Skips listed changed n (l.filter (b ≤ key ·))) :
    ∃ t ∈ l.filter (b ≤ key ·), t ∉ (l.filter (b ≤ key ·)).take n ∧ key t < (page b).2 := by
  obtain ⟨t, beyond, e, hdrop, hnext, hmem⟩ := hskips.next
  have hkey : (page b).2 = key e := by rw [h.next, hnext]; rfl
  have hsorted : (l.filter (b ≤ key ·)).Pairwise (key · < key ·) := h.sorted.filter _
  rw [← take_append_drop n (l.filter (b ≤ key ·)), hdrop, pairwise_append] at hsorted
  obtain ⟨-, hlater, hbetween⟩ := hsorted
  refine ⟨t, ?_, fun ht => ?_, ?_⟩
  · refine mem_of_mem_drop (i := n) ?_
    rw [hdrop]
    exact mem_cons_self
  · exact absurd (hbetween t ht t mem_cons_self) (Nat.lt_irrefl _)
  · rw [hkey]
    exact (pairwise_cons.1 hlater).1 e hmem

/-- What follows a page whose next key is too large is on no page. -/
theorem not_flatten_eq (hps : Visits page b ps) {k : Nat}
    (hskips : Skips listed changed n ((l.filter (b ≤ key ·)).drop (k * n))) : ps.flatten ≠ l.filter (b ≤ key ·) := by
  induction hps generalizing k with
  | @last b hend =>
    by_cases h0 : Skips listed changed n (l.filter (b ≤ key ·))
    · obtain ⟨t, -, -, hlt⟩ := h.of_skips h0
      rw [hend] at hlt
      exact absurd hlt (Nat.not_lt_zero _)
    · obtain ⟨t, beyond, hdrop, -⟩ := hskips.unchanged
      rw [drop_drop, Nat.add_comm, ← drop_drop, h.drop_eq_nil h0 hend, drop_nil] at hdrop
      cases hdrop
  | @more b ps hmore hps ih =>
    rw [flatten_cons, h.elements]
    by_cases h0 : Skips listed changed n (l.filter (b ≤ key ·))
    · obtain ⟨t, ht, hpage, hlt⟩ := h.of_skips h0
      intro heq
      rw [← heq, mem_append] at ht
      rcases ht with ht | ht
      · exact hpage ht
      · exact absurd (Nat.lt_of_le_of_lt (h.of_mem_flatten hps ht).2 hlt) (Nat.lt_irrefl _)
    · have hrest := h.filter_next h0 hmore
      obtain ⟨k, rfl⟩ : ∃ j, k = j + 1 := by
        cases k with
        | zero =>
          rw [Nat.zero_mul, drop_zero] at hskips
          exact absurd hskips h0
        | succ j => exact ⟨j, rfl⟩
      have hk : Skips listed changed n ((l.filter ((page b).2 ≤ key ·)).drop (k * n)) := by
        rw [hrest, drop_drop, Nat.add_comm n]
        rwa [Nat.add_mul, Nat.one_mul] at hskips
      intro heq
      conv_rhs at heq => rw [← take_append_drop n (l.filter (b ≤ key ·))]
      exact ih hk ((append_cancel_left heq).trans hrest.symm)

/-- The pages are the whole list exactly if none of them is followed by one that begins too late. -/
theorem flatten_eq_iff (hps : Visits page 0 ps) :
    ps.flatten = l ↔ ∀ k, ¬ Skips listed changed n (l.drop (k * n)) := by
  have hall : l.filter (0 ≤ key ·) = l := filter_eq_self.2 fun e _ => by simp
  constructor
  · intro heq k hskips
    refine h.not_flatten_eq hps (k := k) ?_ ?_
    · rwa [hall]
    · rw [heq, hall]
  · intro hskips
    rw [h.flatten_eq hps fun k => ?_, hall]
    rw [hall]
    exact hskips k

end

end PagesOf

end Paging
