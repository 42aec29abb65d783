import Mathlib.Data.List.AList
import Mathlib.Order.Basic

/-!
# Numbered items in chunks (the helper functions of `libwing/BlockChainSync.cpp`)

A `std::map<unsigned, std::vector<T>>` holds the items of consecutive numbers under the first of them. What a map
says is `At`; as long as no chunk is empty or reaches into the next one (`Separate`), the functions are about that.
-/

namespace Kmdx.Sync

open List

variable {T : Type}

/-- The chunks, in the order of their numbers. -/
abbrev Chunks (T : Type) := List (Nat × List T)

namespace Chunks

/-- In front of `lower_bound(n)`. -/
def front (m : Chunks T) (n : Nat) : Chunks T := m.takeWhile fun c => c.1 < n

/-- From `lower_bound(n)` on. -/
def lowerBound (m : Chunks T) (n : Nat) : Chunks T := m.dropWhile fun c => c.1 < n

/-- The chunk under the number. -/
def startsAt (m : Chunks T) (n : Nat) : Option (Nat × List T) := (lowerBound m n).head?.filter (·.1 = n)

/-- The chunk in front of it, if the number is in there. -/
def spans (m : Chunks T) (n : Nat) : Option (Nat × List T) :=
  (front m n).getLast?.filter fun c => c.1 ≤ n ∧ n < c.1 + c.2.length

def haveItem (m : Chunks T) (n : Nat) : Bool := (startsAt m n).isSome || (spans m n).isSome

def findItem (m : Chunks T) (n : Nat) : Option T :=
  match startsAt m n with
  | some c => c.2.head?
  | none => (spans m n).bind fun c => c.2[n - c.1]?

/-- A chunk under the number goes as a whole. -/
def removeItem (m : Chunks T) (n : Nat) : Chunks T :=
  match startsAt m n with
  | some _ => front m n ++ (lowerBound m n).tail
  | none =>
    match spans m n with
    | some c => (front m n).dropLast ++ (c.1, c.2.take (n - c.1)) :: lowerBound m n
    | none => m

def removeAllStartingWith (m : Chunks T) (n : Nat) : Chunks T :=
  match startsAt m n with
  | some _ => front m n
  | none =>
    match spans m n with
    | some c => (front m n).dropLast ++ [(c.1, c.2.take (n - c.1))]
    | none => front m n

/-- The chunk in front, if it ends where the number stands. -/
def endsAt (m : Chunks T) (n : Nat) : Option (Nat × List T) := (front m n).getLast?.filter fun c => c.1 + c.2.length = n

/-- A new item with the chunk right behind it, and the chunks behind that. -/
def joined (m : Chunks T) (n : Nat) (data : T) : List T × Chunks T :=
  match (lowerBound m n).head?.filter (·.1 = n + 1) with
  | some next => (data :: next.2, (lowerBound m n).tail)
  | none => ([data], lowerBound m n)

/-- None where the assertion fails that there is no such item. -/
def mergeInto (m : Chunks T) (n : Nat) (data : T) : Option (Chunks T) :=
  if haveItem m n then none
  else
    match endsAt m n with
    | some c => some ((front m n).dropLast ++ (c.1, c.2 ++ (joined m n data).1) :: (joined m n data).2)
    | none => some (front m n ++ (n, (joined m n data).1) :: (joined m n data).2)

/-! ### What a map says -/

/-- `x` is the item `n`. -/
def At (m : Chunks T) (n : Nat) (x : T) : Prop := ∃ c ∈ m, c.1 ≤ n ∧ c.2[n - c.1]? = some x

/-- There is an item `n`. -/
def Has (m : Chunks T) (n : Nat) : Prop := ∃ x, At m n x

structure Separate (m : Chunks T) : Prop where
  apart : m.Pairwise fun c d => c.1 + c.2.length ≤ d.1
  nonempty : ∀ c ∈ m, c.2 ≠ []

variable {m : Chunks T} {n j : Nat} {x y : T} {c d : Nat × List T}

theorem has_iff : Has m n ↔ ∃ c ∈ m, c.1 ≤ n ∧ n < c.1 + c.2.length := by
  constructor
  · rintro ⟨x, c, hc, hle, hget⟩
    have hlt := (List.getElem?_eq_some_iff.1 hget).1
    exact ⟨c, hc, hle, by omega⟩
  · rintro ⟨c, hc, hle, hlt⟩
    exact ⟨c.2[n - c.1], c, hc, hle, List.getElem?_eq_getElem (by omega)⟩

namespace Separate

theorem length_pos (h : Separate m) (hc : c ∈ m) : 0 < c.2.length := length_pos_iff.2 (h.nonempty c hc)

theorem sorted (h : Separate m) : m.Pairwise fun c d => c.1 < d.1 :=
  h.apart.imp_of_mem fun {c d} hc _ hle => by
    have := h.length_pos hc
    omega

/-- No two chunks hold one number. -/
theorem eq_of_holds (h : Separate m) (hc : c ∈ m) (hd : d ∈ m) (hcn : c.1 ≤ n ∧ n < c.1 + c.2.length)
    (hdn : d.1 ≤ n ∧ n < d.1 + d.2.length) : c = d := by
  by_contra hne
  have hsymm : Std.Symm fun c d : Nat × List T => c.1 + c.2.length ≤ d.1 ∨ d.1 + d.2.length ≤ c.1 := ⟨fun _ _ => Or.symm⟩
  have hpairs : m.Pairwise fun c d => c.1 + c.2.length ≤ d.1 ∨ d.1 + d.2.length ≤ c.1 := h.apart.imp .inl
  have hapart := hpairs.forall hc hd hne
  omega

theorem at_inj (h : Separate m) (hx : At m n x) (hy : At m n y) : x = y := by
  obtain ⟨c, hc, hle, hget⟩ := hx
  obtain ⟨d, hd, hle', hget'⟩ := hy
  have hlt := (List.getElem?_eq_some_iff.1 hget).1
  have hlt' := (List.getElem?_eq_some_iff.1 hget').1
  rw [h.eq_of_holds hc hd (n := n) (by omega) (by omega), hget'] at hget
  exact (Option.some.inj hget).symm

theorem mem_front (h : Separate m) : c ∈ front m n ↔ c ∈ m ∧ c.1 < n := by
  have hsorted := h.sorted
  clear h
  induction m with
  | nil => simp [front]
  | cons d m ih =>
    rw [pairwise_cons] at hsorted
    rw [front, takeWhile_cons]
    by_cases hd : d.1 < n
    · have hm := ih hsorted.2
      rw [front] at hm
      rw [if_pos (by simpa using hd), mem_cons, mem_cons]
      refine (or_congr_right hm).trans ?_
      constructor
      · rintro (rfl | ⟨hc, hlt⟩)
        · exact ⟨.inl rfl, hd⟩
        · exact ⟨.inr hc, hlt⟩
      · rintro ⟨rfl | hc, hlt⟩
        · exact .inl rfl
        · exact .inr ⟨hc, hlt⟩
    · rw [if_neg (by simpa using hd)]
      refine ⟨nofun, ?_⟩
      rintro ⟨hc, hlt⟩
      rcases mem_cons.1 hc with rfl | hc
      · exact absurd hlt hd
      · exact absurd (lt_trans (hsorted.1 c hc) hlt) hd

theorem mem_lowerBound (h : Separate m) : c ∈ lowerBound m n ↔ c ∈ m ∧ n ≤ c.1 := by
  have hsplit : c ∈ m ↔ c ∈ front m n ∨ c ∈ lowerBound m n := by
    rw [← mem_append, front, lowerBound, takeWhile_append_dropWhile]
  have hback : c ∈ lowerBound m n → n ≤ c.1 := by
    have hsorted := h.sorted
    clear hsplit h
    induction m with
    | nil => simp [lowerBound]
    | cons d m ih =>
      rw [pairwise_cons] at hsorted
      rw [lowerBound, dropWhile_cons]
      split
      · exact ih hsorted.2
      · rename_i hd
        simp only [decide_eq_true_eq, not_lt] at hd
        intro hc
        rcases mem_cons.1 hc with rfl | hc
        · exact hd
        · exact le_trans hd (le_of_lt (hsorted.1 c hc))
  constructor
  · exact fun hc => ⟨hsplit.2 (.inr hc), hback hc⟩
  · rintro ⟨hc, hle⟩
    rcases hsplit.1 hc with hc | hc
    · exact absurd (h.mem_front.1 hc).2 (not_lt.2 hle)
    · exact hc

end Separate

theorem front_append (m : Chunks T) (n : Nat) : front m n ++ lowerBound m n = m := takeWhile_append_dropWhile

theorem startsAt_eq_some (h : startsAt m n = some c) : lowerBound m n = c :: (lowerBound m n).tail ∧ c.1 = n := by
  rw [startsAt, Option.filter_eq_some_iff, List.head?_eq_some_iff] at h
  obtain ⟨⟨l, hl⟩, hc⟩ := h
  rw [hl]
  exact ⟨rfl, of_decide_eq_true hc⟩

theorem spans_eq_some (h : spans m n = some c) :
    front m n = (front m n).dropLast ++ [c] ∧ c.1 ≤ n ∧ n < c.1 + c.2.length := by
  rw [spans, Option.filter_eq_some_iff, List.getLast?_eq_some_iff] at h
  obtain ⟨⟨l, hl⟩, hc⟩ := h
  rw [hl, dropLast_concat]
  exact ⟨rfl, of_decide_eq_true hc⟩

theorem endsAt_eq_some (h : endsAt m n = some c) : front m n = (front m n).dropLast ++ [c] ∧ c.1 + c.2.length = n := by
  rw [endsAt, Option.filter_eq_some_iff, List.getLast?_eq_some_iff] at h
  obtain ⟨⟨l, hl⟩, hc⟩ := h
  rw [hl, dropLast_concat]
  exact ⟨rfl, of_decide_eq_true hc⟩

namespace Separate

/-- The chunk that holds a number is found. -/
theorem found (h : Separate m) (hc : c ∈ m) (hle : c.1 ≤ n) (hlt : n < c.1 + c.2.length) :
    startsAt m n = some c ∧ c.1 = n ∨ startsAt m n = none ∧ spans m n = some c := by
  have hsorted := h.sorted
  rw [← front_append m n, pairwise_append] at hsorted
  rcases Nat.eq_or_lt_of_le hle with heq | hlt'
  · left
    have hmem := h.mem_lowerBound.2 ⟨hc, heq.ge⟩
    cases hlower : lowerBound m n with
    | nil =>
      rw [hlower] at hmem
      cases hmem
    | cons d l =>
      rw [hlower, pairwise_cons] at hsorted
      have hd := (h.mem_lowerBound.1 (hlower ▸ mem_cons_self : d ∈ lowerBound m n)).2
      rw [hlower] at hmem
      rcases mem_cons.1 hmem with rfl | hmem
      · refine ⟨?_, heq⟩
        rw [startsAt, hlower, List.head?_cons, Option.filter_some, if_pos (by simpa using heq)]
      · have := hsorted.2.1.1 c hmem
        omega
  · right
    have hfront := h.mem_front.2 ⟨hc, hlt'⟩
    constructor
    · cases hstart : startsAt m n with
      | none => rfl
      | some d =>
        obtain ⟨hlower, hd⟩ := startsAt_eq_some hstart
        have hmem := (h.mem_lowerBound.1 (hlower ▸ mem_cons_self : d ∈ lowerBound m n)).1
        have hpos := h.length_pos hmem
        rw [h.eq_of_holds hc hmem (n := n) ⟨hle, hlt⟩ ⟨hd.le, by omega⟩] at hlt'
        omega
    · rcases eq_nil_or_concat (front m n) with hnil | ⟨l, d, hconcat⟩
      · rw [hnil] at hfront
        cases hfront
      · rw [concat_eq_append] at hconcat
        have hd := h.mem_front.1 (hconcat ▸ mem_append_right l (mem_singleton_self d) : d ∈ front m n)
        have hcd : c = d := by
          have happart := h.apart
          rw [← front_append m n, hconcat, pairwise_append, pairwise_append] at happart
          rw [hconcat, mem_append, mem_singleton] at hfront
          rcases hfront with hc' | hc'
          · have := happart.1.2.2 c hc' d (mem_singleton_self d)
            omega
          · exact hc'
        rw [spans, hconcat, List.getLast?_concat, Option.filter_some, ← hcd, if_pos (by simpa using ⟨hle, hlt⟩)]

theorem haveItem_iff (h : Separate m) : haveItem m n = true ↔ Has m n := by
  rw [haveItem, Bool.or_eq_true, Option.isSome_iff_exists, Option.isSome_iff_exists, has_iff]
  constructor
  · rintro (⟨c, hc⟩ | ⟨c, hc⟩)
    · obtain ⟨hlower, rfl⟩ := startsAt_eq_some hc
      have hmem := (h.mem_lowerBound.1 (hlower ▸ mem_cons_self : c ∈ lowerBound m c.1)).1
      exact ⟨c, hmem, le_rfl, Nat.lt_add_of_pos_right (h.length_pos hmem)⟩
    · obtain ⟨hfront, hle, hlt⟩ := spans_eq_some hc
      have hmem := (h.mem_front.1 (hfront ▸ mem_append_right _ (mem_singleton_self c) : c ∈ front m n)).1
      exact ⟨c, hmem, hle, hlt⟩
  · rintro ⟨c, hc, hle, hlt⟩
    rcases h.found hc hle hlt with ⟨hfound, -⟩ | ⟨-, hfound⟩
    · exact .inl ⟨c, hfound⟩
    · exact .inr ⟨c, hfound⟩

theorem findItem_eq_some_iff (h : Separate m) : findItem m n = some x ↔ At m n x := by
  have hsome : ∀ {c : Nat × List T}, c ∈ m → c.1 ≤ n → n < c.1 + c.2.length → findItem m n = c.2[n - c.1]? := by
    intro c hc hle hlt
    rcases h.found hc hle hlt with ⟨hfound, rfl⟩ | ⟨hnone, hfound⟩
    · rw [findItem, hfound, Nat.sub_self]
      exact List.head?_eq_getElem?
    · rw [findItem, hnone, hfound]
      rfl
  constructor
  · intro hfind
    have hhas : Has m n := by
      rw [← h.haveItem_iff, haveItem, Bool.or_eq_true]
      rw [findItem] at hfind
      cases hstart : startsAt m n with
      | some c => exact .inl rfl
      | none =>
        rw [hstart] at hfind
        cases hspans : spans m n with
        | some c => exact .inr rfl
        | none =>
          rw [hspans] at hfind
          cases hfind
    obtain ⟨c, hc, hle, hlt⟩ := has_iff.1 hhas
    exact ⟨c, hc, hle, (hsome hc hle hlt) ▸ hfind⟩
  · rintro ⟨c, hc, hle, hget⟩
    have hlt := (List.getElem?_eq_some_iff.1 hget).1
    rw [hsome hc hle (by omega), hget]

end Separate

/-! ### Changing a map -/

theorem at_cons : At (c :: m) n x ↔ (c.1 ≤ n ∧ c.2[n - c.1]? = some x) ∨ At m n x := by
  simp only [At, mem_cons, or_and_right, exists_or, exists_eq_left]

theorem at_append {m' : Chunks T} : At (m ++ m') n x ↔ At m n x ∨ At m' n x := by
  simp only [At, mem_append, or_and_right, exists_or]

theorem separate_cons : Separate (c :: m) ↔ c.2 ≠ [] ∧ (∀ d ∈ m, c.1 + c.2.length ≤ d.1) ∧ Separate m := by
  constructor
  · rintro ⟨hapart, hne⟩
    rw [pairwise_cons] at hapart
    rw [forall_mem_cons] at hne
    exact ⟨hne.1, hapart.1, hapart.2, hne.2⟩
  · rintro ⟨hne, hle, h⟩
    exact ⟨pairwise_cons.2 ⟨hle, h.apart⟩, forall_mem_cons.2 ⟨hne, h.nonempty⟩⟩

theorem separate_append {m' : Chunks T} :
    Separate (m ++ m') ↔ Separate m ∧ Separate m' ∧ ∀ c ∈ m, ∀ d ∈ m', c.1 + c.2.length ≤ d.1 := by
  constructor
  · rintro ⟨hapart, hne⟩
    rw [pairwise_append] at hapart
    rw [forall_mem_append] at hne
    exact ⟨⟨hapart.1, hne.1⟩, ⟨hapart.2.1, hne.2⟩, hapart.2.2⟩
  · rintro ⟨h, h', hle⟩
    exact ⟨pairwise_append.2 ⟨h.apart, h'.apart, hle⟩, forall_mem_append.2 ⟨h.nonempty, h'.nonempty⟩⟩

theorem separate_nil : Separate ([] : Chunks T) := ⟨.nil, nofun⟩

namespace Separate

theorem front (h : Separate m) (n : Nat) : Separate (Chunks.front m n) := by
  rw [← front_append m n, separate_append] at h
  exact h.1

theorem lt_of_at {k : Nat} (h : ∀ c ∈ m, c.1 + c.2.length ≤ k) (hx : At m j x) : j < k := by
  obtain ⟨c, hc, hle, hget⟩ := hx
  have hlt := (List.getElem?_eq_some_iff.1 hget).1
  have hk := h c hc
  omega

theorem le_of_at {k : Nat} (h : ∀ c ∈ m, k ≤ c.1) (hx : At m j x) : k ≤ j := by
  obtain ⟨c, hc, hle, -⟩ := hx
  exact (h c hc).trans hle

/-- What is in front of a chunk that holds the number, and what is behind it. -/
theorem split_spans (h : Separate m) (hc : spans m n = some c) : ∃ l r, Chunks.front m n = l ++ [c] ∧ lowerBound m n = r ∧
    m = l ++ c :: r ∧ c.1 < n ∧ n < c.1 + c.2.length := by
  obtain ⟨hfront, -, hlt⟩ := spans_eq_some hc
  refine ⟨_, _, hfront, rfl, ?_, ?_, hlt⟩
  · rw [append_cons, ← hfront, front_append]
  · exact (h.mem_front.1 (hfront ▸ mem_append_right _ (mem_singleton_self c) : c ∈ Chunks.front m n)).2

/-- The items of a chunk that is cut. -/
theorem take_item (hle : c.1 ≤ n) : (c.1 ≤ j ∧ (c.2.take (n - c.1))[j - c.1]? = some x) ↔
    j < n ∧ c.1 ≤ j ∧ c.2[j - c.1]? = some x := by
  rw [List.getElem?_take]
  constructor
  · rintro ⟨hj, hget⟩
    split at hget
    · exact ⟨by omega, hj, hget⟩
    · cases hget
  · rintro ⟨hj, hle', hget⟩
    rw [if_pos (by omega)]
    exact ⟨hle', hget⟩

theorem take_ne_nil (hlt : c.1 < n) (hne : c.2 ≠ []) : c.2.take (n - c.1) ≠ [] := by
  rw [Ne, take_eq_nil_iff, not_or]
  exact ⟨by omega, hne⟩

/-- Nothing reaches over a number where no chunk spans it. -/
theorem at_front (h : Separate m) (hnone : spans m n = none ∨ (startsAt m n).isSome) :
    At (Chunks.front m n) j x ↔ j < n ∧ At m j x := by
  constructor
  · rintro ⟨c, hc, hle, hget⟩
    obtain ⟨hmem, hlt⟩ := h.mem_front.1 hc
    have hlen := (List.getElem?_eq_some_iff.1 hget).1
    refine ⟨by_contra fun hge => ?_, c, hmem, hle, hget⟩
    rcases h.found (n := n) hmem hlt.le (by omega) with ⟨-, heq⟩ | ⟨hstart, hspans⟩
    · omega
    · rw [hstart, hspans] at hnone
      rcases hnone with hnone | hnone <;> cases hnone
  · rintro ⟨hlt, c, hc, hle, hget⟩
    exact ⟨c, h.mem_front.2 ⟨hc, by omega⟩, hle, hget⟩

theorem removeAllStartingWith (h : Separate m) (n : Nat) : Separate (Chunks.removeAllStartingWith m n) ∧
    ∀ j x, At (Chunks.removeAllStartingWith m n) j x ↔ j < n ∧ At m j x := by
  rw [Chunks.removeAllStartingWith]
  cases hstart : startsAt m n with
  | some c => exact ⟨h.front n, fun j x => h.at_front (.inr (by rw [hstart]; rfl))⟩
  | none =>
    cases hspans : spans m n with
    | none => exact ⟨h.front n, fun j x => h.at_front (.inl hspans)⟩
    | some c =>
      obtain ⟨l, r, hfront, -, rfl, hlt, hend⟩ := h.split_spans hspans
      obtain ⟨hl, hr, hapart⟩ := separate_append.1 h
      obtain ⟨hne, hle, -⟩ := separate_cons.1 hr
      dsimp only
      rw [hfront, dropLast_concat]
      constructor
      · refine separate_append.2 ⟨hl, separate_cons.2 ⟨take_ne_nil hlt hne, nofun, separate_nil⟩, fun d hd e he => ?_⟩
        rw [mem_singleton.1 he]
        exact hapart d hd c mem_cons_self
      · intro j x
        rw [at_append, at_cons, take_item hlt.le, at_append, at_cons]
        have hfirst : At l j x → j < n := fun hx => (lt_of_at (fun d hd => hapart d hd c mem_cons_self) hx).trans hlt
        have hlast : At r j x → ¬ j < n := fun hx hj => by
          have := le_of_at hle hx
          omega
        have hnil : ¬ At ([] : Chunks T) j x := fun ⟨_, hc, _⟩ => not_mem_nil hc
        tauto

theorem removeItem_of_not_has (h : Separate m) (hnot : ¬ Has m n) : Chunks.removeItem m n = m := by
  have hitem : haveItem m n = false := Bool.eq_false_iff.2 fun htrue => hnot (h.haveItem_iff.1 htrue)
  rw [haveItem, Bool.or_eq_false_iff, Option.isSome_eq_false_iff, Option.isNone_iff_eq_none, Option.isSome_eq_false_iff,
    Option.isNone_iff_eq_none] at hitem
  rw [Chunks.removeItem, hitem.1, hitem.2]

/-- Of the chunk that holds the number, the items from there on go. -/
theorem removeItem (h : Separate m) (hc : c ∈ m) (hle : c.1 ≤ n) (hlt : n < c.1 + c.2.length) :
    Separate (Chunks.removeItem m n) ∧
    ∀ j x, At (Chunks.removeItem m n) j x ↔ At m j x ∧ (n ≤ j → c.1 + c.2.length ≤ j) := by
  have hnil : ∀ {j : Nat} {x : T}, ¬ At ([] : Chunks T) j x := fun ⟨_, hc, _⟩ => not_mem_nil hc
  rw [Chunks.removeItem]
  rcases h.found hc hle hlt with ⟨hstart, rfl⟩ | ⟨hstart, hspans⟩
  · obtain ⟨hlower, -⟩ := startsAt_eq_some hstart
    have hm := front_append m c.1
    rw [hlower] at hm
    obtain ⟨hl, hr, hapart⟩ := separate_append.1 (hm ▸ h)
    obtain ⟨hne, hnext, hr'⟩ := separate_cons.1 hr
    rw [hstart]
    refine ⟨separate_append.2 ⟨hl, hr', fun d hd e he => hapart d hd e (mem_cons_of_mem _ he)⟩, fun j x => ?_⟩
    have hat : At m j x ↔ At (Chunks.front m c.1) j x ∨ (c.1 ≤ j ∧ c.2[j - c.1]? = some x) ∨
        At (lowerBound m c.1).tail j x := by
      rw [← at_cons, ← at_append, hm]
    have hfirst : At (Chunks.front m c.1) j x → j < c.1 := lt_of_at fun d hd => hapart d hd c mem_cons_self
    have hlast : At (lowerBound m c.1).tail j x → c.1 + c.2.length ≤ j := le_of_at hnext
    have hitem : c.1 ≤ j ∧ c.2[j - c.1]? = some x → j < c.1 + c.2.length := fun hx => by
      have := (List.getElem?_eq_some_iff.1 hx.2).1
      omega
    rw [at_append, hat]
    constructor
    · rintro (hx | hx)
      · exact ⟨.inl hx, fun hj => absurd (hfirst hx) (not_lt.2 hj)⟩
      · exact ⟨.inr (.inr hx), fun _ => hlast hx⟩
    · rintro ⟨hx | hx | hx, hj⟩
      · exact .inl hx
      · exact absurd (hitem hx) (not_lt.2 (hj hx.1))
      · exact .inr hx
  · obtain ⟨l, r, hfront, hlower, rfl, hlt', -⟩ := h.split_spans hspans
    obtain ⟨hl, hr, hapart⟩ := separate_append.1 h
    obtain ⟨hne, hnext, hr'⟩ := separate_cons.1 hr
    rw [hstart, hspans]
    dsimp only
    rw [hfront, dropLast_concat, hlower]
    constructor
    · refine separate_append.2 ⟨hl, separate_cons.2 ⟨take_ne_nil hlt' hne, fun d hd => ?_, hr'⟩, fun d hd e he => ?_⟩
      · have hd' := hnext d hd
        rw [length_take]
        dsimp only
        omega
      · rcases mem_cons.1 he with rfl | he
        · exact hapart d hd c mem_cons_self
        · exact hapart d hd e (mem_cons_of_mem _ he)
    · intro j x
      have hfirst : At l j x → j < c.1 := lt_of_at fun d hd => hapart d hd c mem_cons_self
      have hlast : At r j x → c.1 + c.2.length ≤ j := le_of_at hnext
      have hitem : c.1 ≤ j ∧ c.2[j - c.1]? = some x → j < c.1 + c.2.length := fun hx => by
        have := (List.getElem?_eq_some_iff.1 hx.2).1
        omega
      rw [at_append, at_cons, take_item hle, at_append, at_cons]
      constructor
      · rintro (hx | ⟨hj, hx⟩ | hx)
        · exact ⟨.inl hx, fun hj => by have := hfirst hx; omega⟩
        · exact ⟨.inr (.inl hx), fun hj' => absurd hj (not_lt.2 hj')⟩
        · exact ⟨.inr (.inr hx), fun _ => hlast hx⟩
      · rintro ⟨hx | hx | hx, hj⟩
        · exact .inl hx
        · exact .inr (.inl ⟨not_le.1 fun hj' => not_lt.2 (hj hj') (hitem hx), hx⟩)
        · exact .inr (.inr hx)

/-- One more item at the end of a chunk. -/
theorem concat_item {v : List T} : (c.1 ≤ j ∧ (c.2 ++ v)[j - c.1]? = some x) ↔
    (c.1 ≤ j ∧ c.2[j - c.1]? = some x) ∨ (c.1 + c.2.length ≤ j ∧ v[j - (c.1 + c.2.length)]? = some x) := by
  by_cases hj : j < c.1 + c.2.length
  · by_cases hle : c.1 ≤ j
    · rw [List.getElem?_append_left (by omega)]
      exact ⟨.inl, fun hor => hor.resolve_right fun hand => absurd hand.1 (not_le.2 hj)⟩
    · exact ⟨fun hand => absurd hand.1 hle, fun hor => hor.elim (fun hand => absurd hand.1 hle) fun hand => by omega⟩
  · rw [List.getElem?_append_right (by omega), List.getElem?_eq_none (l := c.2) (by omega), Nat.sub_sub]
    simp only [reduceCtorEq, and_false, false_or]
    exact ⟨fun hand => ⟨by omega, hand.2⟩, fun hand => ⟨by omega, hand.2⟩⟩

/-- A new item stands in front of the chunks behind it. -/
theorem joined (h : Separate m) (hnot : ¬ Has m n) (x : T) :
    Separate ((n, (Chunks.joined m n x).1) :: (Chunks.joined m n x).2) ∧
    ∀ j y, At ((n, (Chunks.joined m n x).1) :: (Chunks.joined m n x).2) j y ↔ j = n ∧ y = x ∨ At (lowerBound m n) j y := by
  have hm := h
  rw [← front_append m n, separate_append] at hm
  have hlower := hm.2.1
  have hbehind : ∀ d ∈ lowerBound m n, n + 1 ≤ d.1 := by
    intro d hd
    obtain ⟨hmem, hle⟩ := h.mem_lowerBound.1 hd
    have hpos := h.length_pos hmem
    refine Nat.lt_of_le_of_ne hle fun heq => hnot (has_iff.2 ⟨d, hmem, heq.ge, by omega⟩)
  have hone : ∀ {j : Nat} {y : T}, n ≤ j ∧ [x][j - n]? = some y ↔ j = n ∧ y = x := by
    intro j y
    rw [List.getElem?_singleton]
    constructor
    · rintro ⟨hle, hget⟩
      split at hget
      · cases hget
        exact ⟨by omega, rfl⟩
      · cases hget
    · rintro ⟨rfl, rfl⟩
      rw [if_pos (Nat.sub_self j)]
      exact ⟨le_rfl, rfl⟩
  rw [Chunks.joined]
  cases hnext : (lowerBound m n).head?.filter (·.1 = n + 1) with
  | none =>
    refine ⟨separate_cons.2 ⟨cons_ne_nil _ _, hbehind, hlower⟩, fun j y => ?_⟩
    rw [at_cons]
    exact or_congr_left hone
  | some next =>
    rw [Option.filter_eq_some_iff, List.head?_eq_some_iff] at hnext
    obtain ⟨⟨l, hl⟩, hkey⟩ := hnext
    rw [decide_eq_true_eq] at hkey
    rw [hl] at hlower ⊢
    obtain ⟨-, hle, hl'⟩ := separate_cons.1 hlower
    rw [tail_cons]
    refine ⟨separate_cons.2 ⟨cons_ne_nil _ _, fun d hd => ?_, hl'⟩, fun j y => ?_⟩
    · have := hle d hd
      rw [length_cons]
      dsimp only
      omega
    · rw [at_cons, at_cons, ← or_assoc]
      refine or_congr_left ?_
      have hsplit := concat_item (c := (n, [x])) (j := j) (x := y) (v := next.2)
      rw [hkey, ← hone]
      exact hsplit

theorem mergeInto (h : Separate m) (hnot : ¬ Has m n) (x : T) : ∃ m', Chunks.mergeInto m n x = some m' ∧ Separate m' ∧
    ∀ j y, At m' j y ↔ j = n ∧ y = x ∨ At m j y := by
  have hitem : haveItem m n = false := Bool.eq_false_iff.2 fun htrue => hnot (h.haveItem_iff.1 htrue)
  have hat : ∀ {j : Nat} {y : T}, At m j y ↔ At (Chunks.front m n) j y ∨ At (lowerBound m n) j y := by
    intro j y
    rw [← at_append, front_append]
  obtain ⟨hsep, hjoined⟩ := h.joined hnot x
  obtain ⟨hne, hle, hrest⟩ := separate_cons.1 hsep
  -- Nothing reaches up to the number but the chunk that ends there.
  have hreach : ∀ c ∈ Chunks.front m n, c.1 + c.2.length ≤ n := by
    intro c hc
    obtain ⟨hmem, hlt⟩ := h.mem_front.1 hc
    exact not_lt.1 fun hgt => hnot (has_iff.2 ⟨c, hmem, hlt.le, hgt⟩)
  rw [Chunks.mergeInto, hitem, if_neg (by simp)]
  cases hends : endsAt m n with
  | none =>
    refine ⟨_, rfl, separate_append.2 ⟨h.front n, hsep, fun c hc d hd => ?_⟩, fun j y => ?_⟩
    · rcases mem_cons.1 hd with rfl | hd
      · exact hreach c hc
      · have := hreach c hc
        have := hle d hd
        dsimp only at this
        omega
    · rw [at_append, hjoined, hat]
      tauto
  | some c =>
    obtain ⟨hfront, hend⟩ := endsAt_eq_some hends
    have hsepfront := h.front n
    rw [hfront] at hsepfront
    obtain ⟨hl, hc, hapart⟩ := separate_append.1 hsepfront
    refine ⟨_, rfl, separate_append.2 ⟨hl, separate_cons.2 ⟨?_, fun d hd => ?_, hrest⟩, fun d hd e he => ?_⟩, fun j y => ?_⟩
    · exact append_ne_nil_of_left_ne_nil (separate_cons.1 hc).1 _
    · have := hle d hd
      rw [length_append]
      dsimp only at this ⊢
      omega
    · rcases mem_cons.1 he with rfl | he
      · exact hapart d hd c (mem_singleton_self c)
      · have := hreach d (hfront ▸ mem_append_left _ hd)
        have := hle e he
        dsimp only at this
        omega
    · have hsplit : At (Chunks.front m n) j y ↔ At (Chunks.front m n).dropLast j y ∨ (c.1 ≤ j ∧ c.2[j - c.1]? = some y) := by
        conv_lhs => rw [hfront]
        rw [at_append, at_cons]
        refine or_congr_right (or_iff_left ?_)
        rintro ⟨_, hmem, -⟩
        cases hmem
      have hj := hjoined j y
      rw [at_cons] at hj
      rw [at_append, at_cons, hat, hsplit]
      dsimp only at hj ⊢
      rw [concat_item, hend]
      constructor
      · rintro (hy | (hy | hy) | hy)
        · exact .inr (.inl (.inl hy))
        · exact .inr (.inl (.inr hy))
        · exact (hj.1 (.inl hy)).imp_right .inr
        · exact (hj.1 (.inr hy)).imp_right .inr
      · rintro (hy | (hy | hy) | hy)
        · exact .inr ((hj.2 (.inl hy)).imp_left .inr)
        · exact .inl hy
        · exact .inr (.inl (.inl hy))
        · exact .inr ((hj.2 (.inr hy)).imp_left .inr)

end Separate

end Chunks

end Kmdx.Sync
