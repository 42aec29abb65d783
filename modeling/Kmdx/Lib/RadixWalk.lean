import Kmdx.Lib.RadixTree
import Mathlib.Data.List.Lex

/-!
# Walks through radix trees

The entries of a tree are in the order of words (`sorted_entries`). A walk keeps the nodes that it stands in, the innermost
first. What it has still to pass is `ahead` of it; it may start at a word, and leave out what is before that.
-/

namespace RadixTree

open List

variable {n : Nat} {V : Type} {k k' b r : List (Fin n)} {i : Nat} {v : V} {t : RadixTree n V} {c : Fin n → RadixTree n V}
  {o : Option V} {l : List (List (Fin n) × V)}

/-! ### Words -/

theorem append_lt_append_iff (k : List (Fin n)) : k ++ r < k ++ b ↔ r < b := by
  induction k with
  | nil => exact Iff.rfl
  | cons i k ih =>
    rw [cons_append, cons_append, cons_lt_cons_iff, ih]
    exact ⟨fun h => h.elim (fun hi => absurd hi (lt_irrefl i)) And.right, fun h => .inr ⟨rfl, h⟩⟩

/-- What is behind a later word is not before this one. -/
theorem not_append_lt (h : b < k) (r : List (Fin n)) : ¬k ++ r < b :=
  List.lt_asymm (List.Lex.append_right (· < ·) r h)

/-- A word that is not later, and not a prefix: what is behind it is before. -/
theorem append_lt (hpre : ¬k <+: b) (hlt : ¬b < k) (r : List (Fin n)) : k ++ r < b := by
  induction k generalizing b with
  | nil => exact absurd nil_prefix hpre
  | cons i k ih =>
    cases b with
    | nil => exact absurd (nil_lt_cons i k) hlt
    | cons j b =>
      rw [cons_prefix_cons] at hpre
      rw [cons_lt_cons_iff] at hlt
      rw [cons_append, cons_lt_cons_iff]
      rcases lt_trichotomy i j with hij | rfl | hij
      · exact .inl hij
      · exact .inr ⟨rfl, ih (fun h => hpre ⟨rfl, h⟩) fun h => hlt (.inr ⟨rfl, h⟩)⟩
      · exact absurd (.inl hij) hlt

/-! ### Entries -/

/-- The entries, each behind `k` -/
def under (k : List (Fin n)) (l : List (List (Fin n) × V)) : List (List (Fin n) × V) := l.map fun e => (k ++ e.1, e.2)

/-- What is stored, in the order of words -/
def entries : RadixTree n V → List (List (Fin n) × V)
  | empty => []
  | leaf k v => [(k, v)]
  | ext k t => under k t.entries
  | branch c v => (v.map fun v => ([], v)).toList ++ (List.finRange n).flatMap fun i => under [i] (c i).entries

@[simp] theorem under_nil (l : List (List (Fin n) × V)) : under [] l = l := map_id l

theorem under_append (k : List (Fin n)) (l l' : List (List (Fin n) × V)) : under k (l ++ l') = under k l ++ under k l' :=
  map_append

theorem under_under (k k' : List (Fin n)) (l : List (List (Fin n) × V)) : under k (under k' l) = under (k ++ k') l := by
  rw [under, under, map_map, under]
  exact map_congr_left fun e _ => Prod.ext (append_assoc k k' e.1).symm rfl

theorem mem_under : (k', v) ∈ under k l ↔ ∃ r, (r, v) ∈ l ∧ k' = k ++ r := by
  rw [under, mem_map]
  constructor
  · rintro ⟨e, he, heq⟩
    cases heq
    exact ⟨e.1, he, rfl⟩
  · rintro ⟨r, hr, rfl⟩
    exact ⟨(r, v), hr, rfl⟩

theorem mem_entries : (k, v) ∈ t.entries ↔ t.find k = some v := by
  induction t generalizing k with
  | empty => exact iff_of_false not_mem_nil nofun
  | leaf k₀ w =>
    rw [entries, mem_singleton, Prod.mk.injEq, find_leaf]
    split
    · rename_i hk
      rw [Option.some_inj, hk, and_iff_right rfl, eq_comm]
    · rename_i hk
      exact iff_of_false (fun h => hk h.1.symm) nofun
  | ext k₀ t ih =>
    rw [entries, mem_under, find_ext]
    constructor
    · rintro ⟨r, hr, rfl⟩
      rw [behind_append]
      exact ih.1 hr
    · intro h
      obtain ⟨r, rfl⟩ := behind_isSome (f := t.find) (by rw [h]; rfl)
      rw [behind_append] at h
      exact ⟨r, ih.2 h, rfl⟩
  | branch c o ih =>
    rw [entries, mem_append, Option.mem_toList, Option.map_eq_some_iff, mem_flatMap]
    cases k with
    | nil =>
      rw [find_branch_nil]
      constructor
      · rintro (⟨w, hw, heq⟩ | ⟨i, -, hi⟩)
        · rw [hw, (Prod.mk.inj heq).2]
        · obtain ⟨r, -, hr⟩ := mem_under.1 hi
          cases hr
      · exact fun h => .inl ⟨v, h, rfl⟩
    | cons i k =>
      rw [find_branch_cons, ← ih i]
      constructor
      · rintro (⟨w, -, heq⟩ | ⟨j, -, hj⟩)
        · cases heq
        · obtain ⟨r, hr, heq⟩ := mem_under.1 hj
          cases heq
          exact hr
      · exact fun h => .inr ⟨i, mem_finRange i, mem_under.2 ⟨k, h, rfl⟩⟩

theorem pairwise_under (h : l.Pairwise fun e e' => e.1 < e'.1) (k : List (Fin n)) :
    (under k l).Pairwise fun e e' => e.1 < e'.1 :=
  pairwise_map.2 (h.imp fun hlt => (append_lt_append_iff k).2 hlt)

/-- Each word is met once, and after the words before it. -/
theorem sorted_entries (t : RadixTree n V) : t.entries.Pairwise fun e e' => e.1 < e'.1 := by
  induction t with
  | empty => exact .nil
  | leaf k v => exact pairwise_singleton _ _
  | ext k t ih => exact pairwise_under ih k
  | branch c o ih =>
    rw [entries, pairwise_append]
    refine ⟨?_, ?_, ?_⟩
    · cases o with
      | none => exact .nil
      | some v => exact pairwise_singleton _ _
    · refine pairwise_flatMap.2 ⟨fun i _ => pairwise_under (ih i) [i], ?_⟩
      refine (pairwise_lt_finRange n).imp fun {i j} hij => ?_
      rintro ⟨_, v⟩ he ⟨_, w⟩ he'
      obtain ⟨r, -, rfl⟩ := mem_under.1 he
      obtain ⟨r', -, rfl⟩ := mem_under.1 he'
      exact cons_lt_cons_iff.2 (.inl hij)
    · rintro ⟨_, v⟩ he ⟨_, w⟩ he'
      obtain ⟨_, -, heq⟩ := Option.map_eq_some_iff.1 (Option.mem_toList.1 he)
      cases heq
      obtain ⟨i, -, hi⟩ := mem_flatMap.1 he'
      obtain ⟨r, -, rfl⟩ := mem_under.1 hi
      exact nil_lt_cons i r

@[simp] theorem filter_nil (l : List (List (Fin n) × V)) : (l.filter fun e => ¬e.1 < []) = l :=
  filter_eq_self.2 fun e _ => decide_eq_true (not_lt_nil e.1)

/-- What is not before `b` -/
def entriesFrom (b : List (Fin n)) (t : RadixTree n V) : List (List (Fin n) × V) := t.entries.filter fun e => ¬e.1 < b

@[simp] theorem entriesFrom_nil (t : RadixTree n V) : t.entriesFrom [] = t.entries := filter_nil _

/-- Behind `k`, what is not before `b` is what is not before `r`. -/
def Remains (b k r : List (Fin n)) : Prop := b = k ++ r ∨ b < k ∧ r = []

theorem remains_or (b k : List (Fin n)) : (∃ r, Remains b k r) ∨ ¬k <+: b ∧ ¬b < k := by
  by_cases hpre : k <+: b
  · obtain ⟨r, rfl⟩ := hpre
    exact .inl ⟨r, .inl rfl⟩
  · by_cases hlt : b < k
    · exact .inl ⟨[], .inr ⟨hlt, rfl⟩⟩
    · exact .inr ⟨hpre, hlt⟩

theorem Remains.eq_nil (h : Remains [] k r) : r = [] := h.elim (fun h => (append_eq_nil_iff.1 h.symm).2) And.right

theorem filter_under (h : Remains b k r) (l : List (List (Fin n) × V)) :
    ((under k l).filter fun e => ¬e.1 < b) = under k (l.filter fun e => ¬e.1 < r) := by
  rcases h with rfl | ⟨hlt, rfl⟩
  · rw [under, filter_map, under]
    refine congrArg _ (filter_congr fun e _ => ?_)
    simp only [Function.comp, append_lt_append_iff]
  · rw [filter_nil, filter_eq_self]
    rintro ⟨_, v⟩ he
    obtain ⟨r, -, rfl⟩ := mem_under.1 he
    exact decide_eq_true (not_append_lt hlt r)

theorem filter_under_of_not_lt (hpre : ¬k <+: b) (hlt : ¬b < k) (l : List (List (Fin n) × V)) :
    ((under k l).filter fun e => ¬e.1 < b) = [] := by
  refine filter_eq_nil_iff.2 ?_
  rintro ⟨_, v⟩ he
  obtain ⟨r, -, rfl⟩ := mem_under.1 he
  rw [decide_eq_true_iff, not_not]
  exact append_lt hpre hlt r

theorem entries_leaf_eq (k : List (Fin n)) (v : V) : (leaf k v).entries = under k [([], v)] := by
  rw [entries, under, map_singleton, append_nil]

/-! ### Walks -/

/-- What is not before `b` behind the first of the letters, and all that is behind the others -/
def scan (b : List (Fin n)) (c : Fin n → RadixTree n V) : List (Fin n) → List (List (Fin n) × V)
  | [] => []
  | i :: is => under [i] ((c i).entriesFrom b) ++ scan [] c is

theorem scan_nil (c : Fin n → RadixTree n V) (is : List (Fin n)) :
    scan [] c is = is.flatMap fun i => under [i] (c i).entries := by
  induction is with
  | nil => rfl
  | cons i is ih => rw [scan, entriesFrom_nil, ih, flatMap_cons]

/-- Where a walk stands: in front of a tree, at a leaf, or in a branch, with the letters from the `i`-th on to come. The
value of a branch is passed before the first letter. -/
inductive Frame (n : Nat) (V : Type)
  | entering (k : List (Fin n)) (t : RadixTree n V)
  | atLeaf (k : List (Fin n)) (v : V)
  | atBranch (k : List (Fin n)) (c : Fin n → RadixTree n V) (v : Option V) (i : Nat)

namespace Frame

def ahead (b : List (Fin n)) : Frame n V → List (List (Fin n) × V)
  | entering k t => under k (t.entriesFrom b)
  | atLeaf _ _ => []
  | atBranch k c _ i => under k (scan b c ((List.finRange n).drop i))

/-- The entry that the walk is at -/
def entry : Frame n V → Option (List (Fin n) × V)
  | atLeaf k v => some (k, v)
  | atBranch k _ (some v) 0 => some (k, v)
  | _ => none

end Frame

def ahead : List (Fin n) → List (Frame n V) → List (List (Fin n) × V)
  | _, [] => []
  | b, f :: fs => f.ahead b ++ ahead [] fs

variable {fs : List (Frame n V)}

theorem ahead_entering (b k : List (Fin n)) (t : RadixTree n V) (fs : List (Frame n V)) :
    ahead b (.entering k t :: fs) = under k (t.entriesFrom b) ++ ahead [] fs := rfl

theorem ahead_atLeaf (b k : List (Fin n)) (v : V) (fs : List (Frame n V)) : ahead b (.atLeaf k v :: fs) = ahead [] fs := rfl

theorem ahead_empty (b k : List (Fin n)) (fs : List (Frame n V)) : ahead b (.entering k empty :: fs) = ahead [] fs := rfl

theorem ahead_leaf (h : Remains b k r) (p : List (Fin n)) (v : V) (fs : List (Frame n V)) :
    ahead b (.entering p (leaf k v) :: fs) = if r = [] then (p ++ k, v) :: ahead [] fs else ahead [] fs := by
  rw [ahead_entering, entriesFrom, entries_leaf_eq, filter_under h, under_under]
  split
  · rename_i hr
    rw [hr, filter_nil, under, map_singleton, append_nil]
    rfl
  · rename_i hr
    obtain ⟨i, r, rfl⟩ := exists_cons_of_ne_nil hr
    simp [under]

theorem ahead_leaf_of_not_lt (hpre : ¬k <+: b) (hlt : ¬b < k) (p : List (Fin n)) (v : V) (fs : List (Frame n V)) :
    ahead b (.entering p (leaf k v) :: fs) = ahead [] fs := by
  rw [ahead_entering, entriesFrom, entries_leaf_eq, filter_under_of_not_lt hpre hlt]
  rfl

theorem ahead_ext (h : Remains b k r) (p : List (Fin n)) (t : RadixTree n V) (fs : List (Frame n V)) :
    ahead b (.entering p (ext k t) :: fs) = ahead r (.entering (p ++ k) t :: fs) := by
  rw [ahead_entering, ahead_entering, entriesFrom, entries, filter_under h, under_under, entriesFrom]

theorem ahead_ext_of_not_lt (hpre : ¬k <+: b) (hlt : ¬b < k) (p : List (Fin n)) (t : RadixTree n V) (fs : List (Frame n V)) :
    ahead b (.entering p (ext k t) :: fs) = ahead [] fs := by
  rw [ahead_entering, entriesFrom, entries, filter_under_of_not_lt hpre hlt]
  rfl

theorem ahead_branch_nil (p : List (Fin n)) (c : Fin n → RadixTree n V) (o : Option V) (fs : List (Frame n V)) :
    ahead [] (.entering p (branch c o) :: fs) = (o.map fun v => (p, v)).toList ++ ahead [] (.atBranch p c o 0 :: fs) := by
  rw [ahead_entering, entriesFrom_nil, entries, under_append, ahead, Frame.ahead, drop_zero, scan_nil, append_assoc]
  cases o with
  | none => rfl
  | some v => simp [under]

/-- The letters from one on -/
theorem drop_finRange {i : Nat} (h : i < n) : (List.finRange n).drop i = ⟨i, h⟩ :: (List.finRange n).drop (i + 1) := by
  rw [drop_eq_getElem_cons (by rwa [length_finRange])]
  simp

/-- Among letters in order, those before `i` have nothing from `i :: b` on, and those after it have all they have. -/
theorem filter_flatMap_under {i : Fin n} {is js : List (Fin n)} (b : List (Fin n)) (c : Fin n → RadixTree n V)
    (h : (is ++ i :: js).Pairwise (· < ·)) :
    (((is ++ i :: js).flatMap fun j => under [j] (c j).entries).filter fun e => ¬e.1 < i :: b) = scan b c (i :: js) := by
  obtain ⟨-, hjs, hbefore⟩ := pairwise_append.1 h
  have hafter := (pairwise_cons.1 hjs).1
  have hnone : ((is.flatMap fun j => under [j] (c j).entries).filter fun e => ¬e.1 < i :: b) = [] := by
    rw [filter_flatMap, flatMap_eq_nil_iff]
    intro j hj
    have hji : j < i := hbefore j hj i mem_cons_self
    refine filter_under_of_not_lt (fun hpre => hji.ne (cons_prefix_cons.1 hpre).1) (fun hlt => ?_) _
    rcases cons_lt_cons_iff.1 hlt with hij | ⟨-, hnil⟩
    · exact hij.not_gt hji
    · exact not_lt_nil _ hnil
  have hall : ((js.flatMap fun j => under [j] (c j).entries).filter fun e => ¬e.1 < i :: b) =
      js.flatMap fun j => under [j] (c j).entries := by
    rw [filter_flatMap]
    refine flatMap_congr fun j hj => ?_
    rw [filter_under (.inr ⟨cons_lt_cons_iff.2 (.inl (hafter j hj)), rfl⟩), filter_nil]
  rw [flatMap_append, filter_append, hnone, nil_append, flatMap_cons, filter_append, hall, scan, scan_nil]
  exact congrArg (· ++ _) (filter_under (b := i :: b) (k := [i]) (.inl rfl) (c i).entries)

/-- A walk that starts behind `i` passes nothing of the letters before it. -/
theorem ahead_branch_cons (i : Fin n) (b p : List (Fin n)) (c : Fin n → RadixTree n V) (o : Option V)
    (fs : List (Frame n V)) : ahead (i :: b) (.entering p (branch c o) :: fs) = ahead b (.atBranch p c o i :: fs) := by
  have hown : ((o.map fun v => (([] : List (Fin n)), v)).toList.filter fun e => ¬e.1 < i :: b) = [] := by
    refine filter_eq_nil_iff.2 fun e he => ?_
    obtain ⟨_, -, rfl⟩ := Option.map_eq_some_iff.1 (Option.mem_toList.1 he)
    simp
  have hsplit : List.finRange n = (List.finRange n).take i ++ i :: (List.finRange n).drop (i + 1) := by
    rw [← drop_finRange i.isLt, take_append_drop]
  have hscan := filter_flatMap_under b c (hsplit ▸ pairwise_lt_finRange n)
  rw [← hsplit, ← drop_finRange i.isLt] at hscan
  rw [ahead_entering, entriesFrom, entries, filter_append, hown, nil_append, hscan]
  rfl

theorem ahead_atBranch (h : i < n) (b p : List (Fin n)) (c : Fin n → RadixTree n V) (o : Option V) (fs : List (Frame n V)) :
    ahead b (.atBranch p c o i :: fs) = ahead b (.entering (p ++ [⟨i, h⟩]) (c ⟨i, h⟩) :: .atBranch p c o (i + 1) :: fs) := by
  rw [ahead, Frame.ahead, drop_finRange h, scan, under_append, under_under, append_assoc]
  rfl

theorem ahead_atBranch_end (b p : List (Fin n)) (c : Fin n → RadixTree n V) (o : Option V) (fs : List (Frame n V)) :
    ahead b (.atBranch p c o n :: fs) = ahead [] fs := by
  rw [ahead, Frame.ahead, drop_eq_nil_of_le (length_finRange).le]
  rfl

/-! ### Ends of walks -/

/-- The sum of what is at the letters, one more for each -/
def sumOf (w : Fin n → Nat) : List (Fin n) → Nat
  | [] => 0
  | i :: is => w i + 1 + sumOf w is

theorem sumOf_append (w : Fin n → Nat) (is js : List (Fin n)) : sumOf w (is ++ js) = sumOf w is + sumOf w js := by
  induction is with
  | nil => exact (Nat.zero_add _).symm
  | cons i is ih =>
    rw [cons_append, sumOf, sumOf, ih]
    omega

/-- More than the steps through a tree -/
def weight : RadixTree n V → Nat
  | empty => 1
  | leaf _ _ => 1
  | ext _ t => t.weight + 1
  | branch c _ => sumOf (fun i => (c i).weight) (List.finRange n) + 2

def Frame.weight : Frame n V → Nat
  | entering _ t => t.weight
  | atLeaf _ _ => 1
  | atBranch _ c _ i => sumOf (fun j => (c j).weight) ((List.finRange n).drop i) + 1

def weights : List (Frame n V) → Nat
  | [] => 0
  | f :: fs => f.weight + weights fs

theorem weight_pos (t : RadixTree n V) : 0 < t.weight := by
  cases t <;> exact Nat.succ_pos _

theorem Frame.weight_pos (f : Frame n V) : 0 < f.weight := by
  cases f with
  | entering k t => exact t.weight_pos
  | atLeaf k v => exact Nat.one_pos
  | atBranch k c v i => exact Nat.succ_pos _

@[simp] theorem weights_cons (f : Frame n V) (fs : List (Frame n V)) : weights (f :: fs) = f.weight + weights fs := rfl

theorem weight_atBranch (h : i < n) (p : List (Fin n)) (c : Fin n → RadixTree n V) (o : Option V) :
    (Frame.atBranch p c o i).weight = (c ⟨i, h⟩).weight + 1 + (Frame.atBranch p c o (i + 1)).weight := by
  rw [Frame.weight, Frame.weight, drop_finRange h, sumOf, Nat.add_assoc]

theorem weight_atBranch_lt (p : List (Fin n)) (c : Fin n → RadixTree n V) (o : Option V) (i : Nat) :
    (Frame.atBranch p c o i).weight < (branch c o).weight := by
  have hsum := sumOf_append (fun j => (c j).weight) ((List.finRange n).take i) ((List.finRange n).drop i)
  rw [take_append_drop] at hsum
  rw [Frame.weight, weight, hsum]
  omega

end RadixTree
