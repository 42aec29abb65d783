import Mathlib.Data.List.GetD
import Kmdx.Rlp.Items

/-!
# Reading a list

A range-for loop over a list goes through its items (`IsListOf.elements`), and `operator[]` gives them in any order,
from whatever it remembers (`wp_item`).
-/

namespace Kmdx.Rlp

open ExceptRules List

variable {d p i : Bytes} {is : List Bytes} {k : Nat}

/-! ### Iteration -/

/-- What an item is looked at through. -/
abbrev RLP.of (i : Bytes) : RLP := { data := i }

@[simp] theorem behind_some (start : Nat) : behind d (some start) = d.drop start := rfl

@[simp] theorem behind_none : behind d none = [] := rfl

theorem Iterator.same_end_iff {it : Iterator} : it.same (end_ d) = true ↔ it.start = some d.length ∧ it.count = 0 :=
  decide_eq_true_iff

variable {fuel start : Nat}

theorem loop_end {it : Iterator} (hstart : it.start = some d.length) (hcount : it.count = 0) :
    Iterator.loop d (fuel + 1) it = .ok [] := by
  rw [Iterator.loop, if_pos (Iterator.same_end_iff.2 ⟨hstart, hcount⟩)]
  rfl

theorem loop_item {remaining : Nat} {rest : Bytes} (hi : IsItem i) (hdrop : d.drop start = i ++ rest) :
    Iterator.loop d (fuel + 1) ⟨some start, i.length, remaining⟩ =
      Iterator.next d ⟨some start, i.length, remaining⟩ >>= fun it =>
        Iterator.loop d fuel it >>= fun rs => .ok (RLP.of i :: rs) := by
  have hpos : i.length ≠ 0 := fun h0 => hi.ne_nil (length_eq_zero_iff.1 h0)
  rw [Iterator.loop, if_neg fun hend => hpos (Iterator.same_end_iff.1 hend).2, Iterator.deref, behind_some, hdrop,
    take_left, mk'_veryStrict.2 ⟨rfl, .inr hi⟩, ok_bind]
  rfl

theorem next_last (d : Bytes) (start count : Nat) :
    Iterator.next d ⟨some start, count, 0⟩ = .ok ⟨some (start + count), 0, 0⟩ := rfl

theorem next_item {count : Nat} {rest : Bytes} (hi : IsItem i) (hdrop : d.drop (start + count) = i ++ rest) :
    Iterator.next d ⟨some start, count, (i ++ rest).length⟩ = .ok ⟨some (start + count), i.length, rest.length⟩ := by
  have hne : (i ++ rest).length ≠ 0 := fun h0 => hi.ne_nil (append_eq_nil_iff.1 (length_eq_zero_iff.1 h0)).1
  rw [Iterator.next, if_pos hne, Option.map_some, behind_some, hdrop, take_length, hi.sizeAsEncoded_append, ok_bind]
  simp

theorem loop_of_splits (h : Splits (d.drop start) (i :: is)) (hfuel : is.length + 1 < fuel) :
    Iterator.loop d fuel ⟨some start, i.length, is.flatten.length⟩ = .ok ((i :: is).map RLP.of) := by
  induction is generalizing i fuel start with
  | nil =>
    obtain ⟨fuel, rfl⟩ := Nat.exists_eq_succ_of_ne_zero (n := fuel) (by omega)
    obtain ⟨fuel, rfl⟩ := Nat.exists_eq_succ_of_ne_zero (n := fuel) (by rw [length_nil] at hfuel; omega)
    obtain ⟨hi, -, heq⟩ := h.tail
    have hpos : 0 < i.length := length_pos_iff.2 hi.ne_nil
    have hlen := congrArg List.length heq
    rw [flatten_nil, append_nil, length_drop] at hlen
    rw [loop_item hi heq, flatten_nil, length_nil, next_last, ok_bind,
      loop_end (congrArg some (show start + i.length = d.length by omega)) rfl]
    rfl
  | cons j is ih =>
    obtain ⟨fuel, rfl⟩ := Nat.exists_eq_succ_of_ne_zero (n := fuel) (by omega)
    obtain ⟨hi, hrest, heq⟩ := h.tail
    have hdrop : d.drop (start + i.length) = (j :: is).flatten := by
      rw [← drop_drop, heq, drop_left]
    rw [loop_item hi heq, flatten_cons, next_item hrest.tail.1 hdrop, ok_bind]
    rw [ih (hdrop ▸ hrest) (by rw [List.length_cons] at hfuel; omega), ok_bind]
    rfl

theorem length_le_of_splits (h : Splits p is) : is.length ≤ p.length := by
  induction is generalizing p with
  | nil => exact Nat.zero_le _
  | cons i is ih =>
    obtain ⟨hi, hrest, rfl⟩ := h.tail
    have hpos : 0 < i.length := length_pos_iff.2 hi.ne_nil
    have hle := ih hrest
    rw [List.length_cons, List.length_append]
    omega

theorem IsListOf.length_lt (h : IsListOf d p) (hsplits : Splits p is) : is.length < 2 ^ 64 - 1 :=
  (length_le_of_splits hsplits).trans_lt (h.lt.trans (by decide))

theorem IsListOf.drop (h : IsListOf d p) : d.drop (head 0xc0 p.length).length = p := by
  conv_lhs => rw [h.eq]
  rw [drop_left]

/-- A range-for loop over a list gives its items. -/
theorem IsListOf.elements (h : IsListOf d p) (hsplits : Splits p is) : elements d = .ok (is.map RLP.of) := by
  have hlen : d.length = (head 0xc0 p.length).length + p.length := by rw [← List.length_append, ← h.eq]
  have hdrop := h.drop
  rw [Rlp.elements, Iterator.begin_, h.isList, if_pos rfl, h.payload, ok_bind, h.payloadOffset, h.length]
  cases is with
  | nil =>
    obtain rfl := hsplits.eq_nil_iff.2 rfl
    rw [sizeAsEncoded_nil, ok_bind, ok_bind, if_pos hlen.ge, pure_eq, ok_bind, loop_end (congrArg some hlen.symm) rfl]
    rfl
  | cons i is =>
    obtain ⟨hi, -, heq⟩ := hsplits.tail
    have hsize : sizeAsEncoded p = .ok i.length := by rw [heq, hi.sizeAsEncoded_append]
    have hremaining : p.length - i.length = is.flatten.length := by rw [heq, List.length_append, Nat.add_sub_cancel_left]
    have hfuel : is.length + 1 < d.length + 1 := by
      have hle := length_le_of_splits hsplits
      have hpos : 0 < (head 0xc0 p.length).length := length_pos_iff.2 head_ne_nil
      rw [List.length_cons] at hle
      omega
    rw [hsize, ok_bind, ok_bind, if_pos hlen.ge, pure_eq, ok_bind, hremaining]
    exact loop_of_splits (hdrop.symm ▸ hsplits) hfuel

/-- The place of an iterator: an item that is not empty, or the end. -/
structure Iterator.At (d : Bytes) (place : Nat) (it : Iterator) : Prop where
  start : it.start = some place
  le : place ≤ d.length
  size : it.count + it.remaining = (d.drop place).length
  count : it.count = 0 → d.drop place = []

theorem sizeAsEncoded_le (h : sizeAsEncoded d = .ok k) : k ≤ d.length ∧ (k = 0 → d = []) := by
  by_cases hd : d = []
  · subst hd
    rw [sizeAsEncoded_nil] at h
    exact ⟨(Except.ok.inj h).symm.le, fun _ => rfl⟩
  · obtain ⟨i, rest, rfl, hi, rfl⟩ := exists_item_of_sizeAsEncoded h hd
    exact ⟨by simp, fun h0 => absurd (length_eq_zero_iff.1 h0) hi.ne_nil⟩

theorem Iterator.At.next {it it' : Iterator} (h : it.At d start) (hnext : it.next d = .ok it') :
    it'.At d (start + it.count) := by
  have hsize := h.size
  have hle := h.le
  have hdrop : (d.drop (start + it.count)).length = it.remaining := by
    rw [← drop_drop, length_drop]
    omega
  rw [length_drop] at hsize
  rw [Iterator.next, h.start, Option.map_some, behind_some] at hnext
  split at hnext
  · rename_i hne
    obtain ⟨n, hn, hit⟩ := bind_eq_ok_iff.1 hnext
    rw [← hdrop, take_length] at hn
    obtain ⟨hn', hzero⟩ := sizeAsEncoded_le hn
    cases hit
    rw [hdrop] at hn'
    refine ⟨rfl, by omega, ?_, hzero⟩
    change n + (it.remaining - n) = (d.drop (start + it.count)).length
    rw [hdrop]
    omega
  · rename_i heq
    cases hnext
    rw [not_not.1 heq] at hdrop
    exact ⟨rfl, by omega, hdrop.symm, fun _ => length_eq_zero_iff.1 hdrop⟩

/-- What a loop goes through are the items. -/
theorem splits_of_loop {it : Iterator} {rs : List RLP} (hit : it.At d start)
    (h : Iterator.loop d fuel it = .ok rs) : ∃ is, Splits (d.drop start) is ∧ rs = is.map RLP.of := by
  induction fuel generalizing start it rs with
  | zero => cases h
  | succ fuel ih =>
    rw [Iterator.loop, Iterator.deref, hit.start, behind_some] at h
    split at h
    · rename_i hend
      cases h
      obtain ⟨hstart, -⟩ := Iterator.same_end_iff.1 hend
      obtain rfl : start = d.length := Option.some.inj (hit.start.symm.trans hstart)
      refine ⟨[], ?_, rfl⟩
      rw [drop_length]
      exact splits_nil
    · rename_i hend
      obtain ⟨r, hr, h⟩ := bind_eq_ok_iff.1 h
      obtain ⟨it', hnext, h⟩ := bind_eq_ok_iff.1 h
      obtain ⟨rs', hrs', hrs⟩ := bind_eq_ok_iff.1 h
      obtain ⟨is, hsplits, rfl⟩ := ih (hit.next hnext) hrs'
      obtain ⟨rfl, hitem⟩ := mk'_veryStrict.1 hr
      have hle := hit.le
      have hne : (d.drop start).take it.count ≠ [] := by
        intro hnil
        refine hend (Iterator.same_end_iff.2 ?_)
        rw [hit.start, Option.some_inj]
        rcases take_eq_nil_iff.1 hnil with hzero | hdrop
        · have hlen := length_eq_zero_iff.2 (hit.count hzero)
          rw [length_drop] at hlen
          exact ⟨by omega, hzero⟩
        · have hlen := length_eq_zero_iff.2 hdrop
          have hsize := hit.size
          rw [length_drop] at hlen
          rw [length_drop] at hsize
          exact ⟨by omega, by omega⟩
      refine ⟨_ :: is, ?_, (Except.ok.inj hrs).symm⟩
      have hall := hsplits.cons (hitem.resolve_left hne)
      rw [← drop_drop, take_append_drop] at hall
      exact hall

/-- A loop over a list starts at the payload. -/
theorem IsListOf.at_begin {it : Iterator} (h : IsListOf d p) (hit : Iterator.begin_ d = .ok it) :
    it.At d (head 0xc0 p.length).length := by
  have hlen : d.length = (head 0xc0 p.length).length + p.length := by rw [← List.length_append, ← h.eq]
  rw [Iterator.begin_, h.isList, if_pos rfl, h.payload, ok_bind, h.payloadOffset, h.length] at hit
  obtain ⟨n, hn, hit⟩ := bind_eq_ok_iff.1 hit
  obtain ⟨hle, hzero⟩ := sizeAsEncoded_le hn
  rw [ok_bind, if_pos hlen.ge] at hit
  cases hit
  refine ⟨rfl, by omega, ?_, fun h0 => h.drop.trans (hzero h0)⟩
  change n + (p.length - n) = (d.drop _).length
  rw [h.drop]
  omega

theorem IsListOf.splits_of_elements {rs : List RLP} (h : IsListOf d p) (helements : Rlp.elements d = .ok rs) :
    ∃ is, Splits p is ∧ rs = is.map RLP.of := by
  obtain ⟨it, hit, hloop⟩ := bind_eq_ok_iff.1 helements
  have hsplits := splits_of_loop (h.at_begin hit) hloop
  rwa [h.drop] at hsplits

/-! ### Items by their indices -/

/-- What an `RLP` remembers of the items of what it looks at: the last one, or the end. -/
structure At (r : RLP) (is : List Bytes) : Prop where
  le : r.lastIndex ≤ is.length
  item : r.lastItem = is.getD r.lastIndex []
  end_ : r.lastEnd = (is.take (r.lastIndex + 1)).flatten.length

/-- Nothing, if no item has been asked for. -/
def Remembers (r : RLP) (is : List Bytes) : Prop := r.lastIndex = 2 ^ 64 - 1 ∧ r.lastItem = [] ∨ At r is

theorem remembers_of (d : Bytes) (is : List Bytes) : Remembers (RLP.of d) is := .inl ⟨rfl, rfl⟩

theorem Splits.drop (h : Splits p is) (k : Nat) : p.drop (is.take k).flatten.length = (is.drop k).flatten := by
  rw [h.eq]
  conv_lhs => rw [← take_append_drop k is, flatten_append]
  rw [take_append_drop, drop_left]

theorem Splits.getD (h : Splits p is) (k : Nat) :
    is.getD k [] = [] ∧ is.length ≤ k ∨ IsItem (is.getD k []) ∧ k < is.length := by
  by_cases hk : k < is.length
  · rw [getD_eq_getElem _ _ hk]
    exact .inr ⟨h.items _ (getElem_mem hk), hk⟩
  · rw [getD_eq_default _ _ (not_lt.1 hk)]
    exact .inl ⟨rfl, not_lt.1 hk⟩

theorem Splits.getD_eq_nil_iff (h : Splits p is) (k : Nat) : is.getD k [] = [] ↔ is.length ≤ k := by
  rcases h.getD k with ⟨hnil, hle⟩ | ⟨hitem, hlt⟩
  · exact ⟨fun _ => hle, fun _ => hnil⟩
  · exact ⟨fun hnil => absurd hnil hitem.ne_nil, fun hle => absurd hle (not_le.2 hlt)⟩

/-- The item that stands behind the first `k`. -/
theorem Splits.next (h : Splits p is) (k : Nat) :
    sizeAsEncoded (p.drop (is.take k).flatten.length) = .ok (is.getD k []).length ∧
      cropped (p.drop (is.take k).flatten.length) 0 (is.getD k []).length = is.getD k [] ∧
      (is.take k).flatten.length + (is.getD k []).length = (is.take (k + 1)).flatten.length := by
  rw [h.drop]
  by_cases hk : k < is.length
  · have hitem : IsItem is[k] := h.items _ (getElem_mem hk)
    rw [getD_eq_getElem _ _ hk, drop_eq_getElem_cons hk, flatten_cons, take_add_one,
      List.getElem?_eq_getElem hk]
    refine ⟨hitem.sizeAsEncoded_append _, ?_, ?_⟩
    · rw [cropped, if_pos (by simp)]
      simp
    · simp only [Option.toList_some, flatten_append, flatten_cons, flatten_nil, append_nil,
        List.length_append]
  · have hle : is.length ≤ k := not_lt.1 hk
    rw [getD_eq_default _ _ hle, drop_of_length_le hle, take_of_length_le hle,
      take_of_length_le (hle.trans (Nat.le_succ k))]
    exact ⟨rfl, rfl, rfl⟩

open Wp in
theorem wp_liftM {α : Type} {x : Except Exn α} {a : α} {Q : α → RLP → Prop} {E : Exn → RLP → Prop} {r : RLP}
    (hx : x = .ok a) (h : Q a r) : wp (liftM x : M α) Q E r := by
  rw [hx]
  exact h

open Wp in
theorem wp_of_nil {r : RLP} {Q : Unit → RLP → Prop} {E : Exn → RLP → Prop} (h : r.lastItem = []) (k : Nat) :
    wp (seek k) Q E r ↔ Q () r := by
  cases k with
  | zero => exact Iff.rfl
  | succ k => rw [seek, wp_bind, wp_get, wp_ite, if_pos h, wp_pure]

open Wp in
theorem wp_seek {r : RLP} (hpayload : payload r.data = .ok p) (hsplits : Splits p is) (h : At r is) (k : Nat) :
    wp (seek k) (fun _ r' => r'.data = r.data ∧ At r' is ∧ r'.lastItem = is.getD (r.lastIndex + k) [])
      (fun _ _ => False) r := by
  induction k generalizing r with
  | zero => exact ⟨rfl, h, h.item⟩
  | succ k ih =>
    rw [seek, wp_bind, wp_get, wp_ite]
    split
    · rename_i hnil
      refine ⟨rfl, h, ?_⟩
      rw [hnil, eq_comm, hsplits.getD_eq_nil_iff]
      rw [h.item, hsplits.getD_eq_nil_iff] at hnil
      omega
    · rename_i hne
      rw [h.item, hsplits.getD_eq_nil_iff, not_le] at hne
      obtain ⟨hsize, hcrop, hend⟩ := hsplits.next (r.lastIndex + 1)
      rw [← h.end_] at hsize hcrop hend
      rw [wp_bind]
      refine wp_liftM hpayload ?_
      rw [wp_bind, wp_set, wp_bind]
      refine wp_liftM hsize ?_
      rw [hcrop, wp_bind, wp_set]
      refine wp_mono (ih (r := _) hpayload ⟨?_, rfl, hend⟩) ?_ fun _ _ => id
      · exact hne
      · rintro _ r' ⟨hdata, hat, hitem⟩
        refine ⟨hdata, hat, ?_⟩
        rw [hitem]
        congr 1
        change r.lastIndex + 1 + k = r.lastIndex + (k + 1)
        omega

open Wp in
/-- `operator[]` gives the item, or nothing behind the last one, whatever has been asked for before. -/
theorem wp_item {r : RLP} (hpayload : payload r.data = .ok p) (hsplits : Splits p is) (hlen : is.length < 2 ^ 64 - 1)
    (h : Remembers r is) (k : Nat) :
    wp (item k) (fun i r' => i = RLP.of (is.getD k []) ∧ r'.data = r.data ∧ Remembers r' is) (fun _ _ => False) r := by
  have hmk : ∀ r' : RLP, r'.lastItem = is.getD k [] → r'.data = r.data → Remembers r' is →
      wp (do RLP.mk' (← get).lastItem { throwOnFail := true, failIfTooSmall := true } : M RLP)
        (fun i r' => i = RLP.of (is.getD k []) ∧ r'.data = r.data ∧ Remembers r' is) (fun _ _ => False) r' := by
    intro r' hlast hdata hremembers
    rw [wp_bind, wp_get, hlast]
    exact wp_liftM (mk'_tooSmall ((hsplits.getD k).imp And.left And.left)) ⟨rfl, hdata, hremembers⟩
  have hseek : ∀ r' : RLP, r'.data = r.data → At r' is → r'.lastIndex ≤ k →
      wp (do seek (k - (← get).lastIndex); RLP.mk' (← get).lastItem { throwOnFail := true, failIfTooSmall := true } : M RLP)
        (fun i r' => i = RLP.of (is.getD k []) ∧ r'.data = r.data ∧ Remembers r' is) (fun _ _ => False) r' := by
    intro r' hdata hat hle
    rw [wp_bind, wp_get, wp_bind]
    refine wp_mono (wp_seek (hdata ▸ hpayload) hsplits hat _) ?_ fun _ _ => id
    rintro _ r'' ⟨hdata', hat', hitem⟩
    rw [Nat.add_sub_of_le hle] at hitem
    exact hmk r'' hitem (hdata'.trans hdata) (.inr hat')
  unfold item restart
  rw [wp_bind, wp_bind, wp_get, wp_ite]
  split
  · obtain ⟨hsize, hcrop, hend⟩ := hsplits.next 0
    rw [take_zero, flatten_nil, length_nil] at hsize hcrop hend
    rw [drop_zero] at hsize hcrop
    rw [wp_bind]
    refine wp_liftM hpayload ?_
    rw [wp_bind]
    refine wp_liftM hsize ?_
    rw [hcrop, wp_set]
    refine hseek _ rfl ⟨Nat.zero_le _, rfl, ?_⟩ (Nat.zero_le k)
    rw [← hend, Nat.zero_add]
  · rename_i hge
    rcases h with ⟨hindex, hnil⟩ | hat
    · -- So far behind the end that nothing is read.
      rw [wp_pure, wp_bind, wp_get, wp_bind, wp_of_nil hnil]
      have hle : is.length ≤ k := by omega
      refine hmk r ?_ rfl (.inl ⟨hindex, hnil⟩)
      rw [hnil, getD_eq_default _ _ hle]
    · exact hseek r rfl hat (not_lt.1 hge)

end Kmdx.Rlp
