import Kmdx.Rlp.Lists

/-!
# Iterating and indexing

`begin` and the increments count inside of the payload, `end` is behind the last byte of the data. An iterator
goes through the items that `operator[]` gives, one with each step (`advance_eq`), and is then at the end of the list:
that is the end that it is compared with if and only if the list takes up all of the data (`iterates_iff`).
-/

namespace Kmdx.Rlp

open ExceptRules List

variable {b d p : Bytes} {is : List Bytes} {off k len : Nat}

/-- The iterator after so many increments. -/
def Iterator.advance (d : Bytes) : Nat → Iterator → Except Exn Iterator
  | 0, it => return it
  | k + 1, it => do (← it.advance d k).next d

/-- The iterator of a range-for loop in its round `k` -/
def visit (d : Bytes) (k : Nat) : Except Exn Iterator := do (← Iterator.begin_ d).advance d k

/-- What has been asked for by `operator[]` in between is remembered. -/
def Asked : RLP → RLP → Prop := Relation.ReflTransGen fun r r' => ∃ k i, item k r = .ok i r'

/-- A range-for loop ends after a step for each of the items, and they are what `operator[]` gives. -/
structure IteratesTo (r : RLP) (n : Nat) : Prop where
  count : itemCount r.data = .ok n
  ends : ∃ it, visit r.data n = .ok it ∧ it.same (Iterator.end_ r.data) = true
  goes : ∀ k < n, ∃ it, visit r.data k = .ok it ∧ it.same (Iterator.end_ r.data) = false
  visits : ∀ k < n, ∀ r', Asked r r' → ∃ it i j r'', visit r.data k = .ok it ∧ it.deref r.data = .ok i ∧
    item k r' = .ok j r'' ∧ i.data = j.data

def Iterates (r : RLP) : Prop := ∃ n, IteratesTo r n

/-! ### Where the payload is -/

/-- A list begins with a head. What it says of the payload may be more than there is, or less. -/
theorem exists_head_of_isList (hlist : isList d = true) (hlen : length d = .ok len) :
    ∃ rest, d = head 0xc0 len ++ rest ∧ len < lengthLimit := by
  have hne : d ≠ [] := by
    rintro rfl
    cases hlist
  obtain ⟨hd, rest, rfl, hbegins⟩ := begins_of_length hlen hne
  cases hbegins with
  | single x rest hx =>
    rw [nil_append, isList_cons, decide_eq_true_iff] at hlist
    omega
  | string len rest hlt hone =>
    rw [isList_head_string hlt] at hlist
    cases hlist
  | list len rest hlt => exact ⟨rest, rfl, hlt⟩

/-- The payload is in the data from `off` on. -/
structure Within (d p : Bytes) (off : Nat) : Prop where
  le : off + p.length ≤ d.length
  eq : (d.drop off).take p.length = p

theorem Within.drop (h : Within d p off) (m : Nat) : (d.drop (off + m)).take (p.length - m) = p.drop m := by
  conv_rhs => rw [← h.eq]
  rw [drop_take, drop_drop]

/-- A payload that is not all there is nothing. -/
theorem payload_cases (hp : payload d = .ok p) :
    ∃ len, length d = .ok len ∧ (payloadOffset d + len ≤ d.length ∧ p.length = len ∧ Within d p (payloadOffset d) ∨
      d.length < payloadOffset d + len ∧ p = []) := by
  rw [Rlp.payload, bind_eq_ok_iff] at hp
  obtain ⟨len, hlen, hp⟩ := hp
  refine ⟨len, hlen, ?_⟩
  have hcropped : cropped d (payloadOffset d) len = p := by
    by_cases hgt : len > d.length
    · rw [if_pos hgt] at hp
      cases hp
    · rw [if_neg hgt] at hp
      exact Except.ok.inj hp
  rw [cropped] at hcropped
  split at hcropped
  · rename_i hle
    have hplen : p.length = len := by
      rw [← hcropped, length_take, List.length_drop]
      omega
    exact .inl ⟨hle, hplen, hplen.symm ▸ hle, hplen.symm ▸ hcropped⟩
  · rename_i hgt
    exact .inr ⟨not_le.1 hgt, hcropped.symm⟩

theorem actualSize_of_isList (hlist : isList d = true) (hlen : length d = .ok len) :
    actualSize d = .ok (payloadOffset d + len) := by
  obtain ⟨rest, rfl, hlt⟩ := exists_head_of_isList hlist hlen
  have hbegins : Begins (head 0xc0 len) rest len := .list len rest hlt
  rw [hbegins.actualSize, hbegins.payloadOffset]

/-! ### The steps -/

/-- The iterator at the item `k`, or behind the last item -/
def nth (off : Nat) (is : List Bytes) (k : Nat) : Iterator :=
  ⟨some (off + (is.take k).flatten.length), (is.getD k []).length, (is.drop (k + 1)).flatten.length⟩

theorem Splits.length_drop (h : Splits p is) (k : Nat) :
    (is.drop k).flatten.length = p.length - (is.take k).flatten.length := by
  rw [← h.drop, List.length_drop]

theorem behind_nth (hin : Within d p off) (h : Splits p is) (k : Nat) :
    (behind d (some (off + (is.take k).flatten.length))).take (is.drop k).flatten.length =
      p.drop (is.take k).flatten.length := by
  rw [behind_some, h.length_drop, hin.drop]

theorem next_nth (hin : Within d p off) (h : Splits p is) (k : Nat) :
    (nth off is k).next d = .ok (nth off is (k + 1)) := by
  have hplace : off + (is.take k).flatten.length + (is.getD k []).length = off + (is.take (k + 1)).flatten.length := by
    rw [Nat.add_assoc, (h.next k).2.2]
  obtain ⟨hsize, -, hend⟩ := h.next (k + 1)
  rw [Iterator.next, nth, Option.map_some]
  simp only [hplace]
  split
  · rw [behind_nth hin h, hsize, ok_bind, h.length_drop, Nat.sub_sub, hend, nth, h.length_drop]
    rfl
  · rename_i hzero
    have hnil : is.length ≤ k + 1 := by
      by_contra hlt
      have hne : is.drop (k + 1) ≠ [] := by
        rw [Ne, drop_eq_nil_iff]
        exact hlt
      have hitems : Splits (is.drop (k + 1)).flatten (is.drop (k + 1)) := ⟨rfl, fun i hi => h.items i (mem_of_mem_drop hi)⟩
      exact hne (hitems.eq_nil_iff.1 (length_eq_zero_iff.1 (not_not.1 hzero)))
    rw [nth, getD_eq_default _ _ hnil, drop_of_length_le (hnil.trans (Nat.le_succ _))]
    rfl

theorem begin_nth (hlist : isList d = true) (hp : payload d = .ok p) (hlen : length d = .ok len)
    (hle : payloadOffset d + len ≤ d.length) (h : Splits p is) :
    Iterator.begin_ d = .ok (nth (payloadOffset d) is 0) := by
  obtain ⟨hsize, -, hend⟩ := h.next 0
  rw [take_zero, flatten_nil, length_nil, drop_zero] at hsize
  rw [take_zero, flatten_nil, length_nil, Nat.zero_add] at hend
  rw [Iterator.begin_, if_pos hlist, hp, ok_bind, hsize, ok_bind, hlen, ok_bind, if_pos hle, nth, h.length_drop, ← hend]
  rfl

/-- An iterator goes from item to item, and stays behind the last one. -/
theorem visit_eq (hlist : isList d = true) (hp : payload d = .ok p) (hlen : length d = .ok len)
    (hle : payloadOffset d + len ≤ d.length) (hin : Within d p (payloadOffset d)) (h : Splits p is) (k : Nat) :
    visit d k = .ok (nth (payloadOffset d) is k) := by
  rw [visit, begin_nth hlist hp hlen hle h, ok_bind]
  induction k with
  | zero => rfl
  | succ k ih => rw [Iterator.advance, ih, ok_bind, next_nth hin h]

/-- It stays the null pointer if the payload is not all there. -/
theorem visit_null (hlist : isList d = true) (hp : payload d = .ok []) (hlen : length d = .ok len)
    (hlt : d.length < payloadOffset d + len) (k : Nat) : visit d k = .ok ⟨none, 0, 0⟩ := by
  rw [visit, Iterator.begin_, if_pos hlist, hp, ok_bind, sizeAsEncoded_nil, ok_bind, hlen, ok_bind, if_neg (not_le.2 hlt),
    pure_eq, ok_bind]
  change Iterator.advance d k ⟨none, 0, 0⟩ = _
  induction k with
  | zero => rfl
  | succ k ih =>
    rw [Iterator.advance, ih]
    rfl

theorem deref_nth (hin : Within d p off) (h : Splits p is) (hk : k < is.length) :
    (nth off is k).deref d = .ok (RLP.of (is.getD k [])) := by
  have hitem : IsItem (is.getD k []) := ((h.getD k).resolve_left fun hle => absurd hle.2 (not_le.2 hk)).1
  have hbytes : (behind d (some (off + (is.take k).flatten.length))).take (is.getD k []).length = is.getD k [] := by
    have hcrop := (h.next k).2.1
    have hle : (is.getD k []).length ≤ (is.drop k).flatten.length := by
      rw [getD_eq_getElem _ _ hk, drop_eq_getElem_cons hk, flatten_cons, length_append]
      exact Nat.le_add_right _ _
    rw [cropped, Nat.zero_add, drop_zero, List.length_drop, ← h.length_drop, if_pos hle] at hcrop
    have htake : min (is.getD k []).length (is.drop k).flatten.length = (is.getD k []).length := min_eq_left hle
    rw [← behind_nth hin h, take_take, htake] at hcrop
    exact hcrop
  rw [Iterator.deref, nth, hbytes]
  exact mk'_veryStrict.2 ⟨rfl, .inr hitem⟩

theorem same_nth_iff (h : Splits p is) :
    (nth off is k).same (Iterator.end_ d) = true ↔ is.length ≤ k ∧ off + p.length = d.length := by
  rw [Iterator.same_end_iff, nth, Option.some_inj, length_eq_zero_iff, h.getD_eq_nil_iff]
  constructor
  · rintro ⟨hplace, hk⟩
    rw [take_of_length_le hk, ← h.eq] at hplace
    exact ⟨hk, hplace⟩
  · rintro ⟨hk, hplace⟩
    rw [take_of_length_le hk, ← h.eq]
    exact ⟨hplace, hk⟩

/-! ### The items -/

theorem Asked.remembers {r r' : RLP} (hasked : Asked r r') (hp : payload r.data = .ok p) (h : Splits p is)
    (hlen : is.length < 2 ^ 64 - 1) (hr : Remembers r is) : r'.data = r.data ∧ Remembers r' is := by
  induction hasked with
  | refl => exact ⟨rfl, hr⟩
  | @tail r' r'' _ hstep ih =>
    obtain ⟨hdata, hr'⟩ := ih
    obtain ⟨k, i, hrun⟩ := hstep
    have hitem := Wp.wp_ok (wp_item (hdata.symm ▸ hp) h hlen hr' k) hrun
    exact ⟨hitem.2.1.trans hdata, hitem.2.2⟩

/-- `operator[]` gives the item, whatever has been asked for. -/
theorem Asked.item {r r' : RLP} (hasked : Asked r r') (hp : payload r.data = .ok p) (h : Splits p is)
    (hlen : is.length < 2 ^ 64 - 1) (hr : Remembers r is) (k : Nat) :
    ∃ r'', item k r' = .ok (RLP.of (is.getD k [])) r'' := by
  obtain ⟨hdata, hr'⟩ := hasked.remembers hp h hlen hr
  obtain ⟨i, r'', hrun, hi, -, -⟩ := Wp.exists_ok_of_wp (wp_item (hdata.symm ▸ hp) h hlen hr' k)
  exact ⟨r'', hi ▸ hrun⟩

theorem iterates_of_within {r : RLP} (hr : Remembers r is) (hlist : isList r.data = true) (hp : payload r.data = .ok p)
    (hlen : length r.data = .ok len) (hle : payloadOffset r.data + len ≤ r.data.length)
    (hin : Within r.data p (payloadOffset r.data)) (h : Splits p is) (hitems : is.length < 2 ^ 64 - 1)
    (hall : payloadOffset r.data + p.length = r.data.length) : IteratesTo r is.length where
  count := itemCount_of_splits hlist hp h
  ends := ⟨_, visit_eq hlist hp hlen hle hin h _, (same_nth_iff h).2 ⟨le_rfl, hall⟩⟩
  goes k hk := by
    refine ⟨_, visit_eq hlist hp hlen hle hin h k, ?_⟩
    rw [Bool.eq_false_iff, Ne, same_nth_iff h]
    exact fun hend => absurd hend.1 (not_le.2 hk)
  visits k hk r' hasked := by
    obtain ⟨r'', hitem⟩ := hasked.item hp h hitems hr k
    exact ⟨_, _, _, r'', visit_eq hlist hp hlen hle hin h k, deref_nth hin h hk, hitem, rfl⟩

/-- The end is reached only if the list is all of the data. -/
theorem IteratesTo.actualSize {r : RLP} {n : Nat} (hiter : IteratesTo r n) (hlist : isList r.data = true)
    (hp : payload r.data = .ok p) (h : Splits p is) : actualSize r.data = .ok r.data.length := by
  obtain ⟨it, hit, hend⟩ := hiter.ends
  obtain ⟨len, hlen, ⟨hle, hplen, hin⟩ | ⟨hlt, rfl⟩⟩ := payload_cases hp
  · rw [visit_eq hlist hp hlen hle hin h] at hit
    cases hit
    rw [actualSize_of_isList hlist hlen, ← hplen, ((same_nth_iff h).1 hend).2]
  · rw [visit_null hlist hp hlen hlt] at hit
    cases hit
    cases (Iterator.same_end_iff.1 hend).1

theorem mk'_data {s : Strictness} {r : RLP} (hr : RLP.mk' b s = .ok r) : r = RLP.of r.data := by
  obtain ⟨d, -, hd⟩ := bind_eq_ok_iff.1 hr
  cases hd
  rfl

/-- Iterating over a list agrees with indexing, and ends, if and only if nothing stands behind the list. -/
theorem iterates_iff {s : Strictness} {r : RLP} (hr : RLP.mk' b s = .ok r) (hlist : isList r.data = true)
    (hp : payload r.data = .ok p) (h : Splits p is) : Iterates r ↔ actualSize r.data = .ok r.data.length := by
  constructor
  · rintro ⟨n, hiter⟩
    exact hiter.actualSize hlist hp h
  · intro hsize
    obtain ⟨len, hlen, ⟨hle, hplen, hin⟩ | ⟨hlt, -⟩⟩ := payload_cases hp
    · rw [actualSize_of_isList hlist hlen] at hsize
      have hall : payloadOffset r.data + p.length = r.data.length := hplen.symm ▸ Except.ok.inj hsize
      obtain ⟨-, -, hlimit⟩ := exists_head_of_isList hlist hlen
      have hitems : is.length < 2 ^ 64 - 1 := by
        have hle := length_le_of_splits h
        have hlimit' : lengthLimit ≤ 2 ^ 64 - 1 := by decide
        omega
      have hremembers : Remembers r is := by
        rw [mk'_data hr]
        exact remembers_of _ _
      exact ⟨_, iterates_of_within hremembers hlist hp hlen hle hin h hitems hall⟩
    · rw [actualSize_of_isList hlist hlen] at hsize
      have hall := Except.ok.inj hsize
      omega

theorem iterates_two : Iterates (RLP.of [0xc2, 0x05, 0x06]) := by
  have hsplits : Splits [0x05, 0x06] [[0x05], [0x06]] :=
    (splits_nil.cons (.data [0x06] (by decide))).cons (.data [0x05] (by decide))
  have hlist : IsListOf [0xc2, 0x05, 0x06] [0x05, 0x06] := ⟨by decide, by decide⟩
  exact (iterates_iff (s := laissezFaire) rfl hlist.isList hlist.payload hsplits).2 rfl

/-- With a byte behind an empty list, the end is not reached. -/
theorem not_iterates : ¬∀ (b : Bytes) (s : Strictness) (r : RLP) (p : Bytes) (is : List Bytes), RLP.mk' b s = .ok r →
    isList r.data = true → payload r.data = .ok p → Splits p is → Iterates r := by
  intro h
  have hlist : isList [0xc0, 0x00] = true := by decide
  have hbegins : Begins [0xc0] [0x00] 0 := .list 0 [0x00] (by decide)
  have hpayload : payload [0xc0, 0x00] = .ok [] := hbegins.payload (Nat.zero_le _)
  obtain ⟨n, hiter⟩ := h [0xc0, 0x00] laissezFaire (RLP.of [0xc0, 0x00]) [] [] rfl hlist hpayload splits_nil
  have hsize := hbegins.actualSize.symm.trans (hiter.actualSize hlist hpayload splits_nil)
  exact absurd (Except.ok.inj hsize) (by decide)

end Kmdx.Rlp
