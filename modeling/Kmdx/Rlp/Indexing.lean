import Kmdx.Rlp.Iteration

/-!
# Asking for items again

Between two queries an `RLP` keeps where the last one has stopped. In a list that can be taken apart this is not seen from
outside (`wp_item`). If an item is malformed, the query that comes to it throws with the bytes behind the last good item in
the place of that item, and there is no way back to it but by an item before it (`Spoiled`).
-/

namespace Kmdx.Rlp

open ExceptRules Wp
open List hiding after

variable {b d p rest : Bytes} {is : List Bytes} {i j n : Nat} {e : Exn} {r r' : RLP}

/-- What stands at an index of a payload: the item, if all up to it are well-formed, and nothing behind the last one. -/
def nthItem : Nat → Bytes → Except Exn RLP
  | _, [] => return RLP.of []
  | 0, p => return RLP.of (p.take (← sizeAsEncoded p))
  | i + 1, p => do nthItem i (p.drop (← sizeAsEncoded p))

/-- What stands at an index of a list. -/
def nthOf (d : Bytes) (i : Nat) : Except Exn RLP := do nthItem i (← payload d)

/-- What the queries give, one after the other. What they throw is caught. -/
def answers : List Nat → RLP → List (Except Exn RLP)
  | [], _ => []
  | i :: is, r => eval (item i) r :: answers is (after (item i) r)

/-- Each query gives what it gives on a fresh object, and what stands there. -/
structure Transparent (r : RLP) (queries : List Nat) : Prop where
  fresh : answers queries r = queries.map fun i => eval (item i) (RLP.of r.data)
  right : answers queries r = queries.map (nthOf r.data)

/-- The items before the first malformed one are so many. -/
inductive MalformedAt (d : Bytes) : Nat → Prop
  | payload (e : Exn) : payload d = .error e → MalformedAt d 0
  | item (is : List Bytes) (rest : Bytes) (e : Exn) : payload d = .ok (is.flatten ++ rest) → (∀ i ∈ is, IsItem i) →
    sizeAsEncoded rest = .error e → MalformedAt d is.length

/-- The item before the malformed one is not asked for directly after it, or after anything behind it. -/
def NoReturn (n : Nat) (queries : List Nat) : Prop := queries.IsChain fun i j => ¬(n ≤ i ∧ j + 1 = n)

/-! ### What stands in a list -/

theorem nthItem_nil (i : Nat) : nthItem i [] = .ok (RLP.of []) := by cases i <;> rfl

theorem nthItem_append (h : ∀ x ∈ is, IsItem x) (rest : Bytes) :
    nthItem i (is.flatten ++ rest) = if i < is.length then .ok (RLP.of (is.getD i [])) else nthItem (i - is.length) rest := by
  induction is generalizing i with
  | nil => rfl
  | cons x is ih =>
    have hx : IsItem x := h x mem_cons_self
    have hsize := hx.sizeAsEncoded_append (is.flatten ++ rest)
    have hne : x ++ (is.flatten ++ rest) ≠ [] := fun hnil => hx.ne_nil (append_eq_nil_iff.1 hnil).1
    rw [flatten_cons, append_assoc]
    obtain ⟨y, q, hyq⟩ := exists_cons_of_ne_nil hne
    cases i with
    | zero =>
      rw [hyq, nthItem, ← hyq, hsize, ok_bind, take_left, if_pos (length_pos_of_ne_nil (cons_ne_nil x is))]
      · rfl
      · exact cons_ne_nil y q
    | succ i =>
      rw [hyq, nthItem, ← hyq, hsize, ok_bind, drop_left, ih fun z hz => h z (mem_cons_of_mem x hz)]
      · simp
      · exact cons_ne_nil y q

theorem nthItem_malformed (h : sizeAsEncoded rest = .error e) (i : Nat) : nthItem i rest = .error e := by
  cases rest with
  | nil => cases h
  | cons x rest =>
    cases i with
    | zero =>
      rw [nthItem, h]
      · rfl
      · exact cons_ne_nil x rest
    | succ i =>
      rw [nthItem, h]
      · rfl
      · exact cons_ne_nil x rest

theorem nthOf_splits (hp : payload d = .ok p) (h : Splits p is) (i : Nat) : nthOf d i = .ok (RLP.of (is.getD i [])) := by
  rw [nthOf, hp, ok_bind, h.eq, ← append_nil is.flatten, nthItem_append h.items]
  split
  · rfl
  · rename_i hge
    rw [nthItem_nil, getD_eq_default _ _ (not_lt.1 hge)]

/-- What an `RLP` looks at is items up to a malformed one, which throws. -/
structure Breaks (d : Bytes) (is : List Bytes) (rest : Bytes) (e : Exn) : Prop where
  payload : payload d = .ok (is.flatten ++ rest)
  items : ∀ i ∈ is, IsItem i
  error : sizeAsEncoded rest = .error e

theorem Breaks.nthOf_eq (h : Breaks d is rest e) (i : Nat) :
    nthOf d i = if i < is.length then .ok (RLP.of (is.getD i [])) else .error e := by
  rw [nthOf, h.payload, ok_bind, nthItem_append h.items, nthItem_malformed h.error]

/-- Everything is made of items, or of items up to a malformed one. -/
theorem exists_items (p : Bytes) : (∃ is, Splits p is) ∨
    ∃ (is : List Bytes) (rest : Bytes) (e : Exn), p = is.flatten ++ rest ∧ (∀ i ∈ is, IsItem i) ∧
      sizeAsEncoded rest = .error e := by
  induction hlen : p.length using Nat.strong_induction_on generalizing p with
  | _ n ih =>
    by_cases hnil : p = []
    · exact .inl ⟨[], hnil ▸ splits_nil⟩
    cases hsize : sizeAsEncoded p with
    | error e => exact .inr ⟨[], p, e, rfl, nofun, hsize⟩
    | ok k =>
      obtain ⟨x, q, rfl, hx, -⟩ := exists_item_of_sizeAsEncoded hsize hnil
      have hpos : 0 < x.length := length_pos_iff.2 hx.ne_nil
      rw [length_append] at hlen
      rcases ih q.length (by omega) q rfl with ⟨is, h⟩ | ⟨is, rest, e, rfl, hitems, herror⟩
      · exact .inl ⟨x :: is, h.cons hx⟩
      · refine .inr ⟨x :: is, rest, e, by rw [flatten_cons, append_assoc], ?_, herror⟩
        exact forall_mem_cons.2 ⟨hx, hitems⟩

/-! ### The loop -/

/-- Nothing has been asked for, or the last item was a good one. -/
def Upright (r : RLP) (is : List Bytes) : Prop :=
  r.lastIndex = 2 ^ 64 - 1 ∧ r.lastItem = [] ∨ At r is ∧ r.lastIndex < is.length

/-- A query has thrown: the malformed bytes stand in the place of the item before them. -/
structure Spoiled (r : RLP) (is : List Bytes) (rest : Bytes) : Prop where
  index : r.lastIndex + 1 = is.length
  item : r.lastItem = rest
  end_ : r.lastEnd = is.flatten.length

/-- One round of the loop. -/
theorem wp_seek_succ {Q : Unit → RLP → Prop} {E : Exn → RLP → Prop} (hp : payload r.data = .ok p)
    (hne : r.lastItem ≠ []) (k : Nat) : wp (seek (k + 1)) Q E r ↔ match sizeAsEncoded (p.drop r.lastEnd) with
      | .ok n =>
        wp (seek k) Q E { r with lastItem := cropped (p.drop r.lastEnd) 0 n
                                 lastEnd := r.lastEnd + (cropped (p.drop r.lastEnd) 0 n).length
                                 lastIndex := r.lastIndex + 1 }
      | .error e => E e { r with lastItem := p.drop r.lastEnd } := by
  rw [seek, wp_bind, wp_get, wp_ite, if_neg hne, wp_bind, hp]
  change wp (do set { r with lastItem := p.drop r.lastEnd }; _ : M Unit) Q E r ↔ _
  rw [wp_bind, wp_set, wp_bind]
  cases sizeAsEncoded (p.drop r.lastEnd) <;> rfl

/-- What the last query has left, if it was for `i`. -/
def Left (is : List Bytes) (rest : Bytes) (i : Nat) (r : RLP) :
    Prop := if is.length ≤ i then Spoiled r is rest else Upright r is

theorem left_of_lt (hi : i < is.length) : Left is rest i r ↔ Upright r is := by rw [Left, if_neg (not_le.2 hi)]

theorem left_of_le (hi : is.length ≤ i) : Left is rest i r ↔ Spoiled r is rest := by rw [Left, if_pos hi]

/-- What is given is what stands there. -/
def Gives (d : Bytes) (is : List Bytes) (rest : Bytes) (i : Nat) (x : M RLP) (r : RLP) : Prop :=
  wp x (fun a r' => nthOf d i = .ok a ∧ r'.data = d ∧ Left is rest i r')
    (fun e' r' => nthOf d i = .error e' ∧ r'.data = d ∧ Left is rest i r') r

namespace Breaks

variable (h : Breaks d is rest e)
include h

theorem rest_ne_nil : rest ≠ [] := by
  rintro rfl
  cases h.error

theorem drop (k : Nat) : (is.flatten ++ rest).drop (is.take k).flatten.length = (is.drop k).flatten ++ rest := by
  have hsplits : Splits is.flatten is := ⟨rfl, h.items⟩
  have hle : (is.take k).flatten.length ≤ is.flatten.length := by
    conv_rhs => rw [← take_append_drop k is, flatten_append, length_append]
    exact Nat.le_add_right _ _
  rw [drop_append_of_le_length hle, hsplits.drop]

/-- The item behind the first `k`. -/
theorem next {k : Nat} (hk : k < is.length) :
    sizeAsEncoded ((is.flatten ++ rest).drop (is.take k).flatten.length) = .ok (is.getD k []).length ∧
      cropped ((is.flatten ++ rest).drop (is.take k).flatten.length) 0 (is.getD k []).length = is.getD k [] ∧
      (is.take k).flatten.length + (is.getD k []).length = (is.take (k + 1)).flatten.length := by
  have hitem : IsItem is[k] := h.items _ (getElem_mem hk)
  refine ⟨?_, ?_, (Splits.next ⟨rfl, h.items⟩ k).2.2⟩
  · rw [h.drop, getD_eq_getElem _ _ hk, drop_eq_getElem_cons hk, flatten_cons, append_assoc]
    exact hitem.sizeAsEncoded_append _
  · rw [h.drop, getD_eq_getElem _ _ hk, drop_eq_getElem_cons hk, flatten_cons, append_assoc, cropped,
      if_pos (by simp)]
    simp

theorem lastItem_ne_nil (hat : At r is) (hlt : r.lastIndex < is.length) : r.lastItem ≠ [] := by
  rw [hat.item, getD_eq_getElem _ _ hlt]
  exact (h.items _ (getElem_mem hlt)).ne_nil

/-- A round that comes to a good item. -/
theorem at_next (hat : At r is) (hlt : r.lastIndex + 1 < is.length) {r' : RLP} (hindex : r'.lastIndex = r.lastIndex + 1)
    (hitem : r'.lastItem = is.getD (r.lastIndex + 1) [])
    (hend : r'.lastEnd = r.lastEnd + (is.getD (r.lastIndex + 1) []).length) : At r' is where
  le := hindex ▸ hlt.le
  item := hindex ▸ hitem
  end_ := by rw [hend, hat.end_, (h.next hlt).2.2, hindex]

/-- The loop gets to an item before the malformed one. -/
theorem wp_seek_of_lt {k : Nat} (hr : r.data = d) (hat : At r is) (hlt : r.lastIndex + k < is.length) :
    wp (seek k) (fun _ r' => r'.data = d ∧ At r' is ∧ r'.lastIndex = r.lastIndex + k) (fun _ _ => False) r := by
  induction k generalizing r with
  | zero => exact ⟨hr, hat, rfl⟩
  | succ k ih =>
    obtain ⟨hsize, hcrop, -⟩ := h.next (k := r.lastIndex + 1) (by omega)
    rw [← hat.end_] at hsize hcrop
    rw [wp_seek_succ (hr ▸ h.payload) (h.lastItem_ne_nil hat (by omega)), hsize]
    dsimp only
    rw [hcrop]
    refine wp_mono (ih hr (h.at_next hat (by omega) rfl rfl rfl) ?_) ?_ fun _ _ => id
    · change r.lastIndex + 1 + k < is.length
      omega
    · rintro _ r' ⟨hdata, hat', hindex⟩
      refine ⟨hdata, hat', ?_⟩
      rw [hindex]
      change r.lastIndex + 1 + k = r.lastIndex + (k + 1)
      omega

/-- The round that comes to the malformed item. -/
theorem wp_seek_last {Q : Unit → RLP → Prop} (hr : r.data = d) (hindex : r.lastIndex + 1 = is.length) (hne : r.lastItem ≠ [])
    (hend : r.lastEnd = is.flatten.length) (k : Nat) :
    wp (seek (k + 1)) Q (fun e' r' => e' = e ∧ r'.data = d ∧ Spoiled r' is rest) r := by
  have hdrop : (is.flatten ++ rest).drop r.lastEnd = rest := by rw [hend, drop_left]
  rw [wp_seek_succ (hr ▸ h.payload) hne, hdrop, h.error]
  exact ⟨rfl, hr, hindex, rfl, hend⟩

/-- The loop does not get any further. -/
theorem wp_seek_of_le {Q : Unit → RLP → Prop} {k : Nat} (hr : r.data = d) (hat : At r is) (hlt : r.lastIndex < is.length)
    (hle : is.length ≤ r.lastIndex + k) : wp (seek k) Q (fun e' r' => e' = e ∧ r'.data = d ∧ Spoiled r' is rest) r := by
  induction k generalizing r with
  | zero => omega
  | succ k ih =>
    have hne := h.lastItem_ne_nil hat hlt
    by_cases hlast : r.lastIndex + 1 = is.length
    · refine h.wp_seek_last hr hlast hne ?_ k
      rw [hat.end_, hlast, take_length]
    · obtain ⟨hsize, hcrop, -⟩ := h.next (k := r.lastIndex + 1) (by omega)
      rw [← hat.end_] at hsize hcrop
      rw [wp_seek_succ (hr ▸ h.payload) hne, hsize]
      dsimp only
      rw [hcrop]
      refine ih hr (h.at_next hat (by omega) rfl rfl rfl) ?_ ?_
      · change r.lastIndex + 1 < is.length
        omega
      · change is.length ≤ r.lastIndex + 1 + k
        omega

theorem mk'_rest : RLP.mk' rest { throwOnFail := true, failIfTooSmall := true } = .error e := by
  have herror := h.error
  rw [sizeAsEncoded, checkSize_tooSmall] at herror
  rw [RLP.mk', checkSize_tooSmall]
  cases hsize : actualSize rest with
  | error e' =>
    rw [hsize] at herror
    cases herror
    rfl
  | ok k =>
    rw [hsize] at herror
    rw [ok_bind] at herror ⊢
    split at herror
    · rename_i hgt
      cases herror
      rw [if_pos hgt]
      rfl
    · rw [ok_bind, hsize] at herror
      cases herror

/-! ### One query -/

/-- The rest of a query, from a good item on that is not behind its own. -/
theorem gives_of_at (hr : r.data = d) (hat : At r is) (hlt : r.lastIndex < is.length) (hle : r.lastIndex ≤ i) :
    Gives d is rest i (do
      seek (i - (← get).lastIndex)
      RLP.mk' (← get).lastItem { throwOnFail := true, failIfTooSmall := true }) r := by
  rw [Gives, wp_bind, wp_get, wp_bind]
  by_cases hi : i < is.length
  · refine wp_mono (h.wp_seek_of_lt hr hat (by omega)) ?_ fun _ _ => False.elim
    rintro _ r' ⟨hdata, hat', hindex⟩
    rw [Nat.add_sub_of_le hle] at hindex
    have hitem : IsItem (is.getD i []) := by
      rw [getD_eq_getElem _ _ hi]
      exact h.items _ (getElem_mem hi)
    rw [wp_bind, wp_get, hat'.item, hindex]
    refine wp_liftM (mk'_tooSmall (.inr hitem)) ⟨?_, hdata, (left_of_lt hi).2 (.inr ⟨hat', hindex ▸ hi⟩)⟩
    rw [h.nthOf_eq, if_pos hi]
  · refine wp_mono (h.wp_seek_of_le (Q := fun _ _ => False) hr hat hlt (by omega)) (fun _ _ => False.elim) ?_
    rintro e' r' ⟨rfl, hdata, hspoiled⟩
    refine ⟨?_, hdata, (left_of_le (not_lt.1 hi)).2 hspoiled⟩
    rw [h.nthOf_eq, if_neg hi]

theorem gives_of_restart (hne : is ≠ []) (hr : r.data = d) (hi : i < r.lastIndex) : Gives d is rest i (item i) r := by
  have hpos : 0 < is.length := length_pos_iff.2 hne
  obtain ⟨hsize, hcrop, hend⟩ := h.next hpos
  rw [take_zero, flatten_nil, length_nil] at hsize hcrop hend
  rw [drop_zero] at hsize hcrop
  rw [Gives, item, restart, wp_bind, wp_bind, wp_get, wp_ite, if_pos hi, wp_bind]
  refine wp_liftM (hr ▸ h.payload) ?_
  rw [wp_bind]
  refine wp_liftM hsize ?_
  rw [hcrop, wp_set]
  refine h.gives_of_at hr ⟨Nat.zero_le _, rfl, ?_⟩ hpos (Nat.zero_le i)
  rw [← hend, Nat.zero_add]

/-- A query that does not come back to the last good item after it has thrown. -/
theorem gives_item (hne : is ≠ []) (hr : r.data = d) (hleft : Left is rest j r) (hj : ¬(is.length ≤ j ∧ i + 1 = is.length))
    (hi : i < 2 ^ 64 - 1) : Gives d is rest i (item i) r := by
  by_cases hrestart : i < r.lastIndex
  · exact h.gives_of_restart hne hr hrestart
  have hgo : wp (restart i) (fun _ r' => r' = r) (fun _ _ => False) r := by
    rw [restart, wp_bind, wp_get, wp_ite, if_neg hrestart, wp_pure]
  by_cases hjle : is.length ≤ j
  · have hspoiled := (left_of_le hjle).1 hleft
    have hindex := hspoiled.index
    have hlast : r.lastItem ≠ [] := hspoiled.item ▸ h.rest_ne_nil
    obtain ⟨k, hk⟩ : ∃ k, i - r.lastIndex = k + 1 := Nat.exists_eq_succ_of_ne_zero (by omega)
    rw [Gives, item, wp_bind]
    refine wp_mono hgo ?_ fun _ _ => False.elim
    rintro _ _ rfl
    rw [wp_bind, wp_get, wp_bind, hk]
    refine wp_mono (h.wp_seek_last (Q := fun _ _ => False) hr hindex hlast hspoiled.end_ k) (fun _ _ => False.elim) ?_
    rintro e' r' ⟨rfl, hdata, hspoiled'⟩
    refine ⟨?_, hdata, (left_of_le (by omega)).2 hspoiled'⟩
    rw [h.nthOf_eq, if_neg (by omega)]
  · rcases (left_of_lt (not_le.1 hjle)).1 hleft with ⟨hindex, -⟩ | ⟨hat, hlt⟩
    · omega
    · rw [Gives, item, wp_bind]
      refine wp_mono hgo ?_ fun _ _ => False.elim
      rintro _ _ rfl
      exact h.gives_of_at hr hat hlt (not_lt.1 hrestart)

/-- A query that does come back gets the malformed bytes. -/
theorem eval_item_of_spoiled (hspoiled : Spoiled r is rest) (hi : i + 1 = is.length) : eval (item i) r = .error e := by
  have hindex : r.lastIndex = i := by
    have hindex := hspoiled.index
    omega
  have hwp : wp (item i) (fun _ _ => False) (fun e' _ => e' = e) r := by
    rw [item, restart, wp_bind, wp_bind, wp_get, wp_ite, if_neg (by omega), wp_pure, wp_bind, wp_get,
      hindex, Nat.sub_self, seek, wp_bind, wp_pure, wp_bind, wp_get, hspoiled.item, h.mk'_rest]
    rfl
  rw [eval]
  cases hrun : item i r with
  | ok a r' => exact (wp_ok hwp hrun).elim
  | error e' r' =>
    have heq := wp_error hwp hrun
    rw [heq]

/-! ### All queries -/

theorem eval_item (hne : is ≠ []) (hr : r.data = d) (hleft : Left is rest j r) (hj : ¬(is.length ≤ j ∧ i + 1 = is.length))
    (hi : i < 2 ^ 64 - 1) :
    eval (item i) r = nthOf d i ∧ (after (item i) r).data = d ∧ Left is rest i (after (item i) r) := by
  have hgives := h.gives_item hne hr hleft hj hi
  rw [eval, after]
  cases hrun : item i r with
  | ok a r' =>
    obtain ⟨hnth, hafter⟩ := wp_ok hgives hrun
    exact ⟨hnth.symm, hafter⟩
  | error e' r' =>
    obtain ⟨hnth, hafter⟩ := wp_error hgives hrun
    exact ⟨hnth.symm, hafter⟩

/-- The queries after one for `j`, by what the first of them finds. -/
theorem answers_eq_iff (hne : is ≠ []) {queries : List Nat} (hq : ∀ i ∈ queries, i < 2 ^ 64 - 1) (hr : r.data = d)
    (hleft : Left is rest j r) : answers queries r = queries.map (nthOf d) ↔ NoReturn is.length (j :: queries) := by
  induction queries generalizing j r with
  | nil => exact ⟨fun _ => isChain_singleton j, fun _ => rfl⟩
  | cons i queries ih =>
    obtain ⟨hi, hq⟩ := forall_mem_cons.1 hq
    rw [answers, map_cons, List.cons.injEq, NoReturn, isChain_cons_cons]
    by_cases hj : is.length ≤ j ∧ i + 1 = is.length
    · refine ⟨fun heq => ?_, fun hreturns => absurd hj hreturns.1⟩
      have hspoiled := (left_of_le hj.1).1 hleft
      rw [h.eval_item_of_spoiled hspoiled hj.2, h.nthOf_eq, if_pos (by omega)] at heq
      cases heq.1
    · obtain ⟨heval, hdata, hleft'⟩ := h.eval_item hne hr hleft hj hi
      rw [ih hq hdata hleft']
      exact ⟨fun heq => ⟨hj, heq.2⟩, fun hreturns => ⟨heval, hreturns.2⟩⟩

end Breaks

/-! ### Where not even the first item can be told -/

/-- There is no payload, or no item at its beginning. -/
def Blocked (d : Bytes) (e : Exn) : Prop := (do sizeAsEncoded (← payload d)) = .error e

theorem wp_item_blocked (h : Blocked r.data e) (hi : i < r.lastIndex) :
    wp (item i) (fun _ _ => False) (fun e' r' => e' = e ∧ r' = r) r := by
  rw [item, restart, wp_bind, wp_bind, wp_get, wp_ite, if_pos hi, wp_bind]
  rw [Blocked] at h
  cases hp : payload r.data with
  | error e' =>
    rw [hp] at h
    cases h
    exact ⟨rfl, rfl⟩
  | ok p =>
    rw [hp, ok_bind] at h
    refine wp_liftM rfl ?_
    rw [wp_bind, h]
    exact ⟨rfl, rfl⟩

theorem nthOf_blocked (h : Blocked d e) (i : Nat) : nthOf d i = .error e := by
  rw [Blocked] at h
  rw [nthOf]
  cases hp : payload d with
  | error e' =>
    rw [hp] at h
    cases h
    rfl
  | ok p =>
    rw [hp] at h
    exact nthItem_malformed h i

theorem answers_blocked {queries : List Nat} (h : Blocked r.data e) (hq : ∀ i ∈ queries, i < r.lastIndex) :
    answers queries r = queries.map (nthOf r.data) := by
  induction queries with
  | nil => rfl
  | cons i queries ih =>
    obtain ⟨hi, hq⟩ := forall_mem_cons.1 hq
    have hwp := wp_item_blocked h hi
    rw [answers, map_cons, nthOf_blocked h, eval, after]
    cases hrun : item i r with
    | ok a r' => exact (wp_ok hwp hrun).elim
    | error e' r' =>
      obtain ⟨rfl, rfl⟩ := wp_error hwp hrun
      exact congrArg (.error e' :: ·) (ih hq)

/-! ### A list without a malformed item -/

theorem answers_splits {queries : List Nat} (hr : r.data = d) (hp : payload d = .ok p) (h : Splits p is)
    (hlen : is.length < 2 ^ 64 - 1) (hremembers : Remembers r is) : answers queries r = queries.map (nthOf d) := by
  induction queries generalizing r with
  | nil => rfl
  | cons i queries ih =>
    obtain ⟨a, r', hrun, rfl, hdata, hremembers'⟩ := exists_ok_of_wp (wp_item (hr ▸ hp) h hlen hremembers i)
    rw [answers, map_cons, eval, after, hrun, nthOf_splits hp h, ih (hdata.trans hr) hremembers']

/-! ### Whether it is seen that an object remembers -/

theorem payload_length_lt (hp : payload d = .ok p) : p.length < 2 ^ 64 - 1 := by
  obtain ⟨len, hlen, ⟨-, hplen, -⟩ | ⟨-, rfl⟩⟩ := payload_cases hp
  · by_cases hd : d = []
    · subst hd
      cases hlen
      omega
    · obtain ⟨hd, rest, rfl, hbegins⟩ := begins_of_length hlen hd
      have hlimit : lengthLimit < 2 ^ 64 - 1 := by decide
      cases hbegins with
      | single x rest hx => omega
      | string len rest hlt hone => omega
      | list len rest hlt => omega
  · decide

namespace MalformedAt

theorem cases (h : MalformedAt d n) : n = 0 ∧ (∃ e, Blocked d e) ∨ ∃ is rest e,
    is ≠ [] ∧ is.length = n ∧ Breaks d is rest e := by
  cases h with
  | payload e hp => exact .inl ⟨rfl, e, by rw [Blocked, hp]; rfl⟩
  | item is rest e hp hitems herror =>
    by_cases hnil : is = []
    · subst hnil
      refine .inl ⟨rfl, e, ?_⟩
      rw [Blocked, hp]
      exact herror
    · exact .inr ⟨is, rest, e, hnil, rfl, hp, hitems, herror⟩

theorem error_iff (h : MalformedAt d n) (i : Nat) : (∃ e, nthOf d i = .error e) ↔ n ≤ i := by
  rcases h.cases with ⟨rfl, e, hblocked⟩ | ⟨is, rest, e, -, rfl, hbreaks⟩
  · exact ⟨fun _ => Nat.zero_le i, fun _ => ⟨e, nthOf_blocked hblocked i⟩⟩
  · rw [hbreaks.nthOf_eq]
    by_cases hi : i < is.length
    · rw [if_pos hi]
      exact ⟨nofun, fun hle => absurd hi (not_lt.2 hle)⟩
    · rw [if_neg hi]
      exact ⟨fun _ => not_lt.1 hi, fun _ => ⟨e, rfl⟩⟩

theorem unique {m : Nat} (h : MalformedAt d n) (h' : MalformedAt d m) : n = m :=
  le_antisymm ((h.error_iff m).1 ((h'.error_iff m).2 le_rfl)) ((h'.error_iff n).1 ((h.error_iff n).2 le_rfl))

theorem lt (h : MalformedAt d n) : n < 2 ^ 64 - 1 := by
  cases h with
  | payload e hp => decide
  | item is rest e hp hitems herror =>
    have hle := length_le_of_splits (⟨rfl, hitems⟩ : Splits is.flatten is)
    have hlt := payload_length_lt hp
    rw [length_append] at hlt
    omega

theorem answers_eq_iff {queries : List Nat} (h : MalformedAt d n) (hq : ∀ i ∈ queries, i < 2 ^ 64 - 1) :
    answers queries (RLP.of d) = queries.map (nthOf d) ↔ NoReturn n queries := by
  rcases h.cases with ⟨rfl, e, hblocked⟩ | ⟨is, rest, e, hne, rfl, hbreaks⟩
  · refine ⟨fun _ => ?_, fun _ => answers_blocked hblocked hq⟩
    exact (pairwise_of_forall fun _ _ hj => nomatch hj.2).isChain
  · have hpos : 0 < is.length := length_pos_iff.2 hne
    have hleft : Left is rest 0 (RLP.of d) := (left_of_lt hpos).2 (.inl ⟨rfl, rfl⟩)
    rw [hbreaks.answers_eq_iff hne hq rfl hleft]
    cases queries with
    | nil => exact ⟨fun _ => isChain_nil, fun _ => isChain_singleton 0⟩
    | cons i queries =>
      rw [NoReturn, isChain_cons_cons]
      exact ⟨And.right, fun hreturns => ⟨fun hzero => absurd hpos (not_lt.2 hzero.1), hreturns⟩⟩

theorem eval_fresh (h : MalformedAt d n) (hi : i < 2 ^ 64 - 1) : eval (Rlp.item i) (RLP.of d) = nthOf d i := by
  have hq : ∀ j ∈ [i], j < 2 ^ 64 - 1 := fun j hj => mem_singleton.1 hj ▸ hi
  have hone := (h.answers_eq_iff hq).2 (isChain_singleton i)
  exact (List.cons.inj hone).1

end MalformedAt

/-- An index that is so large reads nothing in a fresh object. -/
theorem eval_largest (d : Bytes) : eval (item (2 ^ 64 - 1)) (RLP.of d) = .ok (RLP.of []) := by
  have hwp : wp (item (2 ^ 64 - 1)) (fun a _ => a = RLP.of []) (fun _ _ => False) (RLP.of d) := by
    rw [item, restart, wp_bind, wp_bind, wp_get, wp_ite, if_neg (lt_irrefl _), wp_pure, wp_bind, wp_get,
      wp_bind, wp_of_nil rfl, wp_bind, wp_get]
    exact wp_liftM (mk'_tooSmall (.inl rfl)) rfl
  obtain ⟨a, r', hrun, rfl⟩ := exists_ok_of_wp hwp
  rw [eval, hrun]

/-- What an object remembers is not seen, if and only if the index that is the largest is not asked for in a list with a
malformed item, nor the item before that one after a query that has thrown. -/
theorem transparent_iff {s : Strictness} (hr : RLP.mk' b s = .ok r) {queries : List Nat} (hq : ∀ i ∈ queries, i < 2 ^ 64) :
    Transparent r queries ↔ ∀ n, MalformedAt r.data n → 2 ^ 64 - 1 ∉ queries ∧ NoReturn n queries := by
  rw [mk'_data hr]
  generalize r.data = d
  by_cases hn : ∃ n, MalformedAt d n
  · obtain ⟨n, hn⟩ := hn
    constructor
    · rintro ⟨hfresh, hright⟩ m hm
      have hnot : 2 ^ 64 - 1 ∉ queries := by
        intro hmem
        have heq := map_inj_left.1 (hfresh.symm.trans hright) _ hmem
        obtain ⟨e, he⟩ := (hn.error_iff (2 ^ 64 - 1)).2 hn.lt.le
        rw [eval_largest, he] at heq
        cases heq
      refine ⟨hnot, (hm.answers_eq_iff fun i hi => ?_).1 hright⟩
      have hne : i ≠ 2 ^ 64 - 1 := fun heq => hnot (heq ▸ hi)
      have hlt := hq i hi
      omega
    · intro hall
      obtain ⟨hnot, hreturns⟩ := hall n hn
      have hsmall : ∀ i ∈ queries, i < 2 ^ 64 - 1 := by
        intro i hi
        have hne : i ≠ 2 ^ 64 - 1 := fun heq => hnot (heq ▸ hi)
        have hlt := hq i hi
        omega
      have hright := (hn.answers_eq_iff hsmall).2 hreturns
      refine ⟨hright.trans (map_congr_left fun i hi => ?_), hright⟩
      exact (hn.eval_fresh (hsmall i hi)).symm
  · refine ⟨fun _ n hn' => absurd ⟨n, hn'⟩ hn, fun _ => ?_⟩
    obtain ⟨p, hp⟩ : ∃ p, payload d = .ok p := by
      cases hp : payload d with
      | error e => exact absurd ⟨0, .payload e hp⟩ hn
      | ok p => exact ⟨p, rfl⟩
    rcases exists_items p with ⟨is, h⟩ | ⟨is, rest, e, rfl, hitems, herror⟩
    · have hlen := (length_le_of_splits h).trans_lt (payload_length_lt hp)
      have hright : ∀ queries, answers queries (RLP.of d) = queries.map (nthOf d) := fun queries =>
        answers_splits rfl hp h hlen (remembers_of d is)
      refine ⟨(hright queries).trans (map_congr_left fun i _ => ?_), hright queries⟩
      exact (List.cons.inj (hright [i])).1.symm
    · exact absurd ⟨_, .item is rest e hp hitems herror⟩ hn

theorem transparent_two : Transparent (RLP.of [0xc2, 0x05, 0x81]) [1, 2, 1] := by
  have hlist : IsListOf [0xc2, 0x05, 0x81] [0x05, 0x81] := ⟨by decide, by decide⟩
  have hitems : ∀ i ∈ [[0x05]], IsItem i := forall_mem_singleton.2 (.data [0x05] (by decide))
  have hone : MalformedAt [0xc2, 0x05, 0x81] 1 := .item [[0x05]] [0x81] .badRLP hlist.payload hitems rfl
  refine (transparent_iff (s := laissezFaire) rfl (by simp)).2 fun n hn => ?_
  obtain rfl := hone.unique hn
  refine ⟨by simp, ?_⟩
  rw [NoReturn]
  decide

/-- A good item, after the malformed one behind it has been asked for. -/
theorem not_transparent : ¬∀ (b : Bytes) (s : Strictness) (r : RLP) (queries : List Nat), RLP.mk' b s = .ok r →
    (∀ i ∈ queries, i < 2 ^ 64) → Transparent r queries := by
  intro h
  have hright := (h [0xc2, 0x05, 0x81] laissezFaire (RLP.of [0xc2, 0x05, 0x81]) [0, 1, 0] rfl (by simp)).right
  have hok := congrArg (List.map Except.isOk) hright
  revert hok
  decide +kernel

end Kmdx.Rlp
