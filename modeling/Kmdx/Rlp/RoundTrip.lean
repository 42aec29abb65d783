import Kmdx.Rlp.Fields

/-!
# Writing and reading items

What a stream has written is read back (`round_trip`), but for integers that take more bytes than an `unsigned` counts
(`not_round_trip_int`). What can be read in full is what a stream writes (`canonical`).
-/

namespace Kmdx.Rlp

open ExceptRules Wp List

variable {d p : Bytes} {is : List Bytes} {t : Tree} {ts : List Tree}

/-- The bytes are read back as the tree, in every way that a reader has. -/
inductive ReadsBack : Bytes → Tree → Prop
  | data {d b : Bytes} : RLP.mk' d = .ok (RLP.of d) → isData d = true → isList d = false → toBytes d = .ok b →
    (∀ i, compact i = b → i < 256 ^ intLimit → toBigint d = .ok i) → ReadsBack d (.data b)
  | list {d : Bytes} {is : List Bytes} {ts : List Tree} : RLP.mk' d = .ok (RLP.of d) → isList d = true →
    itemCount d = .ok ts.length → elements d = .ok (is.map RLP.of) →
    (∀ ks : List Nat, eval (ks.mapM item) (RLP.of d) = .ok (ks.map fun k => RLP.of (is.getD k []))) →
    List.Forall₂ ReadsBack is ts → ReadsBack d (.list ts)

/-- The bytes can be read in full, and `t` is what is read. -/
inductive Decodes : Bytes → Tree → Prop
  | data {d b : Bytes} {r : RLP} : RLP.mk' d = .ok r → isData d = true → toBytes d = .ok b → Decodes d (.data b)
  | elements {d : Bytes} {r : RLP} {rs : List RLP} {ts : List Tree} : RLP.mk' d = .ok r → isList d = true →
    elements d = .ok rs → List.Forall₂ Decodes (rs.map RLP.data) ts → Decodes d (.list ts)
  | items {d : Bytes} {r : RLP} {n : Nat} {rs : List RLP} {ts : List Tree} : RLP.mk' d = .ok r → isList d = true →
    itemCount d = .ok n → eval ((List.range n).mapM item) r = .ok rs → List.Forall₂ Decodes (rs.map RLP.data) ts →
    Decodes d (.list ts)

mutual
/-- The plain way to write a tree. -/
def Tree.ops : Tree → List Op
  | .data b => [.append b false]
  | .list ts => .appendList ts.length :: opsAll ts

def Tree.opsAll : List Tree → List Op
  | [] => []
  | t :: ts => ops t ++ opsAll ts
end

/-! ### Lists of trees -/

theorem splits_payload (h : (Tree.payload ts).length < lengthLimit) : Splits (Tree.payload ts) (ts.map Tree.encode) where
  eq := Tree.payload_eq_flatten ts
  items i hi := by
    obtain ⟨t, ht, rfl⟩ := mem_map.1 hi
    exact isItem_encode (Tree.fits_of_mem h ht)

theorem isListOf_encode (h : (Tree.payload ts).length < lengthLimit) : IsListOf (Tree.list ts).encode (Tree.payload ts) where
  eq := by rw [Tree.encode]
  lt := h

/-- The items of a list that has been written -/
theorem reads_item {ts : List Tree} (h : (Tree.list ts).Fits) (k : Nat) :
    Reads (Tree.list ts).encode (ts.map Tree.encode) (item k) (.ok (RLP.of ((ts.map Tree.encode).getD k []))) :=
  .item (isListOf_encode h).payload (splits_payload h) ((isListOf_encode h).length_lt (splits_payload h)) k

/-- Any subscripts, one after the other. -/
theorem wp_mapM_item {r : RLP} (hpayload : payload r.data = .ok p) (hsplits : Splits p is) (hlen : is.length < 2 ^ 64 - 1)
    (h : Remembers r is) (ks : List Nat) :
    wp (ks.mapM item) (fun rs _ => rs = ks.map fun k => RLP.of (is.getD k [])) (fun _ _ => False) r := by
  induction ks generalizing r with
  | nil => exact rfl
  | cons k ks ih =>
    rw [mapM_cons, wp_bind]
    refine wp_mono (wp_item hpayload hsplits hlen h k) ?_ fun _ _ => id
    rintro _ r' ⟨rfl, hdata, hremembers⟩
    rw [wp_bind]
    refine wp_mono (ih (hdata ▸ hpayload) hremembers) ?_ fun _ _ => id
    rintro _ _ rfl
    rfl

theorem IsListOf.eval_mapM_item (h : IsListOf d p) (hsplits : Splits p is) (ks : List Nat) :
    eval (ks.mapM item) (RLP.of d) = .ok (ks.map fun k => RLP.of (is.getD k [])) := by
  obtain ⟨rs, r, hrun, rfl⟩ := exists_ok_of_wp
    (wp_mapM_item (r := RLP.of d) h.payload hsplits (h.length_lt hsplits) (remembers_of d is) ks)
  exact eval_of_eq_ok hrun

/-! ### Reading what has been written -/

theorem readsBack_encode (h : t.Fits) : ReadsBack t.encode t := by
  induction t using Tree.induct with
  | data b =>
    rw [Tree.encode]
    refine .data (mk'_veryStrict.2 ⟨rfl, .inr (.data b h)⟩) (isData_bytes h) (isList_bytes b h) (toBytes_bytes h) ?_
    rintro i rfl hi
    exact (toInt_eq_ok_iff (.data _ h)).2 ⟨rfl, h, length_compact_le_iff.2 hi⟩
  | list ts ih =>
    have hlist := isListOf_encode h
    have hsplits := splits_payload h
    have hitem : IsItem (Tree.list ts).encode := isItem_encode h
    refine .list (mk'_veryStrict.2 ⟨rfl, .inr hitem⟩) hlist.isList ?_ (hlist.elements hsplits)
      (hlist.eval_mapM_item hsplits) ?_
    · rw [hlist.itemCount hsplits, length_map]
    · exact forall₂_map_left_iff.2 (forall₂_same.2 fun t ht => ih t ht (Tree.fits_of_mem h ht))

theorem decodes_encode (h : t.Fits) : Decodes t.encode t := by
  induction t using Tree.induct with
  | data b =>
    rw [Tree.encode]
    exact .data (mk'_veryStrict.2 ⟨rfl, .inr (.data b h)⟩) (isData_bytes h) (toBytes_bytes h)
  | list ts ih =>
    have hlist := isListOf_encode h
    refine .elements (mk'_veryStrict.2 ⟨rfl, .inr (isItem_encode h)⟩) hlist.isList (hlist.elements (splits_payload h)) ?_
    rw [map_map, map_map]
    exact forall₂_map_left_iff.2 (forall₂_same.2 fun t ht => ih t ht (Tree.fits_of_mem h ht))

/-- What is written tells the tree. -/
theorem Tree.encode_injective {t t' : Tree} (h : t.Fits) (h' : t'.Fits) (heq : t.encode = t'.encode) : t = t' := by
  induction t using Tree.induct generalizing t' with
  | data b =>
    cases t' with
    | data b' =>
      rw [Tree.encode, Tree.encode] at heq
      have hb : toBytes (bytes b) = .ok b := toBytes_bytes h
      rw [heq, toBytes_bytes h', Except.ok.injEq] at hb
      rw [hb]
    | list ts' =>
      have hlist := (isListOf_encode h').isList
      rw [← heq, Tree.encode, isList_bytes b h] at hlist
      cases hlist
  | list ts ih =>
    cases t' with
    | data b' =>
      have hlist := (isListOf_encode h).isList
      rw [heq, Tree.encode, isList_bytes b' h'] at hlist
      cases hlist
    | list ts' =>
      have hitems := (isListOf_encode h).elements (splits_payload h)
      rw [heq, (isListOf_encode h').elements (splits_payload h'), Except.ok.injEq] at hitems
      have hof : Function.Injective RLP.of := fun _ _ hof => congrArg RLP.data hof
      have hencode : ts.map Tree.encode = ts'.map Tree.encode := (map_injective_iff.2 hof hitems).symm
      have hlen : ts.length = ts'.length := by simpa using congrArg List.length hencode
      refine congrArg Tree.list (ext_getElem hlen fun i hi hi' => ?_)
      refine ih _ (getElem_mem hi) (Tree.fits_of_mem h (getElem_mem hi)) (Tree.fits_of_mem h' (getElem_mem hi')) ?_
      have hget := congrArg (fun l => l[i]?) hencode
      simpa [hi, hi'] using hget

/-- Whatever way a tree is written, the bytes are those of its finished payloads, and the tree is read back from them. -/
theorem round_trip {ops : List Op} (h : Writes ops [t]) (hfits : t.Fits) :
    (run ops {} >>= RLPStream.output) = .ok t.encode ∧ ReadsBack t.encode t :=
  ⟨output_of_writes h hfits, readsBack_encode hfits⟩

/-- An integer that is read takes at most `maxSize` bytes. -/
theorem lt_of_toInt {maxSize n : Nat} (h : toInt d maxSize = .ok n) : n < 256 ^ maxSize := by
  obtain ⟨_, -, h⟩ := bind_eq_ok_iff.1 h
  obtain ⟨canon, -, h⟩ := bind_eq_ok_iff.1 h
  split at h
  · cases h
  · obtain ⟨p, -, h⟩ := bind_eq_ok_iff.1 h
    split at h
    · cases h
    · rename_i hsize
      have hle : p.length ≤ maxSize := not_lt.1 fun hlt => hsize ⟨hlt, rfl⟩
      rw [← Except.ok.inj h]
      exact (BigEndian.ofBytes_lt p).trans_le (Nat.pow_le_pow_right (by decide) hle)

theorem not_round_trip_int : ¬ ∀ i : Nat, ∃ b, (run [.appendInt i] {} >>= RLPStream.output) = .ok b ∧ toBigint b = .ok i := by
  intro h
  obtain ⟨b, -, hb⟩ := h (256 ^ intLimit)
  exact absurd (lt_of_toInt hb) (lt_irrefl _)

/-- A list of a string and an integer, written item by item. -/
theorem round_trip_list : (run [.appendList 2, .append [1, 2] false, .appendInt 5] {} >>= RLPStream.output) =
      .ok (Tree.list [.data [1, 2], .int 5]).encode ∧
    ReadsBack (Tree.list [.data [1, 2], .int 5]).encode (.list [.data [1, 2], .int 5]) := by
  have hint : 5 < 256 ^ intLimit :=
    lt_of_lt_of_le (by decide : 5 < 256 ^ 1) (Nat.pow_le_pow_right (by decide) (by decide))
  have hfits : (Tree.list [.data [1, 2], .int 5]).Fits := by
    have hfive : compact 5 = [5] := compact_of_lt (by decide) (by decide)
    rw [Tree.Fits, Tree.int, hfive]
    decide
  have hwrites : Writes [.appendList 2, .append [1, 2] false, .appendInt 5] [.list [.data [1, 2], .int 5]] :=
    .list (.append [1, 2] (.int 5 hint .nil)) .nil
  exact round_trip hwrites hfits

/-! ### Writing what has been read -/

theorem writes_ops (t : Tree) {ops : List Op} {ts : List Tree} (h : Writes ops ts) : Writes (t.ops ++ ops) (t :: ts) := by
  induction t using Tree.induct generalizing ops ts with
  | data b =>
    rw [Tree.ops]
    exact .append b h
  | list ts' ih =>
    rw [Tree.ops]
    refine .list ?_ h
    clear h
    induction ts' with
    | nil =>
      rw [Tree.opsAll]
      exact .nil
    | cons t ts' ih' =>
      rw [Tree.opsAll]
      exact ih t mem_cons_self (ih' fun t ht => ih t (mem_cons_of_mem _ ht))

theorem encode_of_splits (h : IsListOf d p) (hsplits : Splits p is) (his : is = ts.map Tree.encode) :
    d = (Tree.list ts).encode ∧ (Tree.list ts).Fits := by
  have hp : p = Tree.payload ts := by rw [hsplits.eq, his, Tree.payload_eq_flatten]
  have hlt := h.lt
  rw [h.eq, Tree.encode, hp]
  rw [hp] at hlt
  exact ⟨rfl, hlt⟩

theorem eq_map_encode (hts : ∀ t ∈ ts, ∀ i, Decodes i t → i = t.encode) (h : List.Forall₂ Decodes is ts) :
    is = ts.map Tree.encode := by
  induction h with
  | nil => rfl
  | cons hi _ ih =>
    rw [map_cons, ← hts _ mem_cons_self _ hi, ← ih fun t ht => hts t (mem_cons_of_mem _ ht)]

theorem map_getD_range (is : List Bytes) : (List.range is.length).map (fun k => is.getD k []) = is := by
  refine ext_getElem (by simp) fun k hk hk' => ?_
  rw [getElem_map, getElem_range, getD_eq_getElem _ _ hk']

/-- Every item is the encoding of what it is read as. -/
theorem encode_of_decodes (h : Decodes d t) : d = t.encode ∧ t.Fits := by
  induction t using Tree.induct generalizing d with
  | data b =>
    cases h with
    | data hmk hdata hb =>
      rcases (mk'_veryStrict.1 hmk).2 with rfl | hitem
      · cases hdata
      · rw [Tree.encode]
        exact toBytes_of_isData hitem hdata hb
  | list ts ih =>
    have hall : ∀ is : List Bytes, List.Forall₂ Decodes is ts → is = ts.map Tree.encode :=
      fun is his => eq_map_encode (fun t ht i hi => (ih t ht hi).1) his
    cases h with
    | elements hmk hlist helements hts =>
      obtain ⟨p, hp⟩ := isListOf_of_mk' hmk hlist
      obtain ⟨is, hsplits, rfl⟩ := hp.splits_of_elements helements
      rw [map_map, map_id''] at hts
      · exact encode_of_splits hp hsplits (hall is hts)
      · exact fun _ => rfl
    | items hmk hlist hcount hitems hts =>
      obtain ⟨p, hp⟩ := isListOf_of_mk' hmk hlist
      obtain ⟨is, hsplits, rfl⟩ := hp.splits_of_itemCount hcount
      obtain ⟨rfl, -⟩ := mk'_veryStrict.1 hmk
      rw [hp.eval_mapM_item hsplits] at hitems
      cases hitems
      rw [map_map] at hts
      change List.Forall₂ Decodes ((List.range is.length).map fun k => is.getD k []) ts at hts
      rw [map_getD_range] at hts
      exact encode_of_splits hp hsplits (hall is hts)

/-- What can be read in full is what a stream writes, so no other bytes are read as the same tree. -/
theorem canonical (h : Decodes d t) :
    (run t.ops {} >>= RLPStream.output) = .ok d ∧ ∀ d', Decodes d' t → d' = d := by
  obtain ⟨rfl, hfits⟩ := encode_of_decodes h
  have hwrites : Writes t.ops [t] := by
    have hops := writes_ops t .nil
    rw [append_nil] at hops
    exact hops
  exact ⟨output_of_writes hwrites hfits, fun d' hd' => (encode_of_decodes hd').1⟩

theorem canonical_list : (run (Tree.list [.data [5], .data []]).ops {} >>= RLPStream.output) = .ok [0xc2, 5, 0x80] ∧
    ∀ d', Decodes d' (.list [.data [5], .data []]) → d' = [0xc2, 5, 0x80] := by
  have hencode : (Tree.list [.data [5], .data []]).encode = [0xc2, 5, 0x80] := rfl
  have hfits : (Tree.list [.data [5], .data []]).Fits := by
    rw [Tree.Fits]
    decide
  have hdecodes : Decodes [0xc2, 5, 0x80] (.list [.data [5], .data []]) := hencode ▸ decodes_encode hfits
  exact canonical hdecodes

end Kmdx.Rlp
