import Kmdx.Trie.HexPrefix
import Kmdx.Trie.Iteration

/-!
# The root of a map (`libdevcore/TrieHash.cpp`)

`hash256rlp` writes the nodes of a trie from the sorted entries, without a database. It is the root node of the canonical tree
of the entries that it writes (`hash256rlp_eq`), so the trie, which holds that tree, has the same root after every run whose
keys are no prefixes of one another (`map_with_canonical_root`).
-/

namespace Kmdx.Trie

open Rlp RadixTree Nibble Wp
open List hiding isEmpty_iff after

/-! ### The functions -/

/-- `asNibbles` -/
def asNibbles (s : Bytes) : Bytes := s.flatMap fun i => [i / 16, i % 16]

/-- The loop from `shared` on, with what is left to `x`. -/
def sharedUpTo (first second : Bytes) : Nat → Nat → Nat
  | 0, shared => shared
  | n + 1, shared => if first.getD shared 0 = second.getD shared 0 then sharedUpTo first second n (shared + 1) else shared

/-- The loop that finds the number of common prefix nibbles shared. To begin with, the size of the first key is as good as the
largest number. -/
def sharedPreFrom (first : Bytes) (preLen : Nat) : Nat → List (Bytes × Bytes) → Nat
  | sharedPre, [] => sharedPre
  | sharedPre, i :: rest =>
    if sharedPre = 0 then sharedPre
    else
      let x := min sharedPre (min first.length i.1.length)
      let shared := sharedUpTo first i.1 (x - preLen) preLen
      sharedPreFrom first preLen (min shared sharedPre) rest

/-- The loop that enumerates the entries, with what `hash256aux` writes for those that go on with `i`. -/
def enumerate (aux : List (Bytes × Bytes) → Option Tree) (preLen : Nat) : List Nat → List (Bytes × Bytes) → Option (List Tree)
  | [], _ => some []
  | i :: is, b => do
    let here := b.takeWhile fun n => n.1.getD preLen 0 = UInt8.ofNat i
    let item ← if here.isEmpty then some rlpNull else aux here
    let items ← enumerate aux preLen is (b.dropWhile fun n => n.1.getD preLen 0 = UInt8.ofNat i)
    return item :: items

section

variable [Sha3]

def hash256aux (rlp : List (Bytes × Bytes) → Nat → Option Tree) (s : List (Bytes × Bytes)) (preLen : Nat) : Option Tree :=
  (rlp s preLen).map ref

/-- With fuel for the depth. -/
def hash256rlp : Nat → List (Bytes × Bytes) → Nat → Option Tree
  | 0, _, _ => none
  | _ + 1, [], _ => some rlpNull
  -- only one left - terminate with the pair.
  | _ + 1, [e], preLen => some (.list [.data (hexPrefixEncodeVector e.1 true preLen), .data e.2])
  | fuel + 1, first :: second :: rest, preLen =>
    let sharedPre := sharedPreFrom first.1 preLen first.1.length (second :: rest)
    if preLen < sharedPre then do
      -- if they all have the same next nibble, we also want a pair.
      let n ← hash256aux (hash256rlp fuel) (first :: second :: rest) sharedPre
      return .list [.data (hexPrefixEncodeVector first.1 false preLen sharedPre), n]
    else do
      -- otherwise enumerate all 16+1 entries.
      let b := if preLen = first.1.length then second :: rest else first :: second :: rest
      let items ← enumerate (hash256aux (hash256rlp fuel) · (preLen + 1)) preLen (List.range 16) b
      return .list (items ++ [.data (if preLen = first.1.length then first.2 else [])])

/-- `rlp256`, of the entries in the order of their keys, which is that of their nibbles. The fuel is more than the nibbles of
each. -/
def rlp256 (s : List (Bytes × Bytes)) : Option Tree :=
  let hexMap := s.map fun i => (asNibbles i.1, i.2)
  hash256rlp ((hexMap.map Prod.fst).flatten.length + 1) hexMap 0

def hash256 (s : List (Bytes × Bytes)) : Option H256 := (rlp256 s).map hashOf

end

/-! ### The common prefix -/

variable {p k f : List Nibble} {t : RadixTree 16 Bytes} {c : Nibble → RadixTree 16 Bytes} {o : Option Bytes}
    {es : List (List Nibble × Bytes)}
  {e : List Nibble × Bytes} {acc i n : Nat} {m : Contents}

/-- An entry of a `HexMap` -/
def hexed (e : List Nibble × Bytes) : Bytes × Bytes := (e.1.map toByte, e.2)

theorem asNibbles_eq (s : Bytes) : asNibbles s = (nibbles s).map toByte := by
  have hall : ∀ x : Byte, x / 16 = (high x).toByte ∧ x % 16 = (low x).toByte := fun x => ⟨by
    refine UInt8.toNat_inj.1 ?_
    have hx := x.toNat_lt
    have hlt : x.toNat / 16 < 2 ^ 8 := by omega
    exact (Nat.mod_eq_of_lt hlt).symm, by
    refine UInt8.toNat_inj.1 ?_
    have hlt : x.toNat % 16 < 2 ^ 8 := by omega
    exact (Nat.mod_eq_of_lt hlt).symm⟩
  induction s with
  | nil => rfl
  | cons x s ih =>
    rw [asNibbles, flatMap_cons, nibbles_cons, map_cons, map_cons, ← ih, (hall x).1, (hall x).2]
    rfl

theorem toByte_injective : Function.Injective toByte := by decide

/-- What the first word has in common with all the others, and no more than `acc` -/
def common (f : List Nibble) : Nat → List (List Nibble × Bytes) → Nat
  | acc, [] => acc
  | acc, e :: es => common f (min acc (shared f e.1)) es

theorem common_le (f : List Nibble) (acc : Nat) (es : List (List Nibble × Bytes)) : common f acc es ≤ acc := by
  induction es generalizing acc with
  | nil => exact le_rfl
  | cons e es ih => exact (ih _).trans (min_le_left _ _)

theorem common_eq_zero (he : e ∈ es) (hshared : shared f e.1 = 0) (acc : Nat) : common f acc es = 0 := by
  induction es generalizing acc with
  | nil => cases he
  | cons d es ih =>
    rw [common]
    rcases mem_cons.1 he with rfl | he
    · rw [hshared, Nat.min_zero]
      exact Nat.eq_zero_of_le_zero (common_le f 0 es)
    · exact ih he _

theorem common_under (k f : List Nibble) (acc : Nat) (es : List (List Nibble × Bytes)) :
    common (k ++ f) (k.length + acc) (under k es) = k.length + common f acc es := by
  induction es generalizing acc with
  | nil => rfl
  | cons e es ih =>
    rw [under, map_cons, common, common, shared_append, Nat.add_min_add_left, ← under, ih]

theorem shared_le_left (k k' : List Nibble) : shared k k' ≤ k.length := by
  obtain ⟨p, r, r', rfl, rfl, hshared, -⟩ := exists_of_shared k k'
  rw [hshared, length_append]
  exact Nat.le_add_right _ _

theorem getD_map_toByte {l : List Nibble} (h : i < l.length) : (l.map toByte).getD i 0 = l[i].toByte := by
  rw [List.getD_eq_getElem?_getD, List.getElem?_map, List.getElem?_eq_getElem h]
  rfl

theorem sharedUpTo_eq {l l' : List Nibble} (h : i + n ≤ l.length) (h' : i + n ≤ l'.length) :
    sharedUpTo (l.map toByte) (l'.map toByte) n i = i + min n (shared (l.drop i) (l'.drop i)) := by
  induction n generalizing i with
  | zero => rw [sharedUpTo, Nat.zero_min, Nat.add_zero]
  | succ n ih =>
    rw [sharedUpTo, getD_map_toByte (by omega), getD_map_toByte (by omega), drop_eq_getElem_cons (show i < l.length by omega),
      drop_eq_getElem_cons (show i < l'.length by omega), shared]
    by_cases heq : l[i] = l'[i]
    · rw [if_pos heq, if_pos (congrArg toByte heq), ih (by omega) (by omega), Nat.add_min_add_right]
      omega
    · rw [if_neg heq, if_neg fun h => heq (toByte_injective h), Nat.min_zero, Nat.add_zero]

theorem sharedPreFrom_eq (p : List Nibble) (hacc : acc ≤ f.length) (es : List (List Nibble × Bytes)) :
    sharedPreFrom ((p ++ f).map toByte) p.length (p.length + acc) ((under p es).map hexed) = p.length + common f acc es := by
  induction es generalizing acc with
  | nil => rfl
  | cons e es ih =>
    rw [under, map_cons, map_cons, ← under, sharedPreFrom]
    split
    · rename_i hzero
      have hle := common_le f acc (e :: es)
      omega
    · have hleft := shared_le_left f e.1
      have hright := shared_le_left e.1 f
      rw [shared_comm] at hright
      dsimp only
      rw [hexed, sharedUpTo_eq (by simp) (by simp), drop_left, drop_left, length_map, length_map,
        length_append, length_append]
      have hnext : min (p.length + min
          (min (p.length + acc) (min (p.length + f.length) (p.length + e.1.length)) - p.length) (shared f e.1))
          (p.length + acc) = p.length + min acc (shared f e.1) := by omega
      rw [hnext, ih (by omega), common]

/-! ### The entries of a canonical tree -/

theorem exists_mem_entries (ht : t.Canonical) (hne : t ≠ .empty) : ∃ e, e ∈ t.entries := by
  obtain ⟨k, v, hv⟩ := ht.exists_find hne
  exact ⟨(k, v), mem_entries.2 hv⟩

/-- A way to go on leads to an entry. -/
theorem exists_entry_of_inUse (hc : ∀ i, (c i).Canonical) {s : Option Nibble} (hs : InUse c o s) :
    ∃ e ∈ (RadixTree.branch c o).entries, e.1.head? = s := by
  cases s with
  | none =>
    obtain ⟨v, rfl⟩ := Option.isSome_iff_exists.1 hs
    exact ⟨([], v), mem_entries.2 rfl, rfl⟩
  | some i =>
    obtain ⟨e, he⟩ := exists_mem_entries (hc i) hs
    have hfind : (c i).find e.1 = some e.2 := mem_entries.1 he
    exact ⟨(i :: e.1, e.2), mem_entries.2 hfind, rfl⟩

/-- There are two entries of a branch that have nothing in common. -/
theorem exists_entries_branch (ht : Canonical (.branch c o)) :
    ∃ first second rest, (RadixTree.branch c o).entries = first :: second :: rest ∧
    common first.1 first.1.length (second :: rest) = 0 := by
  obtain ⟨⟨s, s', hne, hs, hs'⟩, hc⟩ := ht
  obtain ⟨e, he, rfl⟩ := exists_entry_of_inUse hc hs
  obtain ⟨e', he', rfl⟩ := exists_entry_of_inUse hc hs'
  cases hentries : (RadixTree.branch c o).entries with
  | nil =>
    rw [hentries] at he
    cases he
  | cons first tail =>
    rw [hentries] at he he'
    have hother : ∃ d ∈ tail, first.1.head? ≠ d.1.head? := by
      by_cases hfirst : first.1.head? = e.1.head?
      · have hd : first.1.head? ≠ e'.1.head? := hfirst ▸ hne
        exact ⟨e', (mem_cons.1 he').resolve_left fun heq => hd (by rw [heq]), hd⟩
      · exact ⟨e, (mem_cons.1 he).resolve_left fun heq => hfirst (by rw [heq]), hfirst⟩
    obtain ⟨d, hd, hhead⟩ := hother
    obtain ⟨second, rest, rfl⟩ := exists_cons_of_ne_nil (List.ne_nil_of_mem hd)
    exact ⟨first, second, rest, rfl, common_eq_zero hd (shared_eq_zero hhead) _⟩

/-! ### The nodes -/

theorem hexPrefixEncodeVector_from (leaf : Bool) (p l : List Nibble) :
    hexPrefixEncodeVector ((p ++ l).map toByte) leaf p.length = hexPrefix leaf l := by
  have hend : (endOf (p ++ l).length (-1)).toNat = p.length + l.length := by
    rw [endOf, if_pos (by decide), length_append]
    omega
  rw [hexPrefixEncodeVector_eq leaf
    ⟨by rw [endOf, if_pos (by decide), length_append]; omega, by rw [endOf, if_pos (by decide)]; omega⟩,
    hend, drop_left, Nat.add_sub_cancel_left, take_length]

theorem hexPrefixEncodeVector_upTo (leaf : Bool) (p k l : List Nibble) :
    hexPrefixEncodeVector ((p ++ (k ++ l)).map toByte) leaf p.length (p.length + k.length : Nat) = hexPrefix leaf k := by
  have hend : (endOf (p ++ (k ++ l)).length ((p.length + k.length : Nat) : Int)).toNat = p.length + k.length := by
    rw [endOf, if_neg (by omega)]
    omega
  rw [hexPrefixEncodeVector_eq leaf ⟨by rw [endOf, if_neg (by omega)]; omega, by
    rw [endOf, if_neg (by omega), length_append, length_append]; omega⟩, hend, drop_left, Nat.add_sub_cancel_left,
    take_left]

theorem under_flatMap (p : List Nibble) (is : List Nibble) (l : Nibble → List (List Nibble × Bytes)) :
    under p (is.flatMap fun i => under [i] (l i)) = is.flatMap fun i => under (p ++ [i]) (l i) := by
  rw [under, map_flatMap]
  exact flatMap_congr fun i _ => under_under p [i] (l i)

theorem takeWhile_dropWhile_append {α : Type} {q : α → Bool} {l r : List α} (hl : ∀ x ∈ l, q x = true)
    (hr : ∀ x ∈ r, q x = false) : (l ++ r).takeWhile q = l ∧ (l ++ r).dropWhile q = r := by
  rw [takeWhile_append_of_pos hl, dropWhile_append_of_pos hl]
  cases r with
  | nil => exact ⟨append_nil l, rfl⟩
  | cons x r =>
    have hx : ¬q x = true := by rw [hr x mem_cons_self]; exact Bool.false_ne_true
    rw [takeWhile_cons_of_neg hx, dropWhile_cons_of_neg hx]
    exact ⟨append_nil l, rfl⟩

theorem getD_hexed {i : Nibble} {d : Bytes × Bytes} (hd : d ∈ (under (p ++ [i]) es).map hexed) :
    d.1.getD p.length 0 = i.toByte := by
  obtain ⟨⟨_, v⟩, he, rfl⟩ := mem_map.1 hd
  obtain ⟨r, -, rfl⟩ := mem_under.1 he
  rw [hexed, getD_map_toByte (by rw [length_append, length_append, length_singleton]; omega)]
  simp

section

variable [Sha3] {fuel : Nat}

/-- The letters of a branch from one on -/
theorem enumerate_eq {aux : List (Bytes × Bytes) → Option Tree} (hc : ∀ i, (c i).Canonical) (is : List Nibble)
    (his : is.Pairwise (· < ·))
    (haux : ∀ i, c i ≠ .empty → aux ((under (p ++ [i]) (c i).entries).map hexed) = some (ref (item (c i)))) :
    enumerate aux p.length (is.map Fin.val) ((is.flatMap fun i => under (p ++ [i]) (c i).entries).map hexed) =
      some (is.map fun i => ref (item (c i))) := by
  induction is with
  | nil => rfl
  | cons i is ih =>
    obtain ⟨hlater, his⟩ := pairwise_cons.1 his
    obtain ⟨hhere, hrest⟩ := takeWhile_dropWhile_append
        (q := fun n : Bytes × Bytes => n.1.getD p.length 0 = UInt8.ofNat i.val)
      (l := (under (p ++ [i]) (c i).entries).map hexed) (r := (is.flatMap fun i => under (p ++ [i]) (c i).entries).map hexed)
      (fun d hd => decide_eq_true (getD_hexed hd)) fun d hd => by
        obtain ⟨e, he, rfl⟩ := mem_map.1 hd
        obtain ⟨j, hj, he⟩ := mem_flatMap.1 he
        rw [getD_hexed (mem_map_of_mem he)]
        exact decide_eq_false fun heq => (hlater j hj).ne (toByte_injective heq).symm
    rw [map_cons, flatMap_cons, map_append, enumerate, hhere, hrest, ih his, map_cons]
    by_cases hi : c i = .empty
    · rw [hi, item, ref_rlpNull]
      rfl
    · obtain ⟨e, he⟩ := exists_mem_entries (hc i) hi
      have hne : ((under (p ++ [i]) (c i).entries).map hexed).isEmpty = false := by
        rw [List.isEmpty_eq_false_iff, Ne, List.map_eq_nil_iff, under, List.map_eq_nil_iff]
        exact List.ne_nil_of_mem he
      rw [hne, if_neg Bool.false_ne_true, haux i hi]
      rfl

omit [Sha3] in
theorem sharedPre_eq (p : List Nibble) (first second : List Nibble × Bytes) (rest : List (List Nibble × Bytes)) :
    sharedPreFrom ((p ++ first.1).map toByte) p.length ((p ++ first.1).map toByte).length
      ((under p (second :: rest)).map hexed) = p.length + common first.1 first.1.length (second :: rest) := by
  rw [length_map, length_append]
  exact sharedPreFrom_eq p le_rfl (second :: rest)

/-- What is written from the entries of a tree is its root node. -/
theorem hash256rlp_eq (ht : t.Canonical) (p : List Nibble) (hpos : 0 < fuel) (hfuel : ∀ e ∈ t.entries, e.1.length < fuel) :
    hash256rlp fuel ((under p t.entries).map hexed) p.length = some (item t) := by
  obtain ⟨fuel, rfl⟩ := Nat.exists_eq_succ_of_ne_zero hpos.ne'
  induction t generalizing p fuel with
  | empty => rfl
  | leaf k v =>
    rw [entries, under, map_singleton, map_singleton, hash256rlp, hexed, hexPrefixEncodeVector_from]
    rfl
  | ext k t ih =>
    obtain ⟨hk, hbranch, ht⟩ := ht
    obtain ⟨c, o, rfl⟩ := hbranch.exists_eq
    have hlen : 0 < k.length := length_pos_iff.2 hk
    have hkeys : ∀ e ∈ (RadixTree.branch c o).entries, k.length + e.1.length < fuel + 1 := fun e he => by
      have hlt := hfuel (k ++ e.1, e.2) (mem_under.2 ⟨e.1, he, rfl⟩)
      rwa [length_append] at hlt
    obtain ⟨first, second, rest, hentries, hcommon⟩ := exists_entries_branch ht
    obtain ⟨fuel, rfl⟩ := Nat.exists_eq_succ_of_ne_zero (n := fuel) (by
      have hlt := hkeys first (by rw [hentries]; exact mem_cons_self)
      omega)
    have hrest := ih ht (p ++ k) fuel (Nat.succ_pos _) fun e he => by
      have hlt := hkeys e he
      omega
    have hshared := sharedPre_eq p (k ++ first.1, first.2) (k ++ second.1, second.2) (under k rest)
    have hunder := common_under k first.1 first.1.length (second :: rest)
    rw [← length_append, hcommon, Nat.add_zero] at hunder
    change _ = _ + common (k ++ first.1) (k ++ first.1).length (under k (second :: rest)) at hshared
    rw [hunder] at hshared
    rw [← under_under, hentries, length_append] at hrest
    rw [entries, hentries]
    change hash256rlp _ (hexed (p ++ (k ++ first.1), first.2) :: hexed (p ++ (k ++ second.1), second.2) ::
      (under p (under k rest)).map hexed) p.length = _
    change sharedPreFrom (hexed (p ++ (k ++ first.1), first.2)).1 p.length (hexed (p ++ (k ++ first.1), first.2)).1.length
      (hexed (p ++ (k ++ second.1), second.2) :: (under p (under k rest)).map hexed) = _ at hshared
    change hash256rlp _ (hexed (p ++ (k ++ first.1), first.2) :: hexed (p ++ (k ++ second.1), second.2) ::
      (under p (under k rest)).map hexed) _ = _ at hrest
    rw [hash256rlp]
    dsimp only
    rw [hshared, if_pos (by omega), hash256aux, hrest, hexed, hexPrefixEncodeVector_upTo]
    rfl
  | branch c o ih =>
    obtain ⟨first, second, rest, hentries, hcommon⟩ := exists_entries_branch ht
    have hletters : enumerate (hash256aux (hash256rlp fuel) · (p.length + 1)) p.length (List.range 16)
        ((under p ((List.finRange 16).flatMap fun i => under [i] (c i).entries)).map hexed) =
          some ((List.finRange 16).map fun i => ref (item (c i))) := by
      rw [← map_coe_finRange_eq_range, under_flatMap]
      refine enumerate_eq ht.2 _ (pairwise_lt_finRange 16) fun i hi => ?_
      have hkeys : ∀ e ∈ (c i).entries, e.1.length < fuel := fun e he => by
        have hfind : (c i).find e.1 = some e.2 := mem_entries.1 he
        exact Nat.lt_of_succ_lt_succ (hfuel (i :: e.1, e.2) (mem_entries.2 hfind))
      obtain ⟨e, he⟩ := exists_mem_entries (ht.2 i) hi
      obtain ⟨fuel, rfl⟩ := Nat.exists_eq_succ_of_ne_zero (Nat.ne_zero_of_lt (hkeys e he))
      have hrest := ih i (ht.2 i) (p ++ [i]) fuel (Nat.succ_pos _) hkeys
      rw [length_append, length_singleton] at hrest
      rw [hash256aux, hrest]
      rfl
    have hshared := sharedPre_eq p first second rest
    rw [hcommon, Nat.add_zero] at hshared
    rw [hentries]
    change sharedPreFrom (hexed (p ++ first.1, first.2)).1 p.length (hexed (p ++ first.1, first.2)).1.length
      (hexed (p ++ second.1, second.2) :: (under p rest).map hexed) = _ at hshared
    change hash256rlp _ (hexed (p ++ first.1, first.2) :: hexed (p ++ second.1, second.2) :: (under p rest).map hexed)
      p.length = _
    rw [hash256rlp]
    dsimp only
    rw [hshared, if_neg (lt_irrefl _)]
    have hitems : List.ofFn (fun i => ref (item (c i))) = (List.finRange 16).map fun i => ref (item (c i)) := ofFn_eq_map
    cases o with
    | some v =>
      obtain ⟨rfl, hflat⟩ : first = ([], v) ∧ second :: rest = (List.finRange 16).flatMap fun i => under [i] (c i).entries :=
        List.cons.inj hentries.symm
      have hown : p.length = (hexed (p ++ [], v)).1.length := by rw [hexed, append_nil, length_map]
      rw [← hflat] at hletters
      change enumerate _ _ _ (hexed (p ++ second.1, second.2) :: (under p rest).map hexed) = _ at hletters
      simp only [if_pos hown]
      rw [hletters, ← hitems]
      rfl
    | none =>
      have hflat : first :: second :: rest = (List.finRange 16).flatMap fun i => under [i] (c i).entries := hentries.symm
      have hfirst : first ∈ (List.finRange 16).flatMap fun i => under [i] (c i).entries := hflat ▸ mem_cons_self
      obtain ⟨i, -, hi⟩ := mem_flatMap.1 hfirst
      obtain ⟨r, -, hr⟩ := mem_under.1 (show (first.1, first.2) ∈ _ from hi)
      have hother : ¬p.length = (hexed (p ++ first.1, first.2)).1.length := by
        rw [hexed, length_map, length_append, hr]
        simp
      rw [← hflat] at hletters
      change enumerate _ _ _ (hexed (p ++ first.1, first.2) :: hexed (p ++ second.1, second.2) :: (under p rest).map
        hexed) = _ at hletters
      simp only [if_neg hother]
      rw [hletters, ← hitems]
      rfl

/-- What is stored, in the order of the keys -/
structure Lists (ds : List (Bytes × Bytes)) (m : Contents) : Prop where
  sorted : ds.Pairwise fun d d' => d.1 < d'.1
  mem : ∀ k v, (k, v) ∈ ds ↔ m k = some v

omit [Sha3] in
theorem Represents.lists (h : Represents t m) :
    Lists (byteEntries t) m := ⟨h.sorted_byteEntries, fun _ _ => h.mem_byteEntries⟩

omit [Sha3] in
theorem Lists.eq {ds ds' : List (Bytes × Bytes)} (h : Lists ds m) (h' : Lists ds' m) : ds = ds' := by
  have hnodup : ∀ {l : List (Bytes × Bytes)}, (l.Pairwise fun d d' => d.1 < d'.1) → l.Nodup := by
    intro l hl
    refine List.Pairwise.imp ?_ hl
    rintro d _ hlt rfl
    exact List.lt_irrefl _ hlt
  refine List.Perm.eq_of_pairwise (fun d d' _ _ hlt hgt => absurd (List.lt_trans hlt hgt) (List.lt_irrefl _))
    h.sorted h'.sorted ?_
  refine (perm_ext_iff_of_nodup (hnodup h.sorted) (hnodup h'.sorted)).2 ?_
  rintro ⟨k, v⟩
  exact (h.mem k v).trans (h'.mem k v).symm

theorem rlp256_byteEntries (h : Represents t m) (ht : t.Canonical) : rlp256 (byteEntries t) = some (item t) := by
  have hhexed : ((byteEntries t).map fun i => (asNibbles i.1, i.2)) = (under [] t.entries).map hexed := by
    rw [under_nil, byteEntries, map_map]
    refine map_congr_left fun e he => ?_
    obtain ⟨k, hk⟩ := h.exists_nibbles he
    rw [Function.comp, keyed, hexed, asNibbles_eq, hk, pack_nibbles]
  rw [rlp256, hhexed]
  refine hash256rlp_eq ht [] (Nat.succ_pos _) fun e he => Nat.lt_succ_of_le ?_
  have hmem : e.1.map toByte ∈ ((under [] t.entries).map hexed).map Prod.fst := by
    rw [under_nil, map_map]
    exact mem_map.2 ⟨e, he, rfl⟩
  have hle := (sublist_flatten_of_mem hmem).length_le
  rwa [length_map] at hle

/-! ### The way down -/

/-- The items of a node that `descendList` goes down to: a branch is allowed to have empty ones. -/
def links (n : Tree) : List Tree :=
  let r := RLP.of (some n)
  if r.itemCount = 2 then if isLeaf r then [] else r.items.drop 1
  else if r.itemCount = 17 then (r.items.take 16).filter fun x => !(RLP.of (some x)).isEmpty
  else []

/-- An item is a node itself, or the hash of one. -/
inductive StandsFor (s : TrieDB) : Tree → Tree → Prop
  | inLine (ts : List Tree) : StandsFor s (.list ts) (.list ts)
  | hash {h : H256} {n : Tree} : s.lookup h = some n → StandsFor s (.data h.1) n

/-- What is met on the way down from the root -/
inductive Reachable (s : TrieDB) : Tree → Prop
  | root : Reachable s (.data s.root.1)
  | link {x n y : Tree} : Reachable s x → StandsFor s x n → y ∈ links n → Reachable s y

/-- The node of the hash is in the database, and it is counted. -/
def Present (s : TrieDB) (h : H256) : Prop := ∃ n refs, s.main h = some (n, refs) ∧ 0 < refs

variable {s : TrieDB} {x y : Tree}

theorem present_of_refs (h : H256) (hrefs : 0 < s.refs h) : Present s h := by
  rw [TrieDB.refs] at hrefs
  cases hmain : s.main h with
  | none =>
    rw [hmain] at hrefs
    exact absurd hrefs (Nat.lt_irrefl 0)
  | some e =>
    rw [hmain] at hrefs
    exact ⟨e.1, e.2, hmain, hrefs⟩

/-- An item refers to a tree that is written, and what is counted for the tree is in `l`. -/
structure RefersTo (s : TrieDB) (l : List H256) (x : Tree) (u : RadixTree 16 Bytes) : Prop where
  ne_empty : u ≠ .empty
  canonical : u.Canonical
  eq : x = ref (item u)
  written : Written s u
  outer_subset : outer u ⊆ l

theorem exists_of_mem_links (ht : t.Canonical) (hs : Stored s t) (hy : y ∈ links (item t)) :
    ∃ u, RefersTo s (held t) y u := by
  cases t with
  | empty => cases hy
  | leaf k v =>
    have htwo := isTwo_of_eq (r := .of (some (item (.leaf k v)))) rfl
    rw [links] at hy
    rw [if_pos htwo.itemCount, if_pos htwo.isLeaf] at hy
    cases hy
  | ext k t =>
    have htwo := isTwo_of_eq (r := .of (some (item (.ext k t)))) rfl
    rw [links] at hy
    rw [if_pos htwo.itemCount, htwo.isLeaf, if_neg Bool.false_ne_true, htwo.items] at hy
    exact ⟨t, ht.2.1.ne_empty, ht.2.2, mem_singleton.1 hy, hs, List.Subset.refl _⟩
  | branch c o =>
    have hbranch := isSeventeen_of_eq (r := .of (some (item (.branch c o)))) rfl
    rw [links] at hy
    rw [if_neg (by rw [hbranch.itemCount]; decide), if_pos hbranch.itemCount, hbranch.items, branchItems,
      take_left' length_ofFn, mem_filter, mem_ofFn] at hy
    obtain ⟨⟨i, rfl⟩, hempty⟩ := hy
    refine ⟨c i, fun hc => ?_, ht.2 i, rfl, hs i, fun h hh => mem_flatMap.2 ⟨i, mem_finRange i, hh⟩⟩
    rw [(isEmpty_iff (t := c i) rfl).2 hc] at hempty
    cases hempty

theorem StandsFor.lookup_eq {h : H256} {n : Tree} (hn : StandsFor s (.data h.1) n) : s.lookup h = some n := by
  generalize hx : Tree.data h.1 = x at hn
  cases hn with
  | inLine ts => cases hx
  | hash hlookup => rwa [Subtype.ext (Tree.data.inj hx)]

variable {u : RadixTree 16 Bytes} {l : List H256}

/-- What refers to a tree stands for its root node. -/
theorem RefersTo.eq_item {n : Tree} (h : RefersTo s l x u) (hn : StandsFor s x n) (hno : NoCollision s) : n = item u := by
  obtain ⟨ts, -, hitem⟩ := exists_item_eq h.ne_empty
  have hx := h.eq
  by_cases hlen : (item u).encode.length < 32
  · rw [ref, if_pos hlen, hitem] at hx
    rw [hitem]
    cases hn with
    | inLine ts => exact hx
    | hash _ => cases hx
  · rw [ref, if_neg hlen] at hx
    rw [hx] at hn
    have hlookup := hn.lookup_eq
    rw [lookup_hashOf hno (h.written.1 (not_lt.1 hlen))] at hlookup
    exact (Option.some_inj.1 hlookup).symm

theorem Rooted.exists_of_reachable (h : Rooted s m t) (hno : NoCollision s) (hx : Reachable s x) :
    x = .data s.root.1 ∨ ∃ u, RefersTo s (held t) x u := by
  induction hx with
  | root => exact .inl rfl
  | @link x n y _ hstands hy ih =>
    refine .inr ?_
    rcases ih with rfl | ⟨u, hu⟩
    · have hlookup := hstands.lookup_eq
      rw [h.root, lookup_hashOf hno h.inserted] at hlookup
      rw [← Option.some_inj.1 hlookup] at hy
      exact exists_of_mem_links h.canonical h.stored hy
    · rw [hu.eq_item hstands hno] at hy
      obtain ⟨u', hu'⟩ := exists_of_mem_links hu.canonical hu.written.2 hy
      exact ⟨u', { hu' with outer_subset := fun h hh => hu.outer_subset (mem_append_right _ (hu'.outer_subset hh)) }⟩

/-- No node is missing. -/
theorem Rooted.present (h : Rooted s m t) (hcovers : Covers s (counted t)) (hno : NoCollision s) (hx : Reachable s x) :
    (∃ ts, x = .list ts) ∨ ∃ h : H256, x = .data h.1 ∧ Present s h := by
  rcases h.exists_of_reachable hno hx with rfl | ⟨u, hu⟩
  · refine .inr ⟨s.root, rfl, present_of_refs _ (hcovers.refs_pos ?_)⟩
    rw [h.root]
    exact mem_cons_self
  · rw [hu.eq]
    by_cases hlen : (item u).encode.length < 32
    · obtain ⟨ts, -, hitem⟩ := exists_item_eq hu.ne_empty
      rw [ref, if_pos hlen]
      exact .inl ⟨ts, hitem⟩
    · have hmem : hashOf (item u) ∈ outer u := by
        rw [outer, referred, if_neg hlen]
        exact mem_cons_self
      rw [ref, if_neg hlen]
      exact .inr ⟨_, rfl, present_of_refs _ (hcovers.refs_pos (mem_cons_of_mem _ (hu.outer_subset hmem)))⟩

/-! ### After a run -/

/-- The trie is a map, its root is the one that is written from the entries, and no node behind the root is missing. -/
structure IsMap (s : TrieDB) (m : Contents) : Prop where
  at_eq : ∀ k, eval (at_ k).run s = .ok ((m k).getD [])
  finite : ∃ ds, Lists ds m
  root : ∀ ds, Lists ds m → hash256 ds = some s.root
  present : ∀ x, Reachable s x → (∃ ts, x = .list ts) ∨ ∃ h : H256, x = .data h.1 ∧ Present s h

theorem Counts.isMap (h : Counts s m) (hno : NoCollision s) : IsMap s m := by
  obtain ⟨t, ht, hcovers⟩ := h
  refine ⟨ht.eval_at hno, ⟨_, ht.represents.lists⟩, fun ds hds => ?_, fun x => ht.present hcovers hno⟩
  rw [hds.eq ht.represents.lists, hash256, rlp256_byteEntries ht.represents ht.canonical, ht.root]
  rfl

/-- After a run with keys that are no proper prefixes of one another, the trie is the map that the run makes, and any other
run that makes this map ends with the same root. -/
theorem map_with_canonical_root {ops : List Op} {root : H256} (hkeys : KeysApart ops)
    (hno : NoCollision (after (do init; runAll ops).run (.empty root))) :
    ∃ s, (do init; runAll ops).run (.empty root) = .ok () s ∧ IsMap s (contents ops) ∧
      ∀ ops' root', KeysApart ops' → NoCollision (after (do init; runAll ops').run (.empty root')) →
        contents ops' = contents ops → (after (do init; runAll ops').run (.empty root')).root = s.root := by
  have hruns : ∀ ops' root', KeysApart ops' → NoCollision (after (do init; runAll ops').run (.empty root')) →
      ∃ s, (do init; runAll ops').run (.empty root') = .ok () s ∧ IsMap s (contents ops') := by
    intro ops' root' hkeys' hno'
    obtain ⟨_, s, heq, -, hcounts⟩ := (hkeys'.does_runAll root').run hno'
    rw [after, heq] at hno'
    exact ⟨s, heq, hcounts.isMap hno'⟩
  obtain ⟨s, heq, hmap⟩ := hruns ops root hkeys hno
  refine ⟨s, heq, hmap, fun ops' root' hkeys' hno' hsame => ?_⟩
  obtain ⟨s', heq', hmap'⟩ := hruns ops' root' hkeys' hno'
  obtain ⟨ds, hds⟩ := hmap.finite
  have hroot := hmap'.root ds (hsame ▸ hds)
  rw [hmap.root ds hds] at hroot
  rw [after, heq']
  exact (Option.some_inj.1 hroot).symm

end

attribute [local instance] padded

/-- An entry comes and goes, another one stays. -/
def insertsAndRemoval : List Op := [.insert [0x12] [1], .insert [0x13] [2], .remove [0x12]]

theorem map_with_canonical_root_one : ∃ s, (do init; runAll insertsAndRemoval).run (.empty noRoot) = .ok () s ∧
    IsMap s (contents insertsAndRemoval) ∧
    ∀ ops' root', KeysApart ops' → NoCollision (after (do init; runAll ops').run (.empty root')) → contents ops' =
      contents insertsAndRemoval → (after (do init; runAll ops').run (.empty root')).root = s.root := by
  have hapart : KeysApart insertsAndRemoval := by
    unfold KeysApart
    decide
  have hno : NoCollision (after (do init; runAll insertsAndRemoval).run (.empty noRoot)) := by
    have hnodup : ((after (do init; runAll insertsAndRemoval).run (.empty noRoot)).inserted.map fun t =>
        (hashOf t).1).Nodup := by decide
    intro t ht t' ht' heq
    exact inj_on_of_nodup_map hnodup ht ht' (congrArg Subtype.val heq)
  exact map_with_canonical_root hapart hno

end Kmdx.Trie
