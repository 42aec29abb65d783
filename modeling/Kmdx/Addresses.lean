import Kmdx.State
import Kmdx.Lib.Paging
import Kmdx.Lib.SortedMap

/-!
# Addresses by pages (`libwing/State.cpp`)

A page merges what the trie's iterator gives, up to a page, with all that is changed in the cache. Its next key may be that of
a changed account, though the trie has one before that (`listsAll_iff`).
-/

namespace Kmdx

open Paging Function List

variable {H : Type} [Digest H]

/-- `sha3(address)`, as a number -/
def addressHash (H : Type) [Digest H] (a : Address) : Nat := (Digest.toU256 (sha3 (BigEndian.toBytes 20 a.toNat) : H)).toNat

namespace State

/-- `m_state` as its iterator by hashes passes it -/
structure FatTrie (s : State H) where
  hashed : SortedMap Nat Address
  mem_hashed : ∀ e, e ∈ hashed.entries ↔ e.1 = addressHash H e.2 ∧ (s.trieAt e.2).isSome

def killed (s : State H) (a : Address) : Bool :=
  match s.cache.lookup a with
  | some account => account.isDirty && !account.isAlive
  | none => false

/-- The loop over the trie. The next key is zero if it ends. -/
def fetch (s : State H) (maxResults : Nat) : List (Nat × Address) → SortedMap Nat Address → SortedMap Nat Address × Nat
  | [], addresses => (addresses, 0)
  | (hash, address) :: rest, addresses =>
    -- skip if deleted in cache
    if s.killed address then s.fetch maxResults rest addresses
    -- break when _maxResults fetched
    else if addresses.size = maxResults then (addresses, hash)
    else s.fetch maxResults rest (addresses.insert hash address)

/-- get addresses from cache with hash >= _beginHash (both new and old touched, we can't distinguish them) and order by hash
-/
def cacheAddresses (s : State H) (beginHash : Nat) : SortedMap Nat Address :=
  s.cache.entries.foldl (fun addresses i =>
    if i.2.isDirty ∧ i.2.isAlive ∧ beginHash ≤ addressHash H i.1 then addresses.emplace (addressHash H i.1)
      i.1 else addresses) ∅

/-- `addresses(h256 const& _beginHash, size_t _maxResults)` -/
def addresses (s : State H) (trie : s.FatTrie) (beginHash maxResults : Nat) : SortedMap Nat Address × Nat :=
  let (addresses, nextKey) := s.fetch maxResults (trie.hashed.lowerBound beginHash) ∅
  -- merge addresses from DB and addresses from cache
  let addresses := addresses.insertRange (s.cacheAddresses beginHash).entries
  -- if some new accounts were created in cache we need to return fewer results
  if maxResults < addresses.size then
    (addresses.take maxResults, (addresses.entries[maxResults]?.map Prod.fst).getD 0)
  else (addresses, nextKey)

/-! ### What is live -/

def changed (s : State H) (a : Address) : Bool :=
  match s.cache.lookup a with
  | some account => account.isDirty && account.isAlive
  | none => false

def inTrie (s : State H) (a : Address) : Bool := (s.trieAt a).isSome

/-- The cache has the last word on an account that is changed there. -/
def Live (s : State H) (a : Address) : Prop := s.changed a = true ∨ s.inTrie a = true ∧ s.killed a = false

variable {s : State H} {trie : s.FatTrie} {b n : Nat} {e : Nat × Address} {a : Address}

/-- An address under its hash -/
def Hashed (H : Type) [Digest H] (e : Nat × Address) : Prop := e.1 = addressHash H e.2

theorem Hashed.eq (hinj : Injective (addressHash H)) (e d : Nat × Address) (he : Hashed H e) (hd : Hashed H d)
    (hkey : e.1 = d.1) : e = d :=
  Prod.ext hkey (hinj (he.symm.trans (hkey.trans hd)))

omit [Digest H] in
theorem changed_iff : s.changed a = true ↔ ∃ account, ⟨a, account⟩ ∈ s.cache.entries ∧ account.isDirty = true ∧
    account.isAlive = true := by
  have hmem : ∀ account, s.cache.lookup a = some account ↔ ⟨a, account⟩ ∈ s.cache.entries := fun account =>
    AList.mem_lookup_iff
  rw [changed]
  constructor
  · intro h
    split at h
    · rename_i account haccount
      exact ⟨account, (hmem account).1 haccount, Bool.and_eq_true_iff.1 h⟩
    · cases h
  · rintro ⟨account, haccount, hdirty, halive⟩
    rw [(hmem account).2 haccount]
    exact Bool.and_eq_true_iff.2 ⟨hdirty, halive⟩

omit [Digest H] in
theorem not_killed_of_changed (h : s.changed a = true) : s.killed a = false := by
  rw [changed] at h
  rw [killed]
  split at h
  · rename_i account haccount
    have halive := (Bool.and_eq_true_iff.1 h).2
    simp [halive]
  · cases h

theorem cacheAddresses_eq : s.cacheAddresses b = (∅ : SortedMap Nat Address).insertRange ((s.cache.entries.filter fun i =>
    i.2.isDirty ∧ i.2.isAlive ∧ b ≤ addressHash H i.1).map fun i => (addressHash H i.1, i.1)) := by
  rw [cacheAddresses, SortedMap.insertRange, foldl_map, foldl_filter]
  simp only [decide_eq_true_eq]

theorem mem_cacheAddresses (hinj : Injective (addressHash H)) :
    e ∈ (s.cacheAddresses b).entries ↔ Hashed H e ∧ b ≤ e.1 ∧ s.changed e.2 = true := by
  rw [cacheAddresses_eq, SortedMap.mem_insertRange (Hashed.eq hinj) (fun e he => absurd he not_mem_nil)]
  · rw [SortedMap.entries_empty, or_iff_right not_mem_nil, mem_map]
    constructor
    · rintro ⟨i, hi, rfl⟩
      simp only [mem_filter, decide_eq_true_eq] at hi
      exact ⟨rfl, hi.2.2.2, changed_iff.2 ⟨i.2, hi.1, hi.2.1, hi.2.2.1⟩⟩
    · rintro ⟨hhash, hle, hchanged⟩
      obtain ⟨account, hmem, hdirty, halive⟩ := changed_iff.1 hchanged
      have hle' : b ≤ addressHash H e.2 := hhash ▸ hle
      exact ⟨⟨e.2, account⟩, by simp [hmem, hdirty, halive, hle'], Prod.ext hhash.symm rfl⟩
  · intro e he
    obtain ⟨i, -, rfl⟩ := mem_map.1 he
    rfl

/-- What is live, by hash -/
def live (s : State H) (trie : s.FatTrie) : SortedMap Nat Address :=
  SortedMap.insertRange ⟨trie.hashed.entries.filter (!s.killed ·.2), trie.hashed.sorted.filter _⟩ (s.cacheAddresses 0).entries

theorem mem_live (hinj : Injective (addressHash H)) : e ∈ (s.live trie).entries ↔ Hashed H e ∧ s.Live e.2 := by
  rw [live, SortedMap.mem_insertRange (Hashed.eq hinj)]
  · rw [mem_cacheAddresses hinj, mem_filter, trie.mem_hashed]
    simp only [Bool.not_eq_true', Nat.zero_le, true_and, Live, inTrie]
    exact ⟨fun h => h.elim (fun h => ⟨h.1.1, .inr ⟨h.1.2, h.2⟩⟩) fun h => ⟨h.1, .inl h.2⟩,
      fun h => h.2.elim (fun hchanged => .inr ⟨h.1, hchanged⟩) fun htrie => .inl ⟨⟨h.1, htrie.1⟩, htrie.2⟩⟩
  · intro e he
    exact ((trie.mem_hashed e).1 (mem_filter.1 he).1).1
  · intro e he
    exact ((mem_cacheAddresses hinj).1 he).1

/-! ### A page -/

omit [Digest H] in
theorem fetch_spec {rest : List (Nat × Address)} {addresses : SortedMap Nat Address}
    (hsorted : (addresses.entries ++ rest).Pairwise (·.1 < ·.1)) (hsize : addresses.size ≤ n) :
    (s.fetch n rest addresses).1.entries = addresses.entries ++ (rest.filter (!s.killed ·.2)).take (n - addresses.size) ∧
      (s.fetch n rest addresses).2 = (((rest.filter (!s.killed ·.2))[n - addresses.size]?).map Prod.fst).getD 0 := by
  induction rest generalizing addresses with
  | nil => simp [fetch]
  | cons e rest ih =>
    obtain ⟨hash, address⟩ := e
    rw [fetch]
    by_cases hkilled : s.killed address
    · rw [if_pos hkilled, filter_cons_of_neg (by simp [hkilled])]
      refine ih (hsorted.sublist ?_) hsize
      exact (sublist_cons_self ..).append_left _
    rw [if_neg hkilled, filter_cons_of_pos (by simpa using hkilled)]
    by_cases hfull : addresses.size = n
    · rw [if_pos hfull, hfull, Nat.sub_self]
      simp
    have hlast : (addresses.insert hash address).entries = addresses.entries ++ [(hash, address)] :=
      SortedMap.entries_insert_of_gt fun e he => (pairwise_append.1 hsorted).2.2 e he _ mem_cons_self
    have hlen : (addresses.insert hash address).size = addresses.size + 1 := by
      rw [SortedMap.size, hlast, length_append, length_singleton, SortedMap.size]
    have hsorted' : ((addresses.insert hash address).entries ++ rest).Pairwise (·.1 < ·.1) := by
      rw [hlast, append_assoc]
      exact hsorted
    have hmore := ih hsorted' (by rw [hlen]; omega)
    rw [if_neg hfull, hmore.1, hmore.2, hlast, hlen, append_assoc,
      show n - addresses.size = n - (addresses.size + 1) + 1 by omega, take_succ_cons, List.getElem?_cons_succ]
    exact ⟨rfl, rfl⟩

section

variable (hinj : Injective (addressHash H))
include hinj

/-- What the iterator passes from a key on, without the killed -/
theorem lowerBound_eq (trie : s.FatTrie) (b : Nat) :
    (trie.hashed.lowerBound b).filter (!s.killed ·.2) = ((s.live trie).entries.filter (b ≤ ·.1)).filter (s.inTrie ·.2) := by
  rw [SortedMap.lowerBound_eq]
  refine SortedMap.eq_of_mem_iff ((trie.hashed.sorted.filter _).filter _)
    (((s.live trie).sorted.filter _).filter _) fun e => ?_
  simp only [mem_filter, trie.mem_hashed, mem_live hinj, decide_eq_true_eq, Bool.not_eq_true', Live]
  constructor
  · rintro ⟨⟨⟨hhash, htrie⟩, hle⟩, hkilled⟩
    exact ⟨⟨⟨hhash, .inr ⟨htrie, hkilled⟩⟩, hle⟩, htrie⟩
  · rintro ⟨⟨⟨hhash, hlive⟩, hle⟩, htrie⟩
    exact ⟨⟨⟨hhash, htrie⟩, hle⟩, hlive.elim not_killed_of_changed And.right⟩

theorem cover_live : ∀ e ∈ (s.live trie).entries, s.inTrie e.2 = true ∨ s.changed e.2 = true := by
  intro e he
  rcases ((mem_live hinj).1 he).2 with hchanged | ⟨htrie, -⟩
  · exact .inr hchanged
  · exact .inl htrie

/-- A page before it is cut off -/
theorem insertRange_eq {addresses : SortedMap Nat Address}
    (hfetch : addresses.entries = (((s.live trie).entries.filter (b ≤ ·.1)).filter (s.inTrie ·.2)).take n) :
    (addresses.insertRange (s.cacheAddresses b).entries).entries =
      merged (s.inTrie ·.2) (s.changed ·.2) n ((s.live trie).entries.filter (b ≤ ·.1)) := by
  have hsorted : ((s.live trie).entries.filter (b ≤ ·.1)).Pairwise (·.1 < ·.1) := (s.live trie).sorted.filter _
  have hhashed : ∀ e ∈ (s.live trie).entries, Hashed H e := fun e he => ((mem_live hinj).1 he).1
  refine SortedMap.eq_of_mem_iff (SortedMap.sorted _) (hsorted.sublist (merged_sublist n _)) fun e => ?_
  rw [SortedMap.mem_insertRange (Hashed.eq hinj), hfetch,
    mem_merged fun e he => cover_live hinj e (mem_filter.1 he).1]
  · refine or_congr_right ?_
    simp only [mem_cacheAddresses hinj, mem_filter, mem_live hinj, decide_eq_true_eq, Live]
    tauto
  · intro e he
    rw [hfetch] at he
    exact hhashed e (mem_filter.1 (mem_filter.1 (mem_of_mem_take he)).1).1
  · intro e he
    exact ((mem_cacheAddresses hinj).1 he).1

theorem pagesOf (trie : s.FatTrie) (hn : 1 ≤ n) :
    PagesOf (s.inTrie ·.2) (s.changed ·.2) Prod.fst (s.live trie).entries n fun b =>
      ((s.addresses trie b n).1.entries, (s.addresses trie b n).2) := by
  have hpage : ∀ b, (s.addresses trie b n).1.entries = ((s.live trie).entries.filter (b ≤ ·.1)).take n ∧
      (s.addresses trie b n).2 =
        ((Paging.next (s.inTrie ·.2) (s.changed ·.2) n ((s.live trie).entries.filter (b ≤ ·.1))).map Prod.fst).getD 0 := by
    intro b
    have hsorted : ((∅ : SortedMap Nat Address).entries ++ trie.hashed.lowerBound b).Pairwise (·.1 < ·.1) := by
      rw [SortedMap.lowerBound_eq]
      exact trie.hashed.sorted.filter _
    have hfetch := fetch_spec (s := s) (n := n) hsorted (Nat.zero_le n)
    rw [lowerBound_eq hinj, SortedMap.entries_empty, nil_append, show (∅ : SortedMap Nat Address).size = 0 from rfl,
      Nat.sub_zero] at hfetch
    have hmerged := insertRange_eq hinj hfetch.1
    have htake : (merged (s.inTrie ·.2) (s.changed ·.2) n ((s.live trie).entries.filter (b ≤ ·.1))).take n =
        ((s.live trie).entries.filter (b ≤ ·.1)).take n := take_merged le_rfl _
    rw [addresses]
    dsimp only
    rw [SortedMap.size, hmerged]
    split_ifs with hlong
    · rw [Paging.next, List.getElem?_eq_getElem hlong, Option.some_or]
      exact ⟨(congrArg (List.take n) hmerged).trans htake, rfl⟩
    · have hnone : (merged (s.inTrie ·.2) (s.changed ·.2) n ((s.live trie).entries.filter (b ≤ ·.1)))[n]? = none :=
        List.getElem?_eq_none (not_lt.1 hlong)
      rw [Paging.next, hnone, Option.none_or]
      refine ⟨?_, hfetch.2⟩
      rw [hmerged, ← htake, take_of_length_le (not_lt.1 hlong)]
  exact ⟨(s.live trie).sorted, cover_live hinj, hn, fun b => (hpage b).1, fun b => (hpage b).2⟩

end

/-! ### All pages -/

/-- A page, and the key of the next one -/
def page (s : State H) (trie : s.FatTrie) (n b : Nat) : List (Nat × Address) × Nat :=
  ((s.addresses trie b n).1.entries, (s.addresses trie b n).2)

structure Lists (s : State H) (n : Nat) (pages : List (List (Nat × Address))) : Prop where
  ascending : pages.flatten.Pairwise (·.1 < ·.1)
  live : ∀ e, e ∈ pages.flatten ↔ e.1 = addressHash H e.2 ∧ s.Live e.2
  short : ∀ p ∈ pages, p.length ≤ n

/-- Following the next keys from 0 comes to an end, and to all that is live. -/
def ListsAll (s : State H) (trie : s.FatTrie) (n : Nat) : Prop := ∃ pages, Visits (s.page trie n) 0 pages ∧ s.Lists n pages

/-- Of all that is live, there is a page of addresses in the trie, one behind it that is not changed and one behind that that
is. -/
def Overshoots (s : State H) (trie : s.FatTrie) (n : Nat) : Prop :=
  ∃ k, Skips (s.inTrie ·.2) (s.changed ·.2) n ((s.live trie).entries.drop (k * n))

theorem lists_iff (hinj : Injective (addressHash H)) (hn : 1 ≤ n) {pages : List (List (Nat × Address))}
    (hpages : Visits (s.page trie n) 0 pages) : s.Lists n pages ↔ pages.flatten = (s.live trie).entries := by
  constructor
  · intro h
    exact SortedMap.eq_of_mem_iff h.ascending (s.live trie).sorted fun e => (h.live e).trans (mem_live hinj).symm
  · intro h
    refine ⟨?_, fun e => ?_, (pagesOf hinj trie hn).length_le hpages⟩
    · rw [h]
      exact (s.live trie).sorted
    · rw [h]
      exact mem_live hinj

theorem ListsAll.not_overshoots (hinj : Injective (addressHash H)) (hn : 1 ≤ n) (h : s.ListsAll trie n) :
    ¬ s.Overshoots trie n := by
  obtain ⟨pages, hpages, hlists⟩ := h
  rintro ⟨k, hskips⟩
  exact ((pagesOf hinj trie hn).flatten_eq_iff hpages).1 ((lists_iff hinj hn hpages).1 hlists) k hskips

theorem listsAll_iff (hinj : Injective (addressHash H)) (hn : 1 ≤ n) :
    s.ListsAll trie n ↔ ¬ s.Overshoots trie n := by
  refine ⟨ListsAll.not_overshoots hinj hn, fun h => ?_⟩
  obtain ⟨pages, hpages⟩ := (pagesOf hinj trie hn).visits 0
  refine ⟨pages, hpages, (lists_iff hinj hn hpages).2 ?_⟩
  exact ((pagesOf hinj trie hn).flatten_eq_iff hpages).2 fun k hskips => h ⟨k, hskips⟩

/-! ### Two accounts in the trie, and a new one -/

theorem addressHash_perfect (a : Address) : addressHash PerfectDigest a = a.toNat := by
  have hlt : a.toNat < 256 ^ 20 := a.isLt
  show (BitVec.ofNat 256 (BigEndian.ofBytes (BigEndian.toBytes 20 a.toNat))).toNat = a.toNat
  rw [BigEndian.ofBytes_toBytes, Nat.mod_eq_of_lt hlt, BitVec.toNat_ofNat]
  exact Nat.mod_eq_of_lt (hlt.trans (by norm_num))

theorem addressHash_injective : Injective (addressHash PerfectDigest) := by
  intro a a' h
  rw [addressHash_perfect, addressHash_perfect] at h
  exact BitVec.eq_of_toNat_eq h

noncomputable def pending : State PerfectDigest :=
  { preExisting 0
      { (OverlayDB.empty : OverlayDB PerfectDigest) with
        stateTries := fun _ a => if a = 1 ∨ a = 2 then some ⟨0, 1, emptyTrie, emptySHA3⟩ else none }
      emptyTrie fun _ => 0 with
    cache := AList.singleton 3 (.mk' 0 1) }

theorem pending_inTrie (a : Address) : pending.inTrie a = true ↔ a = 1 ∨ a = 2 := by
  show (if a = 1 ∨ a = 2 then some _ else none : Option (AccountRlp PerfectDigest)).isSome = true ↔ _
  split_ifs with h
  · exact iff_of_true rfl h
  · exact iff_of_false Bool.false_ne_true h

theorem pending_changed (a : Address) : pending.changed a = true ↔ a = 3 := by
  rw [changed_iff]
  constructor
  · rintro ⟨account, hmem, -⟩
    exact congrArg Sigma.fst (mem_singleton.1 hmem)
  · rintro rfl
    exact ⟨.mk' 0 1, mem_singleton_self _, rfl, rfl⟩

theorem pending_killed (a : Address) : pending.killed a = false := by
  rw [killed]
  split
  · rename_i account haccount
    have hmem : (⟨a, account⟩ : (_ : Address) × Account PerfectDigest) ∈
        pending.cache.entries := AList.mem_lookup_iff.1 haccount
    have hnew : account = .mk' 0 1 := by
      cases mem_singleton.1 hmem
      rfl
    rw [hnew]
    rfl
  · rfl

theorem mem_of_hashed (as : List Address) (e : Nat × Address) :
    e ∈ as.map (fun a => (a.toNat, a)) ↔ e.1 = addressHash PerfectDigest e.2 ∧ e.2 ∈ as := by
  rw [addressHash_perfect, mem_map]
  constructor
  · rintro ⟨a, ha, rfl⟩
    exact ⟨rfl, ha⟩
  · rintro ⟨hhash, ha⟩
    exact ⟨e.2, ha, Prod.ext hhash.symm rfl⟩

noncomputable def pendingTrie : pending.FatTrie where
  hashed := ⟨[(1, 1), (2, 2)], by decide⟩
  mem_hashed e := by
    refine (mem_of_hashed [1, 2] e).trans (and_congr_right fun _ => ?_)
    rw [mem_cons, mem_singleton]
    exact (pending_inTrie e.2).symm

theorem pending_live : (pending.live pendingTrie).entries = [(1, 1), (2, 2), (3, 3)] := by
  refine SortedMap.eq_of_mem_iff (SortedMap.sorted _) (by decide) fun e => ?_
  refine (mem_live addressHash_injective).trans (Iff.trans (and_congr_right fun _ => ?_) (mem_of_hashed [1, 2, 3] e).symm)
  rw [Live, pending_changed, pending_inTrie, pending_killed, mem_cons, mem_cons, mem_singleton]
  tauto

theorem listsAll_pending : pending.ListsAll pendingTrie 3 := by
  refine (listsAll_iff addressHash_injective (by decide)).2 ?_
  rintro ⟨k, hskips⟩
  obtain ⟨t, beyond, hdrop, -⟩ := hskips.unchanged
  rw [pending_live, drop_drop, drop_eq_nil_of_le] at hdrop
  · cases hdrop
  · exact Nat.le_add_left 3 _

theorem not_listsAll : ¬ ∀ (s : State PerfectDigest) (trie : s.FatTrie) (n : Nat), 1 ≤ n → s.ListsAll trie n := by
  intro hall
  refine (hall pending pendingTrie 1 le_rfl).not_overshoots addressHash_injective le_rfl ⟨0, ?_⟩
  rw [Nat.zero_mul, drop_zero, pending_live]
  refine ⟨fun e he => ?_, (2, 2), [(3, 3)], rfl, ?_, (3, 3), mem_singleton_self _, ?_⟩
  · rw [mem_singleton.1 he]
    exact (pending_inTrie 1).2 (.inl rfl)
  · rw [Bool.eq_false_iff]
    exact fun h => absurd ((pending_changed 2).1 h) (by decide)
  · exact (pending_changed 3).2 rfl

end State

end Kmdx
