import Kmdx.Receipts.TransactionReceipt
import Kmdx.Rlp.RoundTrip

/-!
# Receipts survive

What a receipt is written as is read as the receipt again, so that two receipts are never written the same; and the bloom has
the address and the topics of each log in it, so a filter does not turn down a receipt for its bloom that has a log it looks
for.
-/

namespace Kmdx

open Rlp Chain P2p ExceptRules Wp List

/-! ### What is written -/

/-- The items of a log -/
def LogEntry.parts (e : LogEntry) : List Tree :=
  [.data (hashBytes 20 e.address), .list (e.topics.map fun t => .data (hashBytes 32 t)), .data e.data]

def LogEntry.tree (e : LogEntry) : Tree := .list e.parts

theorem writes_topics (topics : List U256) :
    Writes (topics.map fun t => .append (hashBytes 32 t) false) (topics.map fun t => .data (hashBytes 32 t)) := by
  induction topics with
  | nil => exact .nil
  | cons t topics ih => exact .append _ ih

theorem writes_log (e : LogEntry) : Writes e.streamRLP [e.tree] := by
  have htopics := (writes_topics e.topics).singleton
  rw [length_map] at htopics
  exact (Writes.append _ (htopics.concat (.append e.data .nil))).singleton

theorem writes_logs (logs : List LogEntry) : Writes (logs.flatMap LogEntry.streamRLP) (logs.map LogEntry.tree) := by
  induction logs with
  | nil => exact .nil
  | cons e logs ih =>
    rw [flatMap_cons, map_cons]
    exact (writes_log e).concat ih

namespace Receipts

/-- The first item of a receipt -/
def firstTree : BitVec 8 ⊕ FixedHash 32 → Tree
  | .inl status => .int status.toNat
  | .inr root => .data (hashBytes 32 root)

namespace TransactionReceipt

/-- The items of a receipt -/
def parts (r : TransactionReceipt) : List Tree :=
  [firstTree r.statusCodeOrStateRoot, .int r.gasUsed.toNat, .data (hashBytes 256 r.bloom), .list (r.log.map LogEntry.tree)]

/-- What is written is in a vector, which does not have as many bytes. -/
def Fits (r : TransactionReceipt) : Prop := (Tree.payload r.parts).length < lengthLimit

theorem writes_receipt (r : TransactionReceipt) : Writes r.streamRLP [.list r.parts] := by
  have hlogs := (writes_logs r.log).singleton
  rw [length_map] at hlogs
  have hgas := toNat_lt_intLimit r.gasUsed le_rfl
  cases hfirst : r.statusCodeOrStateRoot with
  | inl status =>
    have hstatus := toNat_lt_intLimit status (by decide)
    rw [streamRLP, parts, hfirst]
    exact (Writes.int _ hstatus (.int _ hgas (.append _ hlogs))).singleton
  | inr root =>
    rw [streamRLP, parts, hfirst]
    exact (Writes.append _ (.int _ hgas (.append _ hlogs))).singleton

variable {r : TransactionReceipt}

theorem rlp_eq (h : r.Fits) : r.rlp = .ok (Tree.list r.parts).encode := output_of_writes (writes_receipt r) h

end TransactionReceipt

/-! ### What is read -/

section
variable {α : Type} {d : Bytes} {is : List Bytes}

theorem reads_reading {x : Rlp.M α} {a : α} (h : Reads d is x (.ok a)) : Reads d is (reading x) (.ok a) := by
  intro r hdata hremembers
  have hx := h r hdata hremembers
  rw [wp, reading, EStateM.adaptExcept]
  cases hr : x r with
  | ok b r' =>
    obtain ⟨hb, hr'⟩ := wp_ok hx hr
    exact ⟨congrArg _ (Except.ok.inj hb), hr'⟩
  | error e r' => cases (wp_error hx hr).1

theorem reads_ofExcept (y : Except ReceiptException α) : Reads d is (MonadExcept.ofExcept y : ReadM α) y := by
  intro r hdata hremembers
  cases y <;> exact ⟨rfl, hdata, hremembers⟩

theorem data_of (b : Bytes) : (RLP.of b).data = b := rfl

theorem topicOf_hashBytes (t : U256) : topicOf (bytes (hashBytes 32 t)) = .ok t := by
  have hhash : toHash (bytes (hashBytes 32 t)) 32 laissezFaire = .ok (hashBytes 32 t) :=
    @toHash_hashBytes 32 laissezFaire (by decide) t
  have href : ofRef 32 (hashBytes 32 t) = t := @ofRef_hashBytes 32 t
  rw [topicOf, hhash, ok_bind, href]
  rfl

theorem mapM_topicOf (topics : List U256) :
    (topics.map fun t => RLP.of (bytes (hashBytes 32 t))).mapM (fun i => topicOf i.data) = .ok topics := by
  induction topics with
  | nil => rfl
  | cons t topics ih =>
    rw [map_cons, mapM_cons, data_of, topicOf_hashBytes, ok_bind, ih]
    rfl

variable (hitem : ∀ k, Reads d is (item k) (.ok (RLP.of (is.getD k []))))
include hitem

theorem reads_topicsAt {k : Nat} {topics : List U256} (hfits : (Tree.list (topics.map fun t => .data (hashBytes 32 t))).Fits)
    (hget : is.getD k [] = (Tree.list (topics.map fun t => .data (hashBytes 32 t))).encode) :
    Reads d is (topicsAt k) (.ok topics) := by
  have hlist := isListOf_encode hfits
  have helements : elements (is.getD k []) = .ok (topics.map fun t => RLP.of (bytes (hashBytes 32 t))) := by
    rw [hget, hlist.elements (splits_payload hfits), map_map, map_map]
    rfl
  have hislist : isList (is.getD k []) = true := hget ▸ hlist.isList
  have hlift : Reads d is (liftM (elements (is.getD k []))) (elements (is.getD k [])) := .lift _
  have hmapM := Reads.mapM (fun r => (Reads.lift (topicOf r.data) : Reads d is _ _))
      (topics.map fun t => RLP.of (bytes (hashBytes 32 t)))
  rw [mapM_topicOf] at hmapM
  refine (hitem k).bind_ok ?_
  show Reads d is (if isList (is.getD k []) = true then _ else _) _
  rw [if_pos hislist]
  exact (helements ▸ hlift : Reads d is (liftM (elements (is.getD k []))) (.ok _)).bind_ok hmapM

theorem reads_readLog {e : LogEntry} (hcount : itemCount d = .ok 3)
    (htopics : (Tree.list (e.topics.map fun t => .data (hashBytes 32 t))).Fits) (hdata : e.data.length < lengthLimit)
    (his : is = e.parts.map Tree.encode) : Reads d is readLog (.ok e) := by
  have hwhole : Reads d is (TransactionBase.whole itemCount) (.ok 3) := hcount ▸ TransactionBase.reads_whole itemCount
  have haddress : is.getD 0 [] = bytes (hashBytes 20 e.address) := by
    rw [his, LogEntry.parts, map_cons, getD_cons_zero, Tree.encode]
  have hget : is.getD 1 [] = (Tree.list (e.topics.map fun t => .data (hashBytes 32 t))).encode := by
    rw [his, LogEntry.parts, map_cons, getD_cons_succ, map_cons, getD_cons_zero]
  have hbytes : is.getD 2 [] = bytes e.data := by
    rw [his, LogEntry.parts, map_cons, getD_cons_succ, map_cons, getD_cons_succ, map_cons,
      getD_cons_zero, Tree.encode]
  refine (reads_reading hwhole).bind_ok ?_
  rw [if_neg (not_not.2 rfl)]
  refine (reads_reading (@reads_hashAt 20 d is 0 e.address (by decide) (hitem 0) haddress)).bind_ok ?_
  refine (reads_reading (reads_topicsAt hitem htopics hget)).bind_ok ?_
  exact (reads_reading (reads_at (toBytes ·) (hitem 2) hbytes (toBytes_bytes hdata))).bind_ok (.pure e)

end

theorem eval_readLog {e : LogEntry} (h : e.tree.Fits) : eval readLog (RLP.of e.tree.encode) = .ok e := by
  have hmem : ∀ t ∈ e.parts, t.Fits := fun t ht => Tree.fits_of_mem h ht
  have hcount := (isListOf_encode h).itemCount (splits_payload h)
  rw [length_map] at hcount
  exact (reads_readLog (reads_item h) hcount (hmem _ (by simp [LogEntry.parts]))
    (hmem (.data e.data) (by simp [LogEntry.parts])) rfl).eval

theorem mapM_readLog {logs : List LogEntry} (h : (Tree.list (logs.map LogEntry.tree)).Fits) :
    (logs.map fun e => RLP.of e.tree.encode).mapM (eval readLog) = .ok logs := by
  have hmem : ∀ e ∈ logs, e.tree.Fits := fun e he => Tree.fits_of_mem h (mem_map_of_mem he)
  clear h
  induction logs with
  | nil => rfl
  | cons e logs ih =>
    rw [map_cons, mapM_cons, eval_readLog (hmem e mem_cons_self), ok_bind,
      ih fun e he => hmem e (mem_cons_of_mem _ he)]
    rfl

namespace TransactionReceipt

variable {r : TransactionReceipt} {d : Bytes} {is : List Bytes}
    (hitem : ∀ k, Reads d is (item k) (.ok (RLP.of (is.getD k []))))
include hitem

/-- A status code is too short to be taken for a root. -/
theorem reads_readFirst {first : BitVec 8 ⊕ FixedHash 32} (hget : is.getD 0 [] = (firstTree first).encode) :
    Reads d is readFirst (.ok first) := by
  cases first with
  | inl status =>
    have hlt : status.toNat < 256 ^ 1 := status.isLt
    have hlen := length_compact_le hlt (by decide)
    have hnat : is.getD 0 [] = bytes (compact status.toNat) := by rw [hget, firstTree, Tree.int, Tree.encode]
    have hdata : isData (is.getD 0 []) = true := hnat ▸ isData_bytes hlen.1
    have hint : isInt (bytes (compact status.toNat)) = .ok true := by
      rw [isInt_bytes hlen.1, decide_eq_true (head?_compact _)]
    have hstatus : BitVec.ofNat 8 status.toNat = status := by rw [BitVec.ofNat_toNat, BitVec.setWidth_eq]
    refine (reads_reading (hitem 0)).bind_ok ?_
    rw [data_of, hdata]
    refine (reads_reading (reads_at (length ·) (hitem 0) hnat (length_bytes hlen.1))).bind_ok ?_
    rw [if_neg (by omega)]
    refine (reads_reading (reads_at (isInt ·) (hitem 0) hnat hint)).bind_ok ?_
    refine (reads_reading (reads_intAt hlt (by decide) (hitem 0) hnat)).bind_ok ?_
    rw [hstatus]
    exact .pure _
  | inr root =>
    have hlen : (hashBytes 32 root).length = 32 := length_hashBytes root
    have hlt : (hashBytes 32 root).length < lengthLimit := hlen.trans_lt (by decide)
    have hroot : is.getD 0 [] = bytes (hashBytes 32 root) := by rw [hget, firstTree, Tree.encode]
    have hdata : isData (is.getD 0 []) = true := hroot ▸ isData_bytes hlt
    refine (reads_reading (hitem 0)).bind_ok ?_
    rw [data_of, hdata]
    refine (reads_reading (reads_at (length ·) (hitem 0) hroot (length_bytes hlt))).bind_ok ?_
    rw [if_pos hlen]
    exact (reads_reading (reads_hashAt (by decide) (hitem 0) hroot)).bind_ok (.pure _)

theorem reads_readLogs {logs : List LogEntry} (h : (Tree.list (logs.map LogEntry.tree)).Fits)
    (hget : is.getD 3 [] = (Tree.list (logs.map LogEntry.tree)).encode) : Reads d is readLogs (.ok logs) := by
  have helements : elements (is.getD 3 []) = .ok (logs.map fun e => RLP.of e.tree.encode) := by
    rw [hget, (isListOf_encode h).elements (splits_payload h), map_map, map_map]
    rfl
  have hmapM := Reads.mapM (fun r => (reads_ofExcept (eval readLog r) : Reads d is _ _))
      (logs.map fun e => RLP.of e.tree.encode)
  rw [mapM_readLog h] at hmapM
  exact (reads_reading (reads_at (fun i => elements i) (hitem 3) rfl helements)).bind_ok hmapM

omit hitem

theorem read_encode (h : r.Fits) : read (Tree.list r.parts).encode = .ok r := by
  have hmem : ∀ t ∈ r.parts, t.Fits := fun t ht => Tree.fits_of_mem h ht
  have hlist := isListOf_encode h
  have hitem := reads_item h
  have hcount := hlist.itemCount (splits_payload h)
  rw [length_map] at hcount
  have hmk : RLP.mk' (Tree.list r.parts).encode = .ok (RLP.of (Tree.list r.parts).encode) :=
    mk'_veryStrict.2 ⟨rfl, .inr (isItem_encode h)⟩
  have hparts : r.parts.map Tree.encode = [(firstTree r.statusCodeOrStateRoot).encode, nat r.gasUsed.toNat,
      bytes (hashBytes 256 r.bloom), (Tree.list (r.log.map LogEntry.tree)).encode] := by
    simp only [parts, map_cons, map_nil, Tree.int, Tree.encode, nat]
  have hgasUsed : (r.parts.map Tree.encode).getD 1 [] = nat r.gasUsed.toNat := by
    rw [hparts, getD_cons_succ, getD_cons_zero]
  have hbloom : (r.parts.map Tree.encode).getD 2 [] = bytes (hashBytes 256 r.bloom) := by
    rw [hparts, getD_cons_succ, getD_cons_succ, getD_cons_zero]
  have hlog : (r.parts.map Tree.encode).getD 3 [] = (Tree.list (r.log.map LogEntry.tree)).encode := by
    rw [hparts, getD_cons_succ, getD_cons_succ, getD_cons_succ, getD_cons_zero]
  have hgas : BitVec.ofNat 256 r.gasUsed.toNat = r.gasUsed := by rw [BitVec.ofNat_toNat, BitVec.setWidth_eq]
  have hread : Reads (Tree.list r.parts).encode (r.parts.map Tree.encode) readFields (.ok r) := by
    refine (reads_reading (TransactionBase.reads_whole fun d => .ok (isList d))).bind_ok ?_
    rw [hlist.isList]
    refine (reads_reading (hcount ▸ TransactionBase.reads_whole itemCount)).bind_ok ?_
    rw [if_neg (by simp [parts])]
    refine (reads_readFirst hitem (by rw [hparts, getD_cons_zero])).bind_ok ?_
    refine (reads_reading (reads_intAt r.gasUsed.isLt le_rfl (hitem 1) hgasUsed)).bind_ok ?_
    refine (reads_reading (reads_hashAt (by decide) (hitem 2) hbloom)).bind_ok ?_
    refine (reads_readLogs hitem (hmem (.list (r.log.map LogEntry.tree)) (by simp [parts])) hlog).bind_ok ?_
    rw [hgas]
    exact .pure r
  rw [read, hmk]
  exact hread.eval

end TransactionReceipt

/-! ### Blooms -/

variable {sha3 : Bytes → FixedHash 32} {bloom : LogBloom} {e : LogEntry} {logs : List LogEntry}

theorem contains_shiftBloom (bloom : LogBloom) (h : FixedHash 32) : containsBloom (shiftBloom bloom h) h = true :=
  decide_eq_true (contains_or_right bloom (bloomPart h))

theorem containsBloom_of_contains {b : LogBloom} {h : FixedHash 32} (hb : Contains bloom b) (hh : containsBloom b h = true) :
    containsBloom bloom h = true :=
  decide_eq_true (hb.trans (of_decide_eq_true hh))

theorem contains_bloomOf (he : e ∈ logs) : Contains (bloomOf sha3 logs) (e.bloom sha3) := by
  have hfold : bloomOf sha3 logs = (logs.map (LogEntry.bloom sha3)).foldl (· ||| ·) 0 := by rw [bloomOf, foldl_map]
  rw [hfold]
  exact contains_foldl (mem_map_of_mem he) 0

theorem bloom_eq (e : LogEntry) : e.bloom sha3 =
    (e.topics.map fun t => bloomPart (sha3 (hashBytes 32 t))).foldl (· ||| ·)
      (shiftBloom 0 (sha3 (hashBytes 20 e.address))) := by
  rw [LogEntry.bloom, foldl_map]
  rfl

theorem containsBloom_address (e : LogEntry) : containsBloom (e.bloom sha3) (sha3 (hashBytes 20 e.address)) = true := by
  refine containsBloom_of_contains ?_ (contains_shiftBloom 0 _)
  rw [bloom_eq]
  exact contains_foldl_of_left _ (contains_refl _)

theorem containsBloom_topic {t : U256} (ht : t ∈ e.topics) : containsBloom (e.bloom sha3) (sha3 (hashBytes 32 t)) = true := by
  rw [bloom_eq]
  exact decide_eq_true (contains_foldl (mem_map_of_mem ht) _)

namespace LogFilter

variable {f : LogFilter}

/-- The log is one that is looked for. -/
structure Matches (f : LogFilter) (e : LogEntry) : Prop where
  address : f.addresses = [] ∨ e.address ∈ f.addresses
  topics : ∀ i : Fin 4, f.topics i = [] ∨ ∃ t, e.topics[i.val]? = some t ∧ t ∈ f.topics i

theorem matchesTopics_eq_some_true_iff (is : List (Fin 4)) : f.matchesTopics e is = some true ↔
    ∀ i ∈ is, f.topics i = [] ∨ ∃ t, e.topics[i.val]? = some t ∧ t ∈ f.topics i := by
  induction is with
  | nil => simp [matchesTopics]
  | cons i is ih =>
    rw [forall_mem_cons, ← ih, matchesTopics]
    by_cases hempty : f.topics i = []
    · simp [hempty]
    · have hnot : ¬ (f.topics i).isEmpty = true := mt List.isEmpty_iff.1 hempty
      rw [if_neg hnot, or_iff_right hempty]
      split
      · rename_i hlt
        have hnone : e.topics[i.val]? = none := List.getElem?_eq_none_iff.2 hlt.le
        simp [hnone]
      · cases ht : e.topics[i.val]? with
        | none => simp
        | some t =>
          by_cases hmem : t ∈ f.topics i <;> simp [hmem]

/-- The loop keeps the logs that are looked for. -/
theorem matchesEntry_eq_some_true_iff : f.matchesEntry e = some true ↔ f.Matches e := by
  have hiff : f.matchesEntry e = some true ↔ (f.addresses = [] ∨ e.address ∈ f.addresses) ∧
      f.matchesTopics e (List.finRange 4) = some true := by
    rw [matchesEntry]
    by_cases hempty : f.addresses = []
    · simp [hempty]
    · by_cases hmem : e.address ∈ f.addresses <;> simp [hempty, hmem]
  rw [hiff, matchesTopics_eq_some_true_iff]
  exact ⟨fun h => ⟨h.1, fun i => h.2 i (mem_finRange i)⟩, fun h => ⟨h.address, fun i _ => h.topics i⟩⟩

theorem matchesBloom_of_matches (h : f.Matches e) (hb : Contains bloom (e.bloom sha3)) :
    f.matchesBloom sha3 bloom = true := by
  rw [matchesBloom, Bool.and_eq_true, Bool.or_eq_true, all_eq_true]
  refine ⟨?_, fun i _ => ?_⟩
  · rcases h.address with hempty | hmem
    · exact .inl (List.isEmpty_iff.2 hempty)
    · exact .inr (any_eq_true.2 ⟨e.address, hmem, containsBloom_of_contains hb (containsBloom_address e)⟩)
  · rw [Bool.or_eq_true]
    rcases h.topics i with hempty | ⟨t, ht, hmem⟩
    · exact .inl (List.isEmpty_iff.2 hempty)
    · exact .inr (any_eq_true.2 ⟨t, hmem, containsBloom_of_contains hb (containsBloom_topic (List.mem_of_getElem? ht))⟩)

end LogFilter

/-! ### Receipts that are built -/

namespace TransactionReceipt

variable {r r' : TransactionReceipt}

/-- Made by one of the constructors -/
inductive Built (sha3 : Bytes → FixedHash 32) : TransactionReceipt → Prop
  | ofStateRoot (root : FixedHash 32) (gasUsed : U256) (log : List LogEntry) : Built sha3 (ofStateRoot sha3 root gasUsed log)
  | ofStatus (status : BitVec 8) (gasUsed : U256) (log : List LogEntry) : Built sha3 (ofStatus sha3 status gasUsed log)

theorem Built.bloom_eq (h : r.Built sha3) : r.bloom = bloomOf sha3 r.log := by
  cases h <;> rfl

/-- What is written is the receipt again, and its bloom has all of its logs in it. -/
structure Survives (sha3 : Bytes → FixedHash 32) (r : TransactionReceipt) : Prop where
  decoded : ∃ d, r.rlp = .ok d ∧ read d = .ok r
  address : ∀ e ∈ r.log, containsBloom r.bloom (sha3 (hashBytes 20 e.address)) = true
  topics : ∀ e ∈ r.log, ∀ t ∈ e.topics, containsBloom r.bloom (sha3 (hashBytes 32 t)) = true
  filters : ∀ f : LogFilter, (∃ e ∈ r.log, f.Matches e) → f.matchesBloom sha3 r.bloom = true ∧
    f.matchesReceipt sha3 r = if f.isRangeFilter then some r.log else r.log.filterM f.matchesEntry

theorem Built.survives_of_fits (h : r.Built sha3) (hfits : r.Fits) : r.Survives sha3 := by
  have hcontains : ∀ e ∈ r.log, Contains r.bloom (e.bloom sha3) := fun e he => h.bloom_eq ▸ contains_bloomOf he
  refine ⟨⟨_, rlp_eq hfits, read_encode hfits⟩, fun e he => ?_, fun e he t ht => ?_, ?_⟩
  · exact containsBloom_of_contains (hcontains e he) (containsBloom_address e)
  · exact containsBloom_of_contains (hcontains e he) (containsBloom_topic ht)
  · rintro f ⟨e, he, hmatches⟩
    have hbloom : f.matchesBloom sha3 r.bloom = true := LogFilter.matchesBloom_of_matches hmatches (hcontains e he)
    exact ⟨hbloom, by rw [LogFilter.matchesReceipt, if_pos hbloom]⟩

theorem rlp_injective (hfits : r.Fits) (hfits' : r'.Fits) (h : r.rlp = r'.rlp) : r = r' := by
  rw [rlp_eq hfits, rlp_eq hfits', Except.ok.injEq] at h
  have hread := read_encode hfits
  rw [h, read_encode hfits', Except.ok.injEq] at hread
  exact hread.symm

end TransactionReceipt

/-- Receipts that are built survive, and no two of them are written the same. -/
theorem receipts_survive (sha3 : Bytes → FixedHash 32) : (∀ r : TransactionReceipt, r.Built sha3 → r.Fits → r.Survives sha3) ∧
    ∀ r r' : TransactionReceipt, r.Built sha3 → r'.Built sha3 → r.Fits → r'.Fits → r ≠ r' → r.rlp ≠ r'.rlp :=
  ⟨fun _ h hfits => h.survives_of_fits hfits, fun _ _ _ _ hfits hfits' => mt (TransactionReceipt.rlp_injective hfits hfits')⟩

/-- A hash function that only looks at the end -/
def lastBytes (b : Bytes) : FixedHash 32 := BitVec.ofNat _ (BigEndian.ofBytes b)

/-- With a log of a transfer -/
@[reducible] def transferred (status : BitVec 8) :
    TransactionReceipt := .ofStatus lastBytes status 21000 [⟨5, [7, 8], [1, 2]⟩]

theorem fits_transferred : (transferred 1).Fits ∧ (transferred 0).Fits := by
  unfold TransactionReceipt.Fits
  decide +kernel

theorem receipts_survive_transferred :
    (transferred 1).Survives lastBytes ∧ (transferred 0).Survives lastBytes ∧ (transferred 1).rlp ≠ (transferred 0).rlp := by
  obtain ⟨hsurvives, hne⟩ := receipts_survive lastBytes
  obtain ⟨hfits, hfits'⟩ := fits_transferred
  exact ⟨hsurvives _ (.ofStatus ..) hfits, hsurvives _ (.ofStatus ..) hfits',
    hne _ _ (.ofStatus ..) (.ofStatus ..) hfits hfits' (by decide +kernel)⟩

end Receipts

end Kmdx
