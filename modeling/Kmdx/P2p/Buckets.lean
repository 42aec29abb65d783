import Mathlib.Data.Nat.Log
import Kmdx.Lib.Runs
import Kmdx.P2p.Evictions

/-!
# The buckets

A bucket refers to entries without keeping them, and what `addNode` takes out of the table of a known node stays in its
bucket. Where nobody else holds it, it is dead there; else its node is in the bucket twice. That, and nodes whose hash is so
close to the own one that the distance is zero, is all that puts the buckets in disorder (`buckets_right_iff`).
-/

namespace Kmdx.P2p

open Function List

/-! ### The distance -/

/-- How often a number can be shifted to something that is not zero. -/
def shifts (d : Nat) : Nat := if d / 2 = 0 then 0 else shifts (d / 2) + 1

theorem shifts_lt {d n : Nat} (h : d < 2 ^ (n + 1)) : shifts d ≤ n := by
  induction n generalizing d with
  | zero =>
    rw [shifts, if_pos]
    omega
  | succ n ih =>
    rw [shifts]
    split
    · exact Nat.zero_le _
    · exact Nat.succ_le_succ (ih (by rw [Nat.pow_succ] at h; omega))

/-- `NodeTable::distance` -/
def NodeTable.distance {K : Type} (sha3 : K → BitVec 256) (a b : K) : Nat := shifts (sha3 a ^^^ sha3 b).toNat

theorem NodeTable.distance_le {K : Type} (sha3 : K → BitVec 256) (a b : K) : distance sha3 a b ≤ 255 :=
  shifts_lt (sha3 a ^^^ sha3 b).isLt

/-- With the distance of hashes -/
def NodeSetting.hashed {K A : Type} (c : NodeSetting K A) (sha3 : K → BitVec 256) : NodeSetting K A :=
  { c with distance := NodeTable.distance sha3 }

namespace NodeTable

variable {K A : Type} {c : NodeSetting K A} {s s' s₁ t : NodeTable K A} {id : K} {r i : Nat}

def s_bins : Nat := 255

/-! ### What is promised -/

/-- The entries of a bucket that are alive. -/
def live (s : NodeTable K A) (i : Nat) : List Nat := (s.buckets i).filter s.alive

structure BucketsRight (c : NodeSetting K A) (s : NodeTable K A) : Prop where
  length_le : ∀ i, (s.buckets i).length ≤ s_bucketSize
  entry : ∀ i, ∀ r ∈ s.live i, s.nodes (s.entries r).id = some r ∧ (s.entries r).id ≠ c.id ∧
    c.distance c.id (s.entries r).id = i + 1
  once : ∀ i, ((s.live i).map fun r => (s.entries r).id).Nodup
  apart : ∀ i j, ∀ r ∈ s.live i, ∀ r' ∈ s.live j, (s.entries r).id = (s.entries r').id → i = j
  index : ∀ id, (s.nodes id).isSome → id ≠ c.id → bucket c id < s_bins

/-! ### Runs -/

section

variable [DecidableEq K] [DecidableEq A]

/-- What is done with a table. -/
inductive Op (K A : Type)
  | addKnownNode (id : K) (endpoint : NodeIPEndpoint A)
  | addNode (id : K) (endpoint : NodeIPEndpoint A)
  | onReceived (sourceid : K) (address : A) (port : Nat) (isExpired : Bool) (packet : Packet K A)
  | dropNode (r : Nat)
  | checkEvictions (due : Nat)
  /-- Others take entries and give them back: discovery rounds, and the callers of `addNode`. -/
  | others (isOpen : Bool) (taken released : List Nat) (asked : List (K × Nat))

/-- An operation at a time. Entries are taken as long as they are alive, and nobody drops the node itself. -/
def step (c : NodeSetting K A) (s : NodeTable K A) (o : Nat × Op K A) : Option (NodeTable K A) :=
  if o.1 < s.now then none
  else
    let s := { s with now := o.1 }
    match o.2 with
    | .addKnownNode id endpoint => some (s.addKnownNode c id endpoint)
    | .addNode id endpoint => some (s.addNode c id endpoint)
    | .onReceived sourceid address port isExpired packet => some (s.onReceived c sourceid address port isExpired packet o.1)
    | .dropNode r => if s.alive r ∧ (s.entries r).id ≠ c.id then some (s.dropNode c r) else none
    | .checkEvictions due =>
      if due ∈ s.checks ∧ due ≤ o.1 then some ({ s with checks := s.checks.erase due }.checkEvictions c o.1) else none
    | .others isOpen taken released asked =>
      if ∀ r ∈ taken, s.alive r then
        some { s with
          isOpen
          held := fun r => decide (r ∈ taken) || s.held r && decide (r ∉ released)
          findNodeTimeout := s.findNodeTimeout ++ asked }
      else none

/-- What `addNode` is asked to add. -/
def asked (s : NodeTable K A) (o : Nat × Op K A) : List (K × NodeIPEndpoint A) :=
  let s := { s with now := o.1 }
  match o.2 with
  | .addNode id endpoint => [(id, endpoint)]
  | .onReceived sourceid address port false packet =>
    match packet with
    | .pingNode source => [(sourceid, { source with address, udpPort := port })]
    | .neighbours nodes => if s.expected sourceid then nodes else []
    | .pong _ =>
      if (s.foundEviction sourceid).isNone && (s.nodes sourceid).isNone && s.pubkDiscoverPings address then
        [(sourceid, ⟨address, port, port⟩)]
      else []
    | .findNode _ => []
  | _ => []

/-- A node that `addNode` adds of these, or has already. -/
def Wants (c : NodeSetting K A) (l : List (K × NodeIPEndpoint A)) (id : K) : Prop :=
  ∃ endpoint, (id, endpoint) ∈ l ∧ isSet c endpoint ∧ id ≠ c.unspecified

/-- The nodes that an operation has the table know. -/
def Names (c : NodeSetting K A) (s : NodeTable K A) (o : Nat × Op K A) (id : K) : Prop :=
  (∃ endpoint, o.2 = .addKnownNode id endpoint) ∨ Wants c (asked s o) id

/-- No other node is as near as ourselves, and what is taken out of the table is held by nobody while it is in a bucket. -/
structure Meets (c : NodeSetting K A) (s : NodeTable K A) (o : Nat × Op K A) : Prop where
  far : ∀ id, Names c s o id → id ≠ c.id → c.distance c.id id ≠ 0
  free : ∀ id endpoint, o.2 = .addKnownNode id endpoint → ∀ r, s.nodes id = some r → s.held r →
    ∀ i, r ∉ s.buckets i

end

/-! ### What always holds -/

/-- References are to entries, and a bucket has entries of its own distance. -/
structure Tabled (c : NodeSetting K A) (s : NodeTable K A) : Prop where
  id_eq : ∀ {id r}, s.nodes id = some r → (s.entries r).id = id
  lt_of_nodes : ∀ {id r}, s.nodes id = some r → r < s.fresh
  lt_of_held : ∀ {r}, s.held r → r < s.fresh
  lt : ∀ {i r}, r ∈ s.buckets i → r < s.fresh
  bucket_eq : ∀ {i r}, r ∈ s.buckets i → bucket c (s.entries r).id = i
  ne_self : ∀ {i r}, r ∈ s.buckets i → (s.entries r).id ≠ c.id
  nodup : ∀ i, (s.buckets i).Nodup
  length_le : ∀ i, (s.buckets i).length ≤ s_bucketSize

/-- Who holds an entry that is in a bucket holds the one that the table has. -/
def Current (s : NodeTable K A) : Prop := ∀ {i r}, r ∈ s.buckets i → s.held r → s.nodes (s.entries r).id = some r

/-- No other node is as near as ourselves. -/
def Far (c : NodeSetting K A) (s : NodeTable K A) : Prop := ∀ id, (s.nodes id).isSome → id ≠ c.id → c.distance c.id id ≠ 0

theorem Tabled.lt_of_alive (h : Tabled c s) (hr : s.alive r) : r < s.fresh := by
  rcases Bool.or_eq_true_iff.1 hr with hheld | hnodes
  · exact h.lt_of_held hheld
  · exact h.lt_of_nodes (of_decide_eq_true hnodes)

/-- What is promised, but for what always holds -/
theorem bucketsRight_iff (hs : Tabled c s) (hle : ∀ a b, c.distance a b ≤ 255) : BucketsRight c s ↔ Current s ∧ Far c s := by
  have hbucket : ∀ id, bucket c id < s_bins ↔ c.distance c.id id ≠ 0 := by
    intro id
    have hlt := hle c.id id
    simp only [bucket, s_bins]
    omega
  have hlive : ∀ {i r}, r ∈ s.live i ↔ r ∈ s.buckets i ∧ s.alive r := mem_filter
  constructor
  · intro h
    refine ⟨fun {i r} hmem hheld => ?_, fun id hid hne => (hbucket id).1 (h.index id hid hne)⟩
    exact (h.entry i r (hlive.2 ⟨hmem, Bool.or_eq_true_iff.2 (.inl hheld)⟩)).1
  · rintro ⟨hcurrent, hfar⟩
    have hnodes : ∀ {i r}, r ∈ s.live i → s.nodes (s.entries r).id = some r := by
      intro i r hr
      obtain ⟨hmem, halive⟩ := hlive.1 hr
      rcases Bool.or_eq_true_iff.1 halive with hheld | hnodes
      · exact hcurrent hmem hheld
      · exact of_decide_eq_true hnodes
    refine ⟨hs.length_le, fun i r hr => ⟨hnodes hr, hs.ne_self (hlive.1 hr).1, ?_⟩, fun i => ?_,
      fun i j r hr r' hr' heq => ?_, fun id hid hne =>
      (hbucket id).2 (hfar id hid hne)⟩
    · have hne := hs.ne_self (hlive.1 hr).1
      have hzero := hfar _ (by rw [hnodes hr]; rfl) hne
      have hlt := hle c.id (s.entries r).id
      rw [← hs.bucket_eq (hlive.1 hr).1, bucket]
      omega
    · refine List.Nodup.map_on (fun r hr r' hr' heq => ?_) ((hs.nodup i).filter _)
      have h := hnodes hr
      rw [heq, hnodes hr'] at h
      exact (Option.some.inj h).symm
    · have h := hnodes hr
      rw [heq, hnodes hr'] at h
      cases h
      rw [← hs.bucket_eq (hlive.1 hr).1, ← hs.bucket_eq (hlive.1 hr').1]

/-- From `s` to `s'` the table has come to know the nodes of `names`. What it knew it still has, and nothing but what it has
got into a bucket. -/
structure Enters (c : NodeSetting K A) (names : K → Prop) (s s' : NodeTable K A) : Prop where
  ids : ∀ {r}, r < s.fresh → (s'.entries r).id = (s.entries r).id
  kept : ∀ {id r}, s.nodes id = some r → s'.nodes id = some r
  known : ∀ id, (s'.nodes id).isSome ↔ (s.nodes id).isSome ∨ names id
  held : s'.held = s.held
  fresh_le : s.fresh ≤ s'.fresh
  placed : ∀ {i r}, r ∈ s'.buckets i → r ∈ s.buckets i ∨ s'.nodes (s'.entries r).id = some r
  tabled : Tabled c s'

namespace Enters

variable {P Q : K → Prop}

theorem trans (h : Enters c P s t) (h' : Enters c Q t s') : Enters c (fun id => P id ∨ Q id) s s' where
  ids hr := (h'.ids (hr.trans_le h.fresh_le)).trans (h.ids hr)
  kept hr := h'.kept (h.kept hr)
  known id := by rw [h'.known, h.known, or_assoc]
  held := h'.held.trans h.held
  fresh_le := h.fresh_le.trans h'.fresh_le
  placed hr := by
    rcases h'.placed hr with hr | hr
    · refine (h.placed hr).imp_right fun hnodes => ?_
      rw [h'.ids (h.tabled.lt hr)]
      exact h'.kept hnodes
    · exact .inr hr
  tabled := h'.tabled

theorem congr (h : Enters c P s s') (hPQ : ∀ id, P id ↔ Q id) : Enters c Q s s' :=
  { h with known := fun id => by rw [h.known, hPQ] }

/-- What only the other fields have changed in. -/
theorem of_eq (hs : Tabled c s) (hids : ∀ r, (s'.entries r).id = (s.entries r).id) (hnodes : s'.nodes = s.nodes)
    (hheld : s'.held = s.held) (hfresh : s'.fresh = s.fresh) (hbuckets : s'.buckets = s.buckets) :
    Enters c (fun _ => False) s s' where
  ids _ := hids _
  kept hr := by rwa [hnodes]
  known id := by rw [hnodes, or_false]
  held := hheld
  fresh_le := hfresh.ge
  placed hr := .inl (by rwa [hbuckets] at hr)
  tabled := {
    id_eq := fun hr => by rw [hnodes] at hr; rw [hids, hs.id_eq hr]
    lt_of_nodes := fun hr => by rw [hnodes] at hr; rw [hfresh]; exact hs.lt_of_nodes hr
    lt_of_held := fun hr => by rw [hheld] at hr; rw [hfresh]; exact hs.lt_of_held hr
    lt := fun hr => by rw [hbuckets] at hr; rw [hfresh]; exact hs.lt hr
    bucket_eq := fun hr => by rw [hbuckets] at hr; rw [hids]; exact hs.bucket_eq hr
    ne_self := fun hr => by rw [hbuckets] at hr; rw [hids]; exact hs.ne_self hr
    nodup := fun i => by rw [hbuckets]; exact hs.nodup i
    length_le := fun i => by rw [hbuckets]; exact hs.length_le i }

theorem refl (hs : Tabled c s) : Enters c (fun _ => False) s s := of_eq hs (fun _ => rfl) rfl rfl rfl rfl

theorem trans_nothing (h : Enters c P s t) (h' : Enters c (fun _ => False) t s') : Enters c P s s' :=
  (h.trans h').congr fun _ => by rw [or_false]

theorem nothing_trans (h : Enters c (fun _ => False) s t) (h' : Enters c P t s') : Enters c P s s' :=
  (h.trans h').congr fun _ => by rw [false_or]

theorem nodes_eq (h : Enters c (fun _ => False) s s') : s'.nodes = s.nodes := by
  funext id
  cases hid : s.nodes id with
  | some r => exact h.kept hid
  | none =>
    have hknown := h.known id
    rw [hid, or_false] at hknown
    exact Option.not_isSome_iff_eq_none.1 fun h => Bool.false_ne_true (hknown.1 h)

theorem current (h : Enters c P s s') (hs : Tabled c s) (hcurrent : Current s) : Current s' := by
  intro i r hr hheld
  rcases h.placed hr with hr' | hnodes
  · rw [h.ids (hs.lt hr')]
    exact h.kept (hcurrent hr' (h.held ▸ hheld))
  · exact hnodes

theorem far_iff (h : Enters c P s s') (hs : Far c s) : Far c s' ↔ ∀ id, P id → id ≠ c.id → c.distance c.id id ≠ 0 := by
  refine ⟨fun hs' id hid => hs' id ((h.known id).2 (.inr hid)), fun hP id hid => ?_⟩
  rcases (h.known id).1 hid with hid | hid
  · exact hs id hid
  · exact hP id hid

/-- One bucket has changed, and what is new in it is in the table, and belongs there. -/
theorem of_bucket {l : List Nat} (hs : Tabled c s) (hmem : ∀ r ∈ l, r ∈ s.buckets i ∨
      s.nodes (s.entries r).id = some r ∧ bucket c (s.entries r).id = i ∧ (s.entries r).id ≠ c.id)
    (hnodup : l.Nodup) (hlength : l.length ≤ s_bucketSize) :
    Enters c (fun _ => False) s { s with buckets := update s.buckets i l } := by
  have hcases : ∀ {j r}, r ∈ update s.buckets i l j → r ∈ s.buckets j ∨
      s.nodes (s.entries r).id = some r ∧ bucket c (s.entries r).id = j ∧ (s.entries r).id ≠ c.id := by
    intro j r hr
    by_cases hj : j = i
    · subst hj
      rw [update_self] at hr
      exact hmem r hr
    · rw [update_of_ne hj] at hr
      exact .inl hr
  refine ⟨fun _ => rfl, id, fun id => by rw [or_false], rfl, le_rfl, fun hr => (hcases hr).imp_right And.left, ?_⟩
  refine ⟨hs.id_eq, hs.lt_of_nodes, hs.lt_of_held, fun hr => ?_, fun hr => ?_, fun hr => ?_, fun j => ?_, fun j => ?_⟩
  · exact (hcases hr).elim hs.lt fun h => hs.lt_of_nodes h.1
  · exact (hcases hr).elim hs.bucket_eq fun h => h.2.1
  · exact (hcases hr).elim hs.ne_self fun h => h.2.2
  · change (update s.buckets i l j).Nodup
    by_cases hj : j = i
    · rw [hj, update_self]
      exact hnodup
    · rw [update_of_ne hj]
      exact hs.nodup j
  · change (update s.buckets i l j).length ≤ s_bucketSize
    by_cases hj : j = i
    · rw [hj, update_self]
      exact hlength
    · rw [update_of_ne hj]
      exact hs.length_le j

/-! ### The parts of an operation -/

theorem addNothing (h : Enters c (fun _ => False) s s') : Enters c (Wants c []) s s' :=
  h.congr fun _ => iff_of_false not_false fun ⟨_, hmem, _⟩ => nomatch hmem

theorem dropNode (hs : Tabled c s) (r : Nat) : Enters c (fun _ => False) s (s.dropNode c r) :=
  of_bucket hs (fun _ hr => .inl (mem_of_mem_filter hr)) ((hs.nodup _).filter _)
    ((length_filter_le _ _).trans (hs.length_le _))

theorem setPending (hs : Tabled c s) (r : Nat) : Enters c (fun _ => False) s (s.setPending r) := by
  refine of_eq hs (fun r' => ?_) rfl rfl rfl rfl
  change (update s.entries r { s.entries r with pending := false } r').id = _
  by_cases hr' : r' = r
  · rw [hr', update_self]
  · rw [update_of_ne hr']

/-- What is dropped by a check. -/
theorem dropNodes (hs : Tabled c s) (l : List Nat) : Enters c (fun _ => False) s (l.foldl (fun s n => s.dropNode c n) s) := by
  induction l generalizing s with
  | nil => exact .refl hs
  | cons n l ih =>
    have hdropped := dropNode hs n
    exact hdropped.trans_nothing (ih hdropped.tabled)

theorem checkEvictions (hs : Tabled c s) (now : Nat) : Enters c (fun _ => False) s (s.checkEvictions c now) := by
  have hnow : Enters c (fun _ => False) s { s with now } := of_eq hs (fun _ => rfl) rfl rfl rfl rfl
  unfold NodeTable.checkEvictions
  extract_lets s₁ drop evictionsRemain s₂
  have hdropped : Enters c (fun _ => False) s s₂ := hnow.trans_nothing (dropNodes hnow.tabled _)
  split
  · exact hdropped.trans_nothing (of_eq hdropped.tabled (fun _ => rfl) rfl rfl rfl rfl)
  · exact hdropped

/-- An entry of the table comes to the end of its bucket, of which others may have gone. -/
theorem of_append {l : List Nat} (hs : Tabled c s) (hnodes : s.nodes (s.entries r).id = some r)
    (hne : (s.entries r).id ≠ c.id)
    (hl : ∀ r' ∈ l, r' ∈ s.buckets (bucket c (s.entries r).id)) (hnodup : l.Nodup) (hr : r ∉ l)
    (hlength : l.length < s_bucketSize) :
    Enters c (fun _ => False) s { s with buckets := update s.buckets (bucket c (s.entries r).id) (l ++ [r]) } := by
  refine of_bucket hs (fun r' hr' => ?_) (concat_eq_append ▸ hnodup.concat hr) ?_
  · rw [mem_append, mem_singleton] at hr'
    rcases hr' with hr' | rfl
    · exact .inl (hl r' hr')
    · exact .inr ⟨hnodes, rfl, hne⟩
  · rw [length_append, length_singleton]
    exact hlength

variable [DecidableEq K]

theorem tabled_addEntry (hs : Tabled c s) (id : K) (endpoint : NodeIPEndpoint A) (pending : Bool) :
    Tabled c (s.addEntry id endpoint pending) := by
  have hentry : ∀ {r}, r < s.fresh → (s.addEntry id endpoint pending).entries r = s.entries r := fun hr =>
    update_of_ne hr.ne _ _
  have hnodes : ∀ {id' r}, (s.addEntry id endpoint pending).nodes id' = some r → id' = id ∧ r = s.fresh ∨
      s.nodes id' = some r := by
    intro id' r hr
    change update s.nodes id (some s.fresh) id' = some r at hr
    by_cases hid : id' = id
    · rw [hid, update_self] at hr
      exact .inl ⟨hid, (Option.some.inj hr).symm⟩
    · rw [update_of_ne hid] at hr
      exact .inr hr
  refine ⟨fun hr => ?_, fun hr => ?_, fun hr => (hs.lt_of_held hr).trans (Nat.lt_succ_self _),
    fun hr => (hs.lt hr).trans (Nat.lt_succ_self _), fun hr => ?_, fun hr => ?_, hs.nodup, hs.length_le⟩
  · rcases hnodes hr with ⟨rfl, rfl⟩ | hr
    · change (update s.entries s.fresh _ s.fresh).id = _
      rw [update_self]
    · rw [hentry (hs.lt_of_nodes hr)]
      exact hs.id_eq hr
  · rcases hnodes hr with ⟨-, rfl⟩ | hr
    · exact Nat.lt_succ_self _
    · exact (hs.lt_of_nodes hr).trans (Nat.lt_succ_self _)
  · rw [hentry (hs.lt hr)]
    exact hs.bucket_eq hr
  · rw [hentry (hs.lt hr)]
    exact hs.ne_self hr

theorem addEntry (hs : Tabled c s) {id : K} (hid : s.nodes id = none) (endpoint : NodeIPEndpoint A) (pending : Bool) :
    Enters c (fun id' => id' = id) s (s.addEntry id endpoint pending) where
  ids hr := congrArg NodeEntry.id (update_of_ne hr.ne _ _)
  kept {id' r} hr := by
    have hne : id' ≠ id := by
      rintro rfl
      cases hid.symm.trans hr
    exact (update_of_ne hne _ _).trans hr
  known id' := by
    change (update s.nodes id (some s.fresh) id').isSome ↔ _
    by_cases h : id' = id
    · rw [h, update_self]
      exact iff_of_true rfl (.inr rfl)
    · rw [update_of_ne h, or_iff_left h]
  held := rfl
  fresh_le := Nat.le_succ _
  placed := .inl
  tabled := tabled_addEntry hs id endpoint pending

theorem evict (hs : Tabled c s) (least new : Nat) : Enters c (fun _ => False) s (s.evict least new) := by
  rw [NodeTable.evict]
  split
  · exact .refl hs
  · refine of_eq hs (fun r => ?_) ?_ ?_ ?_ ?_ <;> simp only [NodeTable.ping, doCheckEvictions] <;> split_ifs <;> rfl

/-- An entry that the table has gets into its bucket. -/
theorem noteInBucket (hs : Tabled c s) (hnodes : s.nodes (s.entries r).id = some r) (hne : (s.entries r).id ≠ c.id) :
    Enters c (fun _ => False) s (s.noteInBucket r (bucket c (s.entries r).id)) := by
  have hnodup := hs.nodup (bucket c (s.entries r).id)
  have hlength := hs.length_le (bucket c (s.entries r).id)
  rw [NodeTable.noteInBucket]
  split
  · rename_i hmem
    refine of_append hs hnodes hne (fun r' => mem_of_mem_erase) (hnodup.erase r) hnodup.not_mem_erase ?_
    rw [length_erase_of_mem hmem]
    exact (Nat.sub_lt (length_pos_of_mem hmem) Nat.one_pos).trans_le hlength
  · rename_i hmem
    split
    · exact of_append (l := []) hs hnodes hne (fun _ h => absurd h not_mem_nil) nodup_nil not_mem_nil (by decide)
    · rename_i least rest hleast
      rw [hleast] at hmem hnodup hlength
      split
      · rename_i hroom
        exact of_append hs hnodes hne (fun r' hr' => hleast ▸ hr') hnodup hmem hroom
      · split
        · exact evict hs least r
        · exact of_append hs hnodes hne (fun r' hr' => hleast ▸ mem_cons_of_mem _ hr') hnodup.of_cons
            (fun hr => hmem (mem_cons_of_mem _ hr)) hlength

theorem noteActiveNode (hs : Tabled c s) (id : K) (address : A) (port : Nat) :
    Enters c (fun _ => False) s (s.noteActiveNode c id address port) := by
  rw [NodeTable.noteActiveNode]
  split
  · exact .refl hs
  split
  · exact .refl hs
  rename_i hne _ r hr
  rw [not_or] at hne
  split
  · exact .refl hs
  · have hseen : ∀ r', (update s.entries r ((s.entries r).seen address port) r').id = (s.entries r').id := by
      intro r'
      by_cases hr' : r' = r
      · rw [hr', update_self]
        rfl
      · rw [update_of_ne hr']
    have hs' : Enters c (fun _ => False) s { s with entries := update s.entries r ((s.entries r).seen address port) } :=
      of_eq hs hseen rfl rfl rfl rfl
    have hid := hs.id_eq hr
    rw [← hseen r]
    refine hs'.trans_nothing (noteInBucket hs'.tabled ?_ ?_)
    · change s.nodes (update s.entries r _ r).id = some r
      rw [hseen, hid, hr]
    · change (update s.entries r _ r).id ≠ c.id
      rw [hseen, hid]
      exact hne.1

variable [DecidableEq A]

/-- The node that is added, if there is something to add. -/
theorem addNode (hs : Tabled c s) (id : K) (endpoint : NodeIPEndpoint A) :
    Enters c (fun id' => id' = id ∧ isSet c endpoint ∧ id ≠ c.unspecified) s (s.addNode c id endpoint) := by
  rw [NodeTable.addNode]
  split
  · rename_i hset
    refine (refl hs).congr fun id' => ?_
    exact iff_of_false not_false fun h => by simp [h.2.1] at hset
  split
  · rename_i hid
    refine Enters.congr (P := fun _ => False) ?_ fun id' => iff_of_false not_false fun h => h.2.2 hid
    exact of_eq hs (fun _ => rfl) rfl rfl rfl rfl
  rename_i hset hid
  rw [Bool.not_eq_true, Bool.not_eq_false'] at hset
  split
  · rename_i hknown
    have hsame := refl hs
    refine { hsame with known := fun id' => ?_ }
    refine (or_iff_left_of_imp ?_).symm
    rintro ⟨rfl, -⟩
    exact hknown
  · rename_i hnone
    rw [Option.not_isSome_iff_eq_none] at hnone
    have hadded := addEntry hs hnone endpoint true
    refine Enters.congr (P := fun id' => id' = id) ?_ fun id' => (and_iff_left ⟨hset, hid⟩).symm
    exact hadded.trans_nothing (of_eq hadded.tabled (fun _ => rfl) rfl rfl rfl rfl)

theorem addNodes (hs : Tabled c s) (l : List (K × NodeIPEndpoint A)) :
    Enters c (Wants c l) s (l.foldl (fun s n => s.addNode c n.1 n.2) s) := by
  induction l generalizing s with
  | nil => exact (refl hs).congr fun id => iff_of_false not_false fun ⟨_, h, _⟩ => nomatch h
  | cons n l ih =>
    have hadded := addNode hs n.1 n.2
    refine (hadded.trans (ih hadded.tabled)).congr fun id => ?_
    constructor
    · rintro (⟨rfl, h⟩ | ⟨endpoint, hmem, h⟩)
      · exact ⟨n.2, mem_cons_self, h⟩
      · exact ⟨endpoint, mem_cons_of_mem _ hmem, h⟩
    · rintro ⟨endpoint, hmem, h⟩
      rcases mem_cons.1 hmem with heq | hmem
      · rw [← heq]
        exact .inl ⟨rfl, h⟩
      · exact .inr ⟨endpoint, hmem, h⟩

/-- A pong ends an eviction, or shows that a node is there. -/
theorem onPong (hs : Tabled c s) {sourceid : K} {address : A} {port : Nat} {destination : NodeIPEndpoint A}
    (ht : s.onPong c sourceid address port destination = some t) :
    Enters c (Wants c (if (s.foundEviction sourceid).isNone && (s.nodes sourceid).isNone && s.pubkDiscoverPings address then
      [(sourceid, ⟨address, port, port⟩)] else [])) s t := by
  rw [NodeTable.onPong] at ht
  obtain ⟨s₁, hs₁, rfl⟩ := Option.map_eq_some_iff.1 ht
  have hnoted : Enters c
      (Wants c (if (s.foundEviction sourceid).isNone && (s.nodes sourceid).isNone && s.pubkDiscoverPings address then
      [(sourceid, ⟨address, port, port⟩)] else [])) s s₁ := by
    cases hfound : s.foundEviction sourceid with
    | some e =>
      rw [hfound] at hs₁
      refine addNothing ?_
      have herased : Enters c (fun _ => False) s { s with evictions := s.evictions.erase sourceid } :=
        of_eq hs (fun _ => rfl) rfl rfl rfl rfl
      dsimp only at hs₁
      cases hnew : s.nodes e.newNodeID with
      | none =>
        rw [hnew] at hs₁
        dsimp only at hs₁
        split at hs₁
        · cases hs₁
          exact herased.trans_nothing (setPending herased.tabled _)
        · cases hs₁
          exact herased
      | some n =>
        have hdropped := herased.trans_nothing (dropNode herased.tabled n)
        rw [hnew] at hs₁
        dsimp only at hs₁
        split at hs₁
        · cases hs₁
          exact hdropped.trans_nothing (setPending hdropped.tabled _)
        · cases hs₁
          exact hdropped
    | none =>
      rw [hfound] at hs₁
      dsimp only at hs₁
      cases hsource : s.nodes sourceid with
      | some n =>
        rw [hsource] at hs₁
        cases hs₁
        exact addNothing (setPending hs n)
      | none =>
        rw [hsource] at hs₁
        cases hping : s.pubkDiscoverPings address with
        | false =>
          rw [hping] at hs₁
          cases hs₁
        | true =>
          rw [hping] at hs₁
          cases hs₁
          have hnoted : Enters c (fun _ => False) s
              { s with pubkDiscoverPings := update s.pubkDiscoverPings address false } :=
            of_eq hs (fun _ => rfl) rfl rfl rfl rfl
          exact hnoted.nothing_trans (addNodes hnoted.tabled [(sourceid, ⟨address, port, port⟩)])
  exact hnoted.trans_nothing (of_eq hnoted.tabled (fun _ => rfl) rfl rfl rfl rfl)

/-- After a pong that nobody has asked for nothing is done. -/
theorem onPong_eq_none {sourceid : K} {address : A} {port : Nat} {destination : NodeIPEndpoint A}
    (h : s.onPong c sourceid address port destination = none) :
    ((s.foundEviction sourceid).isNone && (s.nodes sourceid).isNone && s.pubkDiscoverPings address) = false := by
  rw [NodeTable.onPong, Option.map_eq_none_iff] at h
  cases hfound : s.foundEviction sourceid with
  | some e => rfl
  | none =>
    rw [hfound] at h
    dsimp only at h
    cases hsource : s.nodes sourceid with
    | some n => rfl
    | none =>
      rw [hsource] at h
      cases hping : s.pubkDiscoverPings address with
      | false => rfl
      | true =>
        rw [hping] at h
        cases h

theorem onReceived (hs : Tabled c s) (sourceid : K) (address : A) (port : Nat) (isExpired : Bool)
    (packet : Packet K A) (now : Nat) :
    Enters c (Wants c (asked s (now, .onReceived sourceid address port isExpired packet))) s
      (s.onReceived c sourceid address port isExpired packet now) := by
  have hnow : Enters c (fun _ => False) s { s with now } := of_eq hs (fun _ => rfl) rfl rfl rfl rfl
  cases isExpired with
  | true => exact addNothing hnow
  | false =>
    unfold NodeTable.onReceived asked
    dsimp only
    rw [if_neg Bool.false_ne_true]
    cases packet with
    | pingNode source =>
      have hadded := hnow.nothing_trans (addNodes hnow.tabled [(sourceid, { source with address, udpPort := port })])
      have hpinged : Enters c (fun _ => False) _ (ping { source with address, udpPort := port } _) :=
        of_eq hadded.tabled (fun _ => rfl) rfl rfl rfl rfl
      have hping := hadded.trans_nothing hpinged
      exact hping.trans_nothing (noteActiveNode hping.tabled _ _ _)
    | pong destination =>
      dsimp only
      cases ht : { s with now }.onPong c sourceid address port destination with
      | none =>
        have hnothing := onPong_eq_none ht
        dsimp only at hnothing
        rw [hnothing, if_neg Bool.false_ne_true]
        exact addNothing hnow
      | some t =>
        have hpong := hnow.nothing_trans (onPong hnow.tabled ht)
        exact hpong.trans_nothing (noteActiveNode hpong.tabled _ _ _)
    | findNode target => exact addNothing (hnow.trans_nothing (noteActiveNode hnow.tabled _ _ _))
    | neighbours nodes =>
      dsimp only
      have hforgot : Enters c (fun _ => False) s { s with
          now
          findNodeTimeout := s.findNodeTimeout.filter fun t => t.1 ≠ sourceid || now - t.2 < c_reqTimeout } :=
        of_eq hs (fun _ => rfl) rfl rfl rfl rfl
      have hadded : Enters c (Wants c (if { s with now }.expected sourceid then nodes else [])) s
          (if { s with now }.expected sourceid then nodes.foldl (fun s n => s.addNode c n.1 n.2) { s with
            now
            findNodeTimeout := s.findNodeTimeout.filter fun t => t.1 ≠ sourceid || now - t.2 < c_reqTimeout }
          else { s with
            now
            findNodeTimeout := s.findNodeTimeout.filter fun t => t.1 ≠ sourceid || now - t.2 < c_reqTimeout }) := by
        split
        · exact hforgot.nothing_trans (addNodes hforgot.tabled nodes)
        · exact addNothing hforgot
      exact hadded.trans_nothing (noteActiveNode hadded.tabled _ _ _)

end Enters

theorem tabled_constructed (endpoint : NodeIPEndpoint A) (isOpen : Bool) (entries : Nat → NodeEntry K A) :
    Tabled c (constructed endpoint isOpen entries) :=
  ⟨nofun, nofun, nofun, nofun, nofun, nofun, fun _ => nodup_nil, fun _ => Nat.zero_le _⟩

/-! ### A known node -/

variable [DecidableEq K]

/-- What is alive is not put out of a bucket by another node. -/
theorem mem_noteInBucket {b : Nat} (hr : s.alive r) (hmem : r ∈ s.buckets i) (r' : Nat) :
    r ∈ (s.noteInBucket r' b).buckets i := by
  have hupdate : ∀ l, (i = b → r ∈ l) → r ∈ update s.buckets b l i := by
    intro l hl
    by_cases hi : i = b
    · rw [hi, update_self]
      exact hl hi
    · rw [update_of_ne hi]
      exact hmem
  rw [noteInBucket]
  split
  · refine hupdate _ fun hi => ?_
    subst hi
    rw [mem_append, mem_singleton]
    by_cases hr' : r = r'
    · exact .inr hr'
    · exact .inl ((mem_erase_of_ne hr').2 hmem)
  split
  · rename_i hnil
    refine hupdate _ fun hi => ?_
    subst hi
    rw [hnil] at hmem
    cases hmem
  rename_i least rest hleast
  split
  · refine hupdate _ fun hi => ?_
    subst hi
    exact mem_append_left _ (hleast ▸ hmem)
  split
  · have hbuckets : (s.evict least r').buckets = s.buckets := by
      simp only [evict, ping, doCheckEvictions]
      split_ifs <;> rfl
    rw [hbuckets]
    exact hmem
  · rename_i hdead
    refine hupdate _ fun hi => ?_
    subst hi
    rw [hleast] at hmem
    refine mem_append_left _ ((mem_cons.1 hmem).resolve_left ?_)
    rintro rfl
    exact hdead hr

theorem mem_noteActiveNode (hr : s.held r) (hmem : r ∈ s.buckets i) (id : K) (address : A) (port : Nat) :
    r ∈ (s.noteActiveNode c id address port).buckets i := by
  rw [noteActiveNode]
  split
  · exact hmem
  split
  · exact hmem
  split
  · exact hmem
  · refine mem_noteInBucket (Bool.or_eq_true_iff.2 (.inl ?_)) ?_ _
    · exact hr
    · exact hmem

/-- A new entry for a node that may have one already. -/
theorem current_addEntry_iff (hs : Tabled c s) (hcurrent : Current s) (id : K)
    (endpoint : NodeIPEndpoint A) (pending : Bool) :
    Current (s.addEntry id endpoint pending) ↔ ∀ r, s.nodes id = some r → s.held r → ∀ i, r ∉ s.buckets i := by
  have hentry : ∀ {r}, r < s.fresh → (s.addEntry id endpoint pending).entries r = s.entries r := fun hr =>
    update_of_ne hr.ne _ _
  constructor
  · intro h r hr hheld i hmem
    have hnodes : update s.nodes id (some s.fresh) ((s.addEntry id endpoint pending).entries r).id = some r := h hmem hheld
    rw [hentry (hs.lt hmem), hs.id_eq hr, update_self] at hnodes
    exact (hs.lt hmem).ne (Option.some.inj hnodes).symm
  · intro h i r hmem hheld
    change update s.nodes id (some s.fresh) ((s.addEntry id endpoint pending).entries r).id = some r
    have hnodes := hcurrent hmem hheld
    rw [hentry (hs.lt hmem), update_of_ne]
    · exact hnodes
    · rintro rfl
      exact h r hnodes hheld i hmem

/-- A known node, whose entry so far nobody may hold while it is in a bucket. -/
theorem addKnownNode_iff (hs : Tabled c s) (hcurrent : Current s) (hfar : Far c s) (id : K) (endpoint : NodeIPEndpoint A) :
    Tabled c (s.addKnownNode c id endpoint) ∧
    (Current (s.addKnownNode c id endpoint) ∧ Far c (s.addKnownNode c id endpoint) ↔
      (∀ r, s.nodes id = some r → s.held r → ∀ i, r ∉ s.buckets i) ∧ (id ≠ c.id → c.distance c.id id ≠ 0)) := by
  have hadded := Enters.tabled_addEntry hs id endpoint false
  have hnoted := Enters.noteActiveNode hadded id endpoint.address endpoint.udpPort
  refine ⟨hnoted.tabled, ?_⟩
  rw [addKnownNode, ← current_addEntry_iff hs hcurrent id endpoint false]
  refine and_congr ⟨fun h i r hmem hheld => ?_, hnoted.current hadded⟩ ⟨fun h => h id ?_, fun h id' hid' => ?_⟩
  · have hnodes := h (mem_noteActiveNode hheld hmem id endpoint.address endpoint.udpPort) (by rw [hnoted.held]; exact hheld)
    rw [hnoted.ids (hadded.lt hmem), hnoted.nodes_eq] at hnodes
    exact hnodes
  · rw [hnoted.nodes_eq]
    change (update s.nodes id (some s.fresh) id).isSome
    rw [update_self]
    rfl
  · rw [hnoted.nodes_eq] at hid'
    change (update s.nodes id (some s.fresh) id').isSome at hid'
    by_cases heq : id' = id
    · rw [heq]
      exact h
    · rw [update_of_ne heq] at hid'
      exact hfar id' hid'

/-! ### Every operation -/

variable {o : Nat × Op K A}

theorem Enters.meets_iff {P : K → Prop} (h : Enters c P s s') (hs : Tabled c s) (hcurrent : Current s) (hfar : Far c s)
    (hknown : ∀ id endpoint, o.2 ≠ .addKnownNode id endpoint) (hP : ∀ id, P id ↔ Wants c (asked s o) id) :
    Current s' ∧ Far c s' ↔ Meets c s o := by
  have hcurrent' : Current s' := h.current hs hcurrent
  rw [h.far_iff hfar, and_iff_right (a := Current s') hcurrent']
  have hnames : ∀ id, Names c s o id ↔ P id := fun id => by
    rw [hP, Names, or_iff_right]
    exact fun ⟨endpoint, heq⟩ => hknown id endpoint heq
  refine ⟨fun hall => ⟨fun id hid => hall id ((hnames id).1 hid), fun id endpoint heq => absurd heq (hknown id endpoint)⟩, ?_⟩
  exact fun hmeets id hid => hmeets.far id ((hnames id).2 hid)

variable [DecidableEq A]

/-- What one operation does to the buckets. -/
theorem step_meets (hs : Tabled c s) (h : step c s o = some s') :
    Tabled c s' ∧ (Current s ∧ Far c s → (Current s' ∧ Far c s' ↔ Meets c s o)) := by
  obtain ⟨now, op⟩ := o
  have hnow : Enters c (fun _ => False) s { s with now } := .of_eq hs (fun _ => rfl) rfl rfl rfl rfl
  have hother : ∀ {P : K → Prop}, Enters c P { s with now } s' → (∀ id endpoint, op ≠ .addKnownNode id endpoint) →
      (∀ id, P id ↔ Wants c (asked s (now, op)) id) →
      Tabled c s' ∧ (Current s ∧ Far c s → (Current s' ∧ Far c s' ↔ Meets c s (now, op))) := fun henters hknown hP =>
    ⟨henters.tabled, fun hright => (hnow.nothing_trans henters).meets_iff hs hright.1 hright.2 hknown hP⟩
  have hnothing : ∀ id : K, False ↔ Wants c [] id := fun id => iff_of_false not_false fun ⟨_, hmem, _⟩ => nomatch hmem
  rw [step] at h
  split at h
  · cases h
  cases op with
  | addKnownNode id endpoint =>
    cases h
    refine ⟨(Enters.noteActiveNode (Enters.tabled_addEntry hnow.tabled id endpoint false) _ _ _).tabled, ?_⟩
    rintro ⟨hcurrent, hfar⟩
    rw [(addKnownNode_iff hnow.tabled hcurrent hfar id endpoint).2]
    constructor
    · rintro ⟨hfree, hid⟩
      refine ⟨fun id' hid' => ?_, fun id' endpoint' heq => by cases heq; exact hfree⟩
      rcases hid' with ⟨endpoint', heq⟩ | ⟨_, hmem, _⟩
      · cases heq
        exact hid
      · cases hmem
    · exact fun hmeets => ⟨hmeets.free id endpoint rfl, hmeets.far id (.inl ⟨endpoint, rfl⟩)⟩
  | addNode id endpoint =>
    cases h
    exact hother (.addNodes hnow.tabled [(id, endpoint)]) (fun _ _ => nofun) fun _ => Iff.rfl
  | onReceived sourceid address port isExpired packet =>
    cases h
    exact hother (.onReceived hnow.tabled sourceid address port isExpired packet now) (fun _ _ => nofun) fun _ => Iff.rfl
  | dropNode r =>
    dsimp only at h
    split at h
    · cases h
      exact hother (.dropNode hnow.tabled r) (fun _ _ => nofun) hnothing
    · cases h
  | checkEvictions due =>
    dsimp only at h
    split at h
    · cases h
      have hchecks : Enters c (fun _ => False) { s with now } { s with now, checks := s.checks.erase due } :=
        .of_eq hnow.tabled (fun _ => rfl) rfl rfl rfl rfl
      exact hother (hchecks.trans_nothing (.checkEvictions hchecks.tabled now)) (fun _ _ => nofun) hnothing
    · cases h
  | others isOpen taken released asked =>
    dsimp only at h
    split at h
    · rename_i halive
      cases h
      have hheld : ∀ {r}, (decide (r ∈ taken) || s.held r && decide (r ∉ released)) = true → s.alive r := by
        intro r hr
        rcases Bool.or_eq_true_iff.1 hr with hr | hr
        · exact halive r (of_decide_eq_true hr)
        · exact Bool.or_eq_true_iff.2 (.inl (Bool.and_eq_true_iff.1 hr).1)
      refine ⟨{ hs with lt_of_held := fun hr => hs.lt_of_alive (hheld hr) }, fun hright => ?_⟩
      refine iff_of_true ⟨fun {i r} hmem hr => ?_, hright.2⟩ ⟨fun id hid => ?_, fun _ _ => nofun⟩
      · rcases Bool.or_eq_true_iff.1 (hheld hr) with hr | hr
        · exact hright.1 hmem hr
        · exact of_decide_eq_true hr
      · rcases hid with ⟨_, heq⟩ | ⟨_, hmem, _⟩
        · cases heq
        · cases hmem
    · cases h

/-! ### Runs of operations -/

/-- In a run, the buckets are in order as long as nobody holds the entry of a node that is made known anew while it is in a
bucket, and no other node gets in the table that is as near as ourselves; no longer. -/
theorem buckets_right_iff (c : NodeSetting K A) (sha3 : K → BitVec 256) (endpoint : NodeIPEndpoint A) (isOpen : Bool)
    (entries : Nat → NodeEntry K A) (ops : List (Nat × Op K A)) :
    Runs.Always (step (c.hashed sha3)) (BucketsRight (c.hashed sha3)) (constructed endpoint isOpen entries) ops ↔
      Runs.Each (step (c.hashed sha3)) (Meets (c.hashed sha3)) (constructed endpoint isOpen entries) ops := by
  have hle : ∀ a b, (c.hashed sha3).distance a b ≤ 255 := distance_le sha3
  have hstart := tabled_constructed (c := c.hashed sha3) endpoint isOpen entries
  refine Runs.always_iff_each_of_inv (I := Tabled (c.hashed sha3)) (fun hs h => (step_meets hs h).1)
    (fun hs hright h => ?_) hstart ((bucketsRight_iff hstart hle).2 ⟨nofun, nofun⟩) ops
  obtain ⟨hs', hmeets⟩ := step_meets hs h
  rw [bucketsRight_iff hs' hle]
  exact hmeets ((bucketsRight_iff hs hle).1 hright)

/-- A node is made known twice, and somebody holds the first entry. -/
def twice : List (Nat × Op Nat Nat) :=
  [(0, .addKnownNode 2 ⟨1, 1, 1⟩), (0, .others true [0] [] []), (0, .addKnownNode 2 ⟨1, 1, 1⟩)]

theorem not_buckets_right : ¬∀ ops : List (Nat × Op Nat Nat),
    Runs.Always (step (everywhere.hashed (BitVec.ofNat 256))) (BucketsRight (everywhere.hashed (BitVec.ofNat 256)))
      (constructed ⟨9, 1, 1⟩ true fun _ => ⟨0, ⟨0, 0, 0⟩, true⟩) ops := by
  intro h
  have hentry := (((h twice).after rfl).entry 0 0 (by decide +kernel)).1
  revert hentry
  decide +kernel

end NodeTable

end Kmdx.P2p
