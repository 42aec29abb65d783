import Kmdx.Lib.Least
import Kmdx.P2p.Buckets

/-!
# The nodes nearest to a target (`NodeTable::nearestNodeEntries`)

The walk goes out from the bucket of the target's own distance. Bucket zero is left out unless the target is as near as can
be, and what lies far below is left out when the walk has come to the last bucket on the other side. Nothing has been missed
exactly if whatever is in these buckets has sixteen others at most as far from the target (`nearest_right_iff`).
-/

namespace Kmdx.P2p.NodeTable

open List

variable {K A : Type} {c : NodeSetting K A} {s : NodeTable K A} {target : K} {head tail : Nat}

/-! ### The walk -/

def lastBin : Nat := s_bins - 1

/-- What has been found, by its distance, and which buckets were looked at. -/
structure Found where
  found : SortedMap Nat (List Nat) := ∅
  indexed : List Nat := []

/-- What is alive in `m_state[i]` -/
def look (c : NodeSetting K A) (s : NodeTable K A) (target : K) (i : Nat) (f : Found) : Found where
  found := (s.live i).foldl (fun m r => m.push (c.distance target (s.entries r).id) r) f.found
  indexed := f.indexed ++ [i]

/-- Both ways, until one of them ends -/
def spread (c : NodeSetting K A) (s : NodeTable K A) (target : K) (head tail : Nat) (f : Found) : Found :=
  if head ≠ tail ∧ head < s_bins then
    let f := look c s target head f
    let f := if tail ≠ 0 then look c s target tail f else f
    spread c s target (head + 1) (tail - 1) f
  else f
termination_by s_bins - head

def upward (c : NodeSetting K A) (s : NodeTable K A) (target : K) (head : Nat) (f : Found) : Found :=
  if head < s_bins then upward c s target (head + 1) (look c s target head f) else f
termination_by s_bins - head

def downward (c : NodeSetting K A) (s : NodeTable K A) (target : K) (tail : Nat) (f : Found) : Found :=
  if tail > 0 then downward c s target (tail - 1) (look c s target tail f) else f

def walk (c : NodeSetting K A) (s : NodeTable K A) (target : K) : Found :=
  let head := c.distance c.id target
  let tail := if head = 0 then lastBin else (head - 1) % s_bins
  if head > 1 ∧ tail ≠ lastBin then spread c s target head tail {}
  else if head < 2 then upward c s target head {}
  else downward c s target tail {}

/-- An entry with an endpoint that is allowed -/
def usable (c : NodeSetting K A) (s : NodeTable K A) (r : Nat) : Bool :=
  isSet c (s.entries r).endpoint && isAllowed c (s.entries r).endpoint.address

def nearestNodeEntries (c : NodeSetting K A) (s : NodeTable K A) (target : K) : List Nat :=
  (walk c s target).found.values.foldl (fun ret r => if ret.length < s_bucketSize ∧ s.usable c r then ret ++ [r] else ret) []

/-! ### What is promised -/

/-- The entries in these buckets that can be given out. -/
def usableIn (c : NodeSetting K A) (s : NodeTable K A) (is : List Nat) : List Nat := (is.flatMap s.live).filter (s.usable c)

structure NearestRight (c : NodeSetting K A) (s : NodeTable K A) (target : K) : Prop where
  least : LeastOf s_bucketSize (fun r => c.distance target (s.entries r).id) (s.usableIn c (List.range s_bins))
    (s.nearestNodeEntries c target)
  indexed : ∀ i ∈ (walk c s target).indexed, i < s_bins

/-- No entry is in the buckets twice. -/
def Once (s : NodeTable K A) : Prop := ((List.range s_bins).flatMap s.buckets).Nodup

/-- The buckets that the walk from `head` leaves out. -/
def Skipped (head i : Nat) : Prop := i = 0 ∧ head ≠ 0 ∨ 1 < head ∧ head < s_bins ∧ i + s_bins < 2 * head

instance (head i : Nat) : Decidable (Skipped head i) := inferInstanceAs (Decidable (_ ∨ _))

/-- The buckets that it does not leave out. -/
def reached (head : Nat) : List Nat := (List.range s_bins).filter fun i => ¬Skipped head i

/-! ### Which buckets are looked at -/

/-- `f'` is `f` after a look at these buckets. -/
def Looks (c : NodeSetting K A) (s : NodeTable K A) (target : K) (is : List Nat) (f f' : Found) : Prop :=
  f' = is.foldl (fun f i => look c s target i f) f

variable (c s target) in
theorem spread_looks (h : tail < head) (f : Found) : ∃ is, Looks c s target is f (spread c s target head tail f) ∧ is.Nodup ∧
    ∀ i, i ∈ is ↔ (head ≤ i ∧ i < s_bins) ∨ (0 < i ∧ i ≤ tail ∧ tail + head < i + s_bins) := by
  fun_induction spread c s target head tail f with
  | case1 head tail f hhead f₁ f₂ ih =>
    obtain ⟨is, hlooks, hnodup, hmem⟩ := ih (by omega)
    by_cases htail : tail = 0
    · subst htail
      refine ⟨head :: is, hlooks, nodup_cons.2 ⟨fun hin => ?_, hnodup⟩, fun i => ?_⟩
      · have := (hmem head).1 hin
        omega
      · rw [mem_cons, hmem]
        omega
    · have hf₂ : f₂ = look c s target tail f₁ := if_pos htail
      refine ⟨head :: tail :: is, ?_, ?_, fun i => ?_⟩
      · rw [Looks, foldl_cons, foldl_cons, ← hf₂]
        exact hlooks
      · refine nodup_cons.2 ⟨fun hin => ?_, nodup_cons.2 ⟨fun hin => ?_, hnodup⟩⟩
        · rcases mem_cons.1 hin with heq | hin
          · omega
          · have := (hmem head).1 hin
            omega
        · have := (hmem tail).1 hin
          omega
      · rw [mem_cons, mem_cons, hmem]
        omega
  | case2 head tail f hhead =>
    refine ⟨[], rfl, nodup_nil, fun i => iff_of_false not_mem_nil ?_⟩
    omega

variable (c s target) in
theorem upward_looks (head : Nat) (f : Found) : ∃ is, Looks c s target is f (upward c s target head f) ∧ is.Nodup ∧
    ∀ i, i ∈ is ↔ head ≤ i ∧ i < s_bins := by
  fun_induction upward c s target head f with
  | case1 head f hhead ih =>
    obtain ⟨is, hlooks, hnodup, hmem⟩ := ih
    refine ⟨head :: is, hlooks, nodup_cons.2 ⟨fun hin => ?_, hnodup⟩, fun i => ?_⟩
    · have := (hmem head).1 hin
      omega
    · rw [mem_cons, hmem]
      omega
  | case2 head f hhead =>
    refine ⟨[], rfl, nodup_nil, fun i => iff_of_false not_mem_nil ?_⟩
    omega

variable (c s target) in
theorem downward_looks (tail : Nat) (f : Found) : ∃ is, Looks c s target is f (downward c s target tail f) ∧ is.Nodup ∧
    ∀ i, i ∈ is ↔ 0 < i ∧ i ≤ tail := by
  fun_induction downward c s target tail f with
  | case1 tail f htail ih =>
    obtain ⟨is, hlooks, hnodup, hmem⟩ := ih
    refine ⟨tail :: is, hlooks, nodup_cons.2 ⟨fun hin => ?_, hnodup⟩, fun i => ?_⟩
    · have := (hmem tail).1 hin
      omega
    · rw [mem_cons, hmem]
      omega
  | case2 tail f htail =>
    refine ⟨[], rfl, nodup_nil, fun i => iff_of_false not_mem_nil ?_⟩
    omega

theorem perm_reached {is : List Nat} (hnodup : is.Nodup) (hmem : ∀ i, i ∈ is ↔ i < s_bins ∧ ¬Skipped head i) :
    is.Perm (reached head) := by
  refine (perm_ext_iff_of_nodup hnodup (nodup_range.filter _)).2 fun i => ?_
  simp [hmem]

/-- The walk looks once at every bucket that it does not leave out. -/
theorem walk_looks (hle : c.distance c.id target ≤ 255) : ∃ is, Looks c s target is {} (walk c s target) ∧
    is.Perm (reached (c.distance c.id target)) := by
  have hbins : s_bins = 255 := rfl
  unfold walk
  dsimp only
  generalize c.distance c.id target = head at *
  by_cases hhead : head < 2
  · rw [if_neg fun h => absurd hhead (not_lt.2 h.1), if_pos hhead]
    obtain ⟨is, hlooks, hnodup, hmem⟩ := upward_looks c s target head {}
    refine ⟨is, hlooks, perm_reached hnodup fun i => ?_⟩
    rw [hmem, Skipped]
    omega
  · have htail : (if head = 0 then lastBin else (head - 1) % s_bins) = head - 1 := by
      rw [if_neg (by omega), Nat.mod_eq_of_lt (by omega)]
    rw [htail, if_neg hhead]
    by_cases hlast : head - 1 = lastBin
    · rw [if_neg fun h => h.2 hlast]
      rw [lastBin] at hlast
      obtain ⟨is, hlooks, hnodup, hmem⟩ := downward_looks c s target (head - 1) {}
      refine ⟨is, hlooks, perm_reached hnodup fun i => ?_⟩
      rw [hmem, Skipped]
      omega
    · rw [if_pos ⟨by omega, hlast⟩]
      rw [lastBin] at hlast
      obtain ⟨is, hlooks, hnodup, hmem⟩ := spread_looks c s target (show head - 1 < head by omega) {}
      refine ⟨is, hlooks, perm_reached hnodup fun i => ?_⟩
      rw [hmem, Skipped]
      omega

/-! ### What is found -/

theorem Looks.found {is : List Nat} {f f' : Found} (h : Looks c s target is f f')
    (hkeyed : f.found.Keyed fun r => c.distance target (s.entries r).id) :
    (f'.found.Keyed fun r => c.distance target (s.entries r).id) ∧
      f'.found.values.Perm (f.found.values ++ is.flatMap s.live) ∧ f'.indexed = f.indexed ++ is := by
  induction is generalizing f with
  | nil =>
    obtain rfl : f' = f := h
    simp [hkeyed]
  | cons i is ih =>
    obtain ⟨hlook, hperm⟩ := hkeyed.foldl_push (s.live i)
    obtain ⟨hkeyed', hperm', hindexed⟩ := ih (f := look c s target i f) h hlook
    refine ⟨hkeyed', hperm'.trans ?_, hindexed.trans ?_⟩
    · rw [flatMap_cons, ← append_assoc]
      exact hperm.append_right _
    · rw [look, append_assoc, singleton_append]

/-- The loop at the end takes the first that can be given out. -/
theorem foldl_usable (l ret : List Nat) (hret : ret.length ≤ s_bucketSize) :
    l.foldl (fun ret r => if ret.length < s_bucketSize ∧ s.usable c r then ret ++ [r] else ret) ret =
      ret ++ (l.filter (s.usable c)).take (s_bucketSize - ret.length) := by
  induction l generalizing ret with
  | nil => simp
  | cons r l ih =>
    rw [foldl_cons]
    by_cases hr : s.usable c r
    · rw [filter_cons_of_pos hr]
      by_cases hlt : ret.length < s_bucketSize
      · have hsub : s_bucketSize - ret.length = (s_bucketSize - (ret ++ [r]).length) + 1 := by simp; omega
        rw [if_pos ⟨hlt, hr⟩, ih _ (by simp; omega), hsub, take_succ_cons, append_assoc, singleton_append]
      · have hzero : s_bucketSize - ret.length = 0 := by omega
        rw [if_neg fun h => hlt h.1, ih _ hret, hzero, take_zero, take_zero]
    · rw [if_neg fun h => hr h.2, ih _ hret, filter_cons_of_neg hr]

theorem Once.nodup (hs : Once s) : (s.usableIn c (List.range s_bins)).Nodup := by
  obtain ⟨hnodup, hdisjoint⟩ := nodup_flatMap.1 hs
  refine (nodup_flatMap.2 ⟨fun i hi => (hnodup i hi).filter _, hdisjoint.imp fun h r hr hr' => ?_⟩).filter _
  exact h (mem_of_mem_filter hr) (mem_of_mem_filter hr')

theorem usableIn_perm (head : Nat) : (s.usableIn c (reached head) ++
    s.usableIn c ((List.range s_bins).filter fun i => Skipped head i)).Perm (s.usableIn c (List.range s_bins)) := by
  rw [usableIn, usableIn, ← filter_append, ← flatMap_append]
  refine ((List.Perm.flatMap_right s.live ?_).filter _)
  have hperm := filter_append_perm (fun i => decide (Skipped head i)) (List.range s_bins)
  simp only [← decide_not] at hperm
  exact perm_append_comm.trans hperm

/-- What is given out are the least of what is in the buckets that are not left out. -/
theorem nearestNodeEntries_least (hs : Once s) (hle : c.distance c.id target ≤ 255) :
    LeastOf s_bucketSize (fun r => c.distance target (s.entries r).id) (s.usableIn c (reached (c.distance c.id target)))
      (s.nearestNodeEntries c target) := by
  obtain ⟨is, hlooks, his⟩ := walk_looks (s := s) hle
  obtain ⟨hkeyed, hperm, _⟩ := hlooks.found SortedMap.keyed_empty
  rw [nearestNodeEntries, foldl_usable _ _ (Nat.zero_le _), nil_append]
  refine leastOf_take ((hperm.trans (his.flatMap_right _)).filter _) ?_ (hkeyed.pairwise_values.filter _)
  exact (nodup_append.1 ((usableIn_perm _).nodup_iff.2 hs.nodup)).1

theorem indexed_lt (hle : c.distance c.id target ≤ 255) : ∀ i ∈ (walk c s target).indexed, i < s_bins := by
  obtain ⟨is, hlooks, his⟩ := walk_looks (s := s) hle
  obtain ⟨_, _, hindexed⟩ := hlooks.found SortedMap.keyed_empty
  intro i hi
  rw [hindexed, nil_append, his.mem_iff] at hi
  exact mem_range.1 (mem_of_mem_filter hi)

/-- A bucket that is left out must have nothing that would be among the nearest. -/
def Spared (c : NodeSetting K A) (sha3 : K → BitVec 256) (s : NodeTable K A) (target : K) : Prop :=
  ∀ i < s_bins, Skipped (distance sha3 c.id target) i → ∀ r ∈ s.live i, s.usable c r →
    s_bucketSize ≤ (s.usableIn c (reached (distance sha3 c.id target))).countP fun r' =>
      distance sha3 target (s.entries r').id ≤ distance sha3 target (s.entries r).id

theorem Once.nearestRight_iff (hs : Once s) (sha3 : K → BitVec 256) (target : K) :
    NearestRight (c.hashed sha3) s target ↔ Spared c sha3 s target := by
  have hle := distance_le sha3 c.id target
  have hleast := nearestNodeEntries_least (c := c.hashed sha3) hs hle
  have hperm := usableIn_perm (c := c.hashed sha3) (s := s) (distance sha3 c.id target)
  have hnodup := hperm.nodup_iff.2 hs.nodup
  have hall : NearestRight (c.hashed sha3) s target ↔ LeastOf s_bucketSize _ _ _ :=
    ⟨fun h => h.least.congr_perm hperm.symm, fun h => ⟨h.congr_perm hperm, indexed_lt hle⟩⟩
  refine hall.trans ((hleast.append_iff hnodup).trans ?_)
  constructor
  · intro h i hi hskipped r hr husable
    have hi : i ∈ (List.range s_bins).filter fun i => Skipped (distance sha3 c.id target) i :=
      mem_filter.2 ⟨mem_range.2 hi, decide_eq_true hskipped⟩
    exact h r (mem_filter.2 ⟨mem_flatMap.2 ⟨i, hi, hr⟩, husable⟩)
  · intro h r hr
    obtain ⟨hr, husable⟩ := mem_filter.1 hr
    obtain ⟨i, hi, hr⟩ := mem_flatMap.1 hr
    obtain ⟨hi, hskipped⟩ := mem_filter.1 hi
    exact h i (mem_range.1 hi) (of_decide_eq_true hskipped) r hr husable

/-! ### In every table -/

/-- A bucket has what is of its own distance, and nothing of it twice. -/
theorem Tabled.once (hs : Tabled c s) : Once s := by
  refine nodup_flatMap.2 ⟨fun i _ => hs.nodup i, nodup_range.imp fun hne r hr hr' => hne ?_⟩
  exact (hs.bucket_eq hr).symm.trans (hs.bucket_eq hr')

section

variable [DecidableEq K] [DecidableEq A]

theorem always_once (c : NodeSetting K A) (endpoint : NodeIPEndpoint A) (isOpen : Bool) (entries : Nat → NodeEntry K A)
    (ops : List (Nat × Op K A)) : Runs.Always (step c) Once (constructed endpoint isOpen entries) ops :=
  Runs.always_of_inv (I := Tabled c) (fun hs h => (step_meets hs h).1) Tabled.once
    (tabled_constructed endpoint isOpen entries) ops

/-- In every state of a run, the nearest to a target are found if and only if whatever can be given out in the buckets left
out has sixteen others in the rest that are at most as far from the target. -/
theorem nearest_right_iff (c : NodeSetting K A) (sha3 : K → BitVec 256) (endpoint : NodeIPEndpoint A) (isOpen : Bool)
    (entries : Nat → NodeEntry K A) (ops : List (Nat × Op K A)) :
    Runs.Always (step (c.hashed sha3)) (fun s => ∀ target, NearestRight (c.hashed sha3) s target ↔ Spared c sha3 s target)
      (constructed endpoint isOpen entries) ops :=
  (always_once (c.hashed sha3) endpoint isOpen entries ops).imp fun hs target => hs.nearestRight_iff sha3 target

end

/-- Hashes that differ in their first byte -/
def leading (id : Nat) : BitVec 256 := BitVec.ofNat 256 (id * 2 ^ 248)

def setUp : NodeTable Nat Nat := constructed ⟨9, 1, 1⟩ true fun _ => ⟨0, ⟨0, 0, 0⟩, true⟩

/-- A node at half the distance of the target. -/
def halfway : Nat × Op Nat Nat := (0, .addKnownNode 32 ⟨1, 1, 1⟩)

/-- Sixteen nodes in the bucket of the target, and one in a bucket that is left out. -/
def crowded : List (Nat × Op Nat Nat) := (List.range 16).map (fun i => (0, .addKnownNode (65 + i) ⟨1, 1, 1⟩)) ++ [halfway]

theorem isSome_crowded : (crowded.foldlM (step (everywhere.hashed leading)) setUp).isSome := by decide +kernel

theorem nearest_right_crowded : ∃ s, crowded.foldlM (step (everywhere.hashed leading)) setUp = some s ∧
    (Skipped (distance leading 0 64) 252 ∧ s.live 252 = [16]) ∧ NearestRight (everywhere.hashed leading) s 64 ∧
    s.nearestNodeEntries (everywhere.hashed leading) 64 = List.range 16 := by
  have hs := (Option.some_get isSome_crowded).symm
  refine ⟨_, hs, by decide +kernel, ?_, by decide +kernel⟩
  refine ((nearest_right_iff everywhere leading _ _ _ crowded).after hs 64).2 ?_
  rw [Spared]
  decide +kernel

/-- A node in a bucket that is left out is not found, be it the only one. -/
theorem not_nearest_right : ¬∀ ops : List (Nat × Op Nat Nat), Runs.Always (step (everywhere.hashed leading))
    (fun s => ∀ target, NearestRight (everywhere.hashed leading) s target) setUp ops := by
  intro h
  have hlength := ((h [halfway]).after rfl 64).least.length_eq
  revert hlength
  decide +kernel

end Kmdx.P2p.NodeTable
