import Kmdx.P2p.NodeTable

/-!
# Evictions

The time of an eviction is never in the future, so no pong ends one (`Timed`); and nothing else takes one out of the table
(`Grows`).
-/

namespace Kmdx.P2p.NodeTable

variable {K A : Type} [DecidableEq K] {c : NodeSetting K A} {s t u : NodeTable K A}

/-- Evictions have begun before. -/
def Timed (s : NodeTable K A) : Prop := ∀ {L e}, s.evictions.lookup L = some e → e.evictedTimePoint ≤ s.now

/-- No eviction has gone. -/
structure Grows (s t : NodeTable K A) : Prop where
  now_le : s.now ≤ t.now
  kept : ∀ {L e}, s.evictions.lookup L = some e → t.evictions.lookup L = some e
  timed : Timed s → Timed t

namespace Grows

theorem refl (s : NodeTable K A) : Grows s s := ⟨le_rfl, id, id⟩

theorem trans (h : Grows s t) (h' : Grows t u) : Grows s u :=
  ⟨h.now_le.trans h'.now_le, h'.kept ∘ h.kept, h'.timed ∘ h.timed⟩

/-- The evictions are as they were. -/
theorem of_eq (hevictions : t.evictions = s.evictions) (hnow : s.now ≤ t.now) : Grows s t := by
  refine ⟨hnow, fun he => hevictions ▸ he, fun h L e he => ?_⟩
  rw [hevictions] at he
  exact (h he).trans hnow

theorem evict (least new : Nat) (s : NodeTable K A) : Grows s (s.evict least new) := by
  rw [NodeTable.evict]
  split
  · exact .refl s
  extract_lets L s₁ s₂
  have h₁ : Grows s s₁ := by
    show Grows s (if L ∈ s.evictions then s else _)
    split
    · exact .refl s
    · rename_i hnot
      refine ⟨le_rfl, fun {L' e} he => ?_, fun h L' e he => ?_⟩
      · refine (AList.lookup_insert_ne fun heq => hnot ?_).trans he
        rw [← heq, ← AList.lookup_isSome, he]
        rfl
      · dsimp only at he
        by_cases heq : L' = L
        · rw [heq, AList.lookup_insert] at he
          cases he
          exact le_rfl
        · rw [AList.lookup_insert_ne heq] at he
          exact h he
  have h₂ : Grows s₁ s₂ := by
    show Grows s₁ (if _ then s₁.doCheckEvictions else s₁)
    split
    · exact .of_eq rfl le_rfl
    · exact .refl s₁
  exact (h₁.trans h₂).trans (.of_eq rfl le_rfl)

theorem noteInBucket (r b : Nat) (s : NodeTable K A) : Grows s (s.noteInBucket r b) := by
  rw [NodeTable.noteInBucket]
  split
  · exact .of_eq rfl le_rfl
  split
  · exact .of_eq rfl le_rfl
  split
  · exact .of_eq rfl le_rfl
  split
  · exact evict _ _ s
  · exact .of_eq rfl le_rfl

theorem noteActiveNode (id : K) (address : A) (port : Nat) (s : NodeTable K A) :
    Grows s (s.noteActiveNode c id address port) := by
  rw [NodeTable.noteActiveNode]
  split
  · exact .refl s
  split
  · exact .refl s
  split
  · exact .refl s
  · refine trans ?_ (noteInBucket _ _ _)
    exact .of_eq rfl le_rfl

theorem addKnownNode (id : K) (endpoint : NodeIPEndpoint A) (s : NodeTable K A) : Grows s (s.addKnownNode c id endpoint) := by
  refine trans ?_ (noteActiveNode _ _ _ _)
  exact .of_eq rfl le_rfl

theorem checkEvictions {now : Nat} (hnow : s.now ≤ now) : Grows s (s.checkEvictions c now) := by
  have hdrop : ∀ (l : List Nat) (s₀ : NodeTable K A), Grows s₀ (l.foldl (fun s n => s.dropNode c n) s₀) := by
    intro l s₀
    induction l generalizing s₀ with
    | nil => exact .refl s₀
    | cons n l ih =>
      refine trans ?_ (ih (s₀.dropNode c n))
      exact .of_eq rfl le_rfl
  unfold NodeTable.checkEvictions
  extract_lets s₁ drop evictionsRemain s₂
  refine trans (t := s₁) (.of_eq rfl hnow) ?_
  split
  · exact (hdrop _ s₁).trans (.of_eq rfl le_rfl)
  · exact hdrop _ _

variable [DecidableEq A]

theorem addNode (id : K) (endpoint : NodeIPEndpoint A) (s : NodeTable K A) : Grows s (s.addNode c id endpoint) := by
  rw [NodeTable.addNode]
  split
  · exact .refl s
  split
  · exact .of_eq rfl le_rfl
  split
  · exact .refl s
  · exact .of_eq rfl le_rfl

theorem onPong (h : Timed s) {sourceid : K} {address : A} {port : Nat} {destination : NodeIPEndpoint A}
    (ht : s.onPong c sourceid address port destination = some t) : Grows s t := by
  have hfound : s.foundEviction sourceid = none := by
    rw [foundEviction, Option.filter_eq_none_iff]
    intro e he
    simpa using h he
  rw [NodeTable.onPong, hfound] at ht
  obtain ⟨s₁, hs₁, rfl⟩ := Option.map_eq_some_iff.1 ht
  refine trans (t := s₁) ?_ (.of_eq rfl le_rfl)
  dsimp only at hs₁
  split at hs₁
  · cases hs₁
    exact .of_eq rfl le_rfl
  · split at hs₁
    · cases hs₁
    · cases hs₁
      refine trans ?_ (addNode _ _ _)
      exact .of_eq rfl le_rfl

theorem onReceived (h : Timed s) {now : Nat} (hnow : s.now ≤ now) (sourceid : K) (address : A) (port : Nat) (isExpired : Bool)
    (packet : Packet K A) : Grows s (s.onReceived c sourceid address port isExpired packet now) := by
  have h₀ : Grows s { s with now } := .of_eq rfl hnow
  unfold NodeTable.onReceived
  extract_lets s₀
  split
  · exact h₀
  split
  · split
    · exact h₀
    · rename_i s₁ hs₁
      exact (h₀.trans (onPong (h₀.timed h) hs₁)).trans (noteActiveNode _ _ _ _)
  · rename_i nodes
    have hnodes : ∀ (l : List (K × NodeIPEndpoint A)) (s₁ : NodeTable K A),
        Grows s₁ (l.foldl (fun s n => s.addNode c n.1 n.2) s₁) := by
      intro l s₁
      induction l generalizing s₁ with
      | nil => exact .refl s₁
      | cons n l ih => exact trans (addNode _ _ _) (ih _)
    dsimp only
    refine trans ?_ (noteActiveNode _ _ _ _)
    split
    · refine trans ?_ (hnodes nodes _)
      exact .of_eq rfl hnow
    · exact .of_eq rfl hnow
  · exact h₀.trans (noteActiveNode _ _ _ _)
  · rename_i source
    refine trans ?_ (noteActiveNode _ _ _ _)
    have hadded := h₀.trans (addNode (c := c) sourceid { source with address, udpPort := port } _)
    exact hadded.trans (.of_eq rfl le_rfl)

theorem of_reaches (h : Reaches c s t) (hs : Timed s) : Grows s t := by
  induction h with
  | refl => exact .refl s
  | addKnownNode id endpoint _ hnow ih =>
    refine trans (ih.trans ?_) (addKnownNode _ _ _)
    exact .of_eq rfl hnow
  | addNode id endpoint _ hnow ih =>
    refine trans (ih.trans ?_) (addNode _ _ _)
    exact .of_eq rfl hnow
  | onReceived sourceid address port isExpired packet _ hnow ih => exact ih.trans (onReceived (ih.timed hs) hnow _ _ _ _ _)
  | checkEvictions _ hnow _ _ ih =>
    refine trans (ih.trans ?_) (checkEvictions ?_)
    · exact .of_eq rfl le_rfl
    · exact hnow
  | discovery isOpen held asked _ hnow ih => exact ih.trans (.of_eq rfl hnow)

end Grows

/-! ### What was promised -/

/-- A node is in its bucket. -/
def InBucket (c : NodeSetting K A) (s : NodeTable K A) (id : K) : Prop := ∃ r ∈ s.buckets (bucket c id), (s.entries r).id = id

/-- The node that answered stays, and the new one is thrown away. -/
structure Stays (c : NodeSetting K A) (s : NodeTable K A) (L : K) (e : EvictionTimeout K) : Prop where
  decided : L ∉ s.evictions
  old : InBucket c s L
  new : ¬ InBucket c s e.newNodeID

/-- The node that did not answer goes, and the new one is in its place. -/
structure Replaced (c : NodeSetting K A) (s : NodeTable K A) (L : K) (e : EvictionTimeout K) : Prop where
  decided : L ∉ s.evictions
  old : ¬ InBucket c s L
  new : InBucket c s e.newNodeID

variable [DecidableEq A]

/-- Whenever a node is pinged because of a new one: a pong in time, and a check that is later. -/
def Promised (c : NodeSetting K A) (s : NodeTable K A) (L : K) (e : EvictionTimeout K) : Prop :=
  (∀ now address port destination, s.now ≤ now → now - e.evictedTimePoint < c_reqTimeout →
    Stays c (s.onReceived c L address port false (.pong destination) now) L e) ∧
  ∀ now due, s.now ≤ now → due ∈ s.checks → due ≤ now → c_reqTimeout < now - e.evictedTimePoint →
    Replaced c ({ s with checks := s.checks.erase due }.checkEvictions c now) L e

/-- Neither a pong nor a check decides an eviction, nor does anything else, ever. -/
theorem never_decided {endpoint : NodeIPEndpoint A} {isOpen : Bool} {entries : Nat → NodeEntry K A} {L : K}
    {e : EvictionTimeout K}
    (h : Reaches c (constructed endpoint isOpen entries) s) (he : s.evictions.lookup L = some e) :
    (∀ now address port destination, s.now ≤ now →
      ¬ Stays c (s.onReceived c L address port false (.pong destination) now) L e) ∧
    (∀ now due, s.now ≤ now → due ∈ s.checks → ¬ Replaced c
      ({ s with checks := s.checks.erase due }.checkEvictions c now) L e) ∧
    ∀ t, Reaches c s t → t.evictions.lookup L = some e := by
  have hs : Timed s := (Grows.of_reaches h fun he => nomatch he).timed fun he => nomatch he
  have hmem : ∀ {t : NodeTable K A}, t.evictions.lookup L = some e → L ∈ t.evictions := fun ht => by
    rw [← AList.lookup_isSome, ht]
    rfl
  refine ⟨fun now address port destination hnow hstays => ?_, fun now due hnow hdue hreplaced => ?_, fun t ht => ?_⟩
  · exact hstays.decided (hmem ((Grows.onReceived hs hnow L address port false (.pong destination)).kept he))
  · have hgrows : Grows { s with checks := s.checks.erase due }
        ({ s with checks := s.checks.erase due }.checkEvictions c now) :=
      Grows.checkEvictions hnow
    exact hreplaced.decided (hmem (hgrows.kept he))
  · exact (Grows.of_reaches ht hs).kept he

/-! ### A full bucket -/

def everywhere : NodeSetting Nat Nat where
  id := 0
  unspecified := 0
  distance _ _ := 1
  isUnspecified address := address = 0
  isPublicAddress _ := true
  allowLocal := false

/-- Sixteen nodes in one bucket, and one more. -/
def full : NodeTable Nat Nat :=
  ((List.range 17).map (· + 1)).foldl (fun s id => s.addKnownNode everywhere id ⟨id, 1, 1⟩)
    (constructed ⟨9, 1, 1⟩ true fun _ => ⟨0, ⟨0, 0, 0⟩, true⟩)

theorem reaches_full : Reaches everywhere (constructed ⟨9, 1, 1⟩ true fun _ => ⟨0, ⟨0, 0, 0⟩, true⟩) full := by
  have hreaches : ∀ ids : List Nat, Reaches everywhere (constructed ⟨9, 1, 1⟩ true fun _ => ⟨0, ⟨0, 0, 0⟩, true⟩)
      (ids.foldl (fun s id => s.addKnownNode everywhere id ⟨id, 1, 1⟩)
        (constructed ⟨9, 1, 1⟩ true fun _ => ⟨0, ⟨0, 0, 0⟩, true⟩)) := by
    intro ids
    induction ids using List.reverseRecOn with
    | nil => exact .refl _
    | append_singleton ids id ih =>
      rw [List.foldl_append]
      exact .addKnownNode id ⟨id, 1, 1⟩ ih le_rfl
  exact hreaches _

theorem lookup_full : full.evictions.lookup 1 = some ⟨17, 0⟩ := by decide +kernel

theorem never_decided_full : full.evictions.lookup 1 = some ⟨17, 0⟩ ∧
    ¬ Stays everywhere (full.onReceived everywhere 1 1 1 false (.pong ⟨9, 1, 1⟩) (100 * 10 ^ 6)) 1 ⟨17, 0⟩ :=
  ⟨lookup_full, (never_decided reaches_full lookup_full).1 (100 * 10 ^ 6) 1 1 ⟨9, 1, 1⟩ (by decide +kernel)⟩

theorem not_promised : ¬ ∀ (s : NodeTable Nat Nat) (L : Nat) (e : EvictionTimeout Nat),
    Reaches everywhere (constructed ⟨9, 1, 1⟩ true fun _ => ⟨0, ⟨0, 0, 0⟩, true⟩) s → s.evictions.lookup L = some e →
    Promised everywhere s L e := by
  intro hpromised
  have hdecided := ((hpromised full 1 ⟨17, 0⟩ reaches_full lookup_full).1 (100 * 10 ^ 6) 1 1 ⟨9, 1, 1⟩ (by decide +kernel)
    (by decide)).decided
  revert hdecided
  decide +kernel

end Kmdx.P2p.NodeTable
