import Kmdx.Chain.Tree
import Kmdx.Lib.Ancestry

/-!
# Routes in the tree of the blocks

With its flags, `treeRoute` gives the way from a block to the lowest common ancestor and on to the other block, and the
ancestor, but not always the index of that (`routes_iff`).
-/

namespace Kmdx.Chain.BlockChain

open Wp Ancestry Function

set_option linter.unusedSectionVars false

variable {H : Type} [DecidableEq H] [BlockSha3 H] {s t : BlockChain H} {known : H → Prop} {x y : H}

/-- The loop that climbs from both sides; none without an end, or where an assertion fails. -/
def meetWith (_common _pre _post : Bool) : Nat → H → H → M H (Option (List H × List H × H))
  | 0, _, _ => return none
  | k + 1, x, y => do
    let ret := if _pre ∧ (x ≠ y ∨ _common) then [x] else []
    let back := if _post ∧ (x ≠ y ∨ !_pre ∧ _common) then [y] else []
    if x = y then
      return some (ret, back, x)
    if x = 0 ∨ y = 0 then
      return none
    let xParent := (← details x).parent
    let yParent := (← details y).parent
    match ← meetWith _common _pre _post k xParent yParent with
    | none => return none
    | some (ret', back', common) => return some (ret ++ ret', back ++ back', common)

/-- `treeRoute` with its flags -/
def treeRouteWith (_common _pre _post : Bool) (x y : H) : M H (Option (List H × H × Nat)) := do
  if x = 0 ∨ y = 0 then
    return some ([], 0, 0)
  let fromDetails ← details x
  let toDetails ← details y
  -- Needed to handle a special case when the parent of inserted block is not present in DB.
  if fromDetails.isNull ∨ toDetails.isNull then
    return some ([], 0, 0)
  let fn := fromDetails.number
  let tn := toDetails.number
  let (passed, x) ← climb (fn - tn) x
  let (passed', y) ← climb (tn - fn) y
  match ← meetWith _common _pre _post (min fn tn + 1) x y with
  | none => return none
  | some (ret, back, common) =>
    let ret := (if _pre then passed else []) ++ ret
    let back := (if _post then passed' else []) ++ back
    let i := ret.length - (if _common ∧ ret ≠ [] ∧ back ≠ [] then 1 else 0)
    return some (ret ++ back.reverse, common, i)

def level (s : BlockChain H) (h : H) : Nat := (s.detailsOf h).number

/-- A tree of the blocks that are known -/
structure BlockTree (s : BlockChain H) (known : H → Prop) : Prop where
  tree : Rooted known s.genesisHash s.parentOf s.level
  ne_zero : ∀ {x}, known x → x ≠ 0
  isNull : ∀ {x}, known x → (s.detailsOf x).isNull = false

theorem Loads.level (h : Loads s t) : t.level = s.level := by
  funext x
  rw [BlockChain.level, BlockChain.level, h.detailsOf]

theorem BlockTree.loads (h : s.BlockTree known) (ht : Loads s t) : t.BlockTree known := by
  have hgenesis : t.genesisHash = s.genesisHash := by rw [ht.rest]; rfl
  refine ⟨?_, h.ne_zero, fun hx => ?_⟩
  · rw [hgenesis, ht.parentOf, ht.level]
    exact h.tree
  · rw [ht.detailsOf]
    exact h.isNull hx

variable {c p q : Bool}

/-- Two blocks of one level meet. -/
theorem reads_meetWith {fuel : Nat} (h : s.BlockTree known) (hx : known x) (hy : known y)
    (hlevel : s.level x = s.level y) (hfuel : s.level x < fuel) : Reads (meetWith c p q fuel x y) (fun r => ∃ i ≤ s.level x,
      s.parentOf^[i] x = s.parentOf^[i] y ∧ (∀ j < i, s.parentOf^[j] x ≠ s.parentOf^[j] y) ∧
      r = some ((if p then List.iterate s.parentOf x i else []) ++ (if p ∧ c then [s.parentOf^[i] x] else []),
        (if q then List.iterate s.parentOf y i else []) ++ (if q ∧ !p ∧ c then [s.parentOf^[i] x] else []),
        s.parentOf^[i] x)) s := by
  induction fuel generalizing s x y with
  | zero => omega
  | succ fuel ih =>
    unfold meetWith
    extract_lets ret back
    simp only [Reads, wp_ite]
    split
    · rename_i heq
      subst heq
      refine ⟨.refl s, 0, Nat.zero_le _, rfl, fun j hj => absurd hj (Nat.not_lt_zero j), ?_⟩
      simp only [ret, back, ne_eq, not_true_eq_false, false_or, List.iterate, ite_self, List.nil_append, iterate_zero, id]
    rename_i hne
    rw [if_neg (not_or.2 ⟨h.ne_zero hx, h.ne_zero hy⟩)]
    -- Neither of them is the root, which would be both.
    have hpos : s.level x ≠ 0 := fun hzero =>
      hne ((h.tree.eq_root hx hzero).trans (h.tree.eq_root hy (hlevel ▸ hzero)).symm)
    have hxroot := h.tree.ne_root hpos
    have hyroot := h.tree.ne_root (hlevel ▸ hpos)
    have hxlevel := h.tree.parent_level hx hxroot
    have hylevel := h.tree.parent_level hy hyroot
    refine (reads_details x).seq fun d t ht hd => (reads_details y).seq fun d' u hu hd' => ?_
    have htu := ht.trans hu
    have hparent : d.parent = s.parentOf x := by rw [hd]; rfl
    have hparent' : d'.parent = s.parentOf y := by rw [hd', ht.detailsOf]; rfl
    rw [hparent, hparent']
    have hmeet := ih (h.loads htu) (h.tree.parent_known hx hxroot) (h.tree.parent_known hy hyroot)
      (by rw [htu.level]; omega) (by rw [htu.level]; omega)
    rw [htu.level, htu.parentOf] at hmeet
    refine hmeet.seq fun r v hv ⟨i, hi, heq, hfirst, hr⟩ => ?_
    rw [hr]
    refine ⟨.refl v, i + 1, by omega, heq, fun j hj => ?_, ?_⟩
    · cases j with
      | zero => exact hne
      | succ j => exact hfirst j (by omega)
    · have hret : ret = if p then [x] else [] := by simp [ret, hne]
      have hback : back = if q then [y] else [] := by simp [back, hne]
      rw [hret, hback, ← List.append_assoc, ← List.append_assoc]
      cases p <;> cases q <;> rfl

/-- The parts of a route: the way to the ancestor `a`, and the way from there -/
def routeRet (s : BlockChain H) (_common _pre : Bool) (x a : H) : List H :=
  (if _pre then path s.parentOf s.level x a else []) ++ (if _pre ∧ _common then [a] else [])

def routeBack (s : BlockChain H) (_common _pre _post : Bool) (y a : H) : List H :=
  (if _post then path s.parentOf s.level y a else []) ++ (if _post ∧ !_pre ∧ _common then [a] else [])

theorem reads_treeRouteWith (h : s.BlockTree known) (hx : known x) (hy : known y) :
    Reads (treeRouteWith c p q x y) (fun r => ∃ a, IsLca s.parentOf s.level x y a ∧
      r = some (s.routeRet c p x a ++ (s.routeBack c p q y a).reverse, a,
        (s.routeRet c p x a).length - (if c ∧ s.routeRet c p x a ≠ [] ∧ s.routeBack c p q y a ≠ [] then 1 else 0))) s := by
  unfold treeRouteWith
  simp only [Reads, wp_ite]
  rw [if_neg (not_or.2 ⟨h.ne_zero hx, h.ne_zero hy⟩)]
  refine (reads_details x).seq fun d t ht hd => (reads_details y).seq fun d' u hu hd' => ?_
  have htu := ht.trans hu
  rw [ht.detailsOf] at hd'
  subst hd hd'
  simp only [Reads, wp_ite]
  rw [if_neg (by simp [h.isNull hx, h.isNull hy])]
  let fn := s.level x
  let tn := s.level y
  refine (reads_climb (fn - tn) x).seq fun r v hv hr => (reads_climb (tn - fn) y).seq fun r' w hw hr' => ?_
  have hparentu : u.parentOf = s.parentOf := htu.parentOf
  have hparentv : v.parentOf = s.parentOf := (htu.trans hv).parentOf
  rw [hparentu] at hr
  rw [hparentv] at hr'
  subst hr hr'
  have hs := (htu.trans hv).trans hw
  obtain ⟨hknown, hlevel⟩ := h.tree.iterate hx (Nat.sub_le fn tn)
  obtain ⟨hknown', hlevel'⟩ := h.tree.iterate hy (Nat.sub_le tn fn)
  have hmeet := reads_meetWith (c := c) (p := p) (q := q) (h.loads hs) hknown hknown'
    (by rw [hs.level, hlevel, hlevel']; omega) (show _ < min fn tn + 1 by rw [hs.level, hlevel]; omega)
  rw [hs.level, hs.parentOf, hlevel] at hmeet
  refine hmeet.seq fun r u' _ ⟨i, hi, heq, hfirst, hr⟩ => ?_
  rw [← iterate_add_apply, ← iterate_add_apply] at heq
  have hlca := h.tree.isLca hx hy (i := i + (fn - tn)) (j := i + (tn - fn)) (by omega) (by omega) heq
      fun i' j' hlt hsame => by
    have hfirst' := hfirst (min i' j') (by omega)
    rw [← iterate_add_apply, ← iterate_add_apply] at hfirst'
    have hi' : i' = min i' j' + (fn - tn) := by omega
    have hj' : j' = min i' j' + (tn - fn) := by omega
    rw [← hi', ← hj'] at hfirst'
    exact hfirst'
  rw [← iterate_add_apply] at hr
  have hpath : path s.parentOf s.level x (s.parentOf^[i + (fn - tn)] x) =
      List.iterate s.parentOf x (fn - tn) ++ List.iterate s.parentOf (s.parentOf^[fn - tn] x) i := by
    rw [h.tree.path_eq_iterate hx (by omega), Nat.add_comm, List.iterate_add]
  have hpath' : path s.parentOf s.level y (s.parentOf^[i + (fn - tn)] x) =
      List.iterate s.parentOf y (tn - fn) ++ List.iterate s.parentOf (s.parentOf^[tn - fn] y) i := by
    rw [heq, h.tree.path_eq_iterate hy (by omega), Nat.add_comm, List.iterate_add]
  subst hr
  refine ⟨.refl u', _, hlca, ?_⟩
  have happend : ∀ {b : Bool} {l l' l'' : List H}, (if b then l else []) ++ ((if b then l' else []) ++ l'') =
      (if b then l ++ l' else []) ++ l'' := fun {b} _ _ _ => by
    cases b
    · rfl
    · exact (List.append_assoc ..).symm
  rw [routeRet, routeBack, hpath, hpath', ← happend, ← happend]

/-! ### No exceptions -/

/-- A call that returns from any state -/
def Total {α : Type} (x : M H α) : Prop := ∀ s, ∃ a t, x s = .ok a t

theorem Total.pure {α : Type} (a : α) : Total (pure a : M H α) := fun s => ⟨a, s, rfl⟩

theorem Total.bind {α β : Type} {x : M H α} {f : α → M H β} (hx : Total x) (hf : ∀ a, Total (f a)) : Total (x >>= f) := by
  intro s
  obtain ⟨a, t, ha⟩ := hx s
  obtain ⟨b, u, hb⟩ := hf a t
  refine ⟨b, u, ?_⟩
  rw [run_bind, ha]
  exact hb

theorem total_details (h : H) : Total (details h) := fun _ => ⟨_, _, rfl⟩

theorem total_climb (k : Nat) (h : H) : Total (climb k h) := by
  induction k generalizing h with
  | zero => exact .pure _
  | succ k ih => exact (total_details h).bind fun d => (ih d.parent).bind fun _ => .pure _

theorem total_meetWith (c p q : Bool) (fuel : Nat) (x y : H) : Total (meetWith c p q fuel x y) := by
  induction fuel generalizing x y with
  | zero => exact .pure _
  | succ fuel ih =>
    unfold meetWith
    extract_lets ret back
    split
    · exact .pure _
    split
    · exact .pure _
    refine (total_details x).bind fun d => (total_details y).bind fun d' => (ih d.parent d'.parent).bind fun r => ?_
    cases r <;> exact .pure _

theorem total_treeRouteWith (c p q : Bool) (x y : H) : Total (treeRouteWith c p q x y) := by
  unfold treeRouteWith
  split
  · exact .pure _
  refine (total_details x).bind fun d => (total_details y).bind fun d' => ?_
  split
  · exact .pure _
  refine (total_climb _ x).bind fun r => (total_climb _ y).bind fun r' => (total_meetWith c p q _ _ _).bind fun m => ?_
  cases m <;> exact .pure _

theorem total_meet (k : Nat) (x y : H) : Total (meet k x y) := by
  induction k generalizing x y with
  | zero => exact .pure _
  | succ k ih =>
    unfold meet
    split
    · exact .pure _
    · exact (total_details x).bind fun d => (total_details y).bind fun d' => (ih d.parent d'.parent).bind fun _ => .pure _

theorem total_treeRoute (x y : H) : Total (treeRoute x y) := by
  unfold treeRoute
  split
  · exact .pure _
  refine (total_details x).bind fun d => (total_details y).bind fun d' => ?_
  split
  · exact .pure _
  exact (total_climb _ x).bind fun r => (total_climb _ y).bind fun r' => (total_meet _ _ _).bind fun _ => .pure _

/-! ### All flags -/

theorem meetWith_eq {k : Nat} (h : s.BlockTree known) (hx : known x) (hy : known y) (hlevel : s.level x = s.level y)
    (hle : s.level x ≤ k) : meetWith true true true (k + 1) x y s = (some <$> meet k x y) s := by
  induction k generalizing s x y with
  | zero =>
    have hzero := Nat.le_zero.1 hle
    have heq : x = y := (h.tree.eq_root hx hzero).trans (h.tree.eq_root hy (hlevel ▸ hzero)).symm
    rw [meetWith, if_pos heq, heq]
    simp [meet, run_map, run_pure]
  | succ k ih =>
    rw [meetWith, meet]
    by_cases heq : x = y
    · rw [if_pos heq, if_pos heq, heq]
      simp [run_map, run_pure]
    rw [if_neg heq, if_neg heq, if_neg (not_or.2 ⟨h.ne_zero hx, h.ne_zero hy⟩)]
    have hpos : s.level x ≠ 0 := fun hzero =>
      heq ((h.tree.eq_root hx hzero).trans (h.tree.eq_root hy (hlevel ▸ hzero)).symm)
    have hxlevel := h.tree.parent_level hx (h.tree.ne_root hpos)
    have hylevel := h.tree.parent_level hy (h.tree.ne_root (hlevel ▸ hpos))
    have ht : Loads s { s with extraDetails := s.extraDetails.query x } := loads_query s x
    generalize hs₁ : ({ s with extraDetails := s.extraDetails.query x } : BlockChain H) = s₁ at ht
    have hd : details x s = .ok (s.detailsOf x) s₁ := by rw [← hs₁]; rfl
    have hu : Loads s₁ { s₁ with extraDetails := s₁.extraDetails.query y } := loads_query s₁ y
    generalize hs₂ : ({ s₁ with extraDetails := s₁.extraDetails.query y } : BlockChain H) = s₂ at hu
    have hd' : details y s₁ = .ok (s₁.detailsOf y) s₂ := by rw [← hs₂]; rfl
    have htu := ht.trans hu
    have hmeet := ih (s := s₂) (x := s.parentOf x) (y := s.parentOf y) (h.loads htu)
        (h.tree.parent_known hx (h.tree.ne_root hpos))
      (h.tree.parent_known hy (h.tree.ne_root (hlevel ▸ hpos))) (by rw [htu.level]; omega) (by rw [htu.level]; omega)
    have hy' : (s₁.detailsOf y).parent = s.parentOf y := by rw [ht.detailsOf]; rfl
    rw [run_bind, run_map, run_bind, hd]
    dsimp only
    rw [run_bind, run_bind, hd']
    dsimp only
    have hx' : (s.detailsOf x).parent = s.parentOf x := rfl
    rw [hx', hy', run_bind, run_bind, hmeet, run_map]
    cases meet k (s.parentOf x) (s.parentOf y) s₂ with
    | ok r u => simp [run_pure, heq]
    | error e u => rfl

/-- With all flags, it is what an insertion calls. -/
theorem treeRoute_eq (h : s.BlockTree known) (hx : known x) (hy : known y) :
    treeRouteWith true true true x y s = (some <$> treeRoute x y) s := by
  unfold treeRouteWith treeRoute
  rw [if_neg (not_or.2 ⟨h.ne_zero hx, h.ne_zero hy⟩), if_neg (not_or.2 ⟨h.ne_zero hx, h.ne_zero hy⟩)]
  obtain ⟨d, t, hd⟩ := total_details x s
  obtain ⟨ht, rfl⟩ := wp_ok (reads_details x) hd
  obtain ⟨d', u, hd'⟩ := total_details y t
  obtain ⟨hu, rfl⟩ := wp_ok (reads_details y) hd'
  rw [run_bind, run_map, run_bind, hd]
  dsimp only
  rw [run_bind, run_bind, hd']
  dsimp only
  have hnull : ¬ ((s.detailsOf x).isNull = true ∨ (t.detailsOf y).isNull = true) := by
    rw [ht.detailsOf, h.isNull hx, h.isNull hy]
    simp
  rw [if_neg hnull, if_neg hnull]
  obtain ⟨r, v, hr⟩ := total_climb ((s.detailsOf x).number - (t.detailsOf y).number) x u
  obtain ⟨hv, rfl⟩ := wp_ok (reads_climb _ x) hr
  obtain ⟨r', w, hr'⟩ := total_climb ((t.detailsOf y).number - (s.detailsOf x).number) y v
  obtain ⟨hw, rfl⟩ := wp_ok (reads_climb _ y) hr'
  rw [run_bind, run_bind, hr]
  dsimp only
  rw [run_bind, run_bind, hr']
  dsimp only
  have htu := ht.trans hu
  have hs := (htu.trans hv).trans hw
  have hfn : (s.detailsOf x).number = s.level x := rfl
  have htn : (t.detailsOf y).number = s.level y := by rw [ht.detailsOf]; rfl
  rw [hfn, htn, htu.parentOf, (htu.trans hv).parentOf]
  obtain ⟨hknown, hlevel⟩ := h.tree.iterate hx (Nat.sub_le (s.level x) (s.level y))
  obtain ⟨hknown', hlevel'⟩ := h.tree.iterate hy (Nat.sub_le (s.level y) (s.level x))
  have hmeet := meetWith_eq (k := min (s.level x) (s.level y)) (h.loads hs) hknown hknown'
    (by rw [hs.level, hlevel, hlevel']; omega) (by rw [hs.level, hlevel]; omega)
  rw [run_bind, run_bind, hmeet, run_map]
  cases meet (min (s.level x) (s.level y)) (s.parentOf^[s.level x - s.level y] x)
    (s.parentOf^[s.level y - s.level x] y) w with
  | ok m u' => simp [run_pure]
  | error e u' => rfl
/-! ### What is documented -/

/-- What is documented of a route, with the lowest common ancestor and its index -/
structure IsRouteWith (s : BlockChain H) (_common _pre _post : Bool) (x y : H) (r : List H × H × Nat) : Prop where
  lca : IsLca s.parentOf s.level x y r.2.1
  route : r.1 = (if _pre then path s.parentOf s.level x r.2.1 else []) ++
    (if _common ∧ (_pre ∨ _post) then [r.2.1] else []) ++
    (if _post then (path s.parentOf s.level y r.2.1).reverse else [])
  index : r.2.2 = (if _pre then (path s.parentOf s.level x r.2.1).length else 0)

def Routes (s : BlockChain H) (_common _pre _post : Bool) (x y : H) : Prop :=
  ∃ r t, treeRouteWith _common _pre _post x y s = .ok (some r) t ∧ s.IsRouteWith _common _pre _post x y r

theorem route_eq {a : H} : s.routeRet c p x a ++ (s.routeBack c p q y a).reverse =
    (if p then path s.parentOf s.level x a else []) ++ (if c ∧ (p ∨ q) then [a] else []) ++
      (if q then (path s.parentOf s.level y a).reverse else []) := by
  cases c <;> cases p <;> cases q <;> simp [routeRet, routeBack]

/-- The way to the ancestor is empty if it is the block itself. -/
theorem path_ne_nil_iff {a : H} (h : s.BlockTree known) (hy : known y) (ha : IsLca s.parentOf s.level x y a) :
    path s.parentOf s.level y a ≠ [] ↔ ¬ Ancestor s.parentOf s.level y x := by
  obtain ⟨hle, hsteps⟩ := (h.tree.ancestor_iff hy).1 ha.right
  rw [not_iff_not, ← List.length_eq_zero_iff, length_path]
  constructor
  · intro hzero
    rw [hzero] at hsteps
    have hya : y = a := hsteps
    rw [hya]
    exact ha.left
  · intro hyx
    have hya := ha.lowest y hyx (Rooted.ancestor_refl y)
    have := ((h.tree.ancestor_iff (h.tree.known_of_ancestor hy ha.right)).1 hya).1
    omega

theorem index_iff {a : H} (h : s.BlockTree known) (hy : known y) (ha : IsLca s.parentOf s.level x y a) :
    (s.routeRet c p x a).length - (if c ∧ s.routeRet c p x a ≠ [] ∧ s.routeBack c p q y a ≠ [] then 1 else 0) =
      (if p then (path s.parentOf s.level x a).length else 0) ↔
    (c = true → p = true → q = true ∧ ¬ Ancestor s.parentOf s.level y x) := by
  rw [← path_ne_nil_iff h hy ha]
  cases c <;> cases p <;> cases q <;> simp [routeRet, routeBack]
  by_cases hnil : path s.parentOf s.level y a = [] <;> simp [hnil]

/-- The route and the ancestor are as documented, and the index is unless nothing stands behind the ancestor in the route. -/
theorem routes_iff (h : s.BlockTree known) (hx : known x) (hy : known y) : s.Routes c p q x y ↔
    (c = true → p = true → q = true ∧ ¬ Ancestor s.parentOf s.level y x) := by
  obtain ⟨r, t, hrun⟩ := total_treeRouteWith c p q x y s
  obtain ⟨-, a, ha, hr⟩ := wp_ok (reads_treeRouteWith h hx hy) hrun
  rw [hr] at hrun
  rw [← index_iff h hy ha]
  constructor
  · rintro ⟨r', t', hrun', hroute⟩
    rw [hrun, EStateM.Result.ok.injEq, Option.some_inj] at hrun'
    obtain ⟨rfl, -⟩ := hrun'
    exact hroute.index
  · intro hindex
    exact ⟨_, t, hrun, ha, route_eq, hindex⟩

open Numbered

/-- A block on top of the first one -/
def grown : BlockChain Nat := { opened with extraDetails := opened.extraDetails.edit 7 ⟨1, 2, hash genesisBlock, []⟩ }

theorem hash_ne_seven : hash genesisBlock ≠ 7 := by decide +kernel

theorem detailsOf_grown : grown.detailsOf (hash genesisBlock) = ⟨0, 1, 0, []⟩ ∧ grown.detailsOf 7 =
    ⟨1, 2, hash genesisBlock, []⟩ := by
  rw [detailsOf, detailsOf, grown, Cached.get_edit_self, Cached.get_edit_of_ne hash_ne_seven, Cached.get_edit_self]
  exact ⟨rfl, rfl⟩

theorem blockTree_grown : grown.BlockTree fun x => x = hash genesisBlock ∨ x = 7 := by
  obtain ⟨hfirst, hsecond⟩ := detailsOf_grown
  have hparent : grown.parentOf 7 = hash genesisBlock := by rw [parentOf, hsecond]
  have hlevel : grown.level (hash genesisBlock) = 0 := by rw [level, hfirst]
  have hlevel' : grown.level 7 = 1 := by rw [level, hsecond]
  refine ⟨⟨hlevel, fun hx hne => ?_, fun hx hne => ?_⟩, fun hx => ?_, fun hx => ?_⟩
  · rw [hx.resolve_left hne]
    exact .inl hparent
  · rw [hx.resolve_left hne, hparent, hlevel, hlevel']
  · rcases hx with rfl | rfl
    · exact BlockSha3.hash_ne_zero _
    · decide
  · rcases hx with rfl | rfl
    · rw [hfirst]
      rfl
    · rw [hsecond]
      rfl

theorem routes_grown : grown.Routes true true true (hash genesisBlock) 7 := by
  refine (routes_iff blockTree_grown (.inl rfl) (.inr rfl)).2 fun _ _ => ⟨rfl, ?_⟩
  rintro ⟨i, hi, heq⟩
  rw [level, detailsOf_grown.1, Nat.le_zero] at hi
  rw [hi] at heq
  exact hash_ne_seven heq

/-- From the first block to itself, which stands at 0 and is said to stand at 1. -/
theorem not_routes : ¬ ∀ (s : BlockChain Nat) (known : Nat → Prop), s.BlockTree known → ∀ x y, known x → known y →
    ∀ c p q, s.Routes c p q x y := by
  intro hroutes
  obtain ⟨r, t, hrun, hroute⟩ := hroutes grown _ blockTree_grown _ _ (.inl rfl) (.inl rfl) true true true
  obtain ⟨-, a, ha, hr⟩ := wp_ok (reads_treeRouteWith blockTree_grown (.inl rfl) (.inl rfl)) hrun
  have hindex := hroute.index
  rw [Option.some_inj] at hr
  rw [hr] at hindex
  exact ((index_iff blockTree_grown (.inl rfl) ha).1 hindex rfl rfl).2 (Rooted.ancestor_refl _)

end Kmdx.Chain.BlockChain
