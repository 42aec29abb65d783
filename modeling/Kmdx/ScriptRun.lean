import Kmdx.Frame

/-!
# What a script does to the state

Each service of `ExtVM` moves the state as its trace says, a call of another contract by way of the frame
it begins; so does, by induction, every script (`Script.run_moves`).
-/

namespace Kmdx

open Wp UndoLog State Function

variable {H : Type} [Digest H] {c : Context H} {R : World H → World H → Prop} {base : Nat}

namespace Executive
variable {s : State H} {e : Executive H}

theorem Begun.of_looks {P : State H → Prop} {t s' : State H} {r : Bool × Executive H}
    (hR : ∀ db, World.Fine db R) (h : Looks base s t) (hr : Begun R base P t r s') :
    Begun R base P s r s' := by
  obtain ⟨s₀, hP, h₀, h₁, hready⟩ := hr
  exact ⟨s₀, hP, (h.moves (hR _)).trans (hR _) h₀, h₁, hready⟩

/-- What `createOpcode` does before the savepoint. -/
def countCreation (c : Context H) (sender : Address) : StateM H Unit := do
  let _ ← State.getNonce sender
  countNonce c sender

theorem wp_createOpcode (h : Coherent base s) (hR : ∀ db, World.Fine db R) (he : e.Fresh)
    (sender : Address) (endowment gasPrice gas : U256) (init : Bytes) (origin : Address) :
    wp (e.createOpcode c sender endowment gasPrice gas init origin)
      (Begun R base (fun s₀ => countCreation c sender s = .ok () s₀) s) (c.NoWrap s) s := by
  unfold createOpcode
  rw [wp_bind]
  refine wp_mono (wp_run (wp_isRead isRead_getNonce h (E := fun _ _ => False))) ?_ fun _ _ => False.elim
  rintro nonce t ⟨hrun, -, ht⟩
  refine wp_mono (wp_executeCreate ht.ext.coherent hR (he.withAddress _) ..) ?_
    fun _ _ he => .of_moves (ht.moves (hR _)) he
  rintro r s' ⟨s₀, hcount, hr⟩
  refine .of_looks hR ht ⟨s₀, ?_, hr⟩
  rw [countCreation, run_bind, hrun]
  exact hcount

theorem wp_create2Opcode (h : Coherent base s) (hR : ∀ db, World.Fine db R) (he : e.Fresh)
    (sender : Address) (endowment gasPrice gas : U256) (init : Bytes) (origin : Address) (salt : U256) :
    wp (e.create2Opcode c sender endowment gasPrice gas init origin salt)
      (Begun R base (fun s₀ => countNonce c sender s = .ok () s₀) s) (c.NoWrap s) s :=
  wp_executeCreate h hR (he.withAddress _) ..

end Executive

namespace ExtVM
variable {s s' : State H} {vm : Vm H} {ext : ExtVM H}

theorem Moved.of_moves {ext' : ExtVM H} (h : State.Moves R base s s' 0)
    (ha : ext'.myAddress = ext.myAddress) (ht : ext'.trace.burnt = ext.trace.burnt) :
    ext.Moved R base s ext' s' := ⟨ha, 0, ht, h⟩

theorem wp_goAndAccrue {P : State H → Prop} {r : Bool × Executive H} (hR : ∀ db, World.Fine db R)
    (hc : c.Clears R) (hvm : vm.Moves c R base) (h : Executive.Begun R base P s r s') :
    wp (ext.goAndAccrue c vm r.1 r.2) (fun p s'' => ext.Moved R base s p.1 s'') (c.NoWrap s) s' := by
  obtain ⟨s₀, -, h₀, h₁, hready⟩ := h
  unfold goAndAccrue
  rw [wp_ite]
  split
  · exact .of_moves (h₀.trans (hR _) h₁) rfl rfl
  · next hdone =>
    rw [wp_bind]
    refine wp_mono (Executive.wp_go hR hc hvm (hready (by simpa using hdone)) h₀.ext.coherent.base_le) ?_
      fun _ _ he => .of_moves h₀ he
    rintro e t he
    refine ⟨rfl, _, ?_, h₀.trans (hR _) he.moves⟩
    show ext.trace.burnt + (if decide (e.excepted = .none) = true then (e.ext.elim Trace.nil _).burnt else 0) = _
    cases he : e.ext <;> simp [Executive.burnt, he, Trace.burnt]

theorem wp_call (h : Coherent base s) (hR : ∀ db, World.Fine db R) (hc : c.Clears R)
    (hvm : vm.Moves c R base) (p : CallParameters) :
    wp (ext.call c vm p) (fun r s' => ext.Moved R base s r.1 s') (c.NoWrap s) s := by
  unfold call
  rw [wp_bind]
  refine wp_mono (Executive.wp_call h hR ⟨rfl, rfl, rfl, rfl⟩ p _ _) ?_ fun _ _ h => h
  intro r s' hr
  rw [wp_bind]
  exact wp_mono (wp_goAndAccrue hR hc hvm hr) (fun _ _ h => h) fun _ _ h => h

theorem wp_create (h : Coherent base s) (hR : ∀ db, World.Fine db R) (hc : c.Clears R)
    (hvm : vm.Moves c R base) (endowment gas : U256) (code : Bytes) (salt : Option U256) :
    wp (ext.create c vm endowment gas code salt) (fun r s' => ext.Moved R base s r.1 s')
      (c.NoWrap s) s := by
  have hcreate : wp (createOp c { depth := ext.depth + 1 } ext endowment gas code salt)
      (Executive.Begun R base (fun _ => True) s) (c.NoWrap s) s := by
    cases salt with
    | none =>
      refine wp_mono (Executive.wp_createOpcode h hR ⟨rfl, rfl, rfl, rfl⟩ ..) ?_ fun _ _ h => h
      rintro r s' ⟨s₀, -, hr⟩
      exact ⟨s₀, trivial, hr⟩
    | some salt =>
      refine wp_mono (Executive.wp_create2Opcode h hR ⟨rfl, rfl, rfl, rfl⟩ ..) ?_ fun _ _ h => h
      rintro r s' ⟨s₀, -, hr⟩
      exact ⟨s₀, trivial, hr⟩
  unfold create
  rw [wp_bind]
  refine wp_mono hcreate ?_ fun _ _ h => h
  intro r s' hr
  rw [wp_bind]
  exact wp_mono (wp_goAndAccrue hR hc hvm hr) (fun _ _ h => h) fun _ _ h => h

theorem wp_setStore (h : Coherent base s) (hR : World.Fine s.db R)
    (hin : (s.view ext.myAddress).isSome) (n v : U256) :
    wp (ext.setStore n v) (fun _ s' => State.Moves R base s s' 0) (c.NoWrap s) s := by
  unfold setStore
  refine wp_mono (h.setStorage n v (E := fun _ _ => False)) ?_ fun _ _ => False.elim
  rintro _ s' ⟨-, hv, hext⟩
  obtain ⟨w, hw⟩ := Option.isSome_iff_exists.1 hin
  refine .of_balance ((hext hin).weaken hR.respects) ?_ fun b => ?_
  · rw [hv]; exact World.keeps_upsert _ _
  · rw [hv, World.upsert_of_some hw, World.balance_update]
    split
    · next hb => rw [hb, World.balance, hw]; rfl
    · rfl

/-- The balance goes to the beneficiary, and is gone if that is the contract itself. -/
theorem wp_suicide (h : Coherent base s) (hR : ∀ db, World.Fine db R) (a : Address) :
    wp (ext.suicide c a) (fun ext' s' => ext.Moved R base s ext' s') (c.NoWrap s) s := by
  unfold suicide
  rw [wp_bind]
  refine wp_mono (h.balance (E := fun _ _ => False)) ?_ fun _ _ => False.elim
  rintro _ s₁ ⟨rfl, h₁, hv₁⟩
  rw [wp_bind]
  refine wp_mono (c.wp_addBalance h₁.coherent) ?_ fun e t he hm ha => ?_
  · rintro _ s₂ ⟨h₂, hv₂⟩
    rw [wp_bind]
    refine wp_mono (h₂.coherent.setBalance 0) ?_ fun _ _ he => .of_ne (by rw [he.exn]; nofun)
    rintro _ s₃ ⟨h₃, hv₃⟩
    have hext := ((h₁.trans (.eq _) h₂).trans (.eq _) h₃).weaken (hR _).respects
    refine ⟨rfl, _, rfl, hext, ?_, fun hlt => ?_⟩
    · rw [hv₃, hv₂, hv₁]
      exact (World.keeps_upsert _ _).trans (World.keeps_upsert _ _)
    · -- what the contract had before it ended is what it had, or twice that
      have hzero := World.total_update s₂.view ext.myAddress (s₃.view ext.myAddress)
      have hself : update s₂.view ext.myAddress (s₃.view ext.myAddress) = s₃.view := by
        rw [hv₃, World.upsert, update_self]
      have hnone : (s₃.view ext.myAddress).elim 0 (·.balance) = (0 : U256) := by
        rw [hv₃, World.upsert, update_self]
        cases s₂.view ext.myAddress <;> rfl
      rw [hself, hnone, hv₂, World.balance_credit, hv₁] at hzero
      have hbal := World.balance_le_total s.view ext.myAddress
      by_cases hown : a = ext.myAddress
      · have hupd := World.total_update (s.view.credit s₁.db s₁.accountStartNonce a
          (s.view.balance ext.myAddress)) a none
        have hcr := World.total_update_none s.view a
        have hidem : update (s.view.credit s₁.db s₁.accountStartNonce a
            (s.view.balance ext.myAddress)) a none = update s.view a none := by
          rw [World.credit, World.upsert, update_idem]
        rw [hidem, World.balance_credit, if_pos rfl] at hupd
        rw [if_pos hown.symm] at hzero
        rw [if_pos hown]
        subst hown
        simp only [Option.elim_none] at hupd hzero
        omega
      · have hsum := World.balance_add_balance_le_total s.view hown
        rw [if_neg (Ne.symm hown), World.total_credit _ _ _ _ _ (by omega)] at hzero
        rw [if_neg hown]
        have hz : (0 : U256).toNat = 0 := rfl
        omega
  · obtain ⟨hw, hle⟩ := he hm
    rw [hv₁] at hle
    have harith := ha _ hw
    by_cases hown : a = ext.myAddress
    · rw [if_pos hown] at harith; cases harith
    · have := World.balance_add_balance_le_total s.view hown
      omega

/-- The block hash comes from a transaction, which is watched for. -/
theorem wp_blockHash (h : Coherent base s) (hR : ∀ db, World.Fine db R)
    (hn : c.monitor .nestedTransaction = true) (number : U256) :
    wp (ext.blockHash c vm number) (fun _ s' => State.Moves R base s s' 0) (c.NoWrap s) s := by
  unfold blockHash
  dsimp only
  rw [wp_ite]
  split
  · exact .refl (hR _) h
  rw [wp_ite]
  split
  · split
    · exact .refl (hR _) h
    · exact fun hm => nomatch hm
  · rw [wp_bind]
    refine wp_mono (wp_isRead isRead_getNonce h (E := fun _ _ => False)) ?_ fun _ _ => False.elim
    rintro nonce t ⟨-, ht⟩
    rw [wp_bind]
    refine c.wp_stopIf (fun hf => absurd (hf hn) nofun) fun _ _ _ ha => ?_
    cases ha _ hn

end ExtVM

/-- There is no `BLOCKHASH` in the script or in what it calls. -/
def Script.noBlockHash : Script → Bool
  | stop _ _ | revert _ _ | vmException _ | throw _ _ => true
  | setStore _ _ next | log _ _ next | addRefund _ next | read _ next | suicide _ next =>
    next.noBlockHash
  | call _ callee next | create _ _ _ _ callee next => callee.noBlockHash && next.noBlockHash
  | blockHash _ _ _ => false

theorem Script.run_moves (hR : ∀ db, World.Fine db R) (hc : c.Clears R) (script : Script)
    (hn : c.monitor .nestedTransaction = true ∨ script.noBlockHash = true) :
    (script.run c).Moves c R base := by
  have hthen : ∀ {ext ext' : ExtVM H} {given : U256} {s s' : State H} {vm : Vm H},
      vm.Moves c R base → (s.view ext.myAddress).isSome → ext.Moved R base s ext' s' →
      wp (vm ext' given) (fun r t => ext.Moved R base s r.ext t) (c.NoWrap s) s' := by
    rintro ext ext' given s s' vm hvm hin ⟨ha, out, hout, hm⟩
    refine wp_mono (hvm ext' given s' hm.ext.coherent ?_) (fun r t hr => ?_)
      fun _ _ he => .of_moves hm he
    · rw [ha]; exact hm.keeps _ hin
    · exact .trans (hR _) ⟨ha, out, hout, hm⟩ hr
  induction script with
  | stop output gas => exact fun ext given s h _ => .of_moves (.refl (hR _) h) rfl rfl
  | revert output gas => exact fun ext given s h _ => .of_moves (.refl (hR _) h) rfl rfl
  | vmException x => exact fun ext given s h _ => .of_moves (.refl (hR _) h) rfl rfl
  | throw x hx => exact fun ext given s h _ => fun he => absurd he hx
  | setStore n v next ih =>
    intro ext given s h hin
    rw [run, wp_bind]
    exact wp_mono (ext.wp_setStore h (hR _) hin n v)
      (fun _ _ hs' => hthen (ih hn) hin (.of_moves hs' rfl rfl)) fun _ _ h => h
  | log topics data next ih =>
    intro ext given s h hin
    rw [run]
    exact hthen (ih hn) hin (.of_moves (.refl (hR _) h) rfl rfl)
  | addRefund x next ih =>
    intro ext given s h hin
    rw [run]
    exact hthen (ih hn) hin (.of_moves (.refl (hR _) h) rfl rfl)
  | read q next ih =>
    intro ext given s h hin
    rw [run, wp_bind]
    refine wp_mono (q.spec h) (fun _ s' hs' => ?_) fun _ _ => False.elim
    exact hthen (ih hn) hin (.of_moves (.of_view (hR _) hs'.1 hs'.2) rfl rfl)
  | suicide a next ih =>
    intro ext given s h hin
    rw [run, wp_bind]
    exact wp_mono (ext.wp_suicide h hR a) (fun _ _ hs' => hthen (ih hn) hin hs') fun _ _ h => h
  | call p callee next ihc ih =>
    intro ext given s h hin
    simp only [noBlockHash, Bool.and_eq_true] at hn
    rw [run, wp_bind]
    exact wp_mono (ext.wp_call h hR hc (ihc (hn.imp_right (·.1))) p)
      (fun _ _ hs' => hthen (ih (hn.imp_right (·.2))) hin hs') fun _ _ h => h
  | create endowment gas code salt callee next ihc ih =>
    intro ext given s h hin
    simp only [noBlockHash, Bool.and_eq_true] at hn
    rw [run, wp_bind]
    exact wp_mono (ext.wp_create h hR hc (ihc (hn.imp_right (·.1))) endowment gas code salt)
      (fun _ _ hs' => hthen (ih (hn.imp_right (·.2))) hin hs') fun _ _ h => h
  | blockHash number callee next ihc ih =>
    have hn := hn.resolve_right nofun
    intro ext given s h hin
    rw [run, wp_bind]
    exact wp_mono (ext.wp_blockHash h hR hn number)
      (fun _ _ hs' => hthen (ih (.inl hn)) hin (.of_moves hs' rfl rfl)) fun _ _ h => h

end Kmdx
