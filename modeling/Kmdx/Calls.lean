import Kmdx.Commit

/-!
# Runs of calls on a state

The calls a user of `State` makes between a savepoint and its rollback, what one call does whichever it
is (`Mutator.spec`), and the states that any use of the interface can lead to (`Reachable`), all of them
coherent.
-/

namespace Kmdx

open Wp UndoLog Function

variable {H : Type} [Digest H]

namespace State

/-- The mutators that log what they change. -/
inductive Mutator
  | addBalance (a : Address) (amount : U256)
  | subBalance (a : Address) (value : U256)
  | setBalance (a : Address) (value : U256)
  | transferBalance (sender receiver : Address) (value : U256)
  | incNonce (a : Address)
  | setNonce (a : Address) (newNonce : U256)
  | createContract (a : Address)
  | setStorage (a : Address) (key value : U256)
  | clearStorage (a : Address)
  | setCode (a : Address) (code : Bytes)

inductive Query
  | balance (a : Address)
  | getNonce (a : Address)
  | storage (a : Address) (key : U256)
  | storageMap (a : Address)
  | code (a : Address)
  | codeHash (a : Address)
  | addressInUse (a : Address)
  | accountNonemptyAndExisting (a : Address)
  | addressHasCode (a : Address)

inductive Call
  | mutate (m : Mutator)
  | read (q : Query)

def Mutator.run : Mutator → StateM H Unit
  | addBalance a amount => State.addBalance a amount
  | subBalance a value => State.subBalance a value
  | setBalance a value => State.setBalance a value
  | transferBalance sender receiver value => State.transferBalance sender receiver value
  | incNonce a => State.incNonce a
  | setNonce a newNonce => State.setNonce a newNonce
  | createContract a => State.createContract a
  | setStorage a key value => State.setStorage a key value
  | clearStorage a => State.clearStorage a
  | setCode a code => State.setCode a code

def Query.run : Query → StateM H Unit
  | balance a => do let _ ← State.balance a
  | getNonce a => do let _ ← State.getNonce a
  | storage a key => do let _ ← State.storage a key
  | storageMap a => do let _ ← State.storageMap a
  | code a => do let _ ← State.code a
  | codeHash a => do let _ ← State.codeHash a
  | addressInUse a => do let _ ← State.addressInUse a
  | accountNonemptyAndExisting a => do let _ ← State.accountNonemptyAndExisting a
  | addressHasCode a => do let _ ← State.addressHasCode a

def Call.run : Call → StateM H Unit
  | mutate m => m.run
  | read q => q.run

/-- The state after a call that returns or throws; none when the call fails an assertion. -/
def Call.next (c : Call) (s : State H) : Option (State H) :=
  match c.run s with
  | .ok _ s' => some s'
  | .error .assertion _ => none
  | .error _ s' => some s'

theorem Call.next_of_ok {c : Call} {s s' : State H} (h : c.run s = .ok () s') :
    c.next s = some s' := by
  unfold Call.next; rw [h]

end State

/-! ### Alive accounts -/

/-- Every account is alive. -/
def World.AllAlive (w : World H) : Prop := ∀ a v, w a = some v → v.isAlive = true

namespace World.AllAlive
variable {w : World H} {a : Address}

omit [Digest H] in
theorem update {v : AccountView H} (h : w.AllAlive) (hv : v.isAlive = true) :
    AllAlive (update w a (some v)) := by
  intro b u hu
  by_cases hb : b = a
  · rw [hb, update_self] at hu; cases hu; exact hv
  · rw [update_of_ne hb] at hu; exact h b u hu

omit [Digest H] in
theorem upsert {f : AccountView H → AccountView H} {new : AccountView H} (h : w.AllAlive)
    (hf : ∀ v, (f v).isAlive = v.isAlive) (hnew : w a = none → new.isAlive = true) :
    (w.upsert a f new).AllAlive := by
  cases ha : w a with
  | none => rw [World.upsert_of_none ha]; exact h.update (hnew ha)
  | some v => rw [World.upsert_of_some ha]; exact h.update ((hf v).trans (h a v ha))

theorem credit {db : OverlayDB H} {n x : U256} (h : w.AllAlive) : (w.credit db n a x).AllAlive :=
  h.upsert (fun _ => rfl) fun _ => rfl

omit [Digest H] in
theorem debit {x : U256} (h : w.AllAlive) : (w.debit a x).AllAlive := by
  unfold World.debit
  cases ha : w a with
  | none => rw [Option.map_none, ← ha, update_eq_self]; exact h
  | some v => exact h.update (h a v ha)

end World.AllAlive

namespace State

/-! ### One call -/

/-- `Account::setCode` does not mark the account. -/
def Mutator.Marked (s : State H) : Mutator → Prop
  | setCode a _ => (s.view a).isSome → s.ChangedAt a
  | _ => True

/-- `m_cache[a]` finds the account the call is about. -/
def Mutator.OnAccount (s : State H) : Mutator → Prop
  | setStorage a _ _ => (s.view a).isSome
  | clearStorage a => (s.cache.lookup a).isSome
  | setCode a _ => s.ChangedAt a
  | _ => True

/-- What a mutator does, whichever it is. -/
structure Mutator.Post (base : Nat) (s : State H) (m : Mutator) (s' : State H) : Prop where
  ext : Extends Anything base s s'
  exact : m.OnAccount s → (∀ a, m ≠ .clearStorage a) → Extends Eq base s s'
  alive : m.OnAccount s → s.view.AllAlive → s'.view.AllAlive

variable {s s' : State H} {base : Nat}

theorem Mutator.Post.of_extends {m : Mutator} (h : Extends Eq base s s')
    (halive : s.view.AllAlive → s'.view.AllAlive) : m.Post base s s' :=
  ⟨h.weaken (World.respects_anything _), fun _ _ => h, fun _ => halive⟩

theorem Mutator.Post.of_noStartNonce {m : Mutator} {a : Address} {e : Exn}
    (h : NoStartNonce base s a e s') : m.Post base s s' :=
  .of_extends h.ext fun ha => h.view ▸ ha

theorem ChangedAt.isSome {a : Address} (h : s.ChangedAt a) : (s.view a).isSome := by
  obtain ⟨acc, hl, -⟩ := h
  rw [view_of_lookup hl]; rfl

theorem Mutator.spec (h : Coherent base s) (m : Mutator) (hm : m.Marked s) :
    wp m.run (fun _ => m.Post base s) (fun e s' => e = .assertion ∨ m.Post base s s') s := by
  cases m with
  | addBalance a x =>
    refine wp_mono (h.addBalance x) (fun _ s' hs' => ?_) fun _ _ he => .inr (.of_noStartNonce he)
    exact .of_extends hs'.1 fun ha => hs'.2 ▸ ha.credit
  | subBalance a x =>
    refine wp_mono (h.subBalance x) (fun _ s' hs' => ?_) fun e s' he => ?_
    · exact .of_extends hs'.2.1 fun ha => hs'.2.2 ▸ ha.debit
    · exact .inr (.of_extends he.ext fun ha => he.view ▸ ha)
  | setBalance a x =>
    refine wp_mono (h.setBalance x) (fun _ s' hs' => ?_) fun _ _ he => .inr (.of_noStartNonce he)
    exact .of_extends hs'.1 fun ha => hs'.2 ▸ ha.upsert (fun _ => rfl) fun _ => rfl
  | transferBalance a b x =>
    refine wp_mono (h.transferBalance x) (fun _ s' hs' => ?_) fun e s' he => ?_
    · exact .of_extends hs'.2.1 fun ha => hs'.2.2 ▸ ha.debit.credit
    · refine .inr (.of_extends he.1 fun ha => ?_)
      rcases he.2 with he | ⟨-, -, -, hv⟩
      · exact he.view ▸ ha
      · exact hv ▸ ha.debit
  | incNonce a =>
    refine wp_mono h.incNonce (fun _ s' hs' => ?_) fun _ _ he => .inr (.of_noStartNonce he)
    exact .of_extends hs'.1 fun ha => hs'.2 ▸ ha.upsert (fun _ => rfl) fun _ => rfl
  | setNonce a n =>
    refine wp_mono (h.setNonce n fun _ _ => False) (fun _ s' hs' => ?_) fun _ _ => False.elim
    exact .of_extends hs'.1 fun ha => hs'.2 ▸ ha.upsert (fun _ => rfl) fun _ => rfl
  | createContract a =>
    cases hv : s.view a with
    | none =>
      refine wp_mono (h.createContract hv) (fun _ s' hs' => ?_) fun _ _ he => .inr (.of_noStartNonce he)
      exact .of_extends hs'.1 fun ha => hs'.2 ▸ ha.update rfl
    | some v =>
      refine wp_mono (h.createContract_inUse (by simp [hv])) (fun _ _ => False.elim) fun e s' he => ?_
      rcases he with he | rfl
      exacts [.inl he, .inr (.of_extends h.refl id)]
  | setStorage a key value =>
    refine wp_mono (h.setStorage key value (E := fun _ _ => False)) (fun _ s' hs' => ?_)
      fun _ _ => False.elim
    refine ⟨hs'.1, fun hin _ => hs'.2.2 hin, fun hin ha => ?_⟩
    rw [hs'.2.1]
    exact ha.upsert (fun _ => rfl) fun hnone => by rw [Mutator.OnAccount, hnone] at hin; cases hin
  | clearStorage a =>
    cases hl : s.cache.lookup a with
    | none =>
      refine wp_mono (h.clearStorage_uncached hl (E := fun _ _ => False)) (fun _ s' hs' => ?_)
        fun _ _ => False.elim
      have hno : ¬ (Mutator.clearStorage a).OnAccount s := by simp [Mutator.OnAccount, hl]
      exact ⟨hs'.1, fun hin => absurd hin hno, fun hin => absurd hin hno⟩
    | some acc =>
      refine wp_mono (h.clearStorage_cached hl (E := fun _ _ => False)) (fun _ s' hs' => ?_)
        fun _ _ => False.elim
      refine ⟨hs'.1, fun _ hne => absurd rfl (hne a), fun _ ha => ?_⟩
      rw [hs'.2.1]
      have hal := ha a _ (view_of_lookup hl)
      refine ha.update ?_
      unfold AccountView.clearStorage
      split <;> exact hal
  | setCode a code =>
    refine wp_mono (h.setCode hm code (E := fun _ _ => False)) (fun _ s' hs' => ?_)
      fun _ _ => False.elim
    refine ⟨hs'.1, fun hin _ => (hs'.2.2 hin.isSome).1, fun hin ha => ?_⟩
    rw [hs'.2.1]
    exact ha.upsert (fun _ => rfl) fun hnone => by have := hin.isSome; rw [hnone] at this; cases this

omit [Digest H] in
theorem wp_discard {α : Type} {x : StateM H α} {Q : α → State H → Prop} {P : State H → Prop}
    {s : State H} (h : wp x Q (fun _ _ => False) s) (hQ : ∀ v s', Q v s' → P s') :
    wp (do let _ ← x) (fun _ => P) (fun _ _ => False) s := by
  rw [wp_bind]
  exact wp_mono h hQ fun _ _ => False.elim

theorem Query.spec (h : Coherent base s) (q : Query) :
    wp q.run (fun _ s' => Extends Eq base s s' ∧ s'.view = s.view) (fun _ _ => False) s := by
  cases q with
  | balance a => exact wp_discard h.balance fun _ _ h => h.2
  | getNonce a => exact wp_discard (isRead_getNonce _ _ h _) fun _ _ h => h.2
  | storage a key => exact wp_discard (h.storage key) fun _ _ h => ⟨h.2.ext, h.2.view⟩
  | storageMap a =>
    simp only [Query.run, State.storageMap, wp_bind]
    refine h.wp_account' (fun acc t ht hview _ _ => ?_) fun t ht hview _ _ => ?_
    exacts [⟨ht, hview⟩, ⟨ht, hview⟩]
  | code a => exact wp_discard h.code fun _ _ h => ⟨h.2.ext, h.2.view⟩
  | codeHash a => exact wp_discard (isRead_codeHash _ _ h _) fun _ _ h => h.2
  | addressInUse a => exact wp_discard (isRead_addressInUse _ _ h _) fun _ _ h => h.2
  | accountNonemptyAndExisting a =>
    exact wp_discard (isRead_accountNonemptyAndExisting _ _ h _) fun _ _ h => h.2
  | addressHasCode a => exact wp_discard (isRead_addressHasCode _ _ h _) fun _ _ h => h.2

theorem next_of_wp {c : Call} {P : State H → Prop}
    (h : wp c.run (fun _ => P) (fun e s' => e = .assertion ∨ P s') s) (hn : c.next s = some s') : P s' := by
  unfold Call.next at hn
  cases hr : c.run s with
  | ok a t =>
    rw [hr] at hn
    cases hn; exact wp_ok h hr
  | error e t =>
    have ht := wp_error h hr
    rw [hr] at hn
    cases e <;> cases hn <;> exact ht.resolve_left nofun

theorem Mutator.next_post {m : Mutator} (h : Coherent base s)
    (hm : m.Marked s) (hn : Call.next (.mutate m) s = some s') : m.Post base s s' :=
  next_of_wp (c := .mutate m) (m.spec h hm) hn

theorem Query.next_extends {q : Query} (h : Coherent base s)
    (hn : Call.next (.read q) s = some s') : Extends Eq base s s' ∧ s'.view = s.view :=
  next_of_wp (c := .read q) (wp_mono (q.spec h) (fun _ _ h => h) fun _ _ => False.elim) hn

/-! ### Any use of the interface -/

/-- `setCode` is called on an account that is marked, or on none. -/
def Call.Marked (s : State H) : Call → Prop
  | mutate m => m.Marked s
  | read _ => True

/-- The states that can be reached, each with the lowest savepoint that a rollback may still go to. -/
inductive Reachable : Nat → State H → Prop
  | empty {n : U256} {db : OverlayDB H} {engine : Nat → Nat} (h : db.Ok) :
    Reachable 0 (State.empty n db engine)
  | preExisting {n : U256} {db : OverlayDB H} {root : H} {engine : Nat → Nat} (h : db.Ok) :
    Reachable 0 (State.preExisting n db root engine)
  | copy {base : Nat} {s : State H} (h : Reachable base s) : Reachable 0 s.copy
  | call {base : Nat} {s s' : State H} {c : Call} (h : Reachable base s) (hc : c.Marked s)
    (hn : c.next s = some s') : Reachable base s'
  | rollback {base savepoint : Nat} {s : State H} (h : Reachable base s) (hb : base ≤ savepoint)
    (hs : savepoint ≤ s.changeLog.length) : Reachable base (after (State.rollback savepoint) s)
  | kill {base : Nat} {s : State H} {a : Address} (h : Reachable base s) :
    Reachable s.changeLog.length (after (State.kill a) s)
  | commit {base : Nat} {s : State H} {behaviour : CommitBehaviour} (h : Reachable base s) :
    Reachable 0 (after (State.commit behaviour) s)
  | setRoot {base : Nat} {s : State H} {root : H} (h : Reachable base s) :
    Reachable s.changeLog.length (after (State.setRoot root) s)
  | clearCache {base : Nat} {s : State H} (h : Reachable base s) :
    Reachable s.changeLog.length (after State.clearCache s)

/-- A state with nothing in the cache. -/
theorem Coherent.of_empty_cache (hc : s.cache = ∅) (hdb : s.db.Ok)
    (hne : ∀ a ∈ s.nonExistingAccountsCache, s.trieAt a = none) : Coherent s.changeLog.length s where
  base_le := Nat.le_refl _
  db := hdb
  nonExisting := hne
  cached a acc ha := by simp [hc] at ha
  alive a acc ha := by simp [hc] at ha
  logged a _ := logOf_length s a

theorem Coherent.copy (h : Coherent base s) : Coherent 0 s.copy where
  base_le := Nat.zero_le _
  db := h.db
  nonExisting := h.nonExisting
  cached a acc ha :=
    have hok := h.cached a acc ha
    ⟨hok.ok, fun hu => ⟨rfl, (hok.clean hu).2⟩, trivial⟩
  alive := h.alive
  logged _ _ := rfl

theorem Reachable.coherent (h : Reachable base s) : Coherent base s := by
  induction h with
  | @empty n db engine h =>
    have hst : ∀ root a r, (State.empty n db engine).db.stateTries root a = some r →
        db.stateTries root a = some r := by
      intro root a r hr
      simp only [State.empty, State.preExisting] at hr
      by_cases he : root = Digest.stateRoot fun _ => none
      · rw [he, update_self] at hr; cases hr
      · rwa [update_of_ne he] at hr
    exact Coherent.of_empty_cache (s := State.empty n db engine) rfl ⟨
      fun root a r hr => h.storage root a r (hst root a r hr),
      fun root a r hr => h.code root a r (hst root a r hr)⟩ (by simp [State.empty, State.preExisting])
  | @preExisting n db root engine h =>
    exact Coherent.of_empty_cache (s := State.preExisting n db root engine) rfl h
      (by simp [State.preExisting])
  | copy _ ih => exact ih.copy
  | @call base s s' c _ hc hn ih =>
    cases c with
    | mutate m => exact (m.next_post ih hc hn).ext.coherent
    | read q => exact (q.next_extends ih hn).1.coherent
  | rollback _ hb hs ih =>
    obtain ⟨s', hs', hcoh, -⟩ := ih.rollbackLoop _ rfl hb hs
    have : after (State.rollback _) _ = s' := hs'
    rw [this]; exact hcoh
  | @kill base s a _ ih =>
    refine wp_after (P := Coherent s.changeLog.length) (wp_mono (ih.kill (E := fun _ _ => False)) ?_ fun _ _ => False.elim)
    intro _ s' ⟨h, hl, _⟩
    rwa [← hl]
  | commit _ ih =>
    exact wp_after (wp_mono (wp_commit _ ih (E := fun _ _ => False)) (fun _ _ h => h.1)
      fun _ _ => False.elim)
  | @setRoot base s root _ ih =>
    exact Coherent.of_empty_cache (s := after (State.setRoot root) s) rfl ih.db
      (by simp [State.setRoot, after, run_modify])
  | @clearCache base s _ ih =>
    exact Coherent.of_empty_cache (s := after State.clearCache s) rfl ih.db ih.nonExisting

end State

end Kmdx
