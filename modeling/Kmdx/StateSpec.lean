import Kmdx.Coherent

/-!
# What each call on the state does

One lemma for each call, from a coherent state: the view it leaves (a function of the view it found)
and how much of it the entries it logged take back. `Extends Anything` is the part that always holds:
the caches still tell the truth and the log has only grown.
-/

namespace Kmdx

open Wp UndoLog Function

variable {H : Type} [Digest H]

namespace World

/-- Change the account at `a`, or make the account `new` there. -/
def upsert (w : World H) (a : Address) (f : AccountView H → AccountView H) (new : AccountView H) :
    World H :=
  update w a (some ((w a).elim new f))

/-- `State::addBalance` -/
def credit (db : OverlayDB H) (startNonce : U256) (w : World H) (a : Address) (x : U256) : World H :=
  w.upsert a (fun v => { v with balance := v.balance + x }) (.new db startNonce x)

/-- `State::subBalance` -/
def debit (w : World H) (a : Address) (x : U256) : World H :=
  update w a ((w a).map fun v => { v with balance := v.balance - x })

/-- `State::balance` -/
def balance (w : World H) (a : Address) : U256 := (w a).elim 0 (·.balance)

omit [Digest H] in
theorem upsert_of_some {w : World H} {a : Address} {v : AccountView H} (h : w a = some v)
    (f : AccountView H → AccountView H) (new : AccountView H) :
    w.upsert a f new = update w a (some (f v)) := by
  rw [upsert, h]; rfl

omit [Digest H] in
theorem upsert_of_none {w : World H} {a : Address} (h : w a = none)
    (f : AccountView H → AccountView H) (new : AccountView H) :
    w.upsert a f new = update w a (some new) := by
  rw [upsert, h]; rfl

/-- Undoing an entry other than `Create` gives the account back that its undoing makes. -/
theorem undo_update {db : OverlayDB H} {c : Change H} {w : World H} {v v' : AccountView H}
    (hw : w c.address = some v) (hc : ∀ a, c ≠ .create a) (hv : v'.undo db c = v) :
    World.undo db c (update w c.address (some v')) = w := by
  rw [World.undo, update_self, Change.undo_some hc, hv, update_idem, ← hw,
    update_eq_self]

theorem undo_create {db : OverlayDB H} {a : Address} {w : World H} {o : Option (AccountView H)}
    (hw : w a = none) : World.undo db (.create a) (update w a o) = w := by
  rw [World.undo]
  simp only [Change.address, Change.undo, update_idem, ← hw, update_eq_self]

/-- Undoing entries of one account changes that account only. -/
theorem undoAll_update (db : OverlayDB H) {a : Address} {l : List (Change H)}
    (hl : ∀ c ∈ l, c.address = a) {w : World H} {o : Option (AccountView H)} :
    ∃ o', undoAll (World.undo db) l (update w a o) = update w a o' := by
  induction l generalizing o with
  | nil => exact ⟨o, rfl⟩
  | cons c l ih =>
    obtain rfl := hl c (List.mem_cons_self ..)
    have hc : World.undo db c (update w c.address o) =
        update w c.address (World.undo db c (update w c.address o) c.address) := by
      simp only [World.undo, update_idem, update_self]
    rw [undoAll_cons, hc]
    exact ih fun c' hc' => hl c' (List.mem_cons_of_mem _ hc')

end World

/-- What `clearStorage` leaves of an account. -/
def AccountView.clearStorage (db : OverlayDB H) (v : AccountView H) : AccountView H :=
  if v.storageRoot = emptyTrie then v
  else { v with storageRoot := emptyTrie, storage := db.storageTrie emptyTrie }

/-- Relates all worlds. -/
def Anything (_ _ : World H) : Prop := True

theorem World.respects_anything (db : OverlayDB H) : World.Respects db Anything :=
  ⟨fun _ => trivial, fun _ _ => trivial, fun _ _ _ _ => trivial⟩

namespace State

variable {base : Nat} {s : State H} {a : Address}

omit [Digest H] in
theorem wp_log {c : Change H} {Q : Unit → State H → Prop} {E : Exn → State H → Prop} :
    wp (log c) Q E s ↔ Q () { s with changeLog := c :: s.changeLog } := Iff.rfl

omit [Digest H] in
theorem wp_put {acc : Account H} {Q : Unit → State H → Prop} {E : Exn → State H → Prop} :
    wp (put a acc) Q E s ↔ Q () { s with cache := s.cache.insert a acc } := Iff.rfl

omit [Digest H] in
theorem wp_savepoint {Q : Nat → State H → Prop} {E : Exn → State H → Prop} :
    wp savepoint Q E s ↔ Q s.changeLog.length s := Iff.rfl

theorem Coherent.refl (h : Coherent base s) : Extends Eq base s s := .refl h (.eq _)

/-! ### Journaled changes of one account -/

variable {l : List (Change H)} {acc acc' : Account H} {s' : State H}

/-- The account at `a` becomes `acc'` and the entries `l` are logged. -/
theorem Coherent.journal (h : Coherent base s) (ha : s.cache.lookup a = some acc)
    (hs' : s' = { s with cache := s.cache.insert a acc', changeLog := l ++ s.changeLog })
    (hl : ∀ c ∈ l, c.address = a) (hok : acc'.Ok s.db) (hd : acc'.isUnchanged = false)
    (hlog : LogOk s.db (s.trieAt a) (acc'.view s.db) (l ++ s.logOf base a))
    (hal : acc'.isAlive = acc.isAlive) :
    Extends Anything base s s' ∧ s'.view = update s.view a (some (acc'.view s.db)) := by
  subst hs'
  refine ⟨⟨?_, rfl, rfl, rfl, ⟨l, rfl, trivial⟩⟩, view_put s a acc' _⟩
  exact h.insert a acc' l rfl rfl rfl (Finset.Subset.refl _) rfl hl
    ⟨hok, fun hu => by simp [hd] at hu, hlog⟩ fun ha' => h.alive a acc ha (hal ▸ ha')

/-- Work that undoing takes back up to anything and, in particular, up to `R`. -/
theorem Extends.strengthen {R : World H → World H → Prop}
    (h : Extends Anything base s s') (hl : s'.changeLog = l ++ s.changeLog)
    (hu : R (undoAll (World.undo s.db) l s'.view) s.view) : Extends R base s s' :=
  ⟨h.coherent, h.db, h.root, h.accountStartNonce, l, hl, hu⟩

variable {E : Exn → State H → Prop}

/-- `account a`, by cases on whether there is one. -/
theorem Coherent.wp_account' (h : Coherent base s) {Q : Option (Account H) → State H → Prop}
    (hsome : ∀ acc t, Extends Eq base s t → t.view = s.view → t.cache.lookup a = some acc →
      s.view a = some (acc.view s.db) → Q (some acc) t)
    (hnone : ∀ t, Extends Eq base s t → t.view = s.view → t.peek a = none →
      s.view a = none → Q none t) : wp (account a) Q E s := by
  rw [wp_account]
  have hview := (h.load a).2
  have hl := lookup_load s a
  cases hp : s.peek a with
  | some acc => exact hsome acc _ (h.extends_load a) hview (hl.trans hp) (by simp [State.view, hp])
  | none =>
    have hv : s.view a = none := by simp [State.view, hp]
    have hv' : (s.load a).view a = none := by rw [hview, hv]
    exact hnone _ (h.extends_load a) hview (by simpa [State.view] using hv') hv

omit [Digest H] in
theorem wp_requireAccountStartNonce {Q : U256 → State H → Prop} {E : Exn → State H → Prop}
    (hok : s.accountStartNonce ≠ invalid256 → Q s.accountStartNonce s)
    (herr : s.accountStartNonce = invalid256 → E .invalidAccountStartNonceInState s) :
    wp requireAccountStartNonce Q E s := by
  simp only [requireAccountStartNonce, wp_bind, wp_get, wp_ite, wp_throw, wp_pure]
  split
  exacts [herr ‹_›, hok ‹_›]

/-- The state after `createAccount a acc` where there is no account. -/
def created (s : State H) (a : Address) (acc : Account H) : State H :=
  { s.load a with
    cache := (s.load a).cache.insert a acc
    nonExistingAccountsCache := (s.load a).nonExistingAccountsCache.erase a
    changeLog := .create a :: (s.load a).changeLog }

variable {Q : Unit → State H → Prop}

theorem wp_createAccount (hp : s.view a = none) (hQ : Q () (s.created a acc)) : wp (createAccount a acc) Q E s := by
  have hpeek : s.peek a = none := by simpa [view] using hp
  simp only [createAccount, addressInUse, wp_bind, wp_account, hpeek]
  exact hQ

/-- An account is made and `l`, entries for it, are logged too. -/
theorem Coherent.create (l : List (Change H)) (h : Coherent base s) (hp : s.view a = none)
    (hs' : s' = { s.created a acc with changeLog := l ++ (s.created a acc).changeLog })
    (hl : ∀ c ∈ l, c.address = a) (hok : acc.Ok s.db) (hd : acc.isUnchanged = false)
    (hlog : ∀ t, t = none → LogOk s.db t (acc.view s.db) (l ++ [.create a])) :
    Extends Eq base s s' ∧ s'.view = update s.view a (some (acc.view s.db)) := by
  have ht := h.extends_load a
  have hview := (h.load a).2
  have hlook := lookup_load s a
  rw [show s.peek a = none by simpa [State.view] using hp] at hlook
  unfold created at hs'
  generalize s.load a = t at ht hview hlook hs'
  have htrie : t.trieAt a = none := by
    have := ht.coherent.view_eq_trieView hlook
    simpa [hview, hp, trieView] using this.symm
  have hcoh : Coherent base s' := by
    refine ht.coherent.insert a acc (l ++ [.create a]) (by rw [hs']) (by rw [hs']) (by rw [hs'])
      (by rw [hs']; exact Finset.erase_subset ..) (by rw [hs']; simp) ?_ ?_ ?_
    · intro c hc
      rcases List.mem_append.1 hc with hc | hc
      · exact hl c hc
      · simp only [List.mem_singleton] at hc; rw [hc]; rfl
    · rw [ht.coherent.logged a hlook, List.append_nil, ht.db]
      exact ⟨hok, fun hu => by simp [hd] at hu, hlog _ htrie⟩
    · intro _; rw [hs']; exact Finset.notMem_erase a t.nonExistingAccountsCache
  have hv : s'.view = update s.view a (some (acc.view s.db)) := by
    rw [← hview, ← ht.db]
    exact view_insert acc (by rw [hs']) (by rw [hs']) (by rw [hs'])
      fun b hb => by rw [hs']; simp [hb]
  refine ⟨ht.trans (.eq _) ⟨hcoh, by rw [hs'], by rw [hs'], by rw [hs'], l ++ [.create a],
    by rw [hs']; simp, ?_⟩, hv⟩
  obtain ⟨o, ho⟩ := World.undoAll_update t.db hl (w := s.view) (o := some (acc.view s.db))
  rw [undoAll_append, undoAll_cons, undoAll_nil, hv, hview, ho, World.undo_create hp]

/-- A new account with the nonce and balance given. -/
theorem Coherent.createNew (h : Coherent base s) (hp : s.view a = none) (nonce balance : U256) :
    wp (createAccount a (.mk' nonce balance)) (fun _ s' => Extends Eq base s s' ∧
      s'.view = update s.view a (some (.new s.db nonce balance))) E s :=
  wp_createAccount hp (h.create [] hp rfl (by simp) (.mk' nonce balance) rfl fun _ ht => ⟨rfl, ht, rfl⟩)

/-! ### The mutators -/

/-- What a mutator leaves when it throws for want of a start nonce. -/
structure NoStartNonce (base : Nat) (s : State H) (a : Address) (e : Exn) (s' : State H) : Prop where
  exn : e = .invalidAccountStartNonceInState
  startNonce : s.accountStartNonce = invalid256
  absent : s.view a = none
  ext : Extends Eq base s s'
  view : s'.view = s.view

/-- The account is found and changed, or it is made. -/
theorem Coherent.upsert {x : Option (Account H) → StateM H Unit}
    {f : AccountView H → AccountView H} {nonce balance : U256} (h : Coherent base s)
    (hsome : ∀ t acc, Coherent base t → t.db = s.db → t.accountStartNonce = s.accountStartNonce →
      t.cache.lookup a = some acc → wp (x (some acc)) (fun _ s' => Extends Eq base t s' ∧
        s'.view = update t.view a (some (f (acc.view t.db)))) (fun _ _ => False) t)
    (hnone : ∀ t, Coherent base t → t.db = s.db → t.accountStartNonce = s.accountStartNonce →
      t.view = s.view → t.view a = none → Extends Eq base s t → wp (x none) (fun _ s' => Extends Eq base t s' ∧
        s'.view = update t.view a (some (.new t.db nonce balance))) E t) :
    wp (account a >>= x) (fun _ s' => Extends Eq base s s' ∧
      s'.view = s.view.upsert a f (.new s.db nonce balance)) E s := by
  rw [wp_bind]
  refine h.wp_account' (fun acc t ht hview hl hv => ?_) fun t ht hview hp hv => ?_
  · refine wp_mono (hsome t acc ht.coherent ht.db ht.accountStartNonce hl) ?_ fun _ _ => False.elim
    rintro _ s' ⟨hs', hv'⟩
    refine ⟨ht.trans (.eq _) hs', ?_⟩
    rw [hv', hview, World.upsert_of_some hv, ht.db]
  · refine wp_mono (hnone t ht.coherent ht.db ht.accountStartNonce hview (hview ▸ hv) ht) ?_
      fun _ _ h => h
    rintro _ s' ⟨hs', hv'⟩
    refine ⟨ht.trans (.eq _) hs', ?_⟩
    rw [hv', hview, World.upsert_of_none hv, ht.db]

/-- The account at `a` becomes `acc'`; the entries `l` that are logged take that back. -/
theorem Coherent.change (h : Coherent base s) (ha : s.cache.lookup a = some acc)
    (hs' : s' = { s with cache := s.cache.insert a acc', changeLog := l ++ s.changeLog })
    (hl : ∀ c ∈ l, c.address = a) (hok : acc'.Ok s.db) (hd : acc'.isUnchanged = false)
    (hlog : LogOk s.db (s.trieAt a) (acc'.view s.db) (l ++ s.logOf base a))
    (hal : acc'.isAlive = acc.isAlive)
    (hu : s.view a = some (acc.view s.db) →
      undoAll (World.undo s.db) l (update s.view a (some (acc'.view s.db))) = s.view) :
    Extends Eq base s s' ∧ s'.view = update s.view a (some (acc'.view s.db)) := by
  obtain ⟨hext, hview⟩ := h.journal ha hs' hl hok hd hlog hal
  exact ⟨hext.strengthen (by rw [hs']) (hview ▸ hu (view_of_lookup ha)), hview⟩

/-- What `addBalance` logs for the balance. -/
def balanceLog (a : Address) (amount : U256) : List (Change H) :=
  if amount ≠ 0 then [.balance a amount] else []

omit [Digest H] in
theorem wp_logBalance {amount : U256} {Q : Unit → State H → Prop} {E : Exn → State H → Prop} :
    wp (if amount ≠ 0 then log (.balance a amount) else pure ()) Q E s ↔
      Q () { s with changeLog := balanceLog a amount ++ s.changeLog } := by
  unfold balanceLog
  split <;> rfl

theorem balanceLog_undo {db : OverlayDB H} (v : AccountView H) (amount : U256) :
    ({ v with balance := v.balance + amount } : AccountView H).undo db (.balance a amount) = v := by
  have : v.balance + amount + (0 - amount) = v.balance := by grind
  simp only [AccountView.undo, this]

theorem logOk_balanceLog {db : OverlayDB H} {t : Option (AccountRlp H)} {v : AccountView H}
    (h : LogOk db t v l) (amount : U256) :
    LogOk db t { v with balance := v.balance + amount } (balanceLog a amount ++ l) := by
  unfold balanceLog
  split
  · show LogOk db t (AccountView.undo db _ _) l
    rwa [balanceLog_undo]
  · next hx =>
    rw [not_not.1 hx]; simpa using h

theorem undoAll_balanceLog {db : OverlayDB H} {w : World H} {v : AccountView H} (hv : w a = some v)
    (amount : U256) : undoAll (World.undo db) (balanceLog a amount)
      (update w a (some { v with balance := v.balance + amount })) = w := by
  unfold balanceLog
  split
  · exact World.undo_update (c := .balance a amount) hv (fun _ h => by cases h) (balanceLog_undo v amount)
  · next hx =>
    have : v.balance + 0 = v.balance := by grind
    rw [not_not.1 hx, undoAll_nil, this, ← hv, update_eq_self]

theorem Coherent.addBalance (h : Coherent base s) (amount : U256) : wp (addBalance a amount)
    (fun _ s' => Extends Eq base s s' ∧ s'.view = s.view.credit s.db s.accountStartNonce a amount)
    (NoStartNonce base s a) s := by
  have hlog : ∀ c ∈ (balanceLog a amount : List (Change H)), c.address = a := by
    unfold balanceLog; split <;> simp [Change.address]
  refine h.upsert (fun t acc ht _ _ hl => ?_) fun t ht hdb hn hview hv hext => ?_
  · have hok := ht.cached a acc hl
    -- the entries are `touch`, for the first touch of an empty account, and the balance
    have key : ∀ touch : List (Change H),
        (touch = [] ∨ touch = [.touch a] ∧ acc.isUnchanged = true) →
        ∀ s', s' = { t with
          cache := t.cache.insert a (acc.addBalance amount)
          changeLog := balanceLog a amount ++ touch ++ t.changeLog } →
        Extends Eq base t s' ∧ s'.view = update t.view a (some
          { acc.view t.db with balance := (acc.view t.db).balance + amount }) := by
      intro touch htouch s' hs'
      refine ht.change hl hs' ?_ (hok.ok.addBalance _) rfl ?_ rfl fun hva => ?_
      · rintro c hc
        rcases List.mem_append.1 hc with hc | hc
        · exact hlog c hc
        · rcases htouch with rfl | ⟨rfl, -⟩
          · simp at hc
          · simp only [List.mem_singleton] at hc; rw [hc]; rfl
      · rw [List.append_assoc]
        refine logOk_balanceLog (v := acc.view t.db) ?_ amount
        rcases htouch with rfl | ⟨rfl, hc⟩
        · exact hok.log
        · exact ⟨(hok.clean hc).1, (hok.clean hc).2⟩
      · rw [undoAll_append, Account.view_addBalance, undoAll_balanceLog hva]
        rcases htouch with rfl | ⟨rfl, -⟩
        · rfl
        · rw [undoAll_cons, undoAll_nil]
          nth_rewrite 1 [← update_eq_self a t.view]
          rw [hva]
          exact World.undo_update (c := .touch a) hva (fun _ h => by cases h) (rfl : AccountView.undo t.db _ _ = _)
    by_cases htouch : (!acc.isDirty && acc.isEmpty) = true
    · simp only [htouch, if_true, wp_bind, wp_logBalance, wp_log, wp_put]
      refine key [.touch a] (.inr ⟨rfl, ?_⟩) _ (by simp)
      simp only [Account.isDirty, Bool.not_not, Bool.and_eq_true] at htouch; exact htouch.1
    · dsimp only
      rw [if_neg htouch]
      simp only [wp_bind, wp_logBalance, wp_put]
      exact key [] (.inl rfl) _ (by simp)
  · rw [wp_bind]
    refine wp_requireAccountStartNonce (fun hne => ?_) fun heq => ?_
    · rw [wp_bind]
      refine wp_createAccount hv ?_
      rw [wp_logBalance, ← hn]
      refine ht.create (balanceLog a amount) hv rfl hlog (.mk' _ _) rfl fun _ htr => ?_
      unfold balanceLog
      split <;> exact ⟨rfl, htr, rfl⟩
    · exact ⟨rfl, hn ▸ heq, hview ▸ hv, hext, hview⟩

theorem Coherent.change_nonce (h : Coherent base s)
    (hl : s.cache.lookup a = some acc) (n : U256) (E : Exn → State H → Prop) :
    wp (do put a (acc.setNonce n); log (.nonce a acc.nonce)) (fun _ s' => Extends Eq base s s' ∧
      s'.view = update s.view a (some { acc.view s.db with nonce := n })) E s := by
  simp only [wp_bind, wp_put, wp_log]
  have hok := h.cached a acc hl
  exact h.change (l := [.nonce a acc.nonce]) hl rfl (by simp [Change.address]) (hok.ok.setNonce n) rfl
    hok.log rfl fun hva => World.undo_update (c := .nonce a acc.nonce) hva (fun _ h => by cases h) rfl

theorem Coherent.incNonce (h : Coherent base s) : wp (incNonce a)
    (fun _ s' => Extends Eq base s s' ∧ s'.view = s.view.upsert a
      (fun v => { v with nonce := v.nonce + 1 }) (.new s.db (s.accountStartNonce + 1) 0))
    (NoStartNonce base s a) s := by
  refine h.upsert (fun t acc ht _ _ hl => ht.change_nonce hl (acc.nonce + 1) _)
    fun t ht hdb hn hview hv hext => ?_
  rw [wp_bind]
  refine wp_requireAccountStartNonce (fun hne => ?_) fun heq => ?_
  · rw [← hn]; exact ht.createNew hv _ _
  · exact ⟨rfl, hn ▸ heq, hview ▸ hv, hext, hview⟩

theorem Coherent.setNonce (h : Coherent base s) (n : U256) (E : Exn → State H → Prop) :
    wp (setNonce a n) (fun _ s' => Extends Eq base s s' ∧ s'.view = s.view.upsert a
      (fun v => { v with nonce := n }) (.new s.db n 0)) E s :=
  h.upsert (fun _ _ ht _ _ hl => ht.change_nonce hl n _) fun _ ht _ _ _ hv _ => ht.createNew hv _ _

theorem Coherent.createContract (h : Coherent base s) (hp : s.view a = none) : wp (createContract a)
    (fun _ s' => Extends Eq base s s' ∧
      s'.view = update s.view a (some (.new s.db s.accountStartNonce 0)))
    (NoStartNonce base s a) s := by
  simp only [State.createContract, wp_bind]
  refine wp_requireAccountStartNonce (fun _ => h.createNew hp _ _) fun heq => ?_
  exact ⟨rfl, heq, hp, h.refl, rfl⟩

theorem Coherent.createContract_inUse (h : Coherent base s) (hp : (s.view a).isSome) :
    wp (State.createContract a) (fun _ _ => False) (fun e s' => e = .assertion ∨ s' = s) s := by
  simp only [State.createContract, wp_bind]
  refine wp_requireAccountStartNonce (fun _ => ?_) fun heq => .inr rfl
  simp only [State.createAccount, addressInUse, wp_bind]
  refine h.wp_account' (fun acc t ht hview hl hv => ?_) fun t ht hview hpt hv => ?_
  · exact .inl rfl
  · rw [hv] at hp; cases hp

/-- What `subBalance` leaves when it throws. -/
structure NotEnoughCash (base : Nat) (s : State H) (a : Address) (value : U256) (e : Exn)
    (s' : State H) : Prop where
  exn : e = .notEnoughCash
  lt : s.view.balance a < value
  ext : Extends Eq base s s'
  view : s'.view = s.view

theorem Coherent.subBalance (h : Coherent base s) (value : U256) : wp (subBalance a value)
    (fun _ s' => value ≤ s.view.balance a ∧ Extends Eq base s s' ∧ s'.view = s.view.debit a value)
    (NotEnoughCash base s a value) s := by
  have hzero : ∀ v : AccountView H, ({ v with balance := v.balance - 0 } : AccountView H) = v :=
    fun v => by
      have : v.balance - 0 = v.balance := by grind
      rw [this]
  unfold State.subBalance
  dsimp only
  split
  · next h0 =>
    subst h0
    exact ⟨by simp [BitVec.le_def], h.refl, by
      simp only [World.debit, hzero, Option.map_id', update_eq_self]⟩
  · next h0 =>
    rw [wp_bind]
    refine h.wp_account' (fun acc t ht hview hl hv => ?_) fun t ht hview hp hv => ?_
    · have hbal : s.view.balance a = acc.balance := by simp [World.balance, hv, Account.view]
      dsimp only
      split
      · next hlt => exact ⟨rfl, hbal ▸ hlt, ht, hview⟩
      · next hge =>
        refine wp_mono (ht.coherent.addBalance (0 - value)) ?_ ?_
        · rintro _ s' ⟨hs', hv'⟩
          refine ⟨by rw [hbal]; exact BitVec.not_lt.1 hge, ht.trans (.eq _) hs', ?_⟩
          rw [hv', hview, World.credit, World.upsert_of_some hv, World.debit, hv]
          have : acc.balance + (0 - value) = acc.balance - value := by grind
          simp only [Option.map_some, Account.view, this]
        · intro e s' he
          have := he.absent
          rw [hview, hv] at this; cases this
    · refine ⟨rfl, ?_, ht, hview⟩
      simp only [World.balance, hv, Option.elim_none]
      exact BitVec.not_le.1 fun hle => h0 (BitVec.le_zero_iff.1 hle)

theorem Coherent.balance (h : Coherent base s) : wp (balance a)
    (fun r s' => r = s.view.balance a ∧ Extends Eq base s s' ∧ s'.view = s.view) E s := by
  unfold State.balance
  rw [wp_bind]
  refine h.wp_account' (fun acc t ht hview _ hv => ?_) fun t ht hview _ hv => ?_
  · exact ⟨by simp [World.balance, hv, Account.view], ht, hview⟩
  · exact ⟨by simp [World.balance, hv], ht, hview⟩

theorem Coherent.setBalance (h : Coherent base s) (value : U256) : wp (setBalance a value)
    (fun _ s' => Extends Eq base s s' ∧ s'.view = s.view.upsert a
      (fun v => { v with balance := value }) (.new s.db s.accountStartNonce value))
    (NoStartNonce base s a) s := by
  unfold State.setBalance
  rw [wp_bind]
  refine wp_mono (h.balance (E := fun _ _ => False)) ?_ fun _ _ => False.elim
  rintro _ t ⟨rfl, ht, hview⟩
  refine wp_mono (ht.coherent.addBalance _) ?_ ?_
  · rintro _ s' ⟨hs', hv'⟩
    refine ⟨ht.trans (.eq _) hs', ?_⟩
    rw [hv', hview, ht.db, ht.accountStartNonce, World.credit]
    cases hv : s.view a with
    | none =>
      rw [World.upsert_of_none hv, World.upsert_of_none hv]
      simp [World.balance, hv]
    | some v =>
      rw [World.upsert_of_some hv, World.upsert_of_some hv]
      have : v.balance + (value - v.balance) = value := by grind
      simp only [World.balance, hv, Option.elim_some, this]
  · intro e s' he
    exact ⟨he.exn, ht.accountStartNonce ▸ he.startNonce, hview ▸ he.absent, ht.trans (.eq _) he.ext,
      he.view.trans hview⟩

theorem Coherent.transferBalance {b : Address} (h : Coherent base s) (value : U256) :
    wp (transferBalance a b value)
      (fun _ s' => value ≤ s.view.balance a ∧ Extends Eq base s s' ∧
        s'.view = (s.view.debit a value).credit s.db s.accountStartNonce b value)
      (fun e s' => Extends Eq base s s' ∧ (NotEnoughCash base s a value e s' ∨
        e = .invalidAccountStartNonceInState ∧ s.accountStartNonce = invalid256 ∧
          s.view.debit a value b = none ∧ s'.view = s.view.debit a value)) s := by
  unfold State.transferBalance
  rw [wp_bind]
  refine wp_mono (h.subBalance value) ?_ fun e s' he => ⟨he.ext, .inl he⟩
  rintro _ t ⟨hle, ht, hview⟩
  refine wp_mono (ht.coherent.addBalance value) ?_ ?_
  · rintro _ s' ⟨hs', hv'⟩
    exact ⟨hle, ht.trans (.eq _) hs', by rw [hv', hview, ht.db, ht.accountStartNonce]⟩
  · intro e s' he
    exact ⟨ht.trans (.eq _) he.ext, .inr ⟨he.exn, ht.accountStartNonce ▸ he.startNonce,
      hview ▸ he.absent, he.view.trans hview⟩⟩

/-! ### Reads -/

/-- `x` returns `r` of the state and changes nothing that can be seen. -/
def IsRead {α : Type} (x : StateM H α) (r : State H → α) : Prop :=
  ∀ (base : Nat) (s : State H), Coherent base s → ∀ E : Exn → State H → Prop,
    wp x (fun v s' => v = r s ∧ Extends Eq base s s' ∧ s'.view = s.view) E s

/-- A read of one account that keeps nothing of it. -/
theorem IsRead.of_account {α : Type} {x : Option (Account H) → StateM H α} {r : State H → α}
    (hsome : ∀ s t acc, t.accountStartNonce = s.accountStartNonce → s.view a = some (acc.view s.db) →
      x (some acc) t = .ok (r s) t)
    (hnone : ∀ s t, t.accountStartNonce = s.accountStartNonce → s.view a = none →
      x none t = .ok (r s) t) : IsRead (account a >>= x) r := by
  intro base s h E
  rw [wp_bind]
  refine h.wp_account' (fun acc t ht hview _ hv => ?_) fun t ht hview _ hv => ?_
  · exact wp_of_eq_ok (hsome s t acc ht.accountStartNonce hv) ⟨rfl, ht, hview⟩
  · exact wp_of_eq_ok (hnone s t ht.accountStartNonce hv) ⟨rfl, ht, hview⟩

theorem isRead_addressInUse : IsRead (addressInUse a) fun s : State H => (s.view a).isSome :=
  IsRead.of_account (fun s t acc _ hv => by rw [hv]; rfl) fun s t _ hv => by rw [hv]; rfl

theorem isRead_getNonce :
    IsRead (getNonce a) fun s : State H => (s.view a).elim s.accountStartNonce (·.nonce) :=
  IsRead.of_account (fun s t acc _ hv => by rw [hv]; rfl) fun s t hn hv => by rw [hv, ← hn]; rfl

theorem isRead_addressHasCode :
    IsRead (addressHasCode a) fun s : State H => (s.view a).elim false fun v => decide (v.codeHash ≠ emptySHA3) :=
  IsRead.of_account (fun s t acc _ hv => by rw [hv]; rfl) fun s t _ hv => by rw [hv]; rfl

theorem isRead_codeHash : IsRead (codeHash a) fun s : State H => (s.view a).elim emptySHA3 (·.codeHash) :=
  IsRead.of_account (fun s t acc _ hv => by rw [hv]; rfl) fun s t _ hv => by rw [hv]; rfl

theorem isRead_accountNonemptyAndExisting : IsRead (accountNonemptyAndExisting a) fun s : State H =>
    (s.view a).elim false fun v => !(decide (v.nonce = 0) && decide (v.balance = 0) &&
      decide (v.codeHash = emptySHA3)) :=
  IsRead.of_account (fun s t acc _ hv => by rw [hv]; rfl) fun s t _ hv => by rw [hv]; rfl

/-- Something the database says of the cached account is noted in it. -/
theorem Coherent.note (h : Coherent base s) (ha : s.cache.lookup a = some acc)
    (hok : acc'.Ok s.db) (hview : acc'.view s.db = acc.view s.db)
    (hu : acc'.isUnchanged = acc.isUnchanged) (hal : acc'.isAlive = acc.isAlive) :
    Extends Eq base s { s with cache := s.cache.insert a acc' } ∧
      State.view { s with cache := s.cache.insert a acc' } = s.view := by
  have hv : State.view { s with cache := s.cache.insert a acc' } = s.view := by
    refine (view_put s a acc' s.changeLog).trans ?_
    rw [hview, ← view_of_lookup ha, update_eq_self]
  have hc := h.cached a acc ha
  refine ⟨⟨?_, rfl, rfl, rfl, .of_eq (.eq _) hv⟩, hv⟩
  exact h.insert a acc' [] rfl rfl rfl (Finset.Subset.refl _) rfl (by simp)
    ⟨hok, fun h' => by rw [hview]; exact hc.clean (hu ▸ h'), by rw [hview]; exact hc.log⟩
    fun h' => h.alive a acc ha (hal ▸ h')

/-- A read of `a` that leaves `a` cached, if there is such an account. -/
structure Cached (base : Nat) (s : State H) (a : Address) (s' : State H) : Prop where
  ext : Extends Eq base s s'
  view : s'.view = s.view
  cached : (s.view a).isSome → ∃ acc, s'.cache.lookup a = some acc ∧
    ∀ acc₀, s.cache.lookup a = some acc₀ → acc.isUnchanged = acc₀.isUnchanged

theorem lookup_load_of_lookup (h : s.cache.lookup a = some acc) : s.load a = s := by
  simp [load, h]

/-- A read of `a` is about what `account a` returns and the state it leaves. -/
theorem Coherent.wp_cached {α : Type} {x : Option (Account H) → StateM H α} {r : α} (h : Coherent base s)
    (hsome : ∀ t acc, Coherent base t → t.db = s.db → t.cache.lookup a = some acc →
      s.view a = some (acc.view s.db) → wp (x (some acc)) (fun v s' => v = r ∧
        (s' = t ∨ ∃ acc', s' = { t with cache := t.cache.insert a acc' } ∧ acc'.Ok t.db ∧
          acc'.view t.db = acc.view t.db ∧ acc'.isUnchanged = acc.isUnchanged ∧
          acc'.isAlive = acc.isAlive)) (fun _ _ => False) t)
    (hnone : ∀ t, s.view a = none → x none t = .ok r t) :
    wp (account a >>= x) (fun v s' => v = r ∧ Cached base s a s') E s := by
  rw [wp_bind, wp_account]
  have ht := h.extends_load a
  have hview := (h.load a).2
  have hl := lookup_load s a
  have hsame : ∀ acc₀, s.cache.lookup a = some acc₀ → s.load a = s := fun _ => lookup_load_of_lookup
  cases hp : s.peek a with
  | none =>
    have hv : s.view a = none := by simp [State.view, hp]
    exact wp_of_eq_ok (hnone _ hv) ⟨rfl, ht, hview, by simp [hv]⟩
  | some acc =>
    rw [hp] at hl
    have hv : s.view a = some (acc.view s.db) := by simp [State.view, hp]
    have hcl : ∀ acc₀, s.cache.lookup a = some acc₀ → acc.isUnchanged = acc₀.isUnchanged := by
      intro acc₀ h₀
      rw [hsame acc₀ h₀, h₀] at hl
      cases hl; rfl
    refine wp_mono (hsome _ acc ht.coherent ht.db hl hv) ?_ fun _ _ => False.elim
    rintro v s' ⟨rfl, rfl | ⟨acc', rfl, hok, hvw, hu, hal⟩⟩
    · exact ⟨rfl, ht, hview, fun _ => ⟨acc, hl, hcl⟩⟩
    · obtain ⟨h1, h2⟩ := ht.coherent.note hl hok hvw hu hal
      exact ⟨rfl, ht.trans (.eq _) h1, h2.trans hview, fun _ =>
        ⟨acc', AList.lookup_insert _, fun acc₀ h₀ => hu.trans (hcl acc₀ h₀)⟩⟩

theorem Coherent.storage (h : Coherent base s) (key : U256) :
    wp (storage a key) (fun v s' => v = (s.view a).elim 0 (·.storage key) ∧ Cached base s a s') E s := by
  refine h.wp_cached (fun t acc ht hdb hl hv => ?_) fun t hv => by rw [hv]; rfl
  rw [hv]
  dsimp only
  cases ho : acc.storageOverlay.lookup key with
  | some v => exact ⟨by simp [Account.view, Account.storageAt, ho], .inl rfl⟩
  | none =>
    simp only [wp_bind, wp_get, wp_put, wp_pure]
    refine ⟨by simp [Account.view, Account.storageAt, ho, hdb], .inr ⟨_, rfl, ?_, ?_, rfl, rfl⟩⟩
    · have hok := (ht.cached a acc hl).ok
      exact hok.congr hok.storage rfl rfl rfl rfl
    · exact Account.view_setStorageCache t.db acc key ho

theorem Coherent.code (h : Coherent base s) :
    wp (code a) (fun v s' => v = (s.view a).elim [] (·.code) ∧ Cached base s a s') E s := by
  refine h.wp_cached (fun t acc ht hdb hl hv => ?_) fun t hv => by rw [hv]; rfl
  rw [hv, ← hdb]
  dsimp only
  by_cases he : acc.codeHash = emptySHA3
  · rw [if_pos he]
    exact ⟨by simp [Account.view, Account.codeAt, he], .inl rfl⟩
  · rw [if_neg he]
    by_cases hc : acc.codeCache = []
    · rw [if_pos hc]
      simp only [wp_bind, wp_get, wp_put, wp_pure]
      refine ⟨by simp [Account.view, Account.codeAt, he, hc], .inr ⟨_, rfl, ?_, ?_, rfl, rfl⟩⟩
      · exact (ht.cached a acc hl).ok.noteCode he hc
      · exact Account.view_noteCode t.db acc he hc
    · rw [if_neg hc]
      exact ⟨by simp [Account.view, Account.codeAt, he, hc], .inl rfl⟩

/-! ### Storage and code -/

theorem cacheAt_of_lookup (h : s.cache.lookup a = some acc) : s.cacheAt a = acc := by
  simp [cacheAt, h]

theorem cacheAt_of_none (h : s.cache.lookup a = none) : s.cacheAt a = .dead := by
  simp [cacheAt, h]

theorem lookup_of_view_none (h : s.view a = none) : s.cache.lookup a = none := by
  cases hl : s.cache.lookup a with
  | none => rfl
  | some acc => rw [view_of_lookup hl] at h; cases h

/-- What `m_cache[a]` makes of an address that is not cached: `acc'`, not alive, replaces the dead
account, and `l` is logged. -/
theorem Coherent.dead_insert (h : Coherent base s) (ha : s.cache.lookup a = none)
    (hs' : s' = { s with cache := s.cache.insert a acc', changeLog := l ++ s.changeLog })
    (hl : ∀ c ∈ l, c.address = a) (hok : acc'.Ok s.db) (hd : acc'.isUnchanged = false)
    (hal : acc'.isAlive = false) (hlog : LogOk s.db (s.trieAt a) (acc'.view s.db) l) :
    Extends Anything base s s' ∧ s'.view = update s.view a (some (acc'.view s.db)) := by
  subst hs'
  refine ⟨⟨?_, rfl, rfl, rfl, l, rfl, trivial⟩, view_put s a acc' _⟩
  refine h.insert a acc' l rfl rfl rfl (Finset.Subset.refl _) rfl hl ⟨hok, fun hu => ?_, ?_⟩ fun h' => ?_
  · simp [hd] at hu
  · rw [h.logged a ha, List.append_nil]; exact hlog
  · simp [hal] at h'

theorem wp_journal {c : Change H} {f : Account H → Account H} (hQ : ∀ s', s' = { s with
      cache := s.cache.insert a (f (s.cacheAt a)), changeLog := [c] ++ s.changeLog } → Q () s') :
    wp (do log c; modify fun s => { s with cache := s.cache.insert a (f (s.cacheAt a)) }) Q E s :=
  hQ _ rfl

/-- An address that is in use gets the word, and the log can take it back. One that is not gets it
too, in an account that is not alive. -/
theorem Coherent.setStorage (h : Coherent base s) (key value : U256) :
    wp (setStorage a key value) (fun _ s' => Extends Anything base s s' ∧ s'.view = s.view.upsert a
        (fun v => { v with storage := update v.storage key value })
        ((Account.dead.setStorage key value).view s.db) ∧
      ((s.view a).isSome → Extends Eq base s s')) E s := by
  unfold State.setStorage
  rw [wp_bind]
  refine wp_mono (h.storage key (E := fun _ _ => False)) ?_ fun _ _ => False.elim
  rintro old t ⟨hold, ht, hview, hcached⟩
  refine wp_journal (f := (·.setStorage key value)) fun s' hs' => ?_
  have hany := World.respects_anything s.db
  cases hv : s.view a with
  | none =>
    have hl := lookup_of_view_none (hview ▸ hv)
    rw [cacheAt_of_none hl] at hs'
    obtain ⟨h1, h2⟩ := ht.coherent.dead_insert hl hs' (by simp [Change.address])
      (Account.Ok.dead.setStorage key value) rfl rfl trivial
    exact ⟨(ht.weaken hany).trans hany h1, by rw [h2, hview, ht.db, World.upsert_of_none hv], by rintro ⟨⟩⟩
  | some v =>
    obtain ⟨acc, hl, -⟩ := hcached (by simp [hv])
    have hva : v = acc.view t.db := by
      have := view_of_lookup hl
      rw [hview, hv] at this; exact Option.some.inj this
    subst hva
    rw [cacheAt_of_lookup hl] at hs'
    have hok := ht.coherent.cached a acc hl
    have hundo : ((acc.setStorage key value).view t.db).undo t.db (.storage a key old) =
        acc.view t.db := by
      rw [Account.view_setStorage, hold, hv]
      simp only [AccountView.undo, update_idem, Option.elim_some, update_eq_self]
    obtain ⟨h1, h2⟩ := ht.coherent.change hl hs' (by simp [Change.address])
      (hok.ok.setStorage key value) rfl
      (show LogOk _ _ (AccountView.undo _ _ _) _ from hundo ▸ hok.log) rfl
      fun hva => World.undo_update (c := .storage a key old) hva (fun _ h => by cases h) hundo
    have hext := ht.trans (.eq _) h1
    exact ⟨hext.weaken hany, by rw [h2, hview, World.upsert_of_some hv, Account.view_setStorage],
      fun _ => hext⟩

/-- The account at `a` is cached and marked as changed. -/
def ChangedAt (s : State H) (a : Address) : Prop :=
  ∃ acc, s.cache.lookup a = some acc ∧ acc.isUnchanged = false

/-- As `setStorage`; `Account::setCode` leaves the mark of the account, so it has to be there. -/
theorem Coherent.setCode (h : Coherent base s) (hch : (s.view a).isSome → s.ChangedAt a) (code : Bytes) :
    wp (setCode a code) (fun _ s' => Extends Anything base s s' ∧ s'.view = s.view.upsert a (fun v => { v with
          codeHash := sha3 code, code := if sha3 code = (emptySHA3 : H) then [] else code })
        ((Account.dead.setCode code).view s.db) ∧
      ((s.view a).isSome → Extends Eq base s s' ∧ s'.ChangedAt a)) E s := by
  unfold State.setCode
  rw [wp_bind]
  refine wp_mono (h.code (E := fun _ _ => False)) ?_ fun _ _ => False.elim
  rintro old t ⟨hold, ht, hview, hcached⟩
  refine wp_journal (f := (·.setCode code)) fun s' hs' => ?_
  have hany := World.respects_anything s.db
  cases hv : s.view a with
  | none =>
    have hl := lookup_of_view_none (hview ▸ hv)
    rw [cacheAt_of_none hl] at hs'
    obtain ⟨h1, h2⟩ := ht.coherent.dead_insert hl hs' (by simp [Change.address])
      (Account.Ok.dead.setCode code) rfl rfl trivial
    exact ⟨(ht.weaken hany).trans hany h1, by rw [h2, hview, ht.db, World.upsert_of_none hv], by rintro ⟨⟩⟩
  | some v =>
    obtain ⟨acc, hl, hu⟩ := hcached (by simp [hv])
    obtain ⟨acc₀, hl₀, hu₀⟩ := hch (by simp [hv])
    have hd : acc.isUnchanged = false := (hu acc₀ hl₀).trans hu₀
    have hva : v = acc.view t.db := by
      have := view_of_lookup hl
      rw [hview, hv] at this; exact Option.some.inj this
    subst hva
    rw [cacheAt_of_lookup hl] at hs'
    have hok := ht.coherent.cached a acc hl
    have hundo : ((acc.setCode code).view t.db).undo t.db (.code a old) = acc.view t.db := by
      have hcode : old = acc.codeAt t.db := by rw [hold, hv]; rfl
      rw [Account.view_setCode, hcode]
      simp only [AccountView.undo, hok.ok.code]
      simp only [Account.view]
      congr 1
      simp only [Account.codeAt]
      split <;> rfl
    obtain ⟨h1, h2⟩ := ht.coherent.change hl hs' (by simp [Change.address]) (hok.ok.setCode code) hd
      (show LogOk _ _ (AccountView.undo _ _ _) _ from hundo ▸ hok.log) rfl
      fun hva => World.undo_update (c := .code a old) hva (fun _ h => by cases h) hundo
    have hext := ht.trans (.eq _) h1
    refine ⟨hext.weaken hany, by rw [h2, hview, World.upsert_of_some hv, Account.view_setCode],
      fun _ => ⟨hext, acc.setCode code, ?_, hd⟩⟩
    rw [hs']; exact AList.lookup_insert _

theorem wp_clearStorage (hempty : (s.cacheAt a).storageRoot = emptyTrie →
      Q () { s with cache := s.cache.insert a (s.cacheAt a) })
    (hclear : (s.cacheAt a).storageRoot ≠ emptyTrie → Q () { s with
      cache := (s.cache.insert a (s.cacheAt a)).insert a (s.cacheAt a).clearStorage
      changeLog := .storageRoot a (s.cacheAt a).storageRoot :: s.changeLog }) :
    wp (clearStorage a) Q E s := by
  have hat : ∀ l : List (Change H), State.cacheAt { s with
      cache := s.cache.insert a (s.cacheAt a), changeLog := l } a = s.cacheAt a := fun l => by
    unfold State.cacheAt; rw [AList.lookup_insert]; rfl
  simp only [State.clearStorage, wp_bind, wp_modify, wp_get, hat, wp_ite, wp_pure, wp_log]
  split
  exacts [hempty ‹_›, hclear ‹_›]

theorem Coherent.clearStorage_cached (h : Coherent base s) (hl : s.cache.lookup a = some acc) :
    wp (clearStorage a) (fun _ s' => Extends Anything base s s' ∧
      s'.view = update s.view a (some ((acc.view s.db).clearStorage s.db)) ∧
      ((∀ key, acc.storageAt s.db key = s.db.storageTrie acc.storageRoot key) → Extends Eq base s s') ∧
      (acc.storageRoot ≠ emptyTrie → s'.changeLog = .storageRoot a acc.storageRoot :: s.changeLog) ∧
      (acc.storageRoot = emptyTrie → Extends Eq base s s')) E s := by
  have hany := World.respects_anything s.db
  have hok := h.cached a acc hl
  refine wp_clearStorage (fun he => ?_) fun hne => ?_
  · rw [cacheAt_of_lookup hl] at he ⊢
    obtain ⟨h1, h2⟩ := h.note hl hok.ok rfl rfl rfl
    refine ⟨h1.weaken hany, ?_, fun _ => h1, fun hne => absurd he hne, fun _ => h1⟩
    rw [h2, AccountView.clearStorage, if_pos (by exact he), ← view_of_lookup hl,
      update_eq_self]
  · rw [cacheAt_of_lookup hl] at hne ⊢
    rw [AList.insert_insert]
    have hcl : (acc.view s.db).clearStorage s.db = acc.clearStorage.view s.db := by
      rw [AccountView.clearStorage, if_neg (by exact hne), Account.view_clearStorage]
    have hlog : LogOk s.db (s.trieAt a) (acc.clearStorage.view s.db)
        ([.storageRoot a acc.storageRoot] ++ s.logOf base a) := by
      rw [Account.view_clearStorage]
      exact ⟨rfl, hne, hok.ok.storage, hok.log.drop_overlay (f := s.db.storageTrie acc.storageRoot) hne
        fun k => .inl rfl⟩
    obtain ⟨h1, h2⟩ := h.journal (l := [.storageRoot a acc.storageRoot]) hl rfl
      (by simp [Change.address]) (hok.ok.setStorageRoot s.db.has_emptyTrie) rfl hlog rfl
    refine ⟨h1, by rw [hcl]; exact h2, fun hall => h1.strengthen rfl ?_, fun _ => rfl,
      fun he => absurd he hne⟩
    rw [h2]
    refine World.undo_update (c := .storageRoot a acc.storageRoot) (view_of_lookup hl)
      (fun _ h => by cases h) ?_
    rw [Account.view_setStorageRoot]
    have : (acc.view s.db).storage = s.db.storageTrie acc.storageRoot := funext hall
    simp only [AccountView.undo, ← this]
    rfl

/-- `m_cache[a]` puts a dead account before the one in the trie, if there is one. -/
theorem Coherent.clearStorage_uncached (h : Coherent base s) (hl : s.cache.lookup a = none) :
    wp (clearStorage a) (fun _ s' => Extends Anything base s s' ∧
      s'.view = update s.view a (some (Account.dead.view s.db))) E s := by
  have hd : (s.cacheAt a) = .dead := cacheAt_of_none hl
  refine wp_clearStorage (fun _ => ?_) fun hne => absurd (by rw [hd]; rfl) hne
  rw [hd]
  exact h.dead_insert (l := []) hl rfl (by simp) .dead rfl rfl trivial

/-! ### Changes that are not journaled -/

omit [Digest H] in
theorem logOf_raise {base base' : Nat} (hb : base ≤ base') (s : State H) (a : Address) :
    s.logOf base' a <+: s.logOf base a := by
  refine List.IsPrefix.filter _ ?_
  exact List.take_prefix_take_left (by omega)

/-- A savepoint may be given up. -/
theorem Coherent.raise {base' : Nat} (h : Coherent base s) (hb : base ≤ base')
    (hle : base' ≤ s.changeLog.length) : Coherent base' s := by
  constructor
  · exact hle
  · exact h.db
  · exact h.nonExisting
  · intro a acc ha
    have hok := h.cached a acc ha
    have hpre := logOf_raise hb s a
    refine ⟨hok.ok, fun hu => ⟨?_, (hok.clean hu).2⟩, hok.log.of_prefix hpre⟩
    rw [(hok.clean hu).1] at hpre
    exact List.prefix_nil.1 hpre
  · exact h.alive
  · intro a ha
    have hpre := logOf_raise hb s a
    rw [h.logged a ha] at hpre
    exact List.prefix_nil.1 hpre

omit [Digest H] in
theorem logOf_length (s : State H) (a : Address) : s.logOf s.changeLog.length a = [] := by
  simp [logOf]

/-- What a kill changes cannot be undone. -/
theorem Coherent.kill (h : Coherent base s) : wp (kill a)
    (fun _ s' => Coherent s'.changeLog.length s' ∧ s'.changeLog = s.changeLog ∧ s'.db = s.db ∧
      s'.root = s.root ∧ s'.accountStartNonce = s.accountStartNonce ∧
      s'.view = update s.view a ((s.view a).map fun _ => Account.dead.view s.db)) E s := by
  unfold State.kill
  rw [wp_bind, wp_account]
  have ht := h.extends_load a
  have hview := (h.load a).2
  have hl := lookup_load s a
  have hlen : (s.load a).changeLog = s.changeLog := changeLog_load s a
  have hraise := ht.coherent.raise ht.coherent.base_le (Nat.le_refl _)
  cases hp : s.peek a with
  | none =>
    have hv : s.view a = none := by simp [State.view, hp]
    refine ⟨hraise, hlen, ht.db, ht.root, ht.accountStartNonce, ?_⟩
    rw [hview, hv, Option.map_none, ← hv, update_eq_self]
  | some acc =>
    rw [hp] at hl
    have hv : s.view a = some (acc.view s.db) := by simp [State.view, hp]
    have hvk : acc.kill.view (s.load a).db = Account.dead.view s.db := by
      rw [ht.db]
      simp only [Account.view, Account.kill, Account.dead]
      congr 1
      simp [Account.codeAt]
    refine ⟨?_, hlen, ht.db, ht.root, ht.accountStartNonce, ?_⟩
    · refine hraise.insert a acc.kill [] rfl rfl rfl (Finset.Subset.refl _) rfl (by simp)
        ⟨.kill, fun hu => ?_, ?_⟩ fun hal => ?_
      · simp [Account.kill] at hu
      · rw [logOf_length]; trivial
      · simp [Account.kill] at hal
    · refine (view_put (s.load a) a acc.kill (s.load a).changeLog).trans ?_
      rw [hvk, hview, hv]; rfl

end State

end Kmdx
