import Kmdx.Lib.UndoLog
import Kmdx.StateView

/-!
# The cache invariant

`Coherent base s`: every cache of `s` tells the truth and every entry of the change log above the
lowest `base` ones can be undone. An account not marked as changed is the committed one, so purging it
is invisible; an account with entries in the log is cached and marked; a `Create` or `Touch` entry is
the oldest one of its account, so undoing it leaves what the trie holds. The lowest `base` entries are
those a savepoint can no longer reach (they were made before a `kill`, `setRoot` or `m_cache.clear()`).
-/

namespace Kmdx

open Wp UndoLog Function List

variable {H : Type} [Digest H]

/-! ### Undoing on views -/

/-- What undoing `c` does to an account that stays. -/
def AccountView.undo (db : OverlayDB H) (c : Change H) (v : AccountView H) : AccountView H :=
  match c with
  | .storage _ key value => { v with storage := update v.storage key value }
  | .storageRoot _ root => { v with storageRoot := root, storage := db.storageTrie root }
  | .balance _ value => { v with balance := v.balance + (0 - value) }
  | .nonce _ nonce => { v with nonce := nonce }
  | .code _ code =>
    { v with codeHash := sha3 code, code := if sha3 code = (emptySHA3 : H) then [] else code }
  | .create _ | .touch _ => v

def Change.undo (db : OverlayDB H) (c : Change H) (o : Option (AccountView H)) :
    Option (AccountView H) :=
  match c with
  | .create _ => none
  | c => o.map (AccountView.undo db c)

variable {db : OverlayDB H}

theorem Change.undo_some {c : Change H} (hc : ∀ a, c ≠ .create a)
    (v : AccountView H) : c.undo db (some v) = some (v.undo db c) := by
  cases c <;> first | exact absurd rfl (hc _) | rfl

def World.undo (db : OverlayDB H) (c : Change H) (w : World H) : World H :=
  update w c.address (c.undo db (w c.address))

/-- The worlds `R` relates stay related when one entry is undone in both, over the database `db`. -/
abbrev World.Respects (db : OverlayDB H) (R : World H → World H → Prop) : Prop :=
  UndoLog.Respects (World.undo db) R

/-- The storage trie with this root is in the database. -/
def OverlayDB.Has (db : OverlayDB H) (root : H) : Prop :=
  Digest.storageRoot (db.storageTrie root) = root

theorem OverlayDB.storageTrie_emptyTrie (db : OverlayDB H) :
    db.storageTrie emptyTrie = fun _ => 0 := if_pos rfl

theorem OverlayDB.has_emptyTrie (db : OverlayDB H) : db.Has emptyTrie := by
  rw [OverlayDB.Has, db.storageTrie_emptyTrie]; rfl

/-- `l` (newest first) is a log that leads from the trie's record `t` of an account to `v`. -/
def LogOk (db : OverlayDB H) (t : Option (AccountRlp H)) : AccountView H → List (Change H) → Prop
  | _, [] => True
  | v, .create _ :: l => l = [] ∧ t = none ∧ v.storageRoot = emptyTrie
  | v, .touch _ :: l => l = [] ∧ t.map (AccountRlp.view db) = some v
  | v, .storageRoot a root :: l =>
    v.storageRoot = emptyTrie ∧ root ≠ emptyTrie ∧ db.Has root ∧
      LogOk db t (v.undo db (.storageRoot a root)) l
  | v, .storage a key value :: l => LogOk db t (v.undo db (.storage a key value)) l
  | v, .balance a value :: l => LogOk db t (v.undo db (.balance a value)) l
  | v, .nonce a value :: l => LogOk db t (v.undo db (.nonce a value)) l
  | v, .code a value :: l => LogOk db t (v.undo db (.code a value)) l

/-- Words not yet committed may be dropped from an account whose storage was not cleared before. -/
theorem LogOk.drop_overlay {t : Option (AccountRlp H)}
    {l : List (Change H)} {v : AccountView H} {f : U256 → U256} (h : LogOk db t v l)
    (hroot : v.storageRoot ≠ emptyTrie) (hf : ∀ k, f k = db.storageTrie v.storageRoot k ∨ f k = v.storage k) :
    LogOk db t { v with storage := f } l := by
  induction l generalizing v f with
  | nil => trivial
  | cons c l ih =>
    cases c with
    | create a => exact absurd h.2.2 hroot
    | storageRoot a r => exact absurd h.1 hroot
    | touch a =>
      refine ⟨h.1, h.2.trans ?_⟩
      -- the words are those of the trie
      obtain ⟨r, -, hr⟩ := Option.map_eq_some_iff.1 h.2
      have hst : v.storage = db.storageTrie v.storageRoot := by rw [← hr]; rfl
      have : f = v.storage := by
        funext k; rcases hf k with hk | hk
        · rw [hk, hst]
        · exact hk
      rw [this]
    | storage a k w =>
      refine ih (v := v.undo db (.storage a k w)) h hroot fun k' => ?_
      by_cases hk : k' = k
      · subst hk; right; simp [AccountView.undo]
      · simpa [AccountView.undo, update_of_ne hk] using hf k'
    | balance a x => exact ih (v := v.undo db (.balance a x)) h hroot hf
    | nonce a n => exact ih (v := v.undo db (.nonce a n)) h hroot hf
    | code a c => exact ih (v := v.undo db (.code a c)) h hroot hf

theorem LogOk.of_prefix {t : Option (AccountRlp H)} {l l' : List (Change H)}
    {v : AccountView H} (h : LogOk db t v l) (hl : l' <+: l) : LogOk db t v l' := by
  induction l' generalizing l v with
  | nil => trivial
  | cons c l' ih =>
    obtain ⟨d, rfl⟩ := hl
    cases c with
    | create a =>
      have hnil : l' ++ d = [] := h.1
      exact ⟨(append_eq_nil_iff.1 hnil).1, h.2⟩
    | touch a =>
      have hnil : l' ++ d = [] := h.1
      exact ⟨(append_eq_nil_iff.1 hnil).1, h.2⟩
    | storageRoot a r => exact ⟨h.1, h.2.1, h.2.2.1, ih h.2.2.2 ⟨d, rfl⟩⟩
    | storage a k w => exact ih (v := v.undo db (.storage a k w)) h ⟨d, rfl⟩
    | balance a x => exact ih (v := v.undo db (.balance a x)) h ⟨d, rfl⟩
    | nonce a n => exact ih (v := v.undo db (.nonce a n)) h ⟨d, rfl⟩
    | code a c => exact ih (v := v.undo db (.code a c)) h ⟨d, rfl⟩

/-! ### The invariant -/

/-- The code of an account is what its code hash is the hash of, and its storage can be found. -/
structure Account.Ok (db : OverlayDB H) (acc : Account H) : Prop where
  storage : db.Has acc.storageRoot
  code : sha3 (acc.codeAt db) = acc.codeHash
  newCode : acc.isAlive = true → acc.hasNewCode = true → sha3 acc.codeCache = acc.codeHash
  oldCode : acc.isAlive = true → acc.hasNewCode = false →
    acc.codeHash = emptySHA3 ∨ sha3 (db.codes acc.codeHash) = acc.codeHash

/-- The database has the code and the storage of every account in every trie. -/
structure OverlayDB.Ok (db : OverlayDB H) : Prop where
  storage : ∀ root a r, db.stateTries root a = some r → db.Has r.storageRoot
  code : ∀ root a r, db.stateTries root a = some r →
    r.codeHash = emptySHA3 ∨ sha3 (db.codes r.codeHash) = r.codeHash

theorem OverlayDB.empty_ok : (OverlayDB.empty : OverlayDB H).Ok := ⟨nofun, nofun⟩

/-- A cached account whose record in the trie is `t` and whose entries in the log are `l`. -/
structure CachedOk (db : OverlayDB H) (t : Option (AccountRlp H)) (acc : Account H)
    (l : List (Change H)) : Prop where
  ok : acc.Ok db
  clean : acc.isUnchanged = true → l = [] ∧ t.map (AccountRlp.view db) = some (acc.view db)
  log : LogOk db t (acc.view db) l

namespace Account.Ok
variable {db : OverlayDB H} {acc acc' : Account H}

theorem congr (h : acc.Ok db) (hr : db.Has acc'.storageRoot) (hh : acc'.codeHash = acc.codeHash)
    (hc : acc'.codeCache = acc.codeCache) (hn : acc'.hasNewCode = acc.hasNewCode)
    (hal : acc'.isAlive = acc.isAlive) : acc'.Ok db := by
  refine ⟨hr, ?_, ?_, ?_⟩ <;> simp only [codeAt, hh, hc, hn, hal]
  exacts [h.code, h.newCode, h.oldCode]

theorem addBalance (h : acc.Ok db) (x : U256) : (acc.addBalance x).Ok db := h.congr h.storage rfl rfl rfl rfl

theorem setNonce (h : acc.Ok db) (n : U256) : (acc.setNonce n).Ok db := h.congr h.storage rfl rfl rfl rfl

theorem setStorage (h : acc.Ok db) (p v : U256) : (acc.setStorage p v).Ok db :=
  h.congr h.storage rfl rfl rfl rfl

theorem setStorageRoot (h : acc.Ok db) {r : H} (hr : db.Has r) : (acc.setStorageRoot r).Ok db :=
  h.congr hr rfl rfl rfl rfl

theorem untouch (h : acc.Ok db) : acc.untouch.Ok db := h.congr h.storage rfl rfl rfl rfl

theorem setCode (h : acc.Ok db) (c : Bytes) : (acc.setCode c).Ok db := by
  refine ⟨h.storage, ?_, fun _ _ => rfl, fun _ h => by simp [Account.setCode] at h⟩
  show sha3 ((acc.setCode c).view db).code = _
  rw [view_setCode]
  dsimp only
  split
  · next h => exact h.symm
  · rfl

theorem mk' (nonce balance : U256) : (Account.mk' nonce balance : Account H).Ok db := by
  refine ⟨db.has_emptyTrie, ?_, fun _ h => by simp [Account.mk', dead] at h, fun _ _ => .inl rfl⟩
  simp [codeAt, Account.mk', dead]; rfl

theorem dead : (Account.dead : Account H).Ok db := by
  refine ⟨db.has_emptyTrie, ?_, fun h => by simp [Account.dead] at h, fun _ _ => .inl rfl⟩
  simp [codeAt, Account.dead]; rfl

theorem kill : acc.kill.Ok db := by
  refine ⟨db.has_emptyTrie, ?_, fun h => by simp [Account.kill] at h, fun h => by simp [Account.kill] at h⟩
  simp [codeAt, Account.kill]; rfl

theorem noteCode (h : acc.Ok db) (hh : acc.codeHash ≠ emptySHA3) (hc : acc.codeCache = []) :
    (acc.noteCode (db.codes acc.codeHash)).Ok db := by
  have hcode : sha3 (db.codes acc.codeHash) = acc.codeHash := by
    have := h.code; simpa [codeAt, hh, hc] using this
  refine ⟨h.storage, ?_, fun _ _ => hcode, h.oldCode⟩
  show sha3 ((acc.noteCode _).view db).code = _
  rw [view_noteCode db acc hh hc]
  exact h.code

theorem ofRlp {r : AccountRlp H} (hr : db.Has r.storageRoot)
    (h : r.codeHash = emptySHA3 ∨ sha3 (db.codes r.codeHash) = r.codeHash) : (Account.ofRlp r).Ok db := by
  refine ⟨hr, ?_, fun _ h => by simp [Account.ofRlp, Account.dead] at h, fun _ _ => h⟩
  show sha3 (if r.codeHash = emptySHA3 then [] else if ([] : Bytes) = [] then db.codes r.codeHash
    else []) = r.codeHash
  split
  · next h' => rw [h']; rfl
  · next h' => exact h.resolve_left h'

end Account.Ok

namespace State

/-- The entries of `a` in the log above the lowest `base`. -/
def logOf (s : State H) (base : Nat) (a : Address) : List (Change H) :=
  (s.changeLog.take (s.changeLog.length - base)).filter fun c => c.address = a

structure Coherent (base : Nat) (s : State H) : Prop where
  base_le : base ≤ s.changeLog.length
  db : s.db.Ok
  nonExisting : ∀ a ∈ s.nonExistingAccountsCache, s.trieAt a = none
  cached : ∀ a acc, s.cache.lookup a = some acc → CachedOk s.db (s.trieAt a) acc (s.logOf base a)
  alive : ∀ a acc, s.cache.lookup a = some acc → acc.isAlive = true →
    a ∉ s.nonExistingAccountsCache
  logged : ∀ a, s.cache.lookup a = none → s.logOf base a = []

/-- From `s` the calls made have led to `s'`, and the entries they logged take them back up to `R`. -/
structure Extends (R : World H → World H → Prop) (base : Nat) (s s' : State H) : Prop where
  coherent : Coherent base s'
  db : s'.db = s.db
  root : s'.root = s.root
  accountStartNonce : s'.accountStartNonce = s.accountStartNonce
  undoable : Undoable (World.undo s.db) R s.changeLog s.view s'.changeLog s'.view

namespace Extends
variable {R : World H → World H → Prop} {base : Nat} {s s' s'' : State H}

theorem refl (h : Coherent base s) (hR : World.Respects s.db R) : Extends R base s s :=
  ⟨h, rfl, rfl, rfl, .refl hR⟩

theorem trans (hR : World.Respects s.db R) (h : Extends R base s s') (h' : Extends R base s' s'') :
    Extends R base s s'' :=
  ⟨h'.coherent, h'.db.trans h.db, h'.root.trans h.root,
    h'.accountStartNonce.trans h.accountStartNonce, h.undoable.trans hR (h.db ▸ h'.undoable)⟩

theorem weaken (hR : World.Respects s.db R) (h : Extends Eq base s s') : Extends R base s s' :=
  ⟨h.coherent, h.db, h.root, h.accountStartNonce, h.undoable.weaken hR⟩

end Extends

/-! ### One account -/

omit [Digest H] in
theorem logOf_append {base : Nat} {s s' : State H} {a : Address} {l : List (Change H)}
    (hb : base ≤ s.changeLog.length) (hl : ∀ c ∈ l, c.address = a)
    (hlog : s'.changeLog = l ++ s.changeLog) (b : Address) :
    s'.logOf base b = if b = a then l ++ s.logOf base a else s.logOf base b := by
  have htake : s'.changeLog.take (s'.changeLog.length - base) =
      l ++ s.changeLog.take (s.changeLog.length - base) := by
    rw [hlog, length_append, Nat.add_sub_assoc hb, take_length_add_append]
  unfold logOf
  rw [htake, filter_append]
  split
  · next h =>
    subst h
    rw [filter_eq_self.2 fun c hc => by simpa using hl c hc]
  · next h =>
    rw [filter_eq_nil_iff.2 fun c hc => by simpa [hl c hc] using Ne.symm h, nil_append]

variable {base : Nat} {s s' : State H}

/-- A change that concerns the account at `a` only. -/
theorem Coherent.modify (h : Coherent base s) (a : Address)
    (hdb : s'.db = s.db) (hroot : s'.root = s.root) (hbase : base ≤ s'.changeLog.length)
    (hne : ∀ b ∈ s'.nonExistingAccountsCache, s.trieAt b = none ∧ (b ≠ a → b ∈ s.nonExistingAccountsCache))
    (hcache : ∀ b, b ≠ a → s'.cache.lookup b = s.cache.lookup b)
    (hlog : ∀ b, b ≠ a → s'.logOf base b = s.logOf base b) (hsome : ∀ acc, s'.cache.lookup a = some acc →
      CachedOk s.db (s.trieAt a) acc (s'.logOf base a) ∧ (acc.isAlive = true → a ∉ s'.nonExistingAccountsCache))
    (hnone : s'.cache.lookup a = none → s'.logOf base a = []) : Coherent base s' := by
  have ht : ∀ b, s'.trieAt b = s.trieAt b := fun b => by rw [trieAt, hdb, hroot]; rfl
  constructor
  · exact hbase
  · rw [hdb]; exact h.db
  · intro b hb; rw [ht]; exact (hne b hb).1
  · intro b acc hb
    rw [hdb, ht]
    by_cases hba : b = a
    · subst hba; exact (hsome acc hb).1
    · rw [hcache b hba] at hb; rw [hlog b hba]; exact h.cached b acc hb
  · intro b acc hb halive
    by_cases hba : b = a
    · subst hba; exact (hsome acc hb).2 halive
    · rw [hcache b hba] at hb
      exact fun hmem => h.alive b acc hb halive ((hne b hmem).2 hba)
  · intro b hb
    by_cases hba : b = a
    · subst hba; exact hnone hb
    · rw [hcache b hba] at hb; rw [hlog b hba]; exact h.logged b hb

/-- Replacing the cached account at `a` and logging entries for it. -/
theorem Coherent.insert (h : Coherent base s) (a : Address)
    (acc : Account H) (l : List (Change H)) (hdb : s'.db = s.db) (hroot : s'.root = s.root)
    (hcache : s'.cache = s.cache.insert a acc) (hne : s'.nonExistingAccountsCache ⊆ s.nonExistingAccountsCache)
    (hlog : s'.changeLog = l ++ s.changeLog) (hl : ∀ c ∈ l, c.address = a)
    (hok : CachedOk s.db (s.trieAt a) acc (l ++ s.logOf base a))
    (hal : acc.isAlive = true → a ∉ s'.nonExistingAccountsCache) : Coherent base s' := by
  have hlo := logOf_append h.base_le hl hlog
  refine h.modify a hdb hroot ?_ (fun b hb => ⟨h.nonExisting b (hne hb), fun _ => hne hb⟩)
    (fun b hb => by rw [hcache, AList.lookup_insert_ne hb]) (fun b hb => by rw [hlo, if_neg hb]) ?_ ?_
  · rw [hlog, length_append]; exact Nat.le_trans h.base_le (Nat.le_add_left ..)
  · intro acc' hacc'
    rw [hcache, AList.lookup_insert] at hacc'
    cases hacc'
    rw [hlo, if_pos rfl]; exact ⟨hok, hal⟩
  · intro hnone
    rw [hcache, AList.lookup_insert] at hnone
    exact absurd hnone (by simp)

theorem view_insert {a : Address} (acc : Account H) (hdb : s'.db = s.db)
    (hroot : s'.root = s.root) (hcache : s'.cache = s.cache.insert a acc)
    (hne : ∀ b, b ≠ a → (b ∈ s'.nonExistingAccountsCache ↔ b ∈ s.nonExistingAccountsCache)) :
    s'.view = update s.view a (some (acc.view s.db)) := by
  funext b
  by_cases hb : b = a
  · subst hb
    simp [view, peek, hcache, hdb]
  · simp [view, peek, hcache, hdb, update_of_ne hb, AList.lookup_insert_ne hb, hne b hb,
      trieAt, hroot]

theorem view_put (s : State H) (a : Address) (acc : Account H) (l : List (Change H)) :
    State.view { s with cache := s.cache.insert a acc, changeLog := l } =
      update s.view a (some (acc.view s.db)) :=
  view_insert acc rfl rfl rfl fun _ _ => Iff.rfl

/-! ### Loading and purging -/

theorem Coherent.view_eq_trieView (h : Coherent base s) {a : Address}
    (ha : s.cache.lookup a = none) : s.view a = s.trieView a :=
  view_of_not_cached ha fun hne => h.nonExisting a hne

/-- Dropping an account that is not marked as changed. -/
theorem Coherent.erase (h : Coherent base s) {a : Address}
    {acc : Account H} (ha : s.cache.lookup a = some acc) (hclean : acc.isUnchanged = true) (hs : s' = { s with
      cache := s.cache.erase a, unchangedCacheEntries := s'.unchangedCacheEntries
      fixedHashEngine := s'.fixedHashEngine }) :
    Coherent base s' ∧ s'.view = s.view := by
  have hcache : s'.cache = s.cache.erase a := by rw [hs]
  have hdb : s'.db = s.db := by rw [hs]
  have hroot : s'.root = s.root := by rw [hs]
  have hne : s'.nonExistingAccountsCache = s.nonExistingAccountsCache := by rw [hs]
  have hlog : s'.changeLog = s.changeLog := by rw [hs]
  have hlogOf : ∀ b, s'.logOf base b = s.logOf base b := fun b => by rw [logOf, hlog]; rfl
  obtain ⟨hl, ht⟩ := (h.cached a acc ha).clean hclean
  have herase : s'.cache.lookup a = none := by rw [hcache, AList.lookup_erase]
  have hcoh : Coherent base s' := by
    refine h.modify a hdb hroot (hlog ▸ h.base_le)
      (fun b hb => ⟨h.nonExisting b (hne ▸ hb), fun _ => hne ▸ hb⟩)
      (fun b hb => by rw [hcache, AList.lookup_erase_ne hb]) (fun b _ => hlogOf b) ?_ ?_
    · intro acc' hacc'; rw [herase] at hacc'; cases hacc'
    · intro _; rw [hlogOf, hl]
  refine ⟨hcoh, ?_⟩
  funext b
  by_cases hb : b = a
  · subst hb
    rw [hcoh.view_eq_trieView herase, view_of_lookup ha, ← ht, trieView, trieAt, hdb, hroot]
    rfl
  · simp [view, peek, hcache, hdb, AList.lookup_erase_ne hb, hne, trieAt, hroot]

theorem Coherent.purgeOne (h : Coherent base s) : Coherent base s.purgeOne ∧ s.purgeOne.view = s.view := by
  unfold State.purgeOne
  dsimp only
  split
  · next addr back _ _ =>
    cases hl : s.cache.lookup addr with
    | none => exact ⟨⟨h.base_le, h.db, h.nonExisting, h.cached, h.alive, h.logged⟩, rfl⟩
    | some acc =>
      by_cases hd : acc.isDirty = true
      · simp only [hd, if_true]
        exact ⟨⟨h.base_le, h.db, h.nonExisting, h.cached, h.alive, h.logged⟩, rfl⟩
      · simp only [hd]
        exact h.erase hl (by simpa [Account.isDirty] using hd) rfl
  · exact ⟨h, rfl⟩

theorem Coherent.purge (n : Nat) (h : Coherent base s) :
    Coherent base (State.purge n s) ∧ (State.purge n s).view = s.view := by
  induction n generalizing s with
  | zero => exact ⟨h, rfl⟩
  | succ n ih =>
    obtain ⟨h1, h2⟩ := ih h.purgeOne.1
    exact ⟨h1, h2.trans h.purgeOne.2⟩

omit [Digest H] in
/-- What is not cached stays so when others are purged. -/
theorem lookup_purge {n : Nat} {s : State H} {a : Address} (h : s.cache.lookup a = none) :
    (State.purge n s).cache.lookup a = none := by
  induction n generalizing s with
  | zero => exact h
  | succ n ih =>
    refine ih ?_
    unfold State.purgeOne
    dsimp only
    split
    · next addr back _ _ =>
      dsimp only
      split
      · split
        · exact h
        · by_cases hab : a = addr
          · subst hab; exact AList.lookup_erase a s.cache
          · rw [AList.lookup_erase_ne hab]; exact h
      · exact h
    · exact h

theorem Coherent.load (h : Coherent base s) (a : Address) : Coherent base (s.load a) ∧ (s.load a).view = s.view := by
  unfold State.load
  cases hl : s.cache.lookup a with
  | some acc => exact ⟨h, rfl⟩
  | none =>
    dsimp only
    split
    · exact ⟨h, rfl⟩
    · next hn =>
      split
      · next ht =>
        have hv : ∀ b, s.view b = State.view { s with
            nonExistingAccountsCache := Insert.insert a s.nonExistingAccountsCache } b := by
          intro b
          by_cases hb : b = a
          · subst hb; simp [view, peek, hl, hn, ht]
          · simp only [view, peek, Finset.mem_insert, hb, false_or]; rfl
        refine ⟨h.modify a rfl rfl h.base_le ?_ (fun _ _ => rfl) (fun _ _ => rfl) ?_ ?_,
          (funext hv).symm⟩
        · intro b hb
          rcases Finset.mem_insert.1 hb with rfl | hb
          · exact ⟨ht, fun h => absurd rfl h⟩
          · exact ⟨h.nonExisting b hb, fun _ => hb⟩
        · intro acc hacc; change s.cache.lookup a = _ at hacc; rw [hl] at hacc; cases hacc
        · intro _; exact h.logged a hl
      · next r ht =>
        obtain ⟨h1, hv⟩ := h.purge (s.unchangedCacheEntries.length - 1000)
        obtain ⟨c, u, e, hs⟩ := purge_frame (s.unchangedCacheEntries.length - 1000) s
        have hl1 : s.clearCacheIfTooLarge.cache.lookup a = none := lookup_purge hl
        have ht1 : s.clearCacheIfTooLarge.trieAt a = some r := by
          unfold State.clearCacheIfTooLarge; rw [hs]; exact ht
        have hn1 : a ∉ s.clearCacheIfTooLarge.nonExistingAccountsCache := by
          unfold State.clearCacheIfTooLarge; rw [hs]; exact hn
        have h1 : Coherent base s.clearCacheIfTooLarge := h1
        have hv : s.clearCacheIfTooLarge.view = s.view := hv
        revert h1 hv hl1 ht1 hn1
        generalize s.clearCacheIfTooLarge = t
        intro hl1 ht1 hn1 h1 hv
        refine ⟨h1.insert a (.ofRlp r) [] rfl rfl rfl (Finset.Subset.refl _) rfl (by simp) ?_
          fun _ => hn1, ?_⟩
        · rw [h1.logged a hl1]
          exact ⟨.ofRlp (h1.db.storage _ a r ht1) (h1.db.code _ a r ht1), fun _ => ⟨rfl, by rw [ht1]; rfl⟩, trivial⟩
        · refine Eq.trans (view_insert (s := t) (a := a) (.ofRlp r) (by rfl) (by rfl) (by rfl)
            fun _ _ => Iff.rfl) ?_
          have : t.view a = some ((Account.ofRlp r).view t.db) := by
            rw [h1.view_eq_trieView hl1, trieView, ht1]; rfl
          rw [← this, update_eq_self, hv]

theorem lookup_load (s : State H) (a : Address) :
    (s.load a).cache.lookup a = s.peek a := by
  unfold State.load peek
  cases hl : s.cache.lookup a with
  | some acc => exact hl
  | none =>
    dsimp only
    split
    · exact hl
    · split
      · next ht => rw [ht]; exact hl
      · next ht => rw [ht, AList.lookup_insert]; rfl

theorem Coherent.extends_load (h : Coherent base s) (a : Address) : Extends Eq base s (s.load a) :=
  ⟨(h.load a).1, db_load s a, root_load s a, accountStartNonce_load s a, by
    rw [changeLog_load]; exact .of_eq (.eq _) (h.load a).2⟩

/-! ### Undoing -/

theorem Coherent.cached_of_log (h : Coherent base s) {a : Address}
    (hl : s.logOf base a ≠ []) : ∃ acc, s.cache.lookup a = some acc ∧ acc.isUnchanged = false ∧
      CachedOk s.db (s.trieAt a) acc (s.logOf base a) := by
  cases hc : s.cache.lookup a with
  | none => exact absurd (h.logged a hc) hl
  | some acc =>
    have hok := h.cached a acc hc
    exact ⟨acc, rfl, Bool.eq_false_iff.2 fun hu => hl (hok.clean hu).1, hok⟩

omit [Digest H] in
theorem logOf_cons {base : Nat} {s s' : State H} {c : Change H} (hb : base ≤ s'.changeLog.length)
    (hl : s.changeLog = c :: s'.changeLog) (b : Address) :
    s.logOf base b = if b = c.address then c :: s'.logOf base b else s'.logOf base b := by
  have htake : s.changeLog.take (s.changeLog.length - base) =
      c :: s'.changeLog.take (s'.changeLog.length - base) := by
    rw [hl, length_cons, Nat.sub_add_comm hb, take_succ_cons]
  simp only [logOf, htake, filter_cons, decide_eq_true_eq, eq_comm (a := c.address)]

/-- A log entry other than `Create` is undone in the cached account. -/
theorem Coherent.undo_account {c : Change H} {acc : Account H}
    (h : Coherent base s) (acc' : Account H) (hs' : s' = { s with
      cache := s'.cache, unchangedCacheEntries := s'.unchangedCacheEntries, changeLog := s'.changeLog })
    (hb : base ≤ s'.changeLog.length) (hl : s.changeLog = c :: s'.changeLog)
    (hcache : s'.cache = (s.cache.insert c.address acc).insert c.address acc')
    (hacc : s.cache.lookup c.address = some acc)
    (hok : CachedOk s.db (s.trieAt c.address) acc' (s'.logOf base c.address))
    (hal : acc'.isAlive = acc.isAlive) : Coherent base s' ∧
      s'.view = update s.view c.address (some (acc'.view s.db)) := by
  have hlog := logOf_cons hb hl
  have hdb : s'.db = s.db := by rw [hs']
  have hroot : s'.root = s.root := by rw [hs']
  have hne : s'.nonExistingAccountsCache = s.nonExistingAccountsCache := by rw [hs']
  have hlook : s'.cache.lookup c.address = some acc' := by rw [hcache, AList.lookup_insert]
  have hother : ∀ b, b ≠ c.address → s'.cache.lookup b = s.cache.lookup b := fun b hb => by
    rw [hcache, AList.lookup_insert_ne hb, AList.lookup_insert_ne hb]
  constructor
  · refine h.modify c.address hdb hroot hb
      (fun b hb => ⟨h.nonExisting b (hne ▸ hb), fun _ => hne ▸ hb⟩) hother
      (fun b hb => by rw [hlog b, if_neg hb]) ?_ ?_
    · intro acc₁ h₁
      rw [hlook] at h₁
      cases h₁
      exact ⟨hok, fun ha => hne ▸ h.alive c.address acc hacc (hal ▸ ha)⟩
    · intro h₁; rw [hlook] at h₁; cases h₁
  · funext b
    by_cases hb : b = c.address
    · subst hb; rw [view_of_lookup hlook, hdb, update_self]
    · simp [view, peek, hother b hb, hne, hdb, trieAt, hroot, update_of_ne hb]

theorem Coherent.undoChange {c : Change H} {l : List (Change H)}
    (h : Coherent base s) (hl : s.changeLog = c :: l) (hb : base ≤ l.length) :
    Coherent base { State.undoChange c s with changeLog := l } ∧
      State.view { State.undoChange c s with changeLog := l } = World.undo s.db c s.view := by
  obtain ⟨s', hs'⟩ : ∃ s', s' = { State.undoChange c s with changeLog := l } := ⟨_, rfl⟩
  have hl' : s'.changeLog = l := by rw [hs']
  rw [← hs']
  rw [← hl'] at hl hb
  have hlog := logOf_cons hb hl
  obtain ⟨acc, hacc, hdirty, hok⟩ := h.cached_of_log (a := c.address) (by rw [hlog]; simp)
  rw [hlog, if_pos rfl] at hok
  have hat : s.cacheAt c.address = acc := by simp [cacheAt, hacc]
  have hv : s.view c.address = some (acc.view s.db) := view_of_lookup hacc
  -- a setter leaves the account marked, so only the log and the code remain to be checked
  have dirty : ∀ {acc' : Account H} {t l}, acc'.isUnchanged = false → acc'.Ok s.db →
      LogOk s.db t (acc'.view s.db) l → CachedOk s.db t acc' l :=
    fun hd ho hlo => ⟨ho, fun hc => (by simp [hd] at hc), hlo⟩
  cases c with
  | balance a x =>
    simp only [State.undoChange, hat] at hs'
    have hu := h.undo_account (acc.addBalance (0 - x)) (by rw [hs']) hb hl (by rw [hs']; rfl) hacc
      (dirty rfl (hok.ok.addBalance _) hok.log) rfl
    exact ⟨hu.1, hu.2.trans (by simp only [World.undo, hv]; rfl)⟩
  | storage a k w =>
    simp only [State.undoChange, hat] at hs'
    have hu := h.undo_account (acc.setStorage k w) (by rw [hs']) hb hl (by rw [hs']; rfl) hacc
      (dirty rfl (hok.ok.setStorage _ _) (by rw [Account.view_setStorage]; exact hok.log)) rfl
    exact ⟨hu.1, hu.2.trans (by simp only [World.undo, hv, Account.view_setStorage]; rfl)⟩
  | storageRoot a r =>
    simp only [State.undoChange, hat] at hs'
    have hu := h.undo_account (acc.setStorageRoot r) (by rw [hs']) hb hl (by rw [hs']; rfl) hacc
      (dirty rfl (hok.ok.setStorageRoot hok.log.2.2.1)
        (by rw [Account.view_setStorageRoot]; exact hok.log.2.2.2)) rfl
    exact ⟨hu.1, hu.2.trans (by simp only [World.undo, hv, Account.view_setStorageRoot]; rfl)⟩
  | nonce a n =>
    simp only [State.undoChange, hat] at hs'
    have hu := h.undo_account (acc.setNonce n) (by rw [hs']) hb hl (by rw [hs']; rfl) hacc
      (dirty rfl (hok.ok.setNonce _) hok.log) rfl
    exact ⟨hu.1, hu.2.trans (by simp only [World.undo, hv]; rfl)⟩
  | code a c =>
    simp only [State.undoChange, hat] at hs'
    have hu := h.undo_account (acc.setCode c) (by rw [hs']) hb hl (by rw [hs']; rfl) hacc
      (dirty hdirty (hok.ok.setCode c) (by rw [Account.view_setCode]; exact hok.log)) rfl
    exact ⟨hu.1, hu.2.trans (by simp only [World.undo, hv, Account.view_setCode]; rfl)⟩
  | touch a =>
    simp only [State.undoChange, hat] at hs'
    -- the oldest entry of the account: what is left is the committed account
    obtain ⟨hnil, ht⟩ := hok.log
    have hu := h.undo_account acc.untouch (by rw [hs']) hb hl (by rw [hs']; rfl) hacc
      ⟨hok.ok.untouch, fun _ => ⟨hnil, ht⟩, by rw [hnil]; trivial⟩ rfl
    exact ⟨hu.1, hu.2.trans (by simp only [World.undo, hv]; rfl)⟩
  | create a =>
    simp only [State.undoChange, hat] at hs'
    -- the oldest entry too: the trie has no such account
    simp only [Change.address] at hlog hok hacc hv hs'
    obtain ⟨hnil, ht, -⟩ := hok.log
    have hlook : s'.cache.lookup a = none := by rw [hs']; exact AList.lookup_erase ..
    have hother : ∀ b, b ≠ a → s'.cache.lookup b = s.cache.lookup b :=
      fun b hb => by rw [hs', AList.lookup_erase_ne hb, AList.lookup_insert_ne hb]
    have hcoh : Coherent base s' := by
      refine h.modify a (by rw [hs']) (by rw [hs']) hb
        (fun b hb => ⟨h.nonExisting b (by rwa [hs'] at hb), fun _ => by rwa [hs'] at hb⟩) hother
        (fun b hb => ((hlog b).trans (if_neg hb)).symm) ?_ fun _ => hnil
      intro acc' hacc'
      rw [hlook] at hacc'; cases hacc'
    refine ⟨hcoh, ?_⟩
    funext b
    by_cases hb : b = a
    · subst hb
      rw [hcoh.view_eq_trieView hlook]
      simp only [World.undo, Change.address, update_self, trieView]
      rw [show s'.trieAt b = none by rw [hs']; exact ht]; rfl
    · simp only [World.undo, Change.address, update_of_ne hb]
      simp only [view, peek, hother b hb]
      rw [hs']; rfl

theorem undoChange_frame (c : Change H) (s : State H) : ∃ cache entries,
    State.undoChange c s = { s with cache := cache, unchangedCacheEntries := entries } := by
  cases c <;> exact ⟨_, _, rfl⟩

/-- Rolling back takes back the entries above the savepoint. -/
theorem Coherent.rollbackLoop {savepoint : Nat} (l : List (Change H))
    (h : Coherent base s) (hl : s.changeLog = l) (hb : base ≤ savepoint) (hs : savepoint ≤ l.length) :
    ∃ s', State.rollbackLoop savepoint l s = s' ∧ Coherent base s' ∧
      s'.view = undoAll (World.undo s.db) (l.take (l.length - savepoint)) s.view ∧
      s'.changeLog = l.drop (l.length - savepoint) ∧ s'.db = s.db ∧ s'.root = s.root ∧
      s'.accountStartNonce = s.accountStartNonce := by
  refine ⟨_, rfl, ?_⟩
  induction l generalizing s with
  | nil => exact ⟨h, by simp [State.rollbackLoop], by simpa [State.rollbackLoop] using hl, rfl, rfl, rfl⟩
  | cons c l ih =>
    unfold State.rollbackLoop
    split
    · next heq => exact ⟨h, by simp [heq], by simpa [heq] using hl, rfl, rfl, rfl⟩
    · next hne =>
      have hs' : savepoint ≤ l.length := by simp only [length_cons] at hs hne; omega
      have hsub : (c :: l).length - savepoint = l.length - savepoint + 1 := by
        simp only [length_cons]; omega
      obtain ⟨hcoh, hview⟩ := h.undoChange hl (Nat.le_trans hb hs')
      obtain ⟨cache, entries, hframe⟩ := undoChange_frame c s
      obtain ⟨h1, h2, h3, h4, h5, h6⟩ := ih hcoh rfl hs'
      refine ⟨h1, ?_, ?_, ?_, ?_, ?_⟩
      · rw [h2, hview, hsub, take_succ_cons, undoAll_cons, hframe]
      · rw [h3, hsub, drop_succ_cons]
      · rw [h4, hframe]
      · rw [h5, hframe]
      · rw [h6, hframe]

end State

end Kmdx
