import Kmdx.Keys.KeyManager
import Kmdx.Rlp.RoundTrip

/-!
# What is in the keys file

The file is a list of four items, and its accounts and hints are read as they have been written (`evalPlace`, `evalInfo`,
`evalHint`).
-/

namespace Kmdx.Keys.KeyManager

open Rlp P2p ExceptRules Wp List

variable {R C : Type} {km : KeyManager C}

/-! ### What is written -/

def accountParts (km : KeyManager C) (info : Σ _ : Address, KeyInfo) : List Tree :=
  [.data (hashBytes 20 info.1), .data (hashBytes 16 (km.uuid info.1)), .data (hashBytes 32 info.2.passHash),
    .data info.2.accountName, .data info.2.passwordHint]

def hintParts (i : Σ _ : FixedHash 32, Bytes) : List Tree := [.data (hashBytes 32 i.1), .data i.2]

def accountTrees (km : KeyManager C) : List Tree := km.m_keyInfo.entries.map fun info => .list (km.accountParts info)

def hintTrees (km : KeyManager C) : List Tree := km.m_passwordHint.entries.map fun i => .list (hintParts i)

def parts (km : KeyManager C) : List Tree :=
  [.int 1, .list km.accountTrees, .list km.hintTrees, .data km.m_defaultPasswordDeprecated]

/-- What is written is in a vector, which does not have as many bytes. -/
def Fits (km : KeyManager C) : Prop := (Tree.payload km.parts).length < lengthLimit

theorem writes_account (km : KeyManager C) (info : Σ _ : Address, KeyInfo) :
    Writes (km.streamAccount info) [.list (km.accountParts info)] :=
  (Writes.append _ (.append _ (.append _ (.append _ (.append _ .nil))))).singleton

theorem writes_accounts (km : KeyManager C) (infos : List (Σ _ : Address, KeyInfo)) :
    Writes (infos.flatMap km.streamAccount) (infos.map fun info => .list (km.accountParts info)) := by
  induction infos with
  | nil => exact .nil
  | cons info infos ih =>
    rw [flatMap_cons, map_cons]
    exact (writes_account km info).concat ih

theorem writes_hints (is : List (Σ _ : FixedHash 32, Bytes)) :
    Writes (is.flatMap streamHint) (is.map fun i => .list (hintParts i)) := by
  induction is with
  | nil => exact .nil
  | cons i is ih =>
    rw [flatMap_cons, map_cons]
    exact ((Writes.append _ (.append _ .nil)).singleton : Writes (streamHint i) [.list (hintParts i)]).concat ih

theorem writes_parts (km : KeyManager C) : Writes km.streamRLP [.list km.parts] := by
  have hhints := Writes.list (writes_hints km.m_passwordHint.entries) (.append km.m_defaultPasswordDeprecated .nil)
  rw [length_map] at hhints
  have haccounts := Writes.list (writes_accounts km km.m_keyInfo.entries) hhints
  rw [length_map] at haccounts
  exact (Writes.int 1 (Nat.one_lt_pow (by decide) (by decide)) haccounts).singleton

theorem output_eq (h : km.Fits) : (run km.streamRLP {} >>= RLPStream.output) = .ok (Tree.list km.parts).encode :=
  output_of_writes (writes_parts km) h

/-! ### What is read -/

section

variable {α : Type} {d : Bytes} {is : List Bytes} {k : Nat} (hitem : ∀ k, Reads d is (item k) (.ok (RLP.of (is.getD k []))))
include hitem

theorem reads_stringAt {b : Bytes} (hb : b.length < lengthLimit) (hget : is.getD k [] = bytes b) :
    Reads d is (stringAt k) (.ok b) :=
  reads_at (toBytes ·) (hitem k) hget (toBytes_bytes hb)

end

theorem reads_countOf {d : Bytes} {is : List Bytes} {n : Nat} (hcount : itemCount d = .ok n) :
    Reads d is countOf (.ok n) := by
  rintro r rfl h
  rw [countOf, wp_bind, wp_get]
  exact Reads.lift (itemCount r.data) r rfl h |> (hcount ▸ ·)

variable {info : Σ _ : Address, KeyInfo} {i : Σ _ : FixedHash 32, Bytes}

theorem evalPlace (h : (Tree.list (km.accountParts info)).Fits) :
    eval accountPlace (RLP.of (Tree.list (km.accountParts info)).encode) = .ok (km.uuid info.1, info.1) := by
  have hitem := reads_item h
  have hread : Reads (Tree.list (km.accountParts info)).encode ((km.accountParts info).map Tree.encode) accountPlace
      (.ok (km.uuid info.1, info.1)) := by
    refine (@reads_hashAt 16 _ _ 1 (km.uuid info.1) (by decide) (hitem 1) (by simp [accountParts, Tree.encode])).bind_ok ?_
    exact (@reads_hashAt 20 _ _ 0 info.1 (by decide) (hitem 0) (by simp [accountParts, Tree.encode])).bind_ok (.pure _)
  exact hread.eval

theorem evalInfo (h : (Tree.list (km.accountParts info)).Fits) :
    eval accountInfo (RLP.of (Tree.list (km.accountParts info)).encode) = .ok info.2 := by
  have hitem := reads_item h
  have hcount := (isListOf_encode h).itemCount (splits_payload h)
  rw [length_map] at hcount
  have hmem : ∀ t ∈ km.accountParts info, t.Fits := fun t ht => Tree.fits_of_mem h ht
  have hname : info.2.accountName.length < lengthLimit := hmem (.data info.2.accountName) (by simp [accountParts])
  have hhint : info.2.passwordHint.length < lengthLimit := hmem (.data info.2.passwordHint) (by simp [accountParts])
  have hread : Reads (Tree.list (km.accountParts info)).encode ((km.accountParts info).map Tree.encode)
      accountInfo (.ok info.2) := by
    refine (@reads_hashAt 32 _ _ 2 info.2.passHash (by decide) (hitem 2) (by simp [accountParts, Tree.encode])).bind_ok ?_
    refine (reads_stringAt hitem hname (by simp [accountParts, Tree.encode])).bind_ok ?_
    refine (reads_countOf hcount).bind_ok ?_
    rw [if_pos (by simp [accountParts])]
    exact (reads_stringAt hitem hhint (by simp [accountParts, Tree.encode])).bind_ok (.pure _)
  exact hread.eval

theorem evalHint (h : (Tree.list (hintParts i)).Fits) :
    eval hintFields (RLP.of (Tree.list (hintParts i)).encode) = .ok (i.1, i.2) := by
  have hitem := reads_item h
  have hhint : i.2.length < lengthLimit := Tree.fits_of_mem h (t := .data i.2) (by simp [hintParts])
  have hread : Reads (Tree.list (hintParts i)).encode ((hintParts i).map Tree.encode) hintFields (.ok (i.1, i.2)) := by
    refine (@reads_hashAt 32 _ _ 0 i.1 (by decide) (hitem 0) (by simp [hintParts, Tree.encode])).bind_ok ?_
    exact (reads_stringAt hitem hhint (by simp [hintParts, Tree.encode])).bind_ok (.pure _)
  exact hread.eval

/-! ### Loading -/

variable {km' : KeyManager C} {infos : List (Σ _ : Address, KeyInfo)} {is : List (Σ _ : FixedHash 32, Bytes)}

theorem run_lift_ok {α : Type} {y : Except Rlp.Exn α} {a : α} (hy : y = .ok a) : (liftM y : M C α) km = .ok a km := by
  rw [hy]
  rfl

/-- The key of an account is in the store, and its address is known. -/
def Stored (st : SecretStore C) (uuid : H128) : Prop := uuid ≠ 0 ∧ ∃ k, st.m_keys.lookup uuid = some k ∧ k.address ≠ 0

/-- With the accounts of the file of another manager -/
def withAccounts (km km' : KeyManager C) (infos : List (Σ _ : Address, KeyInfo)) : KeyManager C :=
  { km with
    m_addrLookup := km.m_addrLookup.insertAll (infos.map fun info => ⟨info.1, km'.uuid info.1⟩)
    m_uuidLookup := km.m_uuidLookup.insertAll (infos.map fun info => ⟨km'.uuid info.1, info.1⟩)
    m_keyInfo := km.m_keyInfo.insertAll infos }

theorem run_loadAccount (hfits : (Tree.list (km'.accountParts info)).Fits) (hstored : Stored km.m_store (km'.uuid info.1)) :
    loadAccount (RLP.of (Tree.list (km'.accountParts info)).encode) km = .ok false (km.withAccounts km' [info]) := by
  obtain ⟨hzero, k, hk, haddress⟩ := hstored
  have hcontains : km.m_store.contains (km'.uuid info.1) = true := by
    rw [SecretStore.contains, hk]
    rfl
  rw [loadAccount, run_bind_of_ok (run_lift_ok (evalPlace hfits))]
  dsimp only
  rw [run_ite, if_pos hzero, run_bind_of_ok run_get, run_ite, if_pos hcontains, run_bind_of_ok (run_modify _),
    run_bind_of_ok (run_lift_ok (evalInfo hfits)), run_bind_of_ok (run_modify _), run_bind_of_ok run_get]
  dsimp only
  rw [SecretStore.noteAddress, hk]
  dsimp only
  rw [if_neg haddress]
  rfl

theorem run_loadAccounts (hfits : ∀ info ∈ infos, (Tree.list (km'.accountParts info)).Fits)
    (hstored : ∀ info ∈ infos, Stored km.m_store (km'.uuid info.1)) (b : Bool) :
    loadAccounts (infos.map fun info => RLP.of (Tree.list (km'.accountParts info)).encode) b km =
      .ok b (km.withAccounts km' infos) := by
  induction infos generalizing km with
  | nil => rfl
  | cons info infos ih =>
    have hinfo := run_loadAccount (hfits info mem_cons_self) (hstored info mem_cons_self)
    have hrest : loadAccounts (infos.map fun info => RLP.of (Tree.list (km'.accountParts info)).encode) b
        (km.withAccounts km' [info]) = .ok b ((km.withAccounts km' [info]).withAccounts km' infos) :=
      ih (fun i hi => hfits i (mem_cons_of_mem _ hi)) fun i hi => hstored i (mem_cons_of_mem _ hi)
    rw [map_cons, loadAccounts, run_bind_of_ok hinfo, Bool.or_false, hrest]
    rfl

theorem run_loadHints (hfits : ∀ i ∈ is, (Tree.list (hintParts i)).Fits) :
    loadHints (is.map fun i => RLP.of (Tree.list (hintParts i)).encode) km =
      .ok () { km with m_passwordHint := km.m_passwordHint.insertAll is } := by
  induction is generalizing km with
  | nil => rfl
  | cons i is ih =>
    rw [map_cons, loadHints, run_bind_of_ok (run_lift_ok (evalHint (hfits i mem_cons_self)))]
    dsimp only
    rw [run_bind_of_ok (run_modify _), ih fun i hi => hfits i (mem_cons_of_mem _ hi)]
    rfl

/-- A manager with what is in the file of another one -/
def withContents (km km' : KeyManager C) : KeyManager C :=
  { km.withAccounts km' km'.m_keyInfo.entries with
    m_passwordHint := km.m_passwordHint.insertAll km'.m_passwordHint.entries
    m_defaultPasswordDeprecated := km'.m_defaultPasswordDeprecated }

theorem elements_list {ts : List Tree} (hfits : (Tree.list ts).Fits) :
    elements (Tree.list ts).encode = .ok (ts.map fun t => RLP.of t.encode) := by
  rw [(isListOf_encode hfits).elements (splits_payload hfits), map_map]
  rfl

theorem run_loadContents (hfits : km'.Fits) (hstored : ∀ info ∈ km'.m_keyInfo.entries, Stored km.m_store (km'.uuid info.1)) :
    loadContents (RLP.of (Tree.list km'.parts).encode) km = .ok () (km.withContents km') := by
  have hitem := @reads_item km'.parts hfits
  have hmem : ∀ t ∈ km'.parts, t.Fits := fun t ht => Tree.fits_of_mem hfits ht
  have haccounts : (Tree.list km'.accountTrees).Fits := hmem _ (by simp [parts])
  have hhints : (Tree.list km'.hintTrees).Fits := hmem _ (by simp [parts])
  have hpassword : km'.m_defaultPasswordDeprecated.length <
      lengthLimit := hmem (.data km'.m_defaultPasswordDeprecated) (by simp [parts])
  have hfirst : eval (item 1) (RLP.of (Tree.list km'.parts).encode) =
      .ok (RLP.of (Tree.list km'.accountTrees).encode) := (hitem 1).eval
  have hsecond : eval (item 2) (RLP.of (Tree.list km'.parts).encode) =
      .ok (RLP.of (Tree.list km'.hintTrees).encode) := (hitem 2).eval
  have hthird : eval (stringAt 3) (RLP.of (Tree.list km'.parts).encode) = .ok km'.m_defaultPasswordDeprecated :=
    (reads_stringAt hitem hpassword (by simp [parts, Tree.encode])).eval
  have helements : elements (RLP.of (Tree.list km'.accountTrees).encode).data = .ok (km'.m_keyInfo.entries.map fun info =>
      RLP.of (Tree.list (km'.accountParts info)).encode) := by
    refine (elements_list haccounts).trans ?_
    rw [accountTrees, map_map]
    rfl
  have helements' : elements (RLP.of (Tree.list km'.hintTrees).encode).data = .ok (km'.m_passwordHint.entries.map fun i =>
      RLP.of (Tree.list (hintParts i)).encode) := by
    refine (elements_list hhints).trans ?_
    rw [hintTrees, map_map]
    rfl
  have hrun := run_loadAccounts (fun info hi => Tree.fits_of_mem haccounts (mem_map_of_mem hi)) hstored false
  have hfitting : ∀ i ∈ km'.m_passwordHint.entries, (Tree.list (hintParts i)).Fits := fun i hi =>
    Tree.fits_of_mem hhints (mem_map_of_mem (f := fun i => Tree.list (hintParts i)) hi)
  have hrun' := @run_loadHints _ (km.withAccounts km' km'.m_keyInfo.entries) _ hfitting
  rw [loadContents, run_bind_of_ok (run_lift_ok hfirst), run_bind_of_ok (run_lift_ok helements), run_bind_of_ok hrun]
  dsimp only
  rw [run_ite, if_neg (by decide), run_bind_of_ok (run_lift_ok hsecond), run_bind_of_ok (run_lift_ok helements'),
    run_bind_of_ok hrun', run_bind_of_ok (run_lift_ok hthird), run_modify]
  rfl

/-- A manager that has loaded the file of another one -/
def loaded (x : Cryptography R C) (km km' : KeyManager C) (pass : Bytes) : KeyManager C :=
  let key := x.pbkdf2 16 pass km.saltFile
  let hash := fun p => x.pbkdf2 32 p km'.m_defaultPasswordDeprecated
  { ({ km with m_keysFileKey := key } : KeyManager C).withContents km' with
    m_cachedPasswords := ((km.m_cachedPasswords.insert (hash km'.m_defaultPasswordDeprecated)
      km'.m_defaultPasswordDeprecated).insert (hash (hashBytes 16 key)) (hashBytes 16 key)).insert (hash pass) pass
    m_master := hash pass }

theorem run_load {x : Cryptography R C} {pass : Bytes} (hfits : km'.Fits)
    (hstored : ∀ info ∈ km'.m_keyInfo.entries, Stored km.m_store (km'.uuid info.1)) (hfile : km.keysFile ≠ [])
    (hdecrypt : x.decryptSymNoAuth (x.pbkdf2 16 pass km.saltFile) km.keysFile = (Tree.list km'.parts).encode) :
    load x pass km = .ok true (loaded x km km' pass) := by
  have hmk : RLP.mk' (Tree.list km'.parts).encode = .ok (RLP.of (Tree.list km'.parts).encode) :=
    mk'_veryStrict.2 ⟨rfl, .inr (isItem_encode hfits)⟩
  have hversion : eval (intAt 4 0) (RLP.of (Tree.list km'.parts).encode) = .ok 1 :=
    (@reads_intAt 4 _ _ 0 1 (by decide) (by decide) (reads_item hfits 0) (by simp [parts, Tree.int, Tree.encode, nat])).eval
  have hcontents := @run_loadContents _ { km with m_keysFileKey := x.pbkdf2 16 pass km.saltFile } _ hfits hstored
  have hrun : loadFile x pass km = .ok () (loaded x km km' pass) := by
    rw [loadFile, run_bind_of_ok run_get]
    dsimp only
    rw [run_bind_of_ok (run_modify _), run_bind_of_ok run_get, hdecrypt, run_bind_of_ok (run_lift_ok hmk),
      run_bind_of_ok (run_lift_ok hversion), run_ite, if_pos rfl, run_bind_of_ok hcontents]
    rfl
  rw [load, run_bind_of_ok run_get, run_ite, if_neg hfile, run_tryCatch, run_bind_of_ok hrun]
  rfl

end Kmdx.Keys.KeyManager
