import Kmdx.LogWatches

/-!
# What the watches are told of

In a run in which no filter is taken away from a watch (`Ok`), each watch is told of what is appended and noted while it is
installed, once and in order.
-/

namespace Kmdx.WatchRun

open Client Function

variable {F R E H : Type} [DecidableEq H] {c : LogHost F R E H} {s : WatchRun F E H}

/-- The condition on a step: the number of a watch is new, and a filter has nothing pending when a watch is put on it; a watch
that goes is the only one on its filter; and what is pending for a watch is noted. -/
def Ok (c : LogHost F R E H) (s : WatchRun F E H) : WatchOp F R H → Prop
  | .installWatch h => s.client.nextWatch ∉ s.client.installed ∧ subject c s.client h ≠ .nothing ∧
  s.client.pendingChanges h = []
  | .uninstallWatch i => i ∈ s.client.installed → (s.client.filters (s.client.watches i).id).isSome →
    ∀ j ∈ s.client.installed, j ≠ i → (s.client.watches j).id ≠ (s.client.watches i).id
  | .noteChanged ids => ∀ i ∈ s.client.installed, s.client.pendingChanges (s.client.watches i).id ≠ [] →
    ids (s.client.watches i).id
  | _ => True

/-- No filter has the hash of a special one, or of another filter. -/
structure LawfulHash (c : LogHost F R E H) : Prop where
  injective : Injective c.sha3
  not_special : ∀ f, c.sha3 f ≠ c.pendingChangedFilter ∧ c.sha3 f ≠ c.chainChangedFilter

/-- What is pending for a watch is what is due, and what it has been told of is what was noted. -/
structure Told (c : LogHost F R E H) (client : Client F E H) (w : ClientWatch E H) (sub : Subscription F E H) : Prop where
  subject : WatchRun.subject c client w.id = sub.subject
  known : sub.subject ≠ .nothing
  due : client.pendingChanges w.id = sub.due
  noted : sub.returned ++ w.changes = sub.noted

structure Inv (c : LogHost F R E H) (s : WatchRun F E H) : Prop where
  hash : ∀ {h i}, s.client.filters h = some i → c.sha3 i.filter = h
  special : ∀ {h}, h = c.pendingChangedFilter ∨ h = c.chainChangedFilter → (s.client.specialFilters h).isSome
  told : ∀ {i}, i ∈ s.client.installed → Told c s.client (s.client.watches i) (s.subscriptions i)

/-- A watch for which nothing has changed. -/
theorem Told.congr {client client' : Client F E H} {w : ClientWatch E H} {sub : Subscription F E H} (h : Told c client w sub)
    (hfilters : client'.filters w.id = client.filters w.id)
    (hspecial : client'.specialFilters w.id = client.specialFilters w.id) : Told c client' w sub := by
  refine ⟨?_, h.known, ?_, h.noted⟩
  · rw [← h.subject, WatchRun.subject, WatchRun.subject, hfilters]
  · rw [← h.due, pendingChanges, pendingChanges, hfilters, hspecial]

theorem Inv.constructed {watches : Nat → ClientWatch E H} {subscriptions : Nat → Subscription F E H} :
    Inv c ⟨constructed c watches, subscriptions⟩ where
  hash h := nomatch h
  special h := by
    rw [Option.isSome_iff_exists]
    exact ⟨[], if_pos h⟩
  told h := absurd h (Finset.notMem_empty _)

/-! ### The steps -/

theorem Inv.installFilter (h : Inv c s) (hc : LawfulHash c) (f : F) :
    Inv c { s with client := s.client.installFilter c f } := by
  rw [Client.installFilter]
  split
  · exact h
  · rename_i hnone
    rw [Option.not_isSome_iff_eq_none] at hnone
    refine ⟨fun {id i} hi => ?_, h.special, fun {i} hi => (h.told hi).congr ?_ rfl⟩
    · dsimp only at hi
      rw [update_apply] at hi
      split at hi
      · rename_i heq
        cases hi
        exact heq.symm
      · exact h.hash hi
    · refine update_of_ne (fun heq => ?_) _ _
      have hknown := (h.told hi).subject ▸ (h.told hi).known
      rw [WatchRun.subject, heq, hnone] at hknown
      dsimp only at hknown
      rw [if_neg (not_or.2 (hc.not_special f))] at hknown
      exact hknown rfl

variable {id specialId special : H}

theorem Inv.installWatch (h : Inv c s) (hok : Ok c s (.installWatch id)) : Inv c (s.step c (.installWatch id)) := by
  obtain ⟨hnew, hknown, hpending⟩ := hok
  refine ⟨h.hash, h.special, fun {i} hi => ?_⟩
  show Told c _ (update s.client.watches s.client.nextWatch _ i) (update s.subscriptions s.client.nextWatch _ i)
  by_cases heq : i = s.client.nextWatch
  · rw [heq, update_self, update_self]
    exact ⟨rfl, hknown, hpending, rfl⟩
  · rw [update_of_ne heq, update_of_ne heq]
    exact (h.told (Finset.mem_of_mem_insert_of_ne hi heq)).congr rfl rfl

theorem Inv.uninstallWatch (h : Inv c s) {i : Nat} (hok : Ok c s (.uninstallWatch i)) :
    Inv c (s.step c (.uninstallWatch i)) := by
  show Inv c { s with client := (s.client.uninstallWatch i).2 }
  rw [Client.uninstallWatch]
  split
  · exact h
  rename_i hi
  rw [not_not] at hi
  dsimp only
  split
  · exact ⟨h.hash, h.special, fun hj => (h.told (Finset.mem_of_mem_erase hj)).congr rfl rfl⟩
  · rename_i fit hfilter
    have halone := hok hi (Option.isSome_iff_exists.2 ⟨fit, hfilter⟩)
    -- The other watches are on other filters.
    have hother : ∀ new j, j ∈ s.client.installed.erase i →
        Told c { s.client with
          installed := s.client.installed.erase i, filters := update s.client.filters (s.client.watches i).id new }
          (s.client.watches j) (s.subscriptions j) := by
      intro new j hj
      rw [Finset.mem_erase] at hj
      exact (h.told hj.2).congr (update_of_ne (halone j hj.2 hj.1) _ _) rfl
    have hhash : ∀ new : Option (InstalledFilter F E H), (∀ i', new = some i' → i'.filter = fit.filter) → ∀ {id i'},
        update s.client.filters (s.client.watches i).id new id = some i' → c.sha3 i'.filter = id := by
      intro new hnew id i' hi'
      rw [update_apply] at hi'
      split at hi'
      · rename_i heq
        rw [hnew i' hi', h.hash hfilter, heq]
      · exact h.hash hi'
    split
    · exact ⟨hhash none nofun, h.special, hother none _⟩
    · refine ⟨hhash (some _) ?_, h.special, hother (some _) _⟩
      rintro i' ⟨⟩
      rfl

theorem Inv.checkWatch (h : Inv c s) (i : Nat) : Inv c (s.step c (.checkWatch i)) := by
  rw [step, Client.checkWatch]
  split
  · rename_i heq
    split at heq
    · exact h
    · cases heq
  · rename_i changes client heq
    split at heq
    · cases heq
    · cases heq
      refine ⟨h.hash, h.special, fun {j} hj => ?_⟩
      show Told c _ (update s.client.watches i _ j) (update s.subscriptions i _ j)
      have htold := h.told hj
      by_cases heq : j = i
      · rw [heq] at htold ⊢
        rw [update_self, update_self]
        refine ⟨htold.subject, htold.known, htold.due, ?_⟩
        rw [List.append_nil]
        exact htold.noted
      · rw [update_of_ne heq, update_of_ne heq]
        exact htold.congr rfl rfl

variable {entries : F → List (LocalisedLogEntry E H)}

/-- What is pending grows by what the subject is to be told of. -/
theorem pendingChanges_append (h : Inv c s)
    (hspecial : specialId = c.pendingChangedFilter ∨ specialId = c.chainChangedFilter) :
    (s.client.append entries specialId special).pendingChanges id =
      s.client.pendingChanges id ++ entriesFor entries specialId special (subject c s.client id) := by
  rw [pendingChanges, pendingChanges, subject, append]
  dsimp only
  cases s.client.filters id with
  | some i => rfl
  | none =>
    dsimp only [Option.map_none]
    split
    · rename_i heq
      rw [heq, if_pos hspecial, entriesFor, if_pos rfl]
      obtain ⟨l, hl⟩ := Option.isSome_iff_exists.1 (h.special hspecial)
      rw [hl]
      exact List.map_append
    · rename_i hne
      split
      · rw [entriesFor, if_neg hne, List.append_nil]
      · rw [entriesFor, List.append_nil]

theorem subject_append : subject c (s.client.append entries specialId special) id = subject c s.client id := by
  rw [subject, subject, append]
  dsimp only
  cases s.client.filters id with
  | some i => rfl
  | none => rfl

theorem Inv.append (h : Inv c s) (hspecial : specialId = c.pendingChangedFilter ∨ specialId = c.chainChangedFilter) :
    Inv c ⟨s.client.append entries specialId special, subscribed entries specialId special s.subscriptions⟩ := by
  refine ⟨fun {id i} hi => ?_, fun {id} hid => ?_, fun {i} hi => ?_⟩
  · obtain ⟨i₀, hi₀, rfl⟩ := Option.map_eq_some_iff.1 hi
    have hhash := h.hash hi₀
    exact hhash
  · have hsome := h.special hid
    show (if id = specialId then _ else _ : Option (List H)).isSome
    split
    · rwa [Option.isSome_map]
    · exact hsome
  · have htold := h.told hi
    refine ⟨subject_append.trans htold.subject, htold.known, ?_, htold.noted⟩
    rw [pendingChanges_append h hspecial]
    show _ ++ entriesFor entries specialId special (subject c s.client (s.client.watches i).id) = _ ++ _
    rw [htold.subject]
    exact congrArg (· ++ _) htold.due

theorem Inv.noteChanged (h : Inv c s) {ids : H → Bool} (hok : Ok c s (.noteChanged ids)) :
    Inv c (s.step c (.noteChanged ids)) := by
  refine ⟨fun {id i} hi => ?_, fun {id} hid => ?_, fun {i} hi => ?_⟩
  · obtain ⟨i₀, hi₀, rfl⟩ := Option.map_eq_some_iff.1 hi
    have hhash := h.hash hi₀
    exact hhash
  · show ((s.client.specialFilters id).map fun _ => []).isSome
    rw [Option.isSome_map]
    exact h.special hid
  · have htold := h.told hi
    have hempty : ∀ id, (s.client.noteChanged ids).pendingChanges id = [] := by
      intro id
      rw [pendingChanges, Client.noteChanged]
      dsimp only
      cases s.client.filters id with
      | some i => rfl
      | none => cases s.client.specialFilters id <;> rfl
    have hsubject : ∀ id, WatchRun.subject c (s.client.noteChanged ids) id = WatchRun.subject c s.client id := by
      intro id
      rw [WatchRun.subject, WatchRun.subject, Client.noteChanged]
      dsimp only
      cases s.client.filters id with
      | some i => rfl
      | none => rfl
    show Told c (s.client.noteChanged ids) (if i ∈ s.client.installed ∧ ids (s.client.watches i).id then _ else _) _
    split
    · refine ⟨(hsubject _).trans htold.subject, htold.known, hempty _, ?_⟩
      show (s.subscriptions i).returned ++ ((s.client.watches i).changes ++ s.client.pendingChanges (s.client.watches i).id) =
        (s.subscriptions i).noted ++ (s.subscriptions i).due
      rw [← List.append_assoc, htold.noted, htold.due]
    · rename_i hnot
      have hdue : (s.subscriptions i).due = [] := by
        rw [← htold.due]
        by_contra hne
        exact hnot ⟨hi, hok i hi hne⟩
      refine ⟨(hsubject _).trans htold.subject, htold.known, hempty _, ?_⟩
      show (s.subscriptions i).returned ++ (s.client.watches i).changes = (s.subscriptions i).noted ++ (s.subscriptions i).due
      rw [hdue, List.append_nil]
      exact htold.noted

theorem Inv.step (h : Inv c s) (hc : LawfulHash c) {op : WatchOp F R H} (hok : Ok c s op) : Inv c (s.step c op) := by
  cases op with
  | installFilter f => exact h.installFilter hc f
  | installWatch id => exact h.installWatch hok
  | uninstallWatch i => exact h.uninstallWatch hok
  | checkWatch i => exact h.checkWatch i
  | appendFromNewPending receipt sha3 => exact h.append (.inl rfl)
  | appendFromBlock block live => exact h.append (.inr rfl)
  | noteChanged ids => exact h.noteChanged hok

theorem Inv.of_reaches (hc : LawfulHash c) (h : Reaches c (Ok c) s) : Inv c s := by
  induction h with
  | start => exact .constructed
  | step _ hok ih => exact ih.step hc hok

/-- A watch that is installed has been told, or will be by `checkWatch`, of what was appended and noted since then; and on the
hash of a filter, that is what the filter finds. -/
def Exact (c : LogHost F R E H) (s : WatchRun F E H) : Prop :=
  ∀ i ∈ s.client.installed, (s.subscriptions i).returned ++ (s.client.watches i).changes = (s.subscriptions i).noted ∧
    ∀ f, (s.client.watches i).id = c.sha3 f → (s.subscriptions i).subject = .filter f

theorem watches_exact (hc : LawfulHash c) (h : Reaches c (Ok c) s) : Exact c s := by
  intro i hi
  have hinv := Inv.of_reaches hc h
  have htold := hinv.told hi
  refine ⟨htold.noted, fun f hf => ?_⟩
  have hknown := htold.subject ▸ htold.known
  rw [← htold.subject, hf, subject]
  rw [hf, subject] at hknown
  cases hfilter : s.client.filters (c.sha3 f) with
  | some fit => exact congrArg Subject.filter (hc.injective (hinv.hash hfilter))
  | none =>
    rw [hfilter] at hknown
    dsimp only at hknown
    rw [if_neg (not_or.2 (hc.not_special f))] at hknown
    exact absurd rfl hknown

/-! ### One filter, and blocks in which it finds an entry -/

def one : LogHost Unit Unit Nat Nat where
  sha3 _ := 2
  matchesReceipt _ _ := [7]
  receipts _ := [()]
  number block := block
  transactionHash block i := block + i
  pendingChangedFilter := 0
  chainChangedFilter := 1

def ran (ops : List (WatchOp Unit Unit Nat)) : WatchRun Unit Nat Nat :=
  ops.foldl (step one) ⟨constructed one fun _ => { id := 0 }, fun _ => { subject := .nothing }⟩

theorem reaches_ran {ok : WatchRun Unit Nat Nat → WatchOp Unit Unit Nat → Prop} (ops : List (WatchOp Unit Unit Nat))
    (op : WatchOp Unit Unit Nat) (h : Reaches one ok (ran ops)) (hok : ok (ran ops) op) :
    Reaches one ok (ran (ops ++ [op])) := by
  rw [ran, List.foldl_append]
  exact h.step hok

theorem watches_exact_one : LawfulHash one ∧
    Exact one (ran [.installFilter (), .installWatch 2, .appendFromBlock 5 true, .noteChanged fun _ => true,
      .checkWatch 0]) := by
  have hone : LawfulHash one := ⟨fun _ _ _ => rfl, fun _ => ⟨nofun, nofun⟩⟩
  have hfilter : Reaches one (Ok one) (ran [.installFilter ()]) :=
    reaches_ran [] _ (.start (fun _ => { id := 0 }) fun _ => { subject := .nothing }) trivial
  have hwatch : Reaches one (Ok one) (ran [.installFilter (), .installWatch 2]) :=
    reaches_ran _ _ hfilter ⟨by decide, nofun, rfl⟩
  have hblock : Reaches one (Ok one) (ran [.installFilter (), .installWatch 2, .appendFromBlock 5 true]) :=
    reaches_ran _ _ hwatch trivial
  have hnoted : Reaches one (Ok one)
      (ran [.installFilter (), .installWatch 2, .appendFromBlock 5 true, .noteChanged fun _ => true]) :=
    reaches_ran _ _ hblock fun _ _ _ => rfl
  exact ⟨hone, watches_exact hone (reaches_ran _ (.checkWatch 0) hnoted trivial)⟩

/-- Two watches on the filter, the first of which goes. -/
theorem not_watches_exact : ¬ ∀ s, Reaches one (fun _ _ => True) s → Exact one s := by
  intro hexact
  have hreaches : ∀ ops, Reaches one (fun _ _ => True) (ran ops) := by
    intro ops
    induction ops using List.reverseRecOn with
    | nil => exact .start (fun _ => { id := 0 }) fun _ => { subject := .nothing }
    | append_singleton ops op ih => exact reaches_ran ops op ih trivial
  have hsecond := (hexact _
      (hreaches [.installFilter (), .installWatch 2, .installFilter (), .installWatch 2, .uninstallWatch 0,
    .appendFromBlock 5 true, .noteChanged fun _ => true]) 1 (by decide)).1
  revert hsecond
  decide

end Kmdx.WatchRun
