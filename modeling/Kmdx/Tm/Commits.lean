import Kmdx.Lib.ExceptRules
import Kmdx.Tm.ConsensusState

/-!
# Commits (`libtm/types/Commit.h`, `Commit.cpp`)

The height and the round of a commit are those of a vote that only `getFirstPrecommit` looks up; and the votes are looked at
before it is asked whether they are there. As long as neither matters, all calls do what they should (`Commit.validates_iff`).
-/

namespace Kmdx.Tm

open ExceptRules

structure Commit where
  blockID : BlockID
  precommits : List (Option Vote)
  firstPrecommit : Option Vote := none

inductive CommitError
  | nullPointer
  | errInvalidVoteSet (description : String)
deriving DecidableEq

namespace Commit

def derefVote (vote : Option Vote) : Except CommitError Vote :=
  match vote with
  | some v => return v
  | none => throw .nullPointer

/-- The vote that is there first -/
def firstVote (precommits : List (Option Vote)) : Option Vote := precommits.findSome? id

/-- With what a new vote has in the fields that its constructor leaves -/
def getFirstPrecommit (new : Vote) (commit : Commit) : Option Vote × Commit :=
  if commit.precommits.isEmpty then (none, commit)
  else if commit.firstPrecommit.isSome then (commit.firstPrecommit, commit)
  else
    match firstVote commit.precommits with
    | some vote => (some vote, { commit with firstPrecommit := some vote })
    | none => (some { new with type := .firstCommit }, commit)

def height (commit : Commit) : Except CommitError Int :=
  if commit.precommits.isEmpty then return 0 else return (← derefVote commit.firstPrecommit).height

def round (commit : Commit) : Except CommitError Int :=
  if commit.precommits.isEmpty then return 0 else return (← derefVote commit.firstPrecommit).roundNumber

/-- What is added to a literal is where its characters begin. -/
def typeMessage : VoteType → String
  | .prevote => "Invalid commit vote. Expected precommit, got "
  | .precommit => "nvalid commit vote. Expected precommit, got "
  | .firstCommit => "valid commit vote. Expected precommit, got "

/-- The loop of `validateBasic` -/
def validatePrecommits (height round : Int) : List (Option Vote) → Except CommitError Unit
  | [] => return
  | vote :: precommits => do
    let precommit ← derefVote vote
    if precommit.type ≠ .precommit then
      throw (.errInvalidVoteSet (typeMessage precommit.type))
    if precommit.height ≠ height then
      throw (.errInvalidVoteSet ("Invalid commit precommit height. Expected " ++ toString height ++ ", got " ++
        toString precommit.height))
    if precommit.roundNumber ≠ round then
      throw (.errInvalidVoteSet ("Invalid commit precommit round. Expected " ++ toString round ++ ", got " ++
        toString precommit.roundNumber))
    validatePrecommits height round precommits

def validateBasic (commit : Commit) : Except CommitError Unit := do
  if commit.blockID.bites.isEmpty then
    throw (.errInvalidVoteSet "Commit cannot be for nullptr block")
  if commit.precommits.isEmpty then
    throw (.errInvalidVoteSet "No precommits in commit")
  let height ← commit.height
  let round ← commit.round
  validatePrecommits height round commit.precommits

/-! ### Calls -/

inductive Call
  | getFirstPrecommit (new : Vote)
  | height
  | round
  | validateBasic

/-- What a call leaves behind -/
def after (commit : Commit) : Call → Commit
  | .getFirstPrecommit new => (commit.getFirstPrecommit new).2
  | _ => commit

/-- A precommit, for the height and the round of another one -/
def Agrees (first vote : Vote) : Prop := vote.type = .precommit ∧ vote.height = first.height ∧
    vote.roundNumber = first.roundNumber

/-- What a commit should have -/
def Valid (commit : Commit) : Prop :=
  commit.blockID.bites ≠ [] ∧ ∃ first, firstVote commit.precommits = some first ∧ ∀ vote,
    some vote ∈ commit.precommits → Agrees first vote

/-- A call returns; `validateBasic` if the commit is valid, and it throws `ErrInvalidVoteSet` otherwise. -/
def Handles (commit : Commit) : Call → Prop
  | .getFirstPrecommit _ => True
  | .height => ∃ height, commit.height = .ok height
  | .round => ∃ round, commit.round = .ok round
  | .validateBasic => commit.Valid ∧ commit.validateBasic = .ok () ∨
    ¬ commit.Valid ∧ ∃ description, commit.validateBasic = .error (.errInvalidVoteSet description)

/-- One after the other -/
def HandlesAll : Commit → List Call → Prop
  | _, [] => True
  | commit, call :: calls => commit.Handles call ∧ HandlesAll (commit.after call) calls

/-- What is missing is not looked at: there is a first vote and it has been `asked` for, and a vote that is not there comes
after one that does not agree. -/
def Meets (blockID : BlockID) (precommits : List (Option Vote)) (asked : Bool) : Call → Prop
  | .getFirstPrecommit _ => True
  | .height | .round => precommits = [] ∨ asked ∧ ∃ vote, some vote ∈ precommits
  | .validateBasic => blockID.bites = [] ∨ precommits = [] ∨ asked ∧ ∃ first, firstVote precommits = some first ∧
    ∀ before behind, precommits = before ++ none :: behind → ∃ vote, some vote ∈ before ∧ ¬ Agrees first vote

def Call.asks : Call → Bool
  | .getFirstPrecommit _ => true
  | _ => false

def MeetsAll (blockID : BlockID) (precommits : List (Option Vote)) : Bool → List Call → Prop
  | _, [] => True
  | asked, call :: calls => Meets blockID precommits asked call ∧ MeetsAll blockID precommits (asked || call.asks) calls

variable {commit : Commit} {blockID : BlockID} {precommits : List (Option Vote)} {asked : Bool} {first vote : Vote}

@[simp] theorem firstVote_nil : firstVote [] = none := rfl

@[simp] theorem firstVote_some_cons : firstVote (some vote :: precommits) = some vote := rfl

@[simp] theorem firstVote_none_cons : firstVote (none :: precommits) = firstVote precommits := rfl

theorem firstVote_isSome_iff : (firstVote precommits).isSome ↔ ∃ vote, some vote ∈ precommits := by
  induction precommits with
  | nil => simp
  | cons vote precommits ih =>
    cases vote with
    | none => simpa using ih
    | some vote => simp only [firstVote_some_cons, Option.isSome_some, true_iff]; exact ⟨vote, List.mem_cons_self⟩

instance : DecidablePred (Agrees first) := fun _ => inferInstanceAs (Decidable (_ ∧ _ ∧ _))

/-! ### `validateBasic` -/

/-- One turn of the loop, for a vote that agrees -/
theorem validatePrecommits_of_agrees (h : Agrees first vote) :
    validatePrecommits first.height first.roundNumber (some vote :: precommits) =
      validatePrecommits first.height first.roundNumber precommits := by
  obtain ⟨htype, hheight, hround⟩ := h
  simp [validatePrecommits, derefVote, htype, hheight, hround]

/-- And for one that does not -/
theorem validatePrecommits_of_not_agrees (precommits : List (Option Vote)) (h : ¬ Agrees first vote) :
    ∃ description, validatePrecommits first.height first.roundNumber (some vote :: precommits) =
      .error (.errInvalidVoteSet description) := by
  simp only [validatePrecommits, derefVote, pure_bind]
  by_cases htype : vote.type = .precommit
  · by_cases hheight : vote.height = first.height
    · have hround : vote.roundNumber ≠ first.roundNumber := by
        intro hround
        exact h ⟨htype, hheight, hround⟩
      simp [htype, hheight, hround]
    · simp [htype, hheight]
  · simp [htype]

theorem validatePrecommits_none : validatePrecommits first.height first.roundNumber (none :: precommits) =
    .error .nullPointer := rfl

theorem validatePrecommits_eq_ok_iff : validatePrecommits first.height first.roundNumber precommits = .ok () ↔
    none ∉ precommits ∧ ∀ vote, some vote ∈ precommits → Agrees first vote := by
  induction precommits with
  | nil => simp [validatePrecommits]
  | cons vote precommits ih =>
    cases vote with
    | none => simp [validatePrecommits_none]
    | some vote =>
      by_cases h : Agrees first vote
      · rw [validatePrecommits_of_agrees h, ih]
        simp [h]
      · obtain ⟨description, hthrows⟩ := validatePrecommits_of_not_agrees precommits h
        rw [hthrows]
        simp [h]

/-- All votes before the one that is missing agree. -/
theorem validatePrecommits_eq_nullPointer_iff : validatePrecommits first.height first.roundNumber precommits =
    .error .nullPointer ↔
    ∃ before behind, precommits = before ++ none :: behind ∧ ∀ vote, some vote ∈ before → Agrees first vote := by
  induction precommits with
  | nil => simp [validatePrecommits]
  | cons vote precommits ih =>
    cases vote with
    | none =>
      rw [validatePrecommits_none]
      refine iff_of_true rfl ⟨[], precommits, rfl, ?_⟩
      simp
    | some vote =>
      by_cases h : Agrees first vote
      · rw [validatePrecommits_of_agrees h, ih]
        constructor
        · rintro ⟨before, behind, rfl, hagree⟩
          refine ⟨some vote :: before, behind, rfl, ?_⟩
          simpa [h] using hagree
        · rintro ⟨before, behind, heq, hagree⟩
          cases before with
          | nil => simp at heq
          | cons vote' before =>
            obtain ⟨-, rfl⟩ := List.cons_eq_cons.1 heq
            exact ⟨before, behind, rfl, fun vote hvote => hagree vote (List.mem_cons_of_mem _ hvote)⟩
      · obtain ⟨description, hthrows⟩ := validatePrecommits_of_not_agrees precommits h
        rw [hthrows]
        refine iff_of_false (by simp) ?_
        rintro ⟨before, behind, heq, hagree⟩
        cases before with
        | nil => simp at heq
        | cons vote' before =>
          obtain ⟨rfl, -⟩ := List.cons_eq_cons.1 heq
          exact h (hagree vote List.mem_cons_self)

theorem validatePrecommits_cases (first : Vote) (precommits : List (Option Vote)) :
    validatePrecommits first.height first.roundNumber precommits = .ok () ∨
    validatePrecommits first.height first.roundNumber precommits = .error .nullPointer ∨
    ∃ description, validatePrecommits first.height first.roundNumber precommits =
      .error (.errInvalidVoteSet description) := by
  cases validatePrecommits first.height first.roundNumber precommits with
  | ok => exact .inl rfl
  | error e =>
    cases e with
    | nullPointer => exact .inr (.inl rfl)
    | errInvalidVoteSet description => exact .inr (.inr ⟨description, rfl⟩)

theorem validateBasic_of_first (hid : commit.blockID.bites ≠ []) (hvotes : commit.precommits ≠ [])
    (hfirst : commit.firstPrecommit = some first) :
    commit.validateBasic = validatePrecommits first.height first.roundNumber commit.precommits := by
  simp [validateBasic, height, round, derefVote, hid, hvotes, hfirst]

theorem validateBasic_of_none (hid : commit.blockID.bites ≠ []) (hvotes : commit.precommits ≠ [])
    (hfirst : commit.firstPrecommit = none) : commit.validateBasic = .error .nullPointer := by
  simp [validateBasic, height, derefVote, hid, hvotes, hfirst]

/-! ### Any calls -/

/-- The first vote is what it has been set to, by a call that asked for it. -/
def lookedUp (blockID : BlockID) (precommits : List (Option Vote)) (asked : Bool) : Commit :=
  ⟨blockID, precommits, if asked then firstVote precommits else none⟩

theorem after_getFirstPrecommit (new : Vote) :
    (lookedUp blockID precommits asked).after (.getFirstPrecommit new) = lookedUp blockID precommits true := by
  simp only [after, getFirstPrecommit]
  cases precommits with
  | nil => cases asked <;> rfl
  | cons vote precommits =>
    cases asked <;> cases h : firstVote (vote :: precommits) <;> simp [lookedUp, h]

theorem after_lookedUp (call : Call) :
    (lookedUp blockID precommits asked).after call = lookedUp blockID precommits (asked || call.asks) := by
  cases call with
  | getFirstPrecommit new => simpa [Call.asks] using after_getFirstPrecommit new
  | height => simp [after, Call.asks]
  | round => simp [after, Call.asks]
  | validateBasic => simp [after, Call.asks]

theorem lookedUp_isSome_iff : (lookedUp blockID precommits asked).firstPrecommit.isSome ↔ asked ∧ ∃ vote,
    some vote ∈ precommits := by
  cases asked with
  | false => simp [lookedUp]
  | true => simp [lookedUp, firstVote_isSome_iff]

theorem height_ok_iff : (∃ height, commit.height = .ok height) ↔ commit.precommits = [] ∨ commit.firstPrecommit.isSome := by
  by_cases h : commit.precommits = []
  · simp [height, h]
  · cases hfirst : commit.firstPrecommit with
    | none => simp [height, h, hfirst, derefVote]
    | some first => simp [height, h, hfirst, derefVote]

theorem round_ok_iff : (∃ round, commit.round = .ok round) ↔ commit.precommits = [] ∨ commit.firstPrecommit.isSome := by
  by_cases h : commit.precommits = []
  · simp [round, h]
  · cases hfirst : commit.firstPrecommit with
    | none => simp [round, h, hfirst, derefVote]
    | some first => simp [round, h, hfirst, derefVote]

/-- A null pointer is what `validateBasic` gets wrong; what it returns and what it throws otherwise is right. -/
theorem handles_validateBasic_iff
    (hfirst : commit.firstPrecommit = firstVote commit.precommits ∨ commit.firstPrecommit = none) :
    commit.Handles .validateBasic ↔ commit.validateBasic ≠ .error .nullPointer := by
  constructor
  · rintro (⟨-, hok⟩ | ⟨-, description, hthrows⟩)
    · simp [hok]
    · simp [hthrows]
  · intro hnot
    by_cases hid : commit.blockID.bites = []
    · refine .inr ⟨fun hvalid => hvalid.1 hid, "Commit cannot be for nullptr block", ?_⟩
      simp [validateBasic, hid]
    by_cases hvotes : commit.precommits = []
    · refine .inr ⟨fun hvalid => ?_, "No precommits in commit", ?_⟩
      · obtain ⟨first, hfirst, -⟩ := hvalid.2
        simp [hvotes] at hfirst
      · simp [validateBasic, hid, hvotes]
    cases hlooked : commit.firstPrecommit with
    | none => exact absurd (validateBasic_of_none hid hvotes hlooked) hnot
    | some first =>
      have hfound : firstVote commit.precommits = some first := by
        rcases hfirst with hfirst | hfirst
        · rw [← hfirst, hlooked]
        · simp [hlooked] at hfirst
      rw [validateBasic_of_first hid hvotes hlooked] at hnot
      rw [Handles, validateBasic_of_first hid hvotes hlooked]
      rcases validatePrecommits_cases first commit.precommits with hok | hnull | hthrows
      · exact .inl ⟨⟨hid, first, hfound, (validatePrecommits_eq_ok_iff.1 hok).2⟩, hok⟩
      · exact absurd hnull hnot
      · refine .inr ⟨?_, hthrows⟩
        rintro ⟨-, first', hfound', hagree⟩
        obtain rfl : first = first' := Option.some.inj (hfound.symm.trans hfound')
        obtain ⟨description, hthrows⟩ := hthrows
        by_cases hnone : none ∈ commit.precommits
        · obtain ⟨before, behind, hsplit⟩ := List.append_of_mem hnone
          refine hnot (validatePrecommits_eq_nullPointer_iff.2 ⟨before, behind, hsplit, fun vote hvote => hagree vote ?_⟩)
          rw [hsplit]
          exact List.mem_append_left _ hvote
        · rw [validatePrecommits_eq_ok_iff.2 ⟨hnone, hagree⟩] at hthrows
          cases hthrows

theorem handles_iff_meets (call : Call) :
    (lookedUp blockID precommits asked).Handles call ↔ Meets blockID precommits asked call := by
  cases call with
  | getFirstPrecommit new => exact Iff.rfl
  | height => rw [Handles, height_ok_iff, lookedUp_isSome_iff]; rfl
  | round => rw [Handles, round_ok_iff, lookedUp_isSome_iff]; rfl
  | validateBasic =>
    rw [handles_validateBasic_iff (by cases asked <;> simp [lookedUp]), Meets]
    by_cases hid : blockID.bites = []
    · refine iff_of_true ?_ (.inl hid)
      simp [validateBasic, lookedUp, hid]
    by_cases hvotes : precommits = []
    · refine iff_of_true ?_ (.inr (.inl hvotes))
      simp [validateBasic, lookedUp, hid, hvotes]
    simp only [hid, hvotes, false_or]
    cases hlooked : (lookedUp blockID precommits asked).firstPrecommit with
    | none =>
      rw [validateBasic_of_none hid hvotes hlooked]
      refine iff_of_false (by simp) ?_
      rintro ⟨rfl, first, hfirst, -⟩
      rw [lookedUp, if_pos rfl, hfirst] at hlooked
      cases hlooked
    | some first =>
      obtain ⟨rfl, hfirst⟩ : asked = true ∧ firstVote precommits = some first := by
        cases asked with
        | false => cases hlooked
        | true => exact ⟨rfl, hlooked⟩
      rw [validateBasic_of_first hid hvotes hlooked, Ne, validatePrecommits_eq_nullPointer_iff]
      simp only [hfirst, Option.some.injEq, exists_eq_left', true_and]
      constructor
      · intro hnot before behind hsplit
        by_contra hall
        refine hnot ⟨before, behind, hsplit, fun vote hvote => ?_⟩
        by_contra hvote'
        exact hall ⟨vote, hvote, hvote'⟩
      · rintro hmeets ⟨before, behind, hsplit, hagree⟩
        obtain ⟨vote, hvote, hnot⟩ := hmeets before behind hsplit
        exact hnot (hagree vote hvote)

theorem handlesAll_iff_meetsAll (asked : Bool) (calls : List Call) :
    HandlesAll (lookedUp blockID precommits asked) calls ↔ MeetsAll blockID precommits asked calls := by
  induction calls generalizing asked with
  | nil => exact Iff.rfl
  | cons call calls ih =>
    rw [HandlesAll, MeetsAll, after_lookedUp, handles_iff_meets, ih]

/-- All calls on a new commit do what they should as long as nothing that is missing is looked at. -/
theorem validates_iff (blockID : BlockID) (precommits : List (Option Vote)) (calls : List Call) :
    HandlesAll ⟨blockID, precommits, none⟩ calls ↔ MeetsAll blockID precommits false calls :=
  handlesAll_iff_meetsAll false calls

/-- The first call, for one precommit; and later, for one that is there and one that is not -/
theorem not_validates :
    ¬ HandlesAll ⟨⟨[1], []⟩, [some ⟨[], 0, 1, 0, .precommit, ⟨[1], []⟩⟩], none⟩ [.validateBasic] ∧
    ¬ HandlesAll ⟨⟨[1], []⟩, [some ⟨[], 0, 1, 0, .precommit, ⟨[1], []⟩⟩, none], none⟩
      [.getFirstPrecommit ⟨[], 0, 0, 0, .firstCommit, {}⟩, .validateBasic] := by
  constructor
  · rintro ⟨⟨-, hok⟩ | ⟨-, description, hthrows⟩, -⟩
    · cases hok
    · cases hthrows
  · rintro ⟨-, ⟨-, hok⟩ | ⟨-, description, hthrows⟩, -⟩
    · cases hok
    · cases hthrows

end Commit

end Kmdx.Tm
