import Kmdx.Chain.Tree
import Kmdx.Lib.Lockstep
import Kmdx.Lib.TwinCaches

/-!
# Chains in lockstep

What a call reads on its way it takes from the details of blocks, but for their children, and from the blocks. So on chains
that only differ in what is cached it does the same (`Akin`), and on twins, which answer all queries alike, all calls do.
-/

namespace Kmdx.Chain

open Wp Cached

set_option linter.unusedSectionVars false

variable {H : Type} [DecidableEq H] [BlockSha3 H]

namespace BlockChain

variable {s t u : BlockChain H} {R : BlockChain H → BlockChain H → Prop}

/-- `h` has been read. -/
def queried (s : BlockChain H) (h : H) : BlockChain H := { s with extraDetails := s.extraDetails.query h }

/-- Chains that `R` relates hold the same blocks, of the same heights and total difficulties, whatever is read. -/
structure Akin (R : BlockChain H → BlockChain H → Prop) : Prop where
  genesis : ∀ {s t}, R s t → s.genesis = t.genesis
  blocks : ∀ {s t}, R s t → s.blocks = t.blocks
  tieBreakingGas : ∀ {s t}, R s t → s.tieBreakingGas = t.tieBreakingGas
  node : ∀ {s t}, R s t → s.node = t.node
  query : ∀ {s t}, R s t → ∀ h, R (s.queried h) (t.queried h)

namespace Akin

variable {α : Type}

theorem details_bind (hR : Akin R) {h : H} {f g : BlockDetails H → M H α}
    (hf : ∀ d d' : BlockDetails H, d.number = d'.number → d.totalDifficulty = d'.totalDifficulty → d.parent = d'.parent →
      Agree R (f d) (g d')) : Agree R (details h >>= f) (details h >>= g) := by
  intro s t hst
  obtain ⟨hnumber, htd, hparent, -⟩ := BlockDetails.mk.inj (congrFun (hR.node hst) h)
  exact hf (s.detailsOf h) (t.detailsOf h) hnumber htd hparent _ _ (hR.query hst h)

theorem numberOf (hR : Akin R) (h : H) : Agree R (numberOf h) (numberOf h) := by
  refine hR.details_bind fun d d' hnumber _ _ => ?_
  rw [hnumber]
  exact .pure _

theorem block (hR : Akin R) (h : H) : Agree R (block h) (block h) := by
  intro s t hst
  unfold BlockChain.block
  rw [both_get]
  refine both_ite (by rw [genesisHash, genesisHash, hR.genesis hst]) (fun _ => ⟨hR.genesis hst, hst⟩) fun _ => ?_
  rw [hR.blocks hst]
  cases t.blocks h with
  | none => exact ⟨rfl, hst⟩
  | some b => exact ⟨rfl, hst⟩

theorem climb (hR : Akin R) (k : Nat) (h : H) : Agree R (climb k h) (climb k h) := by
  induction k generalizing h with
  | zero => exact .pure _
  | succ k ih =>
    refine hR.details_bind fun d d' _ _ hparent => ?_
    rw [hparent]
    exact (ih _).bind fun _ => .pure _

theorem meet (hR : Akin R) (k : Nat) (x y : H) : Agree R (meet k x y) (meet k x y) := by
  induction k generalizing x y with
  | zero => exact .pure _
  | succ k ih =>
    unfold BlockChain.meet
    refine .ite (.pure _) (hR.details_bind fun d e _ _ hparent => hR.details_bind fun d' e' _ _ hparent' => ?_)
    simp only [hparent, hparent']
    exact (ih _ _).bind fun _ => .pure _

theorem treeRoute (hR : Akin R) (x y : H) : Agree R (treeRoute x y) (treeRoute x y) := by
  unfold BlockChain.treeRoute
  refine .ite (.pure _) (hR.details_bind fun d e hnumber _ _ => hR.details_bind fun d' e' hnumber' _ _ => ?_)
  simp only [BlockDetails.isNull, hnumber, hnumber']
  refine .ite (.pure _) ((hR.climb _ x).bind fun r => (hR.climb _ y).bind fun r' => ?_)
  exact (hR.meet _ _ _).bind fun _ => .pure _

theorem isBest (hR : Akin R) (b : VerifiedBlockRef H) (td : U256) (last : H) :
    Agree R (isBest b td last) (isBest b td last) := by
  unfold BlockChain.isBest
  refine hR.details_bind fun d d' _ htd _ => ?_
  rw [htd]
  refine .ite (.pure _) fun s t hst => ?_
  rw [both_get]
  refine both_ite (by rw [hR.tieBreakingGas hst]) (fun _ => ?_) fun _ => ⟨rfl, hst⟩
  exact ((hR.block last).bind fun _ => .pure _) s t hst

theorem verifyBlock (hR : Akin R) (b : VerifiedBlockRef H) : Agree R (verifyBlock b) (verifyBlock b) :=
  (hR.block b.parentHash).bind fun _ => .ite ((Agree.throw _).bind fun _ => .ite (.throw _) (.pure _))
    (.ite (.throw _) (.pure _))

end Akin

/-- The same blocks, with the same heights and total difficulties -/
structure Like (s t : BlockChain H) : Prop where
  genesis : s.genesis = t.genesis
  blocks : s.blocks = t.blocks
  tieBreakingGas : s.tieBreakingGas = t.tieBreakingGas
  node : s.node = t.node

theorem akin_like : Akin (H := H) Like where
  genesis h := h.genesis
  blocks h := h.blocks
  tieBreakingGas h := h.tieBreakingGas
  node h := h.node
  query {s t} h x := by
    refine ⟨h.genesis, h.blocks, h.tieBreakingGas, ?_⟩
    have hnode : ∀ s : BlockChain H, (s.queried x).node = s.node := fun s => (Keeps.of_loads (loads_query s x)).node
    rw [hnode, hnode, h.node]

/-! ### Twins -/

/-- Chains that differ in what is cached: `s` has lost some. -/
structure Twin (dirty : Set H) (s t : BlockChain H) : Prop where
  details : Twins dirty dirty s.extraDetails t.extraDetails
  addresses : Twins ∅ ∅ s.extraTransactionAddress t.extraTransactionAddress
  rest : s = { t with extraDetails := s.extraDetails, extraTransactionAddress := s.extraTransactionAddress }

namespace Twin

variable {dirty : Set H}

theorem detailsOf (h : Twin dirty s t) (x : H) : s.detailsOf x = t.detailsOf x := by
  rw [BlockChain.detailsOf, BlockChain.detailsOf, h.details.get_eq]

theorem queried (h : Twin dirty s t) (x : H) : Twin dirty (s.queried x) (t.queried x) := by
  refine ⟨h.details.query x, h.addresses, ?_⟩
  rw [BlockChain.queried, h.rest]
  rfl

end Twin

variable {dirty : Set H}

theorem akin_twin : Akin (Twin dirty) where
  genesis h := by rw [h.rest]
  blocks h := by rw [h.rest]
  tieBreakingGas h := by rw [h.rest]
  node h := by
    funext x
    rw [BlockChain.node, BlockChain.node, h.detailsOf]
  query h := h.queried

theorem agree_details (h : H) : Agree (Twin dirty) (details h) (details h) :=
  fun _ _ hst => ⟨hst.detailsOf h, hst.queried h⟩

theorem agree_isKnown (h : H) (isCurrent : Bool) : Agree (Twin dirty) (isKnown h isCurrent) (isKnown h isCurrent) := by
  intro s t hst
  have hgenesis : s.genesisHash = t.genesisHash := by rw [genesisHash, genesisHash, akin_twin.genesis hst]
  have hlast : s.lastBlockNumber = t.lastBlockNumber := by rw [hst.rest]
  unfold isKnown
  rw [both_get, hgenesis, akin_twin.blocks hst, hst.details.get_eq, hlast]
  refine both_ite Iff.rfl (fun _ => ⟨rfl, hst⟩) fun _ => both_ite Iff.rfl (fun _ => ⟨rfl, hst⟩) fun _ => ?_
  refine both_ite Iff.rfl (fun _ => ⟨rfl, hst⟩) fun _ => both_ite Iff.rfl (fun _ => ⟨rfl, hst⟩) fun _ => ?_
  exact ((agree_details h).bind fun _ => .pure _) s t hst

theorem agree_checkBlockIsNew (b : VerifiedBlockRef H) (mustBeNew : Bool) :
    Agree (Twin dirty) (checkBlockIsNew b mustBeNew) (checkBlockIsNew b mustBeNew) := by
  unfold checkBlockIsNew
  exact .ite ((agree_isKnown _ _).bind fun _ => .ite (.throw _) (.pure _)) (.pure _)

theorem agree_numberHash (i : Nat) : Agree (Twin dirty) (numberHash i) (numberHash i) := by
  intro s t hst
  have hgenesis : s.genesisHash = t.genesisHash := by rw [genesisHash, genesisHash, akin_twin.genesis hst]
  have hhash : s.extraBlockHash = t.extraBlockHash := by rw [hst.rest]
  unfold numberHash
  rw [both_get, hgenesis]
  refine both_ite Iff.rfl (fun _ => ⟨rfl, hst⟩) fun _ => ⟨?_, ?_⟩
  · rw [hhash]
  · refine ⟨hst.details, hst.addresses, ?_⟩
    rw [hst.rest]

theorem agree_transactionLocation (h : H) : Agree (Twin dirty) (transactionLocation h) (transactionLocation h) := by
  intro s t hst
  have hquery : Twin dirty { s with extraTransactionAddress := s.extraTransactionAddress.query h }
      { t with extraTransactionAddress := t.extraTransactionAddress.query h } := by
    refine ⟨hst.details, hst.addresses.query h, ?_⟩
    rw [hst.rest]
  unfold transactionLocation
  rw [both_get, hst.addresses.get_eq]
  refine both_ite Iff.rfl (fun _ => ?_) fun _ => ?_
  · exact ⟨rfl, hquery⟩
  · exact ⟨rfl, hquery⟩

end BlockChain

end Kmdx.Chain
