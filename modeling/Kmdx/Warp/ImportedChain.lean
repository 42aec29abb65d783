import Kmdx.Warp.ImportedState

/-!
# The chain that is imported

The blocks of a chunk follow each other by construction, and nothing else is compared: neither where a chunk begins with where
the one before it ended, nor the last block with the manifest. So an imported snapshot is the one that was announced if and
only if the chunks fit (`announced_iff`).
-/

namespace Kmdx.Snapshot

open Rlp Wp ExceptRules List

variable {c : Host} {s s' : Importer} {b : ImportedBlock} {bs : List ImportedBlock} {parentHash : H256} {number : BitVec 64}
  {totalDifficulty : U256}

/-! ### What the chunks say -/

/-- The blocks of a chunk, which are its items from `i` on. -/
def blocksFrom (c : Host) (i : Nat) : (left : Nat) → RLP → H256 → BitVec 64 → U256 → Except Exn (List ImportedBlock)
  | 0, _, _, _, _ => return []
  | left + 1, blockChunk, parentHash, number, totalDifficulty => do
    let (blockAndReceipts, blockChunk) ← rlp (index blockChunk i)
    let block ← readBlock c parentHash number totalDifficulty blockAndReceipts
    let parentHash ← headerHash c block.header
    return block :: (← blocksFrom c (i + 1) left blockChunk parentHash (number + 1) block.totalDifficulty)

structure BlockChunk where
  first : FirstBlock
  blocks : List ImportedBlock

def blockChunkOf (c : Host) (chunk : Bytes) : Except Exn BlockChunk := do
  let (first, itemCount, blockChunk) ← readFirstBlock chunk
  return { first, blocks := ← blocksFrom c 3 (itemCount - 3) blockChunk first.hash (first.number + 1) first.difficulty }

/-- The chunks in the order in which they are imported. -/
def blockChunksOf (c : Host) (storage : SnapshotStorage) (blockChunkHashes : List H256) : Except Exn (List BlockChunk) :=
  blockChunkHashes.reverse.mapM fun chunk => do blockChunkOf c (← storage.readChunk chunk)

structure Manifest where
  stateChunkHashes : List H256
  blockChunkHashes : List H256
  stateRoot : H256
  blockNumber : U256
  blockHash : H256

def manifestOf (manifestBytes : Bytes) : Except Exn Manifest := do
  let manifest ← rlp (RLP.mk' manifestBytes)
  let (x, manifest) ← rlp (index manifest 0)
  throwIf ((← rlp (toU256 x.data)) ≠ 2) .unsupportedSnapshotManifestVersion
  throwIf ((← rlp (itemCount manifest.data)) ≠ 6) .invalidSnapshotManifest
  let (x, manifest) ← rlp (index manifest 4)
  let blockNumber ← rlp (toU256 x.data)
  let (x, manifest) ← rlp (index manifest 5)
  let blockHash ← rlp (toH256 x.data)
  let (x, manifest) ← rlp (index manifest 1)
  let stateChunkHashes ← rlp (toH256s x.data)
  let (x, manifest) ← rlp (index manifest 3)
  let stateRoot ← rlp (toH256 x.data)
  let (x, _) ← rlp (index manifest 2)
  let blockChunkHashes ← rlp (toH256s x.data)
  return { stateChunkHashes, blockChunkHashes, stateRoot, blockNumber, blockHash }

/-- What a snapshot is read as. -/
structure Contents where
  manifest : Manifest
  accounts : List AccountRecord
  chunks : List BlockChunk

def contentsOf (c : Host) (storage : SnapshotStorage) : Except Exn Contents := do
  let manifest ← manifestOf (← storage.readManifest)
  let accounts ← accountsOf storage manifest.stateChunkHashes
  let chunks ← blockChunksOf c storage manifest.blockChunkHashes
  return { manifest, accounts, chunks }

/-! ### The blocks of a chunk -/

/-- The second is the child of the first. -/
def Follows (c : Host) (x y : ImportedBlock) : Prop :=
  headerHash c x.header = .ok y.header.parentHash ∧ y.header.number = x.header.number + 1

theorem returns_abridgedBlock (blockAndReceipts : RLP) :
    Returns (fun b : ImportedBlock => b.header.parentHash = parentHash ∧ b.header.number = number)
      (abridgedBlock c parentHash number totalDifficulty blockAndReceipts) := by
  rw [abridgedBlock]
  repeat' refine .bind_right fun _ => ?_
  exact .pure ⟨rfl, rfl⟩

theorem header_of_readBlock {x : RLP} (hread : readBlock c parentHash number totalDifficulty x = .ok b) :
    b.header.parentHash = parentHash ∧ b.header.number = number := by
  obtain ⟨_, -, hread⟩ := bind_eq_ok_iff.1 hread
  obtain ⟨_, -, hread⟩ := bind_eq_ok_iff.1 hread
  obtain ⟨⟨abridged, x'⟩, -, hread⟩ := bind_eq_ok_iff.1 hread
  have heval := rlp_eq_ok_iff.1 hread
  rw [eval] at heval
  split at heval
  · rename_i hrun
    cases heval
    exact returns_abridgedBlock x' _ _ _ hrun
  · cases heval

/-- Where the blocks of a chunk begin and end. -/
structure Between (parentHash : H256) (number : BitVec 64) (bs : List ImportedBlock) : Prop where
  head : ∀ b ∈ bs.head?, b.header.parentHash = parentHash ∧ b.header.number = number
  getLast : ∀ b ∈ bs.getLast?, b.header.number + 1 = number + BitVec.ofNat 64 bs.length

theorem blocksFrom_spec {i left : Nat} {blockChunk : RLP}
    (hread : blocksFrom c i left blockChunk parentHash number totalDifficulty = .ok bs) :
    bs.IsChain (Follows c) ∧ Between parentHash number bs := by
  induction left generalizing i blockChunk parentHash number totalDifficulty bs with
  | zero =>
    cases hread
    exact ⟨.nil, fun _ h => (nomatch h), fun _ h => (nomatch h)⟩
  | succ left ih =>
    obtain ⟨⟨x, blockChunk'⟩, -, hread⟩ := bind_eq_ok_iff.1 hread
    obtain ⟨b, hb, hread⟩ := bind_eq_ok_iff.1 hread
    obtain ⟨hash, hhash, hread⟩ := bind_eq_ok_iff.1 hread
    obtain ⟨bs', hbs', hread⟩ := bind_eq_ok_iff.1 hread
    cases hread
    obtain ⟨hparent, hnumber⟩ := header_of_readBlock hb
    obtain ⟨hchain, hhead, hlast⟩ := ih hbs'
    refine ⟨isChain_cons.2 ⟨fun y hy => ?_, hchain⟩, ?_, ?_⟩
    · obtain ⟨hparent', hnumber'⟩ := hhead y hy
      exact ⟨hhash.trans (congrArg _ hparent'.symm), hnumber'.trans (by rw [hnumber])⟩
    · rintro _ ⟨⟩
      exact ⟨hparent, hnumber⟩
    · intro y hy
      rw [List.length_cons, BitVec.ofNat_add, BitVec.add_comm (BitVec.ofNat 64 bs'.length), ← BitVec.add_assoc]
      cases bs' with
      | nil =>
        rw [List.getLast?_singleton] at hy
        cases hy
        rw [hnumber]
        exact (BitVec.add_zero _).symm
      | cons b' bs' =>
        rw [List.getLast?_cons_cons] at hy
        exact hlast y hy

/-! ### The import -/

theorem importBlock_spec (hrun : importBlock c b s = .ok () s') : s' = { s with blocks := s.blocks ++ [b] } := by
  obtain ⟨headerRlp, -, hrun⟩ := exists_of_lift hrun
  obtain ⟨block, -, hrun⟩ := exists_of_lift hrun
  obtain ⟨_, -, hrun⟩ := exists_of_lift (of_get hrun)
  cases hrun
  rfl

theorem importBlocks_spec {i left : Nat} {blockChunk : RLP}
    (hrun : importBlocks c i left blockChunk parentHash number totalDifficulty s = .ok () s') :
    ∃ bs, blocksFrom c i left blockChunk parentHash number totalDifficulty = .ok bs ∧ s' =
      { s with blocks := s.blocks ++ bs } := by
  induction left generalizing i blockChunk parentHash number totalDifficulty s with
  | zero =>
    cases hrun
    exact ⟨[], rfl, by rw [append_nil]⟩
  | succ left ih =>
    obtain ⟨⟨x, blockChunk'⟩, hindex, hrun⟩ := exists_of_lift hrun
    obtain ⟨b, hb, hrun⟩ := exists_of_lift hrun
    obtain ⟨_, s₁, himport, hrun⟩ := exists_of_bind_ok hrun
    obtain ⟨hash, hhash, hrun⟩ := exists_of_lift hrun
    obtain ⟨bs, hbs, rfl⟩ := ih hrun
    rw [importBlock_spec himport]
    refine ⟨b :: bs, ?_, by rw [append_assoc]; rfl⟩
    rw [blocksFrom, hindex, ok_bind]
    dsimp only
    rw [hb, ok_bind, hhash, ok_bind, hbs]
    rfl

theorem importBlockChunk_spec {chunk : Bytes} {first : Bool} (hrun : importBlockChunk c chunk first s = .ok () s') :
    ∃ x n, blockChunkOf c chunk = .ok x ∧ s' = { s with blocks := s.blocks ++ x.blocks, chainStartBlockNumber := n } := by
  obtain ⟨⟨firstBlock, itemCount, blockChunk⟩, hfirst, hrun⟩ := exists_of_lift hrun
  obtain ⟨_, s₁, hblocks, hrun⟩ := exists_of_bind_ok hrun
  obtain ⟨bs, hbs, rfl⟩ := importBlocks_spec hblocks
  refine ⟨⟨firstBlock, bs⟩, s'.chainStartBlockNumber, ?_, ?_⟩
  · rw [blockChunkOf, hfirst, ok_bind]
    dsimp only
    rw [hbs]
    rfl
  · rw [run_ite] at hrun
    split_ifs at hrun <;> cases hrun <;> rfl

variable {storage : SnapshotStorage}

/-- The loop over the block chunks. -/
theorem importBlockChunk_loop {hashes : List H256} {k : Nat} (hrun : ((hashes.zipIdx k).forM fun chunkAndIndex => do
      let chunk ← liftM (storage.readChunk chunkAndIndex.1)
      importBlockChunk c chunk (chunkAndIndex.2 = 0)) s = .ok () s') :
    ∃ xs n, (hashes.mapM fun chunk => do blockChunkOf c (← storage.readChunk chunk)) = .ok xs ∧
      s' = { s with blocks := s.blocks ++ (xs.map BlockChunk.blocks).flatten, chainStartBlockNumber := n } := by
  induction hashes generalizing s k with
  | nil =>
    cases hrun
    exact ⟨[], _, rfl, by rw [map_nil, flatten_nil, append_nil]⟩
  | cons hash hashes ih =>
    obtain ⟨_, s₁, hchunk, hrun⟩ := exists_of_bind_ok hrun
    obtain ⟨chunk, hread, hchunk⟩ := exists_of_lift hchunk
    obtain ⟨x, n, hx, rfl⟩ := importBlockChunk_spec hchunk
    obtain ⟨xs, n', hxs, rfl⟩ := ih hrun
    refine ⟨x :: xs, n', ?_, by rw [map_cons, flatten_cons, append_assoc]⟩
    rw [mapM_cons, hread, ok_bind, hx, ok_bind, hxs]
    rfl

theorem importBlockChunks_spec {hashes : List H256} (hrun : importBlockChunks c storage hashes s = .ok () s') :
    ∃ xs n, blockChunksOf c storage hashes = .ok xs ∧
      s' = { s with blocks := s.blocks ++ (xs.map BlockChunk.blocks).flatten, chainStartBlockNumber := n } :=
  importBlockChunk_loop hrun

theorem ok_of_not_throwIf {p : Prop} [Decidable p] {e : Exn} (hp : ¬p) : (throwIf p e : Except Exn Unit) = .ok () := if_neg hp

/-- An import that returns has imported what the snapshot is read as. -/
theorem import_spec (hrun : import_ c storage s = .ok () s') :
    ∃ x s₁ n, contentsOf c storage = .ok x ∧ Imports c x.accounts s s₁ ∧ stateRoot c s₁ = x.manifest.stateRoot ∧
      s' = { s₁ with blocks := s₁.blocks ++ (x.chunks.map BlockChunk.blocks).flatten, chainStartBlockNumber := n } := by
  obtain ⟨manifestBytes, hbytes, hrun⟩ := exists_of_lift hrun
  obtain ⟨manifest, hmanifest, hrun⟩ := exists_of_lift hrun
  obtain ⟨⟨x₀, m₀⟩, h₀, hrun⟩ := exists_of_lift hrun
  obtain ⟨version, hversion, hrun⟩ := exists_of_lift hrun
  obtain ⟨hversion', hrun⟩ := of_throwIf hrun
  obtain ⟨count, hcount, hrun⟩ := exists_of_lift hrun
  obtain ⟨hcount', hrun⟩ := of_throwIf hrun
  obtain ⟨⟨x₄, m₄⟩, h₄, hrun⟩ := exists_of_lift hrun
  obtain ⟨blockNumber, hnumber, hrun⟩ := exists_of_lift hrun
  obtain ⟨⟨x₅, m₅⟩, h₅, hrun⟩ := exists_of_lift hrun
  obtain ⟨blockHash, hhash, hrun⟩ := exists_of_lift hrun
  obtain ⟨⟨x₁, m₁⟩, h₁, hrun⟩ := exists_of_lift hrun
  obtain ⟨stateChunkHashes, hstate, hrun⟩ := exists_of_lift hrun
  obtain ⟨⟨x₃, m₃⟩, h₃, hrun⟩ := exists_of_lift hrun
  obtain ⟨root, hroot, hrun⟩ := exists_of_lift hrun
  obtain ⟨_, s₁, hchunks, hrun⟩ := exists_of_bind_ok hrun
  obtain ⟨⟨x₂, m₂⟩, h₂, hrun⟩ := exists_of_lift hrun
  obtain ⟨blockChunkHashes, hblock, hrun⟩ := exists_of_lift hrun
  obtain ⟨rs, hrs, himports, hstateRoot⟩ := importStateChunks_spec hchunks
  obtain ⟨xs, n, hxs, rfl⟩ := importBlockChunks_spec hrun
  have hm : manifestOf manifestBytes = .ok ⟨stateChunkHashes, blockChunkHashes, root, blockNumber, blockHash⟩ := by
    simp only [manifestOf, hmanifest, h₀, hversion, hcount, h₄, hnumber, h₅, hhash, h₁, hstate, h₃,
      hroot, h₂, hblock, ok_bind, ok_of_not_throwIf hversion', ok_of_not_throwIf hcount']
    rfl
  refine ⟨⟨⟨stateChunkHashes, blockChunkHashes, root, blockNumber, blockHash⟩, rs, xs⟩, s₁, n, ?_, himports, hstateRoot, rfl⟩
  rw [contentsOf, hbytes, ok_bind, hm, ok_bind, hrs, ok_bind, hxs]
  rfl

/-! ### What is announced -/

/-- What is imported is what is announced: the last block is that of the manifest, each block is the child of the one before
it, and the state under the root of the manifest holds the accounts of the chunks. -/
structure Announced (c : Host) (x : Contents) (s : Importer) : Prop where
  last : ∃ b ∈ s.blocks.getLast?, b.header.number.toInt = x.manifest.blockNumber.toNat ∧
    headerHash c b.header = .ok x.manifest.blockHash ∧ b.header.stateRoot = x.manifest.stateRoot
  parents : s.blocks.IsChain (Follows c)
  root : stateRoot c s = x.manifest.stateRoot
  state : HoldsExactly c s x.accounts

/-- The chunks that have blocks -/
def Contents.filled (x : Contents) : List BlockChunk := x.chunks.filter fun chunk => chunk.blocks ≠ []

/-- The last chunk with blocks ends with the block of the manifest, each begins where the one before it ended, and the parts
of accounts agree. -/
structure Fits (c : Host) (x : Contents) : Prop where
  last : ∃ chunk ∈ x.filled.getLast?, (chunk.first.number + BitVec.ofNat 64 chunk.blocks.length).toInt =
    x.manifest.blockNumber.toNat ∧
    ∃ b ∈ chunk.blocks.getLast?, headerHash c b.header = .ok x.manifest.blockHash ∧ b.header.stateRoot = x.manifest.stateRoot
  borders : x.filled.IsChain fun y z => z.first.number = y.first.number + BitVec.ofNat 64 y.blocks.length ∧
    ∃ b ∈ y.blocks.getLast?, headerHash c b.header = .ok z.first.hash
  parts : PartsAgree c x.accounts

/-- What a chunk is read as. -/
structure BlockChunk.Regular (c : Host) (chunk : BlockChunk) : Prop where
  chain : chunk.blocks.IsChain (Follows c)
  between : Between chunk.first.hash (chunk.first.number + 1) chunk.blocks

theorem regular_of_blockChunkOf {chunk : Bytes} {x : BlockChunk} (h : blockChunkOf c chunk = .ok x) : x.Regular c := by
  obtain ⟨⟨first, count, blockChunk⟩, -, h⟩ := bind_eq_ok_iff.1 h
  obtain ⟨bs, hbs, h⟩ := bind_eq_ok_iff.1 h
  cases h
  obtain ⟨hchain, hbetween⟩ := blocksFrom_spec hbs
  exact ⟨hchain, hbetween⟩

theorem BlockChunk.Regular.number_last {chunk : BlockChunk} (h : chunk.Regular c) (hb : b ∈ chunk.blocks.getLast?) :
    b.header.number = chunk.first.number + BitVec.ofNat 64 chunk.blocks.length := by
  have hlast := h.between.getLast b hb
  rw [BitVec.add_assoc, BitVec.add_comm 1, ← BitVec.add_assoc] at hlast
  exact (BitVec.add_left_inj 1).1 hlast

/-- One that begins where the other one ended -/
theorem follows_iff_border {y z : BlockChunk} (hy : y.Regular c) (hz : z.Regular c) (hyne : y.blocks ≠ [])
    (hzne : z.blocks ≠ []) : (∀ a ∈ y.blocks.getLast?, ∀ b ∈ z.blocks.head?, Follows c a b) ↔
      z.first.number = y.first.number + BitVec.ofNat 64 y.blocks.length ∧
        ∃ b ∈ y.blocks.getLast?, headerHash c b.header = .ok z.first.hash := by
  obtain ⟨a, ha⟩ := Option.ne_none_iff_exists'.1 (mt List.getLast?_eq_none_iff.1 hyne)
  obtain ⟨b, hb⟩ := Option.ne_none_iff_exists'.1 (mt List.head?_eq_none_iff.1 hzne)
  obtain ⟨hparent, hnumber⟩ := hz.between.head b hb
  have hlast := hy.number_last ha
  have hfollows : Follows c a b ↔ headerHash c a.header = .ok z.first.hash ∧
      z.first.number = y.first.number + BitVec.ofNat 64 y.blocks.length := by
    rw [Follows, hparent, hnumber, hlast, BitVec.add_left_inj]
  constructor
  · intro h
    obtain ⟨hhash, hfirst⟩ := hfollows.1 (h a ha b hb)
    exact ⟨hfirst, a, ha, hhash⟩
  · rintro ⟨hfirst, a', ha', hhash⟩ a'' ha'' b' hb'
    rw [Option.mem_def, ha] at ha' ha''
    rw [Option.mem_def, hb] at hb'
    cases ha'
    cases ha''
    cases hb'
    exact hfollows.2 ⟨hhash, hfirst⟩

/-! ### The blocks of all chunks -/

theorem Contents.filled_ne_nil {x : Contents} {y : BlockChunk} (hy : y ∈ x.filled) : y.blocks ≠ [] :=
  of_decide_eq_true (mem_filter.1 hy).2

theorem Contents.flatten_filled (x : Contents) :
    (x.filled.map BlockChunk.blocks).flatten = (x.chunks.map BlockChunk.blocks).flatten := by
  rw [Contents.filled, ← flatten_filter_ne_nil (L := x.chunks.map BlockChunk.blocks), filter_map]
  rfl

theorem isChain_blocks_iff {x : Contents} (hx : ∀ y ∈ x.chunks, y.Regular c) :
    ((x.chunks.map BlockChunk.blocks).flatten).IsChain (Follows c) ↔
      x.filled.IsChain fun y z => z.first.number = y.first.number + BitVec.ofNat 64 y.blocks.length ∧
        ∃ b ∈ y.blocks.getLast?, headerHash c b.header = .ok z.first.hash := by
  have hregular : ∀ y ∈ x.filled, y.Regular c := fun y hy => hx y (mem_filter.1 hy).1
  have hnil : [] ∉ x.filled.map BlockChunk.blocks := fun hmem => by
    obtain ⟨y, hy, hblocks⟩ := mem_map.1 hmem
    exact Contents.filled_ne_nil hy hblocks
  have hchain : ∀ l ∈ x.filled.map BlockChunk.blocks, l.IsChain (Follows c) := fun l hl => by
    obtain ⟨y, hy, rfl⟩ := mem_map.1 hl
    exact (hregular y hy).chain
  rw [← x.flatten_filled, isChain_flatten hnil, and_iff_right hchain, isChain_map]
  exact List.IsChain.iff_of_mem_imp fun y z hy hz =>
    follows_iff_border (hregular y hy) (hregular z hz) (Contents.filled_ne_nil hy) (Contents.filled_ne_nil hz)

/-- The last block of all is that of the last chunk with blocks. -/
theorem mem_getLast?_blocks_iff (x : Contents) : b ∈ (x.chunks.map BlockChunk.blocks).flatten.getLast? ↔
    ∃ y ∈ x.filled.getLast?, b ∈ y.blocks.getLast? := by
  have hne : ∀ y ∈ x.filled, y.blocks ≠ [] := fun y => Contents.filled_ne_nil
  rw [← x.flatten_filled]
  generalize x.filled = ys at hne
  rcases eq_nil_or_concat ys with rfl | ⟨ys, y, rfl⟩
  · exact iff_of_false nofun fun ⟨y, hy, _⟩ => nomatch hy
  · obtain ⟨a, ha⟩ := Option.ne_none_iff_exists'.1 (mt List.getLast?_eq_none_iff.1 (hne y (by simp)))
    simp [ha]

theorem forall_of_mapM {α β ε : Type} {P : β → Prop} {f : α → Except ε β} (hf : ∀ a b, f a = .ok b → P b)
    {as : List α} {bs : List β} (h : as.mapM f = .ok bs) : ∀ b ∈ bs, P b := by
  induction as generalizing bs with
  | nil =>
    cases h
    exact nofun
  | cons a as ih =>
    rw [mapM_cons] at h
    obtain ⟨b, hb, h⟩ := bind_eq_ok_iff.1 h
    obtain ⟨bs', hbs', h⟩ := bind_eq_ok_iff.1 h
    cases h
    exact forall_mem_cons.2 ⟨hf a b hb, ih hbs'⟩

theorem regular_of_contentsOf {x : Contents} (h : contentsOf c storage = .ok x) : ∀ y ∈ x.chunks, y.Regular c := by
  obtain ⟨_, -, h⟩ := bind_eq_ok_iff.1 h
  obtain ⟨_, -, h⟩ := bind_eq_ok_iff.1 h
  obtain ⟨_, -, h⟩ := bind_eq_ok_iff.1 h
  obtain ⟨chunks, hchunks, h⟩ := bind_eq_ok_iff.1 h
  cases h
  refine forall_of_mapM (fun hash y hy => ?_) hchunks
  obtain ⟨chunk, -, hy⟩ := bind_eq_ok_iff.1 hy
  exact regular_of_blockChunkOf hy

/-- Where nothing collides, what a returning import has imported is what was announced if and only if the snapshot fits. -/
theorem announced_iff {base : H256 → Bytes} (hrun : import_ c storage { base } = .ok () s')
    (hno : NoCollision c s') : ∃ x, contentsOf c storage = .ok x ∧ (Announced c x s' ↔ Fits c x) := by
  obtain ⟨x, s₁, n, hx, himports, hroot, rfl⟩ := import_spec hrun
  refine ⟨x, hx, ?_⟩
  have hblocks : s₁.blocks = [] := himports.grows.blocks
  have hrep := himports.represents (fun _ => none) ⟨hno.storageTries, hno.db⟩ ⟨fun _ => rfl, fun _ => mem_cons_self⟩
  have hstate := holdsExactly_iff (s := { s₁ with
      blocks := s₁.blocks ++ (x.chunks.map BlockChunk.blocks).flatten, chainStartBlockNumber := n }) hno
    ⟨hrep.trie, hrep.storage⟩ (merged_foldl merged_nil x.accounts) himports.codes
  have hregular := regular_of_contentsOf hx
  have hlast := fun b => mem_getLast?_blocks_iff (b := b) x
  constructor
  · rintro ⟨⟨b, hb, hnumber, hhash, hstateRoot⟩, hparents, -, hholds⟩
    rw [hblocks, nil_append] at hb hparents
    obtain ⟨y, hy, hb⟩ := (hlast b).1 hb
    rw [(hregular y (mem_filter.1 (List.mem_of_getLast? hy)).1).number_last hb] at hnumber
    exact ⟨⟨y, hy, hnumber, b, hb, hhash, hstateRoot⟩, (isChain_blocks_iff hregular).1 hparents, hstate.1 hholds⟩
  · rintro ⟨⟨y, hy, hnumber, b, hb, hhash, hstateRoot⟩, hborders, hparts⟩
    rw [← (hregular y (mem_filter.1 (List.mem_of_getLast? hy)).1).number_last hb] at hnumber
    refine ⟨⟨b, ?_, hnumber, hhash, hstateRoot⟩, ?_, hroot, hstate.2 hparts⟩
    · rw [hblocks, nil_append]
      exact (hlast b).2 ⟨y, hy, hb⟩
    · rw [hblocks, nil_append]
      exact (isChain_blocks_iff hregular).2 hborders

/-! ### A snapshot of two blocks -/

/-- Hashes are lengths, and all tries have the same root. -/
def lengthHost : Host where
  sha3 b := BitVec.ofNat _ b.length
  trieRootOver _ := 0
  orderedTrieRoot _ := 0
  storageRoot _ := 0
  stateRoot _ := 0
  storageNodes _ := []
  stateNodes _ := []
  insertWithoutParent _ _ _ _ := .ok ()

/-- An abridged block without transactions and uncles, with its receipts -/
def blockAndReceipts : Bytes :=
  [0xf9, 0x01, 0x6e, 0xf9, 0x01, 0x6a] ++ 0x94 :: List.replicate 20 0 ++ 0xa0 :: List.replicate 32 0 ++
    [0xb9, 0x01, 0x00] ++ List.replicate 256 0 ++ [1, 0x80, 0x80, 0x80, 0x80, 0xc0, 0xc0] ++ 0xa0 :: List.replicate 32 0 ++
    0x88 :: List.replicate 8 0 ++ [0xc0]

/-- The hash of such a block: its length -/
def blockHash : Bytes := List.replicate 30 0 ++ [1, 0xf0]

/-- One block, after that of the number and the hash -/
def chunkAfter (number : UInt8) (hash : Bytes) : Bytes := [0xf9, 0x01, 0x94, number] ++ 0xa0 :: hash ++
    [1] ++ blockAndReceipts

/-- No state chunks, and two block chunks, with block 3 and block 2. The last one is imported first. -/
def snapshotOf (number : UInt8) (hash : Bytes) : SnapshotStorage where
  readManifest := .ok ([0xf8, 0x89, 2, 0xc0, 0xf8, 0x42] ++ 0xa0 :: List.replicate 32 7 ++ 0xa0 :: List.replicate 32 8 ++
    0xa0 :: List.replicate 32 0 ++ [number] ++ 0xa0 :: hash)
  readChunk chunk := .ok (if chunk.toNat % 256 = 7 then chunkAfter 2 blockHash else chunkAfter 1 (List.replicate 32 1))

/-- It has been read, and it is like that. -/
def reads (x : Except Exn Contents) (p : Contents → Bool) : Bool := x.toOption.any p

/-- It has returned with nothing but blocks, which are like that. -/
def imports (r : EStateM.Result Exn Importer Unit) (p : List ImportedBlock → Bool) : Bool :=
  match r with
  | .ok _ s => s.storageTries.length = 1 ∧ s.db.length = 0 ∧ p s.blocks
  | .error .. => false

theorem exists_of_reads {x : Except Exn Contents} {p : Contents → Bool} (h : reads x p) : ∃ y, x = .ok y ∧ p y := by
  cases x with
  | ok y => exact ⟨y, rfl, h⟩
  | error e => cases h

theorem exists_of_imports {r : EStateM.Result Exn Importer Unit} {p : List ImportedBlock → Bool} (h : imports r p) :
    ∃ s, r = .ok () s ∧ NoCollision c s ∧ p s.blocks := by
  cases r with
  | error e s => cases h
  | ok _ s =>
    obtain ⟨htries, hdb, hp⟩ := of_decide_eq_true h
    obtain ⟨t, ht⟩ := length_eq_one_iff.1 htries
    refine ⟨s, rfl, ⟨fun t₁ ht₁ t₂ ht₂ _ => ?_, fun h b _ hb => ?_⟩, hp⟩
    · rw [ht, mem_singleton] at ht₁ ht₂
      rw [ht₁, ht₂]
    · rw [length_eq_zero_iff.1 hdb] at hb
      cases hb

theorem announced_twoBlocks : ∃ s x, import_ lengthHost (snapshotOf 3 blockHash) {} = .ok () s ∧
    contentsOf lengthHost (snapshotOf 3 blockHash) = .ok x ∧ s.blocks.length = 2 ∧ Announced lengthHost x s := by
  obtain ⟨s, hrun, hno, hblocks⟩ := exists_of_imports (c := lengthHost) (r := import_ lengthHost (snapshotOf 3 blockHash) {})
    (p := fun bs => bs.length = 2) (by decide +kernel)
  obtain ⟨x, hx, hiff⟩ := announced_iff hrun hno
  refine ⟨s, x, hrun, hx, of_decide_eq_true hblocks, hiff.2 ?_⟩
  obtain ⟨y, hy, hp⟩ := exists_of_reads (x := contentsOf lengthHost (snapshotOf 3 blockHash))
    (p := fun x => x.accounts.length = 0 ∧ x.filled.length = 2 ∧ ∃ y ∈ x.filled.head?, ∃ z ∈ x.filled.getLast?,
      (z.first.number + BitVec.ofNat 64 z.blocks.length).toInt = x.manifest.blockNumber.toNat ∧
      z.first.number = y.first.number + BitVec.ofNat 64 y.blocks.length ∧
      (∃ b ∈ y.blocks.getLast?, (headerHash lengthHost b.header).toOption = some z.first.hash) ∧
      ∃ b ∈ z.blocks.getLast?, (headerHash lengthHost b.header).toOption = some x.manifest.blockHash ∧
        b.header.stateRoot = x.manifest.stateRoot) (by decide +kernel)
  cases hx.symm.trans hy
  obtain ⟨haccounts, hlength, y, hfirst, z, hsecond, hnumber, hnext, ⟨b₁, hb₁, hhash₁⟩, b₂, hb₂, hhash₂,
      hroot⟩ := of_decide_eq_true hp
  obtain ⟨first, second, hfilled⟩ := length_eq_two.1 hlength
  rw [hfilled] at hfirst hsecond
  cases hfirst
  cases hsecond
  refine ⟨⟨second, ?_, hnumber, b₂, hb₂, eq_ok_of_toOption hhash₂, hroot⟩, ?_, ?_⟩
  · rw [hfilled]
    rfl
  · rw [hfilled]
    exact .cons_cons ⟨hnext, b₁, hb₁, eq_ok_of_toOption hhash₁⟩ (.singleton second)
  · rw [PartsAgree, length_eq_zero_iff.1 haccounts]
    exact nofun

/-- The same blocks, with a manifest that says that the last is block 9: they are imported all the same. -/
theorem not_announced : ∃ s x, import_ lengthHost (snapshotOf 9 (List.replicate 32 0)) {} = .ok () s ∧
    NoCollision lengthHost s ∧
    contentsOf lengthHost (snapshotOf 9 (List.replicate 32 0)) = .ok x ∧ ¬Announced lengthHost x s := by
  obtain ⟨s, hrun, hno, hs⟩ := exists_of_imports (c := lengthHost)
      (r := import_ lengthHost (snapshotOf 9 (List.replicate 32 0)) {})
    (p := fun bs => ∀ b ∈ bs.getLast?, b.header.number = 3) (by decide +kernel)
  obtain ⟨x, hx, hp⟩ := exists_of_reads (x := contentsOf lengthHost (snapshotOf 9 (List.replicate 32 0)))
    (p := fun x => x.manifest.blockNumber = 9) (by decide +kernel)
  refine ⟨s, x, hrun, hno, hx, fun h => ?_⟩
  obtain ⟨b, hb, hnumber, -⟩ := h.last
  rw [of_decide_eq_true hs b hb, of_decide_eq_true hp] at hnumber
  cases hnumber

end Kmdx.Snapshot
