import Kmdx.CommitRun
import Kmdx.NativeDispatch
import Kmdx.QueueBytes
import Kmdx.QueueOrder
import Kmdx.QueueDifficulty
import Kmdx.Tm.ConsensusTime
import Kmdx.Tm.ConsensusCommit
import Kmdx.TransactionLimits
import Kmdx.LogWatchRun
import Kmdx.Warp.Snapshot
import Kmdx.Addresses
import Kmdx.Creation
import Kmdx.GasEstimate
import Kmdx.BlockRewards
import Kmdx.Evm.Optimize
import Kmdx.Sync.ChunkMaps
import Kmdx.Sync.Assignments
import Kmdx.Rlp.Indexing
import Kmdx.P2p.Nearest
import Kmdx.P2p.NodeEvents
import Kmdx.P2p.FindNodeReplies
import Kmdx.Tm.Proposals
import Kmdx.RangeDifference
import Kmdx.Ethash.SealedHeaders
import Kmdx.Db.OverlayDB
import Kmdx.Warp.ImportedChain
import Kmdx.Precompiled
import Kmdx.P2p.FrameHandler
import Kmdx.PendingChanges
import Kmdx.Chain.HeaderAnswers
import Kmdx.P2p.HandshakeHandled
import Kmdx.Keys.HistoryRuns
import Kmdx.Crypto.Ecies
import Kmdx.Tm.LastCommit
import Kmdx.Tm.Prevotes
import Kmdx.Tm.Refusals
import Kmdx.Tm.Rotation
import Kmdx.Tm.Agreement
import Kmdx.Trie.OrderedRoot
import Kmdx.Evm.StaticFrames
import Kmdx.LogSearch
