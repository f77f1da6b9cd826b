import Aecmio.Rlp.Canonical
import Aecmio.Rlp.RoundTrip
import Aecmio.State.Deployment
import Aecmio.State.SharedSizes
import Aecmio.State.Flushing
import Aecmio.Trie.FailingRemoval
import Aecmio.Trie.References
import Aecmio.Chain.Enactment
import Aecmio.Evm.LegacyVM
import Aecmio.Evm.Questions
import Aecmio.Chain.BlockChain
import Aecmio.Chain.BlockIdentity
import Aecmio.Chain.BlockTree
import Aecmio.Chain.BloomSearch
import Aecmio.Chain.Blooms
import Aecmio.Chain.TransactionCodec
import Aecmio.Chain.Uncles
import Aecmio.Evm.Metering
import Aecmio.Logic.SearchTree
import Aecmio.Queue.BlockQueue
import Aecmio.Queue.Consistency
import Aecmio.Queue.Histories
import Aecmio.Queue.Pipeline
import Aecmio.Queue.Purging
import Aecmio.Queue.Retained
import Aecmio.Queue.Separation
import Aecmio.Queue.SizedBlocks
import Aecmio.Storage.OverlayDB
import Aecmio.Chain.Syncing
import Aecmio.Logic.Compaction
import Aecmio.Logic.Lockstep
import Aecmio.Network.Capabilities
import Aecmio.Network.Delivery
import Aecmio.Network.BlockHeaders
import Aecmio.Network.Discovery
import Aecmio.Snapshot.SnapshotImporter
import Aecmio.Network.Buckets
import Aecmio.Network.Evictions
import Aecmio.Network.ChunkDownload
import Aecmio.Trie.Iterating
import Aecmio.Logic.Paging
import Aecmio.Rlp.Iteration
import Aecmio.Chain.Ethash
import Aecmio.Chain.LogFilter
import Aecmio.Evm.Precompiled
import Aecmio.State.Addresses
import Aecmio.Rlp.Indexing
import Aecmio.Core.RangeMask
import Aecmio.Core.RangeSets
import Aecmio.Queue.Difficulty
import Aecmio.State.AddressPages
import Aecmio.Chain.LogMatching
import Aecmio.Chain.LastBlockHashes
import Aecmio.Chain.TransactionMemos
import Aecmio.Client.GasEstimate
import Aecmio.Network.NeighbourPackets
import Aecmio.Network.Nearest
import Aecmio.Evm.Numbers
import Aecmio.Evm.Copying
import Aecmio.Chain.ChunkedMaps
import Aecmio.Trie.HexPrefix
import Aecmio.Chain.ReceiptCodec
import Aecmio.Client.PendingChanges
import Aecmio.Keys.Bookkeeping
import Aecmio.Network.PeerList
