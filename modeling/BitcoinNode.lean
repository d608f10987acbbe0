import BitcoinNode.Library.Word
import BitcoinNode.Library.Result
import BitcoinNode.Library.FiniteMap
import BitcoinNode.Library.System
import BitcoinNode.Library.Forest
import BitcoinNode.Library.Ledger
import BitcoinNode.Primitives.Types
import BitcoinNode.Protocol
import BitcoinNode.Coins
import BitcoinNode.Primitives.Script
import BitcoinNode.Primitives.Transaction
import BitcoinNode.Primitives.Checks
import BitcoinNode.Primitives.SigOps
import BitcoinNode.Primitives.Finality
import BitcoinNode.Blockchain.ChainEntry
import BitcoinNode.Blockchain.Database
import BitcoinNode.Blockchain.ChainDB
import BitcoinNode.Blockchain.Headers
import BitcoinNode.Blockchain.Chain
import BitcoinNode.Blockchain.System
import BitcoinNode.Blockchain.Effects
import BitcoinNode.Blockchain.Tree
import BitcoinNode.Blockchain.Moves
import BitcoinNode.Blockchain.Invariant
import BitcoinNode.Blockchain.ForkChoice
import BitcoinNode.Blockchain.Calls
import BitcoinNode.Blockchain.Runs
import BitcoinNode.Blockchain.Invalid
import BitcoinNode.Blockchain.Ancestors
import BitcoinNode.Blockchain.Panics
import BitcoinNode.Blockchain.View
import BitcoinNode.Blockchain.Undo
import BitcoinNode.Blockchain.Loops
import BitcoinNode.Blockchain.Optimal
import BitcoinNode.Blockchain.Books
import BitcoinNode.Blockchain.Replay
import BitcoinNode.Library.Table
import BitcoinNode.Blockchain.Restart
import BitcoinNode.Blockchain.Locator
import BitcoinNode.Blockchain.AddHeader
import BitcoinNode.Net.Headers
import BitcoinNode.Net.NewPeerManager
import BitcoinNode.Net.PeerManager
import BitcoinNode.Library.Eviction
import BitcoinNode.Library.Purge
import BitcoinNode.Mempool.MemPool
import BitcoinNode.Mempool.Node
import BitcoinNode.Mempool.Spents
import BitcoinNode.Mempool.Evicted
import BitcoinNode.Mempool.Connected
import BitcoinNode.Library.Bytes
import BitcoinNode.Blockstore.FileBlockStore
import BitcoinNode.Blockstore.Records
import BitcoinNode.Blockstore.Reindex
import BitcoinNode.Blockstore.Rewrite
import BitcoinNode.Library.Median
import BitcoinNode.Blockchain.MedianTime
import BitcoinNode.Blockchain.Straight
import BitcoinNode.Blockchain.Work
import BitcoinNode.Blockchain.Locks
import BitcoinNode.Blockchain.RelativeLocks
import BitcoinNode.Blockchain.Versions
import BitcoinNode.Mempool.Packed
import BitcoinNode.Library.Compact
import BitcoinNode.Blockchain.Retarget
import BitcoinNode.Library.Slots
import BitcoinNode.Net.CompactBlock
import BitcoinNode.Net.Requests
import BitcoinNode.Library.Shares
import BitcoinNode.Net.InFlight
import BitcoinNode.Net.Verifying
import BitcoinNode.Net.Owed
import BitcoinNode.Net.PeerRequests
import BitcoinNode.Net.Unions
import BitcoinNode.Net.Proper
import BitcoinNode.Blockchain.Notified
import BitcoinNode.Indexers.DiskDatabase
import BitcoinNode.Indexers.FilterIndex
import BitcoinNode.Indexers.FilterChain
import BitcoinNode.Indexers.FilterServed
import BitcoinNode.Library.VarInt
import BitcoinNode.Indexers.TxIndex
import BitcoinNode.Library.KeyOrder
import BitcoinNode.Indexers.AddrIndex
import BitcoinNode.Indexers.AddrKeys
import BitcoinNode.Indexers.AddrRuns
import BitcoinNode.Indexers.AddrQuery
import BitcoinNode.Blockchain.Origins
import BitcoinNode.Blockchain.TipCoins
import BitcoinNode.Indexers.AddrBranches
import BitcoinNode.Library.Accounts
import BitcoinNode.Blockchain.Counters
import BitcoinNode.Blockchain.Supply
import BitcoinNode.Blockchain.Children
import BitcoinNode.Blockchain.CommonAncestor
import BitcoinNode.Blockchain.Locating
import BitcoinNode.Net.ServeHeaders
import BitcoinNode.Net.Window
import BitcoinNode.Net.CompactNew
import BitcoinNode.Net.CompactFill
import BitcoinNode.Primitives.Multisig
import BitcoinNode.Library.BitArray
import BitcoinNode.Net.BloomFilter
import BitcoinNode.Net.BloomRuns
import BitcoinNode.Blockchain.Windows
import BitcoinNode.Blockchain.Deployments
import BitcoinNode.Blockchain.QueryHistory
import BitcoinNode.Blockstore.PartialReads
import BitcoinNode.Blockstore.Downloaded
import BitcoinNode.Blockchain.HashRange
import BitcoinNode.Mempool.Readmitted
import BitcoinNode.Mempool.Reorg
import BitcoinNode.Net.ForkBlocks
import BitcoinNode.Net.Handshake
import BitcoinNode.OnDisk
import BitcoinNode.Blockstore.Damaged
import BitcoinNode.Blockchain.Answers
import BitcoinNode.Blockchain.Flags
import BitcoinNode.Blockchain.Faults
import BitcoinNode.Blockchain.Statistics
import BitcoinNode.Protocol.TimeData
import BitcoinNode.Library.Framing
import BitcoinNode.Net.Connection
import BitcoinNode.Blockchain.Agreement
import BitcoinNode.Blockchain.Convergence
import BitcoinNode.Net.HeaderSync
import BitcoinNode.Net.HeaderExchange
import BitcoinNode.Net.NewPeer
import BitcoinNode.Net.HandshakeLink
import BitcoinNode.Blockchain.BlockAgreement
import BitcoinNode.Net.BlockSync
import BitcoinNode.Net.ServeData
import BitcoinNode.Net.BlockExchange
import BitcoinNode.Net.ServeFilters
import BitcoinNode.Blockchain.Lives
import BitcoinNode.Mining.Miner
import BitcoinNode.Net.CompactRelay
