import IniNode.Index.MedianTime
import IniNode.Index.HeaderChainRuns
import IniNode.Index.MinerGuard
import IniNode.Utxo.ViewConnect
import IniNode.Utxo.OutpointKey
import IniNode.Chain.Reorganize
import IniNode.Chain.QueueWatermark
import IniNode.Chain.Notifications
import IniNode.Sugar.TxLookup
import IniNode.Sugar.ValueCodec
import IniNode.Sugar.Mempool
import IniNode.Netsync.Bookkeeping
import IniNode.Netsync.CircuitBreaker
import IniNode.Netsync.CheckedWork
import IniNode.Netsync.BlockSlices
import IniNode.Server.PeerBudget
import IniNode.Process.DiskLedger
import IniNode.Process.Merkle
import IniNode.Process.Parents
import IniNode.Index.SkipList
import IniNode.Index.OneBranch
import IniNode.Index.Snapshot
import IniNode.Index.HeaderView
import IniNode.Index.CheckpointNode
import IniNode.Index.StoredWork
import IniNode.Chain.ConnectBestChain
import IniNode.Chain.Purge
import IniNode.Wallets.Handed
import IniNode.Wallets.Maturity
import IniNode.Forks.HeaderLead
import IniNode.Forks.Unmarked
import IniNode.Forks.Rollback
import IniNode.Ffldb.Crash
import IniNode.Ffldb.Snapshots
