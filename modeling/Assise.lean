import Assise.Lib.Memory
import Assise.Lib.Runs
import Assise.Lib.Segments
import Assise.MapTable
import Assise.Mkfs
import Assise.LogRing
import Assise.LogRingSafety
import Assise.Balloc
import Assise.Ledger
import Assise.Extents
import Assise.ExtentsLedger
import Assise.Ownership
import Assise.ExtentsSearch
import Assise.ExtentsInsert
import Assise.ExtentsGrow
import Assise.ExtentsRemove
import Assise.FileMap
import Assise.Digest
import Assise.DigestEffects
import Assise.DigestPlacement
import Assise.Contents
import Assise.DigestFiles
import Assise.Leakage
import Assise.ConcurrentLog
import Assise.Directory
import Assise.Leases
import Assise.Replication
import Assise.LeaseHandover
import Assise.Layout
import Assise.InodeNumbers
import Assise.OpenFiles
import Assise.FreeRanges
import Assise.Lib.Naming
import Assise.Namespace
import Assise.NamespaceTree
import Assise.PathCache
import Assise.Rename
import Assise.NamespaceIntegrity
import Assise.Transactions
import Assise.ReplicationCounts
import Assise.Acceptance
import Assise.FreeTree
import Assise.AllocatorRuns
import Assise.AllocatorLists
import Assise.BlocknodeMap
import Assise.BitmapStore
import Assise.AllocatorThreads
import Assise.DigestShrink
import Assise.Lib.Tiling
import Assise.FileWrite
import Assise.Registration
import Assise.Lib.Copies
import Assise.MapReads
import Assise.FileRead
import Assise.MapTableImage
import Assise.FileReadData
import Assise.SparseWrite
import Assise.ObjectCreate
import Assise.LogBlocks
import Assise.Lib.Progress
import Assise.LogProgress
import Assise.LogPatches
import Assise.ChainForwarding
import Assise.DigestCheckpoints
import Assise.LeaseManager
import Assise.ShimPaths
import Assise.MigrationLists
import Assise.Mmap
import Assise.ReadCache
import Assise.Migration
