import KvdbClient.Transition
import KvdbClient.GuardedWrite
import KvdbClient.LockRootsExclusion
import KvdbClient.HBaseMutualExclusion
import KvdbClient.HBaseIndefiniteLock
import KvdbClient.DelayedUnlock
import KvdbClient.HBaseAddress
import KvdbClient.RootNodeIds
import KvdbClient.LockAgreement
import KvdbClient.RootTraversal
import KvdbClient.AsOfReads
import KvdbClient.RangeReads
import KvdbClient.FullTableReads
import KvdbClient.UserFilter
import KvdbClient.NumpyCodec
import KvdbClient.RootLockDecisions
import KvdbClient.VastChunks
import KvdbClient.KeyReads
import KvdbClient.HBaseWrites
import KvdbClient.VastTableCreation
import KvdbClient.LockRetries
import KvdbClient.CompressedPayloads
import KvdbClient.MaxRootNodeId
import KvdbClient.LogEntries
import KvdbClient.ArrayColumns
import KvdbClient.ChunkLayers
import KvdbClient.RowKeys
import KvdbClient.QualifierKeys
import KvdbClient.HBaseWire
import KvdbClient.DeleteCells
import KvdbClient.LockTermination
import KvdbClient.ColumnFamilies
import KvdbClient.ColumnFilter
import KvdbClient.BackendRuns
import KvdbClient.ReplacedRoots
import KvdbClient.LockUpgrade
import KvdbClient.LockTimestamps
import KvdbClient.HBaseGuardedWrite
import KvdbClient.RetriedWrites
import KvdbClient.TableCreation
import KvdbClient.DenseNodeIds
import KvdbClient.LatestRoots
import KvdbClient.RootSuccessors
import KvdbClient.StagedRoots
import KvdbClient.ScannerSessions
import KvdbClient.SingleLogEntries
import KvdbClient.HBaseLockRootsExclusion
import KvdbClient.HBaseRest
import KvdbClient.HBaseRestReads
import KvdbClient.HBaseRestRuns
import KvdbClient.HBaseRestLocks
