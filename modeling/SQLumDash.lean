import SQLumDash.Ipc.RowRefinement
import SQLumDash.Ipc.StmtProtection
import SQLumDash.Ipc.TableUnlock
import SQLumDash.Ipc.CacheReset
import SQLumDash.Ipc.Mapping
import SQLumDash.Commit.UndoLocks
import SQLumDash.Commit.CommitView
import SQLumDash.Savepoint.StatementEnds
import SQLumDash.Savepoint.RootPages
import SQLumDash.Savepoint.FailedCreate
import SQLumDash.Savepoint.Snapshots
import SQLumDash.Cleaner.CleanerSpec
import SQLumDash.Psm.MakeRecord
import SQLumDash.Psm.RecordLocks
import SQLumDash.Psm.StoreAnswers
import SQLumDash.Change.Counts
import SQLumDash.Change.RowidDelete
import SQLumDash.Btree.Kinds
import SQLumDash.Trans.Isolation
import SQLumDash.Trans.PrimaryKeys
import SQLumDash.Trans.UniqueKeys
import SQLumDash.Trans.FreshRowid
import SQLumDash.Trans.CallRefinement
import SQLumDash.Scan.MachineScan
import SQLumDash.Scan.PointLookup
import SQLumDash.Scan.ForwardScan
import SQLumDash.Scan.BackwardScan
import SQLumDash.Scan.IndexPrefix
import SQLumDash.Func.Pad
