import OceanBase.Common.Btree
import OceanBase.Common.QLock
import OceanBase.Common.AckQueue
import OceanBase.UpdateServer.IncSeq
import OceanBase.UpdateServer.WriteCommit
import OceanBase.UpdateServer.MergeTime
import OceanBase.UpdateServer.DirtyRead
import OceanBase.UpdateServer.PrefetchLogBuffer
import OceanBase.UpdateServer.ReplayWorker
import OceanBase.UpdateServer.QueryEngine
import OceanBase.Common.CompactRow
import OceanBase.UpdateServer.AcquireTable
import OceanBase.UpdateServer.SstableRanges
import OceanBase.UpdateServer.SessionCallbacks
import OceanBase.UpdateServer.TransExecutor
import OceanBase.UpdateServer.StatementRows
import OceanBase.CompactSSTable.ScanResult
import OceanBase.Sql.MultipleMergeRows
import OceanBase.Sql.MergeSetRows
import OceanBase.Sql.ReadStrategy
import OceanBase.Sql.MergeGroupBy
import OceanBase.Sql.MergeJoinRows
import OceanBase.Sql.CastRowkeys
import OceanBase.ObMySql.MySqlUtil
import OceanBase.RootServer.SplitRange
import OceanBase.RootServer.TabletLocation
import OceanBase.Common.Mutator
import OceanBase.Common.Number
import OceanBase.Common.ExprObj
import OceanBase.Common.RangeHash
