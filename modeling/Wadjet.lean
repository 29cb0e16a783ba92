import Wadjet.Auth.DmlPolicy.Theorems
import Wadjet.Coordinator.PartialMerge.Theorems
import Wadjet.Coordinator.ProbeSplit.Theorems
import Wadjet.Coordinator.TaskRetry
import Wadjet.Engine.Batch.DecimalAvg
import Wadjet.Engine.Batch.DecimalResult
import Wadjet.Engine.Exec.GroupKey.Deferred
import Wadjet.Engine.Exec.GroupKey.Order
import Wadjet.Engine.Exec.GroupKey.Theorems
import Wadjet.Engine.Exec.JoinNotEqual
import Wadjet.Engine.Exec.SortMergeJoin.Theorems
import Wadjet.Engine.Scan.BloomPrune
import Wadjet.Engine.Scan.FloatPrune
import Wadjet.Engine.IntLiteral
import Wadjet.Engine.LikeEscape
import Wadjet.Logical.CountDistinct.Theorems
import Wadjet.Logical.JoinPushdown.Theorems
import Wadjet.Logical.OrFactor.Theorems
import Wadjet.Logical.PartitionPruning.Theorems
import Wadjet.Logical.ScalarDecorrelate.Theorems
import Wadjet.Physical.JoinPruning.Theorems
import Wadjet.Physical.ScanCache.Theorems
import Wadjet.Physical.SetOps
import Wadjet.Physical.TableScan.Theorems
import Wadjet.Storage.Catalog.CommitOrder
import Wadjet.Storage.Catalog.DdlOrder
import Wadjet.Storage.Catalog.RetireSafe
import Wadjet.Storage.Catalog.Snapshot
import Wadjet.Storage.Parquet.DecimalValueExact
import Wadjet.Storage.Parquet.DeltaBytesExact
import Wadjet.Storage.Parquet.DeltaExact
import Wadjet.Storage.Parquet.LevelPage
import Wadjet.Storage.Parquet.RleCensus
import Wadjet.Worker.ManifestStream
