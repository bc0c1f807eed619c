import Stratumind.Collection.HybridExactness
import Stratumind.Collection.WalDeltaForced
import Stratumind.Common.BitpackingOrdered
import Stratumind.Common.TopoSort
import Stratumind.Fusion.DriverTermination
import Stratumind.IdTracker.Reload
import Stratumind.Optimize.Deduplication
import Stratumind.Query.FilterPropagation
import Stratumind.Replica.FacetResponse
import Stratumind.Replica.Update
import Stratumind.Segment.DeliveryExactness
import Stratumind.Segment.FailureRecovery
import Stratumind.Shard.ExactRankFallback
import Stratumind.Sparse.PostingRuns
import Stratumind.Stream.FailureRuns
import Stratumind.Stream.KWayRuns
import Stratumind.Wal.DamagedSegment
import Stratumind.Wal.Durability
import Stratumind.Wal.FailedAppends
import Stratumind.Wal.SerdeWal
