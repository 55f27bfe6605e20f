import Clink.Ports.MultiInputAlignmentOrder
import Clink.Ports.MultiInputAlignmentProgress
import Clink.Ports.MultiInputAlignmentWatermark
import Clink.Ports.UnionRebind
import Clink.Ports.CheckpointAckLedger
import Clink.Ports.InDoubtResolutionMarkers
import Clink.Ports.CheckpointCoordinator
import Clink.Ports.RestartLayout
import Clink.Ports.ChangelogScaleDown
import Clink.Ports.CoalescingBackend
import Clink.Ports.RemoteReadCoherence
import Clink.Ports.TumblingCheckpoint
import Clink.Ports.EquiJoinNet
import Clink.Ports.PreparedRecovery
import Clink.Ports.SemiAntiJoinNullAware
import Clink.Ports.SetOp
import Clink.Ports.Timers
import Clink.Ports.TopNPerKeyNet
import Clink.Ports.CepEventTimeOrder
import Clink.Ports.CepWithin
import Clink.Ports.CheckpointCompletion
import Clink.Ports.WindowRowExact
import Clink.Ports.CommitConfirmation
import Clink.Ports.ExpiringList
import Clink.Ports.OutboundFrames
import Clink.Ports.RestoreRecord
import Clink.Ports.WatermarkAssigner
import Clink.Ports.ChangelogLogIndex
import Clink.Ports.PublishedCheckpoints
import Clink.Ports.ShardedInMemoryStateBackend
import Clink.Ports.ChangelogNetSink
import Clink.Ports.SlidingLateRouting
import Clink.Ports.StateTtlRetention
import Clink.Ports.WorkerRetention
import Clink.Ports.ChangelogProducers
import Clink.Ports.CodecSafety
import Clink.Ports.ControlMessages
import Clink.Ports.CreditFlow
import Clink.Ports.CutoverPlan
import Clink.Ports.DerivedCodec
import Clink.Ports.PartitionedListRestore
import Clink.Ports.SqlSessionClusters
import Clink.Ports.AsyncLookup
import Clink.Ports.BlockingExchange
import Clink.Ports.CheckpointChecksum
import Clink.Ports.CleanupProgress
import Clink.Ports.LikeMatch
import Clink.Ports.MemoryBudget
import Clink.Ports.RescaleCoordinator
import Clink.Ports.RestoreMigration
import Clink.Ports.ShardedCheckpointStore
import Clink.Ports.Timestamps
import Clink.Ports.ValueExpr
import Clink.Ports.JsonPredicateSql
import Clink.Ports.JsonPredicateTrees
