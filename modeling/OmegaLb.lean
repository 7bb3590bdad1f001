import OmegaLb.RingRoute
import OmegaLb.HealthChecker
import OmegaLb.MaglevRing
import OmegaLb.WalSequence
import OmegaLb.WalCrash
import OmegaLb.WalTornTail
import OmegaLb.FollowerConvergence
import OmegaLb.Failover
import OmegaLb.LeaderLease
import OmegaLb.FollowerWatch
import OmegaLb.SnapshotCut
import OmegaLb.CbfSafety
import OmegaLb.OodGuard
import OmegaLb.ShadowMode
import OmegaLb.StateLayout
import OmegaLb.RingRepresentation
import OmegaLb.VnodeFloor
import OmegaLb.BoundedLoad
import OmegaLb.TieOrder
import OmegaLb.InFlight
import OmegaLb.RecoveryCallback
import OmegaLb.SlowStartRace
import OmegaLb.SlowStartRamp
import OmegaLb.Reconcile
import OmegaLb.StatefulVnodes
import OmegaLb.SessionPins
import OmegaLb.LazyExpiry
import OmegaLb.CircuitDwell
import OmegaLb.SyncedRing
import OmegaLb.HalfOpenProbe
import OmegaLb.InstanceZero
import OmegaLb.CollectorSteps
import OmegaLb.OscillationGate
import OmegaLb.ModelOutput
import OmegaLb.InferProtocol
import OmegaLb.ManualMode
import OmegaLb.ClientHello
import OmegaLb.SniOverrun
import OmegaLb.StoreFrame
import OmegaLb.FilterManager
import OmegaLb.RouteManager
import OmegaLb.StructLayout
import OmegaLb.EventFormat
import OmegaLb.NginxWriter
import OmegaLb.StoreRace
import OmegaLb.HaRing
import OmegaLb.ProxyState
import OmegaLb.ProxyHandle
import OmegaLb.ProxyRetry
import OmegaLb.ProxyAccounting
import OmegaLb.ProxyReplies
import OmegaLb.ProxyTokens
import OmegaLb.AdminHandle
import OmegaLb.AdminKill
import OmegaLb.GoLoop
import OmegaLb.SniSafety
import OmegaLb.Murmur3
import OmegaLb.MurmurAgreement
import OmegaLb.FirstLeast
import OmegaLb.AdjustMoves
import OmegaLb.SlowStartProgress
import OmegaLb.SimplexNearest
import OmegaLb.SimplexDrift
import OmegaLb.CbfRuntime
import OmegaLb.PpoProjection
import OmegaLb.CbfShedding
import OmegaLb.CbfConverged
import OmegaLb.KanInference
import OmegaLb.AdminErrors
import OmegaLb.KanMonotone
import OmegaLb.FallbackAgreement
import OmegaLb.HistoryFeatures
import OmegaLb.HaRingRuns
import OmegaLb.TokenBucketWindow
import OmegaLb.ProactiveController
import OmegaLb.RateLimiter
import OmegaLb.BoundedRing
import OmegaLb.FlightRecorder
import OmegaLb.Admission
import OmegaLb.CardinalityBudget
import OmegaLb.LeftmostFirst
import OmegaLb.PathAggregation
import OmegaLb.CoxDeBoor
import OmegaLb.KanLayer
import OmegaLb.Discounting
import OmegaLb.RolloutBuffer
import OmegaLb.A3CWorker
import OmegaLb.A3CGradients
import OmegaLb.KernelBisect
import OmegaLb.Deviations
import OmegaLb.OodStatistics
import OmegaLb.BackendAggregates
import OmegaLb.LeastSquares
import OmegaLb.TrendSlope
import OmegaLb.Numerals
import OmegaLb.DataPlane
import OmegaLb.ChainOrder
import OmegaLb.ChainCounts
import OmegaLb.RouteBlind
import OmegaLb.EventPipeline
import OmegaLb.AdminServer
import OmegaLb.AdminOrders
import OmegaLb.RingReport
import OmegaLb.PrunedWindow
import OmegaLb.MetricsWindows
import OmegaLb.SafetyMonitor
import OmegaLb.ControlLoop
import OmegaLb.FixedWindow
import OmegaLb.AdminGate
import OmegaLb.SimEnv
import OmegaLb.PpoTraining
import OmegaLb.DqnTraining
import OmegaLb.KernelGate
import OmegaLb.PinnedMaps
import OmegaLb.RegistryLedger
import OmegaLb.ServedRow
