import SoroTrail.Ingester.StoredOnce
import SoroTrail.Ingester.Coalescing
import SoroTrail.Ingester.ReorgLimits
import SoroTrail.Ingester.PageAccount
import SoroTrail.Ingester.ReorgRepair
import SoroTrail.Ingester.FalseReorg
import SoroTrail.Ingester.Forgotten
import SoroTrail.Store.PoolBudget
import SoroTrail.Api.Revocation
import SoroTrail.Api.IdempotencyOnce
import SoroTrail.Backfill.SameRows
import SoroTrail.Store.Replace
import SoroTrail.Rpc.Rescan
import SoroTrail.Rpc.Probation
import SoroTrail.Broadcast.Match
import SoroTrail.Api.Backends
import SoroTrail.Webhook.Boundary
import SoroTrail.Ingester.CappedSweep
import SoroTrail.Ingester.CycleCap
import SoroTrail.Ingester.StartOverride
import SoroTrail.Ingester.Backpressure
import SoroTrail.Backfill.Split
import SoroTrail.Backfill.DryRun
import SoroTrail.Backfill.Watermark
import SoroTrail.Horizon.EventIds
import SoroTrail.Replay.Counters
import SoroTrail.Replay.Lock
import SoroTrail.Audit.Verified
import SoroTrail.Api.IdempotencyStores
import SoroTrail.Pruner.Returns
import SoroTrail.Rpc.CircuitBreaker
import SoroTrail.Store.Breaker
import SoroTrail.Store.Codecs
import SoroTrail.Decode.Cache
import SoroTrail.Decode.Integers
import SoroTrail.Ingester.ReorgResult
