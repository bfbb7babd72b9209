import Kairyu.RadixRoom
import Kairyu.ChatStream
import Kairyu.ChatStreamRuns
import Kairyu.ToolStreamRuns
import Kairyu.ResponseRuns
import Kairyu.SloAdmission
import Kairyu.TenantGateway
import Kairyu.KvEpochs
import Kairyu.StopStream
import Kairyu.WireRuns
import Kairyu.FailoverRuns
import Kairyu.KvTierRuns
import Kairyu.TieredCacheRuns
import Kairyu.AsyncRequestRuns
import Kairyu.PostgresRequestRuns
import Kairyu.RunnerFailureGuardSnapshots
import Kairyu.PrestageRuns
import Kairyu.WaitingQueueRuns
import Kairyu.ReplicaPool
import Kairyu.ContinuationDedup
import Kairyu.ConductorUsage
import Kairyu.DecodePageTable
import Kairyu.SamplingSeeds
import Kairyu.ServerSentEvents
