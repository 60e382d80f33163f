import LSMIO.AdiosTransport
import LSMIO.Aggregation
import LSMIO.BackendPrefixes
import LSMIO.Backpressure
import LSMIO.BarrierEffect
import LSMIO.BarrierFailure
import LSMIO.BatchAlone
import LSMIO.BatchLimits
import LSMIO.BatchPrefix
import LSMIO.ClientWaits
import LSMIO.CloserShutdown
import LSMIO.CloseWakeUp
import LSMIO.CollectiveIsolation
import LSMIO.CollectiveProgress
import LSMIO.CrashDurability
import LSMIO.CrashRecovery
import LSMIO.DataAndMetadata
import LSMIO.DeferredExecution
import LSMIO.FlushInvisible
import LSMIO.FreshIds
import LSMIO.GetMoments
import LSMIO.ManagerCounters
import LSMIO.MetadataRanks
import LSMIO.OpaqueValues
import LSMIO.OversizedEntries
import LSMIO.PluginCheckpoint
import LSMIO.PluginDoubles
import LSMIO.PoolOrder
import LSMIO.PoolShutdown
import LSMIO.PublishOrder
import LSMIO.ReadYourWrites
import LSMIO.RecordScan
import LSMIO.Singletons
import LSMIO.StoreProgress
import LSMIO.StrandedAcquire
import LSMIO.StreamChunks
import LSMIO.TableReads
import LSMIO.VariableInfo
