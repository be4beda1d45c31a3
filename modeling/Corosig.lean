import Corosig.Container.HeapOrder
import Corosig.Container.HeapTags
import Corosig.Container.HeapBuffer
import Corosig.Io.FdOps
import Corosig.Io.Sockets
import Corosig.Io.Dns.HostsFile
import Corosig.Io.Dns.Name
import Corosig.Io.Dns.Completion
import Corosig.Io.Dns.ResolveName
import Corosig.Io.Dns.DecoderFailures
import Corosig.Io.Dns.Labels
import Corosig.Io.Dns.EncoderRuns
import Corosig.Io.Dns.RecordTypes
import Corosig.Io.Dns.QuestionRoundTrip
import Corosig.Io.Dns.Validation
import Corosig.Io.Dns.Records
import Corosig.Io.Dns.CacheReclaim
import Corosig.Io.Dns.CacheRollback
import Corosig.Io.Dns.QuestionSize
import Corosig.Io.Dns.ResolveName1
import Corosig.Io.Dns.Senders
import Corosig.Io.Dns.HostsComments
import Corosig.Io.Dns.HostsTail
import Corosig.Reactor.Ready
import Corosig.Reactor.PollEntries
import Corosig.SemaphoreQueue
import Corosig.SemaphoreDrain
import Corosig.Promise
import Corosig.Coro
import Corosig.Container.VectorRuns
import Corosig.Container.VectorRoom
import Corosig.Io.Ipv6Parse
import Corosig.Io.FdReads
import Corosig.Reactor.PollTimeout
import Corosig.Reactor.PollFallback
import Corosig.Reactor.Iterations
import Corosig.Background
import Corosig.Parallel
import Corosig.WithDeadlineFrames
import Corosig.Random
import Corosig.TaskFrames
import Corosig.BlockOn
import Corosig.Io.Dns.CacheArena
import Corosig.Io.Dns.Traffic
import Corosig.Io.Dns.CachingTraffic
import Corosig.Io.Dns.HostsListed
import Corosig.Io.Dns.Listening
import Corosig.Io.Dns.Retries
