import CorReactor.Transition
import CorReactor.Blocks
import CorReactor.ByteArray
import CorReactor.ByteArrayTyped
import CorReactor.ByteArrayInvariant
import CorReactor.ByteArrayCalls
import CorReactor.ByteArrayCapacity
import CorReactor.ByteArrayFlat
import CorReactor.OrderedSet
import CorReactor.Timer
import CorReactor.TimerInvariant
import CorReactor.TimerStore
import CorReactor.TimerHistory
import CorReactor.TimerDeadline
import CorReactor.Fiber
import CorReactor.IOManager
import CorReactor.IOManagerEffect
import CorReactor.IOManagerRegistry
import CorReactor.IOManagerDelivery
import CorReactor.Scheduler
import CorReactor.SchedulerRules
import CorReactor.SchedulerQueue
import CorReactor.SchedulerFibers
import CorReactor.SchedulerWake
import CorReactor.IOManagerKernel
import CorReactor.TimerNotify
import CorReactor.IOManagerPending
import CorReactor.SchedulerTasks
import CorReactor.SchedulerCounters
import CorReactor.SchedulerRecycle
import CorReactor.Reactor
import CorReactor.ReactorShutdown
import CorReactor.ByteArrayCodec
import CorReactor.ByteArrayStream
import CorReactor.ByteArrayString
import CorReactor.ByteArrayFile
import CorReactor.FdManager
import CorReactor.FdManagerTable
import CorReactor.LookupInsert
import CorReactor.FdManagerGet
import CorReactor.FdEntries
import CorReactor.FdFlags
import CorReactor.HookIo
import CorReactor.HookIoReuse
import CorReactor.HookConnect
import CorReactor.HookConnectResult
import CorReactor.Config
import CorReactor.ConfigNames
import CorReactor.ConfigListeners
import CorReactor.ConfigCreate
import CorReactor.Http11Grammar
import CorReactor.RagelRuns
import CorReactor.RagelWords
import CorReactor.HttpParser
import CorReactor.RagelCues
import CorReactor.HttpFragments
import CorReactor.RagelParses
import CorReactor.Http11Parses
import CorReactor.HttpTraces
import CorReactor.HttpRoundTrip
import CorReactor.Socket
import CorReactor.SocketAddresses
import CorReactor.TimerExpiry
import CorReactor.ByteArrayGather
import CorReactor.ByteArrayPositional
import CorReactor.ByteArrayScatter
import CorReactor.IOManagerIdle
import CorReactor.TimerResults
import CorReactor.ByteArrayDecode
import CorReactor.ByteArrayTruncated
import CorReactor.ByteArrayVarint
import CorReactor.HttpMethods
import CorReactor.HttpFraming
import CorReactor.HttpMaps
import CorReactor.IPAddress
import CorReactor.IPAddressSubnets
import CorReactor.IPAddressText
import CorReactor.IPAddressTextExpand
import CorReactor.Http11Relaxed
import CorReactor.RagelFinish
import CorReactor.HttpParserMemory
import CorReactor.HttpClientGrammar
import CorReactor.HttpClientParser
import CorReactor.HttpConsumed
import CorReactor.AddressLookup
import CorReactor.ByteArrayZigzag
import CorReactor.EvaluateExpression
import CorReactor.FSUtil
import CorReactor.HookSleep
import CorReactor.TcpServer
import CorReactor.HookTimeouts
import CorReactor.ConfigReload
import CorReactor.DescriptorIndices
import CorReactor.ReactorDrain
import CorReactor.ScopedLock
import CorReactor.ThreadStart
import CorReactor.FiberSwitch
import CorReactor.RagelEndings
import CorReactor.HttpClientParses
import CorReactor.HttpClientTraces
import CorReactor.HttpResponseTrip
import CorReactor.ConfigCasts
import CorReactor.FSUtilListing
import CorReactor.Env
import CorReactor.TcpServerAccept
import CorReactor.ConfigLifetimes
