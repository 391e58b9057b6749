import FpgaMl.Foundation.MachineInt
import FpgaMl.Foundation.TransitionSystem
import FpgaMl.Foundation.Distribution
import FpgaMl.Foundation.BoundedDeque
import FpgaMl.Foundation.Tally
import FpgaMl.Foundation.SingleServer
import FpgaMl.Foundation.ByteMemory
import FpgaMl.CircArray
import FpgaMl.CircArrayDeque
import FpgaMl.NDRange
import FpgaMl.Carving
import FpgaMl.AlgoSimple
import FpgaMl.AlgoSimpleOptimal
import FpgaMl.Scheduler
import FpgaMl.Accounting
import FpgaMl.FreeList
import FpgaMl.SchedulerTime
import FpgaMl.RouteLog
import FpgaMl.RouteSimple
import FpgaMl.NoLoss
import FpgaMl.RouteCost
import FpgaMl.AlgoSlicing
import FpgaMl.SlicingChoice
import FpgaMl.SlicingQuantum
import FpgaMl.CommandQueue
import FpgaMl.CommandQueueInvariant
import FpgaMl.CommandQueueLaws
import FpgaMl.UnimemDriver
import FpgaMl.UnimemMessages
import FpgaMl.UnimemManager
import FpgaMl.UnimemRoundTrip
import FpgaMl.BufferCommands
import FpgaMl.BufferStore
import FpgaMl.BufferOffsets
import FpgaMl.UnimemCalls
import FpgaMl.Dispatcher
import FpgaMl.NoStall
import FpgaMl.DriverSessions
import FpgaMl.BufferLifetimes
import FpgaMl.EnqueueCalls
import FpgaMl.EventLifetimes
import FpgaMl.EventLeaks
import FpgaMl.SlicingTurns
import FpgaMl.TransferErrors
import FpgaMl.LaunchArithmetic
import FpgaMl.BitstreamManager
import FpgaMl.BitstreamModes
import FpgaMl.BuildCheck
import FpgaMl.ClientObjects
import FpgaMl.LaunchSteps
import FpgaMl.ClientMoves
import FpgaMl.KernelArguments
import FpgaMl.LaunchLifetimes
import FpgaMl.Foundation.FirstBest
import FpgaMl.SlicingSelection
import FpgaMl.AcceptedRanges
import FpgaMl.SchedulerIds
import FpgaMl.BuildLog
import FpgaMl.CircArrayErrors
import FpgaMl.Foundation.AsciiText
import FpgaMl.XmlListing
import FpgaMl.RefusedCalls
import FpgaMl.FreeTimer
import FpgaMl.Foundation.Loops
import FpgaMl.Foundation.Histories
import FpgaMl.Foundation.Rotation
import FpgaMl.Foundation.InOrderExecutor
import FpgaMl.CircArrayCopy
import FpgaMl.SearchCalls
import FpgaMl.ReleasedQueues
import FpgaMl.Foundation.Monitor
import FpgaMl.EventMonitor
import FpgaMl.Foundation.Numerals
import FpgaMl.NumberTexts
import FpgaMl.BitstreamFormat
import FpgaMl.StartUp
import FpgaMl.LibraryQueues
import FpgaMl.LibraryExecutors
import FpgaMl.LibraryRanges
import FpgaMl.TransferOrder
import FpgaMl.FreeRoom
import FpgaMl.Foundation.Calendar
import FpgaMl.Completion
import FpgaMl.LeastCompletion
import FpgaMl.EventLoop
import FpgaMl.Quiescence
