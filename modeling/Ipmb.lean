import Ipmb.Support.LittleEndian
import Ipmb.Support.Cursor
import Ipmb.Support.Fallible
import Ipmb.Support.BoundedStack
import Ipmb.Support.Numeral
import Ipmb.Support.Patch
import Ipmb.Support.Heap
import Ipmb.Support.Keyed
import Ipmb.Support.Buffer
import Ipmb.Support.RunLength
import Ipmb.Support.FirstMax
import Ipmb.Support.ShiftRegister
import Ipmb.Support.PolynomialRegister
import Ipmb.Support.Occurs
import Ipmb.Support.Logged
import Ipmb.Support.Words
import Ipmb.Support.Base128
import Ipmb.Support.BitFields
import Ipmb.Support.Circular
import Ipmb.Support.Transition
import Ipmb.Support.Accumulate
import Ipmb.Support.Ownership
import Ipmb.Support.Doubling
import Ipmb.Types
import Ipmb.Util.Endian
import Ipmb.Util.ByteRead
import Ipmb.Util.Checksum
import Ipmb.Util.ChecksumBurst
import Ipmb.Util.CrcTable
import Ipmb.Util.ChecksumPolynomial
import Ipmb.Util.Access
import Ipmb.Util.IntArith
import Ipmb.Util.Varint
import Ipmb.Util.OwnedArray
import Ipmb.Util.GrownArray
import Ipmb.Codec.RleCodec
import Ipmb.Codec.RlePairs
import Ipmb.Codec.RleRoundTrip
import Ipmb.Codec.DeltaCodec
import Ipmb.Codec.DeltaRecords
import Ipmb.Codec.DeltaRoundTrip
import Ipmb.Codec.DeltaArithmetic
import Ipmb.Codec.Truncation
import Ipmb.Codec.Bitstream
import Ipmb.Protocol.FrameReader
import Ipmb.Protocol.Container
import Ipmb.Protocol.TamperDetection
import Ipmb.Protocol.TransportLayer
import Ipmb.Protocol.Reassembly
import Ipmb.Protocol.FragmentBounds
import Ipmb.Protocol.Overlaps
import Ipmb.Protocol.FieldDecoder
import Ipmb.Protocol.RegisterMap
import Ipmb.Protocol.WellFormedMap
import Ipmb.Routing.RuleLexer
import Ipmb.Routing.RuleWords
import Ipmb.Routing.LexerScan
import Ipmb.Routing.RuleParser
import Ipmb.Routing.IntLiteral
import Ipmb.Routing.RuleGrammar
import Ipmb.Routing.RuleText
import Ipmb.Routing.Decimal
import Ipmb.Routing.RuleCompiler
import Ipmb.Routing.RouteVm
import Ipmb.Routing.StackMachine
import Ipmb.Routing.VmAccess
import Ipmb.Routing.VmSafety
import Ipmb.Routing.Simulation
import Ipmb.Routing.MachineRuns
import Ipmb.Routing.InsertedAction
import Ipmb.Routing.StackLimit
import Ipmb.Routing.Compiled
import Ipmb.Routing.Condition
import Ipmb.Routing.FieldDependence
import Ipmb.Routing.InstructionCount
import Ipmb.Routing.RouteRule
import Ipmb.Routing.RuleRoundTrip
import Ipmb.Routing.RuleExplain
import Ipmb.Routing.MatchTable
import Ipmb.Routing.MatchSelection
import Ipmb.Routing.ScoreArithmetic
import Ipmb.Routing.TextTable
import Ipmb.Session.RingWindow
import Ipmb.Session.RingRefinement
import Ipmb.Session.RingRollback
import Ipmb.Session.RingOwnership
import Ipmb.Session.RingLifetime
import Ipmb.Session.RingOrder
import Ipmb.Session.SnapshotRuns
import Ipmb.Session.CheckpointStore
import Ipmb.Session.CheckpointInvariant
import Ipmb.Session.CheckpointCalls
import Ipmb.Session.CheckpointMigrate
import Ipmb.Session.CheckpointRuns
import Ipmb.Session.CheckpointMemory
import Ipmb.Session.CheckpointAccumulation
import Ipmb.Session.CheckpointRefinement
import Ipmb.Session.Journal
import Ipmb.Session.JournalFormat
import Ipmb.Session.SessionTracker
import Ipmb.Session.TrackerRefinement
import Ipmb.Session.SessionHistory
import Ipmb.Session.TrackerRuns
import Ipmb.Replay.EventLog
import Ipmb.Replay.ReplayEngine
import Ipmb.Replay.Ledger
import Ipmb.Replay.ReplayByValue
import Ipmb.Replay.LogLiveness
import Ipmb.Replay.ReplayFailures
import Ipmb.Replay.ReplayBytes
import Ipmb.Telemetry.Extractor
import Ipmb.Telemetry.TelemetryFormat
import Ipmb.Telemetry.TelemetryNames
import Ipmb.Telemetry.Histogram
import Ipmb.Telemetry.HistogramBins
import Ipmb.Telemetry.SampleBuffer
import Ipmb.Security
import Ipmb.FailedDecodes
import Ipmb.DecoderMemory
import Ipmb.DecoderRuns
import Ipmb.FullPipeline
import Ipmb.Storage
import Ipmb.Apps.Route
import Ipmb.Apps.Inspect
import Ipmb.Apps.Parse
import Ipmb.Containers
import Ipmb.ContainerMemory
import Ipmb.ContainerCapacity
import Ipmb.ContainerRuns
import Ipmb.MatchTableHarness
import Ipmb.AllocationFailure
