import Shipstern.Lib.Eviction
import Shipstern.Lib.Fallible
import Shipstern.Lib.Log
import Shipstern.Lib.Machine
import Shipstern.Lib.Maxima
import Shipstern.Lib.OrderedMap
import Shipstern.Lib.Radix
import Shipstern.Lib.Retry
import Shipstern.Lib.Segment
import Shipstern.Lib.Shuffle
import Shipstern.Lib.Traversal
import Shipstern.Core.Instruction
import Shipstern.Core.Base58
import Shipstern.Core.LogMessages
import Shipstern.Core.Build
import Shipstern.Core.InstructionTree
import Shipstern.Core.Paths
import Shipstern.Core.LogAttribution
import Shipstern.Core.Prefilter
import Shipstern.Core.Subscription
import Shipstern.Runtime.InstructionPipeline
import Shipstern.Runtime.Builder
import Shipstern.Runtime.Buffer
import Shipstern.Runtime.Dispatch
import Shipstern.Runtime.Handle
import Shipstern.Runtime.FilterUpdates
import Shipstern.Preconf.Framer
import Shipstern.Preconf.Effect
import Shipstern.Preconf.Indexes
import Shipstern.BlockCoordinator.Types
import Shipstern.BlockCoordinator.Buffer
import Shipstern.BlockCoordinator.State
import Shipstern.BlockCoordinator.Event
import Shipstern.BlockCoordinator.Drain
import Shipstern.BlockCoordinator.Run
import Shipstern.BlockCoordinator.Order
import Shipstern.BlockCoordinator.HeadOfLine
import Shipstern.BlockCoordinator.Discard
import Shipstern.BlockCoordinator.Chain
import Shipstern.BlockCoordinator.History
import Shipstern.BlockCoordinator.Gates
import Shipstern.BlockCoordinator.Completeness
import Shipstern.BlockCoordinator.Idempotence
import Shipstern.Kafka.Record
import Shipstern.Kafka.Handler
import Shipstern.Kafka.Messages
import Shipstern.Kafka.Checkpoint
import Shipstern.Kafka.Producer
import Shipstern.Kafka.SlotSink
import Shipstern.Kafka.Passthrough
import Shipstern.Kafka.WireFormat
import Shipstern.Kafka.CleanWrites
import Shipstern.Kafka.CheckpointOrder
import Shipstern.Codegen.LogEvents
import Shipstern.Lib.Hex
import Shipstern.Codama.Nodes
import Shipstern.Anchor.Items
import Shipstern.Codegen.Discriminator
import Shipstern.Codegen.Dispatch
import Shipstern.Lib.Grouping
import Shipstern.Codegen.Unambiguous
import Shipstern.Codegen.EventReports
import Shipstern.Lib.Surplus
import Shipstern.Codegen.EventMerge
import Shipstern.Codegen.Envelope
import Shipstern.Lib.StableSort
import Shipstern.Codegen.EnvelopeMatching
import Shipstern.Token.Accounts
import Shipstern.Token.TransferFee
import Shipstern.Codegen.AccountFields
import Shipstern.Lib.Budget
import Shipstern.Anchor.Json
import Shipstern.Anchor.Types
import Shipstern.Anchor.IdlType
import Shipstern.Anchor.Expansion
import Shipstern.Anchor.Renderable
import Shipstern.Anchor.AliasChains
import Shipstern.Anchor.FixedSizes
import Shipstern.Lib.Worklist
import Shipstern.Anchor.Layout
import Shipstern.Anchor.Shapes
import Shipstern.Anchor.LayoutRuns
import Shipstern.Anchor.UnknownLayouts
import Shipstern.Anchor.FreeNames
import Shipstern.Anchor.Padding
import Shipstern.Anchor.ExactPadding
import Shipstern.Lib.Wire
import Shipstern.Lib.Chains
import Shipstern.Lib.Measured
import Shipstern.Lib.PrefixCode
import Shipstern.Lib.Leb128
import Shipstern.Lib.Dropped
import Shipstern.Lib.TaggedCode
import Shipstern.Lib.ByteReader
import Shipstern.Codama.Encoding
import Shipstern.Codegen.Ir
import Shipstern.Codegen.Materialize
import Shipstern.Codegen.AliasMaterialization
import Shipstern.Lib.Stateful
import Shipstern.Codegen.SchemaBuild
import Shipstern.Codegen.ProtoSchema
import Shipstern.Codegen.ProstImpls
import Shipstern.Codegen.SchemaEnds
import Shipstern.Codegen.BorshTags
import Shipstern.Lib.Firsts
import Shipstern.Codegen.SchemaGrowth
import Shipstern.Codegen.SchemaInvariants
import Shipstern.Codegen.SchemaAgreement
import Shipstern.Core.PrefilterBuilder
import Shipstern.Runtime.FilterPipeline
import Shipstern.Core.MergeLaws
import Shipstern.Core.Cuckoo
import Shipstern.Core.PartialPaths
import Shipstern.Core.LogRanges
import Shipstern.Core.LogSplit
import Shipstern.Lib.Window
import Shipstern.Preconf.Reconnect
import Shipstern.Codegen.SchemaMessages
import Shipstern.Codegen.SchemaImpls
import Shipstern.Codegen.SchemaModules
import Shipstern.Codegen.SchemaFit
import Shipstern.Preconf.Routing
import Shipstern.Codegen.LinkScan
import Shipstern.Codegen.SchemaReferences
import Shipstern.Token.BatchParser
import Shipstern.Token.BatchNesting
import Shipstern.Codegen.BorshReader
import Shipstern.Codegen.OptionCodecs
import Shipstern.Codegen.SizePrefixes
import Shipstern.Codegen.SizePrefixed
import Shipstern.Lib.TaggedFields
import Shipstern.Codegen.Prost
import Shipstern.Codegen.MessageCodecs
import Shipstern.Codegen.FieldCodecs
import Shipstern.Codegen.SchemaVersions
import Shipstern.Codegen.VersionedCodecs
import Shipstern.Codegen.ProstWire
import Shipstern.Codegen.CodecRoundTrip
import Shipstern.Codegen.CodecPanics
import Shipstern.Codegen.CodecLevels
import Shipstern.Codegen.SchemaCrate
import Shipstern.Codegen.SchemaEvolution
import Shipstern.Anchor.PassWalks
import Shipstern.Anchor.PassesWire
import Shipstern.Anchor.PassStages
