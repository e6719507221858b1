import OnnxSim.Cache.Bank
import OnnxSim.Cache.Banks
import OnnxSim.Cache.BlockSized
import OnnxSim.Cache.Counts
import OnnxSim.Cache.Coverage
import OnnxSim.Cache.Depth
import OnnxSim.Cache.Dirty
import OnnxSim.Cache.Fetch
import OnnxSim.Cache.Headroom
import OnnxSim.Cache.HitPath
import OnnxSim.Cache.Home
import OnnxSim.Cache.Lines
import OnnxSim.Cache.Pools
import OnnxSim.Cache.Replacement
import OnnxSim.Cache.Requests
import OnnxSim.Cache.Run
import OnnxSim.Cache.Set
import OnnxSim.Cache.Slots
import OnnxSim.Common
import OnnxSim.Core
import OnnxSim.Core.AddTree
import OnnxSim.Core.Answers
import OnnxSim.Core.Bubbles
import OnnxSim.Core.Continuity
import OnnxSim.Core.Effects
import OnnxSim.Core.Execution
import OnnxSim.Core.Hands
import OnnxSim.Core.Held
import OnnxSim.Core.Isolation
import OnnxSim.Core.Memory
import OnnxSim.Core.Outgoing
import OnnxSim.Core.Pipeline
import OnnxSim.Core.Results
import OnnxSim.Core.Retire
import OnnxSim.Core.Run
import OnnxSim.Core.Shelter
import OnnxSim.Core.Stages
import OnnxSim.Core.Timing
import OnnxSim.Core.Traffic
import OnnxSim.Dram
import OnnxSim.Dram.LocalAddress
import OnnxSim.Dram.Simple
import OnnxSim.Interconnect
import OnnxSim.Interconnect.Progress
import OnnxSim.Interconnect.Run
import OnnxSim.Language.Batch
import OnnxSim.Language.Cache
import OnnxSim.Language.CacheMemory
import OnnxSim.Language.Lifecycle
import OnnxSim.Language.Scheduler
import OnnxSim.Language.Simulator
import OnnxSim.Lib.Blocks
import OnnxSim.Lib.Chunks
import OnnxSim.Lib.Clocks
import OnnxSim.Lib.Counters
import OnnxSim.Lib.Custody
import OnnxSim.Lib.Fifo
import OnnxSim.Lib.Grid
import OnnxSim.Lib.Loops
import OnnxSim.Lib.Machine
import OnnxSim.Lib.Queues
import OnnxSim.Lib.Ragged
import OnnxSim.Lib.Recent
import OnnxSim.Lib.ReductionTree
import OnnxSim.Lib.RoundRobin
import OnnxSim.Lib.Scoreboard
import OnnxSim.Lib.SearchTree
import OnnxSim.Lib.Spans
import OnnxSim.Lib.Strips
import OnnxSim.Lib.SwapRemove
import OnnxSim.Lib.Text
import OnnxSim.Model
import OnnxSim.Model.Build
import OnnxSim.Model.Built
import OnnxSim.Model.LanguageGraph
import OnnxSim.Model.Numbering
import OnnxSim.Model.Once
import OnnxSim.Model.Regressive
import OnnxSim.Model.Run
import OnnxSim.Model.TensorMemory
import OnnxSim.Model.Wiring
import OnnxSim.Operations.Access
import OnnxSim.Operations.Attention
import OnnxSim.Operations.AttentionFit
import OnnxSim.Operations.AttentionInstructions
import OnnxSim.Operations.AttentionLoads
import OnnxSim.Operations.AttentionStores
import OnnxSim.Operations.AttentionTiles
import OnnxSim.Operations.Basic
import OnnxSim.Operations.BinaryOp
import OnnxSim.Operations.ConvChunks
import OnnxSim.Operations.ConvCover
import OnnxSim.Operations.ConvFit
import OnnxSim.Operations.ConvLoads
import OnnxSim.Operations.ConvMapping
import OnnxSim.Operations.ConvOutput
import OnnxSim.Operations.ConvStores
import OnnxSim.Operations.ConvTiles
import OnnxSim.Operations.ConvWS
import OnnxSim.Operations.Elementwise
import OnnxSim.Operations.ElementwiseOps
import OnnxSim.Operations.GemmBlocks
import OnnxSim.Operations.GemmChunks
import OnnxSim.Operations.GemmCover
import OnnxSim.Operations.GemmFit
import OnnxSim.Operations.GemmOrder
import OnnxSim.Operations.GemmProgram
import OnnxSim.Operations.GemmTiles
import OnnxSim.Operations.GemmWS
import OnnxSim.Operations.KVCacheConcat
import OnnxSim.Operations.KVCacheRows
import OnnxSim.Operations.MambaBlock
import OnnxSim.Operations.MambaProgram
import OnnxSim.Operations.Mapping
import OnnxSim.Operations.MappingLine
import OnnxSim.Operations.MappingOrder
import OnnxSim.Operations.MappingTable
import OnnxSim.Operations.OperandBounds
import OnnxSim.Operations.Program
import OnnxSim.Operations.ShapeOp
import OnnxSim.Operations.TokenOps
import OnnxSim.Operations.UnaryOp
import OnnxSim.Ramulator.Choice
import OnnxSim.Ramulator.Controller
import OnnxSim.Ramulator.Custody
import OnnxSim.Ramulator.Ddr4
import OnnxSim.Ramulator.Dram
import OnnxSim.Ramulator.Fits
import OnnxSim.Ramulator.Hbm
import OnnxSim.Ramulator.Invariant
import OnnxSim.Ramulator.Mapping
import OnnxSim.Ramulator.Ports
import OnnxSim.Ramulator.Progress
import OnnxSim.Ramulator.Reads
import OnnxSim.Ramulator.Rows
import OnnxSim.Ramulator.Run
import OnnxSim.Ramulator.Serving
import OnnxSim.Ramulator.Table
import OnnxSim.Ramulator.Timing
import OnnxSim.Ramulator.Trace
import OnnxSim.Scheduler
import OnnxSim.Scheduler.Accounts
import OnnxSim.Scheduler.Barrier
import OnnxSim.Scheduler.Board
import OnnxSim.Scheduler.Chains
import OnnxSim.Scheduler.Charges
import OnnxSim.Scheduler.Departures
import OnnxSim.Scheduler.Dependencies
import OnnxSim.Scheduler.HalfDependencies
import OnnxSim.Scheduler.HalfSplit
import OnnxSim.Scheduler.Loads
import OnnxSim.Scheduler.Lossless
import OnnxSim.Scheduler.Partitions
import OnnxSim.Scheduler.Reports
import OnnxSim.Scheduler.Run
import OnnxSim.Scheduler.Tiles
import OnnxSim.Scheduler.Wedge
import OnnxSim.Simulator
import OnnxSim.Simulator.Banked
import OnnxSim.Simulator.ClockDomains
import OnnxSim.Simulator.Conservation
import OnnxSim.Simulator.Cycle
import OnnxSim.Simulator.Dispatch
import OnnxSim.Simulator.Dispatcher
import OnnxSim.Simulator.Executed
import OnnxSim.Simulator.Parts
import OnnxSim.Simulator.Pushes
import OnnxSim.Simulator.Registered
import OnnxSim.Simulator.Routes
import OnnxSim.Sram
import OnnxSim.Sram.Bookkeeping
