import YHsys.Compiler.Analyzer
import YHsys.Compiler.Builder
import YHsys.Compiler.Codegen
import YHsys.Compiler.CodegenLive
import YHsys.Compiler.CompoundAssign
import YHsys.Compiler.DeadStores
import YHsys.Compiler.EmitFacts
import YHsys.Compiler.Execution
import YHsys.Compiler.FallThrough
import YHsys.Compiler.FloatDiv
import YHsys.Compiler.FlowPass
import YHsys.Compiler.Fold32
import YHsys.Compiler.FoldExact
import YHsys.Compiler.FoldMachine
import YHsys.Compiler.FoldSpec
import YHsys.Compiler.Frame
import YHsys.Compiler.FrameAccess
import YHsys.Compiler.Initialised
import YHsys.Compiler.Ir
import YHsys.Compiler.KnownConsts
import YHsys.Compiler.LinearScan
import YHsys.Compiler.Lowering
import YHsys.Compiler.OptimizeSound
import YHsys.Compiler.Optimizer
import YHsys.Compiler.OptimizerEnds
import YHsys.Compiler.OptimizerLoops
import YHsys.Compiler.PassOutcomes
import YHsys.Compiler.RegAlloc
import YHsys.Compiler.RingFold
import YHsys.Compiler.Rv32
import YHsys.Compiler.ScanEnv
import YHsys.Compiler.ScanPass
import YHsys.Compiler.Semantics
import YHsys.Compiler.Simplify
import YHsys.Compiler.SimplifyCalls
import YHsys.Compiler.Syntax
import YHsys.Compiler.Tokenizer
import YHsys.Compiler.WholeProgram
import YHsys.Cpu.Btb
import YHsys.Cpu.CacheLine
import YHsys.Cpu.Icache
import YHsys.Cpu.MemOps
import YHsys.Cpu.Mmu
import YHsys.Cpu.MmuHistory
import YHsys.Cpu.MmuKernel
import YHsys.Cpu.Rv32im
import YHsys.Cpu.Stages
import YHsys.Cpu.Trap
import YHsys.Kernel.AddrSpace
import YHsys.Kernel.CowFork
import YHsys.Kernel.Eager
import YHsys.Kernel.Exec
import YHsys.Kernel.ExecFail
import YHsys.Kernel.ExecSpec
import YHsys.Kernel.ExecTotal
import YHsys.Kernel.FileInv
import YHsys.Kernel.FileIo
import YHsys.Kernel.FileRuns
import YHsys.Kernel.FileSteps
import YHsys.Kernel.Files
import YHsys.Kernel.ForkAccess
import YHsys.Kernel.ForkFail
import YHsys.Kernel.Kalloc
import YHsys.Kernel.KallocInv
import YHsys.Kernel.KallocRuns
import YHsys.Kernel.Layout
import YHsys.Kernel.LogCrash
import YHsys.Kernel.LogDisk
import YHsys.Kernel.LogOps
import YHsys.Kernel.Memory
import YHsys.Kernel.Mlfq
import YHsys.Kernel.MlfqFair
import YHsys.Kernel.MlfqScan
import YHsys.Kernel.PageMap
import YHsys.Kernel.PageTable
import YHsys.Kernel.Pipe
import YHsys.Kernel.ProcKill
import YHsys.Kernel.ProcLayout
import YHsys.Kernel.ProcRuns
import YHsys.Kernel.ProcSections
import YHsys.Kernel.ProcSleep
import YHsys.Kernel.ProcTable
import YHsys.Kernel.ProcTree
import YHsys.Kernel.RegionList
import YHsys.Kernel.RegionPages
import YHsys.Kernel.Sbrk
import YHsys.Kernel.SemCreate
import YHsys.Kernel.SemInv
import YHsys.Kernel.SemLaws
import YHsys.Kernel.SemRuns
import YHsys.Kernel.Spinlock
import YHsys.Kernel.Supply
import YHsys.Kernel.Timer
import YHsys.Kernel.UserCopy
import YHsys.Kernel.UserMem
import YHsys.Kernel.UserRuns
import YHsys.Kernel.VmFork
import YHsys.Kernel.VmInv
import YHsys.Kernel.VmOps
import YHsys.Kernel.VmRuns
import YHsys.Kernel.VmSpecs
import YHsys.Kernel.VmTeardown
import YHsys.Lib.Behaviour
import YHsys.Lib.BehaviourTrace
import YHsys.Lib.BuddyBlocks
import YHsys.Lib.ExceptBind
import YHsys.Lib.FixedPoint
import YHsys.Lib.FlatCode
import YHsys.Lib.FlatObserve
import YHsys.Lib.FlatReach
import YHsys.Lib.FlatSim
import YHsys.Lib.FlatSteps
import YHsys.Lib.Holders
import YHsys.Lib.Loops
import YHsys.Lib.RingBuffer
import YHsys.Lib.Simulation
import YHsys.Lib.TableSums
import YHsys.Lib.WordInt
import YHsys.User.Div64
