import FiveAM.Lib.Extents
import FiveAM.Lib.ByteMemory
import FiveAM.Lib.Runs
import FiveAM.Lib.RadixTables
import FiveAM.Heap.HoleList
import FiveAM.Process.TaskTable
import FiveAM.Sched.Policy
import FiveAM.Sched.Mechanism
import FiveAM.Process.Machine
import FiveAM.Process.Signals
import FiveAM.Process.Pipes
import FiveAM.Process.Lifecycle
import FiveAM.Process.Syscalls
import FiveAM.Process.Schedule
import FiveAM.Process.System
import FiveAM.Process.Effects
import FiveAM.Process.TableShape
import FiveAM.Process.PipeEnds
import FiveAM.Process.PipeCounts
import FiveAM.Process.FrameMemory
import FiveAM.Process.KernelStacks
import FiveAM.Process.Resuming
import FiveAM.Process.CallFrames
import FiveAM.Process.TrapFrames
import FiveAM.Process.SignalReturn
import FiveAM.Process.SmallSteps
import FiveAM.Process.Completion
import FiveAM.Process.Activation
import FiveAM.Memory.Entries
import FiveAM.Memory.Frames
import FiveAM.Memory.Replace
import FiveAM.Memory.PageTables
import FiveAM.Memory.Swap
import FiveAM.Memory.Ownership
import FiveAM.Process.SignalFrames
import FiveAM.Lib.ByteRegions
import FiveAM.Fat.Reading
import FiveAM.Fat.Writing
import FiveAM.Lib.LinkedTable
import FiveAM.Fat.Layout
import FiveAM.Fat.Directory
import FiveAM.Fat.Names
import FiveAM.Fat.Tables
import FiveAM.Fat.Files
import FiveAM.Fat.Creating
import FiveAM.Fat.Mkfs
import FiveAM.Lib.Requests
import FiveAM.Fat.Allocating
import FiveAM.Fat.Image
import FiveAM.Fat.Failing
import FiveAM.Fat.Keeping
import FiveAM.Fat.Finding
import FiveAM.Lib.Interleaving
import FiveAM.Memory.Boot
import FiveAM.Memory.Residency
import FiveAM.Lib.SecondChance
import FiveAM.Memory.Policies
import FiveAM.Memory.Choosing
import FiveAM.Memory.Eviction
import FiveAM.Memory.Spaces
import FiveAM.Memory.Teardown
import FiveAM.Memory.Forking
import FiveAM.Memory.Contents
import FiveAM.Memory.Return
import FiveAM.Memory.Conservation
import FiveAM.Memory.DiskSharing
import FiveAM.Memory.Faulting
import FiveAM.Memory.Preemption
import FiveAM.Memory.UserAccess
import FiveAM.Memory.Transparency
import FiveAM.Process.Threads
import FiveAM.Process.PipeRuns
import FiveAM.Process.Semaphores
import FiveAM.Sched.Conformance
import FiveAM.Sched.Starvation
import FiveAM.Memory.CopyOnWrite
import FiveAM.Memory.FrameOwnership
import FiveAM.Memory.UserWays
import FiveAM.Lib.Splitting
import FiveAM.Bridge.Framing
import FiveAM.Memory.StackGrowth
import FiveAM.Process.Arguments
import FiveAM.Process.Changes
import FiveAM.Process.Waiting
import FiveAM.Process.Kinship
import FiveAM.Process.Roots
import FiveAM.Process.StackRegions
import FiveAM.Sched.Measurements
import FiveAM.Sched.Feedback
import FiveAM.Sched.Boosting
import FiveAM.Sched.Watchdog
import FiveAM.Memory.Conformance
import FiveAM.Fat.Geometry
import FiveAM.Lib.FifoQueue
import FiveAM.Memory.ArrivalOrder
import FiveAM.Memory.FailedCopies
import FiveAM.Memory.FifoTable
import FiveAM.Memory.KernelStores
import FiveAM.Memory.PagingBench
import FiveAM.Memory.PointerChecks
import FiveAM.Memory.Textbook
import FiveAM.Process.SignalChoice
import FiveAM.Process.SignalNesting
import FiveAM.Process.UserBuffers
import FiveAM.Lib.Checked
import FiveAM.Fat.Damaged
import FiveAM.Fat.Confinement
import FiveAM.Heap.Refusals
import FiveAM.Lib.Programs
import FiveAM.Lib.RingBuffer
import FiveAM.Llm.Tokenizer
import FiveAM.Memory.TableEdits
import FiveAM.Memory.Unmapping
import FiveAM.Memory.EditingLaw
import FiveAM.Memory.UserBytes
import FiveAM.Memory.UserImage
import FiveAM.Process.Elf
import FiveAM.Process.ElfFiles
import FiveAM.Process.ElfRuns
import FiveAM.Process.ExecFile
import FiveAM.Process.LoadedImage
import FiveAM.Process.LoadedFile
import FiveAM.Process.StackStores
import FiveAM.Process.ExecRuns
import FiveAM.Process.Keyboard
import FiveAM.Process.LoaderSafety
import FiveAM.Process.Permissions
import FiveAM.Process.Typing
import FiveAM.Memory.FreeList
import FiveAM.Memory.SwappedTables
import FiveAM.Lib.Loops
import FiveAM.Display.Font
import FiveAM.Display.Framebuffer
import FiveAM.Display.Terminal
import FiveAM.Display.Showing
import FiveAM.Llm.ModelFile
import FiveAM.Llm.Forward
import FiveAM.Llm.ModelSafety
import FiveAM.Memory.Inherited
import FiveAM.Memory.EagerCopies
import FiveAM.Process.FailedForks
import FiveAM.Memory.StolenCopies
import FiveAM.Fat.Removing
import FiveAM.Fat.FileMap
import FiveAM.Lib.Prefixes
import FiveAM.Fat.Crashes
import FiveAM.Lib.Utf8
import FiveAM.Bridge.Requests
import FiveAM.Bridge.Exchanges
import FiveAM.Sched.Turns
import FiveAM.Sched.Arrivals
import FiveAM.Userland.Pipeline
import FiveAM.Userland.PipeOutput
import FiveAM.Userland.PipeProgress
import FiveAM.Lib.Agreement
import FiveAM.Llm.Ramdisk
import FiveAM.Llm.Generate
import FiveAM.Llm.Leftovers
import FiveAM.Llm.Sharing
import FiveAM.Display.Printing
import FiveAM.Userland.CommandLine
