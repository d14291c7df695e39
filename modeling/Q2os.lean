import Q2os.Keyboard
import Q2os.Timer
import Q2os.Reaping
import Q2os.PageRuns
import Q2os.KmallocSafety
import Q2os.Kmalloc
import Q2os.KmallocPages
import Q2os.HeapInvariant
import Q2os.KmallocSlots
import Q2os.KmallocSlabs
import Q2os.SlabInit
import Q2os.HeapRuns
import Q2os.ZoneAccounting
import Q2os.Spinlock
import Q2os.Softirq
import Q2os.RunQueue
import Q2os.Disk
import Q2os.DiskService
import Q2os.BlockProgram
import Q2os.Fat32
import Q2os.Fat32File
import Q2os.Fat32Directory
import Q2os.UserPointers
import Q2os.Fat32Lookup
import Q2os.NameMatching
import Q2os.DirectorySearch
import Q2os.ListedNames
import Q2os.OwnNames
import Q2os.FileReading
import Q2os.FileWriting
import Q2os.Chains
import Q2os.OpenFiles
import Q2os.PathFrame
import Q2os.FileEntry
import Q2os.PieceWrites
import Q2os.Descriptors
import Q2os.MemoryMap
import Q2os.DescriptorTable
import Q2os.DiskErrors
import Q2os.Parents
import Q2os.SlabCache
import Q2os.SlabAccount
import Q2os.SlabCacheInvariant
import Q2os.SlabCacheRuns
import Q2os.CleanPages
import Q2os.BootPages
import Q2os.CleanRuns
import Q2os.TableSupply
import Q2os.FilePosition
import Q2os.AddressSpace
import Q2os.OwnedSpace
import Q2os.ForkedSpace
import Q2os.ForkCopy
import Q2os.ForkRuns
import Q2os.SpaceSupply
import Q2os.AccountRuns
import Q2os.GivenBack
import Q2os.Kallsyms
import Q2os.Mouse
import Q2os.Semaphore
import Q2os.SmpBoot
import Q2os.ChainReads
import Q2os.BoundedLoop
import Q2os.NameReturns
import Q2os.Mount
import Q2os.UserHeap
import Q2os.TableEntries
import Q2os.WriteIsolation
import Q2os.FreeClusters
import Q2os.FreeRuns
import Q2os.EntryRoundTrip
import Q2os.Enumeration
import Q2os.DirentBuffer
import Q2os.PathWalk
import Q2os.KeptBlocks
import Q2os.OpenFailure
import Q2os.KmallocFailure
import Q2os.WriteThenRead
import Q2os.ChainGrowth
import Q2os.TableRuns
import Q2os.Interleaving
import Q2os.WriteParts
import Q2os.InterleavedWrites
import Q2os.PendingSoftirqs
import Q2os.ScheduleTurn
import Q2os.TablePaths
import Q2os.MappedPages
import Q2os.UnsharedTables
import Q2os.BrkRange
import Q2os.BrkFailure
import Q2os.ExecFailure
import Q2os.ForkFailure
import Q2os.BootMap
import Q2os.KernelMap
import Q2os.ExecArguments
import Q2os.PrintNumber
import Q2os.StateRuns
import Q2os.FormatScanner
import Q2os.FormatDirectives
import Q2os.FormatRuns
import Q2os.PrintedValues
import Q2os.Console
import Q2os.FrameBuffer
import Q2os.PutString
import Q2os.ListCircles
import Q2os.ShellKeyboard
import Q2os.Pieces
import Q2os.CommandLine
import Q2os.CurrentDirectory
import Q2os.Fat12
import Q2os.KernelLoader
import Q2os.BitFields
import Q2os.GateDescriptors
import Q2os.InterruptTable
import Q2os.StackMachine
import Q2os.ControlFlow
import Q2os.EntryFrames
import Q2os.KernelEntry
import Q2os.InterruptDelivery
import Q2os.SystemCalls
import Q2os.TaskStacks
import Q2os.ChildStack
import Q2os.TaskSwitch
import Q2os.InterruptRouting
import Q2os.AtomicDisk
import Q2os.WaitingTime
import Q2os.TypedLine
import Q2os.BlockCopies
import Q2os.StringListings
