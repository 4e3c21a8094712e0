import BabyOS.AreaRequests
import BabyOS.AreaRun
import BabyOS.AtomicSchedules
import BabyOS.BlockBitmap
import BabyOS.BootLoader
import BabyOS.BuddyBitmaps
import BabyOS.BuddyBoot
import BabyOS.BuddyCycles
import BabyOS.BuddyRun
import BabyOS.BufferCache
import BabyOS.BufferPaths
import BabyOS.CacheBooks
import BabyOS.CacheContents
import BabyOS.CacheCounts
import BabyOS.CacheFreeing
import BabyOS.CacheInvariant
import BabyOS.CachePaths
import BabyOS.ConsoleInput
import BabyOS.CopyOnWrite
import BabyOS.DirectoryMap
import BabyOS.DiskRequests
import BabyOS.ElfLoader
import BabyOS.ElfSegments
import BabyOS.FaultProtections
import BabyOS.FileArrays
import BabyOS.FramebufferPages
import BabyOS.HeapIntegrity
import BabyOS.InodeCache
import BabyOS.InodeLocks
import BabyOS.InodeRecords
import BabyOS.KernelStores
import BabyOS.KeyboardCodes
import BabyOS.LifeCycle
import BabyOS.LoadedTables
import BabyOS.LocalLifetime
import BabyOS.MousePackets
import BabyOS.PendingSignals
import BabyOS.PipeDelivery
import BabyOS.PipeLifetime
import BabyOS.PipeWaiters
import BabyOS.ProcessFamilies
import BabyOS.ProgramArguments
import BabyOS.ReturnedFrames
import BabyOS.SemaphoreRun
import BabyOS.SignalNumbers
import BabyOS.SignalReturn
import BabyOS.SlabRun
import BabyOS.SleepTimers
import BabyOS.SocketCalls
import BabyOS.SocketStreams
import BabyOS.StackGrowth
import BabyOS.PathResolution
import BabyOS.StringCopies
import BabyOS.SystemCalls
import BabyOS.TableCopies
import BabyOS.TableMapping
import BabyOS.XiangqiSearch
import BabyOS.Numerals
import BabyOS.NumberRendering
import BabyOS.FormattedOutput
import BabyOS.GregorianDates
import BabyOS.CalendarTime
import BabyOS.ShellWords
import BabyOS.ShellCommands
import BabyOS.PrintedStrings
import BabyOS.HeapRequests
import BabyOS.HeapCopies
import BabyOS.FileModes
import BabyOS.StreamInput
import BabyOS.BootTables
import BabyOS.BootMemory
import BabyOS.ShellProcesses
import BabyOS.XiangqiChecks
import BabyOS.XiangqiUndo
import BabyOS.XiangqiCells
import BabyOS.XiangqiPlay
import BabyOS.ListOperations
import BabyOS.FreeLists
import BabyOS.HeapFitting
import BabyOS.SlabGeometry
import BabyOS.PixelGrids
import BabyOS.ScreenRectangles
import BabyOS.Surfaces
import BabyOS.SurfaceBlits
import BabyOS.ConsoleOutput
import BabyOS.RectIntersections
import BabyOS.FixedPoint
import BabyOS.ScaledBlits
import BabyOS.StringPrimitives
import BabyOS.StringSearch
import BabyOS.XiangqiCounts
import BabyOS.XiangqiArrays
import BabyOS.MachineCode
import BabyOS.MemoryMoves
import BabyOS.TrapEntries
import BabyOS.ContextSwitches
import BabyOS.Overtaking
import BabyOS.Cursors
