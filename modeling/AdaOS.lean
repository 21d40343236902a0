import AdaOS.Basic
import AdaOS.Memmap
import AdaOS.Pmm
import AdaOS.Windows
import AdaOS.MappingSearch
import AdaOS.PmmSteps
import AdaOS.MemoryChunks
import AdaOS.PmmRuns
import AdaOS.PmmClimb
import AdaOS.PmmSafety
import AdaOS.PmmRelease
import AdaOS.Frames
import AdaOS.Radix
import AdaOS.Vmm
import AdaOS.TableSteps
import AdaOS.MapPage
import AdaOS.UnmapPage
import AdaOS.TableRuns
import AdaOS.PageMap
import AdaOS.AddressSpace
import AdaOS.PmmFrames
import AdaOS.Blocks
import AdaOS.ByteMem
import AdaOS.Heap
import AdaOS.FreeList
import AdaOS.Tiling
import AdaOS.HeapGrowth
import AdaOS.HeapRuns
import AdaOS.HeapSafety
import AdaOS.HeapReturns
import AdaOS.Core
import AdaOS.Shell
import AdaOS.ShellLines
import AdaOS.Interrupts
import AdaOS.InterruptFrames
import AdaOS.Madt
import AdaOS.MadtWalk
import AdaOS.Grouping
import AdaOS.MadtDecode
import AdaOS.HeapBacking
import AdaOS.TableReclaim
import AdaOS.HeapSupply
import AdaOS.Acpi
import AdaOS.Boot
import AdaOS.DirectMap
import AdaOS.HeapFrames
import AdaOS.AcpiTables
import AdaOS.BootMap
import AdaOS.BootRuns
import AdaOS.BootConflict
import AdaOS.Translation
import AdaOS.PmmCalls
import AdaOS.CursorCache
import AdaOS.PmmRefusals
import AdaOS.Descriptor
import AdaOS.DescriptorExact
import AdaOS.TableBounds
import AdaOS.Raster
import AdaOS.Console
import AdaOS.ConsoleSteps
import AdaOS.ConsoleBounds
import AdaOS.ConsoleGrid
import AdaOS.ConsoleRuns
import AdaOS.Calendar
import AdaOS.Rtc
import AdaOS.RtcDecode
import AdaOS.RtcReads
import AdaOS.CivilDate
import AdaOS.Iso8601
import AdaOS.BitCount
import AdaOS.PmmAccounts
import AdaOS.BitmapBounds
import AdaOS.BitmapFaults
import AdaOS.PmmHarmless
import AdaOS.Permissions
import AdaOS.MapRetry
import AdaOS.HeapFailure
import AdaOS.HeapRealloc
import AdaOS.RtcExact
import AdaOS.MersenneTwister
import AdaOS.Random
import AdaOS.RandomRuns
import AdaOS.Pit
import AdaOS.PitSleep
import AdaOS.ConsoleStrings
import AdaOS.FontLookups
import AdaOS.IoApicRegisters
import AdaOS.AcpiEvents
import AdaOS.AcpiSearch
import AdaOS.AcpiTracks
import AdaOS.AcpiChecks
import AdaOS.AcpiReads
import AdaOS.MadtCovers
import AdaOS.AcpiStalls
import AdaOS.AcpiAccepts
import AdaOS.MadtWindows
import AdaOS.DirectWrites
import AdaOS.DecimalPrint
import AdaOS.RandomRange
import AdaOS.FramebufferMap
import AdaOS.Printf
import AdaOS.PrintfText
import AdaOS.PrintfGrammar
import AdaOS.PrintfPieces
import AdaOS.PrintfReading
import AdaOS.PrintfNumbers
import AdaOS.PrintfSinks
import AdaOS.PrintfStandard
import AdaOS.PrintfRtc
import AdaOS.PrintfStrings
import AdaOS.ApicSleep
import AdaOS.ConsoleMirror
import AdaOS.CpuStatus
import AdaOS.CpuStatusReads
import AdaOS.FormattedTime
import AdaOS.FreeText
import AdaOS.Panic
import AdaOS.TerminalShell
import AdaOS.Handler
import AdaOS.HandlerRuns
import AdaOS.Pic
import AdaOS.SegmentTables
import AdaOS.InterruptLines
