import Ospp.Driver.Console
import Ospp.Driver.EarlyDisplay
import Ospp.Driver.Pit
import Ospp.Driver.PitHandlers
import Ospp.Driver.Serial
import Ospp.Int.ContextSwitch
import Ospp.Int.Dispatch
import Ospp.Int.Idt
import Ospp.Klib.Bitmap
import Ospp.Klib.BitmapCount
import Ospp.Klib.BitmapRange
import Ospp.Klib.CString
import Ospp.Klib.Cllist
import Ospp.Klib.Convert
import Ospp.Klib.Crc32
import Ospp.Klib.Division
import Ospp.Klib.Log
import Ospp.Klib.OutputSink
import Ospp.Klib.Printf
import Ospp.Klib.PrintfBounds
import Ospp.Klib.PrintfRender
import Ospp.Klib.SharedPtr
import Ospp.Klib.SharedPtrRelease
import Ospp.Klib.SharedPtrRuns
import Ospp.Klib.Snprintf
import Ospp.Klib.SpinLock
import Ospp.Klib.StaticArray
import Ospp.Klib.StaticArrayRuns
import Ospp.Klib.StringCopy
import Ospp.Klib.Strtok
import Ospp.Lib.Cmd
import Ospp.Lib.Cyclic
import Ospp.Lib.Guarded
import Ospp.Lib.InService
import Ospp.Lib.Layers
import Ospp.Lib.LinkRing
import Ospp.Lib.Mem
import Ospp.Lib.Numeral
import Ospp.Lib.Radix
import Ospp.Lib.RefCount
import Ospp.Lib.Runs
import Ospp.Lib.ShiftRegister
import Ospp.Lib.Traced
import Ospp.Lib.Trans
import Ospp.Lib.Word
import Ospp.Mm.Access
import Ospp.Mm.BootInfo
import Ospp.Mm.FrameSafety
import Ospp.Mm.Heap
import Ospp.Mm.HeapAligned
import Ospp.Mm.HeapAlloc
import Ospp.Mm.HeapFree
import Ospp.Mm.HeapGrow
import Ospp.Mm.HeapLayout
import Ospp.Mm.HeapList
import Ospp.Mm.HeapOrder
import Ospp.Mm.HeapRequests
import Ospp.Mm.HeapReturns
import Ospp.Mm.HeapRuns
import Ospp.Mm.HeapSpace
import Ospp.Mm.HeapWork
import Ospp.Mm.Layout
import Ospp.Mm.Ownership
import Ospp.Mm.PageTables
import Ospp.Mm.Pmm
import Ospp.Mm.PmmAccount
import Ospp.Mm.PmmConcurrent
import Ospp.Mm.PmmInit
import Ospp.Mm.RecursiveWindow
import Ospp.Mm.TlbShootdown
import Ospp.Mm.Translation
import Ospp.Mm.Vmm
import Ospp.Sched.Contexts
import Ospp.Sched.RoundRobin
import Ospp.Sched.Scheduler
import Ospp.Sys.Acpi
import Ospp.Sys.AcpiPages
import Ospp.Sys.AtExit
import Ospp.Sys.InterruptRouting
import Ospp.Sys.Ioapic
import Ospp.Sys.Kexp
import Ospp.Sys.Linker
import Ospp.Sys.LinkerAccount
import Ospp.Sys.LinkerConfined
import Ospp.Sys.LinkerImage
import Ospp.Sys.LinkerPlacement
import Ospp.Sys.LinkerPlan
import Ospp.Sys.LinkerRelocation
import Ospp.Sys.LinkerRestore
import Ospp.Sys.LinkerStages
import Ospp.Sys.LinkerUnload
import Ospp.Sys.LiveConfined
import Ospp.Sys.LiveHeld
import Ospp.Sys.LiveLinker
import Ospp.Sys.LiveRelocation
import Ospp.Sys.LiveRestore
import Ospp.Sys.LiveStages
import Ospp.Sys.LiveSymbols
import Ospp.Sys.Locks
import Ospp.Sys.Madt
import Ospp.Sys.ModuleSpace
import Ospp.Sys.Modules
import Ospp.Sys.SmpBoot
import Ospp.Sys.Symbols
