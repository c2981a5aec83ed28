import CourseOs.Lib.ByteMemory
import CourseOs.Lib.LinkedList
import CourseOs.Machine
import CourseOs.Vm.Pmm
import CourseOs.Vm.PmmLists
import CourseOs.Vm.PmmInvariant
import CourseOs.Vm.PmmOps
import CourseOs.Vm.PmmInit
import CourseOs.Lib.Runs
import CourseOs.Vm.PmmRun
import CourseOs.Allocator.Heap
import CourseOs.Allocator.Bins
import CourseOs.Allocator.HeapInvariant
import CourseOs.Allocator.HeapAlloc
import CourseOs.Allocator.HeapFree
import CourseOs.Allocator.HeapRun
import CourseOs.Allocator.HeapGrowth
import CourseOs.Ds.PriorityQueue
import CourseOs.Lib.BinaryHeap
import CourseOs.Ds.PriorityQueueSifts
import CourseOs.Ds.PriorityQueueOps
import CourseOs.Ds.PriorityQueueRun
import CourseOs.Drivers.Timer
import CourseOs.Drivers.Timetable
import CourseOs.Drivers.TimerOps
import CourseOs.Drivers.TimerRun
import CourseOs.Ds.ArrayList
import CourseOs.Fs.Tmpfs
import CourseOs.Vm.Asid
import CourseOs.Fs.TmpfsFile
import CourseOs.Fs.Path
import CourseOs.Fs.Tree
import CourseOs.Lib.NameWalk
import CourseOs.Fs.PathLookup
import CourseOs.Drivers.Firings
import CourseOs.Drivers.TimerInterrupt
import CourseOs.Drivers.TimerFirings
import CourseOs.Vm.PmmRecords
import CourseOs.Vm.PmmConserve
import CourseOs.Vm.PmmReserved
import CourseOs.Lib.Lockstep
import CourseOs.Vm.PmmTwin
import CourseOs.Vm.PmmTwinInit
import CourseOs.Vm.PmmContents
import CourseOs.Allocator.HeapCoalesce
import CourseOs.Drivers.TimerCallbacks
import CourseOs.Vm.PageTables
import CourseOs.Vm.KernelSpace
import CourseOs.Vm.HeapMmio
import CourseOs.Vm.KernelStart
import CourseOs.Allocator.HeapRequest
import CourseOs.Allocator.HeapAccess
import CourseOs.Allocator.HeapInside
import CourseOs.Vm.Peripherals
import CourseOs.Vm.Sections
import CourseOs.Vm.PmmEnd
import CourseOs.Vm.Exhaustion
import CourseOs.Lib.Ledger
import CourseOs.Vm.Translation
import CourseOs.Vm.TranslationRun
import CourseOs.Vm.UnmappedFree
import CourseOs.Vm.Vas
import CourseOs.Vm.VasConfined
import CourseOs.Klibc.Alloc
import CourseOs.Allocator.HeapAlign
import CourseOs.Drivers.TimerDelay
import CourseOs.Lib.Scan
import CourseOs.Ds.ByteList
import CourseOs.Fs.PathOps
import CourseOs.Lib.Components
import CourseOs.Fs.PathParent
import CourseOs.Fs.PathFilename
import CourseOs.Fs.PathReads
import CourseOs.Fs.TmpfsFailure
import CourseOs.Fs.PathThroughFile
import CourseOs.Fs.TmpfsBounds
import CourseOs.Fs.CreateDir
import CourseOs.Ds.SinglyLinkedList
import CourseOs.Ds.PointerList
import CourseOs.Ds.PointerListFree
import CourseOs.Ds.ListHeap
import CourseOs.Ds.ListHeapFree
import CourseOs.Ds.ListHeapRefines
import CourseOs.Fs.VfsFree
import CourseOs.Lib.TwosComplement
import CourseOs.Lib.StoreLog
import CourseOs.Lib.StepLoop
import CourseOs.Lib.Numerals
import CourseOs.Klibc.Strncpy
import CourseOs.Klibc.Strtol
import CourseOs.Klibc.PrintInt
import CourseOs.Klibc.Printf
import CourseOs.Klibc.PrintfFormat
import CourseOs.Klibc.PrintfRun
import CourseOs.Klibc.PrintfExact
import CourseOs.Klibc.ReadBack
import CourseOs.Common.Memory
import CourseOs.Lib.OwnedChains
import CourseOs.Lib.KeyedList
import CourseOs.Ds.HashMap
import CourseOs.Ds.HashMapOps
import CourseOs.Ds.HashMapGrow
import CourseOs.Ds.HashMapRun
import CourseOs.Ds.HashMapFree
import CourseOs.Vm.KernelPages
import CourseOs.Vm.KernelMemory
import CourseOs.Vm.KernelBoot
import CourseOs.Klibc.BlockStore
import CourseOs.Lib.FileTree
import CourseOs.Fs.TmpfsTree
import CourseOs.Fs.TmpfsTreeRun
import CourseOs.Lib.Swar
import CourseOs.Lib.CString
import CourseOs.Klibc.Strchrnul
import CourseOs.User.Memchr
import CourseOs.Lib.Tokens
import CourseOs.Klibc.Strtok
