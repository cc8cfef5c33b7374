import WingOS.Lib.Run
import WingOS.Lib.Sums
import WingOS.Lib.Bits
import WingOS.Lib.Counted
import WingOS.Lib.RefCount
import WingOS.Lib.Radix
import WingOS.Lib.Circle
import WingOS.Lib.Bytes
import WingOS.Scanner
import WingOS.Scheduler
import WingOS.Conservation
import WingOS.Launch
import WingOS.Affinity
import WingOS.RWLock
import WingOS.RWLockRuns
import WingOS.Handover
import WingOS.HandoverSafe
import WingOS.Ring
import WingOS.RingRuns
import WingOS.PCRing
import WingOS.Ipc
import WingOS.Wakeup
import WingOS.Signal
import WingOS.SignalRuns
import WingOS.Call
import WingOS.CallRuns
import WingOS.AssetTable
import WingOS.IpcSend
import WingOS.ReturnTasks
import WingOS.Range
import WingOS.Bitmap
import WingOS.Pmm
import WingOS.PmmSpec
import WingOS.PmmCreate
import WingOS.PmmSafe
import WingOS.Paging
import WingOS.Assets
import WingOS.AssetRefs
import WingOS.MappedPages
import WingOS.StaleMappings
import WingOS.MemoryReturned
import WingOS.PageTable
import WingOS.PageTableSpec
import WingOS.Translation
import WingOS.MessageMemory
import WingOS.Delivery
import WingOS.Authentic
import WingOS.SendAlone
import WingOS.UMap
import WingOS.UMapIterator
import WingOS.UMapRuns
import WingOS.Lib.Chain
import WingOS.LinkedList
import WingOS.LinkedListRuns
import WingOS.SharedPtr
import WingOS.Lib.Slots
import WingOS.ResultOptional
import WingOS.Ext4
import WingOS.Ext4Blocks
import WingOS.Ext4Read
import WingOS.SpaceTables
import WingOS.MappingTies
import WingOS.SharedTables
import WingOS.AssetCounts
import WingOS.Lib.Traced
import WingOS.Syscalls
import WingOS.Json
import WingOS.JsonReads
import WingOS.JsonSound
import WingOS.JsonSteps
import WingOS.KindSafety
import WingOS.UserMemory
import WingOS.UserStacks
import WingOS.Vec
import WingOS.VecRuns
import WingOS.ModuleStartup
import WingOS.Nvme
import WingOS.NvmeTransfer
import WingOS.DiskServer
import WingOS.ManagedServer
import WingOS.ServerReplies
import WingOS.FsFile
import WingOS.Ext4Write
import WingOS.Ext4Groups
import WingOS.Ext4Append
import WingOS.Verify
import WingOS.TableStates
import WingOS.MissingTables
import WingOS.RangeMapping
import WingOS.MappingFailure
import WingOS.FixedMemory
import WingOS.PipeStream
import WingOS.Stdio
import WingOS.Heap
import WingOS.Elf
import WingOS.ProgramLoad
import WingOS.LoadedPrograms
import WingOS.WorkConserving
import WingOS.AffinityRepair
import WingOS.SignalDetach
import WingOS.MessageCopy
import WingOS.RingCopy
import WingOS.VecSort
import WingOS.StrKeys
import WingOS.JsonShape
import WingOS.Format
import WingOS.Lib.Records
import WingOS.FormatIntegers
import WingOS.ElfHeaders
import WingOS.Acpi
import WingOS.NvmeCommands
import WingOS.VfsPath
import WingOS.Ext4View
import WingOS.Ext4Inodes
import WingOS.Ext4Alloc
import WingOS.Ext4Dir
import WingOS.AffinityAttempts
import WingOS.Lib.Utf8
import WingOS.Wchar
import WingOS.Strtoll
import WingOS.Strtok
import WingOS.Lib.Look
import WingOS.Gpt
import WingOS.Printer
import WingOS.PrintIntegers
import WingOS.Snprintf
import WingOS.IoApic
import WingOS.Lib.Unfolding
import WingOS.Pci
import WingOS.ScannerBounds
import WingOS.ScannerRefines
import WingOS.Lib.Waiting
import WingOS.SchedulerRules
import WingOS.AffinityRange
import WingOS.BoundedWait
import WingOS.FreedWait
import WingOS.Lib.Feed
import WingOS.Ps2
import WingOS.HumanInterface
import WingOS.ClockServer
import WingOS.VfsMounts
import WingOS.Lib.TextPage
import WingOS.Terminal
import WingOS.ServiceRegister
import WingOS.Lib.Binary
import WingOS.Fmod
import WingOS.Lib.SquareRoot
import WingOS.Lib.Nearest
import WingOS.Sqrtf
import WingOS.Sqrt
