import Linux011.Runs
import Linux011.Links
import Linux011.WaitQueue
import Linux011.Sem
import Linux011.Lamport
import Linux011.Ring
import Linux011.ShmQuene
import Linux011.Tally
import Linux011.ProducerConsumer
import Linux011.PageEntry
import Linux011.Memory
import Linux011.RefCount
import Linux011.PageLedger
import Linux011.Loops
import Linux011.PageTables
import Linux011.TaskPages
import Linux011.PageCounts
import Linux011.Views
import Linux011.UserAccess
import Linux011.CopyOnWrite
import Linux011.SleepOn
import Linux011.InterruptibleSleepOn
import Linux011.LamportAlone
import Linux011.MathState
import Linux011.SystemCall
import Linux011.Slots
import Linux011.SemNames
import Linux011.SemUnlink
import Linux011.Shm
import Linux011.ShmKeys
import Linux011.ShmAttach
import Linux011.ShmHeap
import Linux011.Buffer
import Linux011.LlRwBlk
import Linux011.BlockDev
import Linux011.PsInfo
import Linux011.Zones
import Linux011.Dir
import Linux011.FileDev
import Linux011.DirCalls
import Linux011.InodeCounts
import Linux011.LinkCounts
import Linux011.DirtyPages
import Linux011.RequestQueue
import Linux011.PipeCopies
import Linux011.FileTable
import Linux011.MallocChains
import Linux011.Console
import Linux011.BlockGrowth
import Linux011.ShmCreate
import Linux011.SemRemoved
import Linux011.Scheduler
import Linux011.Signals
import Linux011.ShmPages
import Linux011.ShmSearch
import Linux011.HardDisk
import Linux011.SharedMemory
import Linux011.ForkReturn
import Linux011.HdInfo
import Linux011.ExecStack
import Linux011.FreeBlock
import Linux011.ReadSuper
import Linux011.Timers
import Linux011.Dup2
import Linux011.SavedCursor
import Linux011.ErrorHandlers
import Linux011.DirScan
import Linux011.Offsets
import Linux011.Truncate
import Linux011.QueueStores
import Linux011.Number
import Linux011.Echo
import Linux011.Ftok
import Linux011.Outcome
import Linux011.Mkdir
import Linux011.Bits
import Linux011.Boot
import Linux011.Exit
import Linux011.Keyboard
import Linux011.Motor
import Linux011.ProcessTree
import Linux011.Typing
import Linux011.Serial
import Linux011.Clock
import Linux011.Format
import Linux011.Ids
