import OS161.FileSafety
import OS161.GlobalExact
import OS161.OpenFailure
import OS161.LocalFullness
import OS161.DescriptorRuns
import OS161.ProcessPointers
import OS161.PidTable
import OS161.WaitRuns
import OS161.DescriptorPositions
import OS161.ProcThreads
import OS161.Hangman
import OS161.ConcurrentList
import OS161.Semaphore
import OS161.SharedBuffer
import OS161.SemFs
import OS161.SemCounts
import OS161.References
import OS161.SemDirectory
import OS161.SemRegistry
import OS161.SemPlaces
import OS161.SemCreation
import OS161.SemVnodes
import OS161.SemRemoval
import OS161.SemReclaim
import OS161.SemLifecycle
import OS161.LockCalls
import OS161.ThreadRuns
import OS161.Regions
import OS161.PhysicalMemory
import OS161.Links
import OS161.Kmalloc
import OS161.KmallocBlocks
import OS161.KmallocLists
import OS161.KmallocPages
import OS161.KmallocSteps
import OS161.KmallocRuns
import OS161.KernelMemory
import OS161.AddressSpace
import OS161.Isolation
import OS161.VfsList
import OS161.WaitChecks
import OS161.ExitStatus
import OS161.ForkFailure
import OS161.Pagerefs
import OS161.Migration
import OS161.ConsoleCalls
import OS161.Biglock
import OS161.CopyInOut
import OS161.LoadElf
import OS161.Execv
import OS161.Tilings
import OS161.ListKeys
import OS161.CopyChecks
import OS161.ArgumentScan
import OS161.Lseek
import OS161.Dup2
import OS161.FirstFit
import OS161.Sfs
import OS161.Pieces
import OS161.SfsIo
import OS161.SfsPieces
import OS161.SfsWrite
import OS161.SfsRead
import OS161.SfsArray
import OS161.SfsOffsets
import OS161.SfsBlockio
import OS161.SfsTruncate
import OS161.SfsShrink
import OS161.LhdRetries
import OS161.VfsLookup
import OS161.VfsBootfs
import OS161.SemOutcome
import OS161.LoadFaults
import OS161.Bitmaps
import OS161.Threadlist
import OS161.Spl
import OS161.SemEnumeration
import OS161.ConsoleInput
import OS161.FreshVolume
import OS161.UserFree
import OS161.Bswap
import OS161.Printf
import OS161.SfsProgress
import OS161.Qsort
import OS161.Millicode
import OS161.LhdDriver
import OS161.PointerArray
import OS161.ConsoleDevice
