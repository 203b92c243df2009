import GlowOS.Boot.Loader
import GlowOS.Device.Commands
import GlowOS.Device.Console
import GlowOS.Device.Discovery
import GlowOS.Device.Handshake
import GlowOS.Device.IoQueue
import GlowOS.Device.IoWaiters
import GlowOS.Device.Keyboard
import GlowOS.Device.Partitions
import GlowOS.Device.ScanCycles
import GlowOS.Device.Screen
import GlowOS.Device.Timer
import GlowOS.Fs.BitmapCalls
import GlowOS.Fs.Cache
import GlowOS.Fs.CacheInv
import GlowOS.Fs.Content
import GlowOS.Fs.Creation
import GlowOS.Fs.Descriptors
import GlowOS.Fs.Dir
import GlowOS.Fs.EmptyDir
import GlowOS.Fs.Entry
import GlowOS.Fs.EntryRuns
import GlowOS.Fs.FailedWrite
import GlowOS.Fs.File
import GlowOS.Fs.Format
import GlowOS.Fs.Frames
import GlowOS.Fs.Inode
import GlowOS.Fs.Insertion
import GlowOS.Fs.KernelInodes
import GlowOS.Fs.Layout
import GlowOS.Fs.Listing
import GlowOS.Fs.Lookup
import GlowOS.Fs.Mount
import GlowOS.Fs.NameBuffer
import GlowOS.Fs.Naming
import GlowOS.Fs.OpenCalls
import GlowOS.Fs.Path
import GlowOS.Fs.Persistence
import GlowOS.Fs.Positions
import GlowOS.Fs.Reading
import GlowOS.Fs.Release
import GlowOS.Fs.RoundTrip
import GlowOS.Fs.Search
import GlowOS.Fs.Shared
import GlowOS.Fs.SingleWriter
import GlowOS.Fs.Slots
import GlowOS.Fs.State
import GlowOS.Fs.Syscalls
import GlowOS.Fs.Transfers
import GlowOS.Fs.Walk
import GlowOS.Fs.WorkingDir
import GlowOS.Fs.WriteLimits
import GlowOS.Fs.WriteThrough
import GlowOS.Fs.Writing
import GlowOS.Kernel.Bitmap
import GlowOS.Kernel.CachedPages
import GlowOS.Kernel.Debug
import GlowOS.Kernel.Entry
import GlowOS.Kernel.Exhaustion
import GlowOS.Kernel.Heap
import GlowOS.Kernel.HeapBlocks
import GlowOS.Kernel.HeapCalls
import GlowOS.Kernel.HeapRuns
import GlowOS.Kernel.Interrupts
import GlowOS.Kernel.KernelHeap
import GlowOS.Kernel.Lists
import GlowOS.Kernel.Memory
import GlowOS.Kernel.PageAlloc
import GlowOS.Kernel.PageAt
import GlowOS.Kernel.PageMap
import GlowOS.Kernel.PoolLayout
import GlowOS.Kernel.PoolLocks
import GlowOS.Kernel.Preemption
import GlowOS.Kernel.RunSearch
import GlowOS.Lib.AddressSpace
import GlowOS.Lib.Avoid
import GlowOS.Lib.Bytes
import GlowOS.Lib.CStrings
import GlowOS.Lib.Exclusive
import GlowOS.Lib.Fuel
import GlowOS.Lib.Interleave
import GlowOS.Lib.LinkedLists
import GlowOS.Lib.Links
import GlowOS.Lib.Numerals
import GlowOS.Lib.Paging
import GlowOS.Lib.Program
import GlowOS.Lib.Queues
import GlowOS.Lib.Ranges
import GlowOS.Lib.Ring
import GlowOS.Lib.Scan
import GlowOS.Lib.Stack
import GlowOS.Lib.TranslationCache
import GlowOS.Lib.WordLinks
import GlowOS.Lib.Words
import GlowOS.Shell.AbsPath
import GlowOS.Shell.CmdParse
import GlowOS.Shell.Readline
import GlowOS.Shell.WashPath
import GlowOS.Stdio.Format
import GlowOS.Stdio.Itoa
import GlowOS.Stdio.Strings
import GlowOS.Thread.Boot
import GlowOS.Thread.Lock
import GlowOS.Thread.Mutex
import GlowOS.Thread.Pid
import GlowOS.Thread.Sched
import GlowOS.Thread.Sections
import GlowOS.Thread.State
import GlowOS.Thread.Switch
import GlowOS.Thread.Sync
import GlowOS.Userprog.Activation
import GlowOS.Userprog.CopySpace
import GlowOS.Userprog.Exec
import GlowOS.Userprog.Fork
import GlowOS.Userprog.ForkChain
import GlowOS.Userprog.Loading
import GlowOS.Userprog.Space
