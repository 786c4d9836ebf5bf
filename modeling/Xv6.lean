import Xv6.Lib.Run
import Xv6.Lib.DList
import Xv6.Lib.Writes
import Xv6.Lib.Locks
import Xv6.Lib.Effect
import Xv6.Lib.Ring
import Xv6.Param
import Xv6.Sched.Table
import Xv6.Sched.Lottery
import Xv6.Sched.Kernel
import Xv6.Sched.Queue
import Xv6.Sched.Invariant
import Xv6.Sched.Steps
import Xv6.Sched.ReadyQueue
import Xv6.Sched.Sleep
import Xv6.Sched.Family
import Xv6.Sched.Tree
import Xv6.Sched.Reap
import Xv6.Sched.Fork
import Xv6.Sched.Pids
import Xv6.Sched.Accounting
import Xv6.Pipe
import Xv6.Pipe.Wakeup
import Xv6.Bio.Cache
import Xv6.Bio.Machine
import Xv6.Bio.Invariant
import Xv6.Bio.Commit
import Xv6.Bio.Refine
import Xv6.Bio.Custody
import Xv6.Bio.Discipline
import Xv6.Bio.Pinned
import Xv6.Bio.Room
import Xv6.Bio.Flat
import Xv6.Log.Disk
import Xv6.Log.Crash
import Xv6.Log.Group
import Xv6.Log.Operation
import Xv6.Log.Reserve
import Xv6.Lock.Order
import Xv6.Signal.Frame
import Xv6.Signal.Machine
import Xv6.Signal.Transparency
import Xv6.Signal.Forge
import Xv6.Signal.Delivery
import Xv6.Signal.Race
import Xv6.User.Args
import Xv6.Fs.Disk
import Xv6.Fs.Inode
import Xv6.Fs.Dir
import Xv6.Fs.Syscall
import Xv6.Fs.System
import Xv6.Fs.Wellformed
import Xv6.Fs.Updates
import Xv6.Fs.Entries
import Xv6.Fs.BlockSpec
import Xv6.Fs.ContentSpec
import Xv6.Fs.Path
import Xv6.Fs.Shared
import Xv6.Lib.Count
import Xv6.Lib.History
import Xv6.Files.Table
import Xv6.Files.Refs
import Xv6.Files.Lifetime
import Xv6.Fs.Balance
import Xv6.Fs.References
import Xv6.Fs.WriteSpec
import Xv6.Fs.Allocation
import Xv6.Lib.SList
import Xv6.Ide.Queue
import Xv6.Console.Input
import Xv6.Console.Editor
import Xv6.Console.Refine
import Xv6.Vm.Paging
import Xv6.Vm.UserStores
import Xv6.Shell.Lexer
import Xv6.Shell.Parser
import Xv6.Shell.Grammar
import Xv6.Shell.Correct
import Xv6.Shell.Parsecmd
import Xv6.Lib.Words
import Xv6.Lib.Linked
import Xv6.Lib.Spans
import Xv6.Umalloc.Heap
import Xv6.Umalloc.Free
import Xv6.Umalloc.Malloc
import Xv6.Umalloc.Search
import Xv6.Umalloc.Safety
import Xv6.Lib.Tiles
import Xv6.Sched.Tickets
import Xv6.Sched.Draw
import Xv6.Lib.Pool
import Xv6.Uvm.Kalloc
import Xv6.Uvm.Directory
import Xv6.Uvm.Holds
import Xv6.Uvm.Mapping
import Xv6.Uvm.Dealloc
import Xv6.Uvm.Setup
import Xv6.Uvm.Fill
import Xv6.Uvm.Grow
import Xv6.Uvm.Teardown
import Xv6.Uvm.Copy
import Xv6.Uvm.Fork
import Xv6.Fs.Contents
import Xv6.Lib.Slots
import Xv6.Fs.DirMap
import Xv6.Grep.Match
import Xv6.Grep.Scan
import Xv6.Signal.Trampoline
import Xv6.Signal.Handlers
import Xv6.Sched.Quantum
import Xv6.Shell.Terminate
import Xv6.Umalloc.Sbrk
import Xv6.Vm.Copyout
import Xv6.Sched.Generator
import Xv6.Strings.Memmove
import Xv6.Mp.Config
import Xv6.Lock.Cli
import Xv6.Uvm.FiniteMap
