import Xv6.Core.RedoLog
import Xv6.Core.Run
import Xv6.Core.Lists
import Xv6.Core.SpinLock
import Xv6.Core.Threads
import Xv6.Core.Tickets
import Xv6.Thread.McsLock
import Xv6.Thread.McsQueue
import Xv6.Thread.ArrayLock
import Xv6.Thread.SeqLock
import Xv6.User.Printf
import Xv6.Fs.Bio
import Xv6.Fs.Log
import Xv6.Thread.FrisbeeSeq
import Xv6.Thread.Frisbee
import Xv6.Core.Pager
import Xv6.Kernel.Basic
import Xv6.Kernel.SleepLock
import Xv6.Kernel.Pipe
import Xv6.Dev.Console
import Xv6.Dev.Ide
import Xv6.Kernel.Vm
import Xv6.Kernel.Mapped
import Xv6.Kernel.Pages
import Xv6.Core.Bytes
import Xv6.Core.Fetch
import Xv6.Kernel.SysArgs
import Xv6.Kernel.Halves
import Xv6.Kernel.Copyout
import Xv6.Kernel.Argv
import Xv6.Kernel.ExecFile
import Xv6.Core.RefCount
import Xv6.Kernel.File
import Xv6.Kernel.Exec
import Xv6.Kernel.Image
import Xv6.Kernel.Proc
import Xv6.Kernel.Calls
import Xv6.Kernel.Sbrk
import Xv6.Kernel.AddressSpace
import Xv6.Kernel.Inherit
import Xv6.Kernel.Descriptors
import Xv6.Core.Regions
import Xv6.Fs.LogOps
import Xv6.Fs.LogHistory
import Xv6.Fs.LogCrash
import Xv6.Core.Ring
import Xv6.Core.Blocks
import Xv6.User.Umalloc
import Xv6.User.Allocator
import Xv6.User.Process
import Xv6.User.ShParse
import Xv6.User.ShText
import Xv6.User.ShRun
import Xv6.User.Grep
import Xv6.Thread.Stack
import Xv6.Core.Prog
import Xv6.Fs.Inode
import Xv6.Fs.Dir
import Xv6.Core.Pool
import Xv6.Fs.Ownership
import Xv6.Fs.Contents
import Xv6.Fs.Trunc
import Xv6.Fs.Refs
import Xv6.Fs.Chunks
import Xv6.Fs.Names
import Xv6.Fs.Edits
import Xv6.Fs.Calls
import Xv6.Fs.Outcomes
import Xv6.Core.Monitor
import Xv6.Core.Window
import Xv6.Core.NameGraph
import Xv6.Fs.Entries
import Xv6.Fs.Tree
import Xv6.Fs.TreeCalls
import Xv6.Core.Held
import Xv6.Fs.Held
import Xv6.Fs.Paths
import Xv6.Core.Slots
import Xv6.Fs.DirMap
import Xv6.Fs.DirOps
import Xv6.Sched.Ptable
import Xv6.Sched.Cpus
import Xv6.Sched.Family
import Xv6.Sched.Kill
import Xv6.Sched.Interrupts
import Xv6.Kernel.Memmove
import Xv6.Dev.Mp
import Xv6.User.Redirs
