import Xv6.Kernel.AddressSpace
import Xv6.Kernel.Boot
import Xv6.Kernel.Calls
import Xv6.Kernel.Descriptors
import Xv6.Kernel.Exec
import Xv6.Kernel.File
import Xv6.Kernel.Files
import Xv6.Kernel.Hygiene
import Xv6.Kernel.Image
import Xv6.Kernel.Invariant
import Xv6.Kernel.Ownership
import Xv6.Kernel.Proc
import Xv6.Kernel.Shape
import Xv6.Kernel.Slots
import Xv6.Kernel.State
import Xv6.Kernel.Syscall
import Xv6.Lib.Bytes
import Xv6.Lib.Memory
import Xv6.Lib.Prog
import Xv6.Lib.Radix
import Xv6.Lib.RingBuf
import Xv6.Log.Commit
import Xv6.Log.Grouping
import Xv6.Log.Recovery
import Xv6.Log.Reservation
import Xv6.Log.Transactions
import Xv6.Params
import Xv6.Pipe.Fifo
import Xv6.Pipe.Pipe
import Xv6.Pipe.Sleepers
import Xv6.Vm.Books
import Xv6.Vm.Copy
import Xv6.Vm.Kalloc
import Xv6.Vm.Map
import Xv6.Vm.PageTable
import Xv6.Vm.Refinement
import Xv6.Vm.Riscv
import Xv6.Vm.Space
import Xv6.Vm.Teardown
import Xv6.Vm.Tree
import Xv6.Vm.Uvm
import Xv6.Vm.Walk
import Xv6.Sched.Machine
import Xv6.Sched.Effects
import Xv6.Sched.Exclusive
import Xv6.Sched.Family
import Xv6.Sched.Reaping
import Xv6.Sched.Wakeup
import Xv6.Sched.Killed
import Xv6.Console.Console
import Xv6.Console.Discipline
import Xv6.Virtio.Driver
import Xv6.Virtio.Protocol
import Xv6.Bio.Cache
import Xv6.Bio.References
import Xv6.Bio.Agreement
import Xv6.Bio.Commit
import Xv6.Fs.Format
import Xv6.Fs.Inode
import Xv6.Fs.Ownership
import Xv6.Fs.Contents
import Xv6.Fs.Writing
import Xv6.Fs.Names
import Xv6.Mkfs.Mkfs
import Xv6.Mkfs.Append
import Xv6.Mkfs.Image
import Xv6.Mkfs.Consistency
import Xv6.Vm.Transfer
import Xv6.Vm.Strings
import Xv6.Pipe.Copying
import Xv6.Sched.Pids
import Xv6.Fs.Failure
import Xv6.Fs.Sharing
import Xv6.Lib.Chain
import Xv6.User.FreeList
import Xv6.User.Heap
import Xv6.User.Grammar
import Xv6.Fs.Itable
import Xv6.Sysfile.File
import Xv6.Sysfile.Sysfile
import Xv6.Kernel.Growing
import Xv6.Kernel.Isolation
import Xv6.Machine.State
import Xv6.Machine.Forking
import Xv6.Kernel.Arguments
import Xv6.Kernel.Loading
import Xv6.User.Grep
import Xv6.User.Printf
import Xv6.Fs.Reading
import Xv6.User.Redirects
import Xv6.User.Terminate
import Xv6.User.Sbrk
import Xv6.Lib.Links
import Xv6.Bio.Lru
import Xv6.Sched.Interrupts
import Xv6.Fs.Logged
import Xv6.Fs.Directory
import Xv6.Vm.Memmove
import Xv6.Lib.Measure
import Xv6.Fs.Paths
import Xv6.Fs.Tally
import Xv6.Sysfile.Balance
