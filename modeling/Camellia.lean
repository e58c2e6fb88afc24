import Camellia.Libk.PathSimplify
import Camellia.Libc.Whitelist
import Camellia.Kernel.State
import Camellia.Kernel.Proc
import Camellia.Lib.LinkTree
import Camellia.Kernel.Namespace
import Camellia.Kernel.Mount
import Camellia.Sandbox
import Camellia.Kernel.Paging
import Camellia.Kernel.Pcpy
import Camellia.Kernel.Malloc
import Camellia.Kernel.PathBuf
import Camellia.Kernel.PageAlloc
import Camellia.Kernel.Pagedir
import Camellia.Kernel.PagedirCopy
import Camellia.Kernel.PagedirFork
import Camellia.Kernel.Request
import Camellia.Kernel.Life
import Camellia.Kernel.Syscalls
import Camellia.Kernel.PageHeap
import Camellia.Kernel.Kmalloc
import Camellia.Kernel.PageRuns
import Camellia.Kernel.Update
import Camellia.Kernel.Ledger
import Camellia.Kernel.Frame
import Camellia.Kernel.Invariant
import Camellia.Kernel.PipeClose
import Camellia.Kernel.Calm
import Camellia.Kernel.CalmSyscalls
import Camellia.Kernel.Run
import Camellia.Lib.Sharing
import Camellia.Kernel.Peace
import Camellia.Kernel.Shares
import Camellia.Kernel.Steps
import Camellia.Kernel.LastUser
import Camellia.Kernel.Tree
import Camellia.Kernel.Wait
import Camellia.Kernel.Traffic
import Camellia.Kernel.Refdown
import Camellia.Cmd.Tmpfs
import Camellia.Kernel.Sleep
import Camellia.Lib.Chain
import Camellia.Cmd.TmpfsTree
import Camellia.Cmd.TmpfsDirs
import Camellia.Cmd.TmpfsFile
import Camellia.Kernel.Resolve
import Camellia.Kernel.Family
import Camellia.Kernel.Pids
import Camellia.Kernel.Byid
import Camellia.Kernel.Exhaust
import Camellia.Kernel.Reports
import Camellia.Kernel.Death
import Camellia.Kernel.Lifecycle
import Camellia.Kernel.Ata
import Camellia.Kernel.AtaWrite
import Camellia.Kernel.Pata
import Camellia.Libc.Esemaphore
import Camellia.Libc.Rendezvous
import Camellia.Cmd.Net.Proto
import Camellia.Cmd.Net.Tcp
import Camellia.Cmd.Net.TcpClose
import Camellia.Cmd.Net.TcpReset
import Camellia.Cmd.Net.Udp
import Camellia.Cmd.Net.UdpQueue
import Camellia.Kernel.Procfs
import Camellia.Kernel.ProcfsOpen
import Camellia.Kernel.ProcfsReaddir
import Camellia.Kernel.Postqueue
import Camellia.Kernel.Reserve
import Camellia.Kernel.PipeTransfer
import Camellia.Kernel.Directory
import Camellia.Kernel.PagedirUnmap
import Camellia.Kernel.PagedirMap
import Camellia.Kernel.Translate
import Camellia.Kernel.Memflag
import Camellia.Lib.Fifo
import Camellia.Libk.RingQueue
import Camellia.Cmd.Net.TcpWindow
import Camellia.Kernel.Hpet
import Camellia.Kernel.Rtl8139
import Camellia.Kernel.Respond
import Camellia.Lib.Cached
import Camellia.Libk.Snprintf
import Camellia.Kernel.Execbuf
import Camellia.Cmd.Net.Ipv4
import Camellia.Cmd.Net.Fragments
import Camellia.Cmd.Net.Within
import Camellia.Cmd.Net.Reassembly
import Camellia.Cmd.Net.Freed
import Camellia.Cmd.Net.Arp
import Camellia.Cmd.Net.Checksum
import Camellia.Libc.Strtol
import Camellia.Libc.ReadBack
import Camellia.Libc.Strtok
import Camellia.Libc.Dir
import Camellia.Libc.Listing
import Camellia.Libc.Stdio
import Camellia.Libc.Buffering
import Camellia.Libc.Fgetc
import Camellia.Libk.Memmove
import Camellia.Libc.StringBasic
import Camellia.Cmd.Net.IpParse
import Camellia.Cmd.Shell.Split
import Camellia.Libc.Chdir
import Camellia.Libc.Flush
import Camellia.Bootstrap.Tar
import Camellia.Libc.Elfload
import Camellia.Libc.ElfPages
import Camellia.Lib.Handout
import Camellia.Cmd.Ps2
import Camellia.Lib.HeapOrder
import Camellia.Libc.Sort
import Camellia.Cmd.Vterm
import Camellia.Cmd.Termcook
import Camellia.Lib.HeapCount
import Camellia.Kernel.Counters
import Camellia.Kernel.Steady
import Camellia.Kernel.SteadySyscalls
import Camellia.Kernel.Shadowing
import Camellia.Kernel.InFlight
