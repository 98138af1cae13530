import NetBSD.Bpf.Layout
import NetBSD.Bpf.Machine
import NetBSD.Bpf.Safety
import NetBSD.Btree.Conv
import NetBSD.Btree.Cursor
import NetBSD.Btree.Dleaf
import NetBSD.Btree.Dups
import NetBSD.Btree.Map
import NetBSD.Btree.Psplit
import NetBSD.Btree.Seq
import NetBSD.Compress.Getcode
import NetBSD.Compress.Zopen
import NetBSD.Compress.Zread
import NetBSD.Db.Coherent
import NetBSD.Db.Mpool
import NetBSD.Db.Transparent
import NetBSD.Fd.Avail
import NetBSD.Fd.Calls
import NetBSD.Fd.Descrip
import NetBSD.Fd.Files
import NetBSD.Fd.Sound
import NetBSD.Fd.Table
import NetBSD.Ffs.Alloc
import NetBSD.Ffs.Blocks
import NetBSD.Ffs.Bookkeeping
import NetBSD.Ffs.Clusters
import NetBSD.Ffs.Frags
import NetBSD.Ffs.Free
import NetBSD.Ffs.Fs
import NetBSD.Ffs.Inodes
import NetBSD.Ffs.Lost
import NetBSD.Ffs.Map
import NetBSD.Ffs.Search
import NetBSD.Ffs.Sound
import NetBSD.Ffs.Summary
import NetBSD.Ffs.Updates
import NetBSD.Ffs.Volume
import NetBSD.Fnmatch.Fnmatch
import NetBSD.Fnmatch.Matching
import NetBSD.Hash.Buckets
import NetBSD.Hash.Ovfl
import NetBSD.Ip.Cksum
import NetBSD.Ip.Dooptions
import NetBSD.Ip.Fragments
import NetBSD.Ip.IcmpError
import NetBSD.Ip.Input
import NetBSD.Ip.Insertoptions
import NetBSD.Ip.Moptions
import NetBSD.Ip.Optcopy
import NetBSD.Ip.Output
import NetBSD.Ip.Pieces
import NetBSD.Ip.RawIp
import NetBSD.Ip.Reassembly
import NetBSD.Ip.Recorded
import NetBSD.Ip.Shorts
import NetBSD.Ip.Srcroute
import NetBSD.Kern.Callout
import NetBSD.Kern.Freelist
import NetBSD.Kern.Malloc
import NetBSD.Kern.Timely
import NetBSD.Lib.Arrays
import NetBSD.Lib.Backlinks
import NetBSD.Lib.Bitmap
import NetBSD.Lib.Checksum
import NetBSD.Lib.File
import NetBSD.Lib.Framing
import NetBSD.Lib.Links
import NetBSD.Lib.LongDivision
import NetBSD.Lib.Machine
import NetBSD.Lib.Reassembly
import NetBSD.Lib.Ring
import NetBSD.Lib.Runs
import NetBSD.Lib.Spans
import NetBSD.Lib.Wrapping
import NetBSD.Lib.Writeback
import NetBSD.Malloc.Blocks
import NetBSD.Malloc.Calls
import NetBSD.Malloc.Layout
import NetBSD.Malloc.Malloc
import NetBSD.Mbuf.Adj
import NetBSD.Mbuf.Chain
import NetBSD.Mbuf.Copym
import NetBSD.Mbuf.Split
import NetBSD.Namecache.Cache
import NetBSD.Namecache.Calls
import NetBSD.Namecache.Fresh
import NetBSD.Net.Ifwithnet
import NetBSD.Pcb.Cache
import NetBSD.Pcb.Demux
import NetBSD.Pcb.Ephemeral
import NetBSD.Pcb.Inpcb
import NetBSD.Quad.Division
import NetBSD.Quad.Muldi3
import NetBSD.Quad.ProgramD
import NetBSD.Quad.Qdivrem
import NetBSD.Quad.Shifts
import NetBSD.Resolv.Comp
import NetBSD.Resolv.Compress
import NetBSD.Resolv.Find
import NetBSD.Resolv.Name
import NetBSD.Resolv.Roundtrip
import NetBSD.Rmap.Calls
import NetBSD.Rmap.Integrity
import NetBSD.Rmap.Ranges
import NetBSD.Route.Rtsock
import NetBSD.Shm.Accounts
import NetBSD.Shm.Calls
import NetBSD.Shm.Events
import NetBSD.Shm.Segment
import NetBSD.Sl.Coding
import NetBSD.Sl.Compress
import NetBSD.Sl.Session
import NetBSD.Slip.Framing
import NetBSD.Slip.Interface
import NetBSD.Stdlib.Heapsort
import NetBSD.Stdlib.Qsort
import NetBSD.Stdlib.Sorting
import NetBSD.Sysv.Call
import NetBSD.Sysv.Conserve
import NetBSD.Sysv.Data
import NetBSD.Sysv.Held
import NetBSD.Sysv.Msg
import NetBSD.Sysv.Order
import NetBSD.Sysv.Pool
import NetBSD.Sysv.Queue
import NetBSD.Sysv.Sem
import NetBSD.Sysv.Semexit
import NetBSD.Sysv.Semop
import NetBSD.Sysv.Sleepers
import NetBSD.Sysv.Storage
import NetBSD.Sysv.Undo
import NetBSD.Tcp.Advertised
import NetBSD.Tcp.Conn
import NetBSD.Tcp.Options
import NetBSD.Tcp.Pieces
import NetBSD.Tcp.Prediction
import NetBSD.Tcp.Smoothing
import NetBSD.Tcp.Stream
import NetBSD.Tcp.Var
import NetBSD.Tty.Clist
import NetBSD.Tty.Fifo
import NetBSD.Tty.Queue
import NetBSD.Tty.Refine
import NetBSD.Ufs.Getlbns
import NetBSD.Ufs.Lbns
import NetBSD.Uipc.Accept
import NetBSD.Uipc.Accounting
import NetBSD.Uipc.Append
import NetBSD.Uipc.Backlog
import NetBSD.Uipc.Compress
import NetBSD.Uipc.Control
import NetBSD.Uipc.Drop
import NetBSD.Uipc.Insque
import NetBSD.Uipc.Pending
import NetBSD.Uipc.Queues
import NetBSD.Uipc.Records
import NetBSD.Uipc.Remque
import NetBSD.Uipc.Sockbuf
import NetBSD.Uipc.Socket
import NetBSD.Uipc.Soreceive
import NetBSD.Uipc.Sosend
import NetBSD.Unp.Accounts
import NetBSD.Unp.Close
import NetBSD.Unp.Collect
import NetBSD.Unp.Exact
import NetBSD.Unp.Gc
import NetBSD.Unp.Mark
import NetBSD.Unp.Rights
import NetBSD.Vfs.Deadlock
import NetBSD.Vfs.Lockf
import NetBSD.Vfs.Locking
import NetBSD.Vfs.Overlap
import NetBSD.Vfs.Update
import NetBSD.Vfs.Waiters
import NetBSD.Vis.Vis
import NetBSD.Vm.AllOrNothing
import NetBSD.Vm.Clean
import NetBSD.Vm.Cleaned
import NetBSD.Vm.Copies
import NetBSD.Vm.Findspace
import NetBSD.Vm.FirstFree
import NetBSD.Vm.Fork
import NetBSD.Vm.Forked
import NetBSD.Vm.Good
import NetBSD.Vm.Inheritance
import NetBSD.Vm.Map
import NetBSD.Vm.Order
import NetBSD.Vm.Pageable
import NetBSD.Vm.Pointwise
import NetBSD.Vm.Range
import NetBSD.Vm.Wire
