import Bsd386.Lib.Ranges
import Bsd386.Lib.Linked
import Bsd386.Kern.Fault
import Bsd386.Lib.TailQueue
import Bsd386.Lib.Threaded
import Bsd386.Kern.Subr.Rlist
import Bsd386.Kern.Lock.Basic
import Bsd386.Kern.Lock.Invariant
import Bsd386.Kern.Lock.Routines
import Bsd386.Kern.Inline.Queue
import Bsd386.Kern.Fs.Namcache.Basic
import Bsd386.Kern.Fs.Namcache.Structure
import Bsd386.Kern.Fs.Namcache.Routines
import Bsd386.Kern.Fs.Namcache.Integrity
import Bsd386.Kern.Fs.Namcache.History
import Bsd386.Kern.Fs.Namcache.Coherence
import Bsd386.Kern.Vm.Map.Basic
import Bsd386.Kern.Vm.Map.Lists
import Bsd386.Kern.Vm.Map.Operations
import Bsd386.Kern.Vm.Map.Updates
import Bsd386.Kern.Vm.Map.Refinement
import Bsd386.Kern.Malloc.Basic
import Bsd386.Kern.Malloc.Heap
import Bsd386.Kern.Malloc.Routines
import Bsd386.Kern.Malloc.Fill
import Bsd386.Kern.Malloc.Free
import Bsd386.Kern.Malloc.Integrity
import Bsd386.Kern.Socket.Mbuf
import Bsd386.Inet.Delivery
import Bsd386.Kern.Vm.SwapPager.RoundTrip
import Bsd386.Ufs.Lockf.Deadlock
import Bsd386.Bpf.Safety
import Bsd386.Kern.Descrip.Integrity
import Bsd386.Kern.Sockbuf.Refinement
import Bsd386.Un.Rights.Accounting
import Bsd386.Kern.Clock.Deadlines
import Bsd386.Kern.Sleep.Basic
import Bsd386.Kern.Sleep.Integrity
import Bsd386.Kern.Sleep.Reached
import Bsd386.Un.Rights.Garbage
import Bsd386.Kern.Select.Basic
import Bsd386.Kern.Select.Safety
import Bsd386.Kern.Sleep.Alert
import Bsd386.Kern.Sleep.Delivery
import Bsd386.Kern.Cred.Basic
import Bsd386.Kern.Cred.Isolation
import Bsd386.Kern.Cred.Runs
import Bsd386.Dosfs.Accounting
import Bsd386.Dosfs.Writers.Basic
import Bsd386.Dosfs.Writers.Run
import Bsd386.Dosfs.Writers.Safety
import Bsd386.Dosfs.Names
import Bsd386.Dosfs.RoundTrip
import Bsd386.Dosfs.Table.Basic
import Bsd386.Dosfs.Table.Entry
import Bsd386.Dosfs.Table.Codes
import Bsd386.Dosfs.Table.Array
import Bsd386.Lib.Slots
import Bsd386.Dosfs.Rename.Basic
import Bsd386.Dosfs.Rename.Tree
import Bsd386.Dosfs.Rename.Success
import Bsd386.Dosfs.Rename.Exact
import Bsd386.Dosfs.Rename.Calls
import Bsd386.Lib.Calendar
import Bsd386.Dosfs.Conv.Basic
import Bsd386.Nfs.Bio.Basic
import Bsd386.Nfs.Bio.Delayed
import Bsd386.Lib.Words
import Bsd386.Libc.Malloc.Basic
import Bsd386.Libc.Malloc.Blocks
import Bsd386.Libc.Malloc.Intact
import Bsd386.Lib.Segments
import Bsd386.Libc.Radixsort.Basic
import Bsd386.Libc.Radixsort.Shell
import Bsd386.Libc.Radixsort.Partition
import Bsd386.Libc.Radixsort.Contexts
import Bsd386.Libc.Radixsort.Divide
import Bsd386.Libc.Sort.Basic
import Bsd386.Libc.Sort.Records
import Bsd386.Libc.Sort.Insertion
import Bsd386.Libc.Sort.Search
import Bsd386.Libc.Sort.Quick
import Bsd386.Lib.Heap
import Bsd386.Libc.Sort.Heap
import Bsd386.Libc.Sort.Exact
import Bsd386.Libc.Vis.Basic
import Bsd386.Lib.Machine
import Bsd386.Lib.RingBuffer
import Bsd386.Termios.Basic
import Bsd386.Termios.Editor
import Bsd386.Termios.Refinement
import Bsd386.Kern.Vm.Map.Find
import Bsd386.Kern.Vm.Map.Pages
import Bsd386.Kern.Vm.PageFault.Balance
import Bsd386.Kern.Vm.Space.Returned
import Bsd386.Kern.Vm.Space.Sizes
import Bsd386.Kern.Vm.Space.Translations
import Bsd386.Kern.Vm.Space.CopyOnWrite
import Bsd386.Kern.Subr.Ring
import Bsd386.Kern.Subr.Disksort
import Bsd386.Kern.Subr.Barriers
import Bsd386.Inet.Options
import Bsd386.Inet.Hostile
import Bsd386.Kern.Fs.Bio
import Bsd386.Kern.Fs.BufferSpace
import Bsd386.Kern.Mbufs.Basic
import Bsd386.Kern.Mbufs.Sharing
import Bsd386.Kern.Mbufs.Bytes
import Bsd386.Kern.Mbufs.Pullup
import Bsd386.Kern.Mbufs.Refinement
import Bsd386.Kern.Mbufs.Clusters
import Bsd386.Inet.InCksum
import Bsd386.Inet.Checksums
import Bsd386.Bpf.Validator
import Bsd386.Bpf.Registers
import Bsd386.Bpf.Layout
import Bsd386.Kern.Clock.Timeval
import Bsd386.Kern.Clock.Hzto
import Bsd386.Tcp.Estimator
import Bsd386.Tcp.Output
import Bsd386.Tcp.Timers
import Bsd386.Lib.Sequence
import Bsd386.Tcp.Window.Basic
import Bsd386.Tcp.Window.Queue
import Bsd386.Tcp.Window.Invariant
import Bsd386.Tcp.Window.Input
import Bsd386.Tcp.Window.Step
import Bsd386.Kern.Clock.Itimer
import Bsd386.Kern.Clock.Adjtime
import Bsd386.Kern.Sched.Priority
import Bsd386.Kern.Vm.Pageout
import Bsd386.Kern.Fork.Basic
import Bsd386.Kern.Fork.Pids
import Bsd386.Kern.Fork.Limits
