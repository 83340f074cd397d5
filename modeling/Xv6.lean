import Xv6.Console.Discipline
import Xv6.Fs.ShortWrite
import Xv6.Grep.Lines
import Xv6.Itable.Safe
import Xv6.Log.CacheCommit
import Xv6.Log.History
import Xv6.Log.Reservation
import Xv6.Log.Waiting
import Xv6.Malloc.Safe
import Xv6.Mkfs.Boot
import Xv6.Names.Dangling
import Xv6.Names.Filewrite
import Xv6.Names.Limits
import Xv6.Names.LinkCounts
import Xv6.Pipes.Read
import Xv6.Pipes.Wakeup
import Xv6.Process.Life
import Xv6.Sched.Discipline
import Xv6.Sched.Pids
import Xv6.Sched.Sleeplock
import Xv6.Sh.Terminate
import Xv6.Ulib.Memmove
import Xv6.Virtio.Bookkeeping
import Xv6.Virtio.Completion
import Xv6.Vm.Refine
import Xv6.Vm.Strings
