import Xv6.Log.Crash
import Xv6.Log.Admission
import Xv6.Fs.Refine
import Xv6.Fs.Calls
import Xv6.Fs.DirMap
import Xv6.Kernel.Open
import Xv6.Kernel.Grow
import Xv6.Kernel.Fork
import Xv6.Kernel.Args
import Xv6.Vm.Map
import Xv6.Vm.Str
import Xv6.Console.Undelivered
import Xv6.Console.Output
import Xv6.Kernel.Exec
import Xv6.Kernel.Shared
import Xv6.Kernel.Kill
import Xv6.Kernel.Write
import Xv6.Pipe.Wake
import Xv6.Pipe.Space
import Xv6.Sched.Wakeup
import Xv6.Sched.Wait
import Xv6.Sched.Killed
import Xv6.Bio.Pool
import Xv6.Virtio.Ack
import Xv6.User.Primes
import Xv6.User.Xargs
import Xv6.User.Find
import Xv6.User.Memmove
import Xv6.User.Heap
import Xv6.Sh.Words
import Xv6.Sh.Lines
import Xv6.Sh.Plumbing
import Xv6.Bio.Lru
import Xv6.Sched.Sleeplock
import Xv6.Kernel.Failed
import Xv6.Kernel.Descriptors
