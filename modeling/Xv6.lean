import Xv6.Kernel.PageInv
import Xv6.Kernel.Account
import Xv6.Kernel.CvWords
import Xv6.Kernel.MutexNames
import Xv6.Kernel.Owners
import Xv6.Kernel.SleepLock
import Xv6.Kernel.ShmCount
import Xv6.Kernel.WaitZombie
import Xv6.Container.Spec
import Xv6.Container.Resolve
import Xv6.Container.Create
import Xv6.Container.Preempt
import Xv6.Container.Requests
import Xv6.Log.Atomic
import Xv6.Log.Space
import Xv6.File.PipeWakeup
import Xv6.File.Console
import Xv6.Fs.SharedFd
import Xv6.Fs.Bcache
import Xv6.Fs.IcacheSafe
import Xv6.Fs.Exact
import Xv6.Fs.MkfsBoot
import Xv6.Syscall.Checked
import Xv6.Shell.Correct
import Xv6.Kernel.PrioCall
import Xv6.Kernel.Family
import Xv6.Kernel.ArgStack
import Xv6.Container.Strtok
import Xv6.Fs.Range
import Xv6.Libc.Memory
import Xv6.User.Grep
