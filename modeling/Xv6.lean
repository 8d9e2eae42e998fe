import Xv6.Proc.Budget
import Xv6.Proc.Wakeup
import Xv6.Proc.Orphan
import Xv6.Proc.Cred
import Xv6.Proc.Strict
import Xv6.Proc.Kill
import Xv6.Proc.Rollback
import Xv6.Proc.Sleep
import Xv6.Fs.Crash
import Xv6.Fs.Filewrite
import Xv6.Fs.Reserve
import Xv6.Fs.DirRefine
import Xv6.Fs.Dangling
import Xv6.Fs.FullDir
import Xv6.Fs.InodeDiscipline
import Xv6.Fs.Protect
import Xv6.Fs.BufCoherent
import Xv6.Fs.BufRoom
import Xv6.Vm.ExecGate
import Xv6.Vm.ExecFile
import Xv6.Proc.Accounting
import Xv6.Proc.Promotion
import Xv6.Proc.WaitRefine
import Xv6.File.PipeFifo
import Xv6.File.References
import Xv6.Vm.PageRuns
import Xv6.Vm.CopyOut
import Xv6.Vm.CopyUvm
import Xv6.Dev.ConsoleInput
import Xv6.Dev.IdeQueue
import Xv6.User.Memmove
import Xv6.User.Chmod
import Xv6.User.Malloc
