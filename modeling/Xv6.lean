import Xv6.Block.Recency
import Xv6.Block.Completions
import Xv6.Ipc.Ready
import Xv6.Log.Admission
import Xv6.Log.Crash
import Xv6.Proc.Elf
import Xv6.Proc.Exec
import Xv6.Proc.Exit
import Xv6.Proc.Grow
import Xv6.Proc.Kill
import Xv6.Proc.Pids
import Xv6.Proc.Protect
import Xv6.Proc.Room
import Xv6.Sched.Fair
import Xv6.Sched.Tree
import Xv6.User.Lines
import Xv6.User.Memmove
import Xv6.User.ShRun
import Xv6.User.UmallocRun
import Xv6.Vm.Lookup
