import OsKernel.Store
import OsKernel.Thread.Basic
import OsKernel.Thread.List
import OsKernel.Thread.Sched
import OsKernel.Thread.Invariant
import OsKernel.Thread.Frame
import OsKernel.Thread.Family
import OsKernel.Thread.Queue
import OsKernel.Thread.Stack
import OsKernel.Thread.ForkStack
import OsKernel.Thread.Table
import OsKernel.Thread.View
import OsKernel.Thread.Relink
import OsKernel.Thread.Preserve
import OsKernel.Thread.Recycle
import OsKernel.Thread.Create
import OsKernel.Thread.Safety
import OsKernel.Thread.Behaviour
import OsKernel.Thread.Resume
import OsKernel.Thread.Joins
import OsKernel.Thread.AnyRun
import OsKernel.Thread.Release
import OsKernel.Io.Intf
import OsKernel.Io.Transfer
import OsKernel.Io.Lit
import OsKernel.Io.Term
import OsKernel.Io.TermWrite
import OsKernel.Io.TermRead
import OsKernel.Io.Getsn
import OsKernel.Io.Puts
import OsKernel.Lib.Stdlib
import OsKernel.Lib.Strtok
