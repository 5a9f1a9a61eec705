import Xv6.Lib.Act
import Xv6.Lib.Run
import Xv6.Lib.Spin
import Xv6.Lib.Forest
import Xv6.Lib.Disk
import Xv6.Lib.Ranges
import Xv6.Lib.RingBuf
import Xv6.Lib.Code
import Xv6.Kernel.Defs
import Xv6.Kernel.Vm
import Xv6.Kernel.Copy
import Xv6.Kernel.Access
import Xv6.Kernel.Proc
import Xv6.Kernel.Protect
import Xv6.Kernel.Spec
import Xv6.Kernel.Block
import Xv6.Kernel.Commute
import Xv6.Kernel.Pages
import Xv6.Kernel.Space
import Xv6.Kernel.Returns
import Xv6.Kernel.Fit
import Xv6.Calls.Balance
import Xv6.Calls.Forkn
import Xv6.Calls.Reap
import Xv6.Calls.Failure
import Xv6.Machine.Step
import Xv6.Machine.Effect
import Xv6.Machine.Does
import Xv6.Machine.Sane
import Xv6.Machine.Sched
import Xv6.Machine.Sleep
import Xv6.Machine.Tree
import Xv6.Machine.Wait
import Xv6.Machine.Kill
import Xv6.Machine.Exit
import Xv6.Fs.Defs
import Xv6.Fs.Recover
import Xv6.Fs.Step
import Xv6.Fs.Group
import Xv6.Fs.Reserve
import Xv6.Fs.Inode
import Xv6.Fs.Dir
import Xv6.Fs.File
import Xv6.Fs.Layout
import Xv6.Fs.Ghost
import Xv6.Fs.Blocks
import Xv6.Fs.Held
import Xv6.Fs.Content
import Xv6.Fs.Calm
import Xv6.Fs.Names
import Xv6.Fs.Calls
import Xv6.Fs.Agree
import Xv6.Fs.Owned
import Xv6.Fs.Logged
import Xv6.Fs.Bytes
import Xv6.Fs.Map
import Xv6.Fs.Path
import Xv6.Io.Pipe
import Xv6.Io.PipeWake
import Xv6.User.Parse
import Xv6.User.Grammar
import Xv6.User.Shell
import Xv6.User.Malloc
import Xv6.Lib.Tiles
import Xv6.Lib.Alone
import Xv6.Lib.Slots
import Xv6.Lib.Zoom
import Xv6.Exec.Defs
import Xv6.Exec.Image
import Xv6.Exec.Load
import Xv6.Exec.Stack
import Xv6.Exec.Spec
import Xv6.Exec.Program
import Xv6.User.Redirect
import Xv6.User.Overrun
import Xv6.User.Memmove
import Xv6.User.Grep
import Xv6.User.Printf
import Xv6.Machine.Ticks
