import Xv6.Lib.Run
import Xv6.Lib.Writes
import Xv6.Lib.Ring
import Xv6.Lib.Prog
import Xv6.Lib.Wp
import Xv6.Lib.Act
import Xv6.Lib.Marks
import Xv6.Param
import Xv6.Log.Model
import Xv6.Log.Invariant
import Xv6.Log.Crash
import Xv6.Log.Admission
import Xv6.Process.Model
import Xv6.Process.System
import Xv6.Process.Effect
import Xv6.Process.Kill
import Xv6.Process.Condemned
import Xv6.Process.Filter
import Xv6.Process.Reuse
import Xv6.Vm.Page
import Xv6.Vm.Table
import Xv6.Vm.Fault
import Xv6.Vm.Image
import Xv6.Vm.Rules
import Xv6.Vm.Forest
import Xv6.Vm.Ghost
import Xv6.Vm.Walk
import Xv6.Vm.Contents
import Xv6.Vm.MapSpec
import Xv6.Vm.UnmapSpec
import Xv6.Vm.World
import Xv6.Vm.FaultSpec
import Xv6.Vm.CopySpec
import Xv6.Vm.FreeSpec
import Xv6.Vm.ImageSpec
import Xv6.Vm.ExecSpec
import Xv6.Vm.StackSpec
import Xv6.Vm.SysExec
import Xv6.Vm.KernSpec
import Xv6.Vm.ForkSpec
import Xv6.Vm.Machine
import Xv6.Vm.Runs
import Xv6.Vm.Isolation
import Xv6.Vm.Teardown
import Xv6.Ipc.Pipe
import Xv6.Ipc.Channel
import Xv6.Ipc.Console
import Xv6.Lib.Claims
import Xv6.Ftable.Model
import Xv6.Ftable.Refs
import Xv6.Ftable.Calls
import Xv6.Virtio.Model
import Xv6.Virtio.Driver
import Xv6.Sched.Model
import Xv6.Sched.Edges
import Xv6.Sched.Effect
import Xv6.Sched.Invariant
import Xv6.Sched.Tables
import Xv6.Sched.Wakeup
import Xv6.Fs.Disk
import Xv6.Fs.Dir
import Xv6.Fs.Sysfile
import Xv6.Fs.Own
import Xv6.Fs.BlockSpec
import Xv6.Fs.TruncSpec
import Xv6.Fs.TableSpec
import Xv6.Fs.ContentSpec
import Xv6.Fs.Room
import Xv6.Fs.DirSpec
import Xv6.Fs.PathSpec
import Xv6.Fs.Blocks
import Xv6.Fs.Reclaim
import Xv6.Lib.Links
import Xv6.Fs.Tree
import Xv6.Fs.System
import Xv6.Fs.DirMap
import Xv6.Fs.Resolve
import Xv6.Family.Model
import Xv6.Family.Edges
import Xv6.Family.Kin
import Xv6.Family.Collect
import Xv6.Lib.Dll
import Xv6.Lib.Refine
import Xv6.Bio.Model
import Xv6.Bio.Edges
import Xv6.Bio.Control
import Xv6.Bio.Cache
import Xv6.Bio.Coherence
import Xv6.Bio.Exhaust
import Xv6.Lib.Tally
import Xv6.Itable.Model
import Xv6.Itable.Edges
import Xv6.Itable.Entry
import Xv6.Itable.Table
import Xv6.Itable.Free
import Xv6.Fs.Bytes
import Xv6.Fs.Share
import Xv6.Mkfs.Format
import Xv6.Mkfs.Model
import Xv6.Mkfs.Append
import Xv6.Mkfs.Build
import Xv6.Mkfs.Image
import Xv6.Mkfs.ReadBack
import Xv6.Lib.Circular
import Xv6.Umalloc.Model
import Xv6.Umalloc.FreeList
import Xv6.Umalloc.Walk
import Xv6.Umalloc.Integrity
import Xv6.Umalloc.Runs
import Xv6.Umalloc.Huge
import Xv6.Clib.Move
import Xv6.Clib.Print
