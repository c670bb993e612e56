import Xv6.Foundation.Run
import Xv6.Log.Admission
import Xv6.Log.CrashAtomic
import Xv6.Cache.Coupled
import Xv6.Cache.Demand
import Xv6.Console.Lines
import Xv6.Disk.Served
import Xv6.Foundation.RingBuffer
import Xv6.Fs.Bitmap
import Xv6.Log.Unlocked
import Xv6.Inode.Correct
import Xv6.Fs.Quota
import Xv6.Fs.Shared
import Xv6.Fs.Namei
import Xv6.Fs.Called
import Xv6.Fs.FullDirectory
import Xv6.Fs.Runs
import Xv6.Pipe.Fifo
import Xv6.Pipe.Killed
import Xv6.Proc.Kill
import Xv6.Sched.Safe
import Xv6.Syscall.Checked
import Xv6.Vm.RefCounts
import Xv6.Vm.AddressSpace
import Xv6.Vm.ExecSafe
import Xv6.User.GrepLines
import Xv6.Vm.Unmap
import Xv6.Vm.Copyout
import Xv6.Vm.Alloc
import Xv6.Vm.Copy
import Xv6.Vm.Sbrk
import Xv6.Vm.ExecImage
import Xv6.Lib.Bounds
import Xv6.Boot.MpScan
import Xv6.User.Regexp
import Xv6.Boot.Loaded
import Xv6.Boot.Elf
import Xv6.User.Leaves
import Xv6.User.Allocations
import Xv6.User.Partition
import Xv6.User.Derives
import Xv6.User.Descriptors
import Xv6.Mkfs.Resting
