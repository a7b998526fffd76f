import OsCa.Kernel.Log.Pins
import OsCa.Kernel.Log.Reservation
import OsCa.Kernel.Sysfile.Chunks
import OsCa.Kernel.Sysfile.Resolution
import OsCa.Kernel.Sysfile.Recovery
import OsCa.Kernel.Ftable.Counts
import OsCa.Kernel.Proc.Slots
import OsCa.Kernel.Locking.Discipline
import OsCa.Kernel.Pipe.Wakeups
import OsCa.Kernel.Console.Editor
import OsCa.Kernel.Uart
import OsCa.Kernel.Vm.Map
import OsCa.Kernel.Vm.Arguments
import OsCa.Kernel.Vm.Fork
import OsCa.Kernel.Read
import OsCa.Kernel.Clock
import OsCa.Kernel.Sleeplock
import OsCa.Kernel.Interrupts
import OsCa.Kernel.Virtio.Protocol
import OsCa.User.Threads.Guarantees
import OsCa.User.Shell.Pipeline
import OsCa.User.Shell.Redirections
import OsCa.User.Malloc.Requests
import OsCa.User.Grep.Lines
import OsCa.Memmove
import OsCa.Cpu.Refinement
import OsCa.Homework.MergeSort
import OsCa.Homework.Recurrence
import OsCa.Homework.Calculator
