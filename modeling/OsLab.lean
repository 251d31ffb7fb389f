import OsLab.Loop
import OsLab.Sched
import OsLab.SchedSound
import OsLab.Fcfs
import OsLab.Mlfq
import OsLab.Lottery
import OsLab.Edf
import OsLab.WorkSteal
import OsLab.Schedulers
import OsLab.Greedy
import OsLab.Chart
import OsLab.Metrics
import OsLab.WorkStealPlaces
import OsLab.WorkStealChart
import OsLab.Runs
import OsLab.Makespan
import OsLab.MetricsChart
import OsLab.Agreement
import OsLab.Horizon
import OsLab.MlfqLevels
import OsLab.MlfqQueues
import OsLab.ListSchedule
import OsLab.FcfsFollows
import OsLab.FcfsList
import OsLab.EdfGlobal
import OsLab.EdfOptimal
import OsLab.EdfVerdict
import OsLab.Hyperbolic
import OsLab.Rms
import OsLab.RmsSound
import OsLab.RmsBound
import OsLab.RmsRepeat
import OsLab.RmsIsolation
import OsLab.Machine
import OsLab.Vm
import OsLab.Kernel
import OsLab.Ownership
import OsLab.VmSound
import OsLab.VmGrow
import OsLab.ProcSound
import OsLab.KernelSound
import OsLab.KernelStep
import OsLab.Sharing
import OsLab.Leak
import OsLab.Alarm
import OsLab.Control
import OsLab.Killed
import OsLab.Cadence
import OsLab.AlarmImage
import OsLab.VmBounds
import OsLab.VmPanics
import OsLab.ProcPanics
import OsLab.KernelPanics
import OsLab.Clone
import OsLab.CString
import OsLab.UserMem
import OsLab.CopyFrame
import OsLab.WaitScan
import OsLab.Mailbox
import OsLab.Psinfo
import OsLab.SemaphoreCount
import OsLab.SemCopy
import OsLab.ReapLog
import OsLab.KillSleep
import OsLab.PsinfoScan
import OsLab.Simulation
import OsLab.Phys
import OsLab.PhysTable
import OsLab.PhysVm
import OsLab.PhysCopy
import OsLab.PhysProc
import OsLab.PhysRefine
import OsLab.CInt
import OsLab.RmsOverflow
import OsLab.RmsGantt
import OsLab.ExchangeSort
import OsLab.FcfsSort
import OsLab.Trace
import OsLab.SchedUses
import OsLab.SchedBounds
import OsLab.SchedOverrun
import OsLab.Creation
import OsLab.PhysLayout
import OsLab.LogSpace
import OsLab.PipeSound
import OsLab.GrepLoop
import OsLab.FsRun
import OsLab.PipeWake
