import Xv6.AllocatorRuns
import Xv6.BufCoherence
import Xv6.CallCounts
import Xv6.ConsoleCursor
import Xv6.ConsoleEcho
import Xv6.ConsoleInput
import Xv6.ConsoleOriginal
import Xv6.ConsoleScreen
import Xv6.FailedCalls
import Xv6.FreeSlots
import Xv6.GrepLines
import Xv6.IdeDisk
import Xv6.KillWindow
import Xv6.LogCommit
import Xv6.LogRecovery
import Xv6.LogSpace
import Xv6.LostWakeup
import Xv6.MkfsShape
import Xv6.MostCaller
import Xv6.NextPrime
import Xv6.OwnLocks
import Xv6.PageRanges
import Xv6.PipeFifo
import Xv6.PipeWaits
import Xv6.PrintInt
import Xv6.ProcReap
import Xv6.ProcTree
import Xv6.SharedWrites
import Xv6.ShellLine
import Xv6.SleepMutex
import Xv6.TickSleep
import Xv6.UserPointers
import Xv6.VmProcesses
import Xv6.WaitForProcess
import Xv6.WriteLogs
