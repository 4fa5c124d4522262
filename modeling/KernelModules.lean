import KernelModules.Lib.Machine
import KernelModules.Lib.Scan
import KernelModules.Part3.Driver
import KernelModules.Part3.Steps
import KernelModules.Part3.Loops
import KernelModules.Part3.Runs
import KernelModules.Part3.Ledger
import KernelModules.Part3.Fifo
import KernelModules.Part3.Direction
import KernelModules.Part3.Progress
import KernelModules.Part3.Drain
import KernelModules.Part3.Service
import KernelModules.Part3.Shutdown
import KernelModules.Part3.Race
import KernelModules.Part3.Ride
import KernelModules.Part3.Syscalls
import KernelModules.Part3.Safety
import KernelModules.Part3.Boarding
import KernelModules.Lib.Text
import KernelModules.Part3.Report
import KernelModules.Part3.Locks
import KernelModules.Part3.LockRefinement
import KernelModules.Lib.Stepwise
import KernelModules.Part3.Statements
import KernelModules.Part3.ProcFs
import KernelModules.Part3.ModuleInit
import KernelModules.Part3.ModuleExit
import KernelModules.Lib.Decimals
import KernelModules.Part2.Elapsed
import KernelModules.Part2.PrintedTime
import KernelModules.Part3.Find
import KernelModules.Part3.ReadSizes
import KernelModules.Part3.LiftRefinement
import KernelModules.Part3.Overflow
import KernelModules.Part3.Starvation
import KernelModules.Part3.Clients
import KernelModules.Part3.LockProgress
import KernelModules.Part3.Atomic
import KernelModules.Part3.Monitor
import KernelModules.Lib.Sequence
import KernelModules.Part3.Lifetime
import KernelModules.Part3.Restart
import KernelModules.Lib.Commute
import KernelModules.Part3.Arrival
