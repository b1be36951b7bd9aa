import ECE3056.Library.History
import ECE3056.Library.Recency
import ECE3056.Library.AddressSplit
import ECE3056.Cache.Cachesim
import ECE3056.Cache.SetInvariant
import ECE3056.Cache.L2Lru
import ECE3056.Cache.Hierarchy
import ECE3056.Cache.Associativity
import ECE3056.Cache.WriteBack
import ECE3056.Cache.Geometry
import ECE3056.Cache.Splitting
import ECE3056.Cache.Slots
import ECE3056.Library.Tally
import ECE3056.Cache.Counters
import ECE3056.Cache.PrintStats
import ECE3056.Cache.L1Hits
import ECE3056.Library.Fallible
import ECE3056.Library.Scanf
import ECE3056.Cache.TraceFile
import ECE3056.Library.LinkedList
import ECE3056.Vm.Swap
import ECE3056.Vm.SwapSpec
import ECE3056.Vm.SwapStore
import ECE3056.Vm.Paging
import ECE3056.Vm.Layout
import ECE3056.Vm.DirtyPages
import ECE3056.Vm.Realizes
import ECE3056.Vm.PageFault
import ECE3056.Vm.Process
import ECE3056.Vm.Transparency
import ECE3056.Vm.SwapSpace
import ECE3056.Vm.Statistics
import ECE3056.Vm.CheckValidity
import ECE3056.Vm.CheckSound
import ECE3056.Vm.CleanPages
import ECE3056.Vm.MainLoop
import ECE3056.Vm.Victim
import ECE3056.Vm.Exhaustion
import ECE3056.Vm.TraceFile
import ECE3056.Vm.Printed
import ECE3056.Vm.Sound
import ECE3056.Vm.SoundSteps
import ECE3056.Vm.BadLines
import ECE3056.Library.Pipeline
import ECE3056.Mips.Datapath
import ECE3056.Mips.Isa
import ECE3056.Mips.Stages
import ECE3056.Mips.Refinement
import ECE3056.Mips.Latched
import ECE3056.Mips.Forwarding
import ECE3056.Mips.Stores
import ECE3056.Mips.Branches
import ECE3056.Mips.ZeroRegister
import ECE3056.Mips.Machine
import ECE3056.Mips.Schedule
import ECE3056.Mips.Transfers
import ECE3056.Mips.Execution
import ECE3056.Library.Custody
import ECE3056.Library.LockCount
import ECE3056.Scheduling.ReadyList
import ECE3056.Scheduling.Disciplines
import ECE3056.Scheduling.Student
import ECE3056.Scheduling.Placement
import ECE3056.Scheduling.Exclusive
import ECE3056.Scheduling.WakeUp
import ECE3056.Scheduling.IdleWait
import ECE3056.Scheduling.Simulator
import ECE3056.Scheduling.Processes
import ECE3056.Scheduling.Service
import ECE3056.Scheduling.Handshake
import ECE3056.Scheduling.CpuThread
import ECE3056.Scheduling.Supervisor
import ECE3056.Scheduling.Events
import ECE3056.Scheduling.ExactService
import ECE3056.Scheduling.TimeRemaining
import ECE3056.Scheduling.WriterLock
import ECE3056.Library.Fairness
import ECE3056.Scheduling.Turns
import ECE3056.Scheduling.Exit
import ECE3056.Scheduling.Progress
import ECE3056.Scheduling.FairRuns
import ECE3056.Scheduling.Remaining
import ECE3056.Scheduling.Completion
import ECE3056.Scheduling.TimeSlice
import ECE3056.Scheduling.Gantt
import ECE3056.Scheduling.IoQueue
import ECE3056.Library.Congruential
import ECE3056.Vm.Prng
import ECE3056.Scheduling.CommandLine
