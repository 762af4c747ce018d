import AsyncEry.Lib.Ring
import AsyncEry.Lib.Run
import AsyncEry.Lib.Simulation
import AsyncEry.Lib.Progress
import AsyncEry.Lib.Lock
import AsyncEry.Lib.Monitor
import AsyncEry.Lib.Conserve
import AsyncEry.Lib.Forest
import AsyncEry.Lib.Calendar
import AsyncEry.Lib.Mealy
import AsyncEry.Lib.Atomic
import AsyncEry.Lib.SharedMutex
import AsyncEry.Basic
import AsyncEry.JobQueue
import AsyncEry.JobQueueResize
import AsyncEry.JobQueueThreads
import AsyncEry.WorkerPool
import AsyncEry.FindNewWork
import AsyncEry.PooledJobs
import AsyncEry.PoolProgress
import AsyncEry.PoolIdle
import AsyncEry.SpinLock
import AsyncEry.WriteOnceCell
import AsyncEry.CellHeap
import AsyncEry.TrackingOnceCell
import AsyncEry.Inputs
import AsyncEry.WhenAllCell
import AsyncEry.WhenAllCompletes
import AsyncEry.WhenAnyCell
import AsyncEry.CellRanks
import AsyncEry.CellThreads
import AsyncEry.CellBlock
import AsyncEry.CellRegister
import AsyncEry.Task
import AsyncEry.DerivedTasks
import AsyncEry.MapBind
import AsyncEry.TaskInv
import AsyncEry.TaskEval
import AsyncEry.TaskWork
import AsyncEry.TaskPool
import AsyncEry.PooledTasks
import AsyncEry.TaskCompletes
import AsyncEry.Schedulers
import AsyncEry.Chrono
import AsyncEry.Timetable
import AsyncEry.TimingWheel
import AsyncEry.PollLoop
import AsyncEry.PollPeriod
import AsyncEry.HierarchicalTimingWheel
import AsyncEry.WheelDues
import AsyncEry.WheelRuns
import AsyncEry.WheelStores
import AsyncEry.WheelReleases
import AsyncEry.WheelLevels
import AsyncEry.WheelDrift
import AsyncEry.WheelCapacity
import AsyncEry.WheelOdometer
import AsyncEry.PollSource
import AsyncEry.PollSourceGuarded
import AsyncEry.TaskTimerSource
import AsyncEry.TimerCompletes
import AsyncEry.IoPollSource
import AsyncEry.TaskIOSource
import AsyncEry.LockGuard
import AsyncEry.JobQueueGuarded
import AsyncEry.JobQueueAtomic
import AsyncEry.JobQueueCapacity
import AsyncEry.TimerLatency
import AsyncEry.PollProgress
import AsyncEry.TimerScheduler
import AsyncEry.TimerProgress
