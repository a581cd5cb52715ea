import Phpco.Transition
import Phpco.Simulation
import Phpco.Cooperative
import Phpco.Cidmap
import Phpco.NextFit
import Phpco.CidRuns
import Phpco.Engine
import Phpco.EventTable
import Phpco.EventTableInvariant
import Phpco.SlotLaw
import Phpco.Link
import Phpco.Lifecycle
import Phpco.CoroutineUtil
import Phpco.Coroutine
import Phpco.Steps
import Phpco.TableSteps
import Phpco.Moves
import Phpco.TimeSteps
import Phpco.Scheduler
import Phpco.CheckPoints
import Phpco.Bounds
import Phpco.Frames
import Phpco.Registration
import Phpco.WaiterLaw
import Phpco.CallLaw
import Phpco.ReportLaw
import Phpco.BatchLaw
import Phpco.SchedulerRuns
import Phpco.Buffers
import Phpco.Pages
import Phpco.ResumeLaw
import Phpco.NestingLaw
import Phpco.LifeSteps
import Phpco.LifeLaw
import Phpco.Cooperation
import Phpco.ControlLaw
import Phpco.InvokeLaw
import Phpco.CidLaw
import Phpco.Defined
import Phpco.RefusalLaw
import Phpco.SleepLaw
import Phpco.LinkedList
import Phpco.StackSteps
import Phpco.TimeoutQueue
import Phpco.TimeoutPasses
import Phpco.QueueLaw
import Phpco.TimeoutLaw
import Phpco.ValueLaw
import Phpco.InBounds
import Phpco.IndexLaw
import Phpco.RequestLaw
import Phpco.Disposals
import Phpco.Owners
import Phpco.OwnershipLaw
import Phpco.SearchLaw
import Phpco.PassLaw
import Phpco.DeleteLaw
import Phpco.HashTable
import Phpco.HashTableChains
import Phpco.HashTableLaw
import Phpco.HashTableReleases
import Phpco.ResultLaw
import Phpco.Trace
import Phpco.FailureLaw
import Phpco.ResourceLaw
import Phpco.SafetyLaw
import Phpco.Termination
import Phpco.ReturnLaw
import Phpco.WakeLaw
import Phpco.ServiceLaw
import Phpco.CompletionLaw
import Phpco.ExpiryLaw
