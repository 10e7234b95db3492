import Vsched.Foundation.FirstFit
import Vsched.Foundation.Labelled
import Vsched.Foundation.Locks
import Vsched.Foundation.OrderedMap
import Vsched.Foundation.Ranked
import Vsched.Foundation.Ring
import Vsched.Foundation.Slots
import Vsched.Deque.Machine
import Vsched.Deque.Invariant
import Vsched.Deque.Capacity
import Vsched.Deque.Refinement
import Vsched.Deque.Failure
import Vsched.Deque.Sequential
import Vsched.Map.Memory
import Vsched.Map.Machine
import Vsched.Map.Invariant
import Vsched.Map.Account
import Vsched.Map.Distinct
import Vsched.Map.Attempts
import Vsched.Map.Least
import Vsched.Map.Sequential
import Vsched.Map.Ledger
import Vsched.Map.Length
import Vsched.Map.Passed
import Vsched.Map.Reader
import Vsched.Map.Room
import Vsched.Map.Solo
import Vsched.Map.Steady
import Vsched.Map.Unique
import Vsched.Map.WaitFree
import Vsched.Sched.Base
import Vsched.Sched.Cfs
import Vsched.Sched.Cpu
import Vsched.Sched.Custody
import Vsched.Sched.Loss
import Vsched.Sched.Minimum
import Vsched.Sched.Order
import Vsched.Sched.Priority
import Vsched.Sched.Fair
import Vsched.Sched.Honest
import Vsched.Sched.Room
import Vsched.Sched.Shared
import Vsched.Sched.Slice
import Vsched.Sched.Turns
import Vsched.Handoff.Model
import Vsched.Handoff.Place
import Vsched.Handoff.Bound
import Vsched.Handoff.Hold
import Vsched.Handoff.Cover
import Vsched.Handoff.Total
import Vsched.Smp.Machine
import Vsched.Smp.Play
import Vsched.Smp.View
import Vsched.Smp.Local
import Vsched.Smp.Tidy
import Vsched.Smp.Affinity
import Vsched.Smp.Exclusion
import Vsched.Smp.Queue
import Vsched.Smp.Wakeup
import Vsched.Smp.Join
import Vsched.Smp.Stacks
import Vsched.Smp.Lodged
import Vsched.Smp.Saved
import Vsched.Smp.Once
import Vsched.Smp.Progress
import Vsched.Smp.Slot
import Vsched.Smp.Released
import Vsched.Smp.Waker
import Vsched.Kernel.Model
import Vsched.Kernel.Step
import Vsched.Kernel.Control
import Vsched.Kernel.Located
import Vsched.Kernel.Placed
import Vsched.Kernel.Common
import Vsched.Kernel.Made
import Vsched.Kernel.Refine
import Vsched.Kernel.Alike
import Vsched.Kernel.Queued
import Vsched.Kernel.Poll
import Vsched.Kernel.Preempt
import Vsched.Kernel.Stack
import Vsched.Kernel.Reference
