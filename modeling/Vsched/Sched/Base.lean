import Vsched.Deque.Sequential

/-!
# The scheduler interface and the two queue schedulers

`BaseScheduler` is the trait every scheduler implements. A call that would never
return is `none`. The round-robin scheduler keeps its tasks in a lock-free deque
and a time slice with each of them, the FIFO scheduler keeps them in a bounded
queue; both drop a task that the queue refuses.
-/

namespace Sched

/-- An `isize` after an operation that wraps around. -/
def wrap (x : ℤ) : ℤ := x.bmod (2 ^ 64)

/-- The trait of a scheduler with states `σ` and tasks `T`. -/
structure BaseScheduler (σ T : Type*) where
  addTask : σ → T → Option σ
  /-- Removes the next task, if there is one. -/
  pickNextTask : σ → Option (σ × Option T)
  putPrevTask : σ → T → (preempt : Bool) → Option σ
  /-- Whether the current task is to be rescheduled after this tick. -/
  taskTick : σ → T → Option (σ × Bool)
  setPriority : σ → T → ℤ → Option (σ × Bool)

section RoundRobin

variable {T : Type*} [DecidableEq T]

/-- `RRScheduler`, with the time slices of the tasks. -/
structure RR (T : Type*) where
  readyQueue : Deque.Mem T
  timeSlice : T → ℤ

/-- A call on the deque that runs alone, its result dropped. -/
def RR.push (cap : ℕ) (s : RR T) (c : Deque.Call T) : Option (RR T) :=
  (Deque.once cap s.readyQueue c).map fun r => { s with readyQueue := r.1 }

/-- The item a call of the deque returns. -/
def popped : Deque.Ret T → Option T
  | .popSome item => item
  | _ => none

def RR.addTask (cap : ℕ) (s : RR T) (task : T) : Option (RR T) :=
  s.push cap (Deque.pushBack task)

def RR.pickNextTask (cap : ℕ) (s : RR T) : Option (RR T × Option T) :=
  (Deque.once cap s.readyQueue Deque.popFront).map fun r =>
    ({ s with readyQueue := r.1 }, popped r.2)

def RR.putPrevTask (slice cap : ℕ) (s : RR T) (prev : T) (preempt : Bool) : Option (RR T) :=
  if 0 < s.timeSlice prev ∧ preempt = true then s.push cap (Deque.pushFront prev)
  else
    RR.push cap { s with timeSlice := Function.update s.timeSlice prev (wrap slice) }
      (Deque.pushBack prev)

def RR.taskTick (s : RR T) (current : T) : RR T × Bool :=
  let oldSlice := s.timeSlice current
  ({ s with timeSlice := Function.update s.timeSlice current (wrap (oldSlice - 1)) },
    decide (oldSlice ≤ 1))

/-- `RRScheduler<T, slice, cap>`. -/
def rr (slice cap : ℕ) : BaseScheduler (RR T) T where
  addTask := RR.addTask cap
  pickNextTask := RR.pickNextTask cap
  putPrevTask := RR.putPrevTask slice cap
  taskTick := fun s current => some (s.taskTick current)
  setPriority := fun s _ _ => some (s, false)

/-- The tasks in the ready queue of a round-robin scheduler. -/
def RR.queue (cap : ℕ) (s : RR T) : List T := s.readyQueue.items cap

end RoundRobin

section Fifo

variable {T : Type*}

/-- `FifoScheduler`. The queue is a bounded FIFO queue. -/
structure Fifo (T : Type*) where
  readyQueue : List T

/-- `enqueue`, its result dropped: a full queue refuses the task. -/
def Fifo.enqueue (cap : ℕ) (s : Fifo T) (task : T) : Fifo T :=
  if s.readyQueue.length < cap then ⟨s.readyQueue ++ [task]⟩ else s

/-- `FifoScheduler<T, cap>`. -/
def fifo (cap : ℕ) : BaseScheduler (Fifo T) T where
  addTask := fun s task => some (s.enqueue cap task)
  pickNextTask := fun s => some (⟨s.readyQueue.tail⟩, s.readyQueue.head?)
  putPrevTask := fun s prev _ => some (s.enqueue cap prev)
  taskTick := fun s _ => some (s, false)
  setPriority := fun s _ _ => some (s, false)

end Fifo

end Sched
