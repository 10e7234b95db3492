import Mathlib.Data.Prod.Lex
import Mathlib.Data.Int.Order.Basic
import Vsched.Map.Sequential
import Vsched.Sched.Base

/-!
# The completely fair scheduler

A task carries the vruntime it was given when it was added, the ticks it has
received since, its nice value and its last id. The ready queue is a lock-free
map from the pair of vruntime and id to the task, ordered lexicographically, and
the scheduler caches the least vruntime it found when it last added a task.
-/

namespace Sched

/-- The accounting fields of a `CFSTask`. -/
structure CFSTask where
  initVruntime : ℤ
  delta : ℤ
  nice : ℤ
  id : ℤ
  deriving DecidableEq, Repr

/-- `CFSTask::new`. -/
def CFSTask.new : CFSTask := ⟨0, 0, 0, 0⟩

/-- `NICE2WEIGHT_POS`. -/
def nice2WeightPos : List ℤ :=
  [1024, 820, 655, 526, 423, 335, 272, 215, 172, 137, 110, 87, 70, 56, 45, 36, 29, 23, 18, 15]

/-- `NICE2WEIGHT_NEG`. -/
def nice2WeightNeg : List ℤ :=
  [1024, 1277, 1586, 1991, 2501, 3121, 3906, 4904, 6100, 7620, 9548, 11916, 14949, 18705, 23254,
    29154, 36291, 46273, 56483, 71755, 88761]

namespace CFSTask

/-- The weight of the nice value, which lies between `-20` and `19`. -/
def getWeight (t : CFSTask) : ℤ :=
  if 0 ≤ t.nice then nice2WeightPos.getD t.nice.toNat 0
  else nice2WeightNeg.getD (-t.nice).toNat 0

def getVruntime (t : CFSTask) : ℤ :=
  if t.nice = 0 then wrap (t.initVruntime + t.delta)
  else wrap (t.initVruntime + (wrap (t.delta * 1024)).tdiv t.getWeight)

def setVruntime (t : CFSTask) (v : ℤ) : CFSTask := { t with initVruntime := v }

def setPriority (t : CFSTask) (nice : ℤ) : CFSTask :=
  { t with initVruntime := t.getVruntime, delta := 0, nice := nice }

def setId (t : CFSTask) (id : ℤ) : CFSTask := { t with id := id }

def taskTick (t : CFSTask) : CFSTask := { t with delta := wrap (t.delta + 1) }

end CFSTask

/-- The keys of the ready queue: vruntime and id, compared in this order. -/
abbrev Key := ℤ ×ₗ ℤ

/-- The key with the vruntime `v` and the id `id`. -/
def key (v id : ℤ) : Key := toLex (v, id)

def Key.vruntime (k : Key) : ℤ := (ofLex k).1

/-- `CFScheduler`, with the fields of the tasks. -/
structure CFS (T : Type*) where
  readyQueue : BTreeMap.Mem Key T
  minVruntime : Option ℤ
  idPool : ℤ
  tasks : T → CFSTask

namespace CFS

variable {T : Type*} [DecidableEq T]

/-- `CFScheduler::new`, for tasks with the given fields. -/
def new (tasks : T → CFSTask) : CFS T where
  readyQueue := .new
  minVruntime := none
  idPool := 0
  tasks := tasks

def setTask (s : CFS T) (task : T) (t : CFSTask) : CFS T :=
  { s with tasks := Function.update s.tasks task t }

/-- `self.ready_queue.insert(key, task)`, its result dropped. -/
def insert (cap : ℕ) (s : CFS T) (k : Key) (task : T) : CFS T :=
  { s with readyQueue := (s.readyQueue.insert cap k task).1 }

def addTask (cap : ℕ) (s : CFS T) (task : T) : CFS T :=
  let vruntime := s.minVruntime.getD 0
  let taskid := s.idPool
  let s₁ : CFS T := { s with minVruntime := some vruntime, idPool := wrap (s.idPool + 1) }
  let s₂ := s₁.setTask task (((s.tasks task).setVruntime vruntime).setId taskid)
  let s₃ := s₂.insert cap (key vruntime taskid) task
  { s₃ with minVruntime := (s₃.readyQueue.firstKeyValue cap).map fun p => Key.vruntime p.1 }

def pickNextTask (cap : ℕ) (s : CFS T) : CFS T × Option T :=
  let (readyQueue, first) := s.readyQueue.popFirst cap
  ({ s with readyQueue := readyQueue }, first.map Prod.snd)

def putPrevTask (cap : ℕ) (s : CFS T) (prev : T) : CFS T :=
  let taskid := s.idPool
  let s₁ : CFS T := { s with idPool := wrap (s.idPool + 1) }
  let s₂ := s₁.setTask prev ((s.tasks prev).setId taskid)
  s₂.insert cap (key (s₂.tasks prev).getVruntime taskid) prev

def taskTick (s : CFS T) (current : T) : CFS T × Bool :=
  let s₁ := s.setTask current (s.tasks current).taskTick
  if s₁.readyQueue.isEmpty then (s₁, false)
  else
    match s₁.minVruntime with
    | none => (s₁, true)
    | some minVruntime => (s₁, decide ((s₁.tasks current).getVruntime > minVruntime))

def setPriority (s : CFS T) (task : T) (prio : ℤ) : CFS T × Bool :=
  if -20 ≤ prio ∧ prio ≤ 19 then (s.setTask task ((s.tasks task).setPriority prio), true)
  else (s, false)

/-- The tasks in the ready queue. -/
def queue (cap : ℕ) (s : CFS T) : List T := (s.readyQueue.pairs cap).map Prod.snd

end CFS

/-- `CFScheduler<T, cap>`. -/
def cfs {T : Type*} [DecidableEq T] (cap : ℕ) : BaseScheduler (CFS T) T where
  addTask := fun s task => some (s.addTask cap task)
  pickNextTask := fun s => some (s.pickNextTask cap)
  putPrevTask := fun s prev _ => some (s.putPrevTask cap prev)
  taskTick := fun s current => some (s.taskTick current)
  setPriority := fun s task prio => some (s.setPriority task prio)

end Sched
