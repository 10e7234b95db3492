import Vsched.Foundation.Labelled
import Vsched.Sched.Custody

/-!
# The tasks of one CPU

The operations of `task_management` and of the scheduler below it on a single
CPU, one call of the scheduler a step. The code of a task is arbitrary: in
`Pc.user` it may call any operation next. A thread keeps its continuation in its
context and a coroutine in its future; a context switch loads the context of the
next task. `none` stands for a call that panics or never returns.
-/

namespace Kernel

open Sched (BaseScheduler TaskState)

/-- The main task and the idle task of `init_vsched`, and the tasks made since. -/
inductive Task
  | main
  | idle
  | user (n : ℕ)
  deriving DecidableEq, Repr

def Task.isIdle : Task → Bool
  | .idle => true
  | _ => false

def Task.isInit : Task → Bool
  | .main => true
  | _ => false

/-- Made by `new` or by `new_f`. -/
inductive Kind
  | thread
  | coroutine
  deriving DecidableEq, Repr

def Task.isCoroutine (kind : ℕ → Kind) : Task → Bool
  | .user n => kind n = .coroutine
  | _ => false

/-- A `WaitQueue`: one of the user's, or `wait_for_exit` of a task. -/
inductive QueueId
  | user (n : ℕ)
  | exit (t : Task)
  deriving DecidableEq, Repr

/-- The conditions of `wait_until`: one of the user's, or `state() == Exited`. -/
inductive Cond
  | test (n : ℕ)
  | exited (t : Task)
  deriving DecidableEq, Repr

/-- The blocking calls. -/
inductive Wait
  | wait (q : QueueId)
  | waitUntil (q : QueueId) (n : ℕ)
  | join (t : Task)
  deriving DecidableEq, Repr

def Wait.queue : Wait → QueueId
  | .wait q => q
  | .waitUntil q _ => q
  | .join t => .exit t

def Wait.cond : Wait → Option Cond
  | .wait _ => none
  | .waitUntil _ n => some (.test n)
  | .join t => some (.exited t)

/-- The form of an operation for threads, and the one that returns a future. -/
inductive Form
  | thread
  | future
  deriving DecidableEq, Repr

/-- Where a task goes on. -/
inductive Kont
  /-- With its own code; also the start of a task. -/
  | user
  /-- After `blocked_resched` or `BlockedReschedFuture`. -/
  | blocked (f : Form) (w : Wait)
  /-- After the rescheduling of `exit` or `ExitFuture`. -/
  | exiting (e : ℤ)
  deriving DecidableEq, Repr

/-- What the saved registers of a task lead to. -/
inductive Ctx
  /-- The resume point of a thread, and what follows it. -/
  | resume (k : Kont)
  /-- The start of `coroutine_schedule`. -/
  | schedule
  /-- Nothing that could be run: never saved, or behind the switch that leaves
  `coroutine_schedule`. -/
  | dead
  deriving DecidableEq, Repr

/-- Where the CPU stands. -/
inductive Pc
  /-- In the code of the current task, between two operations. -/
  | user
  /-- In the condition of `wait_until`. -/
  | condition (f : Form) (w : Wait)
  /-- In `notify_all`; `after` is the form of the `exit` that called it. -/
  | notifyAll (q : QueueId) (resched : Bool) (after : Option Form)
  /-- At the resume point of a thread. -/
  | resume (k : Kont)
  /-- At the top of the loop of `coroutine_schedule`. -/
  | loopTop
  /-- In front of the poll of the current task. -/
  | poll
  /-- After the poll of `t`. -/
  | polled (t : Task)
  /-- In `coroutine_schedule`, which holds the stack of `t` in a local variable. -/
  | handOver (t : Task) (stack : ℕ)
  /-- `main_task_exit` has been called. -/
  | halted
  deriving DecidableEq, Repr

/-- The scheduler, the wait queues and what they read and write of the tasks. -/
structure View (σ : Type*) where
  scheduler : σ
  current : Task
  prevTask : Option Task
  state : Task → TaskState
  onCpu : Task → Bool
  inWaitQueue : Task → Bool
  exitCode : Task → ℤ
  queue : QueueId → List Task
  /-- What the last call of a task has returned to it. -/
  result : Task → ℤ

/-- The references to a task. -/
structure Refs where
  /-- The strong count of its `Arc`. -/
  strong : ℕ
  /-- The handles that user code holds. -/
  handles : ℕ
  /-- The wakers outside the scheduler. -/
  wakers : ℕ
  /-- A resume point has dropped the reference handed over by `spawn`. -/
  released : Bool
  deriving DecidableEq, Repr

structure State (σ : Type*) where
  view : View σ
  created : Task → Bool
  /-- The tasks handed to `spawn`. -/
  spawned : List Task
  kstack : Task → Option ℕ
  pool : List ℕ
  /-- The number of stacks allocated so far. -/
  allocated : ℕ
  ctx : Task → Ctx
  future : Task → Kont
  refs : Task → Refs
  pc : Pc

variable {σ : Type*}

/-- After `init_vsched`: the stack with the number zero is the idle task's. -/
def State.init (scheduler : σ) : State σ where
  view :=
    { scheduler := scheduler
      current := .main
      prevTask := some .main
      state := fun t => if t = .main then .running else .ready
      onCpu := fun t => t = .main
      inWaitQueue := fun _ => false
      exitCode := fun _ => 0
      queue := fun _ => []
      result := fun _ => 0 }
  created := fun t => t = .main ∨ t = .idle
  spawned := []
  kstack := fun t => if t = .idle then some 0 else none
  pool := []
  allocated := 1
  ctx := fun t => if t = .idle then .resume .user else .dead
  future := fun _ => .user
  refs := fun t => ⟨if t = .main ∨ t = .idle then 1 else 0, 0, 0, false⟩
  pc := .user

namespace View

variable (v : View σ)

def setState (t : Task) (st : TaskState) : View σ :=
  { v with state := Function.update v.state t st }

def setInWaitQueue (t : Task) (b : Bool) : View σ :=
  { v with inWaitQueue := Function.update v.inWaitQueue t b }

def setQueue (q : QueueId) (l : List Task) : View σ :=
  { v with queue := Function.update v.queue q l }

def isRunning (t : Task) : Bool := v.state t = .running

def setResult (r : ℤ) : View σ :=
  { v with result := Function.update v.result v.current r }

variable (B : BaseScheduler σ Task)

def putTaskWithState (task : Task) (currentState : TaskState) (preempt : Bool) :
    Option (View σ × Bool) :=
  (Sched.putTaskWithState B ⟨v.scheduler, v.state, Task.isIdle, v.onCpu⟩ task currentState
    preempt).map fun r => ({ v with scheduler := r.1.scheduler, state := r.1.state }, r.2)

/-- `add_task`, which asserts that the task is ready. -/
def addTask (task : Task) : Option (View σ) :=
  if v.state task = .ready then
    (B.addTask v.scheduler task).map fun s => { v with scheduler := s }
  else none

def unblockTask (task : Task) (resched : Bool) : Option (View σ) :=
  (v.putTaskWithState B task .blocked resched).map Prod.fst

/-- The task that `resched` and `resched_f` pick and assert to be ready. -/
def pickNextTask : Option (View σ × Task) :=
  (B.pickNextTask v.scheduler).bind fun r =>
    let next := r.2.getD .idle
    if v.state next = .ready then some ({ v with scheduler := r.1 }, next) else none

/-- The next task takes the place of the current one. -/
def replaceCurrent (next : Task) : View σ :=
  { v with
    onCpu := Function.update v.onCpu next true
    prevTask := some v.current
    current := next }

def reschedF : Option (View σ × Bool) :=
  (v.pickNextTask B).map fun r =>
    let v' := r.1.setState r.2 .running
    if v'.current = r.2 then (v', false) else (v'.replaceCurrent r.2, true)

/-- The part of `yield_current` and `yield_f` before rescheduling. -/
def yieldCurrent : Option (View σ) :=
  if v.isRunning v.current then
    (v.putTaskWithState B v.current .running false).map Prod.fst
  else none

/-- The part of `blocked_resched` and `BlockedReschedFuture` before rescheduling. -/
def blockCurrent (q : QueueId) : Option (View σ) :=
  if v.isRunning v.current && !v.current.isIdle then
    some (((v.setState v.current .blocked).setInWaitQueue v.current true).setQueue q
      (v.queue q ++ [v.current]))
  else none

/-- `take_prev_task_and_clear_on_cpu`; taking an empty slot has no effect. -/
def takePrevTask : View σ :=
  match v.prevTask with
  | none => v
  | some p => { v with onCpu := Function.update v.onCpu p false, prevTask := none }

def cancelEvents (q : QueueId) : View σ :=
  if v.inWaitQueue v.current then
    (v.setQueue q ((v.queue q).filter (· ≠ v.current))).setInWaitQueue v.current false
  else v

/-- `unblock_one_task`. -/
def unblockOneTask (task : Task) (resched : Bool) : Option (View σ) :=
  (v.setInWaitQueue task false).unblockTask B task resched

def notifyOne (q : QueueId) (resched : Bool) : Option (View σ × Bool) :=
  match v.queue q with
  | [] => some (v, false)
  | task :: rest =>
      ((v.setQueue q rest).unblockOneTask B task resched).map fun v' => (v', true)

def notifyTask (q : QueueId) (resched : Bool) (task : Task) : Option (View σ × Bool) :=
  if task ∈ v.queue q then
    ((v.setQueue q ((v.queue q).erase task)).unblockOneTask B task resched).map
      fun v' => (v', true)
  else some (v, false)

def requeue (q : QueueId) (count : ℕ) (target : QueueId) : View σ × ℕ :=
  let tasks := (v.queue q).take count
  let v' := v.setQueue q ((v.queue q).drop count)
  (v'.setQueue target (v'.queue target ++ tasks), tasks.length)

/-- The return of a blocking call: `join` loads the exit code. -/
def returned : Wait → View σ
  | .join t => v.setResult (v.exitCode t)
  | _ => v

end View

namespace State

variable (s : State σ)

/-- The tasks that have not exited. -/
def live : List Task := (.main :: s.spawned).filter fun t => s.view.state t ≠ .exited

def setRefs (t : Task) (r : Refs) : State σ :=
  { s with refs := Function.update s.refs t r }

/-- A new reference. -/
def incStrong (t : Task) : State σ :=
  s.setRefs t { s.refs t with strong := (s.refs t).strong + 1 }

/-- A reference is dropped. -/
def decStrong (t : Task) : State σ :=
  s.setRefs t { s.refs t with strong := (s.refs t).strong - 1 }

/-- The resume points: the reference to an exited task is dropped. -/
def releasePrev : State σ :=
  match s.view.prevTask with
  | none => s
  | some p =>
      let s' := { s with view := s.view.takePrevTask }
      if s'.view.state p = .exited then
        s'.setRefs p { s'.refs p with strong := (s'.refs p).strong - 1, released := true }
      else s'

def allocStackForCoroutine : State σ × ℕ :=
  match s.pool with
  | stack :: rest => ({ s with pool := rest }, stack)
  | [] => ({ s with allocated := s.allocated + 1 }, s.allocated)

/-- The context of the current task is loaded. -/
def loadContext : Option (State σ) :=
  match s.ctx s.view.current with
  | .resume k => some { s with pc := .resume k }
  | .schedule => some { s with pc := .loopTop }
  | .dead => none

/-- After `blocked_resched` or `BlockedReschedFuture` has returned. -/
def woken (f : Form) (w : Wait) : State σ :=
  match w.cond with
  | none => { s with view := (s.view.cancelEvents w.queue).returned w, pc := .user }
  | some _ => { s with pc := .condition f w }

/-- What follows a resume point, or a future that is ready at once. -/
def goOn : Kont → Option (State σ)
  | .user => some { s with pc := .user }
  | .blocked f w => some (s.woken f w)
  | .exiting _ => none

variable (kind : ℕ → Kind)

/-- `set_kstack`: the functions it calls are set for coroutines only. -/
def setKstack (t : Task) : Option (State σ) :=
  if s.kstack t = none ∧ t.isInit = false ∧ t.isIdle = false then
    if t.isCoroutine kind then
      let r := s.allocStackForCoroutine
      some { r.1 with
        kstack := Function.update r.1.kstack t (some r.2)
        ctx := Function.update r.1.ctx t .schedule }
    else none
  else some s

/-- `switch_to`, called by a task that goes on with `k`. -/
def switchTo (next : Task) (k : Kont) : Option (State σ) :=
  let s₁ := { s with view := s.view.setState next .running }
  if s₁.view.current = next then some { s₁ with pc := .resume k }
  else
    (s₁.setKstack kind next).bind fun s₂ =>
      loadContext { s₂ with
        view := s₂.view.replaceCurrent next
        ctx := Function.update s₂.ctx s₂.view.current (.resume k) }

variable (B : BaseScheduler σ Task)

/-- `resched`, called by a task that goes on with `k`. -/
def resched (k : Kont) : Option (State σ) :=
  (s.view.pickNextTask B).bind fun r => switchTo { s with view := r.1 } kind r.2 k

/-- `resched_f` in the poll of a future, which goes on with `k`. -/
def reschedFuture (k : Kont) : Option (State σ) :=
  (s.view.reschedF B).bind fun r =>
    let s' := { s with view := r.1 }
    if r.2 then
      some { s' with
        future := Function.update s'.future s.view.current k
        pc := .polled s.view.current }
    else s'.goOn k

/-- Rescheduling in either form. -/
def reschedule : Form → Kont → Option (State σ)
  | .thread, k => s.resched kind B k
  | .future, k => s.reschedFuture B k

/-- `yield_now` and `YieldFuture`. -/
def yieldNow (f : Form) : Option (State σ) :=
  (s.view.yieldCurrent B).bind fun v => reschedule { s with view := v } kind B f .user

/-- `blocked_resched` and `BlockedReschedFuture`. -/
def blockedResched (f : Form) (w : Wait) : Option (State σ) :=
  (s.view.blockCurrent w.queue).bind fun v =>
    reschedule { s with view := v } kind B f (.blocked f w)

/-- `wait`, `wait_until` and `join`. -/
def wait (f : Form) (w : Wait) : Option (State σ) :=
  match w.cond with
  | none => s.blockedResched kind B f w
  | some _ => some { s with pc := .condition f w }

/-- `wait_until` after its condition. -/
def checked (f : Form) (w : Wait) (b : Bool) : Option (State σ) :=
  if b then some { s with view := (s.view.cancelEvents w.queue).returned w, pc := .user }
  else s.blockedResched kind B f w

/-- `exit` and `ExitFuture` up to `notify_exit`. -/
def exit (f : Form) (e : ℤ) : Option (State σ) :=
  let t := s.view.current
  if s.view.isRunning t && !t.isIdle then
    if f = .thread ∧ t.isInit then some { s with pc := .halted }
    else
      some { s with
        view :=
          { s.view.setState t .exited with
            exitCode := Function.update s.view.exitCode t e }
        pc := .notifyAll (.exit t) false (some f) }
  else none

/-- One round of `notify_all`. -/
def notifyRound (q : QueueId) (resched : Bool) (after : Option Form) : Option (State σ) :=
  (s.view.notifyOne B q resched).bind fun r =>
    let s' := { s with view := r.1 }
    if r.2 then some s'
    else
      match after with
      | none => some { s' with pc := .user }
      | some f => s'.reschedule kind B f (.exiting (s'.view.exitCode s'.view.current))

/-- The top of the loop of `coroutine_schedule`, with a new waker for the current
task. -/
def schedule : Option (State σ) :=
  let s' := s.releasePrev
  if s'.view.current.isCoroutine kind then
    some { s'.incStrong s'.view.current with pc := .poll }
  else none

/-- The poll of the future of the current task. -/
def poll : Option (State σ) :=
  match s.future s.view.current with
  | .exiting e => s.exit .future e
  | k => s.goOn k

/-- `coroutine_schedule` after the poll of `t`, up to the stack it takes. -/
def takeStack (t : Task) : Option (State σ) :=
  let rescheduled : Option (View σ) :=
    if s.view.isRunning t then ((s.view.setState t .blocked).reschedF B).map Prod.fst
    else some s.view
  rescheduled.bind fun v =>
    (s.kstack t).map fun stack =>
      { s with view := v, kstack := Function.update s.kstack t none, pc := .handOver t stack }

/-- The end of the loop: the next coroutine gets the stack, or the context of the
next task is loaded and the waker of the loop is never dropped. -/
def handOver (t : Task) (stack : ℕ) : Option (State σ) :=
  let next := s.view.current
  if s.kstack next = none ∧ next.isInit = false ∧ next.isIdle = false then
    some { s.decStrong t with
      kstack := Function.update s.kstack next (some stack)
      pc := .loopTop }
  else
    loadContext { s with
      pool := stack :: s.pool
      ctx := Function.update s.ctx t .dead }

/-- `new` and `new_f`, which return a handle. -/
def new (n : ℕ) : State σ :=
  let s' := { s.setRefs (.user n) ⟨1, 1, 0, false⟩ with
    created := Function.update s.created (.user n) true }
  match kind n with
  | .thread =>
      { s' with
        kstack := Function.update s'.kstack (.user n) (some s'.allocated)
        allocated := s'.allocated + 1
        ctx := Function.update s'.ctx (.user n) (.resume .user) }
  | .coroutine => { s' with future := Function.update s'.future (.user n) .user }

/-- `spawn`, which takes over a handle. -/
def spawn (n : ℕ) : Option (State σ) :=
  let t : Task := .user n
  (s.view.addTask B t).map fun v =>
    { s.setRefs t { s.refs t with handles := (s.refs t).handles - 1 } with
      view := v
      spawned := s.spawned ++ [t] }

def cloneHandle (t : Task) : State σ :=
  s.setRefs t { s.refs t with
    strong := (s.refs t).strong + 1
    handles := (s.refs t).handles + 1 }

def dropHandle (t : Task) : State σ :=
  s.setRefs t { s.refs t with
    strong := (s.refs t).strong - 1
    handles := (s.refs t).handles - 1 }

def cloneWaker (t : Task) : State σ :=
  s.setRefs t { s.refs t with
    strong := (s.refs t).strong + 1
    wakers := (s.refs t).wakers + 1 }

def dropWaker (t : Task) : State σ :=
  s.setRefs t { s.refs t with
    strong := (s.refs t).strong - 1
    wakers := (s.refs t).wakers - 1 }

/-- `TaskWaker::wake`: the reference of the waker becomes a raw pointer. -/
def wake (t : Task) : Option (State σ) :=
  (s.view.unblockTask B t true).map fun v =>
    { s.setRefs t { s.refs t with wakers := (s.refs t).wakers - 1 } with view := v }

/-- `wake_by_ref`: a clone of the waker is woken. -/
def wakeByRef (t : Task) : Option (State σ) := (s.cloneWaker t).wake B t

end State

/-- What happens next: an operation the current task calls, the outcome of a
condition, or a step of the kernel. -/
inductive Act
  | new (n : ℕ)
  | spawn (n : ℕ)
  | cloneHandle (t : Task)
  | dropHandle (t : Task)
  | yield (f : Form)
  | wait (f : Form) (w : Wait)
  | notifyOne (q : QueueId) (resched : Bool)
  | notifyAll (q : QueueId) (resched : Bool)
  | notifyTask (q : QueueId) (resched : Bool) (t : Task)
  | requeue (q : QueueId) (count : ℕ) (target : QueueId)
  | exit (f : Form) (e : ℤ)
  /-- The future of the current task returns `Pending` on its own. -/
  | pending
  | cloneWaker (t : Task)
  | dropWaker (t : Task)
  | wake (t : Task)
  | wakeByRef (t : Task)
  /-- The condition of `wait_until` has the value `b`. -/
  | check (b : Bool)
  | tick
  deriving DecidableEq, Repr

/-- An operation of user code. -/
def Act.isOp : Act → Bool
  | .check _ => false
  | .tick => false
  | _ => true

/-- The form of an operation that has two. -/
def Act.form : Act → Option Form
  | .yield f => some f
  | .wait f _ => some f
  | .exit f _ => some f
  | _ => none

section Machine

variable (kind : ℕ → Kind)

/-- What user code must hold to call an operation. -/
def State.Holds (s : State σ) : Act → Prop
  | .new n => s.created (.user n) = false ∧ (s.refs (.user n)).strong = 0
  | .spawn n => s.created (.user n) = true ∧ .user n ∉ s.spawned ∧
      0 < (s.refs (.user n)).handles
  | .cloneHandle t => 0 < (s.refs t).handles
  | .dropHandle t => 0 < (s.refs t).handles
  | .pending => s.view.current.isCoroutine kind = true
  | .cloneWaker t =>
      0 < (s.refs t).wakers ∨ t = s.view.current ∧ t.isCoroutine kind = true
  | .dropWaker t => 0 < (s.refs t).wakers
  | .wake t => 0 < (s.refs t).wakers
  | .wakeByRef t =>
      0 < (s.refs t).wakers ∨ t = s.view.current ∧ t.isCoroutine kind = true
  | _ => True

/-- An operation that the current task may call: the idle task runs `run_idle`, and
only a coroutine awaits a future. -/
def State.MayCall (s : State σ) (a : Act) : Prop :=
  (s.view.current.isIdle = true → a = .yield .thread) ∧
    (a.form = some .future → s.view.current.isCoroutine kind = true) ∧ s.Holds kind a

/-- The condition of `join` is a fact about the task, that of the user is not. -/
def State.Outcome (s : State σ) (b : Bool) : Option Cond → Prop
  | some (.exited t) => b = decide (s.view.state t = .exited)
  | _ => True

/-- The evaluation of the condition of `w`. -/
def State.Answers (s : State σ) (w : Wait) : Act → Prop
  | .check b => s.Outcome b w.cond
  | _ => False

/-- What may happen where the CPU stands. -/
def State.EnabledAt (s : State σ) (a : Act) : Pc → Prop
  | .halted => False
  | .user => a.isOp = true ∧ s.MayCall kind a
  | .condition _ w => s.Answers w a
  | _ => a = .tick

/-- What may happen in a state. -/
def State.Enabled (s : State σ) (a : Act) : Prop := s.EnabledAt kind a s.pc

instance (s : State σ) (b : Bool) : ∀ o, Decidable (s.Outcome b o)
  | some (.exited _) => inferInstanceAs (Decidable (_ = _))
  | some (.test _) => .isTrue trivial
  | none => .isTrue trivial

instance (s : State σ) : ∀ a, Decidable (s.Holds kind a)
  | .new _ => inferInstanceAs (Decidable (_ ∧ _))
  | .spawn _ => inferInstanceAs (Decidable (_ ∧ _ ∧ _))
  | .cloneHandle _ => inferInstanceAs (Decidable (_ < _))
  | .dropHandle _ => inferInstanceAs (Decidable (_ < _))
  | .pending => inferInstanceAs (Decidable (_ = _))
  | .cloneWaker _ => inferInstanceAs (Decidable (_ ∨ _))
  | .dropWaker _ => inferInstanceAs (Decidable (_ < _))
  | .wake _ => inferInstanceAs (Decidable (_ < _))
  | .wakeByRef _ => inferInstanceAs (Decidable (_ ∨ _))
  | .yield _ | .wait _ _ | .notifyOne _ _ | .notifyAll _ _ | .notifyTask _ _ _
  | .requeue _ _ _ | .exit _ _ | .check _ | .tick => .isTrue trivial

instance (s : State σ) (a : Act) : Decidable (s.MayCall kind a) :=
  inferInstanceAs (Decidable (_ ∧ _ ∧ _))

instance (s : State σ) (w : Wait) : ∀ a, Decidable (s.Answers w a)
  | .check b => inferInstanceAs (Decidable (s.Outcome b w.cond))
  | .new _ | .spawn _ | .cloneHandle _ | .dropHandle _ | .yield _ | .wait _ _ | .notifyOne _ _
  | .notifyAll _ _ | .notifyTask _ _ _ | .requeue _ _ _ | .exit _ _ | .pending | .cloneWaker _
  | .dropWaker _ | .wake _ | .wakeByRef _ | .tick => .isFalse id

instance (s : State σ) (a : Act) : ∀ p, Decidable (s.EnabledAt kind a p)
  | .halted => .isFalse id
  | .user => inferInstanceAs (Decidable (_ ∧ _))
  | .condition _ w => inferInstanceAs (Decidable (s.Answers w a))
  | .notifyAll _ _ _ | .resume _ | .loopTop | .poll | .polled _ | .handOver _ _ =>
      inferInstanceAs (Decidable (a = .tick))

instance (s : State σ) (a : Act) : Decidable (s.Enabled kind a) :=
  inferInstanceAs (Decidable (s.EnabledAt kind a s.pc))

variable (B : BaseScheduler σ Task)

/-- A step of the kernel. -/
def State.tick (s : State σ) : Option (State σ) :=
  match s.pc with
  | .notifyAll q resched after => s.notifyRound kind B q resched after
  | .resume k => s.releasePrev.goOn k
  | .loopTop => s.schedule kind
  | .poll => s.poll
  | .polled t => s.takeStack B t
  | .handOver t stack => s.handOver t stack
  | _ => none

def State.perform (s : State σ) : Act → Option (State σ)
  | .new n => some (s.new kind n)
  | .spawn n => s.spawn B n
  | .cloneHandle t => some (s.cloneHandle t)
  | .dropHandle t => some (s.dropHandle t)
  | .yield f => s.yieldNow kind B f
  | .wait f w => s.wait kind B f w
  | .notifyOne q resched =>
      (s.view.notifyOne B q resched).map fun r =>
        { s with view := r.1.setResult (if r.2 then 1 else 0) }
  | .notifyAll q resched => some { s with pc := .notifyAll q resched none }
  | .notifyTask q resched t =>
      (s.view.notifyTask B q resched t).map fun r =>
        { s with view := r.1.setResult (if r.2 then 1 else 0) }
  | .requeue q count target =>
      let (v, moved) := s.view.requeue q count target
      some { s with view := v.setResult moved }
  | .exit f e => s.exit f e
  | .pending =>
      some { s with
        future := Function.update s.future s.view.current .user
        pc := .polled s.view.current }
  | .cloneWaker t => some (s.cloneWaker t)
  | .dropWaker t => some (s.dropWaker t)
  | .wake t => s.wake B t
  | .wakeByRef t => s.wakeByRef B t
  | .check b =>
      match s.pc with
      | .condition f w => s.checked kind B f w b
      | _ => none
  | .tick => s.tick kind B

/-- The task system of one CPU, for every kind of its tasks. -/
def machine (scheduler : σ) : Labelled.System (State σ) Act where
  start := fun s => s = State.init scheduler
  step := fun s a s' => s.Enabled kind a ∧ s.perform kind B a = some s'

variable {kind B}

/-- Takes the step `a`, if it may happen. -/
def State.play (kind : ℕ → Kind) (B : BaseScheduler σ Task) (s : State σ) (a : Act) :
    Option (Act × State σ) :=
  if s.Enabled kind a then (s.perform kind B a).map fun s' => (a, s') else none

theorem State.play_step {scheduler : σ} {s s' : State σ} {a b : Act}
    (h : s.play kind B a = some (b, s')) : (machine kind B scheduler).step s b s' := by
  unfold State.play at h
  split_ifs at h with henabled
  obtain ⟨u, hu, hpair⟩ := Option.map_eq_some_iff.mp h
  obtain ⟨rfl, rfl⟩ := Prod.mk.inj hpair
  exact ⟨henabled, hu⟩

/-- Takes the steps of a list from the start, as long as they meet the guard. -/
def playAll (kind : ℕ → Kind) (B : BaseScheduler σ Task) (scheduler : σ)
    (G : List Act → State σ → Act → Prop) [∀ h s a, Decidable (G h s a)] (as : List Act) :
    Option (List Act × State σ) :=
  Labelled.play (State.play kind B) G as [] (State.init scheduler)

theorem playAll_run {scheduler : σ} {G : List Act → State σ → Act → Prop}
    [∀ h s a, Decidable (G h s a)] {as : List Act} {r : List Act × State σ}
    (hplay : playAll kind B scheduler G as = some r) :
    (machine kind B scheduler).RunOf G r.1 r.2 :=
  .play (M := machine kind B scheduler) (fun _ _ _ _ => State.play_step) (.start rfl) hplay

end Machine

end Kernel
