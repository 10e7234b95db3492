import Vsched.Foundation.Labelled
import Vsched.Handoff.Model

/-!
# Tasks on several CPUs

The operations of `task_management` and of the scheduler below it, one atomic
access a step. A CPU executes the code of its current task; the code outside
these operations is arbitrary, so in `Pc.run` any of them may be called next.
Threads keep their continuation in their context, coroutines in their future.
A lock is taken in a step that waits until it is free. A failed assertion stops
its CPU, which then takes no further step.
-/

namespace Smp

open Handoff (TaskState)

abbrev Cpu := ℕ

abbrev Task := ℕ

/-- How a task was made: `new_init("main")`, `new(run_idle, "idle")`,
`new_init("idle")`, `new` and `new_f`. -/
inductive Kind
  | main
  | idle
  | bootIdle
  | thread
  | coroutine
  deriving DecidableEq, Repr

def Kind.isIdle : Kind → Bool
  | .idle => true
  | .bootIdle => true
  | _ => false

def Kind.isInit : Kind → Bool
  | .main => true
  | .bootIdle => true
  | _ => false

def Kind.isCoroutine : Kind → Bool
  | .coroutine => true
  | _ => false

/-- A `WaitQueue`: one of the user's, or `wait_for_exit` of a task. -/
inductive QueueId
  | user (n : ℕ)
  | exit (t : Task)
  deriving DecidableEq, Repr

/-- The conditions of `wait_until`: a variable of the user's program, or
`state() == Exited`. -/
inductive Cond
  | flag (n : ℕ)
  | exited (t : Task)
  deriving DecidableEq, Repr

/-- The blocking calls, each for threads and for coroutines. -/
inductive Wait
  | wait (q : QueueId)
  | waitUntil (q : QueueId) (b : Cond)
  | join (t : Task)
  deriving DecidableEq, Repr

def Wait.queue : Wait → QueueId
  | .wait q => q
  | .waitUntil q _ => q
  | .join t => .exit t

def Wait.cond : Wait → Option Cond
  | .wait _ => none
  | .waitUntil _ b => some b
  | .join t => some (.exited t)

/-- What a task does when it is resumed. -/
inductive Kont
  /-- Goes on with its own code; also the start of a task. -/
  | user
  /-- Returns from `blocked_resched` or `BlockedReschedFuture`. -/
  | blocked (w : Wait)
  /-- Has exited. -/
  | exiting (e : ℤ)
  deriving DecidableEq, Repr

/-- The callers of the rescheduling routines. -/
inductive Via
  /-- `resched` by a thread. -/
  | thread (k : Kont)
  /-- `resched_f` in the `poll` of a future. -/
  | future (k : Kont)
  /-- `resched_f` in `coroutine_schedule`. -/
  | schedule
  deriving DecidableEq, Repr

/-- `notify_one`, `notify_all`, `notify_task`, and `notify_all` in `notify_exit`. -/
inductive Mode
  | one
  | all
  | task (t : Task)
  | exit (e : ℤ)
  deriving DecidableEq, Repr

/-- The task that `notify_task` looks for; the others pop the first one. -/
def Mode.seeks : Mode → Option Task
  | .task t => some t
  | _ => none

theorem Mode.seeks_eq_some {m : Mode} {t : Task} : m.seeks = some t ↔ m = .task t := by
  cases m <;> simp [Mode.seeks]

/-- The callers of `unblock_task`: a waker called directly, a `WaitQueue` and a
`WakerQueue`. -/
inductive Caller
  | direct
  | queue (q : QueueId) (m : Mode)
  | wakers (n : ℕ) (all : Bool)
  deriving DecidableEq, Repr

/-- Where a CPU stands: in front of the named access. -/
inductive Pc
  | off
  /-- `main_task_exit` has been called. -/
  | halted
  /-- A panic, or a switch to a context that was never saved. -/
  | panicked
  | run
  -- `yield_now`, `YieldFuture`
  | yieldAssert
  | yieldCas
  | yieldPut
  -- `resched`, `switch_to` and `resched_f`
  | pick (v : Via)
  | assertReady (v : Via) (n : Task)
  | setRunning (v : Via) (n : Task)
  | setOnCpu (v : Via) (n : Task)
  | replace (v : Via) (n : Task)
  | switchTo (old : Task) (k : Kont)
  -- the resume points; `none` is the top of `coroutine_schedule`
  | take (k : Option Kont)
  | checkPrev (k : Option Kont) (x : Option Task)
  | poll
  | afterPoll (t : Task)
  | schedBlocked (t : Task)
  | leave (t : Task)
  -- `wait`, `wait_until` and `blocked_resched`, and their futures
  | waitLock (w : Wait)
  | evalLocked (w : Wait) (b : Cond)
  | evalUnlocked (w : Wait) (b : Cond)
  | waitUnlock (w : Wait)
  | assertRunning (w : Wait)
  | setBlocked (w : Wait)
  | setInWaitQueue (w : Wait)
  | pushBack (w : Wait)
  | dropGuard (w : Wait)
  -- `cancel_events`
  | cancelLoad (w : Wait)
  | cancelLock (w : Wait)
  | cancelRetain (w : Wait)
  | cancelUnlock (w : Wait)
  | cancelClear (w : Wait)
  | loadExitCode (t : Task)
  -- `exit`, `ExitFuture`
  | exitAssert (e : ℤ)
  | setExited (e : ℤ)
  | storeExitCode (e : ℤ)
  -- `WaitQueue::notify_one` and `notify_task`
  | notifyLock (q : QueueId) (m : Mode)
  | notifyPop (q : QueueId) (m : Mode)
  | clearInWaitQueue (q : QueueId) (m : Mode) (t : Task)
  | notifyUnlock (q : QueueId) (m : Mode) (found : Bool)
  -- `WaitQueue::requeue`
  | requeueLock (q : QueueId) (count : ℕ) (target : QueueId)
  | requeueDrain (q : QueueId) (count : ℕ) (target : QueueId)
  | requeueUnlock (q : QueueId) (tasks : List Task) (target : QueueId)
  | requeueLockTarget (tasks : List Task) (target : QueueId)
  | requeueExtend (tasks : List Task) (target : QueueId)
  | requeueUnlockTarget (target : QueueId)
  -- `unblock_task`
  | wakeCas (a : Caller) (t : Task)
  | wakeSpin (a : Caller) (t : Task)
  | wakePut (a : Caller) (t : Task)
  -- `WakerBlockFuture`
  | wakerLock (n : ℕ)
  | wakerPush (n : ℕ)
  | wakerUnlock (n : ℕ)
  -- `WakerQueue::notify_one`
  | wakersLock (n : ℕ) (all : Bool)
  | wakersPop (n : ℕ) (all : Bool)
  | wakersUnlock (n : ℕ) (all : Bool) (found : Bool)
  deriving DecidableEq, Repr

structure State where
  created : Task → Bool
  state : Task → TaskState
  onCpu : Task → Bool
  inWaitQueue : Task → Bool
  exitCode : Task → ℤ
  /-- The saved continuation of a task. -/
  ctx : Task → Option Kont
  current : Cpu → Task
  idle : Cpu → Task
  prev : Cpu → Option Task
  ready : Cpu → List Task
  pc : Cpu → Pc
  queue : QueueId → List Task
  lock : QueueId → Option Cpu
  wakers : ℕ → List Task
  wakerLock : ℕ → Option Cpu
  flag : ℕ → Bool

/-- Before any CPU has called `init_vsched`. -/
def State.init : State where
  created := fun _ => false
  state := fun _ => .ready
  onCpu := fun _ => false
  inWaitQueue := fun _ => false
  exitCode := fun _ => 0
  ctx := fun _ => none
  current := fun _ => 0
  idle := fun _ => 0
  prev := fun _ => none
  ready := fun _ => []
  pc := fun _ => .off
  queue := fun _ => []
  lock := fun _ => none
  wakers := fun _ => []
  wakerLock := fun _ => none
  flag := fun _ => false

@[simps -fullyApplied]
def State.go (s : State) (c : Cpu) (p : Pc) : State :=
  { s with pc := Function.update s.pc c p }

def State.holds (s : State) : Cond → Bool
  | .flag n => s.flag n
  | .exited t => s.state t = .exited

/-- What a step shows to an observer. -/
inductive Event
  | boot (m i : Task)
  | spawn (t : Task)
  | setFlag (n : ℕ) (b : Bool)
  /-- A task is marked as blocked by a blocking call. -/
  | blocked (t : Task) (w : Wait)
  /-- A coroutine is marked as blocked after its poll. -/
  | suspended (t : Task)
  | exited (t : Task) (e : ℤ)
  | stored (t : Task) (e : ℤ)
  | joined (t : Task) (e : ℤ)
  | notify (q : QueueId) (m : Mode)
  | popped (q : QueueId) (t : Option Task)
  | notified (q : QueueId) (m : Mode) (found : Bool)
  /-- `requeue` has taken `tasks` from the front of `q`. -/
  | drained (q : QueueId) (tasks : List Task)
  /-- `requeue` has put `tasks` at the end of `q`. -/
  | extended (q : QueueId) (tasks : List Task)
  /-- The waker of a task is called. -/
  | wake (t : Task)
  | woken (t : Task) (won : Bool)
  | queued (t : Task)
  | poll (t : Task)
  /-- The next task is the current one. -/
  | same (v : Via)
  | switched (old n : Task)
  | taken (x : Option Task)
  | released (t : Task)
  | silent
  deriving DecidableEq, Repr

/-- Where a thread goes on when it is resumed. -/
def Kont.resumeThread : Kont → Pc
  | .user => .run
  | .blocked w =>
      match w.cond with
      | none => .cancelLoad w
      | some _ => .waitLock w
  | .exiting _ => .panicked

/-- Where a coroutine goes on when it is polled. -/
def Kont.resumeCoroutine : Kont → Pc
  | .user => .run
  | .blocked w =>
      match w.cond with
      | none => .cancelLoad w
      | some b => .evalUnlocked w b
  | .exiting e => .exitAssert e

/-- Where rescheduling returns to when the next task is the current one, `t`. -/
def Via.stay (t : Task) : Via → Pc
  | .thread (.exiting _) => .panicked
  | .thread k => .take (some k)
  | .future (.exiting _) => .panicked
  | .future k => k.resumeCoroutine
  | .schedule => .leave t

/-- Where a context that is loaded goes on. -/
def resumeContext : Option Kont → Pc
  | some k => .take (some k)
  | none => .panicked

/-- After the call that blocked: `join` still loads the exit code. -/
def Wait.done : Wait → Pc
  | .join t => .loadExitCode t
  | _ => .run

def Caller.done : Caller → Pc
  | .direct => .run
  | .queue q m => .notifyUnlock q m true
  | .wakers n all => .wakersUnlock n all true

variable (kind : Task → Kind)

/-- How the current task of a CPU reschedules. -/
def State.via (s : State) (c : Cpu) (k : Kont) : Via :=
  if (kind (s.current c)).isCoroutine then .future k else .thread k

/-- Where `notify_one` and `notify_all` go on after one round. -/
def State.afterNotify (s : State) (c : Cpu) (q : QueueId) (found : Bool) : Mode → Pc
  | .one => .run
  | .all => if found then .notifyLock q .all else .run
  | .task _ => .run
  | .exit e => if found then .notifyLock q (.exit e) else .pick (s.via kind c (.exiting e))

/-- The accesses of CPU `c`. -/
inductive Step : State → Cpu × Event → State → Prop
  -- `init_vsched`
  | initVsched {s : State} {c : Cpu} {m i : Task} :
      s.pc c = .off → s.created m = false → s.created i = false →
      kind m = .main → kind i = .idle →
      Step s (c, .boot m i) (State.go
        { s with
          created := Function.update (Function.update s.created i true) m true
          state := Function.update (Function.update s.state i .ready) m .running
          onCpu := Function.update (Function.update s.onCpu i false) m true
          ctx := Function.update s.ctx i (some .user)
          current := Function.update s.current c m
          idle := Function.update s.idle c i
          prev := Function.update s.prev c (some m)
          ready := Function.update s.ready c [] } c .run)
  -- `init_vsched_secondary`
  | initVschedSecondary {s : State} {c : Cpu} {i : Task} :
      s.pc c = .off → s.created i = false → kind i = .bootIdle →
      Step s (c, .boot i i) (State.go
        { s with
          created := Function.update (Function.update s.created i true) i true
          state := Function.update (Function.update s.state i .ready) i .running
          onCpu := Function.update (Function.update s.onCpu i false) i true
          current := Function.update s.current c i
          idle := Function.update s.idle c i
          prev := Function.update s.prev c (some i)
          ready := Function.update s.ready c [] } c .run)
  -- what a task may do
  | spawn {s : State} {c d : Cpu} {t : Task} {l l' : List Task} :
      s.pc c = .run → s.pc d ≠ .off → s.created t = false →
      kind t = .thread ∨ kind t = .coroutine → s.ready d = l ++ l' →
      Step s (c, .spawn t)
        { s with
          created := Function.update s.created t true
          state := Function.update s.state t .ready
          onCpu := Function.update s.onCpu t false
          ctx := Function.update s.ctx t (some .user)
          ready := Function.update s.ready d (l ++ t :: l') }
  | setFlag {s : State} {c : Cpu} {n : ℕ} {b : Bool} :
      s.pc c = .run →
      Step s (c, .setFlag n b) { s with flag := Function.update s.flag n b }
  | yield {s : State} {c : Cpu} :
      s.pc c = .run → Step s (c, .silent) (s.go c .yieldAssert)
  | wait {s : State} {c : Cpu} {w : Wait} :
      s.pc c = .run → (kind (s.current c)).isCoroutine = false ∨ w.cond = none →
      Step s (c, .silent) (s.go c (.waitLock w))
  | waitUntilF {s : State} {c : Cpu} {w : Wait} {b : Cond} :
      s.pc c = .run → (kind (s.current c)).isCoroutine = true → w.cond = some b →
      Step s (c, .silent) (s.go c (.evalUnlocked w b))
  | exit {s : State} {c : Cpu} {e : ℤ} :
      s.pc c = .run → Step s (c, .silent) (s.go c (.exitAssert e))
  | notify {s : State} {c : Cpu} {q : QueueId} {m : Mode} :
      s.pc c = .run → (∀ e, m ≠ .exit e) →
      Step s (c, .notify q m) (s.go c (.notifyLock q m))
  | requeue {s : State} {c : Cpu} {q target : QueueId} {count : ℕ} :
      s.pc c = .run → Step s (c, .silent) (s.go c (.requeueLock q count target))
  | wake {s : State} {c : Cpu} {t : Task} :
      s.pc c = .run → (kind t).isCoroutine = true →
      Step s (c, .wake t) (s.go c (.wakeCas .direct t))
  | notifyWakers {s : State} {c : Cpu} {n : ℕ} {all : Bool} :
      s.pc c = .run → Step s (c, .silent) (s.go c (.wakersLock n all))
  | wakerBlock {s : State} {c : Cpu} {n : ℕ} :
      s.pc c = .run → (kind (s.current c)).isCoroutine = true →
      Step s (c, .silent) (s.go c (.wakerLock n))
  /-- The task's future returns `Pending`. -/
  | pending {s : State} {c : Cpu} :
      s.pc c = .run → (kind (s.current c)).isCoroutine = true →
      Step s (c, .silent) (State.go
        { s with ctx := Function.update s.ctx (s.current c) (some .user) } c
        (.afterPoll (s.current c)))
  -- `yield_current`, `yield_f`
  | yieldAssert {s : State} {c : Cpu} :
      s.pc c = .yieldAssert → s.state (s.current c) = .running →
      Step s (c, .silent) (s.go c .yieldCas)
  | yieldCas {s : State} {c : Cpu} :
      s.pc c = .yieldCas → s.state (s.current c) = .running →
      Step s (c, .silent) (State.go
        { s with state := Function.update s.state (s.current c) .ready } c
        (if (kind (s.current c)).isIdle then .pick (s.via kind c .user) else .yieldPut))
  | yieldCasFail {s : State} {c : Cpu} :
      s.pc c = .yieldCas → s.state (s.current c) ≠ .running →
      Step s (c, .silent) (s.go c (.pick (s.via kind c .user)))
  | yieldPut {s : State} {c : Cpu} {l l' : List Task} :
      s.pc c = .yieldPut → s.ready c = l ++ l' →
      Step s (c, .silent) (State.go
        { s with ready := Function.update s.ready c (l ++ s.current c :: l') } c
        (.pick (s.via kind c .user)))
  -- `resched`, `switch_to` and `resched_f`
  | pick {s : State} {c : Cpu} {v : Via} {n : Task} {l l' : List Task} :
      s.pc c = .pick v → s.ready c = l ++ n :: l' →
      Step s (c, .silent) (State.go
        { s with ready := Function.update s.ready c (l ++ l') } c (.assertReady v n))
  | pickIdle {s : State} {c : Cpu} {v : Via} :
      s.pc c = .pick v → s.ready c = [] →
      Step s (c, .silent) (s.go c (.assertReady v (s.idle c)))
  | assertReady {s : State} {c : Cpu} {v : Via} {n : Task} :
      s.pc c = .assertReady v n → s.state n = .ready →
      Step s (c, .silent) (s.go c (.setRunning v n))
  | setRunningSame {s : State} {c : Cpu} {v : Via} :
      s.pc c = .setRunning v (s.current c) →
      Step s (c, .same v) (State.go
        { s with state := Function.update s.state (s.current c) .running } c
        (v.stay (s.current c)))
  | setRunning {s : State} {c : Cpu} {v : Via} {n : Task} :
      s.pc c = .setRunning v n → n ≠ s.current c →
      Step s (c, .silent) (State.go
        { s with state := Function.update s.state n .running } c (.setOnCpu v n))
  | setOnCpu {s : State} {c : Cpu} {v : Via} {n : Task} :
      s.pc c = .setOnCpu v n →
      Step s (c, .silent) (State.go
        { s with onCpu := Function.update s.onCpu n true } c (.replace v n))
  | replaceThread {s : State} {c : Cpu} {k : Kont} {n : Task} :
      s.pc c = .replace (.thread k) n →
      Step s (c, .switched (s.current c) n) (State.go
        { s with
          prev := Function.update s.prev c (some (s.current c))
          current := Function.update s.current c n } c (.switchTo (s.current c) k))
  /-- The future returns `Pending` after `resched_f`. -/
  | replaceFuture {s : State} {c : Cpu} {k : Kont} {n : Task} :
      s.pc c = .replace (.future k) n →
      Step s (c, .switched (s.current c) n) (State.go
        { s with
          prev := Function.update s.prev c (some (s.current c))
          current := Function.update s.current c n
          ctx := Function.update s.ctx (s.current c) (some k) } c
        (.afterPoll (s.current c)))
  | replaceSchedule {s : State} {c : Cpu} {n : Task} :
      s.pc c = .replace .schedule n →
      Step s (c, .switched (s.current c) n) (State.go
        { s with
          prev := Function.update s.prev c (some (s.current c))
          current := Function.update s.current c n } c (.leave (s.current c)))
  | switchTo {s : State} {c : Cpu} {old : Task} {k : Kont} :
      s.pc c = .switchTo old k →
      Step s (c, .silent) (State.go { s with ctx := Function.update s.ctx old (some k) } c
        (if (kind (s.current c)).isCoroutine then .take none
          else resumeContext (Function.update s.ctx old (some k) (s.current c))))
  -- the resume points
  | take {s : State} {c : Cpu} {k : Option Kont} {t : Task} :
      s.pc c = .take k → s.prev c = some t →
      Step s (c, .taken (some t)) (State.go
        { s with
          prev := Function.update s.prev c none
          onCpu := Function.update s.onCpu t false } c (.checkPrev k (some t)))
  /-- The slot was empty: some task or none is read from it. -/
  | takeEmpty {s : State} {c : Cpu} {k : Option Kont} {t : Task} :
      s.pc c = .take k → s.prev c = none →
      Step s (c, .taken (some t)) (State.go
        { s with
          prev := Function.update s.prev c none
          onCpu := Function.update s.onCpu t false } c (.checkPrev k (some t)))
  | takeNothing {s : State} {c : Cpu} {k : Option Kont} :
      s.pc c = .take k → s.prev c = none →
      Step s (c, .taken none) (State.go { s with prev := Function.update s.prev c none } c
        (.checkPrev k none))
  | checkPrevExited {s : State} {c : Cpu} {k : Option Kont} {t : Task} :
      s.pc c = .checkPrev k (some t) → s.state t = .exited →
      Step s (c, .released t) (s.go c (k.elim .poll Kont.resumeThread))
  | checkPrev {s : State} {c : Cpu} {k : Option Kont} {x : Option Task} :
      s.pc c = .checkPrev k x → (∀ t, x = some t → s.state t ≠ .exited) →
      Step s (c, .silent) (s.go c (k.elim .poll Kont.resumeThread))
  -- `coroutine_schedule`
  | poll {s : State} {c : Cpu} {k : Kont} :
      s.pc c = .poll → s.ctx (s.current c) = some k →
      Step s (c, .poll (s.current c)) (s.go c k.resumeCoroutine)
  | afterPollRunning {s : State} {c : Cpu} {t : Task} :
      s.pc c = .afterPoll t → s.state t = .running →
      Step s (c, .silent) (s.go c (.schedBlocked t))
  | afterPoll {s : State} {c : Cpu} {t : Task} :
      s.pc c = .afterPoll t → s.state t ≠ .running →
      Step s (c, .silent) (s.go c (.leave t))
  | schedBlocked {s : State} {c : Cpu} {t : Task} :
      s.pc c = .schedBlocked t →
      Step s (c, .suspended t) (State.go
        { s with state := Function.update s.state t .blocked } c (.pick .schedule))
  | leave {s : State} {c : Cpu} {t : Task} :
      s.pc c = .leave t →
      Step s (c, .silent) (s.go c
        (if (kind (s.current c)).isCoroutine then .take none
          else resumeContext (s.ctx (s.current c))))
  -- `wait`, `wait_until` and their futures
  | waitLock {s : State} {c : Cpu} {w : Wait} :
      s.pc c = .waitLock w → s.lock w.queue = none →
      w.cond = none ∨ (kind (s.current c)).isCoroutine = true →
      Step s (c, .silent) (State.go
        { s with lock := Function.update s.lock w.queue (some c) } c (.assertRunning w))
  | waitLockUntil {s : State} {c : Cpu} {w : Wait} {b : Cond} :
      s.pc c = .waitLock w → s.lock w.queue = none → w.cond = some b →
      (kind (s.current c)).isCoroutine = false →
      Step s (c, .silent) (State.go
        { s with lock := Function.update s.lock w.queue (some c) } c (.evalLocked w b))
  | evalLocked {s : State} {c : Cpu} {w : Wait} {b : Cond} :
      s.pc c = .evalLocked w b →
      Step s (c, .silent) (s.go c (if s.holds b then .waitUnlock w else .assertRunning w))
  | evalUnlocked {s : State} {c : Cpu} {w : Wait} {b : Cond} :
      s.pc c = .evalUnlocked w b →
      Step s (c, .silent) (s.go c (if s.holds b then .cancelLoad w else .waitLock w))
  | waitUnlock {s : State} {c : Cpu} {w : Wait} :
      s.pc c = .waitUnlock w →
      Step s (c, .silent) (State.go
        { s with lock := Function.update s.lock w.queue none } c (.cancelLoad w))
  -- `blocked_resched`, `BlockedReschedFuture`
  | assertRunning {s : State} {c : Cpu} {w : Wait} :
      s.pc c = .assertRunning w → s.state (s.current c) = .running →
      Step s (c, .silent) (s.go c (.setBlocked w))
  | setBlocked {s : State} {c : Cpu} {w : Wait} :
      s.pc c = .setBlocked w → (kind (s.current c)).isIdle = false →
      Step s (c, .blocked (s.current c) w) (State.go
        { s with state := Function.update s.state (s.current c) .blocked } c
        (.setInWaitQueue w))
  | setInWaitQueue {s : State} {c : Cpu} {w : Wait} :
      s.pc c = .setInWaitQueue w →
      Step s (c, .silent) (State.go
        { s with inWaitQueue := Function.update s.inWaitQueue (s.current c) true } c
        (.pushBack w))
  | pushBack {s : State} {c : Cpu} {w : Wait} :
      s.pc c = .pushBack w →
      Step s (c, .silent) (State.go
        { s with queue :=
            Function.update s.queue w.queue (s.queue w.queue ++ [s.current c]) } c
        (.dropGuard w))
  | dropGuard {s : State} {c : Cpu} {w : Wait} :
      s.pc c = .dropGuard w →
      Step s (c, .silent) (State.go
        { s with lock := Function.update s.lock w.queue none } c
        (.pick (s.via kind c (.blocked w))))
  -- `cancel_events`
  | cancelLoad {s : State} {c : Cpu} {w : Wait} :
      s.pc c = .cancelLoad w →
      Step s (c, .silent) (s.go c
        (if s.inWaitQueue (s.current c) then .cancelLock w else w.done))
  | cancelLock {s : State} {c : Cpu} {w : Wait} :
      s.pc c = .cancelLock w → s.lock w.queue = none →
      Step s (c, .silent) (State.go
        { s with lock := Function.update s.lock w.queue (some c) } c (.cancelRetain w))
  | cancelRetain {s : State} {c : Cpu} {w : Wait} :
      s.pc c = .cancelRetain w →
      Step s (c, .silent) (State.go
        { s with queue :=
            Function.update s.queue w.queue ((s.queue w.queue).filter (· ≠ s.current c)) } c
        (.cancelUnlock w))
  | cancelUnlock {s : State} {c : Cpu} {w : Wait} :
      s.pc c = .cancelUnlock w →
      Step s (c, .silent) (State.go
        { s with lock := Function.update s.lock w.queue none } c (.cancelClear w))
  | cancelClear {s : State} {c : Cpu} {w : Wait} :
      s.pc c = .cancelClear w →
      Step s (c, .silent) (State.go
        { s with inWaitQueue := Function.update s.inWaitQueue (s.current c) false } c
        w.done)
  | loadExitCode {s : State} {c : Cpu} {t : Task} :
      s.pc c = .loadExitCode t →
      Step s (c, .joined t (s.exitCode t)) (s.go c .run)
  -- `exit`, `ExitFuture`
  | exitAssert {s : State} {c : Cpu} {e : ℤ} :
      s.pc c = .exitAssert e → s.state (s.current c) = .running →
      Step s (c, .silent) (s.go c (.setExited e))
  | mainTaskExit {s : State} {c : Cpu} {e : ℤ} :
      s.pc c = .setExited e → (kind (s.current c)).isIdle = false →
      (kind (s.current c)).isInit = true →
      Step s (c, .silent) (s.go c .halted)
  | setExited {s : State} {c : Cpu} {e : ℤ} :
      s.pc c = .setExited e → (kind (s.current c)).isIdle = false →
      (kind (s.current c)).isInit = false →
      Step s (c, .exited (s.current c) e) (State.go
        { s with state := Function.update s.state (s.current c) .exited } c
        (.storeExitCode e))
  | storeExitCode {s : State} {c : Cpu} {e : ℤ} :
      s.pc c = .storeExitCode e →
      Step s (c, .stored (s.current c) e) (State.go
        { s with exitCode := Function.update s.exitCode (s.current c) e } c
        (.notifyLock (.exit (s.current c)) (.exit e)))
  -- `WaitQueue::notify_one` and `notify_task`
  | notifyLock {s : State} {c : Cpu} {q : QueueId} {m : Mode} :
      s.pc c = .notifyLock q m → s.lock q = none →
      Step s (c, .silent) (State.go
        { s with lock := Function.update s.lock q (some c) } c (.notifyPop q m))
  | notifyPop {s : State} {c : Cpu} {q : QueueId} {m : Mode} {t : Task} {l : List Task} :
      s.pc c = .notifyPop q m → m.seeks = none → s.queue q = t :: l →
      Step s (c, .popped q (some t)) (State.go
        { s with queue := Function.update s.queue q l } c (.clearInWaitQueue q m t))
  | notifyEmpty {s : State} {c : Cpu} {q : QueueId} {m : Mode} :
      s.pc c = .notifyPop q m → m.seeks = none → s.queue q = [] →
      Step s (c, .popped q none) (s.go c (.notifyUnlock q m false))
  /-- `position` finds the first occurrence, and `remove` takes it out. -/
  | notifyRemove {s : State} {c : Cpu} {q : QueueId} {t : Task} :
      s.pc c = .notifyPop q (.task t) → t ∈ s.queue q →
      Step s (c, .popped q (some t)) (State.go
        { s with queue := Function.update s.queue q ((s.queue q).erase t) } c
        (.clearInWaitQueue q (.task t) t))
  | notifyMissing {s : State} {c : Cpu} {q : QueueId} {t : Task} :
      s.pc c = .notifyPop q (.task t) → t ∉ s.queue q →
      Step s (c, .popped q none) (s.go c (.notifyUnlock q (.task t) false))
  | clearInWaitQueue {s : State} {c : Cpu} {q : QueueId} {m : Mode} {t : Task} :
      s.pc c = .clearInWaitQueue q m t →
      Step s (c, .silent) (State.go
        { s with inWaitQueue := Function.update s.inWaitQueue t false } c
        (.wakeCas (.queue q m) t))
  | notifyUnlock {s : State} {c : Cpu} {q : QueueId} {m : Mode} {found : Bool} :
      s.pc c = .notifyUnlock q m found →
      Step s (c, .notified q m found) (State.go
        { s with lock := Function.update s.lock q none } c
        (s.afterNotify kind c q found m))
  -- `WaitQueue::requeue`
  | requeueLock {s : State} {c : Cpu} {q target : QueueId} {count : ℕ} :
      s.pc c = .requeueLock q count target → s.lock q = none →
      Step s (c, .silent) (State.go
        { s with lock := Function.update s.lock q (some c) } c
        (.requeueDrain q count target))
  | requeueDrain {s : State} {c : Cpu} {q target : QueueId} {count : ℕ} :
      s.pc c = .requeueDrain q count target →
      Step s (c, .drained q ((s.queue q).take count)) (State.go
        { s with queue := Function.update s.queue q ((s.queue q).drop count) } c
        (.requeueUnlock q ((s.queue q).take count) target))
  | requeueUnlock {s : State} {c : Cpu} {q target : QueueId} {tasks : List Task} :
      s.pc c = .requeueUnlock q tasks target →
      Step s (c, .silent) (State.go
        { s with lock := Function.update s.lock q none } c
        (if tasks = [] then .run else .requeueLockTarget tasks target))
  | requeueLockTarget {s : State} {c : Cpu} {target : QueueId} {tasks : List Task} :
      s.pc c = .requeueLockTarget tasks target → s.lock target = none →
      Step s (c, .silent) (State.go
        { s with lock := Function.update s.lock target (some c) } c
        (.requeueExtend tasks target))
  | requeueExtend {s : State} {c : Cpu} {target : QueueId} {tasks : List Task} :
      s.pc c = .requeueExtend tasks target →
      Step s (c, .extended target tasks) (State.go
        { s with queue := Function.update s.queue target (s.queue target ++ tasks) } c
        (.requeueUnlockTarget target))
  | requeueUnlockTarget {s : State} {c : Cpu} {target : QueueId} :
      s.pc c = .requeueUnlockTarget target →
      Step s (c, .silent) (State.go
        { s with lock := Function.update s.lock target none } c .run)
  -- `unblock_task`
  | wakeCas {s : State} {c : Cpu} {a : Caller} {t : Task} :
      s.pc c = .wakeCas a t → s.state t = .blocked →
      Step s (c, .woken t true) (State.go
        { s with state := Function.update s.state t .ready } c
        (if (kind t).isIdle then a.done else .wakeSpin a t))
  | wakeCasFail {s : State} {c : Cpu} {a : Caller} {t : Task} :
      s.pc c = .wakeCas a t → s.state t ≠ .blocked →
      Step s (c, .woken t false) (s.go c a.done)
  | wakeSpin {s : State} {c : Cpu} {a : Caller} {t : Task} :
      s.pc c = .wakeSpin a t → s.onCpu t = false →
      Step s (c, .silent) (s.go c (.wakePut a t))
  | wakePut {s : State} {c : Cpu} {a : Caller} {t : Task} {l l' : List Task} :
      s.pc c = .wakePut a t → s.ready c = l ++ l' →
      Step s (c, .queued t) (State.go
        { s with ready := Function.update s.ready c (l ++ t :: l') } c a.done)
  -- `WakerBlockFuture`
  | wakerLock {s : State} {c : Cpu} {n : ℕ} :
      s.pc c = .wakerLock n → s.wakerLock n = none →
      Step s (c, .silent) (State.go
        { s with wakerLock := Function.update s.wakerLock n (some c) } c (.wakerPush n))
  | wakerPush {s : State} {c : Cpu} {n : ℕ} :
      s.pc c = .wakerPush n →
      Step s (c, .silent) (State.go
        { s with wakers := Function.update s.wakers n (s.wakers n ++ [s.current c]) } c
        (.wakerUnlock n))
  | wakerUnlock {s : State} {c : Cpu} {n : ℕ} :
      s.pc c = .wakerUnlock n →
      Step s (c, .silent) (State.go
        { s with wakerLock := Function.update s.wakerLock n none } c .run)
  -- `WakerQueue::notify_one`
  | wakersLock {s : State} {c : Cpu} {n : ℕ} {all : Bool} :
      s.pc c = .wakersLock n all → s.wakerLock n = none →
      Step s (c, .silent) (State.go
        { s with wakerLock := Function.update s.wakerLock n (some c) } c
        (.wakersPop n all))
  | wakersPop {s : State} {c : Cpu} {n : ℕ} {all : Bool} {t : Task} {l : List Task} :
      s.pc c = .wakersPop n all → s.wakers n = t :: l →
      Step s (c, .wake t) (State.go
        { s with wakers := Function.update s.wakers n l } c
        (.wakeCas (.wakers n all) t))
  | wakersEmpty {s : State} {c : Cpu} {n : ℕ} {all : Bool} :
      s.pc c = .wakersPop n all → s.wakers n = [] →
      Step s (c, .silent) (s.go c (.wakersUnlock n all false))
  | wakersUnlock {s : State} {c : Cpu} {n : ℕ} {all found : Bool} :
      s.pc c = .wakersUnlock n all found →
      Step s (c, .silent) (State.go
        { s with wakerLock := Function.update s.wakerLock n none } c
        (if all && found then .wakersLock n all else .run))

/-- The task system: any number of CPUs and tasks, in any order of their steps. -/
def machine : Labelled.System State (Cpu × Event) where
  start := fun s => s = State.init
  step := Step kind

abbrev History := List (Cpu × Event)

end Smp
