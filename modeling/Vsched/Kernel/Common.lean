import Vsched.Kernel.Placed

/-!
# What threads and coroutines have in common

The tasks of one CPU without contexts, futures and stacks. Of a task that is not the current
one there is only what it does next. Rescheduling makes the next task the current one, empties
the slot of the task before and lets the task go on. Which tasks are coroutines is not asked.
-/

namespace Kernel

open Sched (BaseScheduler TaskState Keeper)

/-- The operations of a program, `wait_until` and `join` among the waits. -/
inductive Op
  | yield
  | wait (w : Wait)
  | notifyOne (q : QueueId) (resched : Bool)
  | notifyAll (q : QueueId) (resched : Bool)
  | new (n : ℕ)
  | spawn (n : ℕ)
  | exit (e : ℤ)
  deriving DecidableEq, Repr

/-- What a task does when it is the current one again. -/
inductive Plan
  | user
  | blocked (w : Wait)
  deriving DecidableEq, Repr

/-- Where the current task stands while the CPU does not reschedule. -/
inductive Stop
  | user
  | condition (w : Wait)
  /-- In `notify_all`, which `exit` calls as well. -/
  | notifying (q : QueueId) (resched exits : Bool)
  | halted
  deriving DecidableEq, Repr

/-- What happens next at a stop. -/
inductive Next
  | op (o : Op)
  | check (b : Bool)
  | round
  deriving DecidableEq, Repr

/-- The current task has exited. -/
def Stop.exits : Stop → Bool
  | .notifying _ _ exits => exits
  | _ => false

structure Common (σ : Type*) where
  view : View σ
  created : Task → Bool
  spawned : List Task
  handles : Task → ℕ
  plan : Task → Plan
  stop : Stop

variable {σ : Type*}

namespace Common

/-- After `init_vsched`. -/
def init (scheduler : σ) : Common σ where
  view := (State.init scheduler).view
  created := fun t => t = .main ∨ t = .idle
  spawned := []
  handles := fun _ => 0
  plan := fun _ => .user
  stop := .user

variable (a : Common σ)

/-- The tasks that have not exited. -/
def live : List Task := (.main :: a.spawned).filter fun t => a.view.state t ≠ .exited

/-- The tasks that the scheduler has been given. -/
def Known (t : Task) : Prop := t = .main ∨ t ∈ a.spawned

def goOn : Plan → Common σ
  | .user => { a with stop := .user }
  | .blocked w =>
      match w.cond with
      | none => { a with view := (a.view.cancelEvents w.queue).returned w, stop := .user }
      | some _ => { a with stop := .condition w }

/-- The current task has just come to the CPU, or stays there. -/
def arrive : Common σ :=
  goOn { a with view := a.view.takePrevTask, stop := .user } (a.plan a.view.current)

variable (B : BaseScheduler σ Task)

/-- The current task, which has the plan `p`, gives the CPU to the next one. -/
def resched (p : Plan) : Option (Common σ) :=
  (a.view.reschedF B).map fun r =>
    arrive { a with view := r.1, plan := Function.update a.plan a.view.current p }

def block (w : Wait) : Option (Common σ) :=
  (a.view.blockCurrent w.queue).bind fun v => resched { a with view := v } B (.blocked w)

def exit (e : ℤ) : Option (Common σ) :=
  let t := a.view.current
  if a.view.isRunning t && !t.isIdle then
    if t.isInit then some { a with stop := .halted }
    else
      some { a with
        view :=
          { a.view.setState t .exited with
            exitCode := Function.update a.view.exitCode t e }
        stop := .notifying (.exit t) false true }
  else none

/-- One round of `notify_all`. -/
def notifyRound (q : QueueId) (resched exits : Bool) : Option (Common σ) :=
  (a.view.notifyOne B q resched).bind fun r =>
    let a' := { a with view := r.1 }
    if r.2 then some a'
    else if exits then a'.resched B .user else some { a' with stop := .user }

/-- `new` and `new_f`. -/
def new (n : ℕ) : Common σ :=
  { a with
    created := Function.update a.created (.user n) true
    handles := Function.update a.handles (.user n) 1
    plan := Function.update a.plan (.user n) .user }

def spawn (n : ℕ) : Option (Common σ) :=
  (a.view.addTask B (.user n)).map fun v =>
    { a with
      view := v
      spawned := a.spawned ++ [.user n]
      handles := Function.update a.handles (.user n) (a.handles (.user n) - 1) }

/-- An operation of the current task. -/
def call : Op → Option (Common σ)
  | .yield => (a.view.yieldCurrent B).bind fun v => resched { a with view := v } B .user
  | .wait w =>
      match w.cond with
      | none => a.block B w
      | some _ => some { a with stop := .condition w }
  | .notifyOne q resched =>
      (a.view.notifyOne B q resched).map fun r =>
        { a with view := r.1.setResult (if r.2 then 1 else 0) }
  | .notifyAll q resched => some { a with stop := .notifying q resched false }
  | .new n => some (a.new n)
  | .spawn n => a.spawn B n
  | .exit e => a.exit e

/-- `wait_until` after its condition. -/
def checked (w : Wait) (b : Bool) : Option (Common σ) :=
  if b then
    some { a with view := (a.view.cancelEvents w.queue).returned w, stop := .user }
  else a.block B w

/-- What happens next, where it may happen. -/
def perform (x : Next) : Option (Common σ) :=
  match a.stop, x with
  | .user, .op o => a.call B o
  | .condition w, .check b => a.checked B w b
  | .notifying q resched exits, .round => a.notifyRound B q resched exits
  | _, _ => none

/-- The idle task runs `run_idle`; a task is made once and handed to `spawn` once. -/
def MayCall (o : Op) : Prop :=
  (a.view.current.isIdle = true → o = .yield) ∧
    match o with
    | .new n => a.created (.user n) = false
    | .spawn n => a.created (.user n) = true ∧ .user n ∉ a.spawned ∧ 0 < a.handles (.user n)
    | _ => True

def Enabled (x : Next) : Prop :=
  match a.stop, x with
  | .user, .op o => a.MayCall o
  | .condition _, .check _ => True
  | .notifying _ _ _, .round => True
  | _, _ => False

/-- The number of tasks that want to be in the ready queue. -/
def load : Next → ℕ
  | .op (.spawn _) => a.live.length + 1
  | _ => a.live.length

end Common

variable {B : BaseScheduler σ Task} {queue : σ → List Task} {I : σ → Prop}
  {fits : σ → ℕ → Prop} {a a' : Common σ}

/-- Where the tasks are kept, whatever the current one does. -/
structure Common.Rests (queue : σ → List Task) (I : σ → Prop) (a : Common σ) : Prop where
  inv : I a.view.scheduler
  located : a.view.Located queue a.Known
  current : a.Known a.view.current ∨ a.view.current = .idle
  spawned : ∀ t ∈ a.spawned, ∃ n, t = .user n
  created : ∀ t, a.Known t ∨ t = .idle → a.created t = true
  onCpu : ∀ t, a.view.onCpu t = true → t = a.view.current
  slot : a.view.prevTask = none ∨ a.view.prevTask = some .main ∧ a.view.current = .main
  idlePlan : a.plan .idle = .user

/-- Also the current task runs, unless it has exited, and no other one does. -/
structure Common.Sound (queue : σ → List Task) (I : σ → Prop) (a : Common σ) : Prop
    extends a.Rests queue I where
  running : a.stop.exits = false → a.view.state a.view.current = .running
  exited : a.stop.exits = true → a.view.state a.view.current = .exited
  only : ∀ t, a.view.state t = .running → t = a.view.current
  waiter : ∀ w, a.stop = .condition w → a.view.current ≠ .idle

/-- The next task has run, if it is not the one before, since the slot was emptied. -/
theorem View.takePrevTask_onCpu {v : View σ} {t : Task} (ht : v.takePrevTask.onCpu t = true) :
    v.onCpu t = true ∧ v.prevTask ≠ some t := by
  unfold View.takePrevTask at ht
  split at ht
  · rename_i hnone
    exact ⟨ht, by simp [hnone]⟩
  · rename_i p hsome
    by_cases htp : t = p
    · simp [htp] at ht
    · exact ⟨by simpa [htp] using ht, by simpa [hsome] using Ne.symm htp⟩

theorem View.takePrevTask_prevTask (v : View σ) : v.takePrevTask.prevTask = none := by
  unfold View.takePrevTask
  split
  · assumption
  · rfl

theorem View.takePrevTask_scheduler (v : View σ) :
    v.takePrevTask.scheduler = v.scheduler := by
  unfold View.takePrevTask
  split <;> rfl

namespace Common

theorem Rests.not_idle (h : a.Rests queue I) : ¬ a.Known .idle := by
  rintro (hmain | hmem)
  · cases hmain
  · obtain ⟨n, hn⟩ := h.spawned _ hmem
    cases hn

theorem mem_live {t : Task} (ht : a.Known t) (hexited : a.view.state t ≠ .exited) :
    t ∈ a.live := by
  simp only [live, List.mem_filter, List.mem_cons, decide_eq_true_eq]
  exact ⟨ht, hexited⟩

/-- The scheduler and the states have changed, the CPU has not. -/
theorem Rests.view {v : View σ} {p : Stop} (h : a.Rests queue I) (hI : I v.scheduler)
    (hloc : v.Located queue a.Known) (hcurrent : v.current = a.view.current)
    (hprev : v.prevTask = a.view.prevTask) (honCpu : v.onCpu = a.view.onCpu) :
    Rests queue I { a with view := v, stop := p } := by
  refine ⟨hI, hloc, ?_, h.spawned, h.created, ?_, ?_, h.idlePlan⟩
  · show a.Known v.current ∨ v.current = .idle
    rw [hcurrent]
    exact h.current
  · show ∀ t, v.onCpu t = true → t = v.current
    rw [honCpu, hcurrent]
    exact h.onCpu
  · show v.prevTask = none ∨ v.prevTask = some .main ∧ v.current = .main
    rw [hprev, hcurrent]
    exact h.slot

theorem Sound.view {v : View σ} (h : a.Sound queue I) (hI : I v.scheduler)
    (hloc : v.Located queue a.Known) (hquiet : a.view.Quiet v)
    (honCpu : v.onCpu = a.view.onCpu) {p : Stop} (hp : p.exits = a.stop.exits)
    (hwaits : ∀ w, p = .condition w → a.view.current ≠ .idle) :
    Sound queue I { a with view := v, stop := p } := by
  refine ⟨h.toRests.view hI hloc hquiet.current hquiet.prevTask honCpu, ?_, ?_, ?_, ?_⟩
  · show p.exits = false → v.state v.current = .running
    rw [hp, hquiet.current, hquiet.running]
    exact h.running
  · show p.exits = true → v.state v.current = .exited
    rw [hp, hquiet.current, hquiet.exited]
    exact h.exited
  · intro t ht
    show t = v.current
    rw [hquiet.current]
    exact h.only t ((hquiet.running t).mp ht)
  · show ∀ w, p = .condition w → v.current ≠ .idle
    rw [hquiet.current]
    exact hwaits

/-- A blocked task is on no CPU. -/
theorem Sound.off (h : a.Sound queue I) {t : Task} (ht : a.view.state t = .blocked) :
    a.view.onCpu t = false := by
  by_contra hon
  have hcurrent : t = a.view.current := h.onCpu t (by simpa using hon)
  rw [hcurrent] at ht
  cases hexits : a.stop.exits with
  | true =>
      rw [h.exited hexits] at ht
      cases ht
  | false =>
      rw [h.running hexits] at ht
      cases ht

theorem goOn_created (a : Common σ) (p : Plan) : (a.goOn p).created = a.created := by
  unfold Common.goOn
  split
  · rfl
  · split <;> rfl

theorem goOn_current (a : Common σ) (p : Plan) :
    (a.goOn p).view.current = a.view.current := by
  unfold Common.goOn
  split
  · rfl
  · split
    · exact ((View.cancelEvents_quiet _ _).trans (View.returned_quiet _ _)).current
    · rfl

/-- The current task goes on with its plan. -/
theorem Sound.goOn {p : Plan} (h : a.Sound queue I) (hstop : a.stop = .user)
    (hp : ∀ w, p = .blocked w → a.view.current ≠ .idle) : (a.goOn p).Sound queue I := by
  have hrunning := h.running (by rw [hstop]; rfl)
  cases p with
  | user => exact h.view h.inv h.located (.refl _) rfl (by rw [hstop]) (by simp)
  | blocked w =>
      cases hcond : w.cond with
      | none =>
          have heq : a.goOn (.blocked w) = { a with
              view := (a.view.cancelEvents w.queue).returned w
              stop := .user } := by simp [Common.goOn, hcond]
          rw [heq, h.located.cancelEvents hrunning]
          refine h.view ?_ (h.located.returned w) (View.returned_quiet _ w) ?_ (by rw [hstop])
            (by simp)
          · cases w <;> exact h.inv
          · cases w <;> rfl
      | some c =>
          have heq : a.goOn (.blocked w) = { a with stop := .condition w } := by
            simp [Common.goOn, hcond]
          rw [heq]
          exact h.view h.inv h.located (.refl _) rfl (by rw [hstop]; rfl) fun _ _ => hp w rfl

/-- Rescheduling finds a task to go on with. -/
theorem Rests.resched {p : Plan} (h : a.Rests queue I) (hB : Keeper B queue I fits)
    (hnone : ∀ t, a.view.state t ≠ .running)
    (hp : ∀ w, p = .blocked w → a.view.current ≠ .idle) :
    ∃ a', a.resched B p = some a' ∧ a'.Sound queue I ∧ a'.created = a.created := by
  obtain ⟨sch, next, hpick, hpicks, hloc, hI, hnext⟩ :=
    h.located.pickNextTask hB h.inv h.not_idle hnone
  obtain ⟨v, b, hresched, hcurrent, hstate, hv, honCpu⟩ : ∃ v b, a.view.reschedF B = some (v, b) ∧
      v.current = next ∧ v.state = (a.view.picked sch next).state ∧
      (v.scheduler = sch ∧ v.queue = a.view.queue ∧ v.inWaitQueue = a.view.inWaitQueue) ∧
      ∀ t, v.onCpu t = true → v.prevTask ≠ some t → t = next := by
    by_cases hsame : a.view.current = next
    · refine ⟨a.view.picked sch next, false, ?_, hsame, rfl, ⟨rfl, rfl, rfl⟩, fun t ht _ => ?_⟩
      · simp [View.reschedF, hpick, View.picked, View.setState, hsame]
      · rw [← hsame]
        exact h.onCpu t ht
    · refine ⟨(a.view.picked sch next).replaceCurrent next, true, ?_, rfl, rfl, ⟨rfl, rfl, rfl⟩,
        fun t ht hprev => ?_⟩
      · simp [View.reschedF, hpick, View.picked, View.setState, hsame]
      · by_contra hne
        have hon : a.view.onCpu t = true := by
          simpa [View.replaceCurrent, View.picked, View.setState, hne] using ht
        exact hprev (by rw [h.onCpu t hon]; rfl)
  obtain ⟨hscheduler, hqueue, hflag⟩ := hv
  obtain ⟨htaken, htakenState⟩ := View.takePrevTask_eq v
  have hother : ∀ t, v.state t = .running → t = next := by
    intro t ht
    by_contra hne
    exact hnone t (by simpa [hstate, View.picked, View.setState, hne] using ht)
  have hplan : ∀ w, Function.update a.plan a.view.current p next = .blocked w → next ≠ .idle := by
    rintro w hw rfl
    by_cases hidle : .idle = a.view.current
    · rw [hidle, Function.update_self] at hw
      exact hp w hw hidle.symm
    · rw [Function.update_of_ne hidle, h.idlePlan] at hw
      cases hw
  have hidlePlan : Function.update a.plan a.view.current p .idle = .user := by
    by_cases hidle : .idle = a.view.current
    · rw [hidle, Function.update_self]
      cases p with
      | user => rfl
      | blocked w => exact absurd hidle.symm (hp w rfl)
    · rw [Function.update_of_ne hidle, h.idlePlan]
  have hsound : Sound queue I { a with
      view := v.takePrevTask
      plan := Function.update a.plan a.view.current p
      stop := .user } := by
    refine ⟨⟨?_, ?_, ?_, h.spawned, h.created, fun t ht => ?_, .inl (View.takePrevTask_prevTask v),
      hidlePlan⟩, fun _ => ?_, (fun hno => by cases hno), fun t ht => ?_, by simp⟩
    · show I v.takePrevTask.scheduler
      rw [View.takePrevTask_scheduler, hscheduler]
      exact hI
    · exact (hloc.same hscheduler hstate hqueue hflag : v.Located queue a.Known).takePrevTask
    · show a.Known v.takePrevTask.current ∨ v.takePrevTask.current = .idle
      rw [htaken, hcurrent]
      exact hnext
    · show t = v.takePrevTask.current
      rw [htaken, hcurrent]
      obtain ⟨hon, hprev⟩ := View.takePrevTask_onCpu ht
      exact honCpu t hon hprev
    · show v.takePrevTask.state v.takePrevTask.current = .running
      rw [htakenState, htaken, hcurrent, hstate]
      simp [View.picked, View.setState]
    · show t = v.takePrevTask.current
      rw [htaken, hcurrent]
      exact hother t (by rw [← htakenState]; exact ht)
  have hgo := hsound.goOn (p := Function.update a.plan a.view.current p next) rfl fun w hw => by
    show v.takePrevTask.current ≠ .idle
    rw [htaken, hcurrent]
    exact hplan w hw
  refine ⟨_, ?_, hgo, ?_⟩
  · simp only [Common.resched, Common.arrive, hresched, Option.map_some, hcurrent]
  · exact goOn_created _ _

/-- The current task has stopped, and the next one is chosen. -/
theorem Sound.stopped {v : View σ} {p : Plan} (h : a.Sound queue I) (hB : Keeper B queue I fits)
    (hv : a.view.Stops v) (hI : I v.scheduler) (hloc : v.Located queue a.Known)
    (honCpu : v.onCpu = a.view.onCpu) (hp : ∀ w, p = .blocked w → a.view.current ≠ .idle) :
    ∃ a', Common.resched { a with view := v } B p = some a' ∧ a'.Sound queue I := by
  have hrests : Rests queue I { a with view := v, stop := a.stop } :=
    h.toRests.view hI hloc hv.current hv.prevTask honCpu
  have hnone : ∀ t, v.state t ≠ .running := by
    intro t ht
    obtain ⟨hold, hne⟩ := hv.stopped t ht
    exact hne (h.only t hold)
  obtain ⟨a', hresched, hsound, -⟩ := hrests.resched (p := p) hB hnone fun w hw => by
    rw [show (Common.view _).current = a.view.current from hv.current]
    exact hp w hw
  exact ⟨a', hresched, hsound⟩

theorem Sound.block {w : Wait} (h : a.Sound queue I) (hB : Keeper B queue I fits)
    (hexits : a.stop.exits = false) (hidle : a.view.current.isIdle = false) :
    ∃ a', a.block B w = some a' ∧ a'.Sound queue I := by
  obtain ⟨v, hblock, hloc, hscheduler, honCpu⟩ :=
    h.located.blockCurrent (q := w.queue) hidle (h.running hexits)
  obtain ⟨a', hresched, hsound⟩ := h.stopped (p := .blocked w) hB (View.blockCurrent_stops hblock)
    (hscheduler ▸ h.inv) hloc honCpu fun _ _ hcurrent => by
      rw [hcurrent] at hidle
      cases hidle
  exact ⟨a', by simp [Common.block, hblock, hresched], hsound⟩

theorem Sound.exit {e : ℤ} (h : a.Sound queue I) (hstop : a.stop = .user)
    (hidle : a.view.current.isIdle = false) :
    ∃ a', a.exit e = some a' ∧ a'.Sound queue I := by
  have hrunning := h.running (by rw [hstop]; rfl)
  have hcond : (a.view.isRunning a.view.current && !a.view.current.isIdle) = true := by
    simp [View.isRunning, hrunning, hidle]
  by_cases hinit : a.view.current.isInit = true
  · refine ⟨{ a with stop := .halted }, by simp [Common.exit, hcond, hinit], ?_⟩
    exact h.view h.inv h.located (.refl _) rfl (by rw [hstop]; rfl) (by simp)
  · let v : View σ :=
      { a.view.setState a.view.current .exited with
        exitCode := Function.update a.view.exitCode a.view.current e }
    refine ⟨{ a with view := v, stop := .notifying (.exit a.view.current) false true }, ?_, ?_⟩
    · simp [Common.exit, hcond, hinit, v]
    refine ⟨h.toRests.view h.inv (h.located.exit hidle hrunning) rfl rfl rfl,
      (fun hno => by cases hno), fun _ => ?_, fun t ht => ?_, by simp⟩
    · show Function.update a.view.state a.view.current .exited a.view.current = .exited
      simp
    · have hrun : Function.update a.view.state a.view.current .exited t = .running := ht
      by_cases hcurrent : t = a.view.current
      · exact hcurrent
      · exact h.only t (by simpa [hcurrent] using hrun)

theorem Sound.notifyOne {q : QueueId} {r : Bool} {n : ℕ} (h : a.Sound queue I)
    (hB : Keeper B queue I fits) (hfits : fits a.view.scheduler n) (hn : a.live.length ≤ n) :
    ∃ v b, a.view.notifyOne B q r = some (v, b) ∧ (b = false → v = a.view) ∧
      Sound queue I { a with view := v } := by
  obtain ⟨v, b, hnotify, hloc, hI, honCpu, -, hfalse⟩ := h.located.notifyOne (q := q)
    hB h.inv hfits hn (fun t => mem_live) h.not_idle fun t => h.off
  exact ⟨v, b, hnotify, hfalse, h.view hI hloc (View.notifyOne_quiet hnotify) honCpu rfl h.waiter⟩

theorem Sound.notifyRound {q : QueueId} {resched exits : Bool} {n : ℕ} (h : a.Sound queue I)
    (hB : Keeper B queue I fits) (hstop : a.stop = .notifying q resched exits)
    (hfits : fits a.view.scheduler n) (hn : a.live.length ≤ n) :
    ∃ a', a.notifyRound B q resched exits = some a' ∧ a'.Sound queue I := by
  obtain ⟨v, b, hnotify, hfalse, hsound⟩ := h.notifyOne (q := q) (r := resched) hB hfits hn
  cases b with
  | true => exact ⟨_, by simp [Common.notifyRound, hnotify], hsound⟩
  | false =>
      obtain rfl := hfalse rfl
      cases exits with
      | false =>
          refine ⟨{ a with stop := .user }, by simp [Common.notifyRound, hnotify], ?_⟩
          exact h.view h.inv h.located (.refl _) rfl (by rw [hstop]; rfl) (by simp)
      | true =>
          have hnone : ∀ t, a.view.state t ≠ .running := by
            intro t ht
            have hexited := h.exited (by rw [hstop]; rfl)
            rw [← h.only t ht, ht] at hexited
            cases hexited
          obtain ⟨a', hresched, hsound', -⟩ := h.toRests.resched (p := .user) hB hnone (by simp)
          exact ⟨a', by simp [Common.notifyRound, hnotify, hresched], hsound'⟩

theorem Sound.new (h : a.Sound queue I) (n : ℕ) : (a.new n).Sound queue I := by
  refine ⟨⟨h.inv, h.located, h.current, h.spawned, fun t ht => ?_, h.onCpu, h.slot, ?_⟩, h.running,
    h.exited, h.only, h.waiter⟩
  · show Function.update a.created (.user n) true t = true
    by_cases htn : t = .user n
    · simp [htn]
    · rw [Function.update_of_ne htn]
      exact h.created t ht
  · show Function.update a.plan (.user n) .user .idle = .user
    rw [Function.update_of_ne (by simp), h.idlePlan]

theorem Sound.spawn {n : ℕ} (h : a.Sound queue I) (hB : Keeper B queue I fits)
    (hcreated : a.created (.user n) = true) (hnot : .user n ∉ a.spawned)
    (hfits : fits a.view.scheduler (a.live.length + 1)) :
    ∃ a', a.spawn B n = some a' ∧ a'.Sound queue I := by
  have hunknown : ¬ a.Known (.user n) := by
    rintro (hmain | hmem)
    · cases hmain
    · exact hnot hmem
  obtain ⟨v, hadd, hloc, hI, honCpu⟩ := h.located.addTask (t := .user n) hB h.inv hfits
    (Nat.lt_succ_self _) (fun t => mem_live) hunknown (by simp)
  have hquiet := View.addTask_quiet hadd
  let a' : Common σ := { a with
    view := v
    spawned := a.spawned ++ [.user n]
    handles := Function.update a.handles (.user n) (a.handles (.user n) - 1) }
  have hknown : ∀ t, a'.Known t ↔ a.Known t ∨ t = .user n := by
    intro t
    simp [a', Known, or_assoc]
  refine ⟨a', by simp [Common.spawn, hadd, a'],
    ⟨⟨hI, ?_, ?_, fun t ht => ?_, fun t ht => ?_, ?_, ?_,
    h.idlePlan⟩, ?_, ?_, fun t ht => ?_, ?_⟩⟩
  · rw [show a'.Known = fun t => a.Known t ∨ t = .user n from funext fun t => propext (hknown t)]
    exact hloc
  · rw [show a'.view = v from rfl, hquiet.current, hknown]
    exact h.current.imp .inl id
  · rcases List.mem_append.mp ht with ht | ht
    · exact h.spawned t ht
    · exact ⟨n, List.mem_singleton.mp ht⟩
  · rw [hknown, or_assoc, or_comm (a := t = .user n), ← or_assoc] at ht
    rcases ht with ht | rfl
    · exact h.created t ht
    · exact hcreated
  · rw [show a'.view = v from rfl, honCpu, hquiet.current]
    exact h.onCpu
  · rw [show a'.view = v from rfl, hquiet.current, hquiet.prevTask]
    exact h.slot
  · rw [show a'.view = v from rfl, hquiet.current, hquiet.running]
    exact h.running
  · rw [show a'.view = v from rfl, hquiet.current, hquiet.exited]
    exact h.exited
  · rw [show a'.view = v from rfl, hquiet.current]
    exact h.only t ((hquiet.running t).mp ht)
  · rw [show a'.view = v from rfl, hquiet.current]
    exact h.waiter

theorem Sound.call {o : Op} (h : a.Sound queue I) (hB : Keeper B queue I fits)
    (hstop : a.stop = .user) (hmay : a.MayCall o) (hfits : fits a.view.scheduler (a.load (.op o))) :
    ∃ a', a.call B o = some a' ∧ a'.Sound queue I := by
  obtain ⟨hidle, hholds⟩ := hmay
  have hexits : a.stop.exits = false := by rw [hstop]; rfl
  have hbusy : o ≠ .yield → a.view.current.isIdle = false := by
    intro ho
    by_contra hi
    exact ho (hidle (by simpa using hi))
  cases o with
  | yield =>
      obtain ⟨v, hyield, hloc, hI, honCpu⟩ := h.located.yieldCurrent hB h.inv hfits (le_refl _)
        (fun t => mem_live) h.current h.not_idle (h.running hexits)
      obtain ⟨a', hresched, hsound⟩ := h.stopped (p := .user) hB (View.yieldCurrent_stops hyield) hI
        hloc honCpu (by simp)
      exact ⟨a', by simp [Common.call, hyield, hresched], hsound⟩
  | wait w =>
      have hnot := hbusy (by simp)
      cases hcond : w.cond with
      | none =>
          obtain ⟨a', hblock, hsound⟩ := h.block (w := w) hB hexits hnot
          exact ⟨a', by simp [Common.call, hcond, hblock], hsound⟩
      | some c =>
          refine ⟨{ a with stop := .condition w }, by simp [Common.call, hcond], ?_⟩
          refine h.view h.inv h.located (.refl _) rfl (by rw [hstop]; rfl) fun _ _ hcurrent => ?_
          rw [hcurrent] at hnot
          cases hnot
  | notifyOne q resched =>
      obtain ⟨v, b, hnotify, -, hsound⟩ := h.notifyOne (q := q) (r := resched) hB hfits (le_refl _)
      refine ⟨{ a with view := v.setResult (if b then 1 else 0) }, by simp [Common.call, hnotify],
        ?_⟩
      exact hsound.view (v := v.setResult (if b then 1 else 0)) hsound.inv
        (hsound.located.same rfl rfl rfl rfl) (.of_eq rfl rfl rfl) rfl rfl hsound.waiter
  | notifyAll q resched =>
      refine ⟨{ a with stop := .notifying q resched false }, rfl, ?_⟩
      exact h.view h.inv h.located (.refl _) rfl (by rw [hstop]; rfl) (by simp)
  | new n => exact ⟨a.new n, rfl, h.new n⟩
  | spawn n => exact h.spawn hB hholds.1 hholds.2.1 hfits
  | exit e => exact h.exit hstop (hbusy (by simp))

theorem Sound.checked {w : Wait} {b : Bool} (h : a.Sound queue I) (hB : Keeper B queue I fits)
    (hstop : a.stop = .condition w) : ∃ a', a.checked B w b = some a' ∧ a'.Sound queue I := by
  have hexits : a.stop.exits = false := by rw [hstop]; rfl
  have hidle := h.waiter w hstop
  cases b with
  | false =>
      refine h.block hB hexits ?_
      cases hcurrent : a.view.current with
      | idle => exact absurd hcurrent hidle
      | _ => rfl
  | true =>
      refine ⟨_, rfl, ?_⟩
      rw [h.located.cancelEvents (h.running hexits)]
      refine h.view ?_ (h.located.returned w) (View.returned_quiet _ w) ?_ (by rw [hstop]; rfl)
        (by simp)
      · cases w <;> exact h.inv
      · cases w <;> rfl

/-- Whatever may happen next leads on, as long as the scheduler has room. -/
theorem Sound.perform {x : Next} (h : a.Sound queue I) (hB : Keeper B queue I fits)
    (he : a.Enabled x) (hfits : fits a.view.scheduler (a.load x)) :
    ∃ a', a.perform B x = some a' ∧ a'.Sound queue I := by
  unfold Common.Enabled at he
  unfold Common.perform
  split at he
  · exact h.call hB ‹_› he hfits
  · exact h.checked hB ‹_›
  · exact h.notifyRound hB ‹_› hfits (le_refl _)
  · exact he.elim

theorem Sound.init {scheduler : σ} (hI : I scheduler) (hempty : queue scheduler = []) :
    (Common.init scheduler).Sound queue I := by
  have hplaced : Placed (fun _ => .thread) queue I (State.init scheduler) := .init hI hempty
  have hactive := Active.init scheduler
  refine ⟨⟨hI, hplaced.located, hplaced.current, hplaced.spawned, hplaced.created, fun t ht => ?_,
    .inr ⟨rfl, rfl⟩, rfl⟩, fun _ => rfl, (fun hno => by cases hno), hactive.only,
      by simp [Common.init]⟩
  exact (hplaced.onCpu t ht).elim id fun hprev => (Option.some.inj hprev).symm

end Common

end Kernel
