import Vsched.Kernel.Model

/-!
# What the routines of the kernel do

Each routine that may fail has a lemma that says what it has done when it returns.
From these: only the current task is running, and it is running unless it is
about to leave the CPU in `exit`.
-/

namespace Kernel

open Sched (BaseScheduler TaskState)

variable {σ : Type*} {B : BaseScheduler σ Task} {kind : ℕ → Kind} {v v' : View σ}
  {s s' : State σ}

/-- A part of the kernel that neither reschedules nor lets a task exit. -/
structure View.Calm (v v' : View σ) : Prop where
  current : v'.current = v.current
  prevTask : v'.prevTask = v.prevTask
  exited : ∀ t, v'.state t = .exited ↔ v.state t = .exited

/-- Also no task starts or stops running. -/
structure View.Quiet (v v' : View σ) : Prop extends v.Calm v' where
  running : ∀ t, v'.state t = .running ↔ v.state t = .running

namespace View

theorem Calm.refl (v : View σ) : v.Calm v := ⟨rfl, rfl, fun _ => Iff.rfl⟩

theorem Calm.trans {u w : View σ} (h : v.Calm u) (h' : u.Calm w) : v.Calm w :=
  ⟨h'.current.trans h.current, h'.prevTask.trans h.prevTask,
    fun t => (h'.exited t).trans (h.exited t)⟩

/-- A change of the state of a task that has not exited to one in which it has not. -/
theorem Calm.setState {t : Task} {st : TaskState} (hold : v.state t ≠ .exited)
    (hnew : st ≠ .exited) : v.Calm (v.setState t st) := by
  refine ⟨rfl, rfl, fun u => ?_⟩
  by_cases hu : u = t
  · subst hu
    simp [View.setState, hold, hnew]
  · simp [View.setState, hu]

theorem Quiet.refl (v : View σ) : v.Quiet v := ⟨.refl v, fun _ => Iff.rfl⟩

theorem Quiet.trans {u w : View σ} (h : v.Quiet u) (h' : u.Quiet w) : v.Quiet w :=
  ⟨h.toCalm.trans h'.toCalm, fun t => (h'.running t).trans (h.running t)⟩

/-- The states, the current task and the slot are left alone. -/
theorem Quiet.of_eq (hcurrent : v'.current = v.current) (hprev : v'.prevTask = v.prevTask)
    (hstate : v'.state = v.state) : v.Quiet v' :=
  ⟨⟨hcurrent, hprev, fun _ => by rw [hstate]⟩, fun _ => by rw [hstate]⟩

theorem Quiet.setState {t : Task} {st : TaskState} (hold : v.state t = .blocked)
    (hnew : st = .ready) : v.Quiet (v.setState t st) := by
  subst hnew
  refine ⟨.setState (by rw [hold]; decide) (by decide), fun u => ?_⟩
  by_cases hu : u = t
  · subst hu
    simp [View.setState, hold]
  · simp [View.setState, hu]

theorem putTaskWithState_eq {task : Task} {st : TaskState} {preempt b : Bool}
    (h : v.putTaskWithState B task st preempt = some (v', b)) :
    (v' = v ∧ v.state task ≠ st ∧ b = false) ∨
      (v.state task = st ∧ v' = v.setState task .ready ∧ task.isIdle = true ∧ b = false) ∨
      (v.state task = st ∧ task.isIdle = false ∧ b = true ∧
        (st = .blocked → v.onCpu task = false) ∧
        ∃ sch, B.putPrevTask v.scheduler task preempt = some sch ∧
          v' = { v.setState task .ready with scheduler := sch }) := by
  unfold View.putTaskWithState Sched.putTaskWithState at h
  split_ifs at h with hstate hidle hspin
  · obtain ⟨rfl, rfl⟩ : v.setState task .ready = v' ∧ false = b := by
      simpa [View.setState] using h
    exact .inr (.inl ⟨hstate, rfl, hidle, rfl⟩)
  · cases h
  · simp only [Option.map_map, Option.map_eq_some_iff] at h
    obtain ⟨sch, hput, hv⟩ := h
    obtain ⟨rfl, rfl⟩ : { v.setState task .ready with scheduler := sch } = v' ∧ true = b := by
      simpa [View.setState] using hv
    refine .inr (.inr ⟨hstate, by simpa using hidle, rfl, ?_, sch, hput, rfl⟩)
    intro hblocked
    simpa [hblocked] using hspin
  · obtain ⟨rfl, rfl⟩ : v = v' ∧ false = b := by simpa using h
    exact .inl ⟨rfl, hstate, rfl⟩

theorem unblockTask_quiet {task : Task} {resched : Bool}
    (h : v.unblockTask B task resched = some v') : v.Quiet v' := by
  obtain ⟨⟨u, b⟩, hput, rfl⟩ := Option.map_eq_some_iff.mp h
  rcases putTaskWithState_eq hput with ⟨rfl, -, -⟩ | ⟨hstate, rfl, -, -⟩ |
    ⟨hstate, -, -, -, sch, -, rfl⟩
  · exact .refl _
  · exact .setState hstate rfl
  · exact .trans (.setState hstate rfl) (.of_eq rfl rfl rfl)

theorem unblockOneTask_quiet {task : Task} {resched : Bool}
    (h : v.unblockOneTask B task resched = some v') : v.Quiet v' :=
  .trans (u := v.setInWaitQueue task false) (.of_eq rfl rfl rfl) (unblockTask_quiet h)

theorem notifyOne_quiet {q : QueueId} {resched b : Bool}
    (h : v.notifyOne B q resched = some (v', b)) : v.Quiet v' := by
  unfold View.notifyOne at h
  split at h
  · obtain ⟨rfl, -⟩ : v = v' ∧ false = b := by simpa using h
    exact .refl _
  · rename_i task rest _
    obtain ⟨u, hu, hpair⟩ := Option.map_eq_some_iff.mp h
    obtain ⟨rfl, -⟩ : u = v' ∧ true = b := by simpa using hpair
    exact .trans (u := v.setQueue q rest) (.of_eq rfl rfl rfl) (unblockOneTask_quiet hu)

theorem notifyTask_quiet {q : QueueId} {resched b : Bool} {task : Task}
    (h : v.notifyTask B q resched task = some (v', b)) : v.Quiet v' := by
  unfold View.notifyTask at h
  split_ifs at h
  · obtain ⟨u, hu, hpair⟩ := Option.map_eq_some_iff.mp h
    obtain ⟨rfl, -⟩ : u = v' ∧ true = b := by simpa using hpair
    exact .trans (u := v.setQueue q ((v.queue q).erase task)) (.of_eq rfl rfl rfl)
      (unblockOneTask_quiet hu)
  · obtain ⟨rfl, -⟩ : v = v' ∧ false = b := by simpa using h
    exact .refl _

theorem addTask_eq {task : Task} (h : v.addTask B task = some v') :
    v.state task = .ready ∧ ∃ sch, B.addTask v.scheduler task = some sch ∧
      v' = { v with scheduler := sch } := by
  unfold View.addTask at h
  split_ifs at h with hready
  obtain ⟨sch, hadd, rfl⟩ := Option.map_eq_some_iff.mp h
  exact ⟨hready, sch, hadd, rfl⟩

theorem addTask_quiet {task : Task} (h : v.addTask B task = some v') : v.Quiet v' := by
  obtain ⟨-, sch, -, rfl⟩ := addTask_eq h
  exact .of_eq rfl rfl rfl

theorem cancelEvents_quiet (v : View σ) (q : QueueId) : v.Quiet (v.cancelEvents q) := by
  unfold View.cancelEvents
  split_ifs <;> exact .of_eq rfl rfl rfl

theorem returned_quiet (v : View σ) (w : Wait) : v.Quiet (v.returned w) := by
  cases w <;> exact .of_eq rfl rfl rfl

/-- A part of the kernel after which the current task no longer runs. -/
structure Stops (v v' : View σ) : Prop extends v.Calm v' where
  before : v.state v.current = .running
  stopped : ∀ t, v'.state t = .running → v.state t = .running ∧ t ≠ v.current

theorem Stops.setState {st : TaskState} (hrunning : v.state v.current = .running)
    (hst : st = .ready ∨ st = .blocked) : v.Stops (v.setState v.current st) := by
  have hnew : st ≠ .exited ∧ st ≠ .running := by
    rcases hst with rfl | rfl <;> exact ⟨by decide, by decide⟩
  refine ⟨.setState (by rw [hrunning]; decide) hnew.1, hrunning, fun t ht => ?_⟩
  by_cases hcurrent : t = v.current
  · subst hcurrent
    simp [View.setState, hnew.2] at ht
  · exact ⟨by simpa [View.setState, hcurrent] using ht, hcurrent⟩

theorem Stops.of_eq {v'' : View σ} (h : v.Stops v') (hcurrent : v''.current = v'.current)
    (hprev : v''.prevTask = v'.prevTask) (hstate : v''.state = v'.state) : v.Stops v'' :=
  ⟨h.toCalm.trans (Quiet.of_eq hcurrent hprev hstate).toCalm, h.before,
    fun t ht => h.stopped t (by rwa [hstate] at ht)⟩

/-- `yield_current` makes the current task ready and hands it to the scheduler, unless
it is the idle task. -/
theorem yieldCurrent_eq (h : v.yieldCurrent B = some v') :
    v.state v.current = .running ∧
      ((v.current.isIdle = true ∧ v' = v.setState v.current .ready) ∨
        (v.current.isIdle = false ∧
          ∃ sch, B.putPrevTask v.scheduler v.current false = some sch ∧
            v' = { v.setState v.current .ready with scheduler := sch })) := by
  unfold View.yieldCurrent at h
  split_ifs at h with hrunning
  have hstate : v.state v.current = .running := by simpa [View.isRunning] using hrunning
  obtain ⟨⟨u, b⟩, hput, rfl⟩ := Option.map_eq_some_iff.mp h
  refine ⟨hstate, ?_⟩
  rcases putTaskWithState_eq hput with ⟨-, hne, -⟩ | ⟨-, rfl, hidle, -⟩ |
    ⟨-, hidle, -, -, sch, hsch, rfl⟩
  · exact absurd hstate hne
  · exact .inl ⟨hidle, rfl⟩
  · exact .inr ⟨hidle, sch, hsch, rfl⟩

theorem yieldCurrent_stops (h : v.yieldCurrent B = some v') : v.Stops v' := by
  obtain ⟨hrunning, ⟨-, rfl⟩ | ⟨-, sch, -, rfl⟩⟩ := yieldCurrent_eq h
  · exact .setState hrunning (.inl rfl)
  · exact (Stops.setState hrunning (.inl rfl)).of_eq rfl rfl rfl

theorem blockCurrent_eq {q : QueueId} (h : v.blockCurrent q = some v') :
    v.state v.current = .running ∧ v.current.isIdle = false ∧
      v' = ((v.setState v.current .blocked).setInWaitQueue v.current true).setQueue q
        (v.queue q ++ [v.current]) := by
  unfold View.blockCurrent at h
  split_ifs at h with hcond
  simp only [View.isRunning, Bool.and_eq_true, decide_eq_true_eq, Bool.not_eq_true'] at hcond
  exact ⟨hcond.1, hcond.2, (Option.some.inj h).symm⟩

theorem blockCurrent_stops {q : QueueId} (h : v.blockCurrent q = some v') : v.Stops v' := by
  obtain ⟨hrunning, -, rfl⟩ := blockCurrent_eq h
  exact (Stops.setState hrunning (.inr rfl)).of_eq rfl rfl rfl

/-- The scheduler picks the task `next`, which is ready. -/
structure Picks (B : BaseScheduler σ Task) (v : View σ) (sch : σ) (next : Task) : Prop where
  pick : ∃ x, B.pickNextTask v.scheduler = some (sch, x) ∧ next = x.getD .idle
  ready : v.state next = .ready

/-- The task that has been picked is running. -/
def picked (v : View σ) (sch : σ) (next : Task) : View σ :=
  { v with scheduler := sch }.setState next .running

theorem Picks.calm {sch : σ} {next : Task} (h : Picks B v sch next) : v.Calm (v.picked sch next) :=
  .trans (u := { v with scheduler := sch }) ⟨rfl, rfl, fun _ => Iff.rfl⟩
    (.setState (by rw [h.ready]; decide) (by decide))

theorem pickNextTask_eq {next : Task} (h : v.pickNextTask B = some (v', next)) :
    ∃ sch, Picks B v sch next ∧ v' = { v with scheduler := sch } := by
  unfold View.pickNextTask at h
  obtain ⟨⟨sch, x⟩, hpick, hnext⟩ := Option.bind_eq_some_iff.mp h
  simp only at hnext
  split_ifs at hnext with hready
  obtain ⟨rfl, rfl⟩ : { v with scheduler := sch } = v' ∧ x.getD .idle = next := by
    simpa using hnext
  exact ⟨sch, ⟨⟨x, hpick, rfl⟩, hready⟩, rfl⟩

/-- `resched_f` keeps the current task or puts the next one in its place. -/
theorem reschedF_eq {b : Bool} (h : v.reschedF B = some (v', b)) :
    ∃ sch next, Picks B v sch next ∧
      ((v.current = next ∧ b = false ∧ v' = v.picked sch next) ∨
        (v.current ≠ next ∧ b = true ∧ v' = (v.picked sch next).replaceCurrent next)) := by
  obtain ⟨⟨v₁, next⟩, hpick, hpair⟩ := Option.map_eq_some_iff.mp h
  obtain ⟨sch, hpicks, rfl⟩ := pickNextTask_eq hpick
  refine ⟨sch, next, hpicks, ?_⟩
  simp only at hpair
  split_ifs at hpair with hsame
  · obtain ⟨rfl, rfl⟩ := Prod.mk.inj hpair
    exact .inl ⟨hsame, rfl, rfl⟩
  · obtain ⟨rfl, rfl⟩ := Prod.mk.inj hpair
    exact .inr ⟨hsame, rfl, rfl⟩

end View

/-- The stack that is handed out, and what is left: the pool is used first. -/
def State.Allocates (s : State σ) (stack : ℕ) (pool : List ℕ) (allocated : ℕ) : Prop :=
  s.pool = stack :: pool ∧ allocated = s.allocated ∨
    s.pool = [] ∧ pool = [] ∧ stack = s.allocated ∧ allocated = s.allocated + 1

/-- What `set_kstack` does: a coroutine without a stack gets one and starts
`coroutine_schedule` on it. -/
theorem State.setKstack_eq {t : Task} (h : s.setKstack kind t = some s') :
    (s' = s ∧ (s.kstack t = none → t.isInit = true ∨ t.isIdle = true)) ∨
      (s.kstack t = none ∧ t.isCoroutine kind = true ∧
        ∃ stack pool allocated, s.Allocates stack pool allocated ∧
          s' = { s with
            pool := pool
            allocated := allocated
            kstack := Function.update s.kstack t (some stack)
            ctx := Function.update s.ctx t .schedule }) := by
  unfold State.setKstack at h
  split_ifs at h with hneeds hcoroutine
  · refine .inr ⟨hneeds.1, hcoroutine, ?_⟩
    obtain rfl := Option.some.inj h
    cases hpool : s.pool with
    | nil =>
        refine ⟨_, _, _, .inr ⟨hpool, rfl, rfl, rfl⟩, ?_⟩
        simp [State.allocStackForCoroutine, hpool]
    | cons stack rest =>
        refine ⟨_, _, _, .inl ⟨hpool, rfl⟩, ?_⟩
        simp [State.allocStackForCoroutine, hpool]
  · obtain rfl := Option.some.inj h
    refine .inl ⟨rfl, fun hnone => ?_⟩
    by_contra hno
    push Not at hno
    exact hneeds ⟨hnone, by simpa using hno.1, by simpa using hno.2⟩

theorem State.loadContext_eq (h : s.loadContext = some s') :
    (∃ k, s.ctx s.view.current = .resume k ∧ s' = { s with pc := .resume k }) ∨
      (s.ctx s.view.current = .schedule ∧ s' = { s with pc := .loopTop }) := by
  unfold State.loadContext at h
  split at h
  · exact .inl ⟨_, ‹_›, (Option.some.inj h).symm⟩
  · exact .inr ⟨‹_›, (Option.some.inj h).symm⟩
  · cases h

section Reschedule

variable {k : Kont} {next : Task}

/-- `s` after `next` has been made the current task and the context of the task
before it has been saved. -/
def State.switched (s : State σ) (next : Task) (k : Kont) : State σ :=
  { s with
    view := s.view.replaceCurrent next
    ctx := Function.update s.ctx s.view.current (.resume k) }

/-- `resched` returns to the current task or switches to the next one. -/
theorem State.resched_eq (h : s.resched kind B k = some s') :
    ∃ sch next, View.Picks B s.view sch next ∧
      ((s.view.current = next ∧ s' = { s with view := s.view.picked sch next, pc := .resume k }) ∨
        (s.view.current ≠ next ∧ ∃ s₁,
          State.setKstack { s with view := s.view.picked sch next } kind next = some s₁ ∧
          (s₁.switched next k).loadContext = some s')) := by
  obtain ⟨⟨v, next⟩, hpick, hswitch⟩ := Option.bind_eq_some_iff.mp h
  obtain ⟨sch, hpicks, rfl⟩ := View.pickNextTask_eq hpick
  refine ⟨sch, next, hpicks, ?_⟩
  simp only [State.switchTo] at hswitch
  split_ifs at hswitch with hsame
  · exact .inl ⟨hsame, (Option.some.inj hswitch).symm⟩
  · obtain ⟨s₁, hset, hload⟩ := Option.bind_eq_some_iff.mp hswitch
    exact .inr ⟨hsame, s₁, hset, hload⟩

/-- `resched_f` in a future leaves the current task or goes on with it. -/
theorem State.reschedFuture_eq (h : s.reschedFuture B k = some s') :
    ∃ sch next, View.Picks B s.view sch next ∧
      ((s.view.current = next ∧
          State.goOn { s with view := s.view.picked sch next } k = some s') ∨
        (s.view.current ≠ next ∧
          s' = { s with
            view := (s.view.picked sch next).replaceCurrent next
            future := Function.update s.future s.view.current k
            pc := .polled s.view.current })) := by
  obtain ⟨⟨v, b⟩, hresched, hgo⟩ := Option.bind_eq_some_iff.mp h
  obtain ⟨sch, next, hpicks, ⟨hsame, rfl, rfl⟩ | ⟨hne, rfl, rfl⟩⟩ := View.reschedF_eq hresched
  · exact ⟨sch, next, hpicks, .inl ⟨hsame, hgo⟩⟩
  · exact ⟨sch, next, hpicks, .inr ⟨hne, (Option.some.inj hgo).symm⟩⟩

end Reschedule

theorem View.isRunning_not_idle {t : Task} (h : (v.isRunning t && !t.isIdle) = true) :
    v.state t = .running ∧ t.isIdle = false := by
  simpa [View.isRunning] using h

/-- What `exit` does up to `notify_exit`. -/
theorem State.exit_eq {f : Form} {e : ℤ} (h : s.exit f e = some s') :
    s.view.state s.view.current = .running ∧ s.view.current.isIdle = false ∧
      ((f = .thread ∧ s.view.current.isInit = true ∧ s' = { s with pc := .halted }) ∨
        ((f = .thread → s.view.current.isInit = false) ∧
          s' = { s with
            view :=
              { s.view.setState s.view.current .exited with
                exitCode := Function.update s.view.exitCode s.view.current e }
            pc := .notifyAll (.exit s.view.current) false (some f) })) := by
  simp only [State.exit] at h
  split_ifs at h with hcond hinit
  · obtain ⟨hrunning, hidle⟩ := View.isRunning_not_idle hcond
    exact ⟨hrunning, hidle, .inl ⟨hinit.1, hinit.2, (Option.some.inj h).symm⟩⟩
  · obtain ⟨hrunning, hidle⟩ := View.isRunning_not_idle hcond
    refine ⟨hrunning, hidle, .inr ⟨fun hf => ?_, (Option.some.inj h).symm⟩⟩
    exact Bool.eq_false_iff.mpr fun hi => hinit ⟨hf, hi⟩

/-- A resume point only clears the slot of the task before. -/
theorem State.releasePrev_eq (s : State σ) :
    s.releasePrev.view = s.view.takePrevTask ∧ s.releasePrev.created = s.created ∧
      s.releasePrev.kstack = s.kstack ∧ s.releasePrev.pool = s.pool ∧
      s.releasePrev.allocated = s.allocated ∧ s.releasePrev.ctx = s.ctx ∧
      s.releasePrev.future = s.future ∧ s.releasePrev.pc = s.pc := by
  unfold State.releasePrev View.takePrevTask
  split
  · exact ⟨rfl, rfl, rfl, rfl, rfl, rfl, rfl, rfl⟩
  · simp only
    split_ifs <;> exact ⟨rfl, rfl, rfl, rfl, rfl, rfl, rfl, rfl⟩

theorem State.releasePrev_spawned (s : State σ) : s.releasePrev.spawned = s.spawned := by
  unfold State.releasePrev
  split
  · rfl
  · simp only
    split_ifs <;> rfl

theorem View.takePrevTask_eq (v : View σ) :
    v.takePrevTask.current = v.current ∧ v.takePrevTask.state = v.state := by
  unfold View.takePrevTask
  split <;> exact ⟨rfl, rfl⟩

section Schedule

variable {t : Task} {stack : ℕ}

/-- What `coroutine_schedule` does between the poll and the next task. -/
theorem State.takeStack_eq (h : s.takeStack B t = some s') :
    ∃ v stack, s.kstack t = some stack ∧
      s' = { s with
        view := v
        kstack := Function.update s.kstack t none
        pc := .handOver t stack } ∧
      ((s.view.state t ≠ .running ∧ v = s.view) ∨
        (s.view.state t = .running ∧
          ∃ sch next, View.Picks B (s.view.setState t .blocked) sch next ∧
            (((s.view.setState t .blocked).current = next ∧
                v = (s.view.setState t .blocked).picked sch next) ∨
              ((s.view.setState t .blocked).current ≠ next ∧
                v = ((s.view.setState t .blocked).picked sch next).replaceCurrent next)))) := by
  obtain ⟨v, hv, htake⟩ := Option.bind_eq_some_iff.mp h
  obtain ⟨stack, hstack, rfl⟩ := Option.map_eq_some_iff.mp htake
  refine ⟨v, stack, hstack, rfl, ?_⟩
  split_ifs at hv with hrunning
  · obtain ⟨⟨v', b⟩, hresched, rfl⟩ := Option.map_eq_some_iff.mp hv
    obtain ⟨sch, next, hpicks, hcase⟩ := View.reschedF_eq hresched
    refine .inr ⟨by simpa [View.isRunning] using hrunning, sch, next, hpicks, ?_⟩
    rcases hcase with ⟨hsame, -, rfl⟩ | ⟨hne, -, rfl⟩
    · exact .inl ⟨hsame, rfl⟩
    · exact .inr ⟨hne, rfl⟩
  · exact .inl ⟨by simpa [View.isRunning] using hrunning, (Option.some.inj hv).symm⟩

theorem View.setState_exited {st : TaskState} {u : Task} (ht : v.state t ≠ .exited)
    (hu : v.state u = .exited) : (v.setState t st).state u = .exited := by
  have hut : u ≠ t := by
    rintro rfl
    exact ht hu
  simpa [View.setState, hut] using hu

end Schedule

/-- The current task has exited and is about to leave the CPU. -/
def State.leaving (s : State σ) : Bool :=
  match s.pc with
  | .notifyAll _ _ (some _) => true
  | _ => false

/-- A part of the kernel that leaves the stacks, the contexts and the references
alone. -/
structure State.Keeps (s s' : State σ) : Prop where
  created : s'.created = s.created
  spawned : s'.spawned = s.spawned
  kstack : s'.kstack = s.kstack
  pool : s'.pool = s.pool
  allocated : s'.allocated = s.allocated
  ctx : s'.ctx = s.ctx
  refs : s'.refs = s.refs

theorem State.goOn_keeps {k : Kont} (h : s.goOn k = some s') : s.Keeps s' := by
  cases k with
  | user =>
      obtain rfl := Option.some.inj h
      exact ⟨rfl, rfl, rfl, rfl, rfl, rfl, rfl⟩
  | blocked f w =>
      obtain rfl := Option.some.inj h
      unfold State.woken
      split <;> exact ⟨rfl, rfl, rfl, rfl, rfl, rfl, rfl⟩
  | exiting e => cases h

theorem State.reschedFuture_keeps {k : Kont} (h : s.reschedFuture B k = some s') :
    s.Keeps s' := by
  obtain ⟨sch, next, -, ⟨-, hgo⟩ | ⟨-, rfl⟩⟩ := State.reschedFuture_eq h
  · obtain ⟨hcreated, hspawned, hkstack, hpool, hallocated, hctx, hrefs⟩ := State.goOn_keeps hgo
    exact ⟨hcreated, hspawned, hkstack, hpool, hallocated, hctx, hrefs⟩
  · exact ⟨rfl, rfl, rfl, rfl, rfl, rfl, rfl⟩

theorem State.exit_keeps {f : Form} {e : ℤ} (h : s.exit f e = some s') : s.Keeps s' := by
  obtain ⟨-, -, ⟨-, -, rfl⟩ | ⟨-, rfl⟩⟩ := State.exit_eq h <;>
    exact ⟨rfl, rfl, rfl, rfl, rfl, rfl, rfl⟩

/-- Going on leaves the CPU to the current task. -/
theorem State.goOn_quiet {k : Kont} (h : s.goOn k = some s') :
    s.view.Quiet s'.view ∧ s'.leaving = false ∧
    (s'.pc = .user ∨ ∃ f w, s'.pc = .condition f w) := by
  cases k with
  | user =>
      obtain rfl := Option.some.inj h
      exact ⟨.refl _, rfl, .inl rfl⟩
  | blocked f w =>
      obtain rfl := Option.some.inj h
      unfold State.woken
      split
      · exact ⟨(View.cancelEvents_quiet _ _).trans (View.returned_quiet _ _), rfl, .inl rfl⟩
      · exact ⟨.refl _, rfl, .inr ⟨f, w, rfl⟩⟩
  | exiting e => cases h

/-- Only the current task runs, and it runs until it exits. -/
structure Active (s : State σ) : Prop where
  only : ∀ t, s.view.state t = .running → t = s.view.current
  running : s.leaving = false → s.view.state s.view.current = .running
  exited : s.leaving = true → s.view.state s.view.current = .exited

namespace Active

theorem init (scheduler : σ) : Active (State.init scheduler) := by
  refine ⟨fun t ht => ?_, fun _ => rfl, fun h => by cases h⟩
  by_contra hne
  have hmain : t ≠ .main := hne
  simp [State.init, hmain] at ht

theorem same (ha : Active s) (hview : s.view.Quiet s'.view) (hleaving : s'.leaving = s.leaving) :
    Active s' := by
  refine ⟨fun t ht => ?_, fun h => ?_, fun h => ?_⟩
  · rw [hview.current]
    exact ha.only t ((hview.running t).mp ht)
  · rw [hview.current, hview.running]
    exact ha.running (by rwa [← hleaving])
  · rw [hview.current, hview.exited]
    exact ha.exited (by rwa [← hleaving])

/-- A resume point. -/
theorem releasePrev (ha : Active s) : Active s.releasePrev := by
  obtain ⟨hview, -, -, -, -, -, -, hpc⟩ := s.releasePrev_eq
  obtain ⟨hcurrent, hstate⟩ := View.takePrevTask_eq s.view
  have hleaving : s.releasePrev.leaving = s.leaving := by simp only [State.leaving, hpc]
  refine ⟨?_, ?_, ?_⟩
  · rw [hview, hcurrent, hstate]
    exact ha.only
  · rw [hview, hcurrent, hstate, hleaving]
    exact ha.running
  · rw [hview, hcurrent, hstate, hleaving]
    exact ha.exited

theorem goOn {k : Kont} (ha : Active s) (hleaving : s.leaving = false)
    (h : s.goOn k = some s') : Active s' := by
  obtain ⟨hquiet, hleaving', -⟩ := State.goOn_quiet h
  exact ha.same hquiet (hleaving'.trans hleaving.symm)

theorem not_running (ha : Active s) (h : s.leaving = true) (t : Task) :
    s.view.state t ≠ .running := by
  intro ht
  have hexited := ha.exited h
  rw [← ha.only t ht, ht] at hexited
  cases hexited

theorem stopped (ha : Active s) (h : s.view.Stops v') (t : Task) : v'.state t ≠ .running := by
  intro ht
  obtain ⟨hrunning, hne⟩ := h.stopped t ht
  exact hne (ha.only t hrunning)

/-- A task that has been picked while none was running is the only one that runs. -/
theorem of_picked {sch : σ} {next : Task} (hnone : ∀ t, v.state t ≠ .running)
    (hstate : s.view.state = (v.picked sch next).state) (hcurrent : s.view.current = next)
    (hleaving : s.leaving = false) : Active s := by
  have hnext : s.view.state next = .running := by
    rw [hstate]
    exact Function.update_self _ _ _
  refine ⟨fun t ht => ?_, fun _ => hcurrent ▸ hnext, fun h => ?_⟩
  · by_contra hne
    rw [hcurrent] at hne
    refine hnone t ?_
    simpa [hstate, View.picked, View.setState, hne] using ht
  · rw [hleaving] at h
    cases h

theorem reschedule {f : Form} {k : Kont} (hnone : ∀ t, s.view.state t ≠ .running)
    (h : s.reschedule kind B f k = some s') : Active s' := by
  cases f with
  | thread =>
      obtain ⟨sch, next, -, ⟨hsame, rfl⟩ | ⟨-, s₁, hset, hload⟩⟩ := State.resched_eq h
      · exact of_picked hnone rfl hsame rfl
      · have hview : s₁.view = s.view.picked sch next := by
          rcases State.setKstack_eq hset with ⟨rfl, -⟩ | ⟨-, -, _, _, _, -, rfl⟩ <;> rfl
        have hstate : (s₁.switched next k).view.state = (s.view.picked sch next).state := by
          simp [State.switched, View.replaceCurrent, hview]
        rcases State.loadContext_eq hload with ⟨k', -, rfl⟩ | ⟨-, rfl⟩
        · exact of_picked hnone hstate rfl rfl
        · exact of_picked hnone hstate rfl rfl
  | future =>
      obtain ⟨sch, next, -, ⟨hsame, hgo⟩ | ⟨-, rfl⟩⟩ := State.reschedFuture_eq h
      · obtain ⟨hquiet, hleaving, -⟩ := State.goOn_quiet hgo
        have hstay : Active { s with view := s.view.picked sch next, pc := .user } :=
          of_picked hnone rfl hsame rfl
        exact hstay.same hquiet hleaving
      · exact of_picked hnone rfl rfl rfl

theorem yieldNow {f : Form} (ha : Active s) (h : s.yieldNow kind B f = some s') : Active s' := by
  obtain ⟨v, hv, hresched⟩ := Option.bind_eq_some_iff.mp h
  exact reschedule (ha.stopped (View.yieldCurrent_stops hv)) hresched

theorem blockedResched {f : Form} {w : Wait} (ha : Active s)
    (h : s.blockedResched kind B f w = some s') : Active s' := by
  obtain ⟨v, hv, hresched⟩ := Option.bind_eq_some_iff.mp h
  exact reschedule (ha.stopped (View.blockCurrent_stops hv)) hresched

theorem exit {f : Form} {e : ℤ} (ha : Active s) (hleaving : s.leaving = false)
    (h : s.exit f e = some s') : Active s' := by
  obtain ⟨-, -, ⟨-, -, rfl⟩ | ⟨-, rfl⟩⟩ := State.exit_eq h
  · exact ha.same (.refl _) hleaving.symm
  · refine ⟨fun t ht => ?_, (fun h => by cases h), fun _ => Function.update_self _ _ _⟩
    by_cases hcurrent : t = s.view.current
    · exact hcurrent
    · exact ha.only t (by simpa [View.setState, hcurrent] using ht)

theorem notifyRound {q : QueueId} {resched : Bool} {after : Option Form} (ha : Active s)
    (hpc : s.pc = .notifyAll q resched after)
    (h : s.notifyRound kind B q resched after = some s') : Active s' := by
  obtain ⟨⟨v, found⟩, hv, hgo⟩ := Option.bind_eq_some_iff.mp h
  have hquiet := View.notifyOne_quiet hv
  cases found with
  | true =>
      obtain rfl := Option.some.inj hgo
      exact ha.same hquiet rfl
  | false =>
      cases after with
      | none =>
          obtain rfl := Option.some.inj hgo
          refine ha.same hquiet ?_
          simp [State.leaving, hpc]
      | some f =>
          refine reschedule (fun t ht => ?_) hgo
          refine ha.not_running ?_ t ((hquiet.running t).mp ht)
          simp [State.leaving, hpc]

theorem poll (ha : Active s) (hleaving : s.leaving = false) (h : s.poll = some s') :
    Active s' := by
  unfold State.poll at h
  split at h
  · exact ha.exit hleaving h
  · exact ha.goOn hleaving h

theorem takeStack {t : Task} (ha : Active s) (hleaving : s.leaving = false)
    (h : s.takeStack B t = some s') : Active s' := by
  obtain ⟨v, stack, -, rfl, ⟨-, rfl⟩ | ⟨hrunning, sch, next, -, hcase⟩⟩ := State.takeStack_eq h
  · exact ha.same (.refl _) hleaving.symm
  · have hcurrent : t = s.view.current := ha.only t hrunning
    subst hcurrent
    have hnone := ha.stopped (View.Stops.setState hrunning (.inr rfl))
    rcases hcase with ⟨hsame, rfl⟩ | ⟨-, rfl⟩
    · exact of_picked hnone rfl hsame rfl
    · exact of_picked hnone rfl rfl rfl

end Active

/-- An operation that neither reschedules nor leaves the code of the task. -/
def Act.isPlain : Act → Bool
  | .yield _ => false
  | .wait _ _ => false
  | .notifyAll _ _ => false
  | .exit _ _ => false
  | .pending => false
  | .check _ => false
  | .tick => false
  | _ => true

namespace State

theorem Enabled.op {a : Act} (he : s.Enabled kind a) (ha : a.isOp = true) :
    s.pc = .user ∧ s.MayCall kind a := by
  unfold State.Enabled at he
  cases hpc : s.pc with
  | user =>
      rw [hpc] at he
      exact ⟨rfl, he.2⟩
  | condition f w =>
      rw [hpc] at he
      cases a <;> first | exact he.elim | cases ha
  | halted =>
      rw [hpc] at he
      exact he.elim
  | _ =>
      rw [hpc] at he
      obtain rfl : a = .tick := he
      cases ha

theorem Enabled.check {b : Bool} (he : s.Enabled kind (.check b)) :
    ∃ f w, s.pc = .condition f w ∧ s.Outcome b w.cond := by
  unfold State.Enabled at he
  cases hpc : s.pc with
  | condition f w =>
      rw [hpc] at he
      exact ⟨f, w, rfl, he⟩
  | user =>
      rw [hpc] at he
      cases he.1
  | halted =>
      rw [hpc] at he
      exact he.elim
  | _ =>
      rw [hpc] at he
      cases he

theorem handOver_eq {t : Task} {stack : ℕ} (h : s.handOver t stack = some s') :
    (s.kstack s.view.current = none ∧ s.view.current.isInit = false ∧
        s.view.current.isIdle = false ∧
        s' = { s with
          refs := (s.decStrong t).refs
          kstack := Function.update s.kstack s.view.current (some stack)
          pc := .loopTop }) ∨
      ((s.kstack s.view.current = none → s.view.current.isInit = true ∨
          s.view.current.isIdle = true) ∧
        loadContext { s with
          pool := stack :: s.pool
          ctx := Function.update s.ctx t .dead } = some s') := by
  simp only [State.handOver] at h
  split_ifs at h with hreuse
  · exact .inl ⟨hreuse.1, hreuse.2.1, hreuse.2.2, (Option.some.inj h).symm⟩
  · refine .inr ⟨fun hnone => ?_, h⟩
    by_contra hno
    push Not at hno
    exact hreuse ⟨hnone, by simpa using hno.1, by simpa using hno.2⟩

theorem schedule_eq (h : s.schedule kind = some s') :
    s.releasePrev.view.current.isCoroutine kind = true ∧
      s' = { s.releasePrev with
        refs := (s.releasePrev.incStrong s.releasePrev.view.current).refs
        pc := .poll } := by
  simp only [State.schedule] at h
  split_ifs at h with hcoroutine
  exact ⟨hcoroutine, (Option.some.inj h).symm⟩

theorem checked_eq {f : Form} {w : Wait} {b : Bool} (h : s.checked kind B f w b = some s') :
    (b = true ∧
        s' = { s with view := (s.view.cancelEvents w.queue).returned w, pc := .user }) ∨
      (b = false ∧ s.blockedResched kind B f w = some s') := by
  unfold State.checked at h
  split_ifs at h with hb
  · exact .inl ⟨hb, (Option.some.inj h).symm⟩
  · exact .inr ⟨by simpa using hb, h⟩

theorem wait_eq {f : Form} {w : Wait} (h : s.wait kind B f w = some s') :
    (w.cond = none ∧ s.blockedResched kind B f w = some s') ∨
      (w.cond ≠ none ∧ s' = { s with pc := .condition f w }) := by
  unfold State.wait at h
  split at h
  · exact .inl ⟨‹_›, h⟩
  · rename_i hcond
    exact .inr ⟨by simp [hcond], (Option.some.inj h).symm⟩

/-- A plain operation keeps the CPU in user code; only `new` touches what the tasks
have left behind. -/
theorem plain_eq {a : Act} (ha : a.isPlain = true) (h : s.perform kind B a = some s') :
    s.view.Quiet s'.view ∧ s'.pc = s.pc ∧ s'.pool = s.pool ∧
      ((∀ n, a ≠ .new n) → s'.created = s.created ∧ s'.kstack = s.kstack ∧ s'.ctx = s.ctx ∧
        s'.future = s.future ∧ s'.allocated = s.allocated) := by
  have hsame : ∀ v : View σ, ∀ r : ℤ, v.Quiet (v.setResult r) := fun _ _ => .of_eq rfl rfl rfl
  cases a with
  | new n =>
      obtain rfl := Option.some.inj h
      unfold State.new
      cases hn : kind n <;> simp only <;>
        exact ⟨.of_eq rfl rfl rfl, rfl, rfl, fun h => absurd rfl (h n)⟩
  | spawn n =>
      obtain ⟨v, hv, rfl⟩ := Option.map_eq_some_iff.mp h
      exact ⟨View.addTask_quiet hv, rfl, rfl, fun _ => ⟨rfl, rfl, rfl, rfl, rfl⟩⟩
  | cloneHandle t =>
      obtain rfl := Option.some.inj h
      exact ⟨.refl _, rfl, rfl, fun _ => ⟨rfl, rfl, rfl, rfl, rfl⟩⟩
  | dropHandle t =>
      obtain rfl := Option.some.inj h
      exact ⟨.refl _, rfl, rfl, fun _ => ⟨rfl, rfl, rfl, rfl, rfl⟩⟩
  | notifyOne q resched =>
      obtain ⟨⟨v, b⟩, hv, rfl⟩ := Option.map_eq_some_iff.mp h
      exact ⟨(View.notifyOne_quiet hv).trans (hsame _ _), rfl, rfl,
        fun _ => ⟨rfl, rfl, rfl, rfl, rfl⟩⟩
  | notifyTask q resched t =>
      obtain ⟨⟨v, b⟩, hv, rfl⟩ := Option.map_eq_some_iff.mp h
      exact ⟨(View.notifyTask_quiet hv).trans (hsame _ _), rfl, rfl,
        fun _ => ⟨rfl, rfl, rfl, rfl, rfl⟩⟩
  | requeue q count target =>
      obtain rfl := Option.some.inj h
      exact ⟨.of_eq rfl rfl rfl, rfl, rfl, fun _ => ⟨rfl, rfl, rfl, rfl, rfl⟩⟩
  | cloneWaker t =>
      obtain rfl := Option.some.inj h
      exact ⟨.refl _, rfl, rfl, fun _ => ⟨rfl, rfl, rfl, rfl, rfl⟩⟩
  | dropWaker t =>
      obtain rfl := Option.some.inj h
      exact ⟨.refl _, rfl, rfl, fun _ => ⟨rfl, rfl, rfl, rfl, rfl⟩⟩
  | wake t =>
      obtain ⟨v, hv, rfl⟩ := Option.map_eq_some_iff.mp h
      exact ⟨View.unblockTask_quiet hv, rfl, rfl, fun _ => ⟨rfl, rfl, rfl, rfl, rfl⟩⟩
  | wakeByRef t =>
      obtain ⟨v, hv, rfl⟩ := Option.map_eq_some_iff.mp h
      have hv' : s.view.unblockTask B t true = some v := hv
      exact ⟨View.unblockTask_quiet hv', rfl, rfl, fun _ => ⟨rfl, rfl, rfl, rfl, rfl⟩⟩
  | _ => cases ha

end State

theorem Active.step {a : Act} (ha : Active s) (he : s.Enabled kind a)
    (h : s.perform kind B a = some s') : Active s' := by
  by_cases hplain : a.isPlain = true
  · obtain ⟨hquiet, hpc, -, -⟩ := State.plain_eq hplain h
    exact ha.same hquiet (by simp [State.leaving, hpc])
  cases a with
  | yield f => exact ha.yieldNow h
  | wait f w =>
      obtain ⟨hpc, -⟩ := he.op rfl
      rcases State.wait_eq h with ⟨-, hblocked⟩ | ⟨-, rfl⟩
      · exact ha.blockedResched hblocked
      · exact ha.same (.refl _) (by simp [State.leaving, hpc])
  | notifyAll q resched =>
      obtain ⟨hpc, -⟩ := he.op rfl
      obtain rfl := Option.some.inj h
      exact ha.same (.refl _) (by simp [State.leaving, hpc])
  | exit f e =>
      obtain ⟨hpc, -⟩ := he.op rfl
      exact ha.exit (by simp [State.leaving, hpc]) h
  | pending =>
      obtain ⟨hpc, -⟩ := he.op rfl
      obtain rfl := Option.some.inj h
      exact ha.same (.refl _) (by simp [State.leaving, hpc])
  | check b =>
      obtain ⟨f, w, hpc, -⟩ := he.check
      simp only [State.perform, hpc] at h
      rcases State.checked_eq h with ⟨-, rfl⟩ | ⟨-, hblocked⟩
      · exact ha.same ((View.cancelEvents_quiet _ _).trans (View.returned_quiet _ _))
          (by simp [State.leaving, hpc])
      · exact ha.blockedResched hblocked
  | tick =>
      have hreleased : s.releasePrev.leaving = s.leaving := by
        simp only [State.leaving, s.releasePrev_eq.2.2.2.2.2.2.2]
      cases hpc : s.pc with
      | notifyAll q resched after =>
          simp only [State.perform, State.tick, hpc] at h
          exact ha.notifyRound hpc h
      | resume k =>
          simp only [State.perform, State.tick, hpc] at h
          exact ha.releasePrev.goOn (by rw [hreleased]; simp [State.leaving, hpc]) h
      | loopTop =>
          simp only [State.perform, State.tick, hpc] at h
          obtain ⟨-, rfl⟩ := State.schedule_eq h
          refine ha.releasePrev.same (.refl _) ?_
          rw [hreleased]
          simp [State.leaving, hpc]
      | poll =>
          simp only [State.perform, State.tick, hpc] at h
          exact ha.poll (by simp [State.leaving, hpc]) h
      | polled t =>
          simp only [State.perform, State.tick, hpc] at h
          exact ha.takeStack (by simp [State.leaving, hpc]) h
      | handOver t stack =>
          simp only [State.perform, State.tick, hpc] at h
          rcases State.handOver_eq h with ⟨-, -, -, rfl⟩ | ⟨-, hload⟩
          · exact ha.same (.refl _) (by simp [State.leaving, hpc])
          · rcases State.loadContext_eq hload with ⟨k, -, rfl⟩ | ⟨-, rfl⟩
            · exact ha.same (.refl _) (by simp [State.leaving, hpc])
            · exact ha.same (.refl _) (by simp [State.leaving, hpc])
      | _ => simp [State.perform, State.tick, hpc] at h
  | _ => exact absurd rfl hplain

end Kernel
