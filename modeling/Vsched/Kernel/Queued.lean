import Vsched.Kernel.Placed

/-!
# What the ready queue holds

In every run, with room in the ready queue or without and whatever wakes the tasks, the
scheduler holds ready tasks only, and each of them once: a task is handed to it when it
becomes ready or is spawned, and leaves it when it is picked to run. A ready task may be
missing there, if the scheduler has refused it.
-/

namespace Kernel

open Sched (BaseScheduler TaskState Store)

variable {σ : Type*} {B : BaseScheduler σ Task} {queue : σ → List Task} {I : σ → Prop}
  {stores : σ → Sched.Call Task → Prop} {kind : ℕ → Kind} {s s' : State σ} {v v' : View σ}
  {t next : Task} {known : Task → Prop} {sch : σ} {k : Kont}

theorem Task.ne_idle (h : t.isIdle = false) : t ≠ .idle := by
  rintro rfl
  cases h

/-- The scheduler holds ready tasks, each once and not the idle task. A task that is not
`known` has not been handed to it yet. -/
structure View.Queued (queue : σ → List Task) (I : σ → Prop) (known : Task → Prop)
    (v : View σ) : Prop where
  inv : I v.scheduler
  nodup : (queue v.scheduler).Nodup
  ready : ∀ t ∈ queue v.scheduler, v.state t = .ready
  idle : .idle ∉ queue v.scheduler
  idleState : v.state .idle = .ready ∨ v.state .idle = .running
  fresh : ∀ t, t ≠ .idle → ¬ known t → v.state t = .ready ∧ t ∉ queue v.scheduler

namespace View.Queued

theorem same (h : v.Queued queue I known) (hscheduler : v'.scheduler = v.scheduler)
    (hstate : v'.state = v.state) : v'.Queued queue I known where
  inv := hscheduler ▸ h.inv
  nodup := hscheduler ▸ h.nodup
  ready := by
    rw [hscheduler, hstate]
    exact h.ready
  idle := hscheduler ▸ h.idle
  idleState := hstate ▸ h.idleState
  fresh := by
    rw [hscheduler, hstate]
    exact h.fresh

theorem returned (h : v.Queued queue I known) (w : Wait) :
    ((v.cancelEvents w.queue).returned w).Queued queue I known := by
  have hcancel : (v.cancelEvents w.queue).Queued queue I known := by
    unfold View.cancelEvents
    split_ifs
    · exact h.same rfl rfl
    · exact h
  cases w <;> exact hcancel.same rfl rfl

theorem absent (h : v.Queued queue I known) (ht : v.state t ≠ .ready) :
    t ∉ queue v.scheduler :=
  fun hmem => ht (h.ready t hmem)

/-- A task that is not ready changes its state. -/
theorem setState {st : TaskState} (h : v.Queued queue I known) (ht : v.state t ≠ .ready)
    (hst : t = .idle → st = .ready) : (v.setState t st).Queued queue I known where
  inv := h.inv
  nodup := h.nodup
  ready := by
    intro u hu
    have hut : u ≠ t := by
      rintro rfl
      exact h.absent ht hu
    simpa [View.setState, hut] using h.ready u hu
  idle := h.idle
  idleState := by
    by_cases hidle : .idle = t
    · left
      simp [View.setState, hidle, hst hidle.symm]
    · simpa [View.setState, hidle] using h.idleState
  fresh := by
    intro u hne hu
    have hut : u ≠ t := by
      rintro rfl
      exact ht (h.fresh u hne hu).1
    simpa [View.setState, hut] using h.fresh u hne hu

/-- A task that becomes ready is handed to the scheduler. -/
theorem put {preempt : Bool} (h : v.Queued queue I known) (hB : Store B queue I stores)
    (ht : v.state t ≠ .ready) (hidle : t.isIdle = false)
    (hput : B.putPrevTask v.scheduler t preempt = some sch) :
    View.Queued queue I known { v.setState t .ready with scheduler := sch } ∧
      (t ∈ queue sch ↔ stores v.scheduler (.putPrevTask t preempt)) := by
  obtain ⟨hI, ⟨l, hperm, hsub⟩, hmem⟩ := hB.putPrevTask h.inv hput
  have habsent := h.absent ht
  have hfrom : ∀ u ∈ queue sch, u = t ∨ u ∈ queue v.scheduler :=
    fun u hu => List.mem_cons.mp (hsub.subset (hperm.mem_iff.mpr hu))
  have hne := Task.ne_idle hidle
  have hset : (v.setState t .ready).Queued queue I known :=
    h.setState ht fun hno => absurd hno hne
  refine ⟨⟨hI, ?_, fun u hu => ?_, fun hno => ?_, hset.idleState, fun u hui hu => ?_⟩, ?_⟩
  · exact hperm.nodup_iff.mp ((List.nodup_cons.mpr ⟨habsent, h.nodup⟩).sublist hsub)
  · rcases hfrom u hu with rfl | hu
    · simp [View.setState]
    · exact hset.ready u hu
  · exact (hfrom _ hno).elim (fun heq => hne heq.symm) h.idle
  · obtain ⟨hready, hnot⟩ := hset.fresh u hui hu
    refine ⟨hready, fun hin => (hfrom u hin).elim (fun heq => ?_) hnot⟩
    subst heq
    exact ht (h.fresh u hui hu).1
  · rw [hmem]
    exact or_iff_right habsent

/-- A new task is handed to the scheduler. -/
theorem add (h : v.Queued queue I known) (hB : Store B queue I stores) (ht : ¬ known t)
    (hne : t ≠ .idle) (hadd : v.addTask B t = some v') :
    v'.Queued queue I fun u => known u ∨ u = t := by
  obtain ⟨hready, sch, hsch, rfl⟩ := View.addTask_eq hadd
  obtain ⟨hI, l, hperm, hsub⟩ := hB.addTask h.inv hsch
  have hfrom : ∀ u ∈ queue sch, u = t ∨ u ∈ queue v.scheduler :=
    fun u hu => List.mem_cons.mp (hsub.subset (hperm.mem_iff.mpr hu))
  refine ⟨hI, ?_, fun u hu => ?_, fun hno => ?_, h.idleState, fun u hui hu => ?_⟩
  · exact hperm.nodup_iff.mp ((List.nodup_cons.mpr ⟨(h.fresh t hne ht).2, h.nodup⟩).sublist hsub)
  · rcases hfrom u hu with rfl | hu
    · exact hready
    · exact h.ready u hu
  · exact (hfrom _ hno).elim (fun heq => hne heq.symm) h.idle
  · push Not at hu
    obtain ⟨hr, hnot⟩ := h.fresh u hui hu.1
    exact ⟨hr, fun hin => (hfrom u hin).elim hu.2 hnot⟩

/-- The task that is picked leaves the queue; the others stay there. -/
theorem picked (h : v.Queued queue I known) (hB : Store B queue I stores)
    (hpicks : View.Picks B v sch next) :
    (v.picked sch next).Queued queue I known ∧
      ∀ u, u ≠ next → (u ∈ queue sch ↔ u ∈ queue v.scheduler) := by
  obtain ⟨x, hpick, rfl⟩ := hpicks.pick
  obtain ⟨hI, hperm⟩ := hB.pickNextTask h.inv hpick
  have hnodup := hperm.nodup_iff.mp h.nodup
  have hsub : ∀ u ∈ queue sch, u ∈ queue v.scheduler :=
    fun u hu => hperm.mem_iff.mpr (List.mem_append_right _ hu)
  have hgone : x.getD .idle ∉ queue sch := by
    cases x with
    | none => exact fun hin => h.idle (hsub _ hin)
    | some u => exact fun hin => List.nodup_cons.mp hnodup |>.1 hin
  refine ⟨⟨hI, hnodup.of_append_right, fun u hu => ?_, fun hno => h.idle (hsub _ hno), ?_,
    fun u hui hu => ?_⟩, fun u hne => ⟨hsub u, fun hu => ?_⟩⟩
  · have hne : u ≠ x.getD .idle := by
      rintro rfl
      exact hgone hu
    simpa [View.picked, View.setState, hne] using h.ready u (hsub u hu)
  · by_cases hidle : .idle = x.getD .idle
    · right
      simp [View.picked, View.setState, ← hidle]
    · simpa [View.picked, View.setState, hidle] using h.idleState
  · obtain ⟨hr, hnot⟩ := h.fresh u hui hu
    have hne : u ≠ x.getD .idle := by
      cases x with
      | none => exact hui
      | some w =>
          rintro rfl
          exact hnot (hperm.mem_iff.mpr (List.mem_append_left _ (List.mem_singleton.mpr rfl)))
    exact ⟨by simpa [View.picked, View.setState, hne] using hr, fun hin => hnot (hsub u hin)⟩
  · rcases List.mem_append.mp (hperm.mem_iff.mp hu) with hin | hin
    · cases x with
      | none => cases hin
      | some w => exact absurd (List.mem_singleton.mp hin) hne
    · exact hin

/-- There is a task to pick: the idle task, if there is no other. -/
theorem pickNextTask (h : v.Queued queue I known) (hB : Store B queue I stores)
    (hidle : v.state .idle ≠ .running) :
    ∃ sch next, v.pickNextTask B = some ({ v with scheduler := sch }, next) ∧
      View.Picks B v sch next := by
  obtain ⟨sch, x, hpick, -, hperm⟩ := hB.pick v.scheduler h.inv
  have hready : v.state (x.getD .idle) = .ready := by
    cases x with
    | none => exact h.idleState.resolve_right hidle
    | some u =>
        exact h.ready u (hperm.mem_iff.mpr (List.mem_append_left _ (List.mem_singleton.mpr rfl)))
  refine ⟨sch, x.getD .idle, ?_, ⟨x, hpick, rfl⟩, hready⟩
  simp [View.pickNextTask, hpick, hready]

/-- A task that is blocked is woken, or nothing happens. -/
theorem unblockTask {resched : Bool} (h : v.Queued queue I known) (hB : Store B queue I stores)
    (hv : v.unblockTask B t resched = some v') : v'.Queued queue I known := by
  obtain ⟨⟨u, b⟩, hput, rfl⟩ := Option.map_eq_some_iff.mp hv
  rcases View.putTaskWithState_eq hput with ⟨rfl, -, -⟩ | ⟨hstate, rfl, -, -⟩ |
    ⟨hstate, hidle, -, -, sch, hsch, rfl⟩
  · exact h
  · exact h.setState (by rw [hstate]; decide) fun _ => rfl
  · exact (h.put hB (by rw [hstate]; decide) hidle hsch).1

theorem unblockOneTask {resched : Bool} (h : v.Queued queue I known)
    (hB : Store B queue I stores) (hv : v.unblockOneTask B t resched = some v') :
    v'.Queued queue I known :=
  View.Queued.unblockTask (v := v.setInWaitQueue t false) (h.same rfl rfl) hB hv

theorem notifyOne {q : QueueId} {resched b : Bool} (h : v.Queued queue I known)
    (hB : Store B queue I stores) (hv : v.notifyOne B q resched = some (v', b)) :
    v'.Queued queue I known := by
  unfold View.notifyOne at hv
  split at hv
  · obtain ⟨rfl, -⟩ := Prod.mk.inj (Option.some.inj hv)
    exact h
  · obtain ⟨u, hu, hpair⟩ := Option.map_eq_some_iff.mp hv
    obtain ⟨rfl, -⟩ := Prod.mk.inj hpair
    exact View.Queued.unblockOneTask (v := v.setQueue q _) (h.same rfl rfl) hB hu

theorem notifyTask {q : QueueId} {resched b : Bool} (h : v.Queued queue I known)
    (hB : Store B queue I stores) (hv : v.notifyTask B q resched t = some (v', b)) :
    v'.Queued queue I known := by
  unfold View.notifyTask at hv
  split_ifs at hv
  · obtain ⟨u, hu, hpair⟩ := Option.map_eq_some_iff.mp hv
    obtain ⟨rfl, -⟩ := Prod.mk.inj hpair
    exact View.Queued.unblockOneTask (v := v.setQueue q _) (h.same rfl rfl) hB hu
  · obtain ⟨rfl, -⟩ := Prod.mk.inj (Option.some.inj hv)
    exact h

theorem yieldCurrent (h : v.Queued queue I known) (hB : Store B queue I stores)
    (hv : v.yieldCurrent B = some v') : v'.Queued queue I known := by
  obtain ⟨hrunning, ⟨-, rfl⟩ | ⟨hidle, sch, hput, rfl⟩⟩ := View.yieldCurrent_eq hv
  · exact h.setState (by rw [hrunning]; decide) fun _ => rfl
  · exact (h.put hB (by rw [hrunning]; decide) hidle hput).1

theorem blockCurrent {q : QueueId} (h : v.Queued queue I known)
    (hv : v.blockCurrent q = some v') : v'.Queued queue I known := by
  obtain ⟨hrunning, hidle, rfl⟩ := View.blockCurrent_eq hv
  have hset : (v.setState v.current .blocked).Queued queue I known :=
    h.setState (by rw [hrunning]; decide) fun hno => absurd hno (Task.ne_idle hidle)
  exact hset.same rfl rfl

end View.Queued

namespace State

/-- The scheduler of the CPU is in order, and no task has been handed to it for the first
time since `s`. -/
structure StillQueued (queue : σ → List Task) (I : σ → Prop) (known : Task → Prop)
    (s s' : State σ) : Prop where
  view : s'.view.Queued queue I known
  spawned : s'.spawned = s.spawned

theorem goOn_stillQueued (h : s.view.Queued queue I known) (hgo : s.goOn k = some s') :
    s.StillQueued queue I known s' := by
  cases k with
  | user =>
      obtain rfl := Option.some.inj hgo
      exact ⟨h, rfl⟩
  | blocked f w =>
      obtain rfl := Option.some.inj hgo
      refine ⟨?_, by unfold State.woken; split <;> rfl⟩
      unfold State.woken
      split
      · exact h.returned w
      · exact h
  | exiting e => cases hgo

theorem resched_stillQueued (h : s.view.Queued queue I known) (hB : Store B queue I stores)
    (hr : s.resched kind B k = some s') : s.StillQueued queue I known s' := by
  obtain ⟨sch, next, hpicks, ⟨-, rfl⟩ | ⟨-, s₁, hset, hload⟩⟩ := State.resched_eq hr
  · exact ⟨(h.picked hB hpicks).1, rfl⟩
  · have hkept : s₁.view = s.view.picked sch next ∧ s₁.spawned = s.spawned := by
      rcases State.setKstack_eq hset with ⟨rfl, -⟩ | ⟨-, -, _, _, _, -, rfl⟩ <;> exact ⟨rfl, rfl⟩
    have hview : (s₁.switched next k).view.Queued queue I known := by
      refine (h.picked hB hpicks).1.same ?_ ?_
      · simp [State.switched, View.replaceCurrent, hkept.1]
      · simp [State.switched, View.replaceCurrent, hkept.1]
    rcases State.loadContext_eq hload with ⟨k', -, rfl⟩ | ⟨-, rfl⟩ <;> exact ⟨hview, hkept.2⟩

theorem reschedFuture_stillQueued (h : s.view.Queued queue I known)
    (hB : Store B queue I stores) (hr : s.reschedFuture B k = some s') :
    s.StillQueued queue I known s' := by
  obtain ⟨sch, next, hpicks, ⟨-, hgo⟩ | ⟨-, rfl⟩⟩ := State.reschedFuture_eq hr
  · obtain ⟨hview, hspawned⟩ := goOn_stillQueued (h.picked hB hpicks).1 hgo
    exact ⟨hview, hspawned⟩
  · exact ⟨(h.picked hB hpicks).1.same rfl rfl, rfl⟩

theorem reschedule_stillQueued {f : Form} (h : s.view.Queued queue I known)
    (hB : Store B queue I stores) (hr : s.reschedule kind B f k = some s') :
    s.StillQueued queue I known s' := by
  cases f with
  | thread => exact resched_stillQueued h hB hr
  | future => exact reschedFuture_stillQueued h hB hr

theorem blockedResched_stillQueued {f : Form} {w : Wait} (h : s.view.Queued queue I known)
    (hB : Store B queue I stores) (hr : s.blockedResched kind B f w = some s') :
    s.StillQueued queue I known s' := by
  obtain ⟨v, hv, hresched⟩ := Option.bind_eq_some_iff.mp hr
  obtain ⟨hview, hspawned⟩ := reschedule_stillQueued (h.blockCurrent hv) hB hresched
  exact ⟨hview, hspawned⟩

theorem exit_stillQueued {f : Form} {e : ℤ} (h : s.view.Queued queue I known)
    (hr : s.exit f e = some s') : s.StillQueued queue I known s' := by
  obtain ⟨hrunning, hidle, ⟨-, -, rfl⟩ | ⟨-, rfl⟩⟩ := State.exit_eq hr
  · exact ⟨h, rfl⟩
  · have hset : (s.view.setState s.view.current .exited).Queued queue I known :=
      h.setState (by rw [hrunning]; decide) fun hno => absurd hno (Task.ne_idle hidle)
    exact ⟨hset.same rfl rfl, rfl⟩

theorem notifyRound_stillQueued {q : QueueId} {resched : Bool} {after : Option Form}
    (h : s.view.Queued queue I known) (hB : Store B queue I stores)
    (hr : s.notifyRound kind B q resched after = some s') : s.StillQueued queue I known s' := by
  obtain ⟨⟨v, found⟩, hv, hgo⟩ := Option.bind_eq_some_iff.mp hr
  have hview := h.notifyOne hB hv
  cases found with
  | true =>
      obtain rfl := Option.some.inj hgo
      exact ⟨hview, rfl⟩
  | false =>
      cases after with
      | none =>
          obtain rfl := Option.some.inj hgo
          exact ⟨hview, rfl⟩
      | some f =>
          obtain ⟨hview', hspawned⟩ := reschedule_stillQueued hview hB hgo
          exact ⟨hview', hspawned⟩

/-- A polled task that is still running is blocked, and the next one is picked. -/
theorem takeStack_stillQueued (h : s.view.Queued queue I known) (hB : Store B queue I stores)
    (ht : t.isCoroutine kind = true) (hr : s.takeStack B t = some s') :
    s.StillQueued queue I known s' := by
  obtain ⟨v, stack, -, rfl, ⟨-, rfl⟩ | ⟨hrunning, sch, next, hpicks, hcase⟩⟩ :=
    State.takeStack_eq hr
  · exact ⟨h, rfl⟩
  · have hset : (s.view.setState t .blocked).Queued queue I known :=
      h.setState (by rw [hrunning]; decide) fun hno => by
        rw [hno] at ht
        cases ht
    have hpicked := (hset.picked hB hpicks).1
    rcases hcase with ⟨-, rfl⟩ | ⟨-, rfl⟩
    · exact ⟨hpicked, rfl⟩
    · exact ⟨hpicked.same rfl rfl, rfl⟩

theorem handOver_stillQueued {stack : ℕ} (h : s.view.Queued queue I known)
    (hr : s.handOver t stack = some s') : s.StillQueued queue I known s' := by
  rcases State.handOver_eq hr with ⟨-, -, -, rfl⟩ | ⟨-, hload⟩
  · exact ⟨h, rfl⟩
  · rcases State.loadContext_eq hload with ⟨k', -, rfl⟩ | ⟨-, rfl⟩ <;> exact ⟨h, rfl⟩

/-- A plain operation. Only `spawn` hands a new task to the scheduler. -/
theorem plain_queued {a : Act} (h : s.view.Queued queue I s.Known) (hB : Store B queue I stores)
    (hholds : s.Holds kind a) (hplain : a.isPlain = true)
    (hperform : s.perform kind B a = some s') : s'.view.Queued queue I s'.Known := by
  cases a with
  | new n =>
      obtain rfl := Option.some.inj hperform
      unfold State.new
      split <;> exact h
  | spawn n =>
      obtain ⟨v, hv, rfl⟩ := Option.map_eq_some_iff.mp hperform
      obtain ⟨-, hnot, -⟩ := hholds
      have hadded := h.add hB (t := .user n) (by simp [State.Known, hnot]) (by simp) hv
      refine ⟨hadded.inv, hadded.nodup, hadded.ready, hadded.idle, hadded.idleState,
        fun u hidle hu => hadded.fresh u hidle fun hknown => hu ?_⟩
      rcases hknown with (hmain | hmem) | hnew
      · exact .inl hmain
      · exact .inr (List.mem_append_left _ hmem)
      · exact .inr (List.mem_append_right _ (List.mem_singleton.mpr hnew))
  | cloneHandle t =>
      obtain rfl := Option.some.inj hperform
      exact h
  | dropHandle t =>
      obtain rfl := Option.some.inj hperform
      exact h
  | cloneWaker t =>
      obtain rfl := Option.some.inj hperform
      exact h
  | dropWaker t =>
      obtain rfl := Option.some.inj hperform
      exact h
  | notifyOne q resched =>
      obtain ⟨⟨v, b⟩, hv, rfl⟩ := Option.map_eq_some_iff.mp hperform
      exact (h.notifyOne hB hv).same rfl rfl
  | notifyTask q resched t =>
      obtain ⟨⟨v, b⟩, hv, rfl⟩ := Option.map_eq_some_iff.mp hperform
      exact (h.notifyTask hB hv).same rfl rfl
  | requeue q count target =>
      obtain rfl := Option.some.inj hperform
      exact h.same rfl rfl
  | wake t =>
      obtain ⟨v, hv, rfl⟩ := Option.map_eq_some_iff.mp hperform
      exact h.unblockTask hB hv
  | wakeByRef t =>
      obtain ⟨v, hv, rfl⟩ := Option.map_eq_some_iff.mp hperform
      exact View.Queued.unblockTask (v := s.view) h hB hv
  | _ => cases hplain

theorem releasePrev_queued (h : s.view.Queued queue I s.Known) :
    s.releasePrev.view.Queued queue I s.Known := by
  rw [s.releasePrev_eq.1]
  refine h.same ?_ (View.takePrevTask_eq s.view).2
  unfold View.takePrevTask
  split <;> rfl

theorem tick_stillQueued (h : s.view.Queued queue I s.Known) (hB : Store B queue I stores)
    (hfits : s.Fits kind) (htick : s.tick kind B = some s') :
    s.StillQueued queue I s.Known s' := by
  have hspawned := s.releasePrev_spawned
  cases hpc : s.pc with
  | notifyAll q resched after =>
      simp only [State.tick, hpc] at htick
      exact notifyRound_stillQueued h hB htick
  | resume k =>
      simp only [State.tick, hpc] at htick
      obtain ⟨hview, hkept⟩ := goOn_stillQueued (releasePrev_queued h) htick
      exact ⟨hview, hkept.trans hspawned⟩
  | loopTop =>
      simp only [State.tick, hpc] at htick
      obtain ⟨-, rfl⟩ := State.schedule_eq htick
      exact ⟨releasePrev_queued h, hspawned⟩
  | poll =>
      simp only [State.tick, hpc] at htick
      unfold State.poll at htick
      split at htick
      · exact exit_stillQueued h htick
      · exact goOn_stillQueued h htick
  | polled t =>
      simp only [State.tick, hpc] at htick
      simp only [State.Fits, hpc] at hfits
      exact takeStack_stillQueued h hB hfits htick
  | handOver t stack =>
      simp only [State.tick, hpc] at htick
      exact handOver_stillQueued h htick
  | _ => simp [State.tick, hpc] at htick

/-- Every step keeps the scheduler in order. -/
theorem step_queued {a : Act} (h : s.view.Queued queue I s.Known) (hB : Store B queue I stores)
    (hc : Control kind s) (he : s.Enabled kind a) (hperform : s.perform kind B a = some s') :
    s'.view.Queued queue I s'.Known := by
  by_cases hplain : a.isPlain = true
  · obtain ⟨-, -, -, hholds⟩ := he.op (by cases a <;> first | rfl | cases hplain)
    exact plain_queued h hB hholds hplain hperform
  suffices hkept : s.StillQueued queue I s.Known s' by
    have hknown : s'.Known = s.Known := by
      funext t
      rw [State.Known, State.Known, hkept.spawned]
    rw [hknown]
    exact hkept.view
  cases a with
  | yield f =>
      obtain ⟨v, hv, hresched⟩ := Option.bind_eq_some_iff.mp hperform
      obtain ⟨hview, hspawned⟩ := reschedule_stillQueued (h.yieldCurrent hB hv) hB hresched
      exact ⟨hview, hspawned⟩
  | wait f w =>
      rcases State.wait_eq hperform with ⟨-, hblocked⟩ | ⟨-, rfl⟩
      · exact blockedResched_stillQueued h hB hblocked
      · exact ⟨h, rfl⟩
  | notifyAll q resched =>
      obtain rfl := Option.some.inj hperform
      exact ⟨h, rfl⟩
  | exit f e => exact exit_stillQueued h hperform
  | pending =>
      obtain rfl := Option.some.inj hperform
      exact ⟨h, rfl⟩
  | check b =>
      obtain ⟨f, w, hpc, -⟩ := he.check
      simp only [State.perform, hpc] at hperform
      rcases State.checked_eq hperform with ⟨-, rfl⟩ | ⟨-, hblocked⟩
      · exact ⟨h.returned w, rfl⟩
      · exact blockedResched_stillQueued h hB hblocked
  | tick => exact tick_stillQueued h hB hc.fits hperform
  | _ => exact absurd rfl hplain

end State

/-- In every run the scheduler is in order. -/
theorem View.Queued.of_run (hB : Store B queue I stores) {scheduler : σ} (hI : I scheduler)
    (hempty : queue scheduler = []) {G : List Act → State σ → Act → Prop} {h : List Act}
    (hrun : (machine kind B scheduler).RunOf G h s) : s.view.Queued queue I s.Known := by
  refine hrun.invariant (I := fun _ s => s.view.Queued queue I s.Known) ?_ ?_
  · rintro s rfl
    have hnone : ∀ t, t ∉ queue scheduler := by simp [hempty]
    refine ⟨hI, ?_, fun t ht => absurd ht (hnone t), hnone _, .inl rfl, fun t _ ht => ⟨?_, hnone t⟩⟩
    · rw [show queue (State.init scheduler).view.scheduler = [] from hempty]
      exact List.nodup_nil
    · have hmain : t ≠ .main := fun hmain => ht (.inl hmain)
      simp [State.init, hmain]
  · rintro h s a s' hprev hqueued - ⟨he, hperform⟩
    exact State.step_queued hqueued hB (Control.of_run hprev).1 he hperform

end Kernel
