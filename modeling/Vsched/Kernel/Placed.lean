import Vsched.Kernel.Located

/-!
# Every operation returns

While the live tasks fit in the ready queue and block through wait queues only, the tasks
stay where their states say, and every step that may happen leads on: no assertion fails,
no context is missing and no task is waited for in vain.
-/

namespace Kernel

open Sched (BaseScheduler TaskState Keeper)

variable {σ : Type*} {B : BaseScheduler σ Task} {queue : σ → List Task} {I : σ → Prop}
  {fits : σ → ℕ → Prop} {kind : ℕ → Kind} {s s' : State σ} {t : Task}

/-- The tasks that the scheduler has been given. -/
def State.Known (s : State σ) (t : Task) : Prop := t = .main ∨ t ∈ s.spawned

/-- Between the choice of the next task and the resume point behind it. -/
def Pc.switching : Pc → Bool
  | .resume _ => true
  | .loopTop => true
  | .polled _ => true
  | .handOver _ _ => true
  | _ => false

/-- The coroutine that `coroutine_schedule` has polled and not yet handed over from. -/
def Pc.leftLoop : Pc → Option Task
  | .polled t => some t
  | .handOver t _ => some t
  | _ => none

/-- In a blocking call, or about to return to one. -/
def Pc.waits : Pc → Bool
  | .condition _ _ => true
  | .resume (.blocked _ _) => true
  | _ => false

/-- The tasks are where they belong, and the next task can go on. -/
structure Placed (kind : ℕ → Kind) (queue : σ → List Task) (I : σ → Prop) (s : State σ) :
    Prop where
  inv : I s.view.scheduler
  located : s.view.Located queue s.Known
  current : s.Known s.view.current ∨ s.view.current = .idle
  spawned : ∀ t ∈ s.spawned, ∃ n, t = .user n
  created : ∀ t, s.Known t ∨ t = .idle → s.created t = true
  onCpu : ∀ t, s.view.onCpu t = true → t = s.view.current ∨ s.view.prevTask = some t
  slot : s.pc.switching = false → ∀ p, s.view.prevTask = some p → p = s.view.current
  start : ∀ t, s.ctx t = .schedule → t.isCoroutine kind = true
  loop : s.pc = .loopTop → s.view.current.isCoroutine kind = true
  away : ∀ t, s.pc.leftLoop = some t → t ≠ s.view.current
  saved : ∀ t, s.pc.leftLoop = some t → s.view.current.isCoroutine kind = false →
    ∃ k, s.ctx s.view.current = .resume k
  waiter : s.pc.waits = true → s.view.current ≠ .idle
  idleCtx : ∀ f w, s.ctx .idle ≠ .resume (.blocked f w)

/-- What a step leads to: the tasks are in place, and an exited task stays as it is. -/
structure Leads (kind : ℕ → Kind) (queue : σ → List Task) (I : σ → Prop) (s s' : State σ) :
    Prop where
  placed : Placed kind queue I s'
  exited : ∀ t, s.view.state t = .exited → s'.view.state t = .exited

namespace Placed

theorem idle (h : Placed kind queue I s) : ¬ s.Known .idle := by
  rintro (hmain | hmem)
  · cases hmain
  · obtain ⟨n, hn⟩ := h.spawned _ hmem
    cases hn

theorem mem_live {u : Task} (hu : s.Known u) (hexited : s.view.state u ≠ .exited) :
    u ∈ s.live := by
  simp only [State.live, List.mem_filter, List.mem_cons, decide_eq_true_eq]
  exact ⟨hu, hexited⟩

/-- A blocked task has left the CPU for good. -/
theorem off (h : Placed kind queue I s) (hp : s.pc.switching = false)
    (hcurrent : s.view.state s.view.current ≠ .blocked) {u : Task}
    (hu : s.view.state u = .blocked) : s.view.onCpu u = false := by
  by_contra hon
  rw [Bool.not_eq_false] at hon
  have hcur : u = s.view.current := (h.onCpu u hon).elim id fun hprev => h.slot hp u hprev
  exact hcurrent (hcur ▸ hu)

/-- The CPU stays with the current task. -/
theorem goto {v : View σ} {p : Pc} (h : Placed kind queue I s) (hp : p.switching = false)
    (hI : I v.scheduler) (hloc : v.Located queue s.Known) (hcurrent : v.current = s.view.current)
    (honCpu : ∀ t, v.onCpu t = true → t = v.current ∨ v.prevTask = some t)
    (hslot : ∀ p, v.prevTask = some p → p = v.current)
    (hwaits : p.waits = true → s.view.current ≠ .idle) :
    Placed kind queue I { s with view := v, pc := p } := by
  have hleft : p.leftLoop = none := by
    cases p <;> first | rfl | cases hp
  refine ⟨hI, hloc, ?_, h.spawned, h.created, honCpu, fun _ => hslot, h.start, ?_, ?_, ?_,
    fun hw => hcurrent ▸ hwaits hw, h.idleCtx⟩
  · rw [show State.view { s with view := v, pc := p } = v from rfl, hcurrent]
    exact h.current
  · rintro rfl
    cases hp
  · intro t ht
    rw [show Pc.leftLoop _ = _ from hleft] at ht
    cases ht
  · intro t ht
    rw [show Pc.leftLoop _ = _ from hleft] at ht
    cases ht

/-- Also the view of the scheduler is left alone in what concerns the CPU. -/
theorem stay {v : View σ} {p : Pc} (h : Placed kind queue I s) (hsteady : s.pc.switching = false)
    (hp : p.switching = false) (hI : I v.scheduler) (hloc : v.Located queue s.Known)
    (hcurrent : v.current = s.view.current) (hprev : v.prevTask = s.view.prevTask)
    (honCpu : v.onCpu = s.view.onCpu) (hwaits : p.waits = true → s.view.current ≠ .idle) :
    Placed kind queue I { s with view := v, pc := p } := by
  refine h.goto hp hI hloc hcurrent ?_ ?_ hwaits
  · rw [honCpu, hcurrent, hprev]
    exact h.onCpu
  · rw [hprev, hcurrent]
    exact h.slot hsteady

section Reschedule

variable {k : Kont} {sch : σ} {next : Task}

/-- The next task has taken the place of the current one. -/
theorem replaced (h : Placed kind queue I s) (hsteady : s.pc.switching = false)
    (hI : I sch) (hloc : (s.view.picked sch next).Located queue s.Known)
    (hnext : s.Known next ∨ next = .idle)
    (hview : s'.view = (s.view.picked sch next).replaceCurrent next)
    (hspawned : s'.spawned = s.spawned) (hcreated : s'.created = s.created)
    (hpc : s'.pc.switching = true) (hstart : ∀ t, s'.ctx t = .schedule → t.isCoroutine kind = true)
    (hloop : s'.pc = .loopTop → next.isCoroutine kind = true)
    (haway : ∀ t, s'.pc.leftLoop = some t → t = s.view.current ∧ next ≠ s.view.current)
    (hsaved : ∀ t, s'.pc.leftLoop = some t → next.isCoroutine kind = false →
      ∃ k, s'.ctx next = .resume k)
    (hwaits : s'.pc.waits = true → next ≠ .idle)
    (hidleCtx : ∀ f w, s'.ctx .idle ≠ .resume (.blocked f w)) : Placed kind queue I s' := by
  have hcurrent : s'.view.current = next := by rw [hview]; rfl
  have hknown : ∀ t, s'.Known t ↔ s.Known t := by
    intro t
    simp only [State.Known, hspawned]
  refine ⟨by rw [hview]; exact hI, ?_, ?_, by rw [hspawned]; exact h.spawned, ?_, ?_, ?_, hstart,
    ?_, ?_, ?_, by rw [hcurrent]; exact hwaits, hidleCtx⟩
  · rw [hview, show s'.Known = s.Known from funext fun t => propext (hknown t)]
    exact hloc.same rfl rfl rfl rfl
  · rw [hcurrent, hknown]
    exact hnext
  · intro t ht
    rw [hknown] at ht
    rw [hcreated]
    exact h.created t ht
  · intro t ht
    rw [hview] at ht ⊢
    by_cases hne : t = next
    · exact .inl hne
    · have hon : s.view.onCpu t = true := by
        simpa [View.replaceCurrent, View.picked, View.setState, hne] using ht
      right
      have hcur : t = s.view.current := (h.onCpu t hon).elim id fun hprev => h.slot hsteady t hprev
      rw [hcur]
      rfl
  · rw [hpc]
    intro hno
    cases hno
  · rw [hcurrent]
    exact hloop
  · intro t ht
    obtain ⟨rfl, hne⟩ := haway t ht
    rw [hcurrent]
    exact hne.symm
  · rw [hcurrent]
    exact hsaved

theorem picked_exited (hpicks : View.Picks B s.view sch next) (ht : s.view.state t = .exited) :
    (s.view.picked sch next).state t = .exited :=
  (hpicks.calm.exited t).mpr ht

/-- The next task gets a stack if it needs one. -/
theorem setKstack {frame : Option Task} (h : Placed kind queue I s) (hs : Settled kind frame s)
    (hnext : s.Known next ∨ next = .idle) {v : View σ} :
    ∃ s₁, State.setKstack { s with view := v } kind next = some s₁ := by
  unfold State.setKstack
  split_ifs with hneeds hcoroutine
  · exact ⟨_, rfl⟩
  · exfalso
    obtain ⟨hnone, hinit, hisIdle⟩ := hneeds
    cases next with
    | main => cases hinit
    | idle => cases hisIdle
    | user n =>
        have hthread : kind n = .thread := by
          cases hn : kind n with
          | thread => rfl
          | coroutine => simp [Task.isCoroutine, hn] at hcoroutine
        have hsome := hs.stack n (h.created _ hnext) hthread
        rw [show s.kstack (.user n) = none from hnone] at hsome
        cases hsome
  · exact ⟨_, rfl⟩

/-- A task that is not the current one has a context to go on with. -/
theorem context (h : Placed kind queue I s) (hs : Settled kind (s.seat kind) s) {s₁ : State σ}
    {v : View σ} (hnext : s.Known next ∨ next = .idle) (hne : next ≠ s.view.current)
    (hset : State.setKstack { s with view := v } kind next = some s₁) :
    (∃ k, s₁.ctx next = .resume k) ∨ s₁.ctx next = .schedule ∧ next.isCoroutine kind = true := by
  rcases State.setKstack_eq hset with ⟨rfl, hstack⟩ | ⟨-, hcoroutine, _, _, _, -, rfl⟩
  · left
    cases hcoroutine : next.isCoroutine kind with
    | true =>
        obtain ⟨hinit, hisIdle⟩ := Task.isCoroutine_of_user hcoroutine
        have hsome : (s.kstack next).isSome := by
          refine Option.isSome_iff_ne_none.mpr fun hnone => ?_
          rcases hstack hnone with h' | h'
          · exact absurd h' (by simp [hinit])
          · exact absurd h' (by simp [hisIdle])
        exact (hs.away next hcoroutine hsome).resolve_left
          fun hseat => hne (State.seat_eq_some hseat).1
    | false => exact hs.saved next (h.created _ hnext) hcoroutine hne
  · exact .inr ⟨by simp, hcoroutine⟩

/-- `resched` returns to a resume point or to the loop of `coroutine_schedule`. -/
theorem resched (h : Placed kind queue I s) (hsteady : s.pc.switching = false)
    (hB : Keeper B queue I fits) (hs : Settled kind (s.seat kind) s)
    (hwaits : ∀ f w, k = .blocked f w → s.view.current ≠ .idle)
    (hnone : ∀ u, s.view.state u ≠ .running) :
    ∃ s', s.resched kind B k = some s' ∧ Leads kind queue I s s' := by
  obtain ⟨sch, next, hpick, hpicks, hloc, hI, hnext⟩ :=
    h.located.pickNextTask hB h.inv h.idle hnone
  have hresumed : (Pc.resume k).waits = true → s.view.current ≠ .idle := by
    cases k with
    | blocked f w => exact fun _ => hwaits f w rfl
    | _ => exact fun hno => by cases hno
  by_cases hsame : s.view.current = next
  · refine ⟨{ s with view := s.view.picked sch next, pc := .resume k }, ?_, ?_,
      fun t => picked_exited hpicks⟩
    · simp [State.resched, hpick, State.switchTo, View.setState, View.picked, hsame]
    · exact ⟨hI, hloc, h.current, h.spawned, h.created, h.onCpu, (fun hno => by cases hno),
        h.start, (fun hno => by cases hno), (fun _ hno => by cases hno),
        (fun _ hno => by cases hno), fun hw => hresumed hw, h.idleCtx⟩
  obtain ⟨s₁, hset⟩ := h.setKstack hs hnext (v := s.view.picked sch next)
  have hset' := State.setKstack_setUp hset
  have hspawned : s₁.spawned = s.spawned := by
    rcases State.setKstack_eq hset with ⟨rfl, -⟩ | ⟨-, -, _, _, _, -, rfl⟩ <;> rfl
  have hresched : s.resched kind B k = (s₁.switched next k).loadContext := by
    unfold State.resched
    rw [hpick]
    show (if s.view.current = next then _ else
      (State.setKstack { s with view := s.view.picked sch next } kind next).bind _) = _
    rw [if_neg hsame, hset]
    rfl
  have hview : (s₁.switched next k).view = (s.view.picked sch next).replaceCurrent next := by
    simp [State.switched, hset'.view]
  have hold : s₁.view.current = s.view.current := by rw [hset'.view]; rfl
  have hctx : (s₁.switched next k).ctx next = s₁.ctx next := by
    simp [State.switched, hold, Ne.symm hsame]
  have hstart : ∀ t, (s₁.switched next k).ctx t = .schedule → t.isCoroutine kind = true := by
    intro t ht
    by_cases htold : t = s.view.current
    · simp [State.switched, hold, htold] at ht
    have hkept : s₁.ctx t = .schedule := by simpa [State.switched, hold, htold] using ht
    by_cases htnext : t = next
    · rcases hset'.ctx with hsame' | ⟨hcoroutine, -⟩
      · exact h.start t (by rw [← hkept, htnext, hsame'])
      · rwa [htnext]
    · exact h.start t (by rw [← hkept, (hset'.others t htnext).2])
  have hidleCtx : ∀ f w, (s₁.switched next k).ctx .idle ≠ .resume (.blocked f w) := by
    intro f w hidle
    by_cases hidleOld : .idle = s.view.current
    · simp only [State.switched, hold, hidleOld, Function.update_self, Ctx.resume.injEq] at hidle
      exact hwaits f w hidle hidleOld.symm
    have hkept : s₁.ctx .idle = .resume (.blocked f w) := by
      simpa [State.switched, hold, hidleOld] using hidle
    by_cases hidleNext : .idle = next
    · rcases hset'.ctx with hsame' | ⟨hcoroutine, -⟩
      · exact h.idleCtx f w (by rw [← hkept, hidleNext, hsame'])
      · rw [← hidleNext] at hcoroutine
        cases hcoroutine
    · exact h.idleCtx f w (by rw [← hkept, (hset'.others .idle hidleNext).2])
  have hexited : ∀ t, s.view.state t = .exited →
      ((s.view.picked sch next).replaceCurrent next).state t = .exited :=
    fun t => picked_exited hpicks
  rw [hresched]
  unfold State.loadContext
  rw [show (s₁.switched next k).view.current = next from rfl, hctx]
  rcases h.context hs hnext (Ne.symm hsame) hset with ⟨k', hk'⟩ | ⟨hschedule, hcoroutine⟩
  · rw [hk']
    refine ⟨_, rfl, h.replaced hsteady hI hloc hnext hview hspawned hset'.created rfl hstart
      (fun hno => by cases hno) (fun _ hno => by cases hno) (fun _ hno => by cases hno) ?_ hidleCtx,
      ?_⟩
    · rintro hw rfl
      cases k' with
      | blocked f w => exact hidleCtx f w (hctx.trans hk')
      | _ => cases hw
    exact fun t ht => by rw [show State.view _ = _ from hview]; exact hexited t ht
  · rw [hschedule]
    refine ⟨_, rfl, h.replaced hsteady hI hloc hnext hview hspawned hset'.created rfl hstart
      (fun _ => hcoroutine) (fun _ hno => by cases hno) (fun _ hno => by cases hno)
      (fun hno => by cases hno) hidleCtx, ?_⟩
    exact fun t ht => by rw [show State.view _ = _ from hview]; exact hexited t ht

/-- A blocking call returns. -/
theorem returned {w : Wait} (h : Placed kind queue I s)
    (hslot : ∀ p, s.view.prevTask = some p → p = s.view.current)
    (hrunning : s.view.state s.view.current = .running) :
    Leads kind queue I s
      { s with view := (s.view.cancelEvents w.queue).returned w, pc := .user } := by
  rw [h.located.cancelEvents hrunning]
  have hkeep : (s.view.returned w).scheduler = s.view.scheduler ∧
      (s.view.returned w).current = s.view.current ∧
      (s.view.returned w).prevTask = s.view.prevTask ∧
      (s.view.returned w).onCpu = s.view.onCpu ∧ (s.view.returned w).state = s.view.state := by
    cases w <;> exact ⟨rfl, rfl, rfl, rfl, rfl⟩
  obtain ⟨hscheduler, hcurrent, hprev, honCpu, hstate⟩ := hkeep
  refine ⟨h.goto rfl ?_ (h.located.returned w) hcurrent ?_ ?_ (fun hno => by cases hno),
    fun t ht => ?_⟩
  · rw [hscheduler]
    exact h.inv
  · rw [honCpu, hcurrent, hprev]
    exact h.onCpu
  · rw [hprev, hcurrent]
    exact hslot
  · show (s.view.returned w).state t = .exited
    rw [hstate]
    exact ht

/-- The current task goes on, unless it has exited. -/
theorem goOn (h : Placed kind queue I s)
    (hslot : ∀ p, s.view.prevTask = some p → p = s.view.current)
    (hrunning : s.view.state s.view.current = .running) (hk : ∀ e, k ≠ .exiting e)
    (hwaits : ∀ f w, k = .blocked f w → s.view.current ≠ .idle) :
    ∃ s', s.goOn k = some s' ∧ Leads kind queue I s s' := by
  cases k with
  | user =>
      exact ⟨_, rfl, h.goto rfl h.inv h.located rfl h.onCpu hslot (fun hno => by cases hno),
        fun _ => id⟩
  | blocked f w =>
      refine ⟨_, rfl, ?_⟩
      unfold State.woken
      split
      · exact h.returned hslot hrunning
      · exact ⟨h.goto rfl h.inv h.located rfl h.onCpu hslot fun _ => hwaits f w rfl, fun _ => id⟩
  | exiting e => exact absurd rfl (hk e)

/-- `resched_f` goes on in the current task or leaves the loop that polls it. -/
theorem reschedFuture (h : Placed kind queue I s) (hsteady : s.pc.switching = false)
    (hB : Keeper B queue I fits) (hs : Settled kind (s.seat kind) s) (hk : Onward s .future k)
    (hwaits : ∀ f w, k = .blocked f w → s.view.current ≠ .idle)
    (hnone : ∀ u, s.view.state u ≠ .running) :
    ∃ s', s.reschedFuture B k = some s' ∧ Leads kind queue I s s' := by
  obtain ⟨sch, next, hpick, hpicks, hloc, hI, hnext⟩ :=
    h.located.pickNextTask hB h.inv h.idle hnone
  by_cases hsame : s.view.current = next
  · have hresched : s.reschedFuture B k =
      State.goOn { s with view := s.view.picked sch next } k := by
      simp [State.reschedFuture, View.reschedF, hpick, View.picked, View.setState, hsame]
    have hplaced : Placed kind queue I { s with view := s.view.picked sch next, pc := s.pc } :=
      h.goto hsteady hI hloc rfl h.onCpu (h.slot hsteady) h.waiter
    obtain ⟨s', hgo, hleads⟩ := hplaced.goOn (k := k) (h.slot hsteady)
      (by simp [View.picked, View.setState, hsame]) (by
        rintro e rfl
        have hexit := hk.exiting e rfl
        rw [hsame, hpicks.ready] at hexit
        cases hexit) hwaits
    refine ⟨s', by rw [hresched]; exact hgo, hleads.placed, fun t ht => ?_⟩
    exact hleads.exited t (picked_exited hpicks ht)
  · have hresched : s.reschedFuture B k = some { s with
        view := (s.view.picked sch next).replaceCurrent next
        future := Function.update s.future s.view.current k
        pc := .polled s.view.current } := by
      simp [State.reschedFuture, View.reschedF, hpick, View.picked, View.setState, hsame]
    refine ⟨_, hresched, h.replaced hsteady hI hloc hnext rfl rfl rfl rfl h.start
      (fun hno => by cases hno) ?_ ?_ (fun hno => by cases hno) h.idleCtx, fun t ht => ?_⟩
    · intro t ht
      exact ⟨(Option.some.inj ht).symm, Ne.symm hsame⟩
    · intro t _ hno
      exact hs.saved next (h.created _ hnext) hno (Ne.symm hsame)
    · exact picked_exited hpicks ht

theorem reschedule {f : Form} (h : Placed kind queue I s) (hsteady : s.pc.switching = false)
    (hB : Keeper B queue I fits) (hs : Settled kind (s.seat kind) s) (hk : Onward s f k)
    (hwaits : ∀ g w, k = .blocked g w → s.view.current ≠ .idle)
    (hnone : ∀ u, s.view.state u ≠ .running) :
    ∃ s', s.reschedule kind B f k = some s' ∧ Leads kind queue I s s' := by
  cases f with
  | thread => exact h.resched hsteady hB hs hwaits hnone
  | future => exact h.reschedFuture hsteady hB hs hk hwaits hnone

end Reschedule

section Operations

variable {n : ℕ}

/-- The current task has stopped, and the next one is chosen. -/
theorem stopped {v : View σ} {f : Form} {k : Kont} (h : Placed kind queue I s)
    (hpc : s.pc.switching = false) (hB : Keeper B queue I fits) (hs : Settled kind (s.seat kind) s)
    (ha : Active s) (hv : s.view.Stops v) (hI : I v.scheduler) (hloc : v.Located queue s.Known)
    (honCpu : v.onCpu = s.view.onCpu) (hform : ∀ g w, k = .blocked g w → g = f)
    (hexiting : ∀ e, k ≠ .exiting e)
    (hwaits : ∀ g w, k = .blocked g w → s.view.current ≠ .idle) :
    ∃ s', State.reschedule { s with view := v } kind B f k = some s' ∧
      Leads kind queue I s s' := by
  have hplaced : Placed kind queue I { s with view := v, pc := s.pc } :=
    h.stay hpc hpc hI hloc hv.current hv.prevTask honCpu h.waiter
  obtain ⟨s', hresched, hleads⟩ := hplaced.reschedule (f := f) (k := k) hpc hB (by
      rw [show State.seat kind _ = State.seat kind s from State.seat_view hv.toCalm]
      exact hs.view hv.toCalm)
    ⟨hform, fun e he => absurd he (hexiting e)⟩
    (fun g w hk => by
      rw [show (State.view _).current = s.view.current from hv.current]
      exact hwaits g w hk) (ha.stopped hv)
  exact ⟨s', hresched, hleads.placed, fun t ht => hleads.exited t ((hv.exited t).mpr ht)⟩

theorem yieldNow {f : Form} (h : Placed kind queue I s) (hpc : s.pc.switching = false)
    (hB : Keeper B queue I fits) (hs : Settled kind (s.seat kind) s) (ha : Active s)
    (hrunning : s.view.state s.view.current = .running)
    (hfits : fits s.view.scheduler n) (hn : s.live.length ≤ n) :
    ∃ s', s.yieldNow kind B f = some s' ∧ Leads kind queue I s s' := by
  obtain ⟨v, hyield, hloc, hI, honCpu⟩ := h.located.yieldCurrent hB h.inv hfits hn
    (fun u => mem_live) h.current h.idle hrunning
  obtain ⟨s', hresched, hleads⟩ := h.stopped (f := f) (k := .user) hpc hB hs ha
    (View.yieldCurrent_stops hyield) hI hloc honCpu (by simp) (by simp) (by simp)
  exact ⟨s', by simp [State.yieldNow, hyield, hresched], hleads⟩

theorem blockedResched {f : Form} {w : Wait} (h : Placed kind queue I s)
    (hpc : s.pc.switching = false) (hB : Keeper B queue I fits)
    (hs : Settled kind (s.seat kind) s) (ha : Active s)
    (hrunning : s.view.state s.view.current = .running)
    (hidle : s.view.current.isIdle = false) :
    ∃ s', s.blockedResched kind B f w = some s' ∧ Leads kind queue I s s' := by
  obtain ⟨v, hblock, hloc, hscheduler, honCpu⟩ :=
    h.located.blockCurrent (q := w.queue) hidle hrunning
  obtain ⟨s', hresched, hleads⟩ := h.stopped (f := f) (k := .blocked f w) hpc hB hs ha
    (View.blockCurrent_stops hblock) (hscheduler ▸ h.inv) hloc honCpu (by
      rintro g w' hg
      cases hg
      rfl) (by simp) (fun _ _ _ hcurrent => by rw [hcurrent] at hidle; cases hidle)
  exact ⟨s', by simp [State.blockedResched, hblock, hresched], hleads⟩

theorem exit {f : Form} {e : ℤ} (h : Placed kind queue I s) (hpc : s.pc.switching = false)
    (hrunning : s.view.state s.view.current = .running)
    (hidle : s.view.current.isIdle = false) :
    ∃ s', s.exit f e = some s' ∧ Leads kind queue I s s' := by
  have hcond : (s.view.isRunning s.view.current && !s.view.current.isIdle) = true := by
    simp [View.isRunning, hrunning, hidle]
  by_cases hinit : f = .thread ∧ s.view.current.isInit = true
  · refine ⟨{ s with pc := .halted }, by simp [State.exit, hcond, hinit], ?_, fun _ => id⟩
    exact h.stay hpc rfl h.inv h.located rfl rfl rfl (fun hno => by cases hno)
  · refine ⟨{ s with
      view := { s.view.setState s.view.current .exited with
        exitCode := Function.update s.view.exitCode s.view.current e }
      pc := .notifyAll (.exit s.view.current) false (some f) }, ?_, ?_, fun t ht => ?_⟩
    · simp only [State.exit, hcond, if_true, if_neg hinit]
    · exact h.stay hpc rfl h.inv (h.located.exit hidle hrunning) rfl rfl rfl
        (fun hno => by cases hno)
    · exact View.setState_exited (by rw [hrunning]; decide) ht

/-- A round of `notify_all` wakes a task, or is the last one. -/
theorem notifyRound {q : QueueId} {resched : Bool} {after : Option Form}
    (h : Placed kind queue I s) (hpc : s.pc = .notifyAll q resched after)
    (hB : Keeper B queue I fits) (hs : Settled kind (s.seat kind) s) (ha : Active s)
    (hfits : fits s.view.scheduler n) (hn : s.live.length ≤ n) :
    ∃ s', s.notifyRound kind B q resched after = some s' ∧ Leads kind queue I s s' := by
  have hsteady : s.pc.switching = false := by rw [hpc]; rfl
  have hnot : s.view.state s.view.current ≠ .blocked := by
    cases hleaving : s.leaving with
    | true => rw [ha.exited hleaving]; decide
    | false => rw [ha.running hleaving]; decide
  obtain ⟨v, b, hnotify, hloc, hI, honCpu, htrue, hfalse⟩ := h.located.notifyOne
    (q := q) (r := resched) hB h.inv hfits hn (fun u => mem_live) h.idle
    fun u => h.off hsteady hnot
  have hquiet := View.notifyOne_quiet hnotify
  have hplaced : Placed kind queue I { s with view := v, pc := s.pc } :=
    h.stay hsteady hsteady hI hloc hquiet.current hquiet.prevTask honCpu h.waiter
  have hexited : ∀ t, s.view.state t = .exited → v.state t = .exited :=
    fun t ht => (hquiet.exited t).mpr ht
  cases b with
  | true => exact ⟨{ s with view := v }, by simp [State.notifyRound, hnotify], hplaced, hexited⟩
  | false =>
      obtain rfl := hfalse rfl
      cases after with
      | none =>
          refine ⟨{ s with pc := .user }, by simp [State.notifyRound, hnotify], ?_, hexited⟩
          exact h.stay hsteady rfl h.inv h.located rfl rfl rfl (fun hno => by cases hno)
      | some f =>
          have hleaving : s.leaving = true := by simp [State.leaving, hpc]
          obtain ⟨s', hresched, hleads⟩ := h.reschedule (f := f)
            (k := .exiting (s.view.exitCode s.view.current)) hsteady hB hs
            ⟨by simp, fun _ _ => ha.exited hleaving⟩ (by simp) (ha.not_running hleaving)
          exact ⟨s', by simp [State.notifyRound, hnotify, hresched], hleads⟩

/-- A resume point empties the slot of the task before. -/
theorem releasePrev (h : Placed kind queue I s) :
    Placed kind queue I { s with view := s.view.takePrevTask } ∧
      s.view.takePrevTask.prevTask = none := by
  have hprev : s.view.takePrevTask.prevTask = none := by
    unfold View.takePrevTask
    split <;> simp_all
  obtain ⟨hcurrent, -⟩ := View.takePrevTask_eq s.view
  have hscheduler : s.view.takePrevTask.scheduler = s.view.scheduler := by
    unfold View.takePrevTask
    split <;> rfl
  refine ⟨⟨by rw [hscheduler]; exact h.inv, h.located.takePrevTask, ?_, h.spawned, h.created,
    fun t ht => ?_, fun _ p hp => ?_, h.start, ?_, ?_, ?_, ?_, h.idleCtx⟩, hprev⟩
  · rw [hcurrent]
    exact h.current
  · left
    rw [hcurrent]
    unfold View.takePrevTask at ht
    split at ht
    · rename_i hnone
      refine (h.onCpu t ht).resolve_right fun hp => ?_
      rw [hnone] at hp
      cases hp
    · rename_i p hsome
      by_cases htp : t = p
      · simp [htp] at ht
      · refine (h.onCpu t (by simpa [htp] using ht)).resolve_right fun hp => htp ?_
        rw [hsome] at hp
        exact (Option.some.inj hp).symm
  · rw [hprev] at hp
    cases hp
  · rw [hcurrent]
    exact h.loop
  · rw [hcurrent]
    exact h.away
  · rw [hcurrent]
    exact h.saved
  · rw [hcurrent]
    exact h.waiter

theorem released (h : Placed kind queue I s) :
    Leads kind queue I s s.releasePrev ∧ s.releasePrev.view.prevTask = none := by
  obtain ⟨hplaced, hnone⟩ := h.releasePrev
  obtain ⟨-, hstate⟩ := View.takePrevTask_eq s.view
  have hexited : ∀ t, s.view.state t = .exited → s.releasePrev.view.state t = .exited := by
    intro t ht
    rw [s.releasePrev_eq.1, hstate]
    exact ht
  refine ⟨⟨?_, hexited⟩, by rw [s.releasePrev_eq.1]; exact hnone⟩
  cases hprev : s.view.prevTask with
  | none => rwa [show s.releasePrev = s by simp [State.releasePrev, hprev]]
  | some p =>
      by_cases hgone : s.view.takePrevTask.state p = .exited
      · have heq : s.releasePrev = State.setRefs { s with view := s.view.takePrevTask } p
            { s.refs p with strong := (s.refs p).strong - 1, released := true } := by
          simp [State.releasePrev, hprev, hgone]
        rw [heq]
        exact ⟨hplaced.inv, hplaced.located, hplaced.current, hplaced.spawned, hplaced.created,
          hplaced.onCpu, hplaced.slot, hplaced.start, hplaced.loop, hplaced.away, hplaced.saved,
          hplaced.waiter, hplaced.idleCtx⟩
      · rwa [show s.releasePrev = { s with view := s.view.takePrevTask } by
          simp [State.releasePrev, hprev, hgone]]

/-- A new task is known to nobody yet. -/
theorem new (h : Placed kind queue I s) (hpc : s.pc = .user) (n : ℕ) :
    Leads kind queue I s (s.new kind n) := by
  have hview : (s.new kind n).view = s.view := by
    unfold State.new
    cases kind n <;> rfl
  have hspawned : (s.new kind n).spawned = s.spawned := by
    unfold State.new
    cases kind n <;> rfl
  have hpc' : (s.new kind n).pc = .user := by
    unfold State.new
    cases kind n <;> exact hpc
  have hcreated : ∀ t, s.created t = true → (s.new kind n).created t = true := by
    intro t ht
    unfold State.new
    cases kind n <;> by_cases hn : t = .user n <;> simp [hn, ht]
  have hctx : ∀ t, (s.new kind n).ctx t = .schedule → s.ctx t = .schedule := by
    intro t ht
    unfold State.new at ht
    cases hkind : kind n with
    | thread =>
        by_cases hn : t = .user n
        · simp [hkind, hn] at ht
        · simpa [hkind, hn, State.setRefs] using ht
    | coroutine => simpa [hkind, State.setRefs] using ht
  have hidle : (s.new kind n).ctx .idle = s.ctx .idle := by
    unfold State.new
    cases kind n <;> simp [State.setRefs]
  have hknown : (s.new kind n).Known = s.Known := by
    funext t
    simp only [State.Known, hspawned]
  refine ⟨⟨by rw [hview]; exact h.inv, by rw [hview, hknown]; exact h.located,
    by rw [hview, hknown]; exact h.current, by rw [hspawned]; exact h.spawned, fun t ht => ?_,
    by rw [hview]; exact h.onCpu, fun _ => ?_, fun t ht => h.start t (hctx t ht), ?_, ?_, ?_, ?_,
    by rw [hidle]; exact h.idleCtx⟩, fun t ht => by rw [hview]; exact ht⟩
  · rw [hknown] at ht
    exact hcreated t (h.created t ht)
  · rw [hview]
    exact h.slot (by rw [hpc]; rfl)
  · rw [hpc']
    exact fun hno => by cases hno
  · rw [hpc']
    exact fun _ hno => by cases hno
  · rw [hpc']
    exact fun _ hno => by cases hno
  · rw [hpc']
    exact fun hno => by cases hno

theorem spawn (h : Placed kind queue I s) (hpc : s.pc = .user) (hB : Keeper B queue I fits)
    {m : ℕ} (hholds : s.Holds kind (.spawn m)) (hfits : fits s.view.scheduler n)
    (hn : s.live.length < n) :
    ∃ s', s.spawn B m = some s' ∧ Leads kind queue I s s' := by
  obtain ⟨hcreated, hnot, -⟩ := hholds
  have hunknown : ¬ s.Known (.user m) := by
    rintro (hmain | hmem)
    · cases hmain
    · exact hnot hmem
  obtain ⟨v, hadd, hloc, hI, honCpu⟩ := h.located.addTask (t := .user m) hB h.inv hfits hn
    (fun u => mem_live) hunknown (by simp)
  have hquiet := View.addTask_quiet hadd
  have hknown : ∀ t, State.Known { s.setRefs (.user m) { s.refs (.user m) with
      handles := (s.refs (.user m)).handles - 1 } with
      view := v, spawned := s.spawned ++ [.user m] } t ↔ s.Known t ∨ t = .user m := by
    intro t
    simp [State.Known, or_assoc]
  have hspawn : s.spawn B m = some { s.setRefs (.user m) { s.refs (.user m) with
      handles := (s.refs (.user m)).handles - 1 } with
      view := v, spawned := s.spawned ++ [.user m] } := by simp [State.spawn, hadd]
  refine ⟨_, hspawn, ⟨hI, ?_, ?_, ?_, ?_, ?_, fun _ => ?_, h.start, ?_, ?_, ?_, ?_, h.idleCtx⟩,
    fun t ht => (hquiet.exited t).mpr ht⟩
  · rw [show State.Known _ = fun u => s.Known u ∨ u = .user m from
      funext fun t => propext (hknown t)]
    exact hloc
  · rw [show State.view _ = v from rfl, hquiet.current, hknown]
    exact h.current.imp .inl id
  · intro t ht
    rcases List.mem_append.mp ht with ht | ht
    · exact h.spawned t ht
    · exact ⟨m, List.mem_singleton.mp ht⟩
  · intro t ht
    rw [hknown, or_assoc, or_comm (a := t = .user m), ← or_assoc] at ht
    rcases ht with ht | rfl
    · exact h.created t ht
    · exact hcreated
  · intro t ht
    rw [show State.view _ = v from rfl] at ht ⊢
    rw [honCpu] at ht
    rw [hquiet.current, hquiet.prevTask]
    exact h.onCpu t ht
  · rw [show State.view _ = v from rfl, hquiet.current, hquiet.prevTask]
    exact h.slot (by rw [hpc]; rfl)
  · exact fun hno => absurd (hpc.symm.trans hno) (by simp)
  · exact fun t ht => absurd ht (by simp [State.setRefs, hpc, Pc.leftLoop])
  · exact fun t ht => absurd ht (by simp [State.setRefs, hpc, Pc.leftLoop])
  · exact fun hw => absurd hw (by simp [State.setRefs, hpc, Pc.waits])

/-- Only the references have changed. -/
theorem setRefs (h : Placed kind queue I s) (t : Task) (r : Refs) :
    Leads kind queue I s (s.setRefs t r) :=
  ⟨⟨h.inv, h.located, h.current, h.spawned, h.created, h.onCpu, h.slot, h.start, h.loop, h.away,
    h.saved, h.waiter, h.idleCtx⟩, fun _ => id⟩

/-- The stack of the coroutine that has been polled is taken. -/
theorem takeStack (h : Placed kind queue I s) (hs : Settled kind (some t) s) (ha : Active s)
    (hpc : s.pc = .polled t) : ∃ s', s.takeStack B t = some s' ∧ Leads kind queue I s s' := by
  have haway : t ≠ s.view.current := h.away t (by rw [hpc]; rfl)
  have hrunning : s.view.isRunning t = false := by
    have : s.view.state t ≠ .running := fun hr => haway (ha.only t hr)
    simpa [View.isRunning] using this
  obtain ⟨stack, hstack⟩ := Option.isSome_iff_exists.mp (hs.held t rfl)
  refine ⟨{ s with kstack := Function.update s.kstack t none, pc := .handOver t stack }, ?_,
    ⟨h.inv, h.located, h.current, h.spawned, h.created, h.onCpu, (fun hno => by cases hno), h.start,
      (fun hno => by cases hno), ?_, ?_, (fun hno => by cases hno), h.idleCtx⟩, fun _ => id⟩
  · simp [State.takeStack, hrunning, hstack]
  · intro u hu
    obtain rfl := Option.some.inj hu
    exact haway
  · intro u _
    exact h.saved t (by rw [hpc]; rfl)

/-- The end of the loop of `coroutine_schedule`. -/
theorem handOver {stack : ℕ} (h : Placed kind queue I s) (hs : Settled kind none s)
    (hpc : s.pc = .handOver t stack) :
    ∃ s', s.handOver t stack = some s' ∧ Leads kind queue I s s' := by
  have haway : t ≠ s.view.current := h.away t (by rw [hpc]; rfl)
  have hsaved := h.saved t (by rw [hpc]; rfl)
  by_cases hreuse : s.kstack s.view.current = none ∧ s.view.current.isInit = false ∧
      s.view.current.isIdle = false
  · have hcoroutine : s.view.current.isCoroutine kind = true := by
      cases hcurrent : s.view.current with
      | main => simp [hcurrent, Task.isInit] at hreuse
      | idle => simp [hcurrent, Task.isIdle] at hreuse
      | user n =>
          by_contra hno
          have hthread : kind n = .thread := by
            cases hn : kind n with
            | thread => rfl
            | coroutine => simp [Task.isCoroutine, hn] at hno
          have hsome := hs.stack n (h.created _ (hcurrent ▸ h.current)) hthread
          rw [← hcurrent, hreuse.1] at hsome
          cases hsome
    refine ⟨{ s.decStrong t with
      kstack := Function.update s.kstack s.view.current (some stack)
      pc := .loopTop }, by simp only [State.handOver, if_pos hreuse],
      ⟨h.inv, h.located, h.current, h.spawned, h.created, h.onCpu, (fun hno => by cases hno),
        h.start,
        fun _ => hcoroutine, (fun _ hno => by cases hno), (fun _ hno => by cases hno),
        (fun hno => by cases hno), h.idleCtx⟩, fun _ => id⟩
  · have hctx : ∃ k, s.ctx s.view.current = .resume k := by
      cases hcoroutine : s.view.current.isCoroutine kind with
      | false => exact hsaved hcoroutine
      | true =>
          obtain ⟨hinit, hidle⟩ := Task.isCoroutine_of_user hcoroutine
          refine (hs.away _ hcoroutine ?_).resolve_left (by simp)
          exact Option.isSome_iff_ne_none.mpr fun hnone => hreuse ⟨hnone, hinit, hidle⟩
    obtain ⟨k, hk⟩ := hctx
    refine ⟨{ s with
      pool := stack :: s.pool
      ctx := Function.update s.ctx t .dead
      pc := .resume k }, ?_, ⟨h.inv, h.located, h.current, h.spawned, h.created, h.onCpu,
        (fun hno => by cases hno), fun u hu => ?_, (fun hno => by cases hno),
        (fun _ hno => by cases hno), (fun _ hno => by cases hno), fun hw hcurrent => ?_,
        fun f w hidle => ?_⟩, fun _ => id⟩
    · simp [State.handOver, if_neg hreuse, State.loadContext, Ne.symm haway, hk]
    · by_cases hut : u = t
      · simp [hut] at hu
      · exact h.start u (by simpa [hut] using hu)
    · have hcur : s.view.current = .idle := hcurrent
      cases k with
      | blocked f w => exact h.idleCtx f w (hcur ▸ hk)
      | _ => cases hw
    · by_cases hut : .idle = t
      · simp [hut] at hidle
      · exact h.idleCtx f w (by simpa [hut] using hidle)

end Operations

end Placed

/-- The tasks block through wait queues, and the scheduler has room for those that have
not exited. -/
def Waits (fits : σ → ℕ → Prop) (_ : List Act) (s : State σ) (a : Act) : Prop :=
  a ≠ .pending ∧ (∀ t, a ≠ .wake t ∧ a ≠ .wakeByRef t) ∧
    fits s.view.scheduler (s.live.length + (match a with | .spawn _ => 1 | _ => 0))

namespace Placed

theorem plain {a : Act} {g : List Act} (h : Placed kind queue I s) (ha : Active s)
    (hB : Keeper B queue I fits) (hguard : Waits fits g s a) (hpc : s.pc = .user)
    (hholds : s.Holds kind a) (hplain : a.isPlain = true) :
    ∃ s', s.perform kind B a = some s' ∧ Leads kind queue I s s' := by
  obtain ⟨-, hwake, hfits⟩ := hguard
  have hsteady : s.pc.switching = false := by rw [hpc]; rfl
  have hrunning := ha.running (by simp [State.leaving, hpc])
  have hoff : ∀ u, s.view.state u = .blocked → s.view.onCpu u = false :=
    fun u => h.off hsteady (by rw [hrunning]; decide)
  cases a with
  | new n => exact ⟨_, rfl, h.new hpc n⟩
  | spawn n => exact h.spawn hpc hB hholds hfits (Nat.lt_succ_self _)
  | cloneHandle t => exact ⟨_, rfl, h.setRefs _ _⟩
  | dropHandle t => exact ⟨_, rfl, h.setRefs _ _⟩
  | cloneWaker t => exact ⟨_, rfl, h.setRefs _ _⟩
  | dropWaker t => exact ⟨_, rfl, h.setRefs _ _⟩
  | notifyOne q resched =>
      obtain ⟨v, b, hnotify, hloc, hI, honCpu, -⟩ := h.located.notifyOne (q := q)
        (r := resched) hB h.inv hfits (le_refl _) (fun u => mem_live) h.idle hoff
      have hquiet := View.notifyOne_quiet hnotify
      refine ⟨{ s with view := v.setResult (if b then 1 else 0), pc := s.pc },
        by simp [State.perform, hnotify], ?_, fun t ht => (hquiet.exited t).mpr ht⟩
      exact h.stay hsteady hsteady hI (hloc.same rfl rfl rfl rfl) hquiet.current hquiet.prevTask
        honCpu
        h.waiter
  | notifyTask q resched t =>
      obtain ⟨v, b, hnotify, hloc, hI, honCpu, hexited⟩ := h.located.notifyTask (q := q)
        (t := t) (r := resched) hB h.inv hfits (le_refl _) (fun u => mem_live) h.idle hoff
      have hquiet := View.notifyTask_quiet hnotify
      refine ⟨{ s with view := v.setResult (if b then 1 else 0), pc := s.pc },
        by simp [State.perform, hnotify], ?_, hexited⟩
      exact h.stay hsteady hsteady hI (hloc.same rfl rfl rfl rfl) hquiet.current hquiet.prevTask
        honCpu
        h.waiter
  | requeue q count target =>
      have hplaced : Placed kind queue I { s with
          view := View.setResult (s.view.requeue q count target).1 (s.view.requeue q count target).2
          pc := s.pc } :=
        h.stay hsteady hsteady h.inv (h.located.requeue.same rfl rfl rfl rfl) rfl rfl rfl h.waiter
      exact ⟨_, rfl, hplaced, fun _ => id⟩
  | wake t => exact absurd rfl (hwake t).1
  | wakeByRef t => exact absurd rfl (hwake t).2
  | _ => cases hplain

/-- Every step that may happen leads on. -/
theorem step {a : Act} {g : List Act} (h : Placed kind queue I s) (hc : Control kind s)
    (ha : Active s) (hB : Keeper B queue I fits) (hguard : Waits fits g s a)
    (he : s.Enabled kind a) :
    ∃ s', s.perform kind B a = some s' ∧ Leads kind queue I s s' := by
  by_cases hplain : a.isPlain = true
  · obtain ⟨hpc, -, -, hholds⟩ := he.op (by cases a <;> first | rfl | cases hplain)
    exact h.plain ha hB hguard hpc hholds hplain
  obtain ⟨hpending, -, hfits⟩ := hguard
  cases a with
  | yield f =>
      obtain ⟨hpc, -⟩ := he.op rfl
      exact h.yieldNow (by rw [hpc]; rfl) hB (hc.seated (by simp [hpc]) (by simp [hpc])) ha
        (ha.running (by simp [State.leaving, hpc])) hfits (le_refl _)
  | wait f w =>
      obtain ⟨hpc, hidle, -⟩ := he.op rfl
      have hnot : s.view.current.isIdle = false := by
        by_contra hi
        cases hidle (by simpa using hi)
      cases hcond : w.cond with
      | none =>
          obtain ⟨s', hblocked, hleads⟩ := h.blockedResched (f := f) (w := w) (by rw [hpc]; rfl) hB
            (hc.seated (by simp [hpc]) (by simp [hpc])) ha
            (ha.running (by simp [State.leaving, hpc])) hnot
          exact ⟨s', by simp [State.perform, State.wait, hcond, hblocked], hleads⟩
      | some c =>
          refine ⟨{ s with pc := .condition f w }, by simp [State.perform, State.wait, hcond], ?_,
            fun _ => id⟩
          refine h.stay (by rw [hpc]; rfl) rfl h.inv h.located rfl rfl rfl fun _ hcurrent => ?_
          rw [hcurrent] at hnot
          cases hnot
  | notifyAll q resched =>
      obtain ⟨hpc, -⟩ := he.op rfl
      refine ⟨{ s with pc := .notifyAll q resched none }, rfl, ?_, fun _ => id⟩
      exact h.stay (by rw [hpc]; rfl) rfl h.inv h.located rfl rfl rfl (fun hno => by cases hno)
  | exit f e =>
      obtain ⟨hpc, hidle, -⟩ := he.op rfl
      refine h.exit (by rw [hpc]; rfl) (ha.running (by simp [State.leaving, hpc])) ?_
      by_contra hi
      cases hidle (by simpa using hi)
  | pending => exact absurd rfl hpending
  | check b =>
      obtain ⟨f, w, hpc, -⟩ := he.check
      have hrunning := ha.running (by simp [State.leaving, hpc])
      have hnot : s.view.current.isIdle = false := by
        cases hcurrent : s.view.current with
        | idle => exact absurd hcurrent (h.waiter (by rw [hpc]; rfl))
        | _ => rfl
      simp only [State.perform, hpc]
      cases b with
      | false =>
          exact h.blockedResched (by rw [hpc]; rfl) hB
            (hc.seated (by simp [hpc]) (by simp [hpc])) ha
            hrunning hnot
      | true =>
          exact ⟨_, rfl, h.returned (h.slot (by rw [hpc]; rfl)) hrunning⟩
  | tick =>
      have hpc' := s.releasePrev_eq.2.2.2.2.2.2.2
      cases hpc : s.pc with
      | notifyAll q resched after =>
          simp only [State.perform, State.tick, hpc]
          exact h.notifyRound hpc hB (hc.seated (by simp [hpc]) (by simp [hpc])) ha hfits
            (le_refl _)
      | resume k =>
          obtain ⟨hleads, hnone⟩ := h.released
          have hfits' := hc.fits
          simp only [State.Fits, hpc] at hfits'
          have hcurrent : s.releasePrev.view.current = s.view.current := by
            rw [s.releasePrev_eq.1, (View.takePrevTask_eq s.view).1]
          simp only [State.perform, State.tick, hpc]
          obtain ⟨s', hgo, hleads'⟩ := hleads.placed.goOn (k := k) (by simp [hnone])
            (ha.releasePrev.running (by simp [State.leaving, hpc', hpc])) hfits'.1 (by
              rintro f w rfl
              rw [hcurrent]
              exact h.waiter (by rw [hpc]; rfl))
          exact ⟨s', hgo, hleads'.placed, fun t ht => hleads'.exited t (hleads.exited t ht)⟩
      | loopTop =>
          obtain ⟨hleads, hnone⟩ := h.released
          have hcoroutine : s.releasePrev.view.current.isCoroutine kind = true := by
            rw [s.releasePrev_eq.1, (View.takePrevTask_eq s.view).1]
            exact h.loop hpc
          have hplaced := hleads.placed.goto (p := .poll) rfl hleads.placed.inv
            hleads.placed.located rfl hleads.placed.onCpu (by simp [hnone])
              (fun hno => by cases hno)
          have hplaced' := (hplaced.setRefs s.releasePrev.view.current
            { s.releasePrev.refs s.releasePrev.view.current with
              strong := (s.releasePrev.refs s.releasePrev.view.current).strong + 1 }).placed
          refine ⟨_, ?_, hplaced', hleads.exited⟩
          simp only [State.perform, State.tick, hpc, State.schedule, hcoroutine, if_true]
          rfl
      | poll =>
          have hs := hc.seated (by simp [hpc]) (by simp [hpc])
          have hrunning := ha.running (by simp [State.leaving, hpc])
          have hfits' := hc.fits
          simp only [State.Fits, hpc] at hfits'
          have hk : ∀ e, s.future s.view.current ≠ .exiting e := by
            intro e he'
            have hexited := hs.future_exiting _ e he'
            rw [hrunning] at hexited
            cases hexited
          obtain ⟨s', hgo, hleads⟩ := h.goOn (k := s.future s.view.current)
            (h.slot (by rw [hpc]; rfl)) hrunning hk (by
              intro f w _ hcurrent
              rw [hcurrent] at hfits'
              cases hfits')
          refine ⟨s', ?_, hleads⟩
          simp only [State.perform, State.tick, hpc, State.poll]
          exact hgo
      | polled t =>
          have hs := hc.settled
          simp only [State.frame, hpc] at hs
          simp only [State.perform, State.tick, hpc]
          exact h.takeStack hs ha hpc
      | handOver t stack =>
          have hs := hc.settled
          simp only [State.frame, hpc] at hs
          simp only [State.perform, State.tick, hpc]
          exact h.handOver hs hpc
      | user => simp [State.Enabled, State.EnabledAt, hpc, Act.isOp] at he
      | condition f w => simp [State.Enabled, State.EnabledAt, hpc, State.Answers] at he
      | halted => simp [State.Enabled, State.EnabledAt, hpc] at he
  | _ => exact absurd rfl hplain

theorem init {scheduler : σ} (hI : I scheduler) (hempty : queue scheduler = []) :
    Placed kind queue I (State.init scheduler) := by
  have hstate : ∀ t, (State.init scheduler).view.state t = if t = .main then .running else .ready :=
    fun _ => rfl
  refine ⟨hI, ⟨by simp [State.init, hempty], fun t => ?_, fun _ => List.nodup_nil, fun t => ?_, ?_,
    fun t => ?_, fun t ht => ?_⟩, .inl (.inl rfl), ?_, ?_, fun t ht => ?_, fun _ p hp => ?_,
      fun t ht => ?_, ?_,
    ?_, ?_, ?_, ?_⟩
  · rw [hstate]
    refine iff_of_false (by simp [State.init, hempty]) ?_
    rintro ⟨rfl | hmem, hready⟩
    · cases hready
    · cases hmem
  · rw [hstate]
    refine iff_of_false ?_ ?_
    · split_ifs <;> decide
    · rintro ⟨q, hq⟩
      cases hq
  · intro t q q' hq
    cases hq
  · rw [hstate]
    refine iff_of_false (by simp [State.init]) ?_
    split_ifs <;> decide
  · left
    rw [hstate, if_neg]
    exact fun hmain => ht (.inl hmain)
  · intro t ht
    cases ht
  · rintro t ((rfl | hmem) | rfl)
    · rfl
    · cases hmem
    · rfl
  · left
    simpa [State.init] using ht
  · exact (Option.some.inj hp).symm
  · by_cases hidle : t = .idle <;> simp [State.init, hidle] at ht
  · intro hno
    cases hno
  · intro _ hno
    cases hno
  · intro _ hno
    cases hno
  · intro hno
    cases hno
  · intro f w hno
    cases hno

/-- In every run the tasks are in place, and every step that may come next leads on. -/
theorem of_run (hB : Keeper B queue I fits) {scheduler : σ} (hI : I scheduler)
    (hempty : queue scheduler = []) {h : List Act}
    (hrun : (machine kind B scheduler).RunOf (Waits fits) h s) :
    Placed kind queue I s ∧ Control kind s ∧ Active s := by
  refine hrun.invariant (I := fun _ s => Placed kind queue I s ∧ Control kind s ∧ Active s) ?_ ?_
  · rintro s rfl
    exact ⟨init hI hempty, Control.init scheduler, Active.init scheduler⟩
  · rintro h s a s' - ⟨hplaced, hc, ha⟩ hguard ⟨he, hperform⟩
    obtain ⟨u, hu, hleads⟩ := hplaced.step hc ha hB hguard he
    obtain rfl := Option.some.inj (hu.symm.trans hperform)
    exact ⟨hleads.placed, hc.step ha he hperform, ha.step he hperform⟩

end Placed

/-- Between operations every task is where its state says, exactly once. -/
structure State.InPlace (queue : σ → List Task) (s : State σ) : Prop where
  running : s.view.state s.view.current = .running
  ready : ∀ t, t = .main ∨ t ∈ s.spawned → s.view.state t = .ready →
    (queue s.view.scheduler).count t = 1
  blocked : ∀ t, s.view.state t = .blocked →
    ∃ q, (s.view.queue q).count t = 1 ∧ ∀ q', q' ≠ q → t ∉ s.view.queue q'
  flag : ∀ t, s.view.inWaitQueue t = true ↔ s.view.state t = .blocked
  idle : .idle ∉ queue s.view.scheduler ∧ (∀ q, .idle ∉ s.view.queue q) ∧
    (s.view.state .idle = .running ↔ s.view.current = .idle)
  exited : ∀ t, s.view.state t = .exited →
    t ∉ queue s.view.scheduler ∧ (∀ q, t ∉ s.view.queue q) ∧ t ≠ s.view.current

theorem Placed.inPlace (h : Placed kind queue I s) (ha : Active s) (hpc : s.pc = .user) :
    s.InPlace queue := by
  have hrunning := ha.running (by simp [State.leaving, hpc])
  refine ⟨hrunning, fun t ht hready => ?_, fun t hblocked => ?_, h.located.flag,
    ⟨fun hmem => ?_, fun q hmem => ?_, fun hr => (ha.only _ hr).symm, fun hc => hc ▸ hrunning⟩,
    fun t hexited => ⟨fun hmem => ?_, fun q hmem => ?_, ?_⟩⟩
  · exact List.count_eq_one_of_mem h.located.nodup ((h.located.ready t).mpr ⟨ht, hready⟩)
  · obtain ⟨q, hq⟩ := (h.located.blocked t).mp hblocked
    refine ⟨q, List.count_eq_one_of_mem (h.located.waits q) hq, fun q' hne hq' => hne ?_⟩
    exact h.located.single t q' q hq' hq
  · exact h.idle ((h.located.ready _).mp hmem).1
  · exact h.idle (h.located.known_of_blocked ((h.located.blocked _).mpr ⟨q, hmem⟩))
  · have hready := ((h.located.ready t).mp hmem).2
    rw [hexited] at hready
    cases hready
  · have hblocked := (h.located.blocked t).mpr ⟨q, hmem⟩
    rw [hexited] at hblocked
    cases hblocked
  · rintro rfl
    rw [hrunning] at hexited
    cases hexited

/-- A `notify_one` that returns true has made one blocked task ready. -/
theorem notifyOne_true (hB : Keeper B queue I fits) (h : Placed kind queue I s) (ha : Active s)
    {g : List Act} {q : QueueId} {resched : Bool}
    (hguard : Waits fits g s (.notifyOne q resched)) (hpc : s.pc = .user)
    (hperform : s.perform kind B (.notifyOne q resched) = some s')
    (htrue : s'.view.result s.view.current = 1) :
    ∃ t, s.view.state t = .blocked ∧ s'.view.state = Function.update s.view.state t .ready := by
  have hrunning := ha.running (by simp [State.leaving, hpc])
  obtain ⟨v, b, hnotify, -, -, -, hyes, -⟩ := h.located.notifyOne (q := q) (r := resched) hB
    h.inv hguard.2.2 (le_refl _) (fun u => Placed.mem_live) h.idle
    fun u => h.off (by rw [hpc]; rfl) (by rw [hrunning]; decide)
  have hcurrent := (View.notifyOne_quiet hnotify).current
  simp only [State.perform, hnotify, Option.map_some, Option.some.injEq] at hperform
  subst hperform
  cases b with
  | true => exact hyes rfl
  | false => simp [View.setResult, hcurrent] at htrue

/-- From every starting state of a scheduler, in every run of tasks that block through
wait queues while the scheduler has room: between operations the tasks are in place; every
step that may come next leads on, no exited task changes its state in it, and a
`notify_one` that returns true makes one blocked task ready. -/
def Locates (kind : ℕ → Kind) (B : BaseScheduler σ Task) (queue : σ → List Task)
    (start : σ → Prop) (fits : σ → ℕ → Prop) : Prop :=
  ∀ scheduler, start scheduler → ∀ (h : List Act) (s : State σ),
    (machine kind B scheduler).RunOf (Waits fits) h s →
    (s.pc = .user → s.InPlace queue) ∧
      ∀ a, s.Enabled kind a → Waits fits h s a → ∃ s', s.perform kind B a = some s' ∧
        (∀ t, s.view.state t = .exited → s'.view.state t = .exited) ∧
        ∀ q resched, a = .notifyOne q resched → s'.view.result s.view.current = 1 →
          ∃ t, s.view.state t = .blocked ∧
            s'.view.state = Function.update s.view.state t .ready

theorem Locates.of_keeper {start : σ → Prop} (hB : Keeper B queue I fits)
    (hstart : ∀ s, start s → I s ∧ queue s = []) : Locates kind B queue start fits := by
  intro scheduler hscheduler h s hrun
  obtain ⟨hI, hempty⟩ := hstart scheduler hscheduler
  obtain ⟨hplaced, hc, ha⟩ := Placed.of_run hB hI hempty hrun
  refine ⟨hplaced.inPlace ha, fun a he hguard => ?_⟩
  obtain ⟨s', hperform, hleads⟩ := hplaced.step hc ha hB hguard he
  refine ⟨s', hperform, hleads.exited, ?_⟩
  rintro q resched rfl htrue
  exact notifyOne_true hB hplaced ha hguard (he.op rfl).1 hperform htrue

instance (h : List Act) (s : State (Sched.Fifo Task)) (a : Act) (cap : ℕ) :
    Decidable (Waits (fun _ n => n ≤ cap) h s a) := by
  unfold Waits
  have : Decidable (∀ t, a ≠ .wake t ∧ a ≠ .wakeByRef t) :=
    match a with
    | .wake t => .isFalse fun h => (h t).1 rfl
    | .wakeByRef t => .isFalse fun h => (h t).2 rfl
    | .new _ | .spawn _ | .cloneHandle _ | .dropHandle _ | .yield _ | .wait _ _ | .notifyOne _ _
    | .notifyAll _ _ | .notifyTask _ _ _ | .requeue _ _ _ | .exit _ _ | .pending | .cloneWaker _
    | .dropWaker _ | .check _ | .tick => .isTrue fun _ => ⟨by simp, by simp⟩
  infer_instance

end Kernel
