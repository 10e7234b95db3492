import Vsched.Kernel.Made

/-!
# The kernel does what threads and coroutines have in common

Outside of rescheduling a state of the kernel matches one of the common model: the other
threads have their plans in their contexts, the other coroutines in their futures. Wherever
the current task leaves the CPU, by a context switch, through `coroutine_schedule` or not at
all, a few steps of the kernel lead to the state that the common model goes to at once.
-/

namespace Kernel

open Sched (BaseScheduler TaskState Keeper)

variable {σ : Type*} {B : BaseScheduler σ Task} {kind : ℕ → Kind} {s s' : State σ}
  {a a' : Common σ} {t : Task}

/-- The form of the operations that a task calls. -/
def Task.form (kind : ℕ → Kind) (t : Task) : Form :=
  if t.isCoroutine kind then .future else .thread

def Plan.kont (f : Form) : Plan → Kont
  | .user => .user
  | .blocked w => .blocked f w

def Stop.pc (f : Form) : Stop → Pc
  | .user => .user
  | .condition w => .condition f w
  | .notifying q resched exits => .notifyAll q resched (if exits then some f else none)
  | .halted => .halted

def Op.act (f : Form) : Op → Act
  | .yield => .yield f
  | .wait w => .wait f w
  | .notifyOne q resched => .notifyOne q resched
  | .notifyAll q resched => .notifyAll q resched
  | .new n => .new n
  | .spawn n => .spawn n
  | .exit e => .exit f e

def Next.act (f : Form) : Next → Act
  | .op o => o.act f
  | .check b => .check b
  | .round => .tick

/-- Where the CPU stands, unless it is about to change the task or has just done so. -/
def Pc.stop : Pc → Option Stop
  | .user => some .user
  | .condition _ w => some (.condition w)
  | .notifyAll q resched after => some (.notifying q resched after.isSome)
  | .halted => some .halted
  | _ => none

/-- What the tasks that do not have the CPU have left behind. -/
structure State.Parked (kind : ℕ → Kind) (s : State σ) (plan : Task → Plan) : Prop where
  resumes : ∀ t, s.created t = true → t.isCoroutine kind = false → t ≠ s.view.current →
    s.view.state t ≠ .exited → s.ctx t = .resume ((plan t).kont .thread)
  awaits : ∀ t, s.created t = true → t.isCoroutine kind = true → t ≠ s.view.current →
    s.view.state t ≠ .exited → s.future t = (plan t).kont .future
  bare : ∀ t, t.isCoroutine kind = true → t ≠ s.view.current → s.kstack t = none
  held : s.view.current.isCoroutine kind = true → (s.kstack s.view.current).isSome
  stack : ∀ n, s.created (.user n) = true → kind n = .thread → (s.kstack (.user n)).isSome
  fresh : ∀ t, s.created t = false → (s.refs t).strong = 0

/-- The same tasks in the same places. -/
structure State.Matches (kind : ℕ → Kind) (s : State σ) (a : Common σ) : Prop where
  view : s.view = a.view
  created : s.created = a.created
  spawned : s.spawned = a.spawned
  handles : ∀ t, (s.refs t).handles = a.handles t
  parked : s.Parked kind a.plan

/-- Also the current task stands at the same stop. -/
structure State.Refines (kind : ℕ → Kind) (s : State σ) (a : Common σ) : Prop
    extends s.Matches kind a where
  pc : s.pc = a.stop.pc (a.view.current.form kind)

/-- The kernel goes on by itself to a state in `R`. -/
inductive State.Settles (kind : ℕ → Kind) (B : BaseScheduler σ Task) (R : State σ → Prop) :
    State σ → Prop
  | now {s : State σ} : R s → Settles kind B R s
  | tick {s r : State σ} :
      s.pc.stop = none → s.tick kind B = some r → Settles kind B R r → Settles kind B R s

theorem Pc.stop_pc (f : Form) (p : Stop) : (p.pc f).stop = some p := by
  cases p with
  | notifying q resched exits => cases exits <;> rfl
  | _ => rfl

theorem Task.form_thread (h : t.isCoroutine kind = false) : t.form kind = .thread := by
  simp [Task.form, h]

theorem Task.form_future (h : t.isCoroutine kind = true) : t.form kind = .future := by
  simp [Task.form, h]

namespace State

/-- Only what the tasks do not see has changed. -/
theorem Parked.same {plan : Task → Plan} (h : s.Parked kind plan)
    (hcreated : s'.created = s.created)
    (hctx : s'.ctx = s.ctx) (hfuture : s'.future = s.future) (hkstack : s'.kstack = s.kstack)
    (hcurrent : s'.view.current = s.view.current)
    (hexited : ∀ t, s'.view.state t ≠ .exited → t ≠ s.view.current → s.view.state t ≠ .exited)
    (hstrong : ∀ t, s.created t = false → (s'.refs t).strong = 0) : s'.Parked kind plan where
  resumes := by
    intro t ht hk hne hst
    rw [hcreated] at ht
    rw [hcurrent] at hne
    rw [hctx]
    exact h.resumes t ht hk hne (hexited t hst hne)
  awaits := by
    intro t ht hk hne hst
    rw [hcreated] at ht
    rw [hcurrent] at hne
    rw [hfuture]
    exact h.awaits t ht hk hne (hexited t hst hne)
  bare := by
    rw [hkstack, hcurrent]
    exact h.bare
  held := by
    rw [hkstack, hcurrent]
    exact h.held
  stack := by
    rw [hkstack, hcreated]
    exact h.stack
  fresh := by
    rw [hcreated]
    exact hstrong

/-- The scheduler has changed the states of tasks, but an exited one stays exited. -/
theorem Matches.setView {v : View σ} {p : Pc} {q : Stop} (h : s.Matches kind a)
    (hcurrent : v.current = a.view.current)
    (hexited : ∀ t, t ≠ a.view.current → a.view.state t = .exited → v.state t = .exited) :
    Matches kind { s with view := v, pc := p } { a with view := v, stop := q } := by
  refine ⟨rfl, h.created, h.spawned, h.handles, h.parked.same rfl rfl rfl rfl ?_ ?_ h.parked.fresh⟩
  · rw [h.view]
    exact hcurrent
  · rw [h.view]
    exact fun t ht hne hold => ht (hexited t hne hold)

theorem Matches.refines {v : View σ} {q : Stop} (h : s.Matches kind a)
    (hcurrent : v.current = a.view.current)
    (hexited : ∀ t, t ≠ a.view.current → a.view.state t = .exited → v.state t = .exited) :
    Refines kind { s with view := v, pc := q.pc (a.view.current.form kind) }
      { a with view := v, stop := q } :=
  ⟨h.setView hcurrent hexited, congrArg (fun t => q.pc (t.form kind)) hcurrent.symm⟩

/-- The CPU goes to another stop. -/
theorem Matches.goto {q : Stop} (h : s.Matches kind a) :
    Refines kind { s with pc := q.pc (a.view.current.form kind) } { a with stop := q } :=
  ⟨⟨h.view, h.created, h.spawned, h.handles,
    h.parked.same rfl rfl rfl rfl rfl (fun _ ht _ => ht) h.parked.fresh⟩, rfl⟩

/-- A resume point empties the slot. -/
theorem Matches.releasePrev {q : Stop} (h : s.Matches kind a) :
    s.releasePrev.Matches kind { a with view := a.view.takePrevTask, stop := q } := by
  obtain ⟨hview, hcreated, hkstack, -, -, hctx, hfuture, -⟩ := s.releasePrev_eq
  obtain ⟨hcurrent, hstate⟩ := View.takePrevTask_eq s.view
  have hrefs : ∀ t, (s.releasePrev.refs t).handles = (s.refs t).handles ∧
      ((s.refs t).strong = 0 → (s.releasePrev.refs t).strong = 0) := by
    intro t
    unfold State.releasePrev
    split
    · exact ⟨rfl, id⟩
    · rename_i p _
      simp only
      split_ifs
      · by_cases htp : t = p <;> simp [setRefs, htp]
        exact fun hzero => by simp [hzero]
      · exact ⟨rfl, id⟩
  refine ⟨by rw [hview, h.view], by rw [hcreated, h.created],
    by rw [s.releasePrev_spawned, h.spawned],
    fun t => by rw [(hrefs t).1, h.handles], ?_⟩
  refine h.parked.same hcreated hctx hfuture hkstack (by rw [hview, hcurrent]) (fun t ht _ => ?_)
    fun t ht => (hrefs t).2 (h.parked.fresh t ht)
  rwa [hview, hstate] at ht

/-- The current task goes on with its plan. -/
theorem Matches.goOn (h : s.Matches kind a) (p : Plan) :
    ∃ s', s.goOn (p.kont (a.view.current.form kind)) = some s' ∧ s'.Refines kind (a.goOn p) := by
  cases p with
  | user => exact ⟨_, rfl, h.goto (q := .user)⟩
  | blocked w =>
      refine ⟨s.woken (a.view.current.form kind) w, rfl, ?_⟩
      cases hcond : w.cond with
      | none =>
          have hquiet : a.view.Quiet ((a.view.cancelEvents w.queue).returned w) :=
            (View.cancelEvents_quiet _ _).trans (View.returned_quiet _ w)
          have hrefines := h.refines (q := .user) hquiet.current fun t _ ht =>
            (hquiet.exited t).mpr ht
          simpa [State.woken, Common.goOn, hcond, h.view, Stop.pc] using hrefines
      | some c =>
          simpa [State.woken, Common.goOn, hcond, Stop.pc] using h.goto (q := .condition w)

/-- A thread that has been switched to, or stays, comes to its stop. -/
theorem Matches.resume (h : s.Matches kind a) (hthread : a.view.current.isCoroutine kind = false)
    (hpc : s.pc = .resume ((a.plan a.view.current).kont .thread)) :
    s.Settles kind B (·.Refines kind a.arrive) := by
  have hreleased := h.releasePrev (q := .user)
  obtain ⟨hcurrent, -⟩ := View.takePrevTask_eq a.view
  obtain ⟨s', hgo, hrefines⟩ := hreleased.goOn (a.plan a.view.current)
  rw [show (Common.view _).current = a.view.takePrevTask.current from rfl, hcurrent,
    Task.form_thread hthread] at hgo
  refine .tick (by rw [hpc]; rfl) ?_ (.now hrefines)
  rw [State.tick, hpc]
  exact hgo

/-- A coroutine at the top of the loop is polled. -/
theorem Matches.loopTop (h : s.Matches kind a) (hcoroutine : a.view.current.isCoroutine kind = true)
    (hcreated : a.created a.view.current = true) (hpc : s.pc = .loopTop)
    (hfuture : s.future a.view.current = (a.plan a.view.current).kont .future) :
    s.Settles kind B (·.Refines kind a.arrive) := by
  have hreleased := h.releasePrev (q := .user)
  obtain ⟨hcurrent, -⟩ := View.takePrevTask_eq a.view
  have hcurrent' : s.releasePrev.view.current = a.view.current := by rw [hreleased.view, ← hcurrent]
  let r : State σ := { s.releasePrev.incStrong a.view.current with pc := .poll }
  have hr : r.Matches kind { a with view := a.view.takePrevTask, stop := .user } := by
    refine ⟨hreleased.view, hreleased.created, hreleased.spawned, fun t => ?_,
      hreleased.parked.same rfl rfl rfl rfl rfl (fun _ ht _ => ht) fun t ht => ?_⟩
    · rw [← hreleased.handles]
      by_cases htc : t = a.view.current <;> simp [r, incStrong, setRefs, htc]
    · have hne : t ≠ a.view.current := by
        rintro rfl
        rw [hreleased.created, show (Common.created _) = a.created from rfl, hcreated] at ht
        cases ht
      simpa [r, incStrong, setRefs, hne] using hreleased.parked.fresh t ht
  obtain ⟨s', hgo, hrefines⟩ := hr.goOn (a.plan a.view.current)
  rw [show (Common.view _).current = a.view.takePrevTask.current from rfl, hcurrent,
    Task.form_future hcoroutine] at hgo
  refine .tick (r := r) (by rw [hpc]; rfl) ?_ (.tick rfl ?_ (.now hrefines))
  · rw [State.tick, hpc]
    simp [State.schedule, hcurrent', hcoroutine, r]
  · have hrfuture : r.future r.view.current = (a.plan a.view.current).kont .future := by
      rw [show r.future = s.releasePrev.future from rfl, show r.view = s.releasePrev.view from rfl,
        hcurrent', s.releasePrev_eq.2.2.2.2.2.2.1, hfuture]
    show r.poll = some s'
    rw [← hgo]
    unfold State.poll
    rw [hrfuture]
    cases a.plan a.view.current <;> rfl

theorem Parked.replan {plan : Task → Plan} {p : Plan} (h : s.Parked kind plan) :
    s.Parked kind (Function.update plan s.view.current p) where
  resumes := by
    intro t ht hk hne hst
    rw [Function.update_of_ne hne]
    exact h.resumes t ht hk hne hst
  awaits := by
    intro t ht hk hne hst
    rw [Function.update_of_ne hne]
    exact h.awaits t ht hk hne hst
  bare := h.bare
  held := h.held
  stack := h.stack
  fresh := h.fresh

/-- The task `old` has left the CPU with the plan `p`, and `s'.view.current` has come. -/
theorem Parked.switched {plan : Task → Plan} {p : Plan} {old : Task} (h : s.Parked kind plan)
    (hold : s.view.current = old) (hne : s'.view.current ≠ old) (hcreated : s'.created = s.created)
    (hexited : ∀ t, t ≠ s'.view.current → s.view.state t = .exited → s'.view.state t = .exited)
    (hctx : ∀ t, t ≠ s'.view.current → t ≠ old → s'.ctx t = s.ctx t)
    (hfuture : ∀ t, t ≠ old → s'.future t = s.future t)
    (hkstack : ∀ t, t ≠ s'.view.current → t ≠ old → s'.kstack t = s.kstack t)
    (hthread : old.isCoroutine kind = false → s'.view.state old ≠ .exited →
      s'.ctx old = .resume (p.kont .thread))
    (hcoroutine : old.isCoroutine kind = true → s'.view.state old ≠ .exited →
      s'.future old = p.kont .future)
    (hbare : old.isCoroutine kind = true → s'.kstack old = none)
    (hheld : s'.view.current.isCoroutine kind = true → (s'.kstack s'.view.current).isSome)
    (hstack : ∀ t, t.isCoroutine kind = false → s'.kstack t = s.kstack t)
    (hfresh : ∀ t, s.created t = false → (s'.refs t).strong = 0) :
    s'.Parked kind (Function.update plan old p) where
  resumes := by
    intro t ht hk ht' hst
    by_cases hto : t = old
    · subst hto
      rw [Function.update_self]
      exact hthread hk hst
    · rw [Function.update_of_ne hto, hctx t ht' hto]
      refine h.resumes t (by rwa [hcreated] at ht) hk (by rwa [hold]) fun hold' => hst ?_
      exact hexited t ht' hold'
  awaits := by
    intro t ht hk ht' hst
    by_cases hto : t = old
    · subst hto
      rw [Function.update_self]
      exact hcoroutine hk hst
    · rw [Function.update_of_ne hto, hfuture t hto]
      refine h.awaits t (by rwa [hcreated] at ht) hk (by rwa [hold]) fun hold' => hst ?_
      exact hexited t ht' hold'
  bare := by
    intro t hk ht'
    by_cases hto : t = old
    · subst hto
      exact hbare hk
    · rw [hkstack t ht' hto]
      exact h.bare t hk (by rwa [hold])
  held := hheld
  stack := by
    intro n hn hthread
    rw [hstack _ (by simp [Task.isCoroutine, hthread])]
    exact h.stack n (by rwa [hcreated] at hn) hthread
  fresh := by
    rw [hcreated]
    exact hfresh

/-- A thread has its own stack. -/
theorem setKstack_thread {next : Task} (hthread : next.isCoroutine kind = false)
    (hstack : ∀ n, next = .user n → (s.kstack next).isSome) : s.setKstack kind next = some s := by
  unfold State.setKstack
  rw [if_neg]
  rintro ⟨hnone, hinit, hidle⟩
  cases next with
  | main => cases hinit
  | idle => cases hidle
  | user n => simpa [hnone] using hstack n rfl

/-- A coroutine is set up to start its loop on a stack from the pool or a new one. -/
theorem setKstack_coroutine {next : Task} (hcoroutine : next.isCoroutine kind = true)
    (hnone : s.kstack next = none) : ∃ stack pool allocated, s.setKstack kind next = some { s with
      pool := pool
      allocated := allocated
      kstack := Function.update s.kstack next (some stack)
      ctx := Function.update s.ctx next .schedule } := by
  obtain ⟨hinit, hidle⟩ := Task.isCoroutine_of_user hcoroutine
  obtain ⟨r, hr⟩ : ∃ r, s.setKstack kind next = some r := by
    simp [State.setKstack, hnone, hinit, hidle, hcoroutine]
  rcases State.setKstack_eq hr with ⟨-, hstack⟩ | ⟨-, -, stack, pool, allocated, -, rfl⟩
  · rcases hstack hnone with h | h
    · rw [hinit] at h
      cases h
    · rw [hidle] at h
      cases h
  · exact ⟨stack, pool, allocated, hr⟩

/-- A thread that has been made has its own stack. -/
theorem Parked.own {plan : Task → Plan} {n : ℕ} (h : s.Parked kind plan)
    (hcreated : s.created t = true)
    (hthread : t.isCoroutine kind = false) (hn : t = .user n) : (s.kstack t).isSome := by
  subst hn
  refine h.stack n hcreated ?_
  cases hkind : kind n with
  | thread => rfl
  | coroutine => simp [Task.isCoroutine, hkind] at hthread

theorem loadContext_resume {k : Kont} (h : s.ctx s.view.current = .resume k) :
    s.loadContext = some { s with pc := .resume k } := by
  simp only [State.loadContext, h]

theorem loadContext_schedule (h : s.ctx s.view.current = .schedule) :
    s.loadContext = some { s with pc := .loopTop } := by
  simp only [State.loadContext, h]

section Leave

variable {sch : σ} {next : Task} {p : Plan} {k : Kont}

/-- The scheduler has picked the current task. -/
theorem Matches.kept (h : s.Matches kind a) (hpicks : View.Picks B a.view sch next) {q : Pc}
    {r : Stop} : Matches kind { s with view := a.view.picked sch next, pc := q }
      { a with
        view := a.view.picked sch next
        plan := Function.update a.plan a.view.current p
        stop := r } := by
  have hkept := h.setView (v := a.view.picked sch next) (p := q) (q := a.stop) rfl
    fun t _ => (hpicks.calm.exited t).mpr
  exact ⟨rfl, hkept.created, hkept.spawned, hkept.handles, hkept.parked.replan⟩

section Switch

variable (hpicks : View.Picks B a.view sch next) (hne : next ≠ a.view.current)
include hpicks hne

/-- A thread that is switched to goes on with its plan. -/
theorem Matches.resumes (h : s.Matches kind a) (hmade : a.created next = true)
    (hnext : next.isCoroutine kind = false) :
    s.ctx next = .resume ((a.plan next).kont .thread) := by
  refine h.parked.resumes next ?_ hnext ?_ ?_
  · rw [h.created]
    exact hmade
  · rw [h.view]
    exact hne
  · rw [h.view, hpicks.ready]
    decide

/-- A coroutine that is switched to goes on with its plan. -/
theorem Matches.awaits (h : s.Matches kind a) (hmade : a.created next = true)
    (hnext : next.isCoroutine kind = true) : s.future next = (a.plan next).kont .future := by
  refine h.parked.awaits next ?_ hnext ?_ ?_
  · rw [h.created]
    exact hmade
  · rw [h.view]
    exact hne
  · rw [h.view, hpicks.ready]
    decide

/-- The current task has left the CPU, and the next one has come. -/
theorem Matches.left (h : s.Matches kind a)
    (hview : s'.view = (a.view.picked sch next).replaceCurrent next)
    (hcreated : s'.created = s.created)
    (hctx : ∀ t, t ≠ next → t ≠ a.view.current → s'.ctx t = s.ctx t)
    (hfuture : ∀ t, t ≠ a.view.current → s'.future t = s.future t)
    (hkstack : ∀ t, t ≠ next → t ≠ a.view.current → s'.kstack t = s.kstack t)
    (hthread : a.view.current.isCoroutine kind = false →
      a.view.state a.view.current ≠ .exited → s'.ctx a.view.current = .resume (p.kont .thread))
    (hcoroutine : a.view.current.isCoroutine kind = true →
      a.view.state a.view.current ≠ .exited → s'.future a.view.current = p.kont .future)
    (hbare : a.view.current.isCoroutine kind = true → s'.kstack a.view.current = none)
    (hheld : next.isCoroutine kind = true → (s'.kstack next).isSome)
    (hstack : ∀ t, t.isCoroutine kind = false → s'.kstack t = s.kstack t)
    (hfresh : ∀ t, s.created t = false → (s'.refs t).strong = 0) :
    s'.Parked kind (Function.update a.plan a.view.current p) := by
  have hcurrent : s'.view.current = next := by rw [hview]; rfl
  have hexited : ∀ t, a.view.state t = .exited → s'.view.state t = .exited := by
    intro t ht
    rw [hview]
    exact (hpicks.calm.exited t).mpr ht
  refine h.parked.switched (by rw [h.view]) ?_ hcreated (fun t _ ht => ?_) ?_ hfuture ?_
    (fun hk hst => hthread hk fun ht => hst (hexited _ ht))
    (fun hk hst => hcoroutine hk fun ht => hst (hexited _ ht)) hbare ?_ hstack hfresh
  · rwa [hcurrent]
  · exact hexited t (by rwa [← h.view])
  · rwa [hcurrent]
  · rwa [hcurrent]
  · rwa [hcurrent]

/-- From a thread to a thread. -/
theorem Matches.threadToThread (h : s.Matches kind a)
    (hthread : a.view.current.isCoroutine kind = false)
    (hnext : next.isCoroutine kind = false) (hmade : a.created next = true)
    (hk : a.view.state a.view.current ≠ .exited → k = p.kont .thread) :
    ∃ s', (State.switched { s with view := a.view.picked sch next } next k).loadContext = some s' ∧
      s'.Settles kind B (·.Refines kind (Common.arrive { a with
        view := (a.view.picked sch next).replaceCurrent next
        plan := Function.update a.plan a.view.current p })) := by
  let s' : State σ := { s with
    view := (a.view.picked sch next).replaceCurrent next
    ctx := Function.update s.ctx a.view.current (.resume k)
    pc := .resume ((a.plan next).kont .thread) }
  refine ⟨s', ?_, Matches.resume ⟨rfl, h.created, h.spawned, h.handles, ?_⟩ hnext ?_⟩
  · refine State.loadContext_resume (s := State.switched _ next k) ?_
    show Function.update s.ctx a.view.current (.resume k) next = _
    rw [Function.update_of_ne hne]
    exact h.resumes hpicks hne hmade hnext
  · refine h.left hpicks hne rfl rfl (fun t _ ht => Function.update_of_ne ht _ _) (fun _ _ => rfl)
      (fun _ _ _ => rfl) (fun _ hst => ?_) (fun hc => ?_) (fun hc => ?_) (fun hc => ?_)
        (fun _ _ => rfl)
      h.parked.fresh
    · rw [← hk hst]
      exact Function.update_self ..
    · rw [hthread] at hc
      cases hc
    · rw [hthread] at hc
      cases hc
    · rw [hnext] at hc
      cases hc
  · show s'.pc = .resume ((Function.update a.plan a.view.current p next).kont .thread)
    rw [Function.update_of_ne hne]

/-- From a thread to a coroutine, which gets a stack for its loop. -/
theorem Matches.threadToCoroutine {stack : ℕ} {pool : List ℕ} {allocated : ℕ}
    (h : s.Matches kind a) (hthread : a.view.current.isCoroutine kind = false)
    (hnext : next.isCoroutine kind = true) (hmade : a.created next = true)
    (hk : a.view.state a.view.current ≠ .exited → k = p.kont .thread) :
    ∃ s', (State.switched { s with
        view := a.view.picked sch next
        pool := pool
        allocated := allocated
        kstack := Function.update s.kstack next (some stack)
        ctx := Function.update s.ctx next .schedule } next k).loadContext = some s' ∧
      s'.Settles kind B (·.Refines kind (Common.arrive { a with
        view := (a.view.picked sch next).replaceCurrent next
        plan := Function.update a.plan a.view.current p })) := by
  let s' : State σ := { s with
    view := (a.view.picked sch next).replaceCurrent next
    pool := pool
    allocated := allocated
    kstack := Function.update s.kstack next (some stack)
    ctx := Function.update (Function.update s.ctx next .schedule) a.view.current (.resume k)
    pc := .loopTop }
  refine ⟨s', ?_, Matches.loopTop ⟨rfl, h.created, h.spawned, h.handles, ?_⟩ hnext hmade rfl ?_⟩
  · refine State.loadContext_schedule (s := State.switched _ next k) ?_
    show Function.update (Function.update s.ctx next .schedule) a.view.current (.resume k) next = _
    rw [Function.update_of_ne hne, Function.update_self]
  · refine h.left hpicks hne rfl rfl (fun t htn ht => ?_) (fun _ _ => rfl) (fun t htn _ => ?_)
      (fun _ hst => ?_) (fun hc => ?_) (fun hc => ?_) (fun _ => ?_) (fun t ht => ?_) h.parked.fresh
    · simp [s', ht, htn]
    · exact Function.update_of_ne htn _ _
    · rw [← hk hst]
      exact Function.update_self ..
    · rw [hthread] at hc
      cases hc
    · rw [hthread] at hc
      cases hc
    · simp [s']
    · refine Function.update_of_ne ?_ _ _
      rintro rfl
      rw [hnext] at ht
      cases ht
  · show s.future next = (Function.update a.plan a.view.current p next).kont .future
    rw [Function.update_of_ne hne]
    exact h.awaits hpicks hne hmade hnext

end Switch

/-- A thread calls `resched` with another form of its plan as what follows. -/
theorem Matches.resched {v : View σ} {b : Bool} (h : s.Matches kind a)
    (hthread : a.view.current.isCoroutine kind = false)
    (hk : a.view.state a.view.current ≠ .exited → k = p.kont .thread)
    (hcreated : a.created v.current = true) (hresched : a.view.reschedF B = some (v, b)) :
    ∃ s', s.resched kind B k = some s' ∧ s'.Settles kind B
      (·.Refines kind (Common.arrive
        { a with view := v, plan := Function.update a.plan a.view.current p })) := by
  obtain ⟨⟨v₁, next⟩, hpick, hpair⟩ := Option.map_eq_some_iff.mp hresched
  obtain ⟨sch, hpicks, rfl⟩ := View.pickNextTask_eq hpick
  by_cases hsame : a.view.current = next
  · obtain ⟨rfl, -⟩ : a.view.picked sch next = v ∧ false = b := by
      simpa [View.picked, View.setState, hsame] using hpair
    have hkont : k = p.kont .thread := hk (by rw [hsame, hpicks.ready]; decide)
    refine ⟨{ s with view := a.view.picked sch next, pc := .resume k }, ?_,
      (h.kept (p := p) (r := a.stop) hpicks).resume hthread ?_⟩
    · simp [State.resched, h.view, hpick, State.switchTo, View.setState, View.picked, hsame]
    · simp [hkont, View.picked, View.setState]
  obtain ⟨rfl, -⟩ : (a.view.picked sch next).replaceCurrent next = v ∧ true = b := by
    simpa [View.picked, View.setState, hsame] using hpair
  have hne : next ≠ a.view.current := Ne.symm hsame
  have hrun : ∀ s₁, State.setKstack { s with view := a.view.picked sch next } kind next = some s₁ →
      s.resched kind B k = (s₁.switched next k).loadContext := by
    intro s₁ hset
    unfold State.resched
    rw [h.view, hpick]
    show (if a.view.current = next then _ else
      (State.setKstack { s with view := a.view.picked sch next } kind next).bind _) = _
    rw [if_neg hsame, hset]
    rfl
  cases hnext : next.isCoroutine kind with
  | false =>
      have hset : State.setKstack { s with view := a.view.picked sch next } kind next =
          some { s with view := a.view.picked sch next } :=
        setKstack_thread hnext fun n hn => h.parked.own (by rw [h.created]; exact hcreated) hnext hn
      rw [hrun _ hset]
      exact h.threadToThread hpicks hne hthread hnext hcreated hk
  | true =>
      obtain ⟨stack, pool, allocated, hset⟩ := setKstack_coroutine
        (s := { s with view := a.view.picked sch next }) hnext
        (h.parked.bare next hnext (by rw [h.view]; exact hne))
      rw [hrun _ hset]
      exact h.threadToCoroutine hpicks hne hthread hnext hcreated hk

section HandOver

variable {n : ℕ} (hpicks : View.Picks B a.view sch next) (hne : next ≠ a.view.current)
include hpicks hne

/-- From a coroutine to a thread, whose context is loaded. -/
theorem Matches.coroutineToThread (h : s.Matches kind a)
    (hcoroutine : a.view.current.isCoroutine kind = true)
    (hnext : next.isCoroutine kind = false) (hmade : a.created next = true)
    (hk : a.view.state a.view.current ≠ .exited → k = p.kont .future) :
    ∃ s', State.handOver { s with
        view := (a.view.picked sch next).replaceCurrent next
        future := Function.update s.future a.view.current k
        kstack := Function.update s.kstack a.view.current none
        pc := .handOver a.view.current n } a.view.current n = some s' ∧
      s'.Settles kind B (·.Refines kind (Common.arrive { a with
        view := (a.view.picked sch next).replaceCurrent next
        plan := Function.update a.plan a.view.current p })) := by
  have hown : ∀ t, t.isCoroutine kind = false →
      Function.update s.kstack a.view.current none t = s.kstack t := by
    intro t ht
    refine Function.update_of_ne ?_ _ _
    rintro rfl
    rw [hcoroutine] at ht
    cases ht
  let s' : State σ := { s with
    view := (a.view.picked sch next).replaceCurrent next
    future := Function.update s.future a.view.current k
    kstack := Function.update s.kstack a.view.current none
    pool := n :: s.pool
    ctx := Function.update s.ctx a.view.current .dead
    pc := .resume ((a.plan next).kont .thread) }
  have hno : ¬ (Function.update s.kstack a.view.current none next = none ∧ next.isInit = false ∧
      next.isIdle = false) := by
    rintro ⟨hnone, hinit, hidle⟩
    rw [hown next hnext] at hnone
    cases hn : next with
    | main => simp [hn, Task.isInit] at hinit
    | idle => simp [hn, Task.isIdle] at hidle
    | user m =>
        have hsome := h.parked.own (by rw [h.created]; exact hmade) hnext hn
        rw [hnone] at hsome
        cases hsome
  refine ⟨s', ?_, Matches.resume ⟨rfl, h.created, h.spawned, h.handles, ?_⟩ hnext ?_⟩
  · refine (if_neg hno).trans (State.loadContext_resume ?_)
    show Function.update s.ctx a.view.current .dead next = _
    rw [Function.update_of_ne hne]
    exact h.resumes hpicks hne hmade hnext
  · refine h.left hpicks hne rfl rfl (fun t _ ht => Function.update_of_ne ht _ _)
      (fun t ht => Function.update_of_ne ht _ _) (fun t _ ht => Function.update_of_ne ht _ _)
      (fun hc => ?_) (fun _ hst => ?_) (fun _ => Function.update_self ..) (fun hc => ?_) hown
      h.parked.fresh
    · rw [hcoroutine] at hc
      cases hc
    · rw [← hk hst]
      exact Function.update_self ..
    · rw [hnext] at hc
      cases hc
  · show s'.pc = .resume ((Function.update a.plan a.view.current p next).kont .thread)
    rw [Function.update_of_ne hne]

/-- From a coroutine to a coroutine, which gets its stack. -/
theorem Matches.coroutineToCoroutine (h : s.Matches kind a)
    (hcoroutine : a.view.current.isCoroutine kind = true)
    (hnext : next.isCoroutine kind = true) (hmade : a.created next = true)
    (hk : a.view.state a.view.current ≠ .exited → k = p.kont .future) :
    ∃ s', State.handOver { s with
        view := (a.view.picked sch next).replaceCurrent next
        future := Function.update s.future a.view.current k
        kstack := Function.update s.kstack a.view.current none
        pc := .handOver a.view.current n } a.view.current n = some s' ∧
      s'.Settles kind B (·.Refines kind (Common.arrive { a with
        view := (a.view.picked sch next).replaceCurrent next
        plan := Function.update a.plan a.view.current p })) := by
  obtain ⟨hinit, hidle⟩ := Task.isCoroutine_of_user hnext
  have hnone : Function.update s.kstack a.view.current none next = none := by
    rw [Function.update_of_ne hne]
    exact h.parked.bare next hnext (by rw [h.view]; exact hne)
  let s' : State σ := { s.decStrong a.view.current with
    view := (a.view.picked sch next).replaceCurrent next
    future := Function.update s.future a.view.current k
    kstack := Function.update (Function.update s.kstack a.view.current none) next (some n)
    pc := .loopTop }
  have hrefs : ∀ t, (s'.refs t).handles = (s.refs t).handles ∧
      ((s.refs t).strong = 0 → (s'.refs t).strong = 0) := by
    intro t
    by_cases ht : t = a.view.current
    · subst ht
      refine ⟨?_, fun hzero => ?_⟩ <;> simp [s', State.decStrong, State.setRefs]
      simp [hzero]
    · simp [s', State.decStrong, State.setRefs, ht]
  refine ⟨s', if_pos ⟨hnone, hinit, hidle⟩, Matches.loopTop
    ⟨rfl, h.created, h.spawned, fun t => ?_, ?_⟩
    hnext hmade rfl ?_⟩
  · rw [(hrefs t).1, h.handles]
  · refine h.left hpicks hne rfl rfl (fun _ _ _ => rfl) (fun t ht => Function.update_of_ne ht _ _)
      (fun t htn ht => ?_) (fun hc => ?_) (fun _ hst => ?_) (fun _ => ?_) (fun _ => ?_)
        (fun t ht => ?_)
      fun t ht => (hrefs t).2 (h.parked.fresh t ht)
    · simp [s', htn, ht]
    · rw [hcoroutine] at hc
      cases hc
    · rw [← hk hst]
      exact Function.update_self ..
    · simp [s', hne.symm]
    · simp [s']
    · have htn : t ≠ next := by
        rintro rfl
        rw [hnext] at ht
        cases ht
      have hto : t ≠ a.view.current := by
        rintro rfl
        rw [hcoroutine] at ht
        cases ht
      simp [s', htn, hto]
  · show Function.update s.future a.view.current k next =
      (Function.update a.plan a.view.current p next).kont .future
    rw [Function.update_of_ne hne, Function.update_of_ne hne]
    exact h.awaits hpicks hne hmade hnext

end HandOver

/-- A coroutine calls `resched_f`: it stays, or its loop hands the CPU over. -/
theorem Matches.reschedFuture {v : View σ} {b : Bool} (h : s.Matches kind a)
    (hcoroutine : a.view.current.isCoroutine kind = true)
    (hstopped : a.view.state a.view.current ≠ .running) (hslot : a.view.prevTask = none)
    (hk : a.view.state a.view.current ≠ .exited → k = p.kont .future)
    (hcreated : a.created v.current = true) (hresched : a.view.reschedF B = some (v, b)) :
    ∃ s', s.reschedFuture B k = some s' ∧ s'.Settles kind B
      (·.Refines kind (Common.arrive
        { a with view := v, plan := Function.update a.plan a.view.current p })) := by
  obtain ⟨sch, next, hpicks, hcase⟩ := View.reschedF_eq hresched
  rcases hcase with ⟨hsame, rfl, rfl⟩ | ⟨hsame, rfl, rfl⟩
  · have hkont : k = p.kont .future := hk (by rw [hsame, hpicks.ready]; decide)
    have hkept := h.kept (p := p) (q := s.pc) (r := .user) hpicks
    obtain ⟨s', hgo, hrefines⟩ := hkept.goOn p
    refine ⟨s', ?_, .now ?_⟩
    · simp only [State.reschedFuture, h.view, hresched, Option.bind_some, hkont]
      rw [← Task.form_future hcoroutine]
      exact hgo
    · have htaken : (a.view.picked sch next).takePrevTask = a.view.picked sch next := by
        unfold View.takePrevTask
        rw [show (a.view.picked sch next).prevTask = none from hslot]
      show Refines kind s' (Common.goOn { a with
        view := (a.view.picked sch next).takePrevTask
        plan := Function.update a.plan a.view.current p
        stop := .user } (Function.update a.plan a.view.current p a.view.current))
      rw [htaken, Function.update_self]
      exact hrefines
  have hne : next ≠ a.view.current := Ne.symm hsame
  obtain ⟨stack, hstack⟩ : ∃ stack, s.kstack a.view.current = some stack := by
    have hheld := h.parked.held
    rw [h.view] at hheld
    exact Option.isSome_iff_exists.mp (hheld hcoroutine)
  let w : View σ := (a.view.picked sch next).replaceCurrent next
  let s₁ : State σ := { s with
    view := w
    future := Function.update s.future a.view.current k
    pc := .polled a.view.current }
  have hrun : s.reschedFuture B k = some s₁ := by
    simp [State.reschedFuture, h.view, hresched, s₁, w]
  have hstill : w.isRunning a.view.current = false := by
    have hstate : w.state a.view.current = a.view.state a.view.current := by
      simp [w, View.replaceCurrent, View.picked, View.setState, hsame]
    simp [View.isRunning, hstate, hstopped]
  have htake : s₁.takeStack B a.view.current = some { s₁ with
      kstack := Function.update s.kstack a.view.current none
      pc := .handOver a.view.current stack } := by
    simp [State.takeStack, s₁, hstill, hstack]
  refine ⟨s₁, hrun, .tick rfl htake ?_⟩
  cases hnext : next.isCoroutine kind with
  | false =>
      obtain ⟨s', hhand, hsettles⟩ := h.coroutineToThread (n := stack) hpicks hne hcoroutine hnext
        hcreated hk
      exact .tick rfl hhand hsettles
  | true =>
      obtain ⟨s', hhand, hsettles⟩ := h.coroutineToCoroutine (n := stack) hpicks hne hcoroutine
        hnext hcreated hk
      exact .tick rfl hhand hsettles

/-- Rescheduling in the form of the current task. -/
theorem Matches.reschedule (h : s.Matches kind a)
    (hstopped : a.view.state a.view.current ≠ .running)
    (hslot : a.view.prevTask = none ∨ a.view.prevTask = some .main ∧ a.view.current = .main)
    (hk : a.view.state a.view.current ≠ .exited → k = p.kont (a.view.current.form kind))
    (hresched : a.resched B p = some a') (hcreated : a'.created a'.view.current = true) :
    ∃ s', s.reschedule kind B (a.view.current.form kind) k = some s' ∧
      s'.Settles kind B (·.Refines kind a') := by
  obtain ⟨⟨v, b⟩, hpick, rfl⟩ := Option.map_eq_some_iff.mp hresched
  have hmade : a.created v.current = true := by
    rw [Common.arrive, Common.goOn_created, Common.goOn_current] at hcreated
    rwa [← (View.takePrevTask_eq v).1]
  cases hkind : a.view.current.isCoroutine kind with
  | false =>
      rw [Task.form_thread hkind] at hk ⊢
      exact h.resched hkind hk hmade hpick
  | true =>
      rw [Task.form_future hkind] at hk ⊢
      have hnone : a.view.prevTask = none := by
        refine hslot.resolve_right fun hmain => ?_
        rw [hmain.2] at hkind
        cases hkind
      exact h.reschedFuture hkind hstopped hnone hk hmade hpick

end Leave

/-- The CPU stays where it is. -/
theorem Refines.quiet {v : View σ} (h : s.Refines kind a) (hquiet : a.view.Quiet v) :
    Refines kind { s with view := v } { a with view := v } := by
  refine ⟨h.setView (p := s.pc) (q := a.stop) hquiet.current fun t _ ht => (hquiet.exited t).mpr ht,
    ?_⟩
  show s.pc = a.stop.pc (v.current.form kind)
  rw [hquiet.current]
  exact h.pc

/-- The current task has stopped in a call and gives the CPU away. -/
theorem Refines.stopped {v : View σ} {p : Plan} (h : s.Refines kind a) (hv : a.view.Stops v)
    (hslot : a.view.prevTask = none ∨ a.view.prevTask = some .main ∧ a.view.current = .main)
    (hresched : Common.resched { a with view := v } B p = some a')
    (hcreated : a'.created a'.view.current = true) :
    ∃ s', State.reschedule { s with view := v } kind B (a.view.current.form kind)
        (p.kont (a.view.current.form kind)) = some s' ∧
      s'.Settles kind B (·.Refines kind a') := by
  have hmatches := h.setView (v := v) (p := s.pc) (q := a.stop) hv.current
    fun t _ ht => (hv.exited t).mpr ht
  have hcurrent : (Common.view { a with view := v }).current = a.view.current := hv.current
  rw [← hcurrent]
  refine Matches.reschedule (a := { a with view := v }) hmatches ?_ ?_
    (fun _ => rfl) hresched hcreated
  · intro hrunning
    exact (hv.stopped _ hrunning).2 hv.current
  · show v.prevTask = none ∨ v.prevTask = some .main ∧ v.current = .main
    rw [hv.prevTask, hv.current]
    exact hslot

theorem Refines.block {w : Wait} (h : s.Refines kind a)
    (hslot : a.view.prevTask = none ∨ a.view.prevTask = some .main ∧ a.view.current = .main)
    (hblock : a.block B w = some a') (hcreated : a'.created a'.view.current = true) :
    ∃ s', s.blockedResched kind B (a.view.current.form kind) w = some s' ∧
      s'.Settles kind B (·.Refines kind a') := by
  obtain ⟨v, hv, hresched⟩ := Option.bind_eq_some_iff.mp hblock
  obtain ⟨s', hrun, hsettles⟩ := h.stopped (View.blockCurrent_stops hv) hslot hresched hcreated
  refine ⟨s', ?_, hsettles⟩
  rw [State.blockedResched, h.view, hv]
  exact hrun

/-- A new task starts with its own code. -/
theorem Parked.new {plan : Task → Plan} (h : s.Parked kind plan) (n : ℕ) :
    (s.new kind n).Parked kind (Function.update plan (.user n) .user) := by
  have hcreated : ∀ t, t ≠ .user n → (s.new kind n).created t = s.created t := by
    intro t ht
    unfold State.new
    cases kind n <;> simp [ht]
  have hctx : ∀ t, t ≠ .user n → (s.new kind n).ctx t = s.ctx t := by
    intro t ht
    unfold State.new
    cases kind n <;> simp [ht, setRefs]
  have hfuture : ∀ t, t ≠ .user n → (s.new kind n).future t = s.future t := by
    intro t ht
    unfold State.new
    cases kind n <;> simp [ht, setRefs]
  have hkstack : ∀ t, t.isCoroutine kind = true ∨ t ≠ .user n →
      (s.new kind n).kstack t = s.kstack t := by
    intro t ht
    unfold State.new
    cases hn : kind n with
    | coroutine => rfl
    | thread =>
        have hne : t ≠ .user n := by
          refine ht.elim (fun hk => ?_) id
          rintro rfl
          simp [Task.isCoroutine, hn] at hk
        simp [hne, setRefs]
  have hview : (s.new kind n).view = s.view := by
    unfold State.new
    cases kind n <;> rfl
  refine ⟨fun t ht hk hne hst => ?_, fun t ht hk hne hst => ?_, fun t hk hne => ?_, fun hk => ?_,
    fun m hm hthread => ?_, fun t ht => ?_⟩
  · rw [hview] at hne hst
    by_cases htn : t = .user n
    · subst htn
      have hthread : kind n = .thread := by
        cases hn : kind n with
        | thread => rfl
        | coroutine => simp [Task.isCoroutine, hn] at hk
      simp [State.new, hthread, Plan.kont]
    · rw [Function.update_of_ne htn, hctx t htn]
      exact h.resumes t (by rwa [hcreated t htn] at ht) hk hne hst
  · rw [hview] at hne hst
    by_cases htn : t = .user n
    · subst htn
      have hcoroutine : kind n = .coroutine := by simpa [Task.isCoroutine] using hk
      simp [State.new, hcoroutine, Plan.kont]
    · rw [Function.update_of_ne htn, hfuture t htn]
      exact h.awaits t (by rwa [hcreated t htn] at ht) hk hne hst
  · rw [hkstack t (.inl hk)]
    exact h.bare t hk (by rwa [hview] at hne)
  · rw [hview] at hk ⊢
    rw [hkstack _ (.inl hk)]
    exact h.held hk
  · by_cases hmn : m = n
    · subst hmn
      simp [State.new, hthread]
    · have hne : Task.user m ≠ .user n := by simpa using hmn
      rw [hkstack _ (.inr hne)]
      exact h.stack m (by rwa [hcreated _ hne] at hm) hthread
  · have htn : t ≠ .user n := by
      rintro rfl
      unfold State.new at ht
      cases hn : kind n <;> simp [hn] at ht
    have hrefs : (s.new kind n).refs t = s.refs t := by
      unfold State.new
      cases kind n <;> simp [setRefs, htn]
    rw [hrefs]
    exact h.fresh t (by rwa [hcreated t htn] at ht)

theorem Refines.new (h : s.Refines kind a) (n : ℕ) : (s.new kind n).Refines kind (a.new n) := by
  have hsame : (s.new kind n).view = s.view ∧
      (s.new kind n).created = Function.update s.created (.user n) true ∧
      (s.new kind n).spawned = s.spawned ∧ (s.new kind n).pc = s.pc ∧
      (s.new kind n).refs = Function.update s.refs (.user n) ⟨1, 1, 0, false⟩ := by
    unfold State.new
    cases kind n <;> exact ⟨rfl, rfl, rfl, rfl, rfl⟩
  obtain ⟨hview, hcreated, hspawned, hpc, hrefs⟩ := hsame
  refine ⟨⟨hview.trans h.view, ?_, hspawned.trans h.spawned, fun t => ?_, h.parked.new n⟩,
    hpc.trans h.pc⟩
  · rw [hcreated, h.created]
    rfl
  · rw [hrefs]
    show _ = Function.update a.handles (.user n) 1 t
    by_cases htn : t = .user n
    · simp [htn]
    · rw [Function.update_of_ne htn, Function.update_of_ne htn]
      exact h.handles t

theorem Refines.spawn {n : ℕ} (h : s.Refines kind a) (hspawn : a.spawn B n = some a')
    (hcreated : a.created (.user n) = true) :
    ∃ s', s.spawn B n = some s' ∧ s'.Refines kind a' := by
  obtain ⟨v, hadd, rfl⟩ := Option.map_eq_some_iff.mp hspawn
  have hquiet := View.addTask_quiet hadd
  refine ⟨{ s.setRefs (.user n) { s.refs (.user n) with
      handles := (s.refs (.user n)).handles - 1 } with
      view := v
      spawned := s.spawned ++ [.user n] }, by simp [State.spawn, h.view, hadd],
        ⟨⟨rfl, h.created, ?_,
    fun t => ?_, ?_⟩, ?_⟩⟩
  · show s.spawned ++ _ = _
    rw [h.spawned]
  · show (Function.update s.refs (.user n) _ t).handles = Function.update a.handles (.user n) _ t
    by_cases htn : t = .user n
    · subst htn
      simp [h.handles]
    · rw [Function.update_of_ne htn, Function.update_of_ne htn]
      exact h.handles t
  · refine h.parked.same rfl rfl rfl rfl ?_ (fun t ht _ => ?_) fun t ht => ?_
    · rw [h.view]
      exact hquiet.current
    · rw [h.view]
      exact fun hold => ht ((hquiet.exited t).mpr hold)
    · have htn : t ≠ .user n := by
        rintro rfl
        rw [h.created, hcreated] at ht
        cases ht
      show (Function.update s.refs (.user n) _ t).strong = 0
      rw [Function.update_of_ne htn]
      exact h.parked.fresh t ht
  · show s.pc = a.stop.pc (v.current.form kind)
    rw [hquiet.current]
    exact h.pc

theorem Refines.exit {e : ℤ} (h : s.Refines kind a) (hexit : a.exit e = some a') :
    ∃ s', s.exit (a.view.current.form kind) e = some s' ∧ s'.Refines kind a' := by
  simp only [Common.exit] at hexit
  split_ifs at hexit with hcond hinit
  · obtain rfl := Option.some.inj hexit
    have hform : a.view.current.form kind = .thread := by
      refine Task.form_thread ?_
      cases hcurrent : a.view.current with
      | user n => simp [hcurrent, Task.isInit] at hinit
      | _ => rfl
    refine ⟨{ s with pc := .halted }, ?_, h.goto (q := .halted)⟩
    simp [State.exit, h.view, hcond, hinit, hform]
  · obtain rfl := Option.some.inj hexit
    have hno : ¬ (a.view.current.form kind = .thread ∧ a.view.current.isInit = true) :=
      fun hno => hinit hno.2
    let v : View σ :=
      { a.view.setState a.view.current .exited with
        exitCode := Function.update a.view.exitCode a.view.current e }
    refine ⟨{ s with
      view := v
      pc := .notifyAll (.exit a.view.current) false (some (a.view.current.form kind)) }, ?_, ?_⟩
    · simp only [State.exit, h.view, hcond, if_true, if_neg hno, v]
    · refine h.refines (v := v) (q := .notifying (.exit a.view.current) false true) rfl
        fun t hne ht => ?_
      simpa [v, View.setState, hne] using ht

theorem Refines.call {o : Op} (h : s.Refines kind a)
    (hslot : a.view.prevTask = none ∨ a.view.prevTask = some .main ∧ a.view.current = .main)
    (hmay : a.MayCall o) (hcall : a.call B o = some a')
    (hcreated : a'.created a'.view.current = true) :
    ∃ s', s.perform kind B (o.act (a.view.current.form kind)) = some s' ∧
      s'.Settles kind B (·.Refines kind a') := by
  obtain ⟨-, hholds⟩ := hmay
  cases o with
  | yield =>
      obtain ⟨v, hv, hresched⟩ := Option.bind_eq_some_iff.mp hcall
      obtain ⟨s', hrun, hsettles⟩ := h.stopped (View.yieldCurrent_stops hv) hslot hresched hcreated
      refine ⟨s', ?_, hsettles⟩
      show s.yieldNow kind B (a.view.current.form kind) = some s'
      rw [State.yieldNow, h.view, hv]
      exact hrun
  | wait w =>
      cases hcond : w.cond with
      | none =>
          simp only [Common.call, hcond] at hcall
          obtain ⟨s', hrun, hsettles⟩ := h.block hslot hcall hcreated
          exact ⟨s', by simp [Op.act, State.perform, State.wait, hcond, hrun], hsettles⟩
      | some c =>
          simp only [Common.call, hcond, Option.some.injEq] at hcall
          subst hcall
          refine ⟨_, ?_, .now (h.goto (q := .condition w))⟩
          simp [Op.act, State.perform, State.wait, hcond, Stop.pc]
  | notifyOne q resched =>
      obtain ⟨⟨v, b⟩, hv, rfl⟩ := Option.map_eq_some_iff.mp hcall
      have hquiet : a.view.Quiet (v.setResult (if b then 1 else 0)) :=
        (View.notifyOne_quiet hv).trans (.of_eq rfl rfl rfl)
      exact ⟨{ s with view := v.setResult (if b then 1 else 0) },
        by simp [Op.act, State.perform, h.view, hv], .now (h.quiet hquiet)⟩
  | notifyAll q resched =>
      obtain rfl := Option.some.inj hcall
      exact ⟨_, rfl, .now (h.goto (q := .notifying q resched false))⟩
  | new n =>
      obtain rfl := Option.some.inj hcall
      exact ⟨_, rfl, .now (h.new n)⟩
  | spawn n =>
      obtain ⟨s', hrun, hrefines⟩ := h.spawn hcall hholds.1
      exact ⟨s', hrun, .now hrefines⟩
  | exit e =>
      obtain ⟨s', hrun, hrefines⟩ := h.exit hcall
      exact ⟨s', hrun, .now hrefines⟩

theorem Refines.checked {w : Wait} {b : Bool} (h : s.Refines kind a)
    (hslot : a.view.prevTask = none ∨ a.view.prevTask = some .main ∧ a.view.current = .main)
    (hchecked : a.checked B w b = some a') (hcreated : a'.created a'.view.current = true) :
    ∃ s', s.checked kind B (a.view.current.form kind) w b = some s' ∧
      s'.Settles kind B (·.Refines kind a') := by
  unfold Common.checked at hchecked
  split_ifs at hchecked with hb
  · obtain rfl := Option.some.inj hchecked
    have hquiet : a.view.Quiet ((a.view.cancelEvents w.queue).returned w) :=
      (View.cancelEvents_quiet _ _).trans (View.returned_quiet _ w)
    refine ⟨_, ?_, .now (h.refines (q := .user) hquiet.current fun t _ ht =>
      (hquiet.exited t).mpr ht)⟩
    simp only [State.checked, hb, if_true, h.view, Stop.pc]
  · obtain ⟨s', hrun, hsettles⟩ := h.block hslot hchecked hcreated
    exact ⟨s', by simp [State.checked, hb, hrun], hsettles⟩

theorem Refines.notifyRound {q : QueueId} {resched exits : Bool} (h : s.Refines kind a)
    (hslot : a.view.prevTask = none ∨ a.view.prevTask = some .main ∧ a.view.current = .main)
    (hexited : exits = true → a.view.state a.view.current = .exited)
    (hround : a.notifyRound B q resched exits = some a')
    (hcreated : a'.created a'.view.current = true) :
    ∃ s', s.notifyRound kind B q resched
        (if exits then some (a.view.current.form kind) else none) = some s' ∧
      s'.Settles kind B (·.Refines kind a') := by
  obtain ⟨⟨v, b⟩, hv, hgo⟩ := Option.bind_eq_some_iff.mp hround
  have hquiet := View.notifyOne_quiet hv
  have hrefines := h.quiet hquiet
  cases b with
  | true =>
      obtain rfl := Option.some.inj hgo
      exact ⟨{ s with view := v }, by simp [State.notifyRound, h.view, hv], .now hrefines⟩
  | false =>
      cases exits with
      | false =>
          obtain rfl := Option.some.inj hgo
          refine ⟨_, by simp only [State.notifyRound, h.view, hv, Option.bind_some]; rfl, .now ?_⟩
          exact hrefines.goto (q := .user)
      | true =>
          have hstate : v.state v.current = .exited := by
            rw [hquiet.current, hquiet.exited]
            exact hexited rfl
          have hresched : Common.resched { a with view := v } B .user = some a' := hgo
          obtain ⟨s', hrun, hsettles⟩ := Matches.reschedule (a := { a with view := v })
            (k := .exiting (v.exitCode v.current)) hrefines.toMatches (by
              show v.state v.current ≠ .running
              rw [hstate]
              decide) (by
              show v.prevTask = none ∨ v.prevTask = some .main ∧ v.current = .main
              rw [hquiet.prevTask, hquiet.current]
              exact hslot) (fun hno => absurd hstate hno) hresched hcreated
          refine ⟨s', ?_, hsettles⟩
          simp only [State.notifyRound, h.view, hv, Option.bind_some, if_true, Bool.false_eq_true,
            if_false]
          rw [← hquiet.current]
          exact hrun

/-- Whatever happens next, the kernel comes to where the common model goes to. -/
theorem Refines.perform {queue : σ → List Task} {I : σ → Prop} {x : Next} (h : s.Refines kind a)
    (hmade : a.Made queue I) (he : a.Enabled x) (hperform : a.perform B x = some a')
    (hcreated : a'.created a'.view.current = true) :
    ∃ s', s.perform kind B (x.act (a.view.current.form kind)) = some s' ∧
      s'.Settles kind B (·.Refines kind a') := by
  unfold Common.Enabled at he
  unfold Common.perform at hperform
  split at he
  · rename_i o hstop
    rw [hstop] at hperform
    exact h.call hmade.slot he hperform hcreated
  · rename_i w b hstop
    rw [hstop] at hperform
    obtain ⟨s', hrun, hsettles⟩ := h.checked hmade.slot hperform hcreated
    have hpc : s.pc = .condition (a.view.current.form kind) w := by rw [h.pc, hstop]; rfl
    refine ⟨s', ?_, hsettles⟩
    simp only [Next.act, State.perform, hpc]
    exact hrun
  · rename_i q resched exits hstop
    rw [hstop] at hperform
    obtain ⟨s', hrun, hsettles⟩ := h.notifyRound hmade.slot
      (fun hexits => hmade.exited (by rw [hstop]; exact hexits)) hperform hcreated
    have hpc : s.pc = .notifyAll q resched
        (if exits then some (a.view.current.form kind) else none) := by
      rw [h.pc, hstop]
      rfl
    refine ⟨s', ?_, hsettles⟩
    simp only [Next.act, State.perform, State.tick, hpc]
    exact hrun
  · exact he.elim

/-- Rescheduling in either form looks for the next task. -/
theorem reschedule_some {f : Form} {k : Kont} (h : s.reschedule kind B f k = some s') :
    ∃ r, s.view.reschedF B = some r := by
  cases f with
  | thread =>
      obtain ⟨r, hpick, -⟩ := Option.bind_eq_some_iff.mp h
      exact ⟨_, Option.map_eq_some_iff.mpr ⟨r, hpick, rfl⟩⟩
  | future =>
      obtain ⟨r, hresched, -⟩ := Option.bind_eq_some_iff.mp h
      exact ⟨r, hresched⟩

theorem resched_some {v : View σ} {f : Form} {k : Kont} {p : Plan}
    (h : State.reschedule { s with view := v } kind B f k = some s') :
    ∃ a', Common.resched { a with view := v } B p = some a' := by
  obtain ⟨r, hr⟩ := reschedule_some h
  have hresched : Common.view { a with view := v } = v := rfl
  exact ⟨_, by rw [Common.resched, hresched, hr, Option.map_some]⟩

theorem Refines.block_some {f : Form} {w : Wait} (h : s.Refines kind a)
    (hrun : s.blockedResched kind B f w = some s') : ∃ a', a.block B w = some a' := by
  obtain ⟨v, hv, hresched⟩ := Option.bind_eq_some_iff.mp hrun
  rw [h.view] at hv
  obtain ⟨a', ha'⟩ := resched_some (a := a) (p := .blocked w) hresched
  exact ⟨a', by rw [Common.block, hv, Option.bind_some, ha']⟩

theorem Refines.call_some {o : Op} (h : s.Refines kind a)
    (hrun : s.perform kind B (o.act (a.view.current.form kind)) = some s') :
    ∃ a', a.call B o = some a' := by
  cases o with
  | yield =>
      obtain ⟨v, hv, hresched⟩ := Option.bind_eq_some_iff.mp hrun
      rw [h.view] at hv
      obtain ⟨a', ha'⟩ := resched_some (a := a) (p := .user) hresched
      exact ⟨a', by rw [Common.call, hv, Option.bind_some, ha']⟩
  | wait w =>
      simp only [Op.act, State.perform, State.wait] at hrun
      cases hcond : w.cond with
      | none =>
          rw [hcond] at hrun
          obtain ⟨a', ha'⟩ := h.block_some hrun
          exact ⟨a', by simp [Common.call, hcond, ha']⟩
      | some c => exact ⟨_, by simp only [Common.call, hcond]; rfl⟩
  | notifyOne q resched =>
      obtain ⟨r, hr, -⟩ := Option.map_eq_some_iff.mp hrun
      rw [h.view] at hr
      exact ⟨_, Option.map_eq_some_iff.mpr ⟨r, hr, rfl⟩⟩
  | notifyAll q resched => exact ⟨_, rfl⟩
  | new n => exact ⟨_, rfl⟩
  | spawn n =>
      obtain ⟨v, hv, -⟩ := Option.map_eq_some_iff.mp hrun
      rw [h.view] at hv
      exact ⟨_, Option.map_eq_some_iff.mpr ⟨v, hv, rfl⟩⟩
  | exit e =>
      have hcond : (a.view.isRunning a.view.current && !a.view.current.isIdle) = true := by
        by_contra hno
        simp only [Op.act, State.perform, State.exit, h.view, if_neg hno] at hrun
        cases hrun
      simp only [Common.call, Common.exit, hcond, if_true]
      split_ifs
      · exact ⟨_, rfl⟩
      · exact ⟨_, rfl⟩

/-- The kernel does only what the common model does. -/
theorem Refines.perform_some {x : Next} (h : s.Refines kind a) (he : a.Enabled x)
    (hrun : s.perform kind B (x.act (a.view.current.form kind)) = some s') :
    ∃ a', a.perform B x = some a' := by
  unfold Common.Enabled at he
  unfold Common.perform
  split at he
  · exact h.call_some hrun
  · rename_i w b hstop
    have hpc : s.pc = .condition (a.view.current.form kind) w := by rw [h.pc, hstop]; rfl
    simp only [Next.act, State.perform, hpc, State.checked] at hrun
    rw [Common.checked]
    split_ifs at hrun ⊢
    · exact ⟨_, rfl⟩
    · exact h.block_some hrun
  · rename_i q resched exits hstop
    have hpc : s.pc = .notifyAll q resched
        (if exits then some (a.view.current.form kind) else none) := by
      rw [h.pc, hstop]
      rfl
    simp only [Next.act, State.perform, State.tick, hpc] at hrun
    obtain ⟨⟨v, b⟩, hv, hgo⟩ := Option.bind_eq_some_iff.mp hrun
    rw [h.view] at hv
    rw [Common.notifyRound, hv, Option.bind_some]
    cases b with
    | true => exact ⟨_, rfl⟩
    | false =>
        cases exits with
        | false => exact ⟨_, rfl⟩
        | true => exact resched_some (a := a) (p := .user) hgo
  · exact he.elim

theorem Refines.init (scheduler : σ) :
    (State.init scheduler).Refines kind (Common.init scheduler) := by
  refine ⟨⟨rfl, rfl, rfl, fun t => ?_, ⟨fun t ht _ hne _ => ?_, fun t _ _ _ _ => rfl,
    fun t hk _ => ?_,
    fun hk => ?_, fun n hn => ?_, fun t ht => ?_⟩⟩, rfl⟩
  · rfl
  · cases t with
    | main => exact absurd rfl hne
    | idle => rfl
    | user n => simp [State.init] at ht
  · cases t with
    | user n => rfl
    | _ => cases hk
  · cases hk
  · simp [State.init] at hn
  · cases t with
    | user n => rfl
    | _ => simp [State.init] at ht

end State

end Kernel
