import Vsched.Kernel.Step

/-!
# Where the tasks go on

A task that is not running has left behind where it goes on: a thread in its saved
context, a coroutine in its future or, when it was switched out by an operation
for threads, in the context of the stack it keeps.
-/

namespace Kernel

open Sched (BaseScheduler TaskState)

variable {σ : Type*} {B : BaseScheduler σ Task} {kind : ℕ → Kind} {v v' : View σ}
  {s s' : State σ}

/-- The current task, if it is a coroutine. -/
def State.seat (kind : ℕ → Kind) (s : State σ) : Option Task :=
  if s.view.current.isCoroutine kind then some s.view.current else none

/-- The coroutine whose loop of `coroutine_schedule` holds the CPU. -/
def State.frame (kind : ℕ → Kind) (s : State σ) : Option Task :=
  match s.pc with
  | .polled t => some t
  | .handOver _ _ => none
  | _ => s.seat kind

/-- What the tasks have left behind when the stack of the coroutine `frame` is in
use. -/
structure Settled (kind : ℕ → Kind) (frame : Option Task) (s : State σ) : Prop where
  held : ∀ t, frame = some t → (s.kstack t).isSome
  away : ∀ t, t.isCoroutine kind = true → (s.kstack t).isSome →
    frame = some t ∨ ∃ k, s.ctx t = .resume k
  saved : ∀ t, s.created t = true → t.isCoroutine kind = false → t ≠ s.view.current →
    ∃ k, s.ctx t = .resume k
  stack : ∀ n, s.created (.user n) = true → kind n = .thread → (s.kstack (.user n)).isSome
  future_form : ∀ t f w, s.future t = .blocked f w → f = .future
  ctx_form : ∀ t f w, s.ctx t = .resume (.blocked f w) → f = .thread
  future_exiting : ∀ t e, s.future t = .exiting e → s.view.state t = .exited
  ctx_exiting : ∀ t e, s.ctx t = .resume (.exiting e) → s.view.state t = .exited

/-- What a step of the kernel may rely on where it starts. -/
def State.Fits (kind : ℕ → Kind) (s : State σ) : Prop :=
  match s.pc with
  | .condition f _ => f = .future → s.view.current.isCoroutine kind = true
  | .notifyAll _ _ after => after = some .future → s.view.current.isCoroutine kind = true
  | .resume k => (∀ e, k ≠ .exiting e) ∧ ∀ f w, k = .blocked f w → f = .thread
  | .poll => s.view.current.isCoroutine kind = true
  | .polled t => t.isCoroutine kind = true
  | .handOver t _ => t.isCoroutine kind = true ∧ s.kstack t = none
  | _ => True

/-- Where the tasks and the CPU go on. -/
structure Control (kind : ℕ → Kind) (s : State σ) : Prop where
  settled : Settled kind (s.frame kind) s
  fits : s.Fits kind

theorem Settled.same {r : State σ} {frame : Option Task} (hs : Settled kind frame s)
    (hkstack : r.kstack = s.kstack) (hcreated : r.created = s.created)
    (hctx : r.ctx = s.ctx) (hfuture : r.future = s.future)
    (hcurrent : r.view.current = s.view.current)
    (hexited : ∀ t, r.view.state t = .exited ↔ s.view.state t = .exited) :
    Settled kind frame r where
  held := by rw [hkstack]; exact hs.held
  away := by rw [hkstack, hctx]; exact hs.away
  saved := by rw [hcreated, hctx, hcurrent]; exact hs.saved
  stack := by rw [hcreated, hkstack]; exact hs.stack
  future_form := by rw [hfuture]; exact hs.future_form
  ctx_form := by rw [hctx]; exact hs.ctx_form
  future_exiting := fun t e h => (hexited t).mpr (hs.future_exiting t e (by rwa [hfuture] at h))
  ctx_exiting := fun t e h => (hexited t).mpr (hs.ctx_exiting t e (by rwa [hctx] at h))

theorem Settled.view {frame : Option Task} (hs : Settled kind frame s) (hv : s.view.Calm v') :
    Settled kind frame { s with view := v' } :=
  hs.same rfl rfl rfl rfl hv.current hv.exited

theorem State.seat_view (hv : s.view.Calm v') :
    State.seat kind { s with view := v' } = s.seat kind := by
  simp only [State.seat, hv.current]

theorem Task.isCoroutine_of_user {t : Task} (h : t.isCoroutine kind = true) :
    t.isInit = false ∧ t.isIdle = false := by
  cases t <;> first | cases h | exact ⟨rfl, rfl⟩

/-- A context that is loaded leads to a resume point or to `coroutine_schedule`. -/
theorem Control.loadContext (hs : Settled kind (s.seat kind) s)
    (hnot : s.view.state s.view.current ≠ .exited) (h : s.loadContext = some s') :
    Control kind s' := by
  rcases State.loadContext_eq h with ⟨k, hk, rfl⟩ | ⟨-, rfl⟩
  · refine ⟨hs.same rfl rfl rfl rfl rfl fun _ => Iff.rfl, ?_, ?_⟩
    · rintro e rfl
      exact hnot (hs.ctx_exiting _ _ hk)
    · rintro f w rfl
      exact hs.ctx_form _ _ _ hk
  · exact ⟨hs.same rfl rfl rfl rfl rfl fun _ => Iff.rfl, trivial⟩

/-- What a task may go on with after it has called the scheduler in the form `f`. -/
structure Onward (s : State σ) (f : Form) (k : Kont) : Prop where
  form : ∀ g w, k = .blocked g w → g = f
  exiting : ∀ e, k = .exiting e → s.view.state s.view.current = .exited

section Reschedule

variable {k : Kont} {next : Task}

/-- What `set_kstack` leaves as it was. -/
structure SetUp (kind : ℕ → Kind) (next : Task) (s s' : State σ) : Prop where
  view : s'.view = s.view
  created : s'.created = s.created
  future : s'.future = s.future
  refs : s'.refs = s.refs
  stack : next.isCoroutine kind = true → (s'.kstack next).isSome
  kept : ∀ t, (s.kstack t).isSome → (s'.kstack t).isSome
  others : ∀ t, t ≠ next → s'.kstack t = s.kstack t ∧ s'.ctx t = s.ctx t
  ctx : s'.ctx next = s.ctx next ∨ next.isCoroutine kind = true ∧ s'.ctx next = .schedule

theorem State.setKstack_setUp (h : s.setKstack kind next = some s') : SetUp kind next s s' := by
  rcases State.setKstack_eq h with ⟨rfl, hstack⟩ | ⟨-, hcoroutine, stack, pool, allocated, -, rfl⟩
  · refine ⟨rfl, rfl, rfl, rfl, ?_, fun _ => id, fun _ _ => ⟨rfl, rfl⟩, .inl rfl⟩
    intro hcoroutine
    refine Option.isSome_iff_ne_none.mpr fun hnone => ?_
    obtain ⟨hinit, hidle⟩ := Task.isCoroutine_of_user hcoroutine
    rcases hstack hnone with h' | h'
    · rw [hinit] at h'
      cases h'
    · rw [hidle] at h'
      cases h'
  · refine ⟨rfl, rfl, rfl, rfl, fun _ => by simp, ?_, ?_, .inr ⟨hcoroutine, by simp⟩⟩
    · intro t ht
      by_cases hnext : t = next <;> simp [hnext]
      simpa [hnext] using ht
    · exact fun t ht => ⟨Function.update_of_ne ht _ _, Function.update_of_ne ht _ _⟩

theorem State.seat_eq_some {t : Task} (h : s.seat kind = some t) :
    t = s.view.current ∧ t.isCoroutine kind = true := by
  unfold State.seat at h
  split_ifs at h with hcoroutine
  obtain rfl := Option.some.inj h
  exact ⟨rfl, hcoroutine⟩

/-- The task is switched out in the form for threads. -/
theorem Settled.switched (hs : Settled kind (s.seat kind) s) (hk : Onward s .thread k)
    (h : SetUp kind next s s') :
    Settled kind ((s'.switched next k).seat kind) (s'.switched next k) := by
  have hcurrent : s'.view.current = s.view.current := by rw [h.view]
  have hself : (s'.switched next k).ctx s.view.current = .resume k := by
    simp [State.switched, hcurrent]
  have hothers : ∀ t, t ≠ s.view.current → (s'.switched next k).ctx t = s'.ctx t := by
    intro t ht
    simp [State.switched, hcurrent, ht]
  have hexited : ∀ t, s.view.state t = .exited →
      (s'.switched next k).view.state t = .exited := by
    intro t ht
    simpa [State.switched, View.replaceCurrent, h.view] using ht
  -- the contexts that were saved before are still there
  have hkept : ∀ t, t ≠ next → t ≠ s.view.current → (s'.switched next k).ctx t = s.ctx t :=
    fun t hnext ht => (hothers t ht).trans (h.others t hnext).2
  have hresumed : ∀ t k', (s'.switched next k).ctx t = .resume k' →
      t = s.view.current ∧ k' = k ∨ s.ctx t = .resume k' := by
    intro t k' ht
    by_cases hold : t = s.view.current
    · rw [hold, hself] at ht
      exact .inl ⟨hold, (Ctx.resume.inj ht).symm⟩
    rw [hothers t hold] at ht
    by_cases hnext : t = next
    · rw [hnext] at ht ⊢
      rcases h.ctx with hsame | ⟨-, hschedule⟩
      · exact .inr (hsame ▸ ht)
      · rw [hschedule] at ht
        cases ht
    · exact .inr ((h.others t hnext).2 ▸ ht)
  refine ⟨?_, ?_, ?_, ?_, ?_, ?_, ?_, ?_⟩
  · intro t ht
    obtain ⟨rfl, hcoroutine⟩ := State.seat_eq_some ht
    exact h.stack hcoroutine
  · intro t ht hsome
    by_cases hnext : t = next
    · refine .inl ?_
      rw [hnext] at ht ⊢
      simp [State.seat, State.switched, View.replaceCurrent, ht]
    right
    by_cases hold : t = s.view.current
    · exact ⟨k, hold ▸ hself⟩
    · rw [hkept t hnext hold]
      refine (hs.away t ht ?_).resolve_left fun hseat => hold (State.seat_eq_some hseat).1
      rw [← (h.others t hnext).1]
      exact hsome
  · intro t hcreated ht hnext
    by_cases hold : t = s.view.current
    · exact ⟨k, hold ▸ hself⟩
    · rw [hkept t hnext hold]
      exact hs.saved t (by rw [← h.created]; exact hcreated) ht hold
  · intro n hcreated hthread
    exact h.kept _ (hs.stack n (by rw [← h.created]; exact hcreated) hthread)
  · intro t f w ht
    exact hs.future_form t f w (by rw [← h.future]; exact ht)
  · intro t f w ht
    rcases hresumed t _ ht with ⟨-, hkont⟩ | hold
    · exact hk.form f w hkont.symm
    · exact hs.ctx_form t f w hold
  · intro t e ht
    exact hexited t (hs.future_exiting t e (by rw [← h.future]; exact ht))
  · intro t e ht
    rcases hresumed t _ ht with ⟨rfl, hkont⟩ | hold
    · exact hexited _ (hk.exiting e hkont.symm)
    · exact hexited t (hs.ctx_exiting t e hold)

theorem Onward.view {f : Form} (hk : Onward s f k) (hv : s.view.Calm v') :
    Onward { s with view := v' } f k :=
  ⟨hk.form, fun e he => by rw [hv.current, hv.exited]; exact hk.exiting e he⟩

/-- `resched` goes on in the current task or in the next one. -/
theorem Control.resched (hs : Settled kind (s.seat kind) s) (hk : Onward s .thread k)
    (h : s.resched kind B k = some s') : Control kind s' := by
  obtain ⟨sch, next, hpicks, hcase⟩ := State.resched_eq h
  have hs₁ := hs.view hpicks.calm
  have hk₁ := hk.view hpicks.calm
  rcases hcase with ⟨rfl, rfl⟩ | ⟨hne, s₁, hset, hload⟩
  · refine ⟨hs₁.same rfl rfl rfl rfl rfl fun _ => Iff.rfl, ?_, fun f w => hk.form f w⟩
    rintro e rfl
    have hexit := hk.exiting e rfl
    rw [hpicks.ready] at hexit
    cases hexit
  · have hset' := State.setKstack_setUp hset
    have hs₂ := hs₁.switched hk₁ hset'
    refine .loadContext hs₂ ?_ hload
    have hrunning : (s₁.switched next k).view.state next = .running := by
      simp [State.switched, View.replaceCurrent, hset'.view, View.picked, View.setState]
    intro hexited
    rw [show (s₁.switched next k).view.current = next from rfl, hrunning] at hexited
    cases hexited

/-- A coroutine goes on: `BlockedReschedFuture` and `YieldFuture` are ready. -/
theorem Control.goOn {f : Form} (hs : Settled kind (s.seat kind) s)
    (hform : f = .future → s.view.current.isCoroutine kind = true)
    (hk : ∀ g w, k = .blocked g w → g = f) (h : s.goOn k = some s') : Control kind s' := by
  cases k with
  | user =>
      obtain rfl := Option.some.inj h
      exact ⟨hs.same rfl rfl rfl rfl rfl fun _ => Iff.rfl, trivial⟩
  | blocked g w =>
      obtain rfl := Option.some.inj h
      obtain rfl := hk g w rfl
      unfold State.woken
      split
      · have hcalm :=
      ((View.cancelEvents_quiet s.view w.queue).trans (View.returned_quiet _ w)).toCalm
        refine ⟨?_, trivial⟩
        have := (hs.view hcalm).same (r := { s with
          view := (s.view.cancelEvents w.queue).returned w, pc := .user }) rfl rfl rfl rfl rfl
          fun _ => Iff.rfl
        simpa only [State.frame, State.seat, hcalm.current] using this
      · exact ⟨hs.same rfl rfl rfl rfl rfl fun _ => Iff.rfl, hform⟩
  | exiting e => cases h

/-- A coroutine has put the next task in its place. -/
theorem Settled.replaced {t n : Task} (hs : Settled kind (some t) s)
    (ht : t.isCoroutine kind = true)
    (hcurrent : s.view.current = t) :
    Settled kind (some t) { s with view := s.view.replaceCurrent n } := by
  refine ⟨hs.held, hs.away, ?_, hs.stack, hs.future_form, hs.ctx_form, hs.future_exiting,
    hs.ctx_exiting⟩
  intro u hcreated hu _
  refine hs.saved u hcreated hu ?_
  rw [hcurrent]
  rintro rfl
  rw [ht] at hu
  cases hu

theorem Settled.setFuture {frame : Option Task} {t : Task} (hs : Settled kind frame s)
    (hform : ∀ g w, k = .blocked g w → g = .future)
    (hexiting : ∀ e, k = .exiting e → s.view.state t = .exited) :
    Settled kind frame { s with future := Function.update s.future t k } := by
  refine ⟨hs.held, hs.away, hs.saved, hs.stack, ?_, hs.ctx_form, ?_, hs.ctx_exiting⟩
  · intro u f w hu
    by_cases hut : u = t
    · subst hut
      exact hform f w (by simpa using hu)
    · exact hs.future_form u f w (by simpa [hut] using hu)
  · intro u e hu
    by_cases hut : u = t
    · subst hut
      exact hexiting e (by simpa using hu)
    · exact hs.future_exiting u e (by simpa [hut] using hu)

/-- `resched_f` in a future goes on in the current task, or leaves it. -/
theorem Control.reschedFuture (hs : Settled kind (s.seat kind) s) (hk : Onward s .future k)
    (hcoroutine : s.view.current.isCoroutine kind = true) (h : s.reschedFuture B k = some s') :
    Control kind s' := by
  obtain ⟨sch, next, hpicks, hcase⟩ := State.reschedFuture_eq h
  have hs₁ := hs.view hpicks.calm
  rcases hcase with ⟨-, hgo⟩ | ⟨-, rfl⟩
  · exact .goOn (f := .future) (s := { s with view := s.view.picked sch next }) hs₁
      (fun _ => hcoroutine) hk.form hgo
  · have hseat : s.seat kind = some s.view.current := by simp [State.seat, hcoroutine]
    rw [hseat] at hs₁
    have hexiting := (hk.view hpicks.calm).exiting
    have hs₂ := (hs₁.setFuture hk.form hexiting).replaced (n := next) hcoroutine rfl
    exact ⟨hs₂.same rfl rfl rfl rfl rfl fun _ => Iff.rfl, hcoroutine⟩

theorem Control.reschedule {f : Form} (hs : Settled kind (s.seat kind) s) (hk : Onward s f k)
    (hform : f = .future → s.view.current.isCoroutine kind = true)
    (h : s.reschedule kind B f k = some s') : Control kind s' := by
  cases f with
  | thread => exact .resched hs hk h
  | future => exact .reschedFuture hs hk (hform rfl) h

theorem Control.yieldNow {f : Form} (hs : Settled kind (s.seat kind) s)
    (hform : f = .future → s.view.current.isCoroutine kind = true)
    (h : s.yieldNow kind B f = some s') : Control kind s' := by
  obtain ⟨v, hv, hresched⟩ := Option.bind_eq_some_iff.mp h
  have hcalm := (View.yieldCurrent_stops hv).toCalm
  refine .reschedule (s := { s with view := v }) ?_ ⟨by simp, by simp⟩ ?_ hresched
  · rw [State.seat_view hcalm]
    exact hs.view hcalm
  · exact fun hf => by rw [hcalm.current]; exact hform hf

theorem Control.blockedResched {f : Form} {w : Wait} (hs : Settled kind (s.seat kind) s)
    (hform : f = .future → s.view.current.isCoroutine kind = true)
    (h : s.blockedResched kind B f w = some s') : Control kind s' := by
  obtain ⟨v, hv, hresched⟩ := Option.bind_eq_some_iff.mp h
  have hcalm := (View.blockCurrent_stops hv).toCalm
  refine .reschedule (s := { s with view := v }) ?_ ⟨?_, by simp⟩ ?_ hresched
  · rw [State.seat_view hcalm]
    exact hs.view hcalm
  · rintro g w' hg
    cases hg
    rfl
  · exact fun hf => by rw [hcalm.current]; exact hform hf

theorem Control.checked {f : Form} {w : Wait} {b : Bool} (hs : Settled kind (s.seat kind) s)
    (hform : f = .future → s.view.current.isCoroutine kind = true)
    (h : s.checked kind B f w b = some s') : Control kind s' := by
  rcases State.checked_eq h with ⟨-, rfl⟩ | ⟨-, hblocked⟩
  · have hcalm :=
      ((View.cancelEvents_quiet s.view w.queue).trans (View.returned_quiet _ w)).toCalm
    refine ⟨?_, trivial⟩
    have hs' := (hs.view hcalm).same (r := { s with
      view := (s.view.cancelEvents w.queue).returned w, pc := .user }) rfl rfl rfl rfl rfl
      fun _ => Iff.rfl
    rw [← State.seat_view hcalm] at hs'
    exact hs'
  · exact .blockedResched hs hform hblocked

theorem Control.exit {f : Form} {e : ℤ} (hs : Settled kind (s.seat kind) s)
    (hform : f = .future → s.view.current.isCoroutine kind = true)
    (h : s.exit f e = some s') : Control kind s' := by
  obtain ⟨-, -, ⟨-, -, rfl⟩ | ⟨-, rfl⟩⟩ := State.exit_eq h
  · exact ⟨hs.same rfl rfl rfl rfl rfl fun _ => Iff.rfl, trivial⟩
  · have hexited : ∀ t, s.view.state t = .exited →
        (s.view.setState s.view.current .exited).state t = .exited := by
      intro t ht
      by_cases hcurrent : t = s.view.current <;> simp [View.setState, hcurrent]
      simpa [hcurrent] using ht
    refine ⟨⟨hs.held, hs.away, hs.saved, hs.stack, hs.future_form, hs.ctx_form,
      fun t e ht => hexited t (hs.future_exiting t e ht),
      fun t e ht => hexited t (hs.ctx_exiting t e ht)⟩, ?_⟩
    intro hg
    exact hform (Option.some.inj hg)

theorem Control.notifyRound {q : QueueId} {resched : Bool} {after : Option Form}
    (hs : Settled kind (s.seat kind) s) (hpc : s.pc = .notifyAll q resched after)
    (hfits : after = some .future → s.view.current.isCoroutine kind = true)
    (hexited : ∀ f, after = some f → s.view.state s.view.current = .exited)
    (h : s.notifyRound kind B q resched after = some s') : Control kind s' := by
  obtain ⟨⟨v, found⟩, hv, hgo⟩ := Option.bind_eq_some_iff.mp h
  have hcalm := (View.notifyOne_quiet hv).toCalm
  have hs₁ : Settled kind (State.seat kind { s with view := v }) { s with view := v } := by
    rw [State.seat_view hcalm]
    exact hs.view hcalm
  cases found with
  | true =>
      obtain rfl := Option.some.inj hgo
      refine ⟨?_, ?_⟩
      · simpa only [State.frame, hpc] using hs₁
      · simp only [State.Fits, hpc, hcalm.current]
        exact hfits
  | false =>
      cases after with
      | none =>
          obtain rfl := Option.some.inj hgo
          exact ⟨hs₁.same rfl rfl rfl rfl rfl fun _ => Iff.rfl, trivial⟩
      | some f =>
          refine .reschedule hs₁ ⟨by simp, fun _ _ => ?_⟩ ?_ hgo
          · rw [hcalm.current, hcalm.exited]
            exact hexited f rfl
          · rw [hcalm.current]
            rintro rfl
            exact hfits rfl

theorem Settled.releasePrev (hs : Settled kind (s.seat kind) s) :
    Settled kind (s.releasePrev.seat kind) s.releasePrev := by
  obtain ⟨hview, hcreated, hkstack, -, -, hctx, hfuture, -⟩ := s.releasePrev_eq
  obtain ⟨hcurrent, hstate⟩ := View.takePrevTask_eq s.view
  have hseat : s.releasePrev.seat kind = s.seat kind := by
    simp only [State.seat, hview, hcurrent]
  rw [hseat]
  refine hs.same hkstack hcreated hctx hfuture ?_ ?_
  · rw [hview, hcurrent]
  · intro t
    rw [hview, hstate]

end Reschedule

section Schedule

variable {t : Task} {stack : ℕ}

theorem Control.schedule (hs : Settled kind (s.seat kind) s) (h : s.schedule kind = some s') :
    Control kind s' := by
  obtain ⟨hcoroutine, rfl⟩ := State.schedule_eq h
  exact ⟨hs.releasePrev.same rfl rfl rfl rfl rfl fun _ => Iff.rfl, hcoroutine⟩

/-- A poll goes on in the future of the current task, which never exits twice. -/
theorem State.poll_eq (hs : Settled kind (s.seat kind) s) (h : s.poll = some s') :
    s.goOn (s.future s.view.current) = some s' := by
  unfold State.poll at h
  split at h
  · rename_i e hfuture
    obtain ⟨hrunning, -⟩ := State.exit_eq h
    rw [hs.future_exiting _ e hfuture] at hrunning
    cases hrunning
  · exact h

theorem Control.poll (hs : Settled kind (s.seat kind) s)
    (hcoroutine : s.view.current.isCoroutine kind = true) (h : s.poll = some s') :
    Control kind s' :=
  .goOn (f := .future) hs (fun _ => hcoroutine) (fun g w hg => hs.future_form _ g w hg)
    (State.poll_eq hs h)

/-- The stack of a coroutine has been taken, and another task may be the current one. -/
theorem Settled.taken (hs : Settled kind (some t) s) (ht : t.isCoroutine kind = true)
    (hcurrent : v'.current = s.view.current ∨ s.view.current = t)
    (hexited : ∀ u, s.view.state u = .exited → v'.state u = .exited) :
    Settled kind none
      { s with
        view := v', kstack := Function.update s.kstack t none, pc := .handOver t stack } := by
  refine ⟨by simp, ?_, ?_, ?_, hs.future_form, hs.ctx_form,
    fun u e hu => hexited u (hs.future_exiting u e hu),
    fun u e hu => hexited u (hs.ctx_exiting u e hu)⟩
  · intro u hu hsome
    by_cases hut : u = t
    · simp [hut] at hsome
    · right
      refine (hs.away u hu (by simpa [hut] using hsome)).resolve_left fun h => hut ?_
      exact (Option.some.inj h).symm
  · intro u hcreated hu hne
    refine hs.saved u hcreated hu ?_
    rintro rfl
    rcases hcurrent with hsame | rfl
    · exact hne hsame.symm
    · rw [ht] at hu
      cases hu
  · intro n hcreated hthread
    have hn : .user n ≠ t := by
      rintro rfl
      simp [Task.isCoroutine, hthread] at ht
    simpa [hn] using hs.stack n hcreated hthread

theorem Control.takeStack (hs : Settled kind (some t) s) (ht : t.isCoroutine kind = true)
    (hrunning : s.view.state t = .running → s.view.current = t)
    (h : s.takeStack B t = some s') : Control kind s' := by
  obtain ⟨v, stack, -, rfl, hcase⟩ := State.takeStack_eq h
  refine ⟨?_, ht, by simp⟩
  rcases hcase with ⟨-, rfl⟩ | ⟨hstate, sch, next, hpicks, hcase⟩
  · exact hs.taken ht (.inl rfl) fun _ => id
  · have hblocked : ∀ u, s.view.state u = .exited →
        (s.view.setState t .blocked).state u = .exited :=
      fun u hu => View.setState_exited (by rw [hstate]; decide) hu
    have hpicked : ∀ u, s.view.state u = .exited →
        ((s.view.setState t .blocked).picked sch next).state u = .exited :=
      fun u hu => (hpicks.calm.exited u).mpr (hblocked u hu)
    rcases hcase with ⟨-, rfl⟩ | ⟨-, rfl⟩
    · exact hs.taken ht (.inl rfl) hpicked
    · exact hs.taken ht (.inr (hrunning hstate)) hpicked

/-- The end of the loop of `coroutine_schedule`. -/
theorem Control.handOver (hs : Settled kind none s) (ht : t.isCoroutine kind = true)
    (hnone : s.kstack t = none) (hnot : s.view.state s.view.current ≠ .exited)
    (h : s.handOver t stack = some s') : Control kind s' := by
  rcases State.handOver_eq h with ⟨-, -, -, rfl⟩ | ⟨hstack, hload⟩
  · refine ⟨⟨?_, ?_, hs.saved, ?_, hs.future_form, hs.ctx_form, hs.future_exiting,
      hs.ctx_exiting⟩, trivial⟩
    · intro u hu
      obtain ⟨rfl, -⟩ := State.seat_eq_some hu
      simp
    · intro u hu hsome
      by_cases hcurrent : u = s.view.current
      · subst hcurrent
        exact .inl (by simp [State.frame, State.seat, hu])
      · exact .inr ((hs.away u hu (by simpa [hcurrent] using hsome)).resolve_left (by simp))
    · intro n hcreated hthread
      by_cases hcurrent : .user n = s.view.current
      · simp [hcurrent]
      · simpa [hcurrent] using hs.stack n hcreated hthread
  · refine .loadContext (s := { s with
      pool := stack :: s.pool, ctx := Function.update s.ctx t .dead }) ?_ hnot hload
    have hne : ∀ u, u.isCoroutine kind = false → u ≠ t := by
      rintro u hu rfl
      rw [ht] at hu
      cases hu
    refine ⟨?_, ?_, ?_, hs.stack, hs.future_form, ?_, hs.future_exiting, ?_⟩
    · intro u hu
      obtain ⟨rfl, hu⟩ := State.seat_eq_some hu
      refine Option.isSome_iff_ne_none.mpr fun hnone => ?_
      obtain ⟨hinit, hidle⟩ := Task.isCoroutine_of_user hu
      rcases hstack hnone with h' | h'
      · exact absurd h' (by simp [hinit])
      · exact absurd h' (by simp [hidle])
    · intro u hu hsome
      have hut : u ≠ t := by
        rintro rfl
        simp [hnone] at hsome
      obtain ⟨k, hk⟩ := (hs.away u hu hsome).resolve_left (by simp)
      exact .inr ⟨k, by simpa [hut] using hk⟩
    · intro u hcreated hu hcurrent
      obtain ⟨k, hk⟩ := hs.saved u hcreated hu hcurrent
      exact ⟨k, by simpa [hne u hu] using hk⟩
    · intro u f w hu
      by_cases hut : u = t
      · exact absurd hu (by simp [hut])
      · exact hs.ctx_form u f w (by simpa [hut] using hu)
    · intro u e hu
      by_cases hut : u = t
      · exact absurd hu (by simp [hut])
      · exact hs.ctx_exiting u e (by simpa [hut] using hu)

end Schedule

/-- A new thread may be resumed at its start, a new coroutine polled from its. -/
theorem Settled.new {frame : Option Task} (hs : Settled kind frame s) (n : ℕ) :
    Settled kind frame (s.new kind n) := by
  unfold State.new
  cases hn : kind n with
  | thread =>
      refine ⟨?_, ?_, ?_, ?_, hs.future_form, ?_, hs.future_exiting, ?_⟩
      · intro t ht
        by_cases hnew : t = .user n
        · simp [hnew]
        · simpa [State.setRefs, hnew] using hs.held t ht
      · intro t ht hsome
        have hnew : t ≠ .user n := by
          rintro rfl
          simp [Task.isCoroutine, hn] at ht
        simpa [State.setRefs, hnew] using
          hs.away t ht (by simpa [State.setRefs, hnew] using hsome)
      · intro t hcreated ht hcurrent
        by_cases hnew : t = .user n
        · exact ⟨.user, by simp [hnew]⟩
        · simpa [State.setRefs, hnew] using
            hs.saved t (by simpa [hnew] using hcreated) ht hcurrent
      · intro m hcreated hthread
        by_cases hnew : m = n
        · simp [hnew]
        · simpa [State.setRefs, hnew] using
            hs.stack m (by simpa [hnew] using hcreated) hthread
      · intro t f w ht
        by_cases hnew : t = .user n
        · simp [hnew] at ht
        · exact hs.ctx_form t f w (by simpa [State.setRefs, hnew] using ht)
      · intro t e ht
        by_cases hnew : t = .user n
        · simp [hnew] at ht
        · exact hs.ctx_exiting t e (by simpa [State.setRefs, hnew] using ht)
  | coroutine =>
      refine ⟨hs.held, hs.away, ?_, ?_, ?_, hs.ctx_form, ?_, hs.ctx_exiting⟩
      · intro t hcreated ht hcurrent
        have hnew : t ≠ .user n := by
          rintro rfl
          simp [Task.isCoroutine, hn] at ht
        exact hs.saved t (by simpa [hnew] using hcreated) ht hcurrent
      · intro m hcreated hthread
        have hnew : m ≠ n := by
          rintro rfl
          rw [hn] at hthread
          cases hthread
        exact hs.stack m (by simpa [hnew] using hcreated) hthread
      · intro t f w ht
        by_cases hnew : t = .user n
        · simp [hnew] at ht
        · exact hs.future_form t f w (by simpa [State.setRefs, hnew] using ht)
      · intro t e ht
        by_cases hnew : t = .user n
        · simp [hnew] at ht
        · exact hs.future_exiting t e (by simpa [State.setRefs, hnew] using ht)

namespace Control

theorem init (scheduler : σ) : Control kind (State.init scheduler) := by
  refine ⟨⟨by simp [State.frame, State.init, State.seat, Task.isCoroutine], ?_, ?_, ?_, ?_, ?_,
    ?_, ?_⟩,
    trivial⟩
  · intro t ht hsome
    cases t <;> simp [State.init, Task.isCoroutine] at ht hsome
  · intro t hcreated _ hmain
    cases t with
    | main => exact absurd rfl hmain
    | idle => exact ⟨.user, rfl⟩
    | user n => simp [State.init] at hcreated
  · intro n hcreated _
    simp [State.init] at hcreated
  · intro t f w h
    cases h
  · intro t f w h
    cases t <;> simp [State.init] at h
  · intro t e h
    cases h
  · intro t e h
    cases t <;> simp [State.init] at h

/-- A step that keeps the CPU in the code of the current task, or takes it to a place
with less to rely on. -/
theorem goto {p : Pc} (hs : Settled kind (s.seat kind) s)
    (hframe : State.frame kind { s with pc := p } = s.seat kind)
    (hfits : State.Fits kind { s with pc := p }) : Control kind { s with pc := p } := by
  refine ⟨?_, hfits⟩
  rw [hframe]
  exact hs.same rfl rfl rfl rfl rfl fun _ => Iff.rfl

theorem seated (hc : Control kind s) (hpc : ∀ t, s.pc ≠ .polled t)
    (hpc' : ∀ t stack, s.pc ≠ .handOver t stack) : Settled kind (s.seat kind) s := by
  have hs := hc.settled
  unfold State.frame at hs
  split at hs
  · exact absurd ‹_› (hpc _)
  · exact absurd ‹_› (hpc' _ _)
  · exact hs

theorem plain {a : Act} (hc : Control kind s) (hpc : s.pc = .user) (ha : a.isPlain = true)
    (h : s.perform kind B a = some s') : Control kind s' := by
  obtain ⟨hquiet, hpc', -, hkept⟩ := State.plain_eq ha h
  have hs := hc.seated (by simp [hpc]) (by simp [hpc])
  have hframe : s'.frame kind = s.seat kind := by
    simp only [State.frame, hpc', hpc, State.seat, hquiet.current]
  refine ⟨?_, by simp only [State.Fits, hpc', hpc]⟩
  rw [hframe]
  by_cases hnew : ∃ n, a = .new n
  · obtain ⟨n, rfl⟩ := hnew
    obtain rfl := Option.some.inj h
    exact hs.new n
  · push Not at hnew
    obtain ⟨hcreated, hkstack, hctx, hfuture, -⟩ := hkept hnew
    exact hs.same hkstack hcreated hctx hfuture hquiet.current hquiet.exited

theorem step {a : Act} (hc : Control kind s) (ha : Active s) (he : s.Enabled kind a)
    (h : s.perform kind B a = some s') : Control kind s' := by
  by_cases hplain : a.isPlain = true
  · obtain ⟨hpc, -⟩ := he.op (by cases a <;> first | rfl | cases hplain)
    exact hc.plain hpc hplain h
  cases a with
  | yield f =>
      obtain ⟨hpc, -, hform, -⟩ := he.op rfl
      exact .yieldNow (hc.seated (by simp [hpc]) (by simp [hpc]))
        (fun hf => hform (by rw [hf]; rfl)) h
  | wait f w =>
      obtain ⟨hpc, -, hform, -⟩ := he.op rfl
      have hs := hc.seated (by simp [hpc]) (by simp [hpc])
      have hform' : f = .future → s.view.current.isCoroutine kind = true :=
        fun hf => hform (by rw [hf]; rfl)
      rcases State.wait_eq h with ⟨-, hblocked⟩ | ⟨-, rfl⟩
      · exact .blockedResched hs hform' hblocked
      · exact goto hs rfl hform'
  | notifyAll q resched =>
      obtain ⟨hpc, -⟩ := he.op rfl
      obtain rfl := Option.some.inj h
      exact goto (hc.seated (by simp [hpc]) (by simp [hpc])) rfl (by simp [State.Fits])
  | exit f e =>
      obtain ⟨hpc, -, hform, -⟩ := he.op rfl
      exact .exit (hc.seated (by simp [hpc]) (by simp [hpc])) (fun hf => hform (by rw [hf]; rfl)) h
  | pending =>
      obtain ⟨hpc, -, -, hcoroutine⟩ := he.op rfl
      obtain rfl := Option.some.inj h
      have hs := hc.seated (by simp [hpc]) (by simp [hpc])
      have hs' := hs.setFuture (k := .user) (t := s.view.current) (by simp) (by simp)
      have hseat : s.seat kind = some s.view.current := by simp [State.seat, show
        s.view.current.isCoroutine kind = true from hcoroutine]
      rw [hseat] at hs'
      exact ⟨hs'.same rfl rfl rfl rfl rfl fun _ => Iff.rfl, hcoroutine⟩
  | check b =>
      obtain ⟨f, w, hpc, -⟩ := he.check
      have hfits := hc.fits
      simp only [State.perform, hpc] at h
      simp only [State.Fits, hpc] at hfits
      exact .checked (hc.seated (by simp [hpc]) (by simp [hpc])) hfits h
  | tick =>
      have hfits := hc.fits
      cases hpc : s.pc with
      | notifyAll q resched after =>
          simp only [State.perform, State.tick, hpc] at h
          simp only [State.Fits, hpc] at hfits
          refine .notifyRound (hc.seated (by simp [hpc]) (by simp [hpc])) hpc hfits ?_ h
          rintro f rfl
          exact ha.exited (by simp [State.leaving, hpc])
      | resume k =>
          simp only [State.perform, State.tick, hpc] at h
          simp only [State.Fits, hpc] at hfits
          have hs := (hc.seated (by simp [hpc]) (by simp [hpc])).releasePrev
          exact .goOn (f := .thread) hs (by simp) hfits.2 h
      | loopTop =>
          simp only [State.perform, State.tick, hpc] at h
          exact .schedule (hc.seated (by simp [hpc]) (by simp [hpc])) h
      | poll =>
          simp only [State.perform, State.tick, hpc] at h
          simp only [State.Fits, hpc] at hfits
          exact .poll (hc.seated (by simp [hpc]) (by simp [hpc])) hfits h
      | polled t =>
          simp only [State.perform, State.tick, hpc] at h
          simp only [State.Fits, hpc] at hfits
          have hs := hc.settled
          simp only [State.frame, hpc] at hs
          exact .takeStack hs hfits (fun ht => (ha.only t ht).symm) h
      | handOver t stack =>
          simp only [State.perform, State.tick, hpc] at h
          simp only [State.Fits, hpc] at hfits
          have hs := hc.settled
          simp only [State.frame, hpc] at hs
          refine .handOver hs hfits.1 hfits.2 ?_ h
          rw [ha.running (by simp [State.leaving, hpc])]
          decide
      | _ => simp [State.perform, State.tick, hpc] at h
  | _ => exact absurd rfl hplain

/-- In every run only the current task runs, and every other task has left behind where
it goes on. -/
theorem of_run {scheduler : σ} {G : List Act → State σ → Act → Prop} {h : List Act}
    (hrun : (machine kind B scheduler).RunOf G h s) : Control kind s ∧ Active s := by
  refine hrun.invariant (I := fun _ s => Control kind s ∧ Active s) ?_ ?_
  · rintro s rfl
    exact ⟨init scheduler, Active.init scheduler⟩
  · rintro h s a s' - ⟨hc, ha⟩ - ⟨he, hperform⟩
    exact ⟨hc.step ha he hperform, ha.step he hperform⟩

end Control

end Kernel
