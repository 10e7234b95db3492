import Vsched.Kernel.Stack

/-!
# The references to a task

The strong count of a task is the sum of what user code holds, of the waker in the loop
of `coroutine_schedule` that polls it and of the reference that `spawn` has handed to
the scheduler, until a resume point drops it. Three steps lose a reference: waking a
task, leaving the loop by a context switch, and an exit from inside the loop.
-/

namespace Kernel

open Sched (BaseScheduler TaskState)

variable {σ : Type*} {B : BaseScheduler σ Task} {kind : ℕ → Kind} {s s' : State σ} {t : Task}

/-- The loop of `coroutine_schedule` that polls `t` holds a waker of it. A coroutine has
a stack while it is polled, also when an operation for threads has switched it out. -/
def State.polling (kind : ℕ → Kind) (s : State σ) (t : Task) : Bool :=
  t.isCoroutine kind &&
    match s.pc with
    | .loopTop => (s.kstack t).isSome && decide (t ≠ s.view.current)
    | .handOver u _ => (s.kstack t).isSome || decide (t = u)
    | _ => (s.kstack t).isSome

theorem State.polling_eq (h : s.pc ≠ .loopTop) (h' : ∀ u stack, s.pc ≠ .handOver u stack)
    (t : Task) : s.polling kind t = (t.isCoroutine kind && (s.kstack t).isSome) := by
  unfold State.polling
  cases hpc : s.pc with
  | loopTop => exact absurd hpc h
  | handOver u stack => exact absurd hpc (h' u stack)
  | _ => rfl

/-- The scheduler owns a reference to `t`. -/
def State.Handed (s : State σ) (t : Task) : Prop :=
  t ∈ s.spawned ∧ (s.refs t).released = false

instance (s : State σ) (t : Task) : Decidable (s.Handed t) := inferInstanceAs (Decidable (_ ∧ _))

/-- The form of an exit. -/
def Act.exits : Act → Option Form
  | .exit f _ => some f
  | _ => none

/-- No waker of `t` is woken, and if `t` is a coroutine, it exits by its future and leaves
the loop of `coroutine_schedule` to a coroutine that takes over its stack. -/
def Lossless (kind : ℕ → Kind) (t : Task) (_ : List Act) (s : State σ) (a : Act) : Prop :=
  a ≠ .wake t ∧ a ≠ .wakeByRef t ∧
    (a.exits = some .thread → t = s.view.current → t.isCoroutine kind = false) ∧
    ∀ stack, s.pc = .handOver t stack →
      s.view.current.isCoroutine kind = true ∧ s.kstack s.view.current = none

/-- A coroutine that has exited is behind its last poll, or about to leave it. -/
structure Departs (kind : ℕ → Kind) (t : Task) (s : State σ) : Prop where
  left : t.isCoroutine kind = true → s.view.state t = .exited →
    s.frame kind = some t ∨ s.kstack t = none
  form : ∀ q resched, s.pc = .notifyAll q resched (some .thread) → t = s.view.current →
    t.isCoroutine kind = false

namespace Departs

theorem init (scheduler : σ) (n : ℕ) : Departs kind (.user n) (State.init scheduler) := by
  refine ⟨fun _ hexited => ?_, fun _ _ h => by cases h⟩
  simp [State.init] at hexited

theorem same (hd : Departs kind t s) (hkstack : s'.kstack t = s.kstack t)
    (hexited : s'.view.state t = .exited → s.view.state t = .exited)
    (hframe : s.frame kind = some t → s'.frame kind = some t)
    (hpc : ∀ q resched, s'.pc ≠ .notifyAll q resched (some .thread)) : Departs kind t s' := by
  refine ⟨fun ht h => ?_, fun q resched h => absurd h (hpc q resched)⟩
  rw [hkstack]
  exact (hd.left ht (hexited h)).imp_left hframe

/-- Off the CPU it is behind its last poll. -/
theorem away (hd : Departs kind t s) (ha : Active s) (hframe : s.frame kind = s.seat kind)
    (hleaving : s.leaving = false) (ht : t.isCoroutine kind = true)
    (hexited : s.view.state t = .exited) : s.kstack t = none := by
  refine (hd.left ht hexited).resolve_left fun h => ?_
  rw [hframe] at h
  obtain ⟨rfl, -⟩ := State.seat_eq_some h
  rw [ha.running hleaving] at hexited
  cases hexited

theorem goOn {k : Kont} (hgone : t.isCoroutine kind = true → s.view.state t = .exited →
    s.kstack t = none) (h : s.goOn k = some s') : Departs kind t s' := by
  obtain ⟨hquiet, -, hpc⟩ := State.goOn_quiet h
  refine ⟨fun ht hexited => .inr ?_, fun q resched h' => ?_⟩
  · rw [(State.goOn_keeps h).kstack]
    exact hgone ht ((hquiet.exited t).mp hexited)
  · rcases hpc with hpc | ⟨f, w, hpc⟩ <;> rw [hpc] at h' <;> cases h'

theorem reschedule {f : Form} {k : Kont}
    (hgone : t.isCoroutine kind = true → s.view.state t = .exited →
      s.kstack t = none ∨ f = .future ∧ t = s.view.current)
    (h : s.reschedule kind B f k = some s') : Departs kind t s' := by
  cases f with
  | thread =>
      have hnone : t.isCoroutine kind = true → s.view.state t = .exited → s.kstack t = none :=
        fun ht hexited => (hgone ht hexited).resolve_right fun h => by cases h.1
      obtain ⟨sch, next, hpicks, ⟨-, rfl⟩ | ⟨-, s₁, hset, hload⟩⟩ := State.resched_eq h
      · refine ⟨fun ht hexited => .inr ?_, fun _ _ h => by cases h⟩
        exact hnone ht ((hpicks.calm.exited t).mp hexited)
      · have hset' := State.setKstack_setUp hset
        have hkstack : t.isCoroutine kind = true →
            (s₁.switched next k).view.state t = .exited →
            (s₁.switched next k).kstack t = none := by
          intro ht hexited
          have hbefore : s.view.state t = .exited := by
            refine (hpicks.calm.exited t).mp ?_
            simpa [State.switched, View.replaceCurrent, hset'.view] using hexited
          have hnext : t ≠ next := by
            rintro rfl
            rw [hpicks.ready] at hbefore
            cases hbefore
          exact (hset'.others t hnext).1.trans (hnone ht hbefore)
        rcases State.loadContext_eq hload with ⟨k', -, rfl⟩ | ⟨-, rfl⟩
        · exact ⟨fun ht hexited => .inr (hkstack ht hexited), fun _ _ h => by cases h⟩
        · exact ⟨fun ht hexited => .inr (hkstack ht hexited), fun _ _ h => by cases h⟩
  | future =>
      obtain ⟨sch, next, hpicks, ⟨hsame, hgo⟩ | ⟨-, rfl⟩⟩ := State.reschedFuture_eq h
      · refine goOn (s := { s with view := s.view.picked sch next }) (fun ht hexited => ?_) hgo
        have hbefore := (hpicks.calm.exited t).mp hexited
        refine (hgone ht hbefore).resolve_right fun hfuture => ?_
        rw [hfuture.2, hsame, hpicks.ready] at hbefore
        cases hbefore
      · refine ⟨fun ht hexited => ?_, fun _ _ h => by cases h⟩
        rcases hgone ht ((hpicks.calm.exited t).mp hexited) with hnone | ⟨-, rfl⟩
        · exact .inr hnone
        · exact .inl rfl

theorem stopped {v : View σ} {f : Form} {k : Kont} (hd : Departs kind t s) (ha : Active s)
    (hframe : s.frame kind = s.seat kind) (hleaving : s.leaving = false) (hv : s.view.Stops v)
    (h : State.reschedule { s with view := v } kind B f k = some s') : Departs kind t s' :=
  reschedule (s := { s with view := v })
    (fun ht hexited => .inl (hd.away ha hframe hleaving ht ((hv.exited t).mp hexited))) h

theorem plain {a : Act} (hd : Departs kind t s) (hpc : s.pc = .user) (ha : a.isPlain = true)
    (h : s.perform kind B a = some s') : Departs kind t s' := by
  obtain ⟨hquiet, hpc', -, hkept⟩ := State.plain_eq ha h
  have hframe : s'.frame kind = s.frame kind := by
    simp only [State.frame, hpc', hpc, State.seat, hquiet.current]
  refine ⟨fun ht hexited => ?_, fun q resched h' => ?_⟩
  · have hkstack : s'.kstack t = s.kstack t := by
      by_cases hnew : ∃ n, a = .new n
      · obtain ⟨n, rfl⟩ := hnew
        obtain rfl := Option.some.inj h
        unfold State.new
        cases hn : kind n with
        | thread =>
            have hne : t ≠ .user n := by
              rintro rfl
              simp [Task.isCoroutine, hn] at ht
            simp [State.setRefs, hne]
        | coroutine => rfl
      · push Not at hnew
        rw [(hkept hnew).2.1]
    rw [hframe, hkstack]
    exact hd.left ht ((hquiet.exited t).mp hexited)
  · rw [hpc', hpc] at h'
    cases h'

theorem exit {f : Form} {e : ℤ} (hd : Departs kind t s) (hframe : s.frame kind = s.seat kind)
    (hform : f = .thread → t = s.view.current → t.isCoroutine kind = false)
    (h : s.exit f e = some s') : Departs kind t s' := by
  obtain ⟨-, -, ⟨-, -, rfl⟩ | ⟨-, rfl⟩⟩ := State.exit_eq h
  · refine hd.same rfl id (fun h => ?_) (by simp)
    rw [← h, hframe]
    rfl
  · refine ⟨fun ht hexited => ?_, fun q resched h' hcurrent => ?_⟩
    · by_cases hcurrent : t = s.view.current
      · left
        show State.seat kind _ = some t
        simp [State.seat, View.setState, ← hcurrent, ht]
      · have hbefore : s.view.state t = .exited := by
          simpa [View.setState, hcurrent] using hexited
        refine (hd.left ht hbefore).imp_left fun h => ?_
        rw [← h, hframe]
        rfl
    · obtain ⟨-, -, hf⟩ := Pc.notifyAll.inj h'
      exact hform (Option.some.inj hf) hcurrent

theorem notifyRound {q : QueueId} {resched : Bool} {after : Option Form} (hd : Departs kind t s)
    (hpc : s.pc = .notifyAll q resched after) (h : s.notifyRound kind B q resched after = some s') :
    Departs kind t s' := by
  obtain ⟨⟨v, found⟩, hv, hgo⟩ := Option.bind_eq_some_iff.mp h
  have hquiet := View.notifyOne_quiet hv
  have hframe : s.frame kind = s.seat kind := by simp only [State.frame, hpc]
  have hseat : State.seat kind { s with view := v } = s.seat kind := State.seat_view hquiet.toCalm
  cases found with
  | true =>
      obtain rfl := Option.some.inj hgo
      refine ⟨fun ht hexited => ?_, fun q' resched' h' hcurrent => ?_⟩
      · refine (hd.left ht ((hquiet.exited t).mp hexited)).imp_left fun h => ?_
        rw [hframe, ← hseat] at h
        simpa only [State.frame, hpc] using h
      · exact hd.form q' resched' h' (by rw [hcurrent]; exact hquiet.current)
  | false =>
      cases after with
      | none =>
          obtain rfl := Option.some.inj hgo
          refine hd.same rfl (hquiet.exited t).mp (fun h => ?_) (by simp)
          rw [hframe, ← hseat] at h
          exact h
      | some f =>
          refine reschedule (s := { s with view := v }) (fun ht hexited => ?_) hgo
          rcases hd.left ht ((hquiet.exited t).mp hexited) with hin | hnone
          · rw [hframe] at hin
            obtain ⟨hcurrent, -⟩ := State.seat_eq_some hin
            refine .inr ⟨?_, hcurrent.trans hquiet.current.symm⟩
            cases f with
            | thread =>
                rw [hd.form q resched hpc hcurrent] at ht
                cases ht
            | future => rfl
          · exact .inl hnone

theorem takeStack {u : Task} (hd : Departs kind t s) (hpc : s.pc = .polled u)
    (h : s.takeStack B u = some s') : Departs kind t s' := by
  obtain ⟨v, a, -, rfl, hcase⟩ := State.takeStack_eq h
  refine ⟨fun ht hexited => .inr ?_, fun _ _ h => by cases h⟩
  by_cases htu : t = u
  · simp [htu]
  · have hbefore : s.view.state t = .exited := by
      rcases hcase with ⟨-, rfl⟩ | ⟨-, sch, next, hpicks, hcase⟩
      · exact hexited
      · have hset : ∀ w : View σ, w.state = ((s.view.setState u .blocked).picked sch next).state →
            w.state t = .exited → s.view.state t = .exited := by
          intro w hw h
          rw [hw] at h
          simpa [View.setState, htu] using (hpicks.calm.exited t).mp h
        rcases hcase with ⟨-, rfl⟩ | ⟨-, rfl⟩
        · exact hset _ rfl hexited
        · exact hset _ rfl hexited
    have hnone := (hd.left ht hbefore).resolve_left (by
      simp only [State.frame, hpc, Option.some.injEq]
      exact fun h => htu h.symm)
    simpa [htu] using hnone

theorem handOver {u : Task} {a : ℕ} (hd : Departs kind t s) (ha : Active s)
    (hpc : s.pc = .handOver u a) (h : s.handOver u a = some s') : Departs kind t s' := by
  have hnone : t.isCoroutine kind = true → s.view.state t = .exited → s.kstack t = none :=
    fun ht hexited => (hd.left ht hexited).resolve_left (by simp [State.frame, hpc])
  rcases State.handOver_eq h with ⟨-, -, -, rfl⟩ | ⟨-, hload⟩
  · refine ⟨fun ht hexited => .inr ?_, fun _ _ h => by cases h⟩
    have hcurrent : t ≠ s.view.current := by
      rintro rfl
      rw [ha.running (by simp [State.leaving, hpc])] at hexited
      cases hexited
    simpa [hcurrent] using hnone ht hexited
  · rcases State.loadContext_eq hload with ⟨k, -, rfl⟩ | ⟨-, rfl⟩
    · exact ⟨fun ht hexited => .inr (hnone ht hexited), fun _ _ h => by cases h⟩
    · exact ⟨fun ht hexited => .inr (hnone ht hexited), fun _ _ h => by cases h⟩

theorem releasePrev (hd : Departs kind t s) (hpc : ∀ q resched after,
    s.pc ≠ .notifyAll q resched after) : Departs kind t s.releasePrev := by
  obtain ⟨hview, -, hkstack, -, -, -, -, hpc'⟩ := s.releasePrev_eq
  obtain ⟨hcurrent, hstate⟩ := View.takePrevTask_eq s.view
  refine hd.same (by rw [hkstack]) (by rw [hview, hstate]; exact id) (fun h => ?_) ?_
  · simpa only [State.frame, State.seat, hpc', hview, hcurrent] using h
  · rw [hpc']
    exact fun q resched => hpc q resched _

theorem step {a : Act} (hd : Departs kind t s) (hc : Control kind s) (ha : Active s)
    (hform : a.exits = some .thread → t = s.view.current → t.isCoroutine kind = false)
    (he : s.Enabled kind a) (h : s.perform kind B a = some s') : Departs kind t s' := by
  by_cases hplain : a.isPlain = true
  · obtain ⟨hpc, -⟩ := he.op (by cases a <;> first | rfl | cases hplain)
    exact hd.plain hpc hplain h
  cases a with
  | yield f =>
      obtain ⟨hpc, -⟩ := he.op rfl
      obtain ⟨v, hv, hresched⟩ := Option.bind_eq_some_iff.mp h
      exact hd.stopped ha (by simp only [State.frame, hpc]) (by simp [State.leaving, hpc])
        (View.yieldCurrent_stops hv) hresched
  | wait f w =>
      obtain ⟨hpc, -⟩ := he.op rfl
      rcases State.wait_eq h with ⟨-, hblocked⟩ | ⟨-, rfl⟩
      · obtain ⟨v, hv, hresched⟩ := Option.bind_eq_some_iff.mp hblocked
        exact hd.stopped ha (by simp only [State.frame, hpc]) (by simp [State.leaving, hpc])
          (View.blockCurrent_stops hv) hresched
      · refine hd.same rfl id (fun h => ?_) (by simp)
        simp only [State.frame, hpc] at h
        exact h
  | notifyAll q resched =>
      obtain ⟨hpc, -⟩ := he.op rfl
      obtain rfl := Option.some.inj h
      refine hd.same rfl id (fun h => ?_) (by simp)
      simp only [State.frame, hpc] at h
      exact h
  | exit f e =>
      obtain ⟨hpc, -⟩ := he.op rfl
      exact hd.exit (by simp only [State.frame, hpc]) (fun hf => hform (by rw [hf]; rfl)) h
  | pending =>
      obtain ⟨hpc, -, -, hcoroutine⟩ := he.op rfl
      obtain rfl := Option.some.inj h
      refine hd.same rfl id (fun h => ?_) (by simp)
      simp only [State.frame, hpc] at h
      obtain ⟨rfl, -⟩ := State.seat_eq_some h
      rfl
  | check b =>
      obtain ⟨f, w, hpc, -⟩ := he.check
      simp only [State.perform, hpc] at h
      rcases State.checked_eq h with ⟨-, rfl⟩ | ⟨-, hblocked⟩
      · have hquiet := (View.cancelEvents_quiet s.view w.queue).trans (View.returned_quiet _ w)
        refine hd.same rfl (hquiet.exited t).mp (fun h => ?_) (by simp)
        simp only [State.frame, hpc] at h
        rw [← h]
        exact State.seat_view hquiet.toCalm
      · obtain ⟨v, hv, hresched⟩ := Option.bind_eq_some_iff.mp hblocked
        exact hd.stopped ha (by simp only [State.frame, hpc]) (by simp [State.leaving, hpc])
          (View.blockCurrent_stops hv) hresched
  | tick =>
      cases hpc : s.pc with
      | notifyAll q resched after =>
          simp only [State.perform, State.tick, hpc] at h
          exact hd.notifyRound hpc h
      | resume k =>
          simp only [State.perform, State.tick, hpc] at h
          refine goOn (fun ht hexited => ?_) h
          refine (hd.releasePrev (by simp [hpc])).away ha.releasePrev ?_ ?_ ht hexited
          · simp only [State.frame, s.releasePrev_eq.2.2.2.2.2.2.2, hpc]
          · simp only [State.leaving, s.releasePrev_eq.2.2.2.2.2.2.2, hpc]
      | loopTop =>
          simp only [State.perform, State.tick, hpc] at h
          obtain ⟨-, rfl⟩ := State.schedule_eq h
          refine (hd.releasePrev (by simp [hpc])).same rfl id (fun h => ?_) (by simp)
          simp only [State.frame, s.releasePrev_eq.2.2.2.2.2.2.2, hpc] at h
          exact h
      | poll =>
          have hs := hc.seated (by simp [hpc]) (by simp [hpc])
          simp only [State.perform, State.tick, hpc] at h
          refine goOn (fun ht hexited => ?_) (State.poll_eq hs h)
          exact hd.away ha (by simp only [State.frame, hpc])
            (by simp [State.leaving, hpc]) ht hexited
      | polled u =>
          simp only [State.perform, State.tick, hpc] at h
          exact hd.takeStack hpc h
      | handOver u a =>
          simp only [State.perform, State.tick, hpc] at h
          exact hd.handOver ha hpc h
      | _ => simp [State.perform, State.tick, hpc] at h
  | _ => exact absurd rfl hplain

end Departs

/-- The references to `t` are accounted for. -/
structure Counts (kind : ℕ → Kind) (t : Task) (s : State σ) : Prop where
  count : t ∈ s.spawned ∨ (s.refs t).released = false →
    (s.refs t).strong = (s.refs t).handles + (s.refs t).wakers +
      (if s.polling kind t = true then 1 else 0) + (if s.Handed t then 1 else 0)
  gone : (s.refs t).released = true →
    s.view.state t = .exited ∧ s.view.prevTask ≠ some t ∧ s.view.current ≠ t
  created : t ∈ s.spawned → s.created t = true

namespace Counts

/-- The references to `t` are left alone, and the loop that polls it is not entered or
left. -/
theorem same (hc : Counts kind t s) (hrefs : s'.refs t = s.refs t)
    (hspawned : s'.spawned = s.spawned) (hpolling : s'.polling kind t = s.polling kind t)
    (hgone : s.view.state t = .exited → s.view.prevTask ≠ some t → s.view.current ≠ t →
      s'.view.state t = .exited ∧ s'.view.prevTask ≠ some t ∧ s'.view.current ≠ t)
    (hcreated : s.created t = true → s'.created t = true) : Counts kind t s' := by
  have hhanded : s'.Handed t ↔ s.Handed t := by
    simp only [State.Handed, hspawned, hrefs]
  refine ⟨fun h => ?_, fun h => ?_, fun h => ?_⟩
  · rw [hspawned, hrefs] at h
    simp only [hrefs, hpolling, hhanded]
    exact hc.count h
  · rw [hrefs] at h
    obtain ⟨hexited, hprev, hcurrent⟩ := hc.gone h
    exact hgone hexited hprev hcurrent
  · rw [hspawned] at h
    exact hcreated (hc.created h)

/-- The view of the scheduler changes quietly. -/
theorem keeps (hc : Counts kind t s) (h : s.Keeps s') (hview : s.view.Quiet s'.view)
    (hpolling : s'.polling kind t = s.polling kind t) : Counts kind t s' :=
  hc.same (by rw [h.refs]) h.spawned hpolling
    (fun hexited hprev hcurrent => ⟨(hview.exited t).mpr hexited, by rwa [hview.prevTask],
      by rwa [hview.current]⟩) (by rw [h.created]; exact id)

/-- The next task, which is ready, takes the place of the current one. -/
theorem replaced {v v' : View σ} {sch : σ} {next : Task} (hpicks : View.Picks B v sch next)
    (hv' : v' = (v.picked sch next).replaceCurrent next) (hexited : v.state t = .exited)
    (hcurrent : v.current ≠ t) :
    v'.state t = .exited ∧ v'.prevTask ≠ some t ∧ v'.current ≠ t := by
  subst hv'
  refine ⟨(hpicks.calm.exited t).mpr hexited, ?_, ?_⟩
  · intro h
    exact hcurrent (Option.some.inj h)
  · intro h
    have hnext : next = t := h
    have hready := hpicks.ready
    rw [hnext, hexited] at hready
    cases hready

section Reschedule

variable {k : Kont}

theorem resched (hc : Counts kind t s) (hs : Settled kind (s.seat kind) s)
    (hpc : s.pc ≠ .loopTop) (hpc' : ∀ u stack, s.pc ≠ .handOver u stack)
    (h : s.resched kind B k = some s') : Counts kind t s' := by
  have hbefore : s.polling kind t = (t.isCoroutine kind && (s.kstack t).isSome) :=
    State.polling_eq hpc hpc' t
  obtain ⟨sch, next, hpicks, ⟨-, rfl⟩ | ⟨hne, s₁, hset, hload⟩⟩ := State.resched_eq h
  · refine hc.same rfl rfl ?_ (fun hexited hprev hcurrent => ?_) id
    · rw [hbefore]
      rfl
    · exact ⟨(hpicks.calm.exited t).mpr hexited, hprev, hcurrent⟩
  have hset' := State.setKstack_setUp hset
  have hspawned : s₁.spawned = s.spawned := by
    rcases State.setKstack_eq hset with ⟨rfl, -⟩ | ⟨-, -, _, _, _, -, rfl⟩ <;> rfl
  have hview : (s₁.switched next k).view = (s.view.picked sch next).replaceCurrent next := by
    simp [State.switched, hset'.view]
  have hrefs : (s₁.switched next k).refs t = s.refs t := congrFun hset'.refs t
  have hcreated : (s₁.switched next k).created = s.created := hset'.created
  have hgone : s.view.state t = .exited → s.view.prevTask ≠ some t → s.view.current ≠ t →
      (s₁.switched next k).view.state t = .exited ∧
        (s₁.switched next k).view.prevTask ≠ some t ∧ (s₁.switched next k).view.current ≠ t :=
    fun hexited _ hcurrent => replaced hpicks hview hexited hcurrent
  have hother : t ≠ next → s₁.kstack t = s.kstack t := fun ht => (hset'.others t ht).1
  -- the next task goes on in its poll if it has kept its stack, and is about to be polled if not
  have hctx : (s₁.switched next k).ctx next = s₁.ctx next := by
    simp [State.switched, hset'.view, View.picked, View.setState, Ne.symm hne]
  rcases State.loadContext_eq hload with ⟨k', hk', rfl⟩ | ⟨hk', rfl⟩
  · refine hc.same hrefs hspawned ?_ hgone (by rw [hcreated]; exact id)
    rw [hbefore]
    by_cases ht : t = next
    · subst ht
      rcases State.setKstack_eq hset with ⟨rfl, -⟩ | ⟨-, -, _, _, _, -, rfl⟩
      · rfl
      · rw [show (State.switched _ t k).view.current = t from rfl, hctx] at hk'
        simp at hk'
    · show (t.isCoroutine kind && (s₁.kstack t).isSome) = _
      rw [hother ht]
  · refine hc.same hrefs hspawned ?_ hgone (by rw [hcreated]; exact id)
    rw [hbefore]
    by_cases ht : t = next
    · subst ht
      have hafter : State.polling kind { s₁.switched t k with pc := .loopTop } t = false := by
        simp [State.polling, State.switched, View.replaceCurrent]
      rw [hafter, Eq.comm, Bool.and_eq_false_iff, or_iff_not_imp_left, Bool.not_eq_false]
      intro hcoroutine
      rcases State.setKstack_eq hset with ⟨rfl, -⟩ | ⟨hnone, -, -⟩
      · by_contra hsome
        rw [Bool.not_eq_false] at hsome
        rcases hs.away t hcoroutine hsome with hseat | ⟨k', hk''⟩
        · exact hne (State.seat_eq_some hseat).1.symm
        · rw [show (State.switched _ t k).view.current = t from rfl, hctx] at hk'
          rw [show s.ctx t = .schedule from hk'] at hk''
          cases hk''
      · simp [show s.kstack t = none from hnone]
    · have hafter : State.polling kind { s₁.switched next k with pc := .loopTop } t =
          (t.isCoroutine kind && (s₁.kstack t).isSome) := by
        simp [State.polling, State.switched, View.replaceCurrent, ht]
      rw [hafter, hother ht]

theorem goOn (hc : Counts kind t s)
    (hpolling : s.polling kind t = (t.isCoroutine kind && (s.kstack t).isSome))
    (h : s.goOn k = some s') : Counts kind t s' := by
  obtain ⟨hquiet, -, hpc⟩ := State.goOn_quiet h
  have hkeeps := State.goOn_keeps h
  refine hc.keeps hkeeps hquiet ?_
  rw [hpolling, ← hkeeps.kstack]
  rcases hpc with hpc | ⟨f, w, hpc⟩ <;> exact State.polling_eq (by simp [hpc]) (by simp [hpc]) t

theorem reschedFuture (hc : Counts kind t s) (hpc : s.pc ≠ .loopTop)
    (hpc' : ∀ u stack, s.pc ≠ .handOver u stack) (h : s.reschedFuture B k = some s') :
    Counts kind t s' := by
  have hbefore : s.polling kind t = (t.isCoroutine kind && (s.kstack t).isSome) :=
    State.polling_eq hpc hpc' t
  obtain ⟨sch, next, hpicks, ⟨-, hgo⟩ | ⟨-, rfl⟩⟩ := State.reschedFuture_eq h
  · have hc' : Counts kind t { s with view := s.view.picked sch next } := by
      refine hc.same rfl rfl ?_ (fun hexited hprev hcurrent => ?_) id
      · rw [hbefore]
        exact State.polling_eq (s := { s with view := s.view.picked sch next }) hpc hpc' t
      · exact ⟨(hpicks.calm.exited t).mpr hexited, hprev, hcurrent⟩
    exact hc'.goOn (State.polling_eq (s := { s with view := _ }) hpc hpc' t) hgo
  · refine hc.same rfl rfl ?_ (fun hexited _ hcurrent => ?_) id
    · rw [hbefore]
      rfl
    · exact replaced hpicks rfl hexited hcurrent

theorem reschedule {f : Form} (hc : Counts kind t s) (hs : Settled kind (s.seat kind) s)
    (hpc : s.pc ≠ .loopTop) (hpc' : ∀ u stack, s.pc ≠ .handOver u stack)
    (h : s.reschedule kind B f k = some s') : Counts kind t s' := by
  cases f with
  | thread => exact hc.resched hs hpc hpc' h
  | future => exact hc.reschedFuture hpc hpc' h

/-- The current task has stopped. -/
theorem stopped {v : View σ} {f : Form} (hc : Counts kind t s) (hs : Settled kind (s.seat kind) s)
    (hpc : s.pc ≠ .loopTop) (hpc' : ∀ u stack, s.pc ≠ .handOver u stack) (hv : s.view.Stops v)
    (h : State.reschedule { s with view := v } kind B f k = some s') : Counts kind t s' := by
  have hc' : Counts kind t { s with view := v } := by
    refine hc.same rfl rfl ?_ (fun hexited hprev hcurrent => ?_) id
    · rw [State.polling_eq (s := { s with view := v }) hpc hpc', State.polling_eq hpc hpc']
    · exact ⟨(hv.exited t).mpr hexited, by rwa [hv.prevTask], by rwa [hv.current]⟩
  refine hc'.reschedule ?_ hpc hpc' h
  rw [State.seat_view hv.toCalm]
  exact hs.view hv.toCalm

end Reschedule

theorem exit {f : Form} {e : ℤ} (hc : Counts kind t s) (hpc : s.pc ≠ .loopTop)
    (hpc' : ∀ u stack, s.pc ≠ .handOver u stack) (h : s.exit f e = some s') :
    Counts kind t s' := by
  have hbefore : s.polling kind t = (t.isCoroutine kind && (s.kstack t).isSome) :=
    State.polling_eq hpc hpc' t
  obtain ⟨hrunning, -, ⟨-, -, rfl⟩ | ⟨-, rfl⟩⟩ := State.exit_eq h
  · refine hc.keeps ⟨rfl, rfl, rfl, rfl, rfl, rfl, rfl⟩ (.refl _) ?_
    rw [hbefore]
    rfl
  · refine hc.same rfl rfl ?_ (fun hexited hprev hcurrent => ⟨?_, hprev, hcurrent⟩) id
    · rw [hbefore]
      rfl
    · simpa [View.setState, Ne.symm hcurrent] using hexited

theorem notifyRound {q : QueueId} {resched : Bool} {after : Option Form} (hc : Counts kind t s)
    (hs : Settled kind (s.seat kind) s) (hpc : s.pc = .notifyAll q resched after)
    (h : s.notifyRound kind B q resched after = some s') : Counts kind t s' := by
  obtain ⟨⟨v, found⟩, hv, hgo⟩ := Option.bind_eq_some_iff.mp h
  have hquiet := View.notifyOne_quiet hv
  have hbefore : s.polling kind t = (t.isCoroutine kind && (s.kstack t).isSome) :=
    State.polling_eq (by simp [hpc]) (by simp [hpc]) t
  have hbefore' : State.polling kind { s with view := v } t =
      (t.isCoroutine kind && (s.kstack t).isSome) :=
    State.polling_eq (by simp [hpc]) (by simp [hpc]) t
  have hc' : Counts kind t { s with view := v } :=
    hc.keeps ⟨rfl, rfl, rfl, rfl, rfl, rfl, rfl⟩ hquiet (hbefore'.trans hbefore.symm)
  cases found with
  | true =>
      obtain rfl := Option.some.inj hgo
      exact hc'
  | false =>
      cases after with
      | none =>
          obtain rfl := Option.some.inj hgo
          refine hc'.keeps ⟨rfl, rfl, rfl, rfl, rfl, rfl, rfl⟩ (.refl _) ?_
          rw [hbefore']
          rfl
      | some f =>
          refine hc'.reschedule ?_ (by simp [hpc]) (by simp [hpc]) hgo
          rw [State.seat_view hquiet.toCalm]
          exact hs.view hquiet.toCalm

/-- A resume point drops the reference of the scheduler to a task that has exited. -/
theorem releasePrev (hc : Counts kind t s) (hrunning : s.view.state s.view.current = .running) :
    Counts kind t s.releasePrev := by
  obtain ⟨hcurrent', hstate'⟩ := View.takePrevTask_eq s.view
  cases hprev : s.view.prevTask with
  | none =>
      have : s.releasePrev = s := by simp [State.releasePrev, hprev]
      rwa [this]
  | some p =>
      have htake : s.view.takePrevTask.prevTask = none := by
        simp [View.takePrevTask, hprev]
      have hpolling : ∀ refs, State.polling kind
        { s with view := s.view.takePrevTask, refs := refs } t =
          s.polling kind t := by
        intro refs
        simp only [State.polling, hcurrent']
      have hstay : Counts kind t { s with view := s.view.takePrevTask } := by
        refine hc.same rfl rfl (hpolling _) (fun hexited _ hcurrent => ⟨?_, ?_, ?_⟩) id
        · exact hstate' ▸ hexited
        · simp [htake]
        · exact hcurrent' ▸ hcurrent
      by_cases hexited : s.view.takePrevTask.state p = .exited
      · have heq : s.releasePrev = State.setRefs { s with view := s.view.takePrevTask } p
            { s.refs p with strong := (s.refs p).strong - 1, released := true } := by
          simp [State.releasePrev, hprev, hexited]
        rw [heq]
        by_cases hp : t = p
        · subst hp
          have hfresh : (s.refs t).released = false := by
            by_contra hreleased
            exact (hc.gone (by simpa using hreleased)).2.1 hprev
          have hcount := hc.count (.inr hfresh)
          refine ⟨fun h => ?_, fun _ => ⟨hexited, by simp [State.setRefs, htake], ?_⟩, hc.created⟩
          · have hspawned : t ∈ s.spawned := by simpa [State.setRefs] using h
            rw [if_pos (show s.Handed t from ⟨hspawned, hfresh⟩)] at hcount
            simp only [State.setRefs, State.Handed, Function.update_self, hpolling] at hcount ⊢
            simp only [Bool.true_eq_false, and_false, if_false]
            omega
          · show s.view.takePrevTask.current ≠ t
            rintro rfl
            rw [hstate', hcurrent', hrunning] at hexited
            cases hexited
        · exact hstay.same (Function.update_of_ne hp _ _) rfl
            ((hpolling _).trans (hpolling _).symm) (fun h₁ h₂ h₃ => ⟨h₁, h₂, h₃⟩) id
      · have heq : s.releasePrev = { s with view := s.view.takePrevTask } := by
          simp [State.releasePrev, hprev, hexited]
        rwa [heq]

/-- The loop of `coroutine_schedule` makes a waker of the current task. -/
theorem schedule (hc : Counts kind t s) (hs : Settled kind (s.seat kind) s)
    (hrunning : s.view.state s.view.current = .running) (hpc : s.pc = .loopTop)
    (h : s.schedule kind = some s') : Counts kind t s' := by
  obtain ⟨hcoroutine, rfl⟩ := State.schedule_eq h
  have hc' := hc.releasePrev hrunning
  have hs' := hs.releasePrev
  have hpc' : s.releasePrev.pc = .loopTop := by rw [s.releasePrev_eq.2.2.2.2.2.2.2, hpc]
  generalize s.releasePrev = u at hc' hs' hcoroutine hpc'
  by_cases ht : t = u.view.current
  · subst ht
    have hfresh : (u.refs u.view.current).released = false := by
      by_contra hreleased
      exact (hc'.gone (by simpa using hreleased)).2.2 rfl
    have hcount := hc'.count (.inr hfresh)
    have hbefore : u.polling kind u.view.current = false := by simp [State.polling, hpc']
    have hafter : State.polling kind { u with
        refs := (u.incStrong u.view.current).refs, pc := .poll } u.view.current = true := by
      rw [State.polling_eq (by simp) (by simp), hcoroutine, Bool.true_and]
      exact hs'.held _ (by simp [State.seat, hcoroutine])
    have hhanded : State.Handed { u with
        refs := (u.incStrong u.view.current).refs, pc := .poll } u.view.current ↔
          u.Handed u.view.current := by
      simp [State.Handed, State.incStrong, State.setRefs]
    refine ⟨fun _ => ?_, fun hreleased => ?_, hc'.created⟩
    · simp only [hafter, hhanded, if_true]
      simp only [hbefore, Bool.false_eq_true, if_false] at hcount
      simp only [State.incStrong, State.setRefs, Function.update_self]
      omega
    · simp only [State.incStrong, State.setRefs, Function.update_self, hfresh] at hreleased
      cases hreleased
  · refine hc'.same (Function.update_of_ne ht _ _) rfl ?_ (fun h₁ h₂ h₃ => ⟨h₁, h₂, h₃⟩) id
    rw [State.polling_eq (by simp) (by simp)]
    simp [State.polling, hpc', ht]

theorem takeStack {u : Task} (hc : Counts kind t s) (hpc : s.pc = .polled u)
    (h : s.takeStack B u = some s') : Counts kind t s' := by
  obtain ⟨v, a, hstack, rfl, hcase⟩ := State.takeStack_eq h
  refine hc.same rfl rfl ?_ (fun hexited hprev hcurrent => ?_) id
  · rw [State.polling_eq (s := s) (by simp [hpc]) (by simp [hpc])]
    by_cases ht : t = u
    · simp [State.polling, ht, hstack]
    · simp [State.polling, ht]
  · rcases hcase with ⟨-, rfl⟩ | ⟨hrunning, sch, next, hpicks, hcase⟩
    · exact ⟨hexited, hprev, hcurrent⟩
    · have hblocked : (s.view.setState u .blocked).state t = .exited :=
        View.setState_exited (by rw [hrunning]; decide) hexited
      rcases hcase with ⟨-, rfl⟩ | ⟨-, rfl⟩
      · exact ⟨(hpicks.calm.exited t).mpr hblocked, hprev, hcurrent⟩
      · exact replaced hpicks rfl hblocked hcurrent

/-- The end of the loop: the waker is dropped when a coroutine takes over the stack, and
lost otherwise. -/
theorem handOver {u : Task} {a : ℕ} (hc : Counts kind t s) (hctl : Control kind s)
    (hpc : s.pc = .handOver u a)
    (hnext : t = u → s.view.current.isCoroutine kind = true ∧ s.kstack s.view.current = none)
    (h : s.handOver u a = some s') : Counts kind t s' := by
  have hfits := hctl.fits
  have hs := hctl.settled
  simp only [State.Fits, hpc] at hfits
  simp only [State.frame, hpc] at hs
  rcases State.handOver_eq h with ⟨hnone, -, -, rfl⟩ | ⟨hstack, hload⟩
  · by_cases ht : t = u
    · subst ht
      have hbefore : s.polling kind t = true := by simp [State.polling, hpc, hfits.1]
      have hafter : State.polling kind { s with
          refs := (s.decStrong t).refs
          kstack := Function.update s.kstack s.view.current (some a)
          pc := .loopTop } t = false := by
        by_cases hcurrent : t = s.view.current
        · simp [State.polling, hcurrent]
        · simp [State.polling, hcurrent, hfits.2]
      have hhanded : State.Handed { s with
          refs := (s.decStrong t).refs
          kstack := Function.update s.kstack s.view.current (some a)
          pc := .loopTop } t ↔ s.Handed t := by
        simp [State.Handed, State.decStrong, State.setRefs]
      refine ⟨fun h => ?_, fun hreleased => ?_, hc.created⟩
      · have hcount := hc.count (by simpa [State.decStrong, State.setRefs] using h)
        simp only [hafter, hhanded, Bool.false_eq_true, if_false]
        simp only [hbefore, if_true] at hcount
        simp only [State.decStrong, State.setRefs, Function.update_self]
        omega
      · refine hc.gone ?_
        simpa [State.decStrong, State.setRefs] using hreleased
    · refine hc.same (Function.update_of_ne ht _ _) rfl ?_ (fun h₁ h₂ h₃ => ⟨h₁, h₂, h₃⟩) id
      by_cases hcurrent : t = s.view.current
      · subst hcurrent
        simp [State.polling, hpc, hnone, ht]
      · simp [State.polling, hpc, hcurrent, ht]
  · have ht : t ≠ u := by
      intro ht
      obtain ⟨hcoroutine, hnone⟩ := hnext ht
      obtain ⟨hinit, hidle⟩ := Task.isCoroutine_of_user hcoroutine
      rcases hstack hnone with h' | h'
      · exact absurd h' (by simp [hinit])
      · exact absurd h' (by simp [hidle])
    have hbefore : s.polling kind t = (t.isCoroutine kind && (s.kstack t).isSome) := by
      simp [State.polling, hpc, ht]
    rcases State.loadContext_eq hload with ⟨k, -, rfl⟩ | ⟨hschedule, rfl⟩
    · refine hc.same rfl rfl ?_ (fun h₁ h₂ h₃ => ⟨h₁, h₂, h₃⟩) id
      rw [hbefore]
      rfl
    · refine hc.same rfl rfl ?_ (fun h₁ h₂ h₃ => ⟨h₁, h₂, h₃⟩) id
      rw [hbefore]
      by_cases hcurrent : t = s.view.current
      · -- a coroutine that has kept its stack goes on at its resume point
        subst hcurrent
        have hafter : State.polling kind { s with
            pool := a :: s.pool
            ctx := Function.update s.ctx u .dead
            pc := .loopTop } s.view.current = false := by
          simp [State.polling]
        rw [hafter, Eq.comm, Bool.and_eq_false_iff, or_iff_not_imp_left, Bool.not_eq_false]
        intro hcoroutine
        by_contra hsome
        rw [Bool.not_eq_false] at hsome
        obtain ⟨k, hk⟩ := (hs.away _ hcoroutine hsome).resolve_left (by simp)
        simp only [Function.update_of_ne ht, hk] at hschedule
        cases hschedule
      · simp [State.polling, hcurrent]

/-- User code makes or gives up as many references as the strong count changes by. -/
theorem adjust (hc : Counts kind t s) (hspawned : s'.spawned = s.spawned)
    (hcreated : s'.created = s.created) (hkstack : s'.kstack = s.kstack)
    (hview : s.view.Quiet s'.view) (hpc : s'.pc = s.pc)
    (hreleased : (s'.refs t).released = (s.refs t).released)
    (hsum : t ∈ s.spawned ∨ (s.refs t).released = false →
      (s'.refs t).strong + (s.refs t).handles + (s.refs t).wakers =
        (s.refs t).strong + (s'.refs t).handles + (s'.refs t).wakers) : Counts kind t s' := by
  have hpolling : s'.polling kind t = s.polling kind t := by
    simp only [State.polling, hpc, hkstack, hview.current]
  have hhanded : s'.Handed t ↔ s.Handed t := by simp only [State.Handed, hspawned, hreleased]
  refine ⟨fun h => ?_, fun h => ?_, by rw [hspawned, hcreated]; exact hc.created⟩
  · rw [hspawned, hreleased] at h
    have hcount := hc.count h
    have hsum' := hsum h
    simp only [hpolling, hhanded]
    omega
  · rw [hreleased] at h
    rw [hview.exited, hview.prevTask, hview.current]
    exact hc.gone h

/-- A change of the references to the task `u` by user code. -/
theorem setRefs {u : Task} {r : Refs} (hc : Counts kind t s)
    (hreleased : r.released = (s.refs u).released)
    (hsum : t = u → (t ∈ s.spawned ∨ (s.refs t).released = false →
      r.strong + (s.refs u).handles + (s.refs u).wakers =
        (s.refs u).strong + r.handles + r.wakers)) : Counts kind t (s.setRefs u r) := by
  refine hc.adjust rfl rfl rfl (.refl _) rfl ?_ ?_
  · by_cases ht : t = u
    · simp [State.setRefs, ht, hreleased]
    · simp [State.setRefs, ht]
  · intro h
    by_cases ht : t = u
    · have := hsum ht h
      simpa [State.setRefs, ht] using this
    · simp [State.setRefs, ht]

/-- Only the view has changed. -/
theorem view {v : View σ} (hc : Counts kind t s) (hv : s.view.Quiet v) :
    Counts kind t { s with view := v } :=
  hc.adjust rfl rfl rfl hv rfl rfl fun _ => rfl

/-- No loop polls a task that has been released. -/
theorem released_polling (hc : Counts kind t s) (hd : Departs kind t s) (hpc : s.pc = .user)
    (hreleased : (s.refs t).released = true) : s.polling kind t = false := by
  rw [State.polling_eq (by simp [hpc]) (by simp [hpc]), Bool.and_eq_false_iff,
    or_iff_not_imp_left, Bool.not_eq_false]
  intro ht
  obtain ⟨hexited, -, hcurrent⟩ := hc.gone hreleased
  have hnone := (hd.left ht hexited).resolve_left fun h => by
    simp only [State.frame, hpc] at h
    exact hcurrent (State.seat_eq_some h).1.symm
  rw [hnone]
  rfl

theorem new {n : ℕ} (hc : Counts kind t s) (hd : Departs kind t s) (hpc : s.pc = .user)
    (hholds : s.Holds kind (.new n)) : Counts kind t (s.new kind n) := by
  obtain ⟨hcreated, hstrong⟩ := hholds
  have hrefs : (s.new kind n).refs = Function.update s.refs (.user n) ⟨1, 1, 0, false⟩ := by
    unfold State.new
    cases kind n <;> rfl
  have hcreated' : ∀ u, (s.new kind n).created u =
    (Function.update s.created (.user n) true) u := by
    intro u
    unfold State.new
    cases kind n <;> rfl
  have hspawned : (s.new kind n).spawned = s.spawned := by
    unfold State.new
    cases kind n <;> rfl
  have hview : (s.new kind n).view = s.view := by
    unfold State.new
    cases kind n <;> rfl
  have hpc' : (s.new kind n).pc = s.pc := by
    unfold State.new
    cases kind n <;> rfl
  have hkstack : t.isCoroutine kind = true → (s.new kind n).kstack t = s.kstack t := by
    intro ht
    unfold State.new
    cases hn : kind n with
    | thread =>
        have hne : t ≠ .user n := by
          rintro rfl
          simp [Task.isCoroutine, hn] at ht
        simp [State.setRefs, hne]
    | coroutine => rfl
  have hpolling : (s.new kind n).polling kind t = s.polling kind t := by
    rw [State.polling_eq (by simp [hpc', hpc]) (by simp [hpc', hpc]),
      State.polling_eq (by simp [hpc]) (by simp [hpc])]
    cases ht : t.isCoroutine kind with
    | true => rw [hkstack ht]
    | false => rfl
  by_cases ht : t = .user n
  · subst ht
    have hnot : .user n ∉ s.spawned := by
      intro hmem
      rw [hc.created hmem] at hcreated
      cases hcreated
    -- nothing refers to a task that is about to be made
    have hidle : s.polling kind (.user n) = false := by
      by_contra hp
      rw [Bool.not_eq_false] at hp
      by_cases hreleased : (s.refs (.user n)).released = true
      · rw [hc.released_polling hd hpc hreleased] at hp
        cases hp
      · have hcount := hc.count (.inr (by simpa using hreleased))
        rw [if_pos hp] at hcount
        omega
    refine ⟨fun _ => ?_, fun h => ?_, fun h => ?_⟩
    · simp [State.Handed, hrefs, hpolling, hidle, hspawned, hnot]
    · simp [hrefs] at h
    · exact absurd (hspawned ▸ h) hnot
  · refine hc.same (by simp [hrefs, ht]) hspawned hpolling ?_ ?_
    · rw [hview]
      exact fun h₁ h₂ h₃ => ⟨h₁, h₂, h₃⟩
    · intro h
      rw [hcreated', Function.update_of_ne ht]
      exact h

theorem spawn {n : ℕ} (hc : Counts kind t s) (hpc : s.pc = .user)
    (hholds : s.Holds kind (.spawn n)) (h : s.spawn B n = some s') : Counts kind t s' := by
  obtain ⟨hcreated, hnot, hpos⟩ := hholds
  obtain ⟨v, hv, rfl⟩ := Option.map_eq_some_iff.mp h
  have hquiet := View.addTask_quiet hv
  have hpolling : State.polling kind { s.setRefs (.user n)
      { s.refs (.user n) with handles := (s.refs (.user n)).handles - 1 } with
      view := v, spawned := s.spawned ++ [.user n] } t = s.polling kind t := by
    rw [State.polling_eq (s := s) (by simp [hpc]) (by simp [hpc])]
    exact State.polling_eq (by simp [State.setRefs, hpc]) (by simp [State.setRefs, hpc]) t
  by_cases ht : t = .user n
  · subst ht
    have hfresh : (s.refs (.user n)).released = false := by
      by_contra hreleased
      have hexited := (hc.gone (by simpa using hreleased)).1
      rw [(View.addTask_eq hv).1] at hexited
      cases hexited
    have hcount := hc.count (.inr hfresh)
    have hbefore : ¬ s.Handed (.user n) := fun h => hnot h.1
    rw [if_neg hbefore] at hcount
    refine ⟨fun _ => ?_, fun h => ?_, fun _ => hcreated⟩
    · rw [hpolling]
      simp only [State.Handed, State.setRefs, Function.update_self, hfresh, List.mem_append,
        List.mem_singleton, or_true, and_self, if_true]
      omega
    · simp only [State.setRefs, Function.update_self, hfresh] at h
      cases h
  · have hmem : t ∈ s.spawned ++ [.user n] ↔ t ∈ s.spawned := by simp [ht]
    have hrefs : (s.setRefs (.user n)
        { s.refs (.user n) with handles := (s.refs (.user n)).handles - 1 }).refs t = s.refs t :=
      Function.update_of_ne ht _ _
    refine ⟨fun h => ?_, fun h => ?_, fun h => hc.created (hmem.mp h)⟩
    · simp only [State.Handed, hrefs, hmem, hpolling] at h ⊢
      exact hc.count h
    · simp only [hrefs] at h
      obtain ⟨hexited, hprev, hcurrent⟩ := hc.gone h
      exact ⟨(hquiet.exited t).mpr hexited, by rwa [hquiet.prevTask], by rwa [hquiet.current]⟩

theorem plain {a : Act} {g : List Act} (hc : Counts kind t s) (hd : Departs kind t s)
    (hguard : Lossless kind t g s a) (hpc : s.pc = .user) (hholds : s.Holds kind a)
    (ha : a.isPlain = true) (h : s.perform kind B a = some s') : Counts kind t s' := by
  obtain ⟨hwake, hwakeByRef, -, -⟩ := hguard
  cases a with
  | new n =>
      obtain rfl := Option.some.inj h
      exact hc.new hd hpc hholds
  | spawn n => exact hc.spawn hpc hholds h
  | cloneHandle u =>
      obtain rfl := Option.some.inj h
      refine hc.setRefs rfl fun _ _ => ?_
      simp only
      omega
  | dropHandle u =>
      obtain rfl := Option.some.inj h
      refine hc.setRefs rfl fun ht hmine => ?_
      have hpos : 0 < (s.refs u).handles := hholds
      have hcount := hc.count hmine
      rw [ht] at hcount
      simp only
      omega
  | cloneWaker u =>
      obtain rfl := Option.some.inj h
      refine hc.setRefs rfl fun _ _ => ?_
      simp only
      omega
  | dropWaker u =>
      obtain rfl := Option.some.inj h
      refine hc.setRefs rfl fun ht hmine => ?_
      have hpos : 0 < (s.refs u).wakers := hholds
      have hcount := hc.count hmine
      rw [ht] at hcount
      simp only
      omega
  | notifyOne q resched =>
      obtain ⟨⟨v, b⟩, hv, rfl⟩ := Option.map_eq_some_iff.mp h
      exact hc.view ((View.notifyOne_quiet hv).trans (.of_eq rfl rfl rfl))
  | notifyTask q resched u =>
      obtain ⟨⟨v, b⟩, hv, rfl⟩ := Option.map_eq_some_iff.mp h
      exact hc.view ((View.notifyTask_quiet hv).trans (.of_eq rfl rfl rfl))
  | requeue q count target =>
      obtain rfl := Option.some.inj h
      exact hc.view (.of_eq rfl rfl rfl)
  | wake u =>
      obtain ⟨v, hv, rfl⟩ := Option.map_eq_some_iff.mp h
      have hne : t ≠ u := fun ht => hwake (by rw [ht])
      exact (hc.setRefs (r := { s.refs u with wakers := (s.refs u).wakers - 1 }) rfl
        fun ht => absurd ht hne).view (View.unblockTask_quiet hv)
  | wakeByRef u =>
      obtain ⟨v, hv, rfl⟩ := Option.map_eq_some_iff.mp h
      have hne : t ≠ u := fun ht => hwakeByRef (by rw [ht])
      have hv' : s.view.unblockTask B u true = some v := hv
      have hc' : Counts kind t (s.cloneWaker u) := hc.setRefs rfl fun ht => absurd ht hne
      exact (hc'.setRefs (r := { (s.cloneWaker u).refs u with
        wakers := ((s.cloneWaker u).refs u).wakers - 1 }) rfl
        fun ht => absurd ht hne).view (View.unblockTask_quiet hv')
  | _ => cases ha

/-- Only the view and where the CPU stands have changed. -/
theorem goto {v : View σ} {p : Pc} (hc : Counts kind t s) (hv : s.view.Quiet v)
    (hpc : s.pc ≠ .loopTop) (hpc' : ∀ u stack, s.pc ≠ .handOver u stack)
    (hp : p ≠ .loopTop) (hp' : ∀ u stack, p ≠ .handOver u stack) :
    Counts kind t { s with view := v, pc := p } := by
  refine hc.keeps ⟨rfl, rfl, rfl, rfl, rfl, rfl, rfl⟩ hv ?_
  rw [State.polling_eq hpc hpc']
  exact State.polling_eq hp hp' t

theorem step {a : Act} {g : List Act} (hc : Counts kind t s) (hd : Departs kind t s)
    (hctl : Control kind s) (ha : Active s) (hguard : Lossless kind t g s a)
    (he : s.Enabled kind a) (h : s.perform kind B a = some s') : Counts kind t s' := by
  by_cases hplain : a.isPlain = true
  · obtain ⟨hpc, -, -, hholds⟩ := he.op (by cases a <;> first | rfl | cases hplain)
    exact hc.plain hd hguard hpc hholds hplain h
  cases a with
  | yield f =>
      obtain ⟨hpc, -⟩ := he.op rfl
      obtain ⟨v, hv, hresched⟩ := Option.bind_eq_some_iff.mp h
      exact hc.stopped (hctl.seated (by simp [hpc]) (by simp [hpc])) (by simp [hpc])
        (by simp [hpc]) (View.yieldCurrent_stops hv) hresched
  | wait f w =>
      obtain ⟨hpc, -⟩ := he.op rfl
      rcases State.wait_eq h with ⟨-, hblocked⟩ | ⟨-, rfl⟩
      · obtain ⟨v, hv, hresched⟩ := Option.bind_eq_some_iff.mp hblocked
        exact hc.stopped (hctl.seated (by simp [hpc]) (by simp [hpc])) (by simp [hpc])
          (by simp [hpc]) (View.blockCurrent_stops hv) hresched
      · exact hc.goto (.refl _) (by simp [hpc]) (by simp [hpc]) (by simp) (by simp)
  | notifyAll q resched =>
      obtain ⟨hpc, -⟩ := he.op rfl
      obtain rfl := Option.some.inj h
      exact hc.goto (.refl _) (by simp [hpc]) (by simp [hpc]) (by simp) (by simp)
  | exit f e =>
      obtain ⟨hpc, -⟩ := he.op rfl
      exact hc.exit (by simp [hpc]) (by simp [hpc]) h
  | pending =>
      obtain ⟨hpc, -⟩ := he.op rfl
      obtain rfl := Option.some.inj h
      refine hc.keeps ⟨rfl, rfl, rfl, rfl, rfl, rfl, rfl⟩ (.refl _) ?_
      rw [State.polling_eq (s := s) (by simp [hpc]) (by simp [hpc])]
      rfl
  | check b =>
      obtain ⟨f, w, hpc, -⟩ := he.check
      simp only [State.perform, hpc] at h
      rcases State.checked_eq h with ⟨-, rfl⟩ | ⟨-, hblocked⟩
      · exact hc.goto ((View.cancelEvents_quiet s.view w.queue).trans (View.returned_quiet _ w))
          (by simp [hpc]) (by simp [hpc]) (by simp) (by simp)
      · obtain ⟨v, hv, hresched⟩ := Option.bind_eq_some_iff.mp hblocked
        exact hc.stopped (hctl.seated (by simp [hpc]) (by simp [hpc])) (by simp [hpc])
          (by simp [hpc]) (View.blockCurrent_stops hv) hresched
  | tick =>
      have hrunning : s.leaving = false → s.view.state s.view.current = .running := ha.running
      cases hpc : s.pc with
      | notifyAll q resched after =>
          simp only [State.perform, State.tick, hpc] at h
          exact hc.notifyRound (hctl.seated (by simp [hpc]) (by simp [hpc])) hpc h
      | resume k =>
          have hpc' : s.releasePrev.pc = .resume k := by rw [s.releasePrev_eq.2.2.2.2.2.2.2, hpc]
          simp only [State.perform, State.tick, hpc] at h
          refine (hc.releasePrev (hrunning (by simp [State.leaving, hpc]))).goOn ?_ h
          exact State.polling_eq (by simp [hpc']) (by simp [hpc']) t
      | loopTop =>
          simp only [State.perform, State.tick, hpc] at h
          exact hc.schedule (hctl.seated (by simp [hpc]) (by simp [hpc]))
            (hrunning (by simp [State.leaving, hpc])) hpc h
      | poll =>
          have hs := hctl.seated (by simp [hpc]) (by simp [hpc])
          simp only [State.perform, State.tick, hpc] at h
          exact hc.goOn (State.polling_eq (by simp [hpc]) (by simp [hpc]) t) (State.poll_eq hs h)
      | polled u =>
          simp only [State.perform, State.tick, hpc] at h
          exact hc.takeStack hpc h
      | handOver u a =>
          simp only [State.perform, State.tick, hpc] at h
          exact hc.handOver hctl hpc (fun ht => hguard.2.2.2 a (by rw [hpc, ht])) h
      | _ => simp [State.perform, State.tick, hpc] at h
  | _ => exact absurd rfl hplain

theorem init (scheduler : σ) (n : ℕ) : Counts kind (.user n) (State.init scheduler) := by
  refine ⟨fun _ => ?_, fun h => ?_, fun h => by cases h⟩
  · simp [State.init, State.polling, State.Handed]
  · simp [State.init] at h

theorem of_run {scheduler : σ} {h : List Act} {n : ℕ}
    (hrun : (machine kind B scheduler).RunOf (Lossless kind (.user n)) h s) :
    Counts kind (.user n) s ∧ Departs kind (.user n) s ∧ Control kind s ∧ Active s := by
  refine hrun.invariant (I := fun _ s => Counts kind (.user n) s ∧ Departs kind (.user n) s ∧
    Control kind s ∧ Active s) ?_ ?_
  · rintro s rfl
    exact ⟨init scheduler n, Departs.init scheduler n, Control.init scheduler,
      Active.init scheduler⟩
  · rintro h s a s' - ⟨hcounts, hd, hc, ha⟩ hguard ⟨he, hperform⟩
    exact ⟨hcounts.step hd hc ha hguard he hperform, hd.step hc ha hguard.2.2.1 he hperform,
      hc.step ha he hperform, ha.step he hperform⟩

end Counts

/-- `t` is the coroutine being polled, or one that an operation for threads has switched
out in its poll. -/
def State.Polled (kind : ℕ → Kind) (s : State σ) (t : Task) : Prop :=
  t.isCoroutine kind = true ∧ (t = s.view.current ∨ (s.kstack t).isSome = true)

instance (s : State σ) (t : Task) : Decidable (s.Polled kind t) :=
  inferInstanceAs (Decidable (_ ∧ _))

/-- Between operations the strong count of `t` is the number of handles and wakers that
user code holds, one more while `t` is polled and one more until a resume point has
released `t`; and it is never less than what user code holds. -/
structure State.Accounted (kind : ℕ → Kind) (t : Task) (s : State σ) : Prop where
  exact : s.pc = .user →
    (s.refs t).strong = (s.refs t).handles + (s.refs t).wakers +
      (if s.Polled kind t then 1 else 0) + (if (s.refs t).released = true then 0 else 1)
  last : s.pc = .user → (s.refs t).released = true → (s.refs t).handles = 0 →
    (s.refs t).wakers = 0 → (s.refs t).strong = 0
  covers : (s.refs t).handles + (s.refs t).wakers ≤ (s.refs t).strong

/-- While no step loses a reference to a spawned task, the scheduler owns one until a
resume point releases the task. -/
theorem references_accounted {scheduler : σ} {h : List Act} {n : ℕ}
    (hrun : (machine kind B scheduler).RunOf (Lossless kind (.user n)) h s)
    (hspawned : .user n ∈ s.spawned) : s.Accounted kind (.user n) := by
  obtain ⟨hcounts, hd, hctl, -⟩ := Counts.of_run hrun
  have hcount := hcounts.count (.inl hspawned)
  have hhanded : s.Handed (.user n) ↔ ¬ (s.refs (.user n)).released = true := by
    simp [State.Handed, hspawned]
  have hpolling : s.pc = .user → (s.polling kind (.user n) = true ↔ s.Polled kind (.user n)) := by
    intro hpc
    have hs := hctl.seated (by simp [hpc]) (by simp [hpc])
    rw [State.polling_eq (by simp [hpc]) (by simp [hpc]), Bool.and_eq_true]
    refine and_congr_right fun hcoroutine => ⟨.inr, fun h => h.elim (fun hcurrent => ?_) id⟩
    exact hs.held _ (by simp [State.seat, ← hcurrent, hcoroutine])
  have hexact : s.pc = .user →
      (s.refs (.user n)).strong = (s.refs (.user n)).handles + (s.refs (.user n)).wakers +
        (if s.Polled kind (.user n) then 1 else 0) +
        (if (s.refs (.user n)).released = true then 0 else 1) := by
    intro hpc
    simp only [hpolling hpc, hhanded] at hcount
    rw [hcount]
    split_ifs <;> rfl
  refine ⟨hexact, fun hpc hreleased hhandles hwakers => ?_, by omega⟩
  rw [hexact hpc, hhandles, hwakers, if_pos hreleased, if_neg]
  intro hpolled
  have := hcounts.released_polling hd hpc hreleased
  rw [(hpolling hpc).mpr hpolled] at this
  cases this

instance (t : Task) (P : Prop) [Decidable P] :
    ∀ p : Pc, Decidable (∀ stack, p = .handOver t stack → P)
  | .handOver u stack =>
      if h : u = t ∧ ¬ P then .isFalse fun hall => h.2 (hall stack (by rw [h.1]))
      else .isTrue fun a ha => by
        obtain ⟨rfl, -⟩ := Pc.handOver.inj ha
        by_contra hP
        exact h ⟨rfl, hP⟩
  | .user | .condition _ _ | .notifyAll _ _ _ | .resume _ | .loopTop | .poll | .polled _
  | .halted => .isTrue fun _ h => by cases h

instance (kind : ℕ → Kind) (t : Task) (h : List Act) (s : State σ) (a : Act) :
    Decidable (Lossless kind t h s a) :=
  inferInstanceAs (Decidable (_ ∧ _ ∧ _ ∧ _))

/-- A coroutine has exited to another one, and nothing refers to it any more. -/
theorem references_accounted_one : ∃ (h : List Act) (s : State (Sched.Fifo Task)),
    (machine parity (Sched.fifo 4) ⟨[]⟩).RunOf (Lossless parity (.user 1)) h s ∧
      (s.refs (.user 1)).released = true ∧ (s.refs (.user 1)).strong = 0 ∧
      s.Accounted parity (.user 1) := by
  let r := (playAll parity (Sched.fifo 4) ⟨[]⟩ (Lossless parity (.user 1))
    [.new 1, .new 3, .spawn 1, .spawn 3, .yield .thread, .tick, .tick, .exit .future 0, .tick,
      .tick, .tick, .tick, .tick]).get (by decide)
  have hrun : (machine parity (Sched.fifo 4) ⟨[]⟩).RunOf (Lossless parity (.user 1)) r.1 r.2 :=
    playAll_run (Option.some_get _).symm
  have hpc : r.2.pc = .user := by decide
  have hspawned : .user 1 ∈ r.2.spawned := by decide
  have hreleased : (r.2.refs (.user 1)).released = true := by decide
  have hnone : (r.2.refs (.user 1)).handles = 0 ∧ (r.2.refs (.user 1)).wakers = 0 := by decide
  generalize r.1 = h, r.2 = s at hrun hpc hspawned hreleased hnone
  have haccounted := references_accounted hrun hspawned
  exact ⟨h, s, hrun, hreleased, haccounted.last hpc hreleased hnone.1 hnone.2, haccounted⟩

/-- A coroutine that has yielded to the main task keeps the reference of the loop it has
left, and one that wakes itself keeps that of the waker. -/
theorem references_lost :
    (∃ (h : List Act) (s : State (Sched.Fifo Task)),
      (machine parity (Sched.fifo 4) ⟨[]⟩).RunOf (Async parity) h s ∧ .user 1 ∈ s.spawned ∧
        s.view.current = .main ∧ ¬ s.Accounted parity (.user 1)) ∧
      ∃ (h : List Act) (s : State (Sched.Fifo Task)),
        (machine parity (Sched.fifo 4) ⟨[]⟩).RunOf (Async parity) h s ∧ .user 1 ∈ s.spawned ∧
          s.view.current = .user 1 ∧ ¬ s.Accounted parity (.user 1) := by
  constructor
  · let r := (playAll parity (Sched.fifo 4) ⟨[]⟩ (Async parity)
      [.new 1, .spawn 1, .yield .thread, .tick, .tick, .yield .future, .tick, .tick, .tick]).get
      (by decide)
    refine ⟨r.1, r.2, playAll_run (Option.some_get _).symm, by decide, by decide, fun h => ?_⟩
    exact absurd (h.exact (by decide)) (by decide)
  · let r := (playAll parity (Sched.fifo 4) ⟨[]⟩ (Async parity)
      [.new 1, .spawn 1, .yield .thread, .tick, .tick, .wakeByRef (.user 1)]).get (by decide)
    refine ⟨r.1, r.2, playAll_run (Option.some_get _).symm, by decide, by decide, fun h => ?_⟩
    exact absurd (h.exact (by decide)) (by decide)

end Kernel
