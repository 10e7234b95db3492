import Vsched.Kernel.Common
import Vsched.Sched.Honest

/-!
# Only tasks that have been made come to the CPU

The ready queue may have dropped a task, but neither it nor a wait queue holds a task that has
not been made, and so the next task is always one that has been.
-/

namespace Kernel

open Sched (BaseScheduler TaskState Honest)

variable {σ : Type*} {B : BaseScheduler σ Task} {queue : σ → List Task} {I : σ → Prop}
  {known known' : Task → Prop} {v v' : View σ} {a a' : Common σ}

/-- All tasks in a queue are known. -/
structure View.Among (queue : σ → List Task) (I : σ → Prop) (known : Task → Prop) (v : View σ) :
    Prop where
  inv : I v.scheduler
  ready : ∀ t ∈ queue v.scheduler, known t
  waiting : ∀ q, ∀ t ∈ v.queue q, known t

/-- Also the current task has been made. -/
structure Common.Made (queue : σ → List Task) (I : σ → Prop) (a : Common σ) : Prop where
  among : a.view.Among queue I fun t => a.created t = true
  current : a.created a.view.current = true
  idle : a.created .idle = true
  slot : a.view.prevTask = none ∨ a.view.prevTask = some .main ∧ a.view.current = .main
  exited : a.stop.exits = true → a.view.state a.view.current = .exited

namespace View

theorem Among.mono (h : v.Among queue I known) (hle : ∀ t, known t → known' t) :
    v.Among queue I known' :=
  ⟨h.inv, fun t ht => hle t (h.ready t ht), fun q t ht => hle t (h.waiting q t ht)⟩

/-- The wait queues have only become shorter. -/
theorem Among.same (h : v.Among queue I known) (hscheduler : v'.scheduler = v.scheduler)
    (hqueue : ∀ q, ∀ t ∈ v'.queue q, t ∈ v.queue q) : v'.Among queue I known := by
  refine ⟨?_, ?_, fun q t ht => h.waiting q t (hqueue q t ht)⟩
  · rw [hscheduler]
    exact h.inv
  · rw [hscheduler]
    exact h.ready

/-- The scheduler has been handed a known task. -/
theorem Among.handed {t : Task} {sch : σ} (h : v.Among queue I known) (ht : known t) (hI : I sch)
    (hqueued : ∀ u ∈ queue sch, u = t ∨ u ∈ queue v.scheduler) (hscheduler : v'.scheduler = sch)
    (hqueue : v'.queue = v.queue) : v'.Among queue I known := by
  refine ⟨by rwa [hscheduler], fun u hu => ?_, by rw [hqueue]; exact h.waiting⟩
  rw [hscheduler] at hu
  rcases hqueued u hu with rfl | hu
  · exact ht
  · exact h.ready u hu

theorem Among.yieldCurrent (h : v.Among queue I known) (hB : Honest B queue I)
    (hcurrent : known v.current) (hyield : v.yieldCurrent B = some v') :
    v'.Among queue I known := by
  obtain ⟨-, ⟨-, rfl⟩ | ⟨-, sch, hput, rfl⟩⟩ := yieldCurrent_eq hyield
  · exact h.same rfl fun _ _ => id
  · obtain ⟨hI, hqueued⟩ := hB.putPrevTask h.inv hput
    exact h.handed hcurrent hI hqueued rfl rfl

theorem Among.blockCurrent {q : QueueId} (h : v.Among queue I known) (hcurrent : known v.current)
    (hblock : v.blockCurrent q = some v') : v'.Among queue I known := by
  obtain ⟨-, -, rfl⟩ := blockCurrent_eq hblock
  refine ⟨h.inv, h.ready, fun r t ht => ?_⟩
  by_cases hr : r = q
  · subst hr
    simp only [View.setQueue, Function.update_self, List.mem_append, List.mem_singleton] at ht
    rcases ht with ht | rfl
    · exact h.waiting r t ht
    · exact hcurrent
  · exact h.waiting r t (by simpa [View.setQueue, View.setInWaitQueue, View.setState, hr] using ht)

theorem Among.unblockOneTask {t : Task} {resched : Bool} (h : v.Among queue I known)
    (hB : Honest B queue I) (ht : known t) (hunblock : v.unblockOneTask B t resched = some v') :
    v'.Among queue I known := by
  obtain ⟨⟨u, b⟩, hput, rfl⟩ := Option.map_eq_some_iff.mp hunblock
  have hflag : (v.setInWaitQueue t false).Among queue I known := h.same rfl fun _ _ => id
  rcases putTaskWithState_eq hput with ⟨rfl, -, -⟩ | ⟨-, rfl, -, -⟩ | ⟨-, -, -, -, sch, hsch, rfl⟩
  · exact hflag
  · exact hflag.same rfl fun _ _ => id
  · obtain ⟨hI, hqueued⟩ := hB.putPrevTask hflag.inv hsch
    exact hflag.handed ht hI hqueued rfl rfl

theorem Among.notifyOne {q : QueueId} {resched b : Bool} (h : v.Among queue I known)
    (hB : Honest B queue I) (hnotify : v.notifyOne B q resched = some (v', b)) :
    v'.Among queue I known := by
  unfold View.notifyOne at hnotify
  split at hnotify
  · obtain ⟨rfl, -⟩ : v = v' ∧ false = b := by simpa using hnotify
    exact h
  · rename_i t rest hq
    obtain ⟨u, hu, hpair⟩ := Option.map_eq_some_iff.mp hnotify
    obtain ⟨rfl, -⟩ : u = v' ∧ true = b := by simpa using hpair
    have hrest : (v.setQueue q rest).Among queue I known := by
      refine h.same rfl fun r x hx => ?_
      by_cases hr : r = q
      · subst hr
        rw [hq]
        exact List.mem_cons_of_mem _ (by simpa [View.setQueue] using hx)
      · simpa [View.setQueue, hr] using hx
    exact hrest.unblockOneTask hB (h.waiting q t (by rw [hq]; exact List.mem_cons_self)) hu

theorem Among.cancelEvents (h : v.Among queue I known) (q : QueueId) :
    (v.cancelEvents q).Among queue I known := by
  unfold View.cancelEvents
  split_ifs
  · refine h.same rfl fun r x hx => ?_
    by_cases hr : r = q
    · subst hr
      simp only [View.setInWaitQueue, View.setQueue, Function.update_self] at hx
      exact List.mem_of_mem_filter hx
    · simpa [View.setQueue, View.setInWaitQueue, hr] using hx
  · exact h

theorem Among.returned (h : v.Among queue I known) (w : Wait) :
    (v.returned w).Among queue I known := by
  cases w <;> exact h.same rfl fun _ _ => id

theorem Among.takePrevTask (h : v.Among queue I known) : v.takePrevTask.Among queue I known := by
  unfold View.takePrevTask
  split
  · exact h
  · exact h.same rfl fun _ _ => id

/-- The next task is a known one or the idle task. -/
theorem Among.reschedF {b : Bool} (h : v.Among queue I known) (hB : Honest B queue I)
    (hresched : v.reschedF B = some (v', b)) :
    v'.Among queue I known ∧ (known v'.current ∨ v'.current = .idle) := by
  obtain ⟨sch, next, ⟨⟨x, hpick, hx⟩, -⟩, hcase⟩ := reschedF_eq hresched
  obtain ⟨hI, hless, hpicked⟩ := hB.pick _ _ _ h.inv hpick
  have hnext : known next ∨ next = .idle := by
    cases x with
    | none => exact .inr hx
    | some t =>
        left
        rw [hx]
        exact h.ready t (hpicked t rfl)
  have hamong : ∀ v' : View σ, v'.scheduler = sch → v'.queue = v.queue →
      v'.Among queue I known := by
    rintro v' rfl hqueue
    exact ⟨hI, fun t ht => h.ready t (hless t ht), by rw [hqueue]; exact h.waiting⟩
  rcases hcase with ⟨hsame, -, rfl⟩ | ⟨-, -, rfl⟩
  · refine ⟨hamong _ rfl rfl, ?_⟩
    show known v.current ∨ v.current = .idle
    rwa [hsame]
  · exact ⟨hamong _ rfl rfl, hnext⟩

end View

namespace Common

/-- The CPU stays where it is. -/
theorem Made.quiet {p : Stop} (h : a.Made queue I)
    (hamong : v.Among queue I fun t => a.created t = true) (hquiet : a.view.Quiet v)
    (hp : p.exits = true → a.stop.exits = true) : Made queue I { a with view := v, stop := p } := by
  refine ⟨hamong, ?_, h.idle, ?_, fun hexits => ?_⟩
  · show a.created v.current = true
    rw [hquiet.current]
    exact h.current
  · show v.prevTask = none ∨ v.prevTask = some .main ∧ v.current = .main
    rw [hquiet.prevTask, hquiet.current]
    exact h.slot
  · show v.state v.current = .exited
    rw [hquiet.current, hquiet.exited]
    exact h.exited (hp hexits)

theorem Made.goOn {p : Plan} (h : a.Made queue I) : (a.goOn p).Made queue I := by
  unfold Common.goOn
  split
  · exact h.quiet h.among (.refl _) (by simp [Stop.exits])
  · split
    · exact h.quiet ((h.among.cancelEvents _).returned _)
        ((View.cancelEvents_quiet _ _).trans (View.returned_quiet _ _)) (by simp [Stop.exits])
    · exact h.quiet h.among (.refl _) (by simp [Stop.exits])

/-- The next task comes to the CPU. -/
theorem Made.resched {p : Plan} (h : a.Made queue I) (hB : Honest B queue I)
    (hamong : v.Among queue I fun t => a.created t = true)
    (hresched : Common.resched { a with view := v } B p = some a') : a'.Made queue I := by
  obtain ⟨⟨w, b⟩, hpick, rfl⟩ := Option.map_eq_some_iff.mp hresched
  obtain ⟨hamong', hknown⟩ := hamong.reschedF hB hpick
  refine Made.goOn ⟨hamong'.takePrevTask, ?_, h.idle, .inl (View.takePrevTask_prevTask w),
    by simp [Stop.exits]⟩
  show a.created w.takePrevTask.current = true
  rw [(View.takePrevTask_eq w).1]
  refine hknown.elim id fun hidle => ?_
  rw [hidle]
  exact h.idle

theorem Made.block {w : Wait} (h : a.Made queue I) (hB : Honest B queue I)
    (hblock : a.block B w = some a') : a'.Made queue I := by
  obtain ⟨v, hv, hresched⟩ := Option.bind_eq_some_iff.mp hblock
  exact h.resched hB (h.among.blockCurrent h.current hv) hresched

theorem Made.exit {e : ℤ} (h : a.Made queue I) (hexit : a.exit e = some a') :
    a'.Made queue I := by
  simp only [Common.exit] at hexit
  split_ifs at hexit
  · obtain rfl := Option.some.inj hexit
    exact h.quiet h.among (.refl _) (by simp [Stop.exits])
  · obtain rfl := Option.some.inj hexit
    exact ⟨h.among.same rfl fun _ _ => id, h.current, h.idle, h.slot,
      fun _ => by simp [View.setState]⟩

theorem Made.notifyRound {q : QueueId} {resched exits : Bool} (h : a.Made queue I)
    (hB : Honest B queue I) (hround : a.notifyRound B q resched exits = some a') :
    a'.Made queue I := by
  obtain ⟨⟨v, b⟩, hv, hgo⟩ := Option.bind_eq_some_iff.mp hround
  have hamong := h.among.notifyOne hB hv
  have hquiet := View.notifyOne_quiet hv
  cases b with
  | true =>
      obtain rfl := Option.some.inj hgo
      exact h.quiet (p := a.stop) hamong hquiet id
  | false =>
      cases exits with
      | false =>
          obtain rfl := Option.some.inj hgo
          exact h.quiet hamong hquiet (by simp [Stop.exits])
      | true => exact h.resched hB hamong hgo

theorem Made.new (h : a.Made queue I) (n : ℕ) : (a.new n).Made queue I := by
  have hle : ∀ t, a.created t = true → (a.new n).created t = true := by
    intro t ht
    show Function.update a.created (.user n) true t = true
    by_cases htn : t = .user n
    · simp [htn]
    · rwa [Function.update_of_ne htn]
  exact ⟨h.among.mono hle, hle _ h.current, hle _ h.idle, h.slot, h.exited⟩

theorem Made.spawn {n : ℕ} (h : a.Made queue I) (hB : Honest B queue I)
    (hcreated : a.created (.user n) = true) (hspawn : a.spawn B n = some a') :
    a'.Made queue I := by
  obtain ⟨v, hadd, rfl⟩ := Option.map_eq_some_iff.mp hspawn
  obtain ⟨-, sch, hsch, rfl⟩ := View.addTask_eq hadd
  obtain ⟨hI, hqueued⟩ := hB.addTask h.among.inv hsch
  exact ⟨h.among.handed hcreated hI hqueued rfl rfl, h.current, h.idle, h.slot, h.exited⟩

theorem Made.call {o : Op} (h : a.Made queue I) (hB : Honest B queue I) (hmay : a.MayCall o)
    (hcall : a.call B o = some a') : a'.Made queue I := by
  have hstay : ∀ p : Stop, p.exits = false → Made queue I { a with stop := p } := by
    intro p hp
    exact h.quiet h.among (.refl _) (by simp [hp])
  cases o with
  | yield =>
      obtain ⟨v, hv, hresched⟩ := Option.bind_eq_some_iff.mp hcall
      exact h.resched hB (h.among.yieldCurrent hB h.current hv) hresched
  | wait w =>
      cases hcond : w.cond with
      | none =>
          simp only [Common.call, hcond] at hcall
          exact h.block hB hcall
      | some c =>
          simp only [Common.call, hcond, Option.some.injEq] at hcall
          subst hcall
          exact hstay _ rfl
  | notifyOne q resched =>
      obtain ⟨⟨v, b⟩, hv, rfl⟩ := Option.map_eq_some_iff.mp hcall
      have hamong := h.among.notifyOne hB hv
      exact h.quiet (p := a.stop) (hamong.same rfl fun _ _ => id)
        ((View.notifyOne_quiet hv).trans (.of_eq rfl rfl rfl)) id
  | notifyAll q resched =>
      obtain rfl := Option.some.inj hcall
      exact hstay _ rfl
  | new n =>
      obtain rfl := Option.some.inj hcall
      exact h.new n
  | spawn n => exact h.spawn hB hmay.2.1 hcall
  | exit e => exact h.exit hcall

theorem Made.checked {w : Wait} {b : Bool} (h : a.Made queue I) (hB : Honest B queue I)
    (hchecked : a.checked B w b = some a') : a'.Made queue I := by
  unfold Common.checked at hchecked
  split_ifs at hchecked
  · obtain rfl := Option.some.inj hchecked
    exact h.quiet ((h.among.cancelEvents _).returned _)
      ((View.cancelEvents_quiet _ _).trans (View.returned_quiet _ _)) (by simp [Stop.exits])
  · exact h.block hB hchecked

/-- Whatever happens next, only tasks that have been made are left. -/
theorem Made.perform {x : Next} (h : a.Made queue I) (hB : Honest B queue I) (he : a.Enabled x)
    (hperform : a.perform B x = some a') : a'.Made queue I := by
  unfold Common.Enabled at he
  unfold Common.perform at hperform
  split at he
  · rename_i o hstop
    rw [hstop] at hperform
    exact h.call hB he hperform
  · rename_i w b hstop
    rw [hstop] at hperform
    exact h.checked hB hperform
  · rename_i q resched exits hstop
    rw [hstop] at hperform
    exact h.notifyRound hB hperform
  · exact he.elim

theorem Made.init {scheduler : σ} (hI : I scheduler) (hempty : queue scheduler = []) :
    (Common.init scheduler).Made queue I := by
  refine ⟨⟨hI, fun t ht => ?_, fun q t ht => by cases ht⟩, rfl, rfl, .inr ⟨rfl, rfl⟩,
    fun hno => by cases hno⟩
  have hnil : queue (Common.init scheduler).view.scheduler = [] := hempty
  rw [hnil] at ht
  cases ht

end Common

end Kernel
