import Vsched.Kernel.Control
import Vsched.Sched.Room

/-!
# Where the tasks are kept

A task that is known to the scheduler is in the ready queue exactly while it is ready
and in one wait queue exactly while it is blocked. The routines below the operations keep
this, and none of them fails: they return as long as the scheduler has room.
-/

namespace Kernel

open Sched (BaseScheduler TaskState Keeper)

variable {σ : Type*} {B : BaseScheduler σ Task} {queue : σ → List Task} {I : σ → Prop}
  {fits : σ → ℕ → Prop} {v v' : View σ} {known : Task → Prop} {t : Task} {n : ℕ}

/-- The tasks are where their states say. The idle task is not among those that are
`known` to the scheduler. -/
structure View.Located (queue : σ → List Task) (known : Task → Prop) (v : View σ) : Prop where
  nodup : (queue v.scheduler).Nodup
  ready : ∀ t, t ∈ queue v.scheduler ↔ known t ∧ v.state t = .ready
  waits : ∀ q, (v.queue q).Nodup
  blocked : ∀ t, v.state t = .blocked ↔ ∃ q, t ∈ v.queue q
  single : ∀ t q q', t ∈ v.queue q → t ∈ v.queue q' → q = q'
  flag : ∀ t, v.inWaitQueue t = true ↔ v.state t = .blocked
  fresh : ∀ t, ¬ known t → v.state t = .ready ∨ t = .idle ∧ v.state t = .running

namespace View.Located

theorem known_of_blocked (h : v.Located queue known) (ht : v.state t = .blocked) : known t := by
  by_contra hno
  rcases h.fresh t hno with hready | ⟨-, hrunning⟩
  · rw [ht] at hready
    cases hready
  · rw [ht] at hrunning
    cases hrunning

/-- Nothing that the invariant reads has changed. -/
theorem same (h : v.Located queue known) (hscheduler : v'.scheduler = v.scheduler)
    (hstate : v'.state = v.state) (hqueue : v'.queue = v.queue)
    (hflag : v'.inWaitQueue = v.inWaitQueue) : v'.Located queue known where
  nodup := by rw [hscheduler]; exact h.nodup
  ready := by rw [hscheduler, hstate]; exact h.ready
  waits := by rw [hqueue]; exact h.waits
  blocked := by rw [hstate, hqueue]; exact h.blocked
  single := by rw [hqueue]; exact h.single
  flag := by rw [hflag, hstate]; exact h.flag
  fresh := by rw [hstate]; exact h.fresh

/-- A task changes its state and neither was nor becomes blocked. -/
theorem shift {st : TaskState} (h : v.Located queue known) (hold : v.state t ≠ .blocked)
    (hnew : st ≠ .blocked) (hstate : v'.state = Function.update v.state t st)
    (hqueue : v'.queue = v.queue) (hflag : v'.inWaitQueue = v.inWaitQueue)
    (hnodup : (queue v'.scheduler).Nodup)
    (hready : ∀ u, u ∈ queue v'.scheduler ↔
      u ≠ t ∧ u ∈ queue v.scheduler ∨ u = t ∧ known t ∧ st = .ready)
    (hfresh : ¬ known t → st = .ready ∨ t = .idle ∧ st = .running) : v'.Located queue known := by
  have hblocked : ∀ u, v'.state u = .blocked ↔ v.state u = .blocked := by
    intro u
    by_cases hu : u = t
    · simp [hstate, hu, hold, hnew]
    · simp [hstate, hu]
  refine ⟨hnodup, fun u => ?_, by rw [hqueue]; exact h.waits, fun u => ?_, ?_, fun u => ?_,
    fun u hu => ?_⟩
  · rw [hready u, hstate]
    by_cases hu : u = t
    · simp [hu]
    · simp [hu, h.ready]
  · rw [hblocked, hqueue]
    exact h.blocked u
  · rw [hqueue]
    exact h.single
  · rw [hblocked, hflag]
    exact h.flag u
  · by_cases hut : u = t
    · subst hut
      simpa [hstate] using hfresh hu
    · simpa [hstate, hut] using h.fresh u hu

/-- A task that is not ready is handed to the scheduler while it has room for all the
tasks of `l`. -/
theorem length_lt (h : v.Located queue known) {l : List Task}
    (hl : ∀ u, known u → v.state u ≠ .exited → u ∈ l) (ht : known t)
    (hready : v.state t ≠ .ready) (hexited : v.state t ≠ .exited) :
    (queue v.scheduler).length < l.length := by
  have hnot : t ∉ queue v.scheduler := fun hmem => hready ((h.ready t).mp hmem).2
  have hsub : t :: queue v.scheduler ⊆ l := by
    intro u hu
    rcases List.mem_cons.mp hu with rfl | hu
    · exact hl _ ht hexited
    · obtain ⟨hknown, hstate⟩ := (h.ready u).mp hu
      exact hl u hknown (by rw [hstate]; decide)
  have hle := ((List.nodup_cons.mpr ⟨hnot, h.nodup⟩).subperm hsub).length_le
  rw [List.length_cons] at hle
  omega

theorem length_le (h : v.Located queue known) {l : List Task}
    (hl : ∀ u, known u → v.state u ≠ .exited → u ∈ l) :
    (queue v.scheduler).length ≤ l.length := by
  refine (h.nodup.subperm fun u hu => ?_).length_le
  obtain ⟨hknown, hstate⟩ := (h.ready u).mp hu
  exact hl u hknown (by rw [hstate]; decide)

/-- A task that was not ready is now queued. -/
theorem queued {sch : σ} (h : v.Located queue known) (ht : known t)
    (hready : v.state t ≠ .ready) (hperm : (queue sch).Perm (t :: queue v.scheduler)) :
    (queue sch).Nodup ∧ ∀ u, u ∈ queue sch ↔
      u ≠ t ∧ u ∈ queue v.scheduler ∨ u = t ∧ known t ∧ TaskState.ready = .ready := by
  have hnot : t ∉ queue v.scheduler := fun hmem => hready ((h.ready t).mp hmem).2
  refine ⟨hperm.nodup_iff.mpr (List.nodup_cons.mpr ⟨hnot, h.nodup⟩), fun u => ?_⟩
  rw [hperm.mem_iff, List.mem_cons]
  by_cases hu : u = t
  · simp [hu, ht]
  · simp [hu]

/-- `yield_current` returns. -/
theorem yieldCurrent (h : v.Located queue known) (hB : Keeper B queue I fits)
    (hI : I v.scheduler) (hfits : fits v.scheduler n) {l : List Task} (hn : l.length ≤ n)
    (hl : ∀ u, known u → v.state u ≠ .exited → u ∈ l)
    (hcurrent : known v.current ∨ v.current = .idle)
    (hidle : ¬ known .idle) (hrunning : v.state v.current = .running) :
    ∃ v', v.yieldCurrent B = some v' ∧ v'.Located queue known ∧ I v'.scheduler ∧
      v'.onCpu = v.onCpu := by
  have hisRunning : v.isRunning v.current = true := by simp [View.isRunning, hrunning]
  rcases hcurrent with hcurrent | hcurrent
  · have hne : v.current.isIdle = false := by
      cases hc : v.current with
      | idle => exact absurd (hc ▸ hcurrent) hidle
      | _ => rfl
    have hlt := h.length_lt hl hcurrent (by rw [hrunning]; decide) (by rw [hrunning]; decide)
    obtain ⟨sch, hput, hI', hperm⟩ := hB.putPrevTask (t := v.current) hI hfits
      (hlt.trans_le hn) false
    obtain ⟨hnodup, hready⟩ := h.queued hcurrent (by rw [hrunning]; decide) hperm
    refine ⟨{ v.setState v.current .ready with scheduler := sch }, ?_, ?_, hI', rfl⟩
    · simp [View.yieldCurrent, hisRunning, View.putTaskWithState, Sched.putTaskWithState, hrunning,
        hne, hput, View.setState]
    · exact h.shift (by rw [hrunning]; decide) (by decide) rfl rfl rfl hnodup hready
        fun hno => absurd hcurrent hno
  · have hisIdle : v.current.isIdle = true := by rw [hcurrent]; rfl
    refine ⟨v.setState v.current .ready, ?_, ?_, hI, rfl⟩
    · simp [View.yieldCurrent, hisRunning, View.putTaskWithState, Sched.putTaskWithState, hrunning,
        hisIdle, View.setState]
    · refine h.shift (t := v.current) (by rw [hrunning]; decide) (by decide) rfl rfl
        rfl h.nodup (fun u => ?_) fun _ => .inl rfl
      have hno : ¬ known v.current := hcurrent ▸ hidle
      by_cases hu : u = v.current
      · rw [hu]
        exact iff_of_false (fun hmem => hno ((h.ready _).mp hmem).1) (by simp [hno])
      · simp [hu, View.setState]

/-- `blocked_resched` before rescheduling. -/
theorem blockCurrent {q : QueueId} (h : v.Located queue known)
    (hidle : v.current.isIdle = false) (hrunning : v.state v.current = .running) :
    ∃ v', v.blockCurrent q = some v' ∧ v'.Located queue known ∧ v'.scheduler = v.scheduler ∧
      v'.onCpu = v.onCpu := by
  have hnowhere : ∀ q, v.current ∉ v.queue q := by
    intro q hmem
    have hblocked := (h.blocked v.current).mpr ⟨q, hmem⟩
    rw [hrunning] at hblocked
    cases hblocked
  have hknown : known v.current := by
    by_contra hno
    rcases h.fresh _ hno with hready | ⟨hc, -⟩
    · rw [hrunning] at hready
      cases hready
    · rw [hc] at hidle
      cases hidle
  have hqueued : ∀ q', (Function.update v.queue q (v.queue q ++ [v.current])) q' =
      if q' = q then v.queue q ++ [v.current] else v.queue q' := fun q' => by
    by_cases hq : q' = q <;> simp [hq]
  have hmem : ∀ u q', u ∈ (Function.update v.queue q (v.queue q ++ [v.current])) q' ↔
      u ∈ v.queue q' ∨ q' = q ∧ u = v.current := by
    intro u q'
    rw [hqueued]
    split_ifs with hq <;> simp [hq]
  refine ⟨((v.setState v.current .blocked).setInWaitQueue v.current true).setQueue q
    (v.queue q ++ [v.current]), ?_, ?_, rfl, rfl⟩
  · simp [View.blockCurrent, View.isRunning, hrunning, hidle]
  refine ⟨h.nodup, fun u => ?_, fun q' => ?_, fun u => ?_, fun u q₁ q₂ h₁ h₂ => ?_, fun u => ?_,
    fun u hu => ?_⟩
  · by_cases hu : u = v.current
    · subst hu
      simp [View.setState, View.setInWaitQueue, View.setQueue, h.ready, hrunning]
    · simp [View.setState, View.setInWaitQueue, View.setQueue, h.ready, hu]
  · show (Function.update v.queue q (v.queue q ++ [v.current]) q').Nodup
    rw [hqueued]
    split_ifs with hq
    · exact (List.nodup_append.mpr ⟨h.waits q, by simp, by
        intro a ha b hb hab
        rw [List.mem_singleton.mp hb] at hab
        exact hnowhere q (hab ▸ ha)⟩)
    · exact h.waits q'
  · show Function.update v.state v.current .blocked u = .blocked ↔
      ∃ q', u ∈ Function.update v.queue q (v.queue q ++ [v.current]) q'
    simp only [hmem]
    by_cases hu : u = v.current
    · simp [hu]
    · simp [hu, h.blocked]
  · have h₁' := (hmem u q₁).mp h₁
    have h₂' := (hmem u q₂).mp h₂
    rcases h₁' with h₁' | ⟨rfl, rfl⟩
    · rcases h₂' with h₂' | ⟨rfl, rfl⟩
      · exact h.single u q₁ q₂ h₁' h₂'
      · exact absurd h₁' (hnowhere q₁)
    · rcases h₂' with h₂' | ⟨rfl, -⟩
      · exact absurd h₂' (hnowhere q₂)
      · rfl
  · show Function.update v.inWaitQueue v.current true u = true ↔
      Function.update v.state v.current .blocked u = .blocked
    by_cases hu : u = v.current
    · simp [hu]
    · simp [hu, h.flag]
  · have hne : u ≠ v.current := by
      rintro rfl
      exact hu hknown
    show Function.update v.state v.current .blocked u = .ready ∨
      u = .idle ∧ Function.update v.state v.current .blocked u = .running
    simpa [hne] using h.fresh u hu

/-- A blocked task is taken out of its wait queue and handed to the scheduler. -/
theorem unblockOneTask {q : QueueId} {r : Bool} (h : v.Located queue known)
    (hB : Keeper B queue I fits) (hI : I v.scheduler) (hfits : fits v.scheduler n)
    {l : List Task} (hn : l.length ≤ n) (hl : ∀ u, known u → v.state u ≠ .exited → u ∈ l)
    (hidle : ¬ known .idle) (ht : t ∈ v.queue q) (hoff : v.onCpu t = false) :
    ∃ v', (v.setQueue q ((v.queue q).erase t)).unblockOneTask B t r = some v' ∧
      v'.Located queue known ∧ I v'.scheduler ∧ v'.onCpu = v.onCpu ∧
      v'.state = Function.update v.state t .ready := by
  have hblocked : v.state t = .blocked := (h.blocked t).mpr ⟨q, ht⟩
  have hknown := h.known_of_blocked hblocked
  have hne : t.isIdle = false := by
    cases t with
    | idle => exact absurd hknown hidle
    | _ => rfl
  have hlt := h.length_lt hl hknown (by rw [hblocked]; decide) (by rw [hblocked]; decide)
  obtain ⟨sch, hput, hI', hperm⟩ := hB.putPrevTask (t := t) hI hfits (hlt.trans_le hn) r
  obtain ⟨hnodup, hready⟩ := h.queued hknown (by rw [hblocked]; decide) hperm
  have herase : ∀ u q', u ∈ Function.update v.queue q ((v.queue q).erase t) q' ↔
      u ≠ t ∧ u ∈ v.queue q' := by
    intro u q'
    by_cases hq : q' = q
    · rw [hq, Function.update_self, (h.waits q).mem_erase_iff]
    · rw [Function.update_of_ne hq]
      refine ⟨fun hu => ⟨?_, hu⟩, And.right⟩
      rintro rfl
      exact hq (h.single u q' q hu ht)
  refine ⟨{ ((v.setQueue q ((v.queue q).erase t)).setInWaitQueue t false).setState t .ready with
    scheduler := sch }, ?_, ⟨hnodup, fun u => ?_, fun q' => ?_, fun u => ?_,
      fun u q₁ q₂ h₁ h₂ => ?_, fun u => ?_, fun u hu => ?_⟩, hI', rfl, rfl⟩
  · simp [View.unblockOneTask, View.unblockTask, View.putTaskWithState, Sched.putTaskWithState,
      View.setQueue, View.setInWaitQueue, View.setState, hblocked, hne, hoff, hput]
  · show u ∈ queue sch ↔ known u ∧ Function.update v.state t .ready u = .ready
    rw [hready]
    by_cases hu : u = t
    · simp [hu, hknown]
    · simp [hu, h.ready]
  · show (Function.update v.queue q ((v.queue q).erase t) q').Nodup
    by_cases hq : q' = q
    · rw [hq, Function.update_self]
      exact (h.waits q).erase t
    · rw [Function.update_of_ne hq]
      exact h.waits q'
  · show Function.update v.state t .ready u = .blocked ↔
      ∃ q', u ∈ Function.update v.queue q ((v.queue q).erase t) q'
    simp only [herase]
    by_cases hu : u = t
    · simp [hu]
    · simp [hu, h.blocked]
  · exact h.single u q₁ q₂ ((herase u q₁).mp h₁).2 ((herase u q₂).mp h₂).2
  · show Function.update v.inWaitQueue t false u = true ↔
      Function.update v.state t .ready u = .blocked
    by_cases hu : u = t
    · simp [hu]
    · simp [hu, h.flag]
  · have hut : u ≠ t := by
      rintro rfl
      exact hu hknown
    show Function.update v.state t .ready u = .ready ∨
      u = .idle ∧ Function.update v.state t .ready u = .running
    simpa [hut] using h.fresh u hu

/-- `unblock_one_task` for the front of a wait queue, if there is one. -/
theorem notifyOne {q : QueueId} {r : Bool} (h : v.Located queue known)
    (hB : Keeper B queue I fits) (hI : I v.scheduler) (hfits : fits v.scheduler n)
    {l : List Task} (hn : l.length ≤ n) (hl : ∀ u, known u → v.state u ≠ .exited → u ∈ l)
    (hidle : ¬ known .idle) (hoff : ∀ u, v.state u = .blocked → v.onCpu u = false) :
    ∃ v' b, v.notifyOne B q r = some (v', b) ∧ v'.Located queue known ∧
      I v'.scheduler ∧ v'.onCpu = v.onCpu ∧
      (b = true → ∃ t, v.state t = .blocked ∧ v'.state = Function.update v.state t .ready) ∧
      (b = false → v' = v) := by
  cases hq : v.queue q with
  | nil => exact ⟨v, false, by simp [View.notifyOne, hq], h, hI, rfl, by simp, fun _ => rfl⟩
  | cons t rest =>
      have ht : t ∈ v.queue q := by simp [hq]
      have hblocked := (h.blocked t).mpr ⟨q, ht⟩
      obtain ⟨v', hv', hloc, hI', honCpu, hstate⟩ :=
        h.unblockOneTask (r := r) hB hI hfits hn hl hidle ht (hoff t hblocked)
      have hrest : (v.queue q).erase t = rest := by simp [hq]
      rw [hrest] at hv'
      refine ⟨v', true, ?_, hloc, hI', honCpu, fun _ => ⟨t, hblocked, hstate⟩, by simp⟩
      simp [View.notifyOne, hq, hv']

theorem notifyTask {q : QueueId} {r : Bool} (h : v.Located queue known)
    (hB : Keeper B queue I fits) (hI : I v.scheduler) (hfits : fits v.scheduler n)
    {l : List Task} (hn : l.length ≤ n) (hl : ∀ u, known u → v.state u ≠ .exited → u ∈ l)
    (hidle : ¬ known .idle) (hoff : ∀ u, v.state u = .blocked → v.onCpu u = false) :
    ∃ v' b, v.notifyTask B q r t = some (v', b) ∧ v'.Located queue known ∧
      I v'.scheduler ∧ v'.onCpu = v.onCpu ∧ ∀ u, v.state u = .exited → v'.state u = .exited := by
  by_cases ht : t ∈ v.queue q
  · have hblocked := (h.blocked t).mpr ⟨q, ht⟩
    obtain ⟨v', hv', hloc, hI', honCpu, hstate⟩ :=
      h.unblockOneTask (r := r) hB hI hfits hn hl hidle ht (hoff t hblocked)
    refine ⟨v', true, by simp [View.notifyTask, ht, hv'], hloc, hI', honCpu, fun u hu => ?_⟩
    have hne : u ≠ t := by
      rintro rfl
      rw [hblocked] at hu
      cases hu
    rw [hstate, Function.update_of_ne hne]
    exact hu
  · exact ⟨v, false, by simp [View.notifyTask, ht], h, hI, rfl, fun _ => id⟩

/-- The wait queues hold other tasks, but together the same ones. -/
theorem waiting {waits : QueueId → List Task} (h : v.Located queue known)
    (hnodup : ∀ q, (waits q).Nodup) (hmem : ∀ t, (∃ q, t ∈ waits q) ↔ ∃ q, t ∈ v.queue q)
    (hsingle : ∀ t q q', t ∈ waits q → t ∈ waits q' → q = q') :
    View.Located queue known { v with queue := waits } :=
  ⟨h.nodup, h.ready, hnodup, fun t => (h.blocked t).trans (hmem t).symm, hsingle, h.flag, h.fresh⟩

/-- `requeue` moves tasks between two wait queues. -/
theorem requeue {q target : QueueId} {count : ℕ} (h : v.Located queue known) :
    (v.requeue q count target).1.Located queue known := by
  have hsplit := List.take_append_drop count (v.queue q)
  have hdisjoint : ∀ t, t ∈ (v.queue q).take count → t ∉ (v.queue q).drop count := by
    intro t htake hdrop
    have hnodup := h.waits q
    rw [← hsplit] at hnodup
    exact (List.nodup_append.mp hnodup).2.2 t htake t hdrop rfl
  have hmem : ∀ t, t ∈ v.queue q ↔ t ∈ (v.queue q).take count ∨ t ∈ (v.queue q).drop count := by
    intro t
    rw [← List.mem_append, hsplit]
  by_cases hq : target = q
  · subst hq
    have hwaits : ∀ q', (Function.update (Function.update v.queue target
        ((v.queue target).drop count)) target ((v.queue target).drop count ++
          (v.queue target).take count) q').Perm (v.queue q') := by
      intro q'
      by_cases hq' : q' = target
      · rw [hq', Function.update_self]
        exact List.perm_append_comm.trans (.of_eq hsplit)
      · rw [Function.update_of_ne hq', Function.update_of_ne hq']
    have heq : (v.requeue target count target).1 = { v with
        queue := Function.update (Function.update v.queue target
          ((v.queue target).drop count)) target ((v.queue target).drop count ++
            (v.queue target).take count) } := by
      simp [View.requeue, View.setQueue]
    rw [heq]
    refine h.waiting (fun q' => (hwaits q').nodup_iff.mpr (h.waits q')) (fun t => ?_) ?_
    · exact exists_congr fun q' => (hwaits q').mem_iff
    · intro t q₁ q₂ h₁ h₂
      exact h.single t q₁ q₂ ((hwaits q₁).mem_iff.mp h₁) ((hwaits q₂).mem_iff.mp h₂)
  · let waits := Function.update (Function.update v.queue q ((v.queue q).drop count)) target
      (v.queue target ++ (v.queue q).take count)
    have heq : (v.requeue q count target).1 = { v with queue := waits } := by
      simp [View.requeue, View.setQueue, waits, hq]
    have htarget : waits target = v.queue target ++ (v.queue q).take count := by simp [waits]
    have hsource : waits q = (v.queue q).drop count := by simp [waits, Ne.symm hq]
    have hother : ∀ q', q' ≠ target → q' ≠ q → waits q' = v.queue q' := by
      intro q' h₁ h₂
      simp [waits, h₁, h₂]
    -- a task that is in a queue now was in that queue, or has been moved
    have hfrom : ∀ t q', t ∈ waits q' → (t ∈ v.queue q' ∧ (q' = q → t ∈ (v.queue q).drop count)) ∨
        q' = target ∧ t ∈ (v.queue q).take count := by
      intro t q' ht
      by_cases h₁ : q' = target
      · rw [h₁, htarget, List.mem_append] at ht
        rcases ht with ht | ht
        · exact .inl ⟨h₁ ▸ ht, fun h₂ => absurd (h₁.symm.trans h₂) hq⟩
        · exact .inr ⟨h₁, ht⟩
      by_cases h₂ : q' = q
      · rw [h₂, hsource] at ht
        exact .inl ⟨h₂ ▸ List.mem_of_mem_drop ht, fun _ => ht⟩
      · rw [hother q' h₁ h₂] at ht
        exact .inl ⟨ht, fun h => absurd h h₂⟩
    rw [heq]
    refine h.waiting (fun q' => ?_) (fun t => ⟨?_, ?_⟩) fun t q₁ q₂ h₁ h₂ => ?_
    · by_cases h₁ : q' = target
      · rw [h₁, htarget]
        refine List.nodup_append.mpr ⟨h.waits target, (h.waits q).sublist (List.take_sublist _ _),
          ?_⟩
        rintro a ha b hb rfl
        exact hq (h.single a target q ha (List.mem_of_mem_take hb))
      by_cases h₂ : q' = q
      · rw [h₂, hsource]
        exact (h.waits q).sublist (List.drop_sublist _ _)
      · rw [hother q' h₁ h₂]
        exact h.waits q'
    · rintro ⟨q', ht⟩
      rcases hfrom t q' ht with ⟨ht, -⟩ | ⟨-, ht⟩
      · exact ⟨q', ht⟩
      · exact ⟨q, List.mem_of_mem_take ht⟩
    · rintro ⟨q', ht⟩
      by_cases h₁ : q' = target
      · exact ⟨target, by rw [htarget]; exact List.mem_append_left _ (h₁ ▸ ht)⟩
      by_cases h₂ : q' = q
      · rcases (hmem t).mp (h₂ ▸ ht) with ht | ht
        · exact ⟨target, by rw [htarget]; exact List.mem_append_right _ ht⟩
        · exact ⟨q, by rw [hsource]; exact ht⟩
      · exact ⟨q', by rw [hother q' h₁ h₂]; exact ht⟩
    · rcases hfrom t q₁ h₁ with ⟨h₁, hd₁⟩ | ⟨rfl, ht₁⟩
      · rcases hfrom t q₂ h₂ with ⟨h₂, -⟩ | ⟨-, ht₂⟩
        · exact h.single t q₁ q₂ h₁ h₂
        · have hq₁ := h.single t q₁ q h₁ (List.mem_of_mem_take ht₂)
          exact absurd (hd₁ hq₁) (hdisjoint t ht₂)
      · rcases hfrom t q₂ h₂ with ⟨h₂, hd₂⟩ | ⟨rfl, -⟩
        · have hq₂ := h.single t q₂ q h₂ (List.mem_of_mem_take ht₁)
          exact absurd (hd₂ hq₂) (hdisjoint t ht₁)
        · rfl

/-- A new task is handed to the scheduler. -/
theorem addTask (h : v.Located queue known) (hB : Keeper B queue I fits) (hI : I v.scheduler)
    (hfits : fits v.scheduler n) {l : List Task} (hn : l.length < n)
    (hl : ∀ u, known u → v.state u ≠ .exited → u ∈ l) (ht : ¬ known t) (hidle : t ≠ .idle) :
    ∃ v', v.addTask B t = some v' ∧ v'.Located queue (fun u => known u ∨ u = t) ∧
      I v'.scheduler ∧ v'.onCpu = v.onCpu := by
  have hstate : v.state t = .ready := (h.fresh t ht).resolve_right fun hno => hidle hno.1
  obtain ⟨sch, hadd, hI', hperm⟩ :=
    hB.addTask (t := t) hI hfits ((h.length_le hl).trans_lt hn)
  have hnot : t ∉ queue v.scheduler := fun hmem => ht ((h.ready t).mp hmem).1
  refine ⟨{ v with scheduler := sch }, by simp [View.addTask, hstate, hadd], ⟨?_, fun u => ?_,
    h.waits, h.blocked, h.single, h.flag, fun u hu => h.fresh u fun hk => hu (.inl hk)⟩, hI', rfl⟩
  · exact hperm.nodup_iff.mpr (List.nodup_cons.mpr ⟨hnot, h.nodup⟩)
  · show u ∈ queue sch ↔ (known u ∨ u = t) ∧ v.state u = .ready
    rw [hperm.mem_iff, List.mem_cons, h.ready]
    by_cases hu : u = t
    · simp [hu, hstate]
    · simp [hu]

/-- The scheduler picks a ready task, or the idle task is next. -/
theorem pickNextTask (h : v.Located queue known) (hB : Keeper B queue I fits) (hI : I v.scheduler)
    (hidle : ¬ known .idle) (hnone : ∀ u, v.state u ≠ .running) :
    ∃ sch next, v.pickNextTask B = some ({ v with scheduler := sch }, next) ∧
      View.Picks B v sch next ∧ (v.picked sch next).Located queue known ∧ I sch ∧
      (known next ∨ next = .idle) := by
  obtain ⟨sch, x, hpick, hI', hperm⟩ := hB.pick v.scheduler hI
  have hidleReady : v.state .idle = .ready :=
    (h.fresh .idle hidle).resolve_right fun hno => hnone _ hno.2
  cases x with
  | none =>
      have hpicks : View.Picks B v sch .idle := ⟨⟨none, hpick, rfl⟩, hidleReady⟩
      refine ⟨sch, .idle, ?_, hpicks, ?_, hI', .inr rfl⟩
      · simp [View.pickNextTask, hpick, hidleReady]
      · refine h.shift (t := .idle) (by rw [hidleReady]; decide) (by decide) rfl
          rfl rfl ?_ (fun u => ?_) fun _ => .inr ⟨rfl, rfl⟩
        · exact (hperm.nodup_iff.mp h.nodup)
        · show u ∈ queue sch ↔ _
          rw [← (show (queue v.scheduler).Perm (queue sch) from hperm).mem_iff]
          by_cases hu : u = .idle
          · subst hu
            exact iff_of_false (fun hmem => hidle ((h.ready _).mp hmem).1) (by simp)
          · simp [hu]
  | some t =>
      have hperm' : (queue v.scheduler).Perm (t :: queue sch) := hperm
      have hmem : t ∈ queue v.scheduler := hperm'.mem_iff.mpr (by simp)
      obtain ⟨hknown, hready⟩ := (h.ready t).mp hmem
      obtain ⟨hnot, hnodup⟩ := List.nodup_cons.mp (hperm'.nodup_iff.mp h.nodup)
      have hpicks : View.Picks B v sch t := ⟨⟨some t, hpick, rfl⟩, hready⟩
      refine ⟨sch, t, by simp [View.pickNextTask, hpick, hready], hpicks, ?_, hI', .inl hknown⟩
      refine h.shift (t := t) (by rw [hready]; decide) (by decide) rfl rfl rfl
        hnodup (fun u => ?_) fun hno => absurd hknown hno
      show u ∈ queue sch ↔ _
      rw [hperm'.mem_iff, List.mem_cons]
      by_cases hu : u = t
      · subst hu
        simp [hnot]
      · simp [hu]

/-- The current task exits. -/
theorem exit {code : Task → ℤ} (h : v.Located queue known) (hidle : v.current.isIdle = false)
    (hrunning : v.state v.current = .running) :
    View.Located queue known { v.setState v.current .exited with exitCode := code } := by
  have hknown : known v.current := by
    by_contra hno
    rcases h.fresh _ hno with hready | ⟨hc, -⟩
    · rw [hrunning] at hready
      cases hready
    · rw [hc] at hidle
      cases hidle
  refine h.shift (t := v.current) (by rw [hrunning]; decide) (by decide) rfl rfl rfl
    h.nodup (fun u => ?_) fun hno => absurd hknown hno
  show u ∈ queue v.scheduler ↔ _
  by_cases hu : u = v.current
  · subst hu
    refine iff_of_false (fun hmem => ?_) (by simp)
    have hready := ((h.ready _).mp hmem).2
    rw [hrunning] at hready
    cases hready
  · simp [hu]

/-- A task that runs is in no wait queue. -/
theorem cancelEvents (h : v.Located queue known) (hrunning : v.state v.current = .running)
    (q : QueueId) : v.cancelEvents q = v := by
  have hflag : v.inWaitQueue v.current = false := by
    rw [← Bool.not_eq_true, h.flag, hrunning]
    decide
  simp [View.cancelEvents, hflag]

theorem returned (h : v.Located queue known) (w : Wait) : (v.returned w).Located queue known := by
  cases w <;> exact h.same rfl rfl rfl rfl

theorem takePrevTask (h : v.Located queue known) : v.takePrevTask.Located queue known := by
  unfold View.takePrevTask
  split
  · exact h
  · exact h.same rfl rfl rfl rfl

end View.Located

end Kernel
