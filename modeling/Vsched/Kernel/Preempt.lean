import Vsched.Kernel.Model
import Vsched.Sched.Slice

/-!
# What becomes of a wake-up that asks for rescheduling

`unblock_task` with `resched` puts the woken task back as if it had been preempted and marks
the current task, which `preempt_current` then puts back in the same way. With the
round-robin scheduler both go to the front while they have some of their slice left, the
preempted task as the last one, so that it is the one that is picked.
-/

namespace Kernel

open Sched (BaseScheduler TaskState RR rr)

/-- The per-CPU data and the preempt-pending flags of the tasks. -/
structure PerCPU (σ : Type*) where
  view : View σ
  needResched : Task → Bool

namespace PerCPU

variable {σ : Type*} (B : BaseScheduler σ Task) (p : PerCPU σ)

def setPreemptPending (task : Task) (pending : Bool) : PerCPU σ :=
  { p with needResched := Function.update p.needResched task pending }

/-- `unblock_task`, on the CPU that owns the run queue. -/
def unblockTask (task : Task) (resched : Bool) : Option (PerCPU σ) :=
  (p.view.putTaskWithState B task .blocked resched).map fun r =>
    let p' : PerCPU σ := { p with view := r.1 }
    if r.2 && resched then p'.setPreemptPending r.1.current true else p'

/-- `resched` and `switch_to`. -/
def resched : Option (PerCPU σ) :=
  (p.view.pickNextTask B).map fun r =>
    let p' := { p with view := r.1.setState r.2 .running }.setPreemptPending r.2 false
    if p'.view.current = r.2 then p' else { p' with view := p'.view.replaceCurrent r.2 }

/-- `yield_current`, and `preempt_current` with `preempt`. -/
def putCurrent (preempt : Bool) : Option (PerCPU σ) :=
  if p.view.isRunning p.view.current then
    (p.view.putTaskWithState B p.view.current .running preempt).bind fun r =>
      resched B { p with view := r.1 }
  else none

def yieldCurrent : Option (PerCPU σ) := p.putCurrent B false

def preemptCurrent : Option (PerCPU σ) := p.putCurrent B true

/-- `blocked_resched`. -/
def blockedResched (q : QueueId) : Option (PerCPU σ) :=
  (p.view.blockCurrent q).bind fun v => resched B { p with view := v }

/-- The end of `exit`. -/
def exitCurrent : Option (PerCPU σ) :=
  if p.view.isRunning p.view.current && !p.view.current.isIdle then
    resched B { p with view := p.view.setState p.view.current .exited }
  else none

/-- What is called on a CPU. -/
inductive Call
  | addTask (task : Task)
  | unblockTask (task : Task) (resched : Bool)
  | taskTick
  | yieldCurrent
  | preemptCurrent
  | blockedResched (q : QueueId)
  | exitCurrent
  /-- The next task has gone on after the switch. -/
  | clearPrevTask
  deriving DecidableEq, Repr

def Call.apply : Call → Option (PerCPU σ)
  | .addTask task => (p.view.addTask B task).map fun v => { p with view := v }
  | .unblockTask task resched => p.unblockTask B task resched
  | .taskTick => (B.taskTick p.view.scheduler p.view.current).map fun r =>
      { p with view := { p.view with scheduler := r.1 } }
  | .yieldCurrent => p.yieldCurrent B
  | .preemptCurrent => p.preemptCurrent B
  | .blockedResched q => p.blockedResched B q
  | .exitCurrent => p.exitCurrent B
  | .clearPrevTask => some { p with view := p.view.takePrevTask }

/-- A task that is added is not the idle task and neither queued nor current. -/
def Call.Allowed (queue : σ → List Task) (p : PerCPU σ) : Call → Prop
  | .addTask task => task.isIdle = false ∧ task ∉ queue p.view.scheduler ∧ task ≠ p.view.current
  | _ => True

/-- A CPU after `init_vsched`. -/
def machine (start : σ → Prop) (queue : σ → List Task) : Labelled.System (PerCPU σ) Call where
  start := fun p => ∃ s, start s ∧ p = ⟨(State.init s).view, fun _ => false⟩
  step := fun p c p' => c.Allowed queue p ∧ Call.apply B p c = some p'

section RoundRobin

variable {slice cap : ℕ} {p p' : PerCPU (RR Task)} {v : View (RR Task)} {l : List Task} {t : Task}
  {preempt : Bool}

/-- The queue with a task put at the front or at the end, if there is room. -/
def queued (cap : ℕ) (front : Prop) [Decidable front] (t : Task) (l : List Task) : List Task :=
  if l.length + 1 < cap then if front then t :: l else l ++ [t] else l

theorem queued_sub {f : Prop} [Decidable f] : queued cap f t l = l ∨
    (queued cap f t l).Perm (t :: l) := by
  unfold queued
  split_ifs
  · exact .inr (List.Perm.refl _)
  · exact .inr (List.perm_append_singleton t l)
  · exact .inl rfl

/-- A task that is not idle is made ready and put back. -/
theorem putTaskWithState_rr {st : TaskState} (h : Deque.Rests cap l v.scheduler.readyQueue)
    (hstate : v.state t = st) (hidle : t.isIdle = false)
    (hcpu : st = .blocked → v.onCpu t = false) :
    ∃ s', v.putTaskWithState (rr slice cap) t st preempt =
        some ({ v with scheduler := s', state := Function.update v.state t .ready }, true) ∧
      Deque.Rests cap (queued cap (0 < v.scheduler.timeSlice t ∧ preempt = true) t l)
        s'.readyQueue ∧
      ∀ u, u ≠ t → s'.timeSlice u = v.scheduler.timeSlice u := by
  have hspin : ¬ (st = .blocked ∧ v.onCpu t = true) := by
    rintro ⟨hst, hon⟩
    rw [hcpu hst] at hon
    cases hon
  have hput : ∀ s', v.scheduler.putPrevTask slice cap t preempt = some s' →
      v.putTaskWithState (rr slice cap) t st preempt =
        some ({ v with scheduler := s', state := Function.update v.state t .ready }, true) := by
    intro s' hs'
    have hcall : (rr slice cap).putPrevTask v.scheduler t preempt = some s' := hs'
    simp [View.putTaskWithState, Sched.putTaskWithState, hstate, hidle, hspin, hcall]
  unfold queued
  by_cases hfront : 0 < v.scheduler.timeSlice t ∧ preempt = true
  · obtain ⟨m, hpush, hrest⟩ := RR.push_rests h .front t
    refine ⟨_, hput { v.scheduler with readyQueue := m } ?_, ?_, fun u _ => rfl⟩
    · rw [RR.putPrevTask, if_pos hfront]
      exact hpush
    · rw [if_pos hfront]
      exact hrest
  · let s₁ : RR Task :=
      { v.scheduler with timeSlice := Function.update v.scheduler.timeSlice t (Sched.wrap slice) }
    obtain ⟨m, hpush, hrest⟩ := RR.push_rests (s := s₁) h .back t
    refine ⟨_, hput { s₁ with readyQueue := m } ?_, ?_, fun u hu => Function.update_of_ne hu _ _⟩
    · rw [RR.putPrevTask, if_neg hfront]
      exact hpush
    · rw [if_neg hfront]
      exact hrest

/-- The queued tasks are ready, and the idle task is not queued. -/
structure Lined (cap : ℕ) (l : List Task) (v : View (RR Task)) : Prop where
  rests : Deque.Rests cap l v.scheduler.readyQueue
  nodup : l.Nodup
  ready : ∀ t ∈ l, v.state t = .ready ∧ t ≠ .idle

/-- Between two calls the current task is running and not queued, and the idle task is ready
unless it is current. -/
structure Proper (cap : ℕ) (l : List Task) (p : PerCPU (RR Task)) : Prop where
  lined : Lined cap l p.view
  out : p.view.current ∉ l
  running : p.view.state p.view.current = .running
  idle : p.view.current ≠ .idle → p.view.state .idle = .ready

theorem isIdle_iff : t.isIdle = true ↔ t = .idle := by
  cases t <;> simp [Task.isIdle]

theorem isIdle_ne (h : t ≠ .idle) : t.isIdle = false := by
  rw [Bool.eq_false_iff]
  exact fun hidle => h (isIdle_iff.mp hidle)

/-- A rescheduling picks the first task, or the idle task. -/
theorem resched_rr (h : Lined cap l p.view) (hidle : p.view.state .idle = .ready) :
    ∃ p', p.resched (rr slice cap) = some p' ∧ Proper cap l.tail p' ∧
      p'.view.current = l.head?.getD .idle := by
  obtain ⟨m, hpick, hrest⟩ := RR.pickNextTask_rests h.rests
  let next := l.head?.getD .idle
  have hready : p.view.state next = .ready := by
    cases l with
    | nil => exact hidle
    | cons t l => exact (h.ready t List.mem_cons_self).1
  have hout : next ∉ l.tail := by
    cases l with
    | nil => exact List.not_mem_nil
    | cons t l => exact (List.nodup_cons.mp h.nodup).1
  have hcall : (rr slice cap).pickNextTask p.view.scheduler =
      some ({ p.view.scheduler with readyQueue := m }, l.head?) := hpick
  have hnext : p.view.pickNextTask (rr slice cap) =
      some ({ p.view with scheduler := { p.view.scheduler with readyQueue := m } }, next) := by
    rw [View.pickNextTask, hcall]
    exact if_pos hready
  obtain ⟨p', hresched, hcur, hstate, hqueue⟩ : ∃ p', p.resched (rr slice cap) = some p' ∧
      p'.view.current = next ∧ p'.view.state = Function.update p.view.state next .running ∧
      p'.view.scheduler.readyQueue = m := by
    rw [PerCPU.resched, hnext, Option.map_some]
    by_cases hself : p.view.current = next
    · exact ⟨_, congrArg some (if_pos hself), hself, rfl, rfl⟩
    · exact ⟨_, congrArg some (if_neg hself), rfl, rfl, rfl⟩
  refine ⟨p', hresched, ⟨⟨by rw [hqueue]; exact hrest, h.nodup.tail, ?_⟩, ?_, ?_, ?_⟩, hcur⟩
  · intro t ht
    have hne : t ≠ next := fun heq => hout (heq ▸ ht)
    rw [hstate, Function.update_of_ne hne]
    exact h.ready t (List.mem_of_mem_tail ht)
  · rw [hcur]
    exact hout
  · rw [hcur, hstate, Function.update_self]
  · intro hne
    rw [hcur] at hne
    rw [hstate, Function.update_of_ne hne.symm]
    exact hidle

/-- A task that is neither queued nor idle is put back. -/
theorem Lined.put (h : Lined cap l v) {st : TaskState} (hstate : v.state t = st)
    (hidle : t ≠ .idle) (hout : t ∉ l) (hcpu : st = .blocked → v.onCpu t = false) :
    ∃ s', v.putTaskWithState (rr slice cap) t st preempt =
        some ({ v with scheduler := s', state := Function.update v.state t .ready }, true) ∧
      Lined cap (queued cap (0 < v.scheduler.timeSlice t ∧ preempt = true) t l)
        { v with scheduler := s', state := Function.update v.state t .ready } ∧
      ∀ u, u ≠ t → s'.timeSlice u = v.scheduler.timeSlice u := by
  obtain ⟨s', hput, hrest, hslices⟩ := putTaskWithState_rr
    h.rests hstate (isIdle_ne hidle) hcpu
  have hready : ∀ u, u = t ∨ u ∈ l →
      Function.update v.state t .ready u = .ready ∧ u ≠ .idle := by
    intro u hu
    by_cases hut : u = t
    · rw [hut, Function.update_self]
      exact ⟨rfl, hidle⟩
    · rw [Function.update_of_ne hut]
      exact h.ready u (hu.resolve_left hut)
  refine ⟨s', hput, ⟨hrest, ?_, ?_⟩, hslices⟩
  · rcases queued_sub (f := 0 < v.scheduler.timeSlice t ∧ preempt = true) (t := t)
      (l := l) with heq | hperm
    · rw [heq]
      exact h.nodup
    · exact hperm.nodup_iff.mpr (List.nodup_cons.mpr ⟨hout, h.nodup⟩)
  · intro u hu
    refine hready u ?_
    rcases queued_sub (f := 0 < v.scheduler.timeSlice t ∧ preempt = true) (t := t)
      (l := l) with heq | hperm
    · rw [heq] at hu
      exact .inr hu
    · exact List.mem_cons.mp (hperm.mem_iff.mp hu)

namespace Proper

/-- The current task is put back, and the first task of the queue takes its place. -/
theorem putCurrent (h : Proper cap l p) (hne : p.view.current ≠ .idle) :
    let l' := queued cap (0 < p.view.scheduler.timeSlice p.view.current ∧ preempt = true)
      p.view.current l
    ∃ p', p.putCurrent (rr slice cap) preempt = some p' ∧ Proper cap l'.tail p' ∧
      p'.view.current = l'.head?.getD .idle := by
  obtain ⟨s', hput, hlined, -⟩ := h.lined.put h.running hne
    h.out fun hst => by cases hst
  have hidle : Function.update p.view.state p.view.current .ready .idle = .ready := by
    rw [Function.update_of_ne hne.symm]
    exact h.idle hne
  obtain ⟨p', hresched, hproper, hcur⟩ := resched_rr (p := { p with
    view := { p.view with
      scheduler := s', state := Function.update p.view.state p.view.current .ready } })
    hlined hidle
  refine ⟨p', ?_, hproper, hcur⟩
  rw [PerCPU.putCurrent, if_pos (by simp [View.isRunning, h.running]), hput, Option.bind_some]
  exact hresched

/-- The idle task is not queued when it gives way. -/
theorem putCurrent_idle (h : Proper cap l p) (heq : p.view.current = .idle) :
    ∃ p', p.putCurrent (rr slice cap) preempt = some p' ∧ Proper cap l.tail p' := by
  let v : View (RR Task) :=
    { p.view with state := Function.update p.view.state p.view.current .ready }
  have hput : p.view.putTaskWithState (rr slice cap) p.view.current .running preempt =
      some (v, false) := by
    have hidle : p.view.current.isIdle = true := by rw [heq]; rfl
    simp [View.putTaskWithState, Sched.putTaskWithState, h.running, hidle, v]
  have hlined : Lined cap l v := by
    refine ⟨h.lined.rests, h.lined.nodup, ?_⟩
    intro t ht
    have hne : t ≠ p.view.current := fun heq => h.out (heq ▸ ht)
    rw [show v.state t = p.view.state t from Function.update_of_ne hne _ _]
    exact h.lined.ready t ht
  obtain ⟨p', hresched, hproper, -⟩ := resched_rr (p := { p with view := v })
    hlined (by rw [← heq]; exact Function.update_self _ _ _)
  refine ⟨p', ?_, hproper⟩
  rw [PerCPU.putCurrent, if_pos (by simp [View.isRunning, h.running]), hput, Option.bind_some]
  exact hresched

/-- The current task, blocked or exited, gives way without being queued. -/
theorem giveWay (h : Proper cap l p) (hne : p.view.current ≠ .idle)
    (hlined : Lined cap l v) (hidle : v.state .idle = p.view.state .idle)
    (hstep : PerCPU.resched (rr slice cap) { p with view := v } = some p') :
    Proper cap l.tail p' := by
  obtain ⟨p'', hresched, hproper, -⟩ := resched_rr (p := { p with view := v })
    hlined (hidle.trans (h.idle hne))
  cases hstep.symm.trans hresched
  exact hproper

/-- A change of the current task's state leaves the queued tasks ready. -/
theorem lined_setState (h : Proper cap l p) {st : TaskState}
    (hrests : v.scheduler = p.view.scheduler)
    (hstate : v.state = Function.update p.view.state p.view.current st) : Lined cap l v := by
  refine ⟨by rw [hrests]; exact h.lined.rests, h.lined.nodup, ?_⟩
  intro t ht
  have hne : t ≠ p.view.current := fun heq => h.out (heq ▸ ht)
  rw [hstate, Function.update_of_ne hne]
  exact h.lined.ready t ht

/-- A blocked task that is woken is put back as if it had been preempted, and the current
task is marked. -/
theorem unblock (h : Proper cap l p) (hblocked : p.view.state t = .blocked) {resched : Bool}
    (hcall : p.unblockTask (rr slice cap) t resched = some p') :
    t ≠ p.view.current ∧
      Proper cap (queued cap (0 < p.view.scheduler.timeSlice t ∧ resched = true) t l) p' ∧
      p'.view.current = p.view.current ∧ p'.view.state t = .ready ∧
      p'.view.scheduler.timeSlice p.view.current =
        p.view.scheduler.timeSlice p.view.current ∧
      (resched = true → p'.needResched p.view.current = true) := by
  have hcur : t ≠ p.view.current := by
    rintro rfl
    rw [h.running] at hblocked
    cases hblocked
  have hout : t ∉ l := by
    intro ht
    rw [(h.lined.ready t ht).1] at hblocked
    cases hblocked
  have hidle : t ≠ .idle := by
    rintro rfl
    rw [h.idle hcur.symm] at hblocked
    cases hblocked
  have hcpu : p.view.onCpu t = false := by
    rw [Bool.eq_false_iff]
    intro hon
    simp [PerCPU.unblockTask, View.putTaskWithState, Sched.putTaskWithState, hblocked, hon,
      isIdle_ne hidle] at hcall
  obtain ⟨s', hput, hlined, hslices⟩ := h.lined.put hblocked
    hidle hout fun _ => hcpu
  rw [PerCPU.unblockTask, hput, Option.map_some, Option.some.injEq] at hcall
  have hproper : ∀ q : PerCPU (RR Task), q.view = { p.view with
        scheduler := s', state := Function.update p.view.state t .ready } →
      Proper cap (queued cap (0 < p.view.scheduler.timeSlice t ∧ resched = true) t l) q := by
    intro q hq
    refine ⟨by rw [hq]; exact hlined, ?_, ?_, ?_⟩
    · rw [hq]
      rcases queued_sub
        (f := 0 < p.view.scheduler.timeSlice t ∧ resched = true) (t := t) (l := l)
        with heq | hperm
      · rw [heq]
        exact h.out
      · rw [hperm.mem_iff, List.mem_cons, not_or]
        exact ⟨hcur.symm, h.out⟩
    · rw [hq]
      dsimp only
      rw [Function.update_of_ne hcur.symm]
      exact h.running
    · rw [hq]
      intro hne
      dsimp only
      rw [Function.update_of_ne hidle.symm]
      exact h.idle hne
  cases resched with
  | false =>
      subst hcall
      exact ⟨hcur, hproper _ rfl, rfl, Function.update_self _ _ _, hslices _ hcur.symm,
        fun hno => by cases hno⟩
  | true =>
      subst hcall
      exact ⟨hcur, hproper _ rfl, rfl, Function.update_self _ _ _, hslices _ hcur.symm,
        fun _ => Function.update_self _ _ _⟩

theorem step (h : Proper cap l p) {c : Call} (hallowed : c.Allowed (RR.queue cap) p)
    (hcall : Call.apply (rr slice cap) p c = some p') : ∃ l', Proper cap l' p' := by
  cases c with
  | addTask task =>
      obtain ⟨hidle, hout, hcur⟩ := hallowed
      rw [RR.queue, h.lined.rests.items] at hout
      simp only [Call.apply, View.addTask] at hcall
      split_ifs at hcall with hready
      · obtain ⟨m, hpush, hrest⟩ := RR.push_rests h.lined.rests .back task
        have hadd : (rr slice cap).addTask p.view.scheduler task =
            some { p.view.scheduler with readyQueue := m } := hpush
        rw [hadd] at hcall
        obtain rfl := Option.some.inj hcall
        refine ⟨_, ⟨hrest, ?_, ?_⟩, ?_, h.running, h.idle⟩
        · split_ifs
          · exact (List.perm_append_singleton task l).nodup_iff.mpr
              (List.nodup_cons.mpr ⟨hout, h.lined.nodup⟩)
          · exact h.lined.nodup
        · intro u hu
          have hmem : u = task ∨ u ∈ l := by
            split_ifs at hu
            · exact (List.mem_append.mp hu).symm.imp List.mem_singleton.mp id
            · exact .inr hu
          rcases hmem with rfl | hu
          · exact ⟨hready, fun heq => by rw [heq] at hidle; cases hidle⟩
          · exact h.lined.ready u hu
        · intro hmem
          split_ifs at hmem
          · rcases List.mem_append.mp hmem with hmem | hmem
            · exact h.out hmem
            · exact hcur (List.mem_singleton.mp hmem).symm
          · exact h.out hmem
      · cases hcall
  | unblockTask task resched =>
      by_cases hblocked : p.view.state task = .blocked
      · exact ⟨_, (h.unblock hblocked hcall).2.1⟩
      · have hsame : p.view.putTaskWithState (rr slice cap) task .blocked resched =
            some (p.view, false) := by
          simp [View.putTaskWithState, Sched.putTaskWithState, hblocked]
        simp only [Call.apply, PerCPU.unblockTask, hsame, Option.map_some, Option.some.injEq,
          Bool.false_and, Bool.false_eq_true, if_false] at hcall
        subst hcall
        exact ⟨l, h⟩
  | taskTick =>
      obtain rfl := Option.some.inj hcall
      exact ⟨l, ⟨h.lined.rests, h.lined.nodup, h.lined.ready⟩, h.out, h.running, h.idle⟩
  | yieldCurrent =>
      by_cases hne : p.view.current = .idle
      · obtain ⟨p'', hput, hproper⟩ := h.putCurrent_idle hne
        cases hput.symm.trans hcall
        exact ⟨_, hproper⟩
      · obtain ⟨p'', hput, hproper, -⟩ := h.putCurrent hne
        cases hput.symm.trans hcall
        exact ⟨_, hproper⟩
  | preemptCurrent =>
      by_cases hne : p.view.current = .idle
      · obtain ⟨p'', hput, hproper⟩ := h.putCurrent_idle hne
        cases hput.symm.trans hcall
        exact ⟨_, hproper⟩
      · obtain ⟨p'', hput, hproper, -⟩ := h.putCurrent hne
        cases hput.symm.trans hcall
        exact ⟨_, hproper⟩
  | blockedResched q =>
      simp only [Call.apply, PerCPU.blockedResched, View.blockCurrent] at hcall
      split_ifs at hcall with hblock
      · have hne : p.view.current ≠ .idle := by
          intro heq
          rw [heq] at hblock
          simp [Task.isIdle] at hblock
        rw [Option.bind_some] at hcall
        refine ⟨_, h.giveWay hne ?_ ?_ hcall⟩
        · exact h.lined_setState rfl rfl
        · exact Function.update_of_ne hne.symm _ _
      · cases hcall
  | exitCurrent =>
      simp only [Call.apply, PerCPU.exitCurrent] at hcall
      split_ifs at hcall with hexit
      have hne : p.view.current ≠ .idle := by
        intro heq
        rw [heq] at hexit
        simp [Task.isIdle] at hexit
      refine ⟨_, h.giveWay hne ?_ ?_ hcall⟩
      · exact h.lined_setState rfl rfl
      · exact Function.update_of_ne hne.symm _ _
  | clearPrevTask =>
      obtain rfl := Option.some.inj hcall
      have hview : p.view.takePrevTask.scheduler = p.view.scheduler ∧
          p.view.takePrevTask.state = p.view.state ∧
          p.view.takePrevTask.current = p.view.current := by
        unfold View.takePrevTask
        split <;> exact ⟨rfl, rfl, rfl⟩
      obtain ⟨hsched, hstate, hcur⟩ := hview
      refine ⟨l, ⟨by rw [hsched]; exact h.lined.rests, h.lined.nodup, ?_⟩, ?_, ?_, ?_⟩
      · intro t ht
        dsimp only
        rw [hstate]
        exact h.lined.ready t ht
      · dsimp only
        rw [hcur]
        exact h.out
      · dsimp only
        rw [hcur, hstate]
        exact h.running
      · dsimp only
        rw [hcur, hstate]
        exact h.idle

/-- The preempted task is not picked again exactly if it has none of its slice left or finds
no room at the front. -/
theorem preempted (h : Proper cap l p) (hne : p.view.current ≠ .idle)
    (hblocked : p.view.state t = .blocked)
    (hcall : p.unblockTask (rr slice cap) t true = some p') :
    ∃ p'', p'.preemptCurrent (rr slice cap) = some p'' ∧
      (p''.view.current ≠ p.view.current ↔
        p.view.scheduler.timeSlice p.view.current ≤ 0 ∨ cap ≤ l.length + 2) := by
  obtain ⟨-, h', hcur, -, hslice, -⟩ := h.unblock hblocked hcall
  generalize hl' : queued cap (0 < p.view.scheduler.timeSlice t ∧ true = true) t l = l' at h'
  obtain ⟨p'', hput, -, hnext⟩ := h'.putCurrent
    (by rw [hcur]; exact hne)
  refine ⟨p'', hput, ?_⟩
  rw [hnext, hcur, hslice]
  have hout := h'.out
  rw [hcur] at hout
  have hlen : l'.length = if l.length + 1 < cap then l.length + 1 else l.length := by
    rw [← hl', queued]
    split_ifs <;> simp
  unfold queued
  by_cases hroom : l'.length + 1 < cap
  · rw [if_pos hroom]
    have hspace : l.length + 2 < cap := by
      split_ifs at hlen <;> omega
    by_cases hleft : 0 < p.view.scheduler.timeSlice p.view.current
    · rw [if_pos ⟨hleft, rfl⟩]
      exact iff_of_false (fun hno => hno rfl) (by omega)
    · rw [if_neg fun hfront => hleft hfront.1]
      refine iff_of_true ?_ (.inl (not_lt.mp hleft))
      cases l' with
      | nil =>
          rw [if_pos (by omega)] at hlen
          cases hlen
      | cons u l' =>
          intro heq
          exact hout (List.mem_cons.mpr (.inl heq.symm))
  · rw [if_neg hroom]
    refine iff_of_true ?_ (.inr (by split_ifs at hlen <;> omega))
    cases l' with
    | nil => exact fun heq => hne heq.symm
    | cons u l' =>
        intro heq
        exact hout (List.mem_cons.mpr (.inl heq.symm))

end Proper

/-- A round-robin scheduler without tasks. -/
def StartsEmpty (s : RR Task) : Prop := s.readyQueue = .new

theorem proper_run (hcap : 1 ≤ cap) {h : List Call}
    (hrun : (machine (rr slice cap) StartsEmpty (RR.queue cap)).Run h p) :
    ∃ l, Proper cap l p := by
  refine hrun.invariant (I := fun _ p => ∃ l, Proper cap l p) ?_ ?_
  · rintro p ⟨s, hs, rfl⟩
    refine ⟨[], ⟨?_, List.nodup_nil, fun t ht => (List.not_mem_nil ht).elim⟩, List.not_mem_nil,
      rfl, fun _ => rfl⟩
    change Deque.Rests cap [] s.readyQueue
    rw [show s.readyQueue = .new from hs]
    exact Deque.Inv.init hcap
  · rintro h p c p' - ⟨l, hproper⟩ - ⟨hallowed, hcall⟩
    exact hproper.step hallowed hcall

/-- In every reachable state with a current task that is not the idle task, a wake-up that
asks for rescheduling makes its task ready and marks the current one; the preemption that
follows puts another task in its place exactly if it has none of its slice left, or the deque
has no room for it beside the woken task. -/
theorem preempted_iff (hcap : 1 ≤ cap) {h : List Call}
    (hrun : (machine (rr slice cap) StartsEmpty (RR.queue cap)).Run h p)
    (hne : p.view.current ≠ .idle) (hblocked : p.view.state t = .blocked)
    (hunblock : p.unblockTask (rr slice cap) t true = some p') :
    p'.view.state t = .ready ∧ p'.needResched p.view.current = true ∧
      ∃ p'', p'.preemptCurrent (rr slice cap) = some p'' ∧
        (p''.view.current ≠ p.view.current ↔
          p.view.scheduler.timeSlice p.view.current ≤ 0 ∨
            cap ≤ (p.view.scheduler.queue cap).length + 2) := by
  obtain ⟨l, hproper⟩ := proper_run hcap hrun
  obtain ⟨-, -, -, hready, -, hmarked⟩ := hproper.unblock hblocked hunblock
  rw [RR.queue, hproper.lined.rests.items]
  exact ⟨hready, hmarked rfl, hproper.preempted hne hblocked hunblock⟩

end RoundRobin

section Play

variable {σ : Type*} {B : BaseScheduler σ Task} {queue : σ → List Task}

instance (queue : σ → List Task) (p : PerCPU σ) : ∀ c, Decidable (Call.Allowed queue p c)
  | .addTask task => inferInstanceAs (Decidable (task.isIdle = false ∧
      task ∉ queue p.view.scheduler ∧ task ≠ p.view.current))
  | .unblockTask _ _ | .taskTick | .yieldCurrent | .preemptCurrent | .blockedResched _
  | .exitCurrent | .clearPrevTask => .isTrue trivial

/-- What is called on a CPU, for the runs that are played. -/
def perform (B : BaseScheduler σ Task) (queue : σ → List Task) (p : PerCPU σ) (c : Call) :
    Option (Call × PerCPU σ) :=
  if c.Allowed queue p then (Call.apply B p c).map fun p' => (c, p') else none

theorem run_play {start : σ → Prop} {s : σ} {cs : List Call} {r : List Call × PerCPU σ}
    (hs : start s) (hplay : Labelled.play (perform B queue) (fun _ _ _ => True) cs []
      ⟨(State.init s).view, fun _ => false⟩ = some r) : (machine B start queue).Run r.1 r.2 := by
  refine Labelled.System.RunOf.play ?_ (.start ⟨s, hs, rfl⟩) hplay
  intro p c c' p' hperform
  unfold perform at hperform
  split_ifs at hperform with hallowed
  obtain ⟨q, hq, hpair⟩ := Option.map_eq_some_iff.mp hperform
  obtain ⟨rfl, rfl⟩ := Prod.mk.inj hpair
  exact ⟨hallowed, hq⟩

end Play

/-- The main task spawns a task and yields to it, and that one blocks. -/
def blockedOne : List Call :=
  [.addTask (.user 0), .yieldCurrent, .clearPrevTask, .blockedResched (.user 0), .clearPrevTask]

/-- With a slice of one tick, which it has had, the main task gives way to the woken task. -/
theorem preempted_iff_one : ∃ p' p'' : PerCPU (RR Task),
    p'.preemptCurrent (rr 1 4) = some p'' ∧ p''.view.current ≠ .main := by
  let s : RR Task := ⟨.new, fun _ => 1⟩
  let played := Labelled.play (perform (rr 1 4) (RR.queue 4)) (fun _ _ _ => True)
    (blockedOne ++ [.taskTick]) [] ⟨(State.init s).view, fun _ => false⟩
  let r := played.get (by decide +kernel)
  have hplay : played = some r := (Option.some_get (by decide +kernel : played.isSome)).symm
  have hrun := run_play (show StartsEmpty s from rfl) hplay
  have hcur : r.2.view.current = .main := by decide +kernel
  have hblocked : r.2.view.state (.user 0) = .blocked := by decide +kernel
  have hslice : r.2.view.scheduler.timeSlice .main ≤ 0 := by decide +kernel
  let unblocked := r.2.unblockTask (rr 1 4) (.user 0) true
  have hunblock : unblocked = some (unblocked.get (by decide +kernel)) :=
    (Option.some_get (by decide +kernel : unblocked.isSome)).symm
  obtain ⟨-, -, p'', hput, hiff⟩ := preempted_iff (by decide) hrun (by rw [hcur]; decide) hblocked
    hunblock
  rw [hcur] at hiff
  exact ⟨_, p'', hput, hiff.mpr (.inl hslice)⟩

/-- With some of its slice left the main task is preempted by itself, though the woken task
is queued. -/
theorem preempt_missed : ∃ (h : List Call) (p p' p'' : PerCPU (RR Task)),
    (machine (rr 5 4) StartsEmpty (RR.queue 4)).Run h p ∧ p.view.current = .main ∧
    p.view.state .main = .running ∧ p.view.state (.user 0) = .blocked ∧
    p.unblockTask (rr 5 4) (.user 0) true = some p' ∧ p'.view.state (.user 0) = .ready ∧
    p'.view.scheduler.queue 4 = [.user 0] ∧ p'.preemptCurrent (rr 5 4) = some p'' ∧
    p''.view.current = .main := by
  let s : RR Task := ⟨.new, fun _ => 5⟩
  let played := Labelled.play (perform (rr 5 4) (RR.queue 4)) (fun _ _ _ => True) blockedOne []
    ⟨(State.init s).view, fun _ => false⟩
  let r := played.get (by decide +kernel)
  have hplay : played = some r := (Option.some_get (by decide +kernel : played.isSome)).symm
  have hrun := run_play (show StartsEmpty s from rfl) hplay
  let unblocked := r.2.unblockTask (rr 5 4) (.user 0) true
  let p' := unblocked.get (by decide +kernel)
  have hunblock : unblocked = some p' :=
    (Option.some_get (by decide +kernel : unblocked.isSome)).symm
  let preempted := p'.preemptCurrent (rr 5 4)
  have hpreempt : preempted = some (preempted.get (by decide +kernel)) :=
    (Option.some_get (by decide +kernel : preempted.isSome)).symm
  exact ⟨_, r.2, p', _, hrun, by decide +kernel, by decide +kernel, by decide +kernel, hunblock,
    by decide +kernel, by decide +kernel,
    hpreempt, by decide +kernel⟩

end PerCPU

end Kernel
