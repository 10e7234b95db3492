import Vsched.Foundation.Labelled
import Vsched.Sched.Base

/-!
# One CPU and its scheduler

A CPU picks tasks from its scheduler, gives the current one ticks and puts it back, or lets
it block; a task that has blocked is woken by putting it back. A tick that asks for a
reschedule makes the current task due.
-/

namespace Sched

variable {σ T : Type*}

/-- A CPU, its current task and whether that is to be put back. -/
structure Cpu (σ T : Type*) where
  scheduler : σ
  current : Option T
  due : Bool

namespace Cpu

/-- What happens on a CPU. -/
inductive Act (T : Type*)
  | addTask (task : T)
  | pickNextTask (picked : Option T)
  | putPrevTask (prev : T) (preempt : Bool)
  | taskTick (current : T)
  | setPriority (current : T) (prio : ℤ)
  | leave (current : T)
  | wake (task : T) (preempt : Bool)
  deriving DecidableEq, Repr

/-- The task something happens to. -/
def Act.task : Act T → Option T
  | .addTask task => some task
  | .pickNextTask picked => picked
  | .putPrevTask prev _ => some prev
  | .taskTick current => some current
  | .setPriority current _ => some current
  | .leave current => some current
  | .wake task _ => some task

/-- The task that enters the ready queue. -/
def Act.enters : Act T → Option T
  | .addTask task => some task
  | .putPrevTask prev _ => some prev
  | .wake task _ => some task
  | _ => none

variable [DecidableEq T]

/-- Only the current task is put back, ticked, given a priority or blocked, and the next
one is picked when there is none. -/
def Act.apply (B : BaseScheduler σ T) (c : Cpu σ T) : Act T → Option (Cpu σ T)
  | .addTask task => (B.addTask c.scheduler task).map fun s => { c with scheduler := s }
  | .pickNextTask picked =>
      if c.current = none then
        (B.pickNextTask c.scheduler).bind fun r =>
          if r.2 = picked then some ⟨r.1, picked, false⟩ else none
      else none
  | .putPrevTask prev preempt =>
      if c.current = some prev then
        (B.putPrevTask c.scheduler prev preempt).map fun s => ⟨s, none, false⟩
      else none
  | .taskTick current =>
      if c.current = some current then
        (B.taskTick c.scheduler current).map fun r => ⟨r.1, c.current, r.2⟩
      else none
  | .setPriority current prio =>
      if c.current = some current then
        (B.setPriority c.scheduler current prio).map fun r => { c with scheduler := r.1 }
      else none
  | .leave current => if c.current = some current then some ⟨c.scheduler, none, false⟩ else none
  | .wake task preempt =>
      if c.current = some task then none
      else (B.putPrevTask c.scheduler task preempt).map fun s => { c with scheduler := s }

/-- A CPU with scheduler `B`, idle at the start. -/
def machine (B : BaseScheduler σ T) (start : σ → Prop) : Labelled.System (Cpu σ T) (Act T) where
  start := fun c => start c.scheduler ∧ c.current = none ∧ c.due = false
  step := fun c a c' => a.apply B c = some c'

section

variable {B : BaseScheduler σ T} {c c' : Cpu σ T} {t : T} {picked : Option T} {preempt : Bool}
  {prio : ℤ}

theorem addTask_eq (h : (Act.addTask t).apply B c = some c') :
    ∃ s, B.addTask c.scheduler t = some s ∧ c' = { c with scheduler := s } := by
  obtain ⟨s, hadd, rfl⟩ := Option.map_eq_some_iff.mp h
  exact ⟨s, hadd, rfl⟩

theorem pickNextTask_eq (h : (Act.pickNextTask picked).apply B c = some c') :
    c.current = none ∧ ∃ s, B.pickNextTask c.scheduler = some (s, picked) ∧
      c' = ⟨s, picked, false⟩ := by
  simp only [Act.apply, Option.ite_none_right_eq_some, Option.bind_eq_some_iff] at h
  obtain ⟨hnone, ⟨s, first⟩, hpick, hfirst, hc⟩ := h
  obtain rfl : first = picked := hfirst
  exact ⟨hnone, s, hpick, (Option.some.inj hc).symm⟩

theorem putPrevTask_eq (h : (Act.putPrevTask t preempt).apply B c = some c') :
    c.current = some t ∧ ∃ s, B.putPrevTask c.scheduler t preempt = some s ∧
      c' = ⟨s, none, false⟩ := by
  simp only [Act.apply, Option.ite_none_right_eq_some, Option.map_eq_some_iff] at h
  obtain ⟨hcur, s, hput, rfl⟩ := h
  exact ⟨hcur, s, hput, rfl⟩

theorem taskTick_eq (h : (Act.taskTick t).apply B c = some c') :
    c.current = some t ∧ ∃ s resched, B.taskTick c.scheduler t = some (s, resched) ∧
      c' = ⟨s, some t, resched⟩ := by
  simp only [Act.apply, Option.ite_none_right_eq_some, Option.map_eq_some_iff] at h
  obtain ⟨hcur, ⟨s, resched⟩, htick, rfl⟩ := h
  exact ⟨hcur, s, resched, htick, by rw [hcur]⟩

theorem setPriority_eq (h : (Act.setPriority t prio).apply B c = some c') :
    c.current = some t ∧ ∃ s done, B.setPriority c.scheduler t prio = some (s, done) ∧
      c' = { c with scheduler := s } := by
  simp only [Act.apply, Option.ite_none_right_eq_some, Option.map_eq_some_iff] at h
  obtain ⟨hcur, ⟨s, done⟩, hset, rfl⟩ := h
  exact ⟨hcur, s, done, hset, rfl⟩

theorem leave_eq (h : (Act.leave t).apply B c = some c') :
    c.current = some t ∧ c' = ⟨c.scheduler, none, false⟩ := by
  simp only [Act.apply, Option.ite_none_right_eq_some] at h
  exact ⟨h.1, (Option.some.inj h.2).symm⟩

theorem wake_eq (h : (Act.wake t preempt).apply B c = some c') :
    c.current ≠ some t ∧ ∃ s, B.putPrevTask c.scheduler t preempt = some s ∧
      c' = { c with scheduler := s } := by
  simp only [Act.apply] at h
  split_ifs at h with hcur
  obtain ⟨s, hput, rfl⟩ := Option.map_eq_some_iff.mp h
  exact ⟨hcur, s, hput, rfl⟩

end

/-- What is done on a CPU, for the runs that are played. -/
def perform (B : BaseScheduler σ T) (c : Cpu σ T) (a : Act T) : Option (Act T × Cpu σ T) :=
  (a.apply B c).map fun c' => (a, c')

theorem run_play {B : BaseScheduler σ T} {start : σ → Prop}
    {G : List (Act T) → Cpu σ T → Act T → Prop} [∀ h c a, Decidable (G h c a)] {s : σ}
    {as : List (Act T)} {r : List (Act T) × Cpu σ T} (hs : start s)
    (hplay : Labelled.play (perform B) G as [] ⟨s, none, false⟩ = some r) :
    (machine B start).RunOf G r.1 r.2 := by
  refine Labelled.System.RunOf.play ?_ (.start ⟨hs, rfl, rfl⟩) hplay
  intro c a a' c' hperform
  obtain ⟨c'', happly, hpair⟩ := Option.map_eq_some_iff.mp hperform
  obtain ⟨rfl, rfl⟩ := Prod.mk.inj hpair
  exact happly

end Cpu

end Sched
