import Vsched.Smp.Join

/-!
# Wakers of coroutines

`TaskWaker::wake` has an effect on a blocked task only, and `coroutine_schedule`
marks its task as blocked after the poll. A wake that has tried its
compare-and-swap before the mark is lost, unless another one comes after it.
-/

namespace Smp

open Handoff (TaskState)

variable {kind : Task → Kind} {h : History} {s s' : State} {a : Cpu × Event} {c : Cpu}
  {t : Task}

/-- A waker of `t` has been called since its last poll began. -/
def issued : History → Task → Bool
  | [], _ => false
  | (_, .wake u) :: h, t => if u = t then true else issued h t
  | (_, .poll u) :: h, t => if u = t then false else issued h t
  | _ :: h, t => issued h t

/-- `t` was last marked as blocked after its poll, and has not been polled since. -/
def suspended : History → Task → Bool
  | [], _ => false
  | (_, .suspended u) :: h, t => if u = t then true else suspended h t
  | (_, .blocked u _) :: h, t => if u = t then false else suspended h t
  | (_, .poll u) :: h, t => if u = t then false else suspended h t
  | _ :: h, t => suspended h t

/-- CPU `c` carries out a wake of `t`. -/
def Waking (s : State) (c : Cpu) (t : Task) : Prop :=
  ∃ b, s.pc c = .wakeCas b t ∨ s.pc c = .wakeSpin b t ∨ s.pc c = .wakePut b t

/-- `t` has been woken since its last poll began, all wakes are finished, and still it
is blocked since that poll and in no ready queue. -/
def Lost (h : History) (s : State) (t : Task) : Prop :=
  s.state t = .blocked ∧ suspended h t = true ∧ issued h t = true ∧ (∀ c, ¬ Waking s c t) ∧
    ∀ c, t ∉ s.ready c

/-- When a coroutine is marked as blocked after its poll, no waker has been called since
that poll began, or one has still to try its compare-and-swap. -/
def WakesPending (h : History) (s : State) (a : Cpu × Event) : Prop :=
  ∀ t, a.2 = .suspended t → issued h t = true → ∃ c b, s.pc c = .wakeCas b t

theorem suspended_cons {ev : Event} (hnot : ev ≠ .suspended t)
    (ht : suspended ((c, ev) :: h) t = true) : suspended h t = true := by
  cases ev with
  | suspended u =>
      have hu : u ≠ t := by
        rintro rfl
        exact hnot rfl
      simpa [suspended, hu] using ht
  | blocked u w =>
      by_cases hu : u = t
      · simp [suspended, hu] at ht
      · simpa [suspended, hu] using ht
  | poll u =>
      by_cases hu : u = t
      · simp [suspended, hu] at ht
      · simpa [suspended, hu] using ht
  | _ => exact ht

theorem issued_cons {ev : Event} (hnot : ev ≠ .wake t) (ht : issued ((c, ev) :: h) t = true) :
    issued h t = true := by
  cases ev with
  | wake u =>
      have hu : u ≠ t := by
        rintro rfl
        exact hnot rfl
      simpa [issued, hu] using ht
  | poll u =>
      by_cases hu : u = t
      · simp [issued, hu] at ht
      · simpa [issued, hu] using ht
  | _ => exact ht

theorem Step.at_wake (hstep : Step kind s a s') (hev : a.2 = .wake t) :
    ∃ b, s'.pc a.1 = .wakeCas b t := by
  cases hstep <;> cases hev
  · exact ⟨_, by simp; rfl⟩
  · exact ⟨_, by simp; rfl⟩

/-- A wake that is about to try its compare-and-swap keeps waiting for it, or has woken
the task. -/
theorem Step.wake_pending {b : Caller} (hstep : Step kind s a s') (hpc : s.pc c = .wakeCas b t)
    (hblocked : s'.state t = .blocked) : s'.pc c = .wakeCas b t := by
  by_cases hc : c = a.1
  · subst hc
    cases hstep with
    | @wakeCas c b u hpc' _ =>
        have hut : u = t := by
          rw [show s.pc c = .wakeCas b u from hpc'] at hpc
          cases hpc
          rfl
        simp [hut] at hblocked
    | @wakeCasFail c b u hpc' hst =>
        have hut : u = t := by
          rw [show s.pc c = .wakeCas b u from hpc'] at hpc
          cases hpc
          rfl
        exact absurd hblocked (hut ▸ hst)
    | _ => simp_all
  · rw [(hstep.others hc).1, hpc]

def Event.marked : Event → Option Task
  | .suspended t => some t
  | _ => none

/-- No waker has been called when the coroutine is marked. -/
def Unwoken (h : History) (_ : State) (a : Cpu × Event) : Prop :=
  a.2.marked.all (fun t => !issued h t) = true

instance : ∀ h s a, Decidable (Unwoken h s a) :=
  fun h _ a => inferInstanceAs (Decidable (a.2.marked.all (fun t => !issued h t) = true))

theorem wakesPending_of_unwoken (ha : Unwoken h s a) : WakesPending h s a := by
  intro t hev hissued
  simp [Unwoken, hev, Event.marked, hissued] at ha

/-- The coroutine puts its waker in a queue and is marked as blocked; CPU 1 notifies. -/
def wokenLater : List Choice :=
  bootCoroutine ++ .call 0 (.wakerBlock 0) :: goes 0 3 ++ .call 0 .pending :: goes 0 10 ++
    .call 1 (.notifyWakers 0 false) :: goes 1 6

/-- CPU 1 notifies while the coroutine returns from its poll. -/
def wokenBefore : List Choice :=
  bootCoroutine ++ .call 0 (.wakerBlock 0) :: goes 0 3 ++ .call 0 .pending ::
    .call 1 (.notifyWakers 0 false) :: goes 1 4 ++ goes 0 2

end Smp
