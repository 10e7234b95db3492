import Vsched.Smp.Play
import Vsched.Smp.Tidy

/-!
# No task runs on two CPUs at once

The hand-off between the CPU that leaves a task and the one that wakes it rests
on `on_cpu`: it is cleared by a resume point for the task it finds in the slot
`prev_task`. A thread that yields and is picked again by its own CPU passes
such a resume point without a switch, and the slot is then stale.
-/

namespace Smp

variable {kind : Task → Kind} {h : History} {s : State}

/-- Two CPUs have different current tasks, and a task that `unblock_task` puts in
a ready queue has been left by every CPU. -/
def Exclusive (s : State) : Prop :=
  (∀ c d, s.pc c ≠ .off → s.pc d ≠ .off → s.current c = s.current d → c = d) ∧
    ∀ c b t, s.pc c = .wakePut b t → ∀ d, s.pc d ≠ .off →
      s.current d ≠ t ∧ s.prev d ≠ some t

theorem Tidy.exclusive (hs : Tidy kind s) : Exclusive s := by
  have hon : ∀ d, s.pc d ≠ .off → (view s).role d ≠ .off :=
    fun d hd hoff => hd (role_off.mp hoff)
  constructor
  · intro c d hc hd hsame
    exact hs.hold.one c d (s.current c) ⟨hon c hc, .inl rfl⟩ ⟨hon d hd, .inl hsame.symm⟩
  · intro c b t hpc d hd
    have hnot := hs.hold.passed c b.seated t d (view_role hpc)
    constructor
    · intro hcurrent
      exact hnot ⟨hon d hd, .inl hcurrent⟩
    · intro hprev
      exact hnot ⟨hon d hd, .inr (.inl hprev)⟩

/-- Along every run in which `take_prev_task_and_clear_on_cpu` clears the flag of
tasks only that no CPU holds, no task runs on two CPUs and none is queued by its
waker before it has been left. -/
theorem one_cpu_each (hrun : (machine kind).RunOf ClearsUnheld h s) : Exclusive s :=
  (tidy_run hrun).exclusive

/-- `main` waits, is woken by thread 3 and picked by CPU 1, after both have left
the tasks before. -/
def handOver : List Choice :=
  bootTwo ++ .call 0 (.wait (.wait (.user 0))) :: goes 0 13 ++
    .call 1 (.notify (.user 0) .one) :: goes 1 5

theorem one_cpu_each_handOver : ∃ h s, (machine twoCpus).RunOf ClearsUnheld h s ∧
    s.pc 1 = .wakePut (.queue (.user 0) .one) 0 ∧ Exclusive s := by
  let r := (playAll twoCpus MovesOn handOver).get (by decide)
  have hrun : (machine twoCpus).RunOf MovesOn r.1 r.2 :=
    playAll_run _ _ (Option.some_get _).symm
  exact ⟨r.1, r.2, clears_run hrun, by decide, one_cpu_each (clears_run hrun)⟩

/-- `main` yields to itself, which clears its flag, and waits; thread 3 wakes it
without waiting for CPU 0 to leave it. -/
def wokenEarly : List Choice :=
  bootTwo ++ .call 0 .yield :: goes 0 8 ++ .call 0 (.wait (.wait (.user 0))) :: goes 0 6 ++
    .call 1 (.notify (.user 0) .one) :: goes 1 5

/-- Thread 3 yields and CPU 1 picks `main`. -/
def pickedEarly : List Choice :=
  wokenEarly ++ goes 1 2 ++ .call 1 .yield :: goes 1 2 ++ .go 1 1 none :: goes 1 5

/-- `main` is queued by its waker while CPU 0 has not left it, and then it is the
current task of both CPUs. -/
theorem main_on_both :
    (∃ h s, (machine twoCpus).Run h s ∧ s.pc 1 = .wakePut (.queue (.user 0) .one) 0 ∧
      s.pc 0 ≠ .off ∧ s.current 0 = 0) ∧
    ∃ h s, (machine twoCpus).Run h s ∧ s.pc 0 ≠ .off ∧ s.pc 1 ≠ .off ∧
      s.current 0 = s.current 1 := by
  let r := (playAll twoCpus (fun _ _ _ => True) wokenEarly).get (by decide)
  let q := (playAll twoCpus (fun _ _ _ => True) pickedEarly).get (by decide)
  constructor
  · exact ⟨r.1, r.2, playAll_run _ _ (Option.some_get _).symm, by decide, by decide, by decide⟩
  · exact ⟨q.1, q.2, playAll_run _ _ (Option.some_get _).symm, by decide, by decide, by decide⟩

end Smp
