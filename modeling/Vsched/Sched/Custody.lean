import Vsched.Sched.Cfs

/-!
# What becomes of the tasks handed to a scheduler

A task handed in by `add_task` or `put_prev_task` is to stay in the ready queue
until one `pick_next_task` returns it. The three schedulers drop what their ready
queue refuses, so a task is lost exactly when it is handed in without room for
it; the map of the fair scheduler also gives up the task that is queued under the
key the new one is given.
-/

namespace Sched

variable {σ T : Type*}

/-- The calls that move tasks. -/
inductive Call (T : Type*)
  | addTask (task : T)
  | putPrevTask (task : T) (preempt : Bool)
  | pickNextTask
  deriving DecidableEq, Repr

/-- The task a call hands in. -/
def Call.task : Call T → Option T
  | .addTask task => some task
  | .putPrevTask task _ => some task
  | .pickNextTask => none

/-- The state after a call and the task it returns; `none` if it never returns. -/
def BaseScheduler.call (B : BaseScheduler σ T) (s : σ) : Call T → Option (σ × Option T)
  | .addTask task => (B.addTask s task).map fun s' => (s', none)
  | .putPrevTask task preempt => (B.putPrevTask s task preempt).map fun s' => (s', none)
  | .pickNextTask => B.pickNextTask s

/-- Calls one after another, with the tasks they pick. -/
def BaseScheduler.calls (B : BaseScheduler σ T) : List (Call T) → σ → Option (σ × List T)
  | [], s => some (s, [])
  | c :: cs, s => do
      let (s', picked) ← B.call s c
      let (s'', rest) ← B.calls cs s'
      pure (s'', picked.toList ++ rest)

/-- The tasks that calls hand in. -/
def handed (cs : List (Call T)) : List T := cs.filterMap Call.task

/-- Every call that hands a task in is made in a state that accepts it. -/
def Accepted (B : BaseScheduler σ T) (accepts : σ → Call T → Prop) : List (Call T) → σ → Prop
  | [], _ => True
  | c :: cs, s => (c.task.isSome → accepts s c) ∧
      ∀ r, B.call s c = some r → Accepted B accepts cs r.1

instance Accepted.decidable {B : BaseScheduler σ T} {accepts : σ → Call T → Prop}
    [∀ s c, Decidable (accepts s c)] :
    ∀ cs s, Decidable (Accepted B accepts cs s)
  | [], _ => .isTrue trivial
  | c :: cs, s =>
      match h : B.call s c with
      | none => decidable_of_iff (c.task.isSome → accepts s c) (by simp [Accepted, h])
      | some r =>
          have : Decidable (Accepted B accepts cs r.1) := Accepted.decidable cs r.1
          decidable_of_iff ((c.task.isSome → accepts s c) ∧ Accepted B accepts cs r.1)
            (by simp [Accepted, h])

/-- How a scheduler keeps its tasks while `I` holds: a hand-in that is accepted adds
its task to the queue, another one does not make the queue longer; it leaves its
task in the queue if it stores it or the task was there. -/
structure Custody (B : BaseScheduler σ T) (queue : σ → List T) (I : σ → Prop)
    (accepts stores : σ → Call T → Prop) : Prop where
  handIn : ∀ s c t, I s → c.task = some t → ∃ s', B.call s c = some (s', none) ∧ I s' ∧
    (accepts s c → (queue s').Perm (t :: queue s)) ∧
    (¬ accepts s c → (queue s').length ≤ (queue s).length) ∧
    (t ∈ queue s' ↔ t ∈ queue s ∨ stores s c)
  pick : ∀ s, I s → ∃ s' picked, B.call s .pickNextTask = some (s', picked) ∧ I s' ∧
    (queue s).Perm (picked.toList ++ queue s')

namespace Custody

variable {B : BaseScheduler σ T} {queue : σ → List T} {I : σ → Prop}
  {accepts stores : σ → Call T → Prop} {s : σ}

/-- Calls return; what is picked and queued is what was handed in and queued before
exactly when every hand-in was accepted, and is never more. -/
theorem calls (hB : Custody B queue I accepts stores) (hI : I s) (cs : List (Call T)) :
    ∃ s' picked, B.calls cs s = some (s', picked) ∧ I s' ∧
      ((picked ++ queue s').Perm (handed cs ++ queue s) ↔ Accepted B accepts cs s) ∧
      (picked ++ queue s').length ≤ (handed cs ++ queue s).length := by
  induction cs generalizing s with
  | nil => exact ⟨s, [], rfl, hI, iff_of_true (List.Perm.refl _) trivial, le_refl _⟩
  | cons c cs ih =>
      cases hc : c.task with
      | none =>
          have hpick : c = .pickNextTask := by
            cases c <;> first | rfl | cases hc
          subst hpick
          obtain ⟨s₁, first, hcall, hI₁, hperm⟩ := hB.pick s hI
          obtain ⟨s₂, rest, hcalls, hI₂, hiff, hle⟩ := ih hI₁
          have hhanded : handed (Call.pickNextTask :: cs) = handed cs := rfl
          have hacc : Accepted B accepts (Call.pickNextTask :: cs) s ↔
            Accepted B accepts cs s₁ := by
            simp [Accepted, Call.task, hcall]
          have hsum : (handed cs ++ queue s).Perm (first.toList ++ (handed cs ++ queue s₁)) := by
            refine (hperm.append_left _).trans ?_
            rw [← List.append_assoc, ← List.append_assoc]
            exact List.perm_append_comm.append_right _
          refine ⟨s₂, first.toList ++ rest, ?_, hI₂, ?_, ?_⟩
          · simp [BaseScheduler.calls, hcall, hcalls]
          · rw [hhanded, hacc, ← hiff, List.append_assoc]
            constructor
            · intro h
              exact (List.perm_append_left_iff _).mp (h.trans hsum)
            · intro h
              exact (h.append_left _).trans hsum.symm
          · rw [hhanded, hsum.length_eq, List.append_assoc]
            simp only [List.length_append] at hle ⊢
            omega
      | some t =>
          obtain ⟨s₁, hcall, hI₁, hyes, hno, -⟩ := hB.handIn s c t hI hc
          obtain ⟨s₂, rest, hcalls, hI₂, hiff, hle⟩ := ih hI₁
          have hhanded : handed (c :: cs) = t :: handed cs := by simp [handed, hc]
          have hacc : Accepted B accepts (c :: cs) s ↔
              accepts s c ∧ Accepted B accepts cs s₁ := by
            simp [Accepted, hc, hcall]
          refine ⟨s₂, rest, ?_, hI₂, ?_, ?_⟩
          · simp [BaseScheduler.calls, hcall, hcalls]
          · rw [hhanded, hacc, ← hiff]
            by_cases ha : accepts s c
            · have hsum : (handed cs ++ queue s₁).Perm (t :: handed cs ++ queue s) :=
                ((hyes ha).append_left _).trans List.perm_middle
              constructor
              · intro h
                exact ⟨ha, h.trans hsum.symm⟩
              · rintro ⟨-, h⟩
                exact h.trans hsum
            · -- a task that is lost leaves the two sides of different lengths
              have hshort := hno ha
              refine iff_of_false ?_ (fun h => ha h.1)
              intro h
              have hlen := h.length_eq
              simp only [List.cons_append, List.length_cons, List.length_append] at hlen hle
              omega
          · rw [hhanded]
            have hgrow : (queue s₁).length ≤ (queue s).length + 1 := by
              by_cases ha : accepts s c
              · rw [(hyes ha).length_eq, List.length_cons]
              · have := hno ha
                omega
            simp only [List.cons_append, List.length_cons, List.length_append] at hle ⊢
            omega

end Custody

/-- The state of a task. -/
inductive TaskState
  | running
  | ready
  | blocked
  | exited
  deriving DecidableEq, Repr

/-- A CPU as `put_task_with_state` sees it: its scheduler and what it reads of the
tasks. -/
structure PerCPU (σ T : Type*) where
  scheduler : σ
  state : T → TaskState
  isIdle : T → Bool
  onCpu : T → Bool

/-- `put_task_with_state`; `none` if it never returns. Nothing else happens while it
runs, so a task that is still on a CPU is waited for without end. -/
def putTaskWithState [DecidableEq T] (B : BaseScheduler σ T) (percpu : PerCPU σ T) (task : T)
    (currentState : TaskState) (preempt : Bool) : Option (PerCPU σ T × Bool) :=
  if percpu.state task = currentState then
    let percpu' : PerCPU σ T :=
      { percpu with state := Function.update percpu.state task .ready }
    if percpu.isIdle task then some (percpu', false)
    else if currentState = .blocked ∧ percpu.onCpu task = true then none
    else (B.putPrevTask percpu'.scheduler task preempt).map fun s =>
      ({ percpu' with scheduler := s }, true)
  else some (percpu, false)

/-- `put_task_with_state` answers `true` only after it has handed the task, now
ready, to the scheduler. -/
theorem putTaskWithState_true [DecidableEq T] {B : BaseScheduler σ T} {p p' : PerCPU σ T}
    {task : T} {currentState : TaskState} {preempt : Bool}
    (h : putTaskWithState B p task currentState preempt = some (p', true)) :
    p'.state task = .ready ∧
      B.call p.scheduler (.putPrevTask task preempt) = some (p'.scheduler, none) := by
  unfold putTaskWithState at h
  split_ifs at h with hstate hidle hspin
  · simp at h
  · simp only [Option.map_eq_some_iff, Prod.mk.injEq, and_true] at h
    obtain ⟨s, hput, rfl⟩ := h
    exact ⟨Function.update_self _ _ _, by simp [BaseScheduler.call, hput]⟩
  · simp at h

end Sched
