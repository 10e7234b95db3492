import Vsched.Smp.Play
import Vsched.Smp.Tidy

/-!
# The stacks of the tasks, on several CPUs

A thread owns the stack it was made with. A coroutine has one only while a CPU runs it:
`set_kstack` takes it from the pool of that CPU or from the allocator, and
`coroutine_schedule` passes it on to the next coroutine or puts it back into the pool. A
CPU goes to another stack only where it loads a context.
-/

namespace Smp

open Handoff (Hold Held)

/-- What a CPU executes on: the stack an init task was started on, or one from the
allocator. -/
inductive Stack
  | boot (t : Task)
  | alloc (a : ℕ)
  deriving DecidableEq, Repr

/-- The local variable `stack` of `coroutine_schedule`. -/
inductive Hand
  | empty
  | taken (a : ℕ)
  /-- It has been put into the pool; the CPU is still on it. -/
  | recycled
  deriving DecidableEq, Repr

/-- The tasks with their stacks. -/
structure Stacked where
  state : State
  kstack : Task → Option ℕ
  /-- `COROUTINE_STACK_POOL`, the last one first. -/
  pool : Cpu → List ℕ
  hand : Cpu → Hand
  sp : Cpu → Stack
  /-- How many stacks the allocator has given out. -/
  allocated : ℕ

namespace Stacked

def init : Stacked where
  state := State.init
  kstack := fun _ => none
  pool := fun _ => []
  hand := fun _ => .empty
  sp := fun _ => .boot 0
  allocated := 0

inductive Label
  | access (ev : Event)
  /-- `alloc_stack_for_coroutine`, from the pool or from the allocator. -/
  | reuse
  | alloc
  /-- `kernel_stack().take()` in `coroutine_schedule`. -/
  | take
  /-- `recycle_stack_of_coroutine`. -/
  | recycle
  deriving DecidableEq, Repr

/-- The stack a context of the task is on. -/
def stackOf (s : Stacked) (t : Task) : Stack :=
  match s.kstack t with
  | some a => .alloc a
  | none => .boot t

/-- The stack with which a thread or an idle task is made. -/
def giveNew (s : Stacked) (t : Task) : Stacked :=
  { s with kstack := Function.update s.kstack t (some s.allocated), allocated := s.allocated + 1 }

/-- What an access does to the stacks where no context is loaded. -/
def made (kind : Task → Kind) (s : Stacked) (c : Cpu) : Event → Stacked
  | .boot m i =>
      let s := { s with sp := Function.update s.sp c (.boot m) }
      if kind i = .idle then s.giveNew i else s
  | .spawn t => if kind t = .thread then s.giveNew t else s
  | _ => s

/-- The test in `set_kstack` and in `coroutine_schedule`: the task is given no stack. -/
def Served (kind : Task → Kind) (s : Stacked) (t : Task) : Prop :=
  s.kstack t ≠ none ∨ (kind t).isInit = true ∨ (kind t).isIdle = true

instance (kind : Task → Kind) (s : Stacked) (t : Task) : Decidable (s.Served kind t) :=
  inferInstanceAs (Decidable (_ ∨ _ ∨ _))

end Stacked

/-- The places where the stacks are handled by steps of their own. -/
def Pc.loads : Pc → Bool
  | .switchTo _ _ => true
  | .leave _ => true
  | _ => false

/-- The task that is about to be switched to and has been given its stack if it has one. -/
def Pc.sets : Pc → Option Task
  | .replace (.thread _) n => some n
  | _ => none

/-- The steps of CPU `c`, those of the tasks and those that handle the stacks. -/
inductive Stacked.Step (kind : Task → Kind) : Stacked → Cpu × Stacked.Label → Stacked → Prop
  | access {s : Stacked} {c : Cpu} {ev : Event} {s' : State} :
      Smp.Step kind s.state (c, ev) s' → (s.state.pc c).loads = false →
      (∀ n, (s.state.pc c).sets = some n → s.Served kind n) →
      Stacked.Step kind s (c, .access ev) { s.made kind c ev with state := s' }
  -- `set_kstack`
  | reuse {s : Stacked} {c : Cpu} {n : Task} {a : ℕ} {l : List ℕ} :
      (s.state.pc c).sets = some n → ¬ s.Served kind n → s.pool c = a :: l →
      Stacked.Step kind s (c, .reuse)
        { s with
          kstack := Function.update s.kstack n (some a)
          pool := Function.update s.pool c l }
  | alloc {s : Stacked} {c : Cpu} {n : Task} :
      (s.state.pc c).sets = some n → ¬ s.Served kind n → s.pool c = [] →
      Stacked.Step kind s (c, .alloc) (s.giveNew n)
  | switchTo {s : Stacked} {c : Cpu} {ev : Event} {old : Task} {k : Kont} {s' : State} :
      s.state.pc c = .switchTo old k → Smp.Step kind s.state (c, ev) s' →
      Stacked.Step kind s (c, .access ev)
        { s with state := s', sp := Function.update s.sp c (s.stackOf (s.state.current c)) }
  -- `coroutine_schedule`
  | take {s : Stacked} {c : Cpu} {t : Task} {a : ℕ} :
      s.state.pc c = .leave t → s.hand c = .empty → s.kstack t = some a →
      Stacked.Step kind s (c, .take)
        { s with
          kstack := Function.update s.kstack t none
          hand := Function.update s.hand c (.taken a) }
  /-- The next task is a coroutine without a stack: the loop goes on with it. -/
  | give {s : Stacked} {c : Cpu} {t : Task} {ev : Event} {a : ℕ} {s' : State} :
      s.state.pc c = .leave t → s.hand c = .taken a → ¬ s.Served kind (s.state.current c) →
      Smp.Step kind s.state (c, ev) s' →
      Stacked.Step kind s (c, .access ev)
        { s with
          state := s'
          kstack := Function.update s.kstack (s.state.current c) (some a)
          hand := Function.update s.hand c .empty }
  | recycle {s : Stacked} {c : Cpu} {t : Task} {a : ℕ} :
      s.state.pc c = .leave t → s.hand c = .taken a → s.Served kind (s.state.current c) →
      Stacked.Step kind s (c, .recycle)
        { s with
          pool := Function.update s.pool c (a :: s.pool c)
          hand := Function.update s.hand c .recycled }
  | leave {s : Stacked} {c : Cpu} {t : Task} {ev : Event} {s' : State} :
      s.state.pc c = .leave t → s.hand c = .recycled → Smp.Step kind s.state (c, ev) s' →
      Stacked.Step kind s (c, .access ev)
        { s with
          state := s'
          hand := Function.update s.hand c .empty
          sp := Function.update s.sp c (s.stackOf (s.state.current c)) }

/-- The task system with stacks, in any order of the steps of the CPUs. -/
def stacked (kind : Task → Kind) : Labelled.System Stacked (Cpu × Stacked.Label) where
  start := fun s => s = Stacked.init
  step := Stacked.Step kind

namespace Stacked

/-- The flags that are cleared are those of tasks no CPU holds. -/
def ClearsUnheld (_ : List (Cpu × Label)) (s : Stacked) : Cpu × Label → Prop
  | (c, .access ev) => Smp.ClearsUnheld [] s.state (c, ev)
  | _ => True

/-- The accesses of the tasks among the steps. -/
def accesses (h : List (Cpu × Label)) : History :=
  h.filterMap fun a => match a.2 with
    | .access ev => some (a.1, ev)
    | _ => none

section Play

variable (kind : Task → Kind)

/-- The steps as a function. A CPU handles its stacks where its next access needs them. -/
def perform (s : Stacked) (k : Choice) : Option ((Cpu × Label) × Stacked) :=
  match Smp.perform kind s.state k with
  | none => none
  | some ((c, ev), s') =>
      match s.state.pc c with
      | .switchTo _ _ =>
          some ((c, .access ev),
            { s with state := s', sp := Function.update s.sp c (s.stackOf (s.state.current c)) })
      | .leave t =>
          match s.hand c with
          | .empty =>
              match s.kstack t with
              | some a =>
                  some ((c, .take),
                    { s with
                      kstack := Function.update s.kstack t none
                      hand := Function.update s.hand c (.taken a) })
              | none => none
          | .taken a =>
              if s.Served kind (s.state.current c) then
                some ((c, .recycle),
                  { s with
                    pool := Function.update s.pool c (a :: s.pool c)
                    hand := Function.update s.hand c .recycled })
              else
                some ((c, .access ev),
                  { s with
                    state := s'
                    kstack := Function.update s.kstack (s.state.current c) (some a)
                    hand := Function.update s.hand c .empty })
          | .recycled =>
              some ((c, .access ev),
                { s with
                  state := s'
                  hand := Function.update s.hand c .empty
                  sp := Function.update s.sp c (s.stackOf (s.state.current c)) })
      | p =>
          match p.sets with
          | none => some ((c, .access ev), { s.made kind c ev with state := s' })
          | some n =>
              if s.Served kind n then
                some ((c, .access ev), { s.made kind c ev with state := s' })
              else
                match s.pool c with
                | a :: l =>
                    some ((c, .reuse),
                      { s with
                        kstack := Function.update s.kstack n (some a)
                        pool := Function.update s.pool c l })
                | [] => some ((c, .alloc), s.giveNew n)

theorem perform_step {s s' : Stacked} {k : Choice} {a : Cpu × Label}
    (h : s.perform kind k = some (a, s')) : Stacked.Step kind s a s' := by
  unfold perform at h
  split at h
  · cases h
  · rename_i c ev r hperform
    have hstep : Smp.Step kind s.state (c, ev) r := perform_iff_step.mp ⟨k, hperform⟩
    split at h
    · rename_i old j hpc
      cases h
      exact .switchTo hpc hstep
    · rename_i t hpc
      split at h
      · rename_i hhand
        split at h
        · rename_i b hb
          cases h
          exact .take hpc hhand hb
        · cases h
      · rename_i b hhand
        split at h
        · rename_i hserved
          cases h
          exact .recycle hpc hhand hserved
        · rename_i hserved
          cases h
          exact .give hpc hhand hserved hstep
      · rename_i hhand
        cases h
        exact .leave hpc hhand hstep
    · rename_i p hswitch hleave
      have hloads : (s.state.pc c).loads = false := by
        cases hpc : s.state.pc c with
        | switchTo old j => exact absurd hpc (hswitch old j)
        | leave t => exact absurd hpc (hleave t)
        | _ => rfl
      split at h
      · rename_i hsets
        cases h
        exact .access hstep hloads fun n hn => by simp [hsets] at hn
      · rename_i n hsets
        split at h
        · rename_i hserved
          cases h
          refine .access hstep hloads fun u hu => ?_
          obtain rfl : n = u := Option.some.inj (hsets.symm.trans hu)
          exact hserved
        · rename_i hserved
          split at h
          · rename_i b l hpool
            cases h
            exact .reuse hsets hserved hpool
          · rename_i hpool
            cases h
            exact .alloc hsets hserved hpool

/-- Each wake-up leads to another task. -/
def MovesOn (_ : List (Cpu × Label)) (_ : Stacked) : Cpu × Label → Prop
  | (_, .access ev) => ev.movesOn = true
  | _ => True

instance : ∀ h s a, Decidable (MovesOn h s a)
  | _, _, (_, .access ev) => inferInstanceAs (Decidable (ev.movesOn = true))
  | _, _, (_, .reuse) => .isTrue trivial
  | _, _, (_, .alloc) => .isTrue trivial
  | _, _, (_, .take) => .isTrue trivial
  | _, _, (_, .recycle) => .isTrue trivial

/-- The run that a list of choices leads to. -/
def playAll (G : List (Cpu × Label) → Stacked → Cpu × Label → Prop)
    [∀ h s a, Decidable (G h s a)] (ks : List Choice) :
    Option (List (Cpu × Label) × Stacked) :=
  Labelled.play (perform kind) G ks [] init

theorem playAll_run {G : List (Cpu × Label) → Stacked → Cpu × Label → Prop}
    [∀ h s a, Decidable (G h s a)] {ks : List Choice} {r : List (Cpu × Label) × Stacked}
    (hplay : playAll kind G ks = some r) : (stacked kind).RunOf G r.1 r.2 :=
  .play (fun _ _ _ _ hk => perform_step kind hk) (.start rfl) hplay

end Play

end Stacked

variable {kind : Task → Kind} {s s' : State} {a : Cpu × Event} {c d : Cpu} {t : Task}

section Frame

/-- The task whose stack a CPU with the current task `t` is on. -/
def Pc.frame (t : Task) : Pc → Task
  | .switchTo old _ => old
  | .afterPoll u => u
  | .schedBlocked u => u
  | .leave u => u
  | _ => t

/-- The task that the coroutine stack of the CPU is for. -/
def Pc.user (t : Task) : Pc → Option Task
  | .off => none
  | .replace (.thread _) n => some n
  | .switchTo _ _ => some t
  | p => some (p.frame t)

theorem Pc.Plain.frame {p : Pc} (hp : p.Plain) : p.frame t = t := by
  cases p <;> first | rfl | cases hp

theorem Pc.Plain.user {p : Pc} (hp : p.Plain) : p.user t = some t := by
  cases p <;> first | rfl | cases hp

theorem frame_stay (v : Via) : (v.stay t).frame t = t := by
  rcases v with k | k | -
  · cases k <;> rfl
  · cases k with
    | exiting => rfl
    | user => exact (plain_resumeCoroutine .user).frame
    | blocked w => exact (plain_resumeCoroutine (.blocked w)).frame
  · rfl

theorem user_stay (v : Via) : (v.stay t).user t = some t := by
  rcases v with k | k | -
  · cases k <;> rfl
  · cases k with
    | exiting => rfl
    | user => exact (plain_resumeCoroutine .user).user
    | blocked w => exact (plain_resumeCoroutine (.blocked w)).user
  · rfl

theorem user_resumeContext (k : Option Kont) : (resumeContext k).user t = some t := by
  cases k <;> rfl

theorem frame_resumeContext (k : Option Kont) : (resumeContext k).frame t = t := by
  cases k <;> rfl

theorem user_caller_done (b : Caller) : b.done.user t = some t := by
  cases b <;> rfl

theorem frame_caller_done (b : Caller) : b.done.frame t = t := by
  cases b <;> rfl

theorem user_afterNotify (q : QueueId) (found : Bool) (m : Mode) :
    (s.afterNotify kind c q found m).user t = some t := by
  cases m <;> simp only [State.afterNotify] <;> first | rfl | split <;> rfl

theorem frame_afterNotify (q : QueueId) (found : Bool) (m : Mode) :
    (s.afterNotify kind c q found m).frame t = t := by
  cases m <;> simp only [State.afterNotify] <;> first | rfl | split <;> rfl

/-- What is known of the tasks in the code that reschedules, `t` being the current task and
`x` the content of the slot. -/
def Via.Kin (kind : Task → Kind) (t : Task) : Via → Prop
  | .thread _ => (kind t).isCoroutine = false
  | _ => (kind t).isCoroutine = true

def Pc.Kin (kind : Task → Kind) (t : Task) (x : Option Task) : Pc → Prop
  | .pick v => v.Kin kind t
  | .assertReady v _ => v.Kin kind t
  | .setRunning v _ => v.Kin kind t
  | .setOnCpu v _ => v.Kin kind t
  | .replace v _ => v.Kin kind t
  | .switchTo old _ => (kind old).isCoroutine = false ∧ x = some old
  | .afterPoll u => (kind u).isCoroutine = true ∧ (u = t ∨ x = some u)
  | .schedBlocked u => (kind u).isCoroutine = true ∧ u = t
  | .leave u => (kind u).isCoroutine = true ∧ (u = t ∨ x = some u)
  | _ => True

theorem Pc.Calm.kin {p : Pc} {x : Option Task} (hp : p.Calm) : p.Kin kind t x := by
  cases p <;> trivial

theorem kin_via (s : State) (c : Cpu) (k : Kont) : (s.via kind c k).Kin kind (s.current c) := by
  unfold State.via
  split
  · assumption
  · rename_i hcoroutine
    exact Bool.eq_false_of_not_eq_true hcoroutine

/-- A CPU comes to reschedule for its own task, or after a poll. -/
theorem Step.picks {v : Via} (hstep : Step kind s a s') (hpc : s'.pc a.1 = .pick v) :
    v.Kin kind (s'.current a.1) ∨ ∃ t, s.pc a.1 = .schedBlocked t ∧ v = .schedule := by
  have hvia : ∀ (c : Cpu) (k : Kont), Pc.pick (s.via kind c k) = .pick v →
      v.Kin kind (s.current c) := by
    intro c k hv
    cases hv
    exact kin_via s c k
  have hcalm : ∀ {p : Pc} {r : State} {d : Cpu}, p.Calm → (r.go d p).pc d = .pick v → False := by
    intro p r d hp hr
    rw [State.go_pc, Function.update_self] at hr
    rw [hr] at hp
    exact hp
  have hresume : ∀ {b : Bool} {k : Option Kont} {r : State} {d : Cpu},
      (r.go d (if b then .take none else resumeContext k)).pc d = .pick v → False := by
    intro b k r d hr
    cases b <;> cases k <;> simp [resumeContext] at hr
  cases hstep with
  | spawn hold => simp [hold] at hpc
  | setFlag hold => simp [hold] at hpc
  | yieldCas =>
      simp only [State.go_pc, Function.update_self] at hpc
      split at hpc
      · exact .inl (hvia _ _ hpc)
      · cases hpc
  | yieldCasFail => exact .inl (hvia _ _ (by simpa using hpc))
  | yieldPut => exact .inl (hvia _ _ (by simpa using hpc))
  | dropGuard => exact .inl (hvia _ _ (by simpa using hpc))
  | @notifyUnlock c q m found =>
      simp only [State.go_pc, Function.update_self] at hpc
      cases m <;> simp only [State.afterNotify] at hpc
      case one => cases hpc
      case all => split at hpc <;> cases hpc
      case task => cases hpc
      case exit =>
        split at hpc
        · cases hpc
        · exact .inl (hvia _ _ hpc)
  | schedBlocked hold =>
      obtain rfl : Via.schedule = v := by simpa using hpc
      exact .inr ⟨_, hold, rfl⟩
  | @setRunningSame c w =>
      rcases w with k | k | -
      · cases k <;> simp [Via.stay] at hpc
      · cases k with
        | exiting => simp [Via.stay] at hpc
        | user => exact (hcalm (plain_resumeCoroutine .user).calm hpc).elim
        | blocked w => exact (hcalm (plain_resumeCoroutine (.blocked w)).calm hpc).elim
      · simp [Via.stay] at hpc
  | switchTo => exact (hresume hpc).elim
  | leave => exact (hresume hpc).elim
  | checkPrevExited => exact (hcalm (plain_resume _).calm hpc).elim
  | checkPrev => exact (hcalm (plain_resume _).calm hpc).elim
  | poll => exact (hcalm (plain_resumeCoroutine _).calm hpc).elim
  | evalLocked => exact (hcalm (by split <;> trivial) hpc).elim
  | evalUnlocked => exact (hcalm (by split <;> trivial) hpc).elim
  | cancelLoad => exact (hcalm (by split <;> [trivial; exact (plain_wait_done _).calm]) hpc).elim
  | cancelClear => exact (hcalm (plain_wait_done _).calm hpc).elim
  | wakeCas => exact (hcalm (by split <;> [exact calm_caller_done _; trivial]) hpc).elim
  | wakeCasFail => exact (hcalm (calm_caller_done _) hpc).elim
  | wakePut => exact (hcalm (calm_caller_done _) hpc).elim
  | requeueUnlock => exact (hcalm (by split <;> trivial) hpc).elim
  | wakersUnlock => exact (hcalm (by split <;> trivial) hpc).elim
  | _ => simp at hpc

theorem Turn.kin {ev : Event} (hturn : Turn kind s c s' ev) (hhold : Hold (view s))
    (hpicks : ∀ v, s'.pc c = .pick v → v.Kin kind (s'.current c) ∨
      ∃ t, s.pc c = .schedBlocked t ∧ v = .schedule)
    (hkin : (s.pc c).Kin kind (s.current c) (s.prev c)) :
    (s'.pc c).Kin kind (s'.current c) (s'.prev c) := by
  cases hturn with
  | boot _ _ hpc =>
      rw [hpc]
      trivial
  | stay hpc hcurrent hprev =>
      rw [hpc, hcurrent, hprev]
      exact hkin
  | calm hcalm => exact hcalm.kin
  | pending hpc hk hcurrent =>
      rw [hpc, hcurrent]
      exact ⟨hk, .inl rfl⟩
  | @resched _ v hpc _ hcurrent =>
      rcases hpicks v hpc with hv | ⟨t, hold, rfl⟩
      · rw [hpc]
        exact hv
      · rw [hold] at hkin
        rw [hpc, hcurrent, ← hkin.2]
        exact hkin.1
  | choose hold hpc hcurrent =>
      rw [hold] at hkin
      rw [hpc, hcurrent]
      exact hkin
  | assert hold hpc hcurrent =>
      rw [hold] at hkin
      rw [hpc, hcurrent]
      exact hkin
  | @same v hold hpc hcurrent =>
      rw [hold] at hkin
      rw [hpc, hcurrent]
      rcases v with k | k | -
      · cases k <;> trivial
      · cases k with
        | blocked w => cases hw : w.cond <;> simp [Via.stay, Kont.resumeCoroutine, hw, Pc.Kin]
        | _ => trivial
      · exact ⟨hkin, .inl rfl⟩
  | start hold _ hpc hcurrent =>
      rw [hold] at hkin
      rw [hpc, hcurrent]
      exact hkin
  | claim hold hpc hcurrent =>
      rw [hold] at hkin
      rw [hpc, hcurrent]
      exact hkin
  | @switch v n hold hpc _ hprev =>
      rw [hold] at hkin
      rw [hpc, hprev]
      cases v with
      | thread k => exact ⟨hkin, rfl⟩
      | future k => exact ⟨hkin, .inr rfl⟩
      | schedule => exact ⟨hkin, .inr rfl⟩
  | resume _ hpc =>
      rcases hpc with ⟨k, hpc⟩ | hpc <;> rw [hpc] <;> trivial
  | take _ _ hpc =>
      rw [hpc]
      trivial
  | suspend hold hrunning hpc hcurrent =>
      rw [hold] at hkin
      rw [hpc, hcurrent]
      refine ⟨hkin.1, hkin.2.elim id fun hprev => ?_⟩
      exact running_here hhold hprev (view_role hold) hrunning
  | suspended hold hpc hcurrent =>
      rw [hold] at hkin
      rw [hpc, hcurrent, ← hkin.2]
      exact hkin.1
  | left hold _ hpc hcurrent hprev =>
      rw [hold] at hkin
      rw [hpc, hcurrent, hprev]
      exact hkin

theorem Tidy.kin_step (hs : Tidy kind s) (hstep : Step kind s a s')
    (hkin : ∀ d, (s.pc d).Kin kind (s.current d) (s.prev d)) (d : Cpu) :
    (s'.pc d).Kin kind (s'.current d) (s'.prev d) := by
  by_cases hd : d = a.1
  · subst hd
    exact hstep.turn.kin hs.hold (fun v => hstep.picks) (hkin _)
  · obtain ⟨hpc, hcurrent, hprev, -⟩ := hstep.others hd
    rw [hpc, hcurrent, hprev]
    exact hkin d

/-- The CPU has the task on whose stack it is, and the one its coroutine stack is for. -/
theorem held_frame (hkin : (s.pc c).Kin kind (s.current c) (s.prev c)) (hon : s.pc c ≠ .off) :
    Held (view s) c ((s.pc c).frame (s.current c)) := by
  refine ⟨fun hoff => hon (role_off.mp hoff), ?_⟩
  cases hpc : s.pc c <;> rw [hpc] at hkin <;> try exact .inl rfl
  case switchTo => exact .inr (.inl hkin.2)
  case afterPoll => exact hkin.2.imp Eq.symm .inl
  case schedBlocked => exact .inl hkin.2.symm
  case leave => exact hkin.2.imp Eq.symm .inl

theorem held_user (hkin : (s.pc c).Kin kind (s.current c) (s.prev c))
    (huser : (s.pc c).user (s.current c) = some t) : Held (view s) c t := by
  have hframe := held_frame hkin
  have hcurrent : s.pc c ≠ .off → Held (view s) c (s.current c) :=
    fun hon => ⟨fun hoff => hon (role_off.mp hoff), .inl rfl⟩
  cases hpc : s.pc c with
  | off => simp [hpc, Pc.user] at huser
  | replace v n =>
      cases v with
      | thread k =>
          obtain rfl : n = t := by simpa [hpc, Pc.user] using huser
          exact ⟨by simp [view, hpc, Pc.role], .inr (.inr (by simp [view, hpc, Pc.role]))⟩
      | _ =>
          rw [hpc] at huser hframe hcurrent
          cases huser
          exact hcurrent (by simp)
  | _ =>
      rw [hpc] at huser hframe hcurrent
      cases huser
      first
        | exact hframe (by simp)
        | exact hcurrent (by simp)

/-- Where the CPU goes on with the stack it is on. -/
theorem Step.frame (hstep : Step kind s a s') (hboot : ∀ m i, a.2 ≠ .boot m i)
    (hloads : (s.pc a.1).loads = false)
    (hkin : (s.pc a.1).Kin kind (s.current a.1) (s.prev a.1)) :
    (s'.pc a.1).frame (s'.current a.1) = (s.pc a.1).frame (s.current a.1) := by
  have hgo : ∀ {r : State} {p p' : Pc} {d : Cpu}, s.pc d = p' → r.current d = s.current d →
      p.frame (s.current d) = p'.frame (s.current d) →
      ((r.go d p).pc d).frame ((r.go d p).current d) = (s.pc d).frame (s.current d) := by
    intro r p p' d hpc hcurrent hframe
    simp [hpc, hcurrent, hframe]
  cases hstep with
  | initVsched => exact absurd rfl (hboot _ _)
  | initVschedSecondary => exact absurd rfl (hboot _ _)
  | spawn => rfl
  | setFlag => rfl
  | setRunningSame hpc => exact hgo hpc rfl (frame_stay _)
  | replaceThread hpc => simp [hpc, Pc.frame]
  | replaceFuture hpc => simp [hpc, Pc.frame]
  | replaceSchedule hpc => simp [hpc, Pc.frame]
  | switchTo hpc => simp [hpc, Pc.loads] at hloads
  | leave hpc => simp [hpc, Pc.loads] at hloads
  | checkPrevExited hpc => exact hgo hpc rfl (plain_resume _).frame
  | checkPrev hpc => exact hgo hpc rfl (plain_resume _).frame
  | poll hpc => exact hgo hpc rfl (plain_resumeCoroutine _).frame
  | schedBlocked hpc =>
      rw [hpc] at hkin
      exact hgo hpc rfl hkin.2.symm
  | yieldCas hpc => exact hgo hpc rfl (by split <;> rfl)
  | evalLocked hpc => exact hgo hpc rfl (by split <;> rfl)
  | evalUnlocked hpc => exact hgo hpc rfl (by split <;> rfl)
  | cancelLoad hpc => exact hgo hpc rfl (by split <;> [rfl; exact (plain_wait_done _).frame])
  | cancelClear hpc => exact hgo hpc rfl (plain_wait_done _).frame
  | notifyUnlock hpc => exact hgo hpc rfl (frame_afterNotify _ _ _)
  | wakeCas hpc => exact hgo hpc rfl (by split <;> [exact frame_caller_done _; rfl])
  | wakeCasFail hpc => exact hgo hpc rfl (frame_caller_done _)
  | wakePut hpc => exact hgo hpc rfl (frame_caller_done _)
  | requeueUnlock hpc => exact hgo hpc rfl (by split <;> rfl)
  | wakersUnlock hpc => exact hgo hpc rfl (by split <;> rfl)
  | _ hpc => exact hgo hpc rfl rfl

/-- Where the CPU goes on with the coroutine that its stack is for. -/
theorem Step.user (hstep : Step kind s a s') (hboot : ∀ m i, a.2 ≠ .boot m i)
    (hleave : ∀ t, s.pc a.1 ≠ .leave t) (hclaim : ∀ k n, s.pc a.1 ≠ .setOnCpu (.thread k) n)
    (hkin : (s.pc a.1).Kin kind (s.current a.1) (s.prev a.1)) :
    (s'.pc a.1).user (s'.current a.1) = (s.pc a.1).user (s.current a.1) := by
  have hgo : ∀ {r : State} {p p' : Pc} {d : Cpu}, s.pc d = p' → r.current d = s.current d →
      p.user (s.current d) = p'.user (s.current d) →
      ((r.go d p).pc d).user ((r.go d p).current d) = (s.pc d).user (s.current d) := by
    intro r p p' d hpc hcurrent huser
    simp [hpc, hcurrent, huser]
  cases hstep with
  | initVsched => exact absurd rfl (hboot _ _)
  | initVschedSecondary => exact absurd rfl (hboot _ _)
  | spawn => rfl
  | setFlag => rfl
  | setRunningSame hpc => exact hgo hpc rfl (user_stay _)
  | @setOnCpu c v n hpc =>
      cases v with
      | thread k => exact absurd hpc (hclaim k n)
      | future => exact hgo hpc rfl rfl
      | schedule => exact hgo hpc rfl rfl
  | replaceThread hpc => simp [hpc, Pc.user]
  | replaceFuture hpc => simp [hpc, Pc.user, Pc.frame]
  | replaceSchedule hpc => simp [hpc, Pc.user, Pc.frame]
  | switchTo hpc => exact hgo hpc rfl (by split <;> [rfl; exact user_resumeContext _])
  | leave hpc => exact absurd hpc (hleave _)
  | checkPrevExited hpc => exact hgo hpc rfl (plain_resume _).user
  | checkPrev hpc => exact hgo hpc rfl (plain_resume _).user
  | poll hpc => exact hgo hpc rfl (plain_resumeCoroutine _).user
  | schedBlocked hpc =>
      rw [hpc] at hkin
      exact hgo hpc rfl (congrArg some hkin.2.symm)
  | yieldCas hpc => exact hgo hpc rfl (by split <;> rfl)
  | evalLocked hpc => exact hgo hpc rfl (by split <;> rfl)
  | evalUnlocked hpc => exact hgo hpc rfl (by split <;> rfl)
  | cancelLoad hpc => exact hgo hpc rfl (by split <;> [rfl; exact (plain_wait_done _).user])
  | cancelClear hpc => exact hgo hpc rfl (plain_wait_done _).user
  | notifyUnlock hpc => exact hgo hpc rfl (user_afterNotify _ _ _)
  | wakeCas hpc => exact hgo hpc rfl (by split <;> [exact user_caller_done _; rfl])
  | wakeCasFail hpc => exact hgo hpc rfl (user_caller_done _)
  | wakePut hpc => exact hgo hpc rfl (user_caller_done _)
  | requeueUnlock hpc => exact hgo hpc rfl (by split <;> rfl)
  | wakersUnlock hpc => exact hgo hpc rfl (by split <;> rfl)
  | _ hpc => exact hgo hpc rfl rfl

/-- After the hand-over the CPU goes on with its new task. -/
theorem Step.leaves (hstep : Step kind s a s') (hpc : s.pc a.1 = .leave t) :
    s'.current a.1 = s.current a.1 ∧
      (s'.pc a.1).user (s.current a.1) = some (s.current a.1) ∧
      (s'.pc a.1).frame (s.current a.1) = s.current a.1 ∧
      (∀ u, s'.pc a.1 ≠ .leave u) ∧ s'.created = s.created := by
  cases hstep with
  | leave =>
      have hresume : ∀ k u, resumeContext k ≠ .leave u := by
        intro k u
        cases k <;> simp [resumeContext]
      simp only [State.go_pc, Function.update_self]
      refine ⟨rfl, ?_⟩
      split
      · exact ⟨rfl, rfl, by simp, rfl⟩
      · exact ⟨user_resumeContext _, frame_resumeContext _, hresume _, rfl⟩
  | _ hold =>
      rw [hold] at hpc
      cases hpc

end Frame

end Smp
