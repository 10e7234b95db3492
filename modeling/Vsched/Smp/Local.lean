import Vsched.Smp.View

/-!
# What a CPU keeps to itself

A step of one CPU leaves alone where the others stand, what they run and what
they switched away from. So the facts about one CPU's place in the code are
kept by the steps of that CPU, and a queue lock belongs to the CPU that stands
in its critical section.
-/

namespace Smp

variable {kind : Task → Kind} {s s' : State} {a : Cpu × Event} {c d : Cpu}

/-- The other CPUs. -/
theorem Step.others (hstep : Step kind s a s') (hd : d ≠ a.1) :
    s'.pc d = s.pc d ∧ s'.current d = s.current d ∧ s'.prev d = s.prev d ∧
      s'.idle d = s.idle d := by
  cases hstep <;> simp only at hd <;>
    simp only [State.go_pc, State.go_current, State.go_prev, State.go_idle,
      Function.update_of_ne hd, and_self]

/-- Where a CPU is not rescheduling, being resumed or polling. -/
def Pc.Calm : Pc → Prop
  | .pick _ => False
  | .assertReady _ _ => False
  | .setRunning _ _ => False
  | .setOnCpu _ _ => False
  | .replace _ _ => False
  | .switchTo _ _ => False
  | .take _ => False
  | .checkPrev _ _ => False
  | .afterPoll _ => False
  | .schedBlocked _ => False
  | .leave _ => False
  | _ => True

def Event.Calm : Event → Prop
  | .boot _ _ => False
  | .suspended _ => False
  | .same _ => False
  | .switched _ _ => False
  | .taken _ => False
  | _ => True

/-- Where a CPU goes on that has just made another task the current one. -/
def Via.leaving (old : Task) : Via → Pc
  | .thread k => .switchTo old k
  | .future _ => .afterPoll old
  | .schedule => .leave old

/-- What is known of the current task `t` where a future reschedules. -/
def Via.Own (kind : Task → Kind) (t : Task) : Via → Prop
  | .future _ => (kind t).isCoroutine = true
  | _ => True

/-- The way of CPU `c` through rescheduling, resuming and polling in one step. -/
inductive Turn (kind : Task → Kind) (s : State) (c : Cpu) (s' : State) : Event → Prop
  | boot {m i : Task} :
      s.pc c = .off → s.created m = false → s'.pc c = .run → s'.current c = m →
      s'.prev c = some m → Turn kind s c s' (.boot m i)
  | stay {ev : Event} :
      s'.pc c = s.pc c → s'.current c = s.current c → s'.prev c = s.prev c → ev.Calm →
      Turn kind s c s' ev
  | calm {ev : Event} :
      (s'.pc c).Calm → s'.current c = s.current c → s'.prev c = s.prev c → ev.Calm →
      Turn kind s c s' ev
  | pending {ev : Event} :
      s'.pc c = .afterPoll (s.current c) → (kind (s.current c)).isCoroutine = true →
      s'.current c = s.current c → s'.prev c = s.prev c → ev.Calm → Turn kind s c s' ev
  | resched {ev : Event} {v : Via} :
      s'.pc c = .pick v → v.Own kind (s.current c) → s'.current c = s.current c →
      s'.prev c = s.prev c → ev.Calm → Turn kind s c s' ev
  | choose {ev : Event} {v : Via} {n : Task} :
      s.pc c = .pick v → s'.pc c = .assertReady v n → s'.current c = s.current c →
      s'.prev c = s.prev c → ev.Calm → Turn kind s c s' ev
  | assert {ev : Event} {v : Via} {n : Task} :
      s.pc c = .assertReady v n → s'.pc c = .setRunning v n → s'.current c = s.current c →
      s'.prev c = s.prev c → ev.Calm → Turn kind s c s' ev
  | same {v : Via} :
      s.pc c = .setRunning v (s.current c) → s'.pc c = v.stay (s.current c) →
      s'.current c = s.current c → s'.prev c = s.prev c → Turn kind s c s' (.same v)
  | start {ev : Event} {v : Via} {n : Task} :
      s.pc c = .setRunning v n → n ≠ s.current c → s'.pc c = .setOnCpu v n →
      s'.current c = s.current c → s'.prev c = s.prev c → ev.Calm → Turn kind s c s' ev
  | claim {ev : Event} {v : Via} {n : Task} :
      s.pc c = .setOnCpu v n → s'.pc c = .replace v n → s'.current c = s.current c →
      s'.prev c = s.prev c → ev.Calm → Turn kind s c s' ev
  | switch {v : Via} {n : Task} :
      s.pc c = .replace v n → s'.pc c = v.leaving (s.current c) → s'.current c = n →
      s'.prev c = some (s.current c) → Turn kind s c s' (.switched (s.current c) n)
  | resume {ev : Event} :
      (∃ old k, s.pc c = .switchTo old k) ∨ (∃ t, s.pc c = .leave t) →
      (∃ k, s'.pc c = .take k) ∨ s'.pc c = .panicked → s'.current c = s.current c →
      s'.prev c = s.prev c → ev.Calm → Turn kind s c s' ev
  | take {k : Option Kont} {x : Option Task} :
      s.pc c = .take k → (∀ t, s.prev c = some t → x = some t) →
      s'.pc c = .checkPrev k x → s'.current c = s.current c → s'.prev c = none →
      Turn kind s c s' (.taken x)
  | suspend {ev : Event} {t : Task} :
      s.pc c = .afterPoll t → s.state t = .running → s'.pc c = .schedBlocked t →
      s'.current c = s.current c → s'.prev c = s.prev c → ev.Calm → Turn kind s c s' ev
  | suspended {t : Task} :
      s.pc c = .schedBlocked t → s'.pc c = .pick .schedule → s'.current c = s.current c →
      s'.prev c = s.prev c → Turn kind s c s' (.suspended t)
  | left {ev : Event} {t : Task} :
      s.pc c = .afterPoll t → s.state t ≠ .running → s'.pc c = .leave t →
      s'.current c = s.current c → s'.prev c = s.prev c → ev.Calm → Turn kind s c s' ev

theorem Pc.Plain.calm {p : Pc} (hp : p.Plain) : p.Calm := by
  cases p <;> trivial

theorem calm_caller_done (b : Caller) : b.done.Calm := by
  cases b <;> trivial

theorem own_via (s : State) (c : Cpu) (k : Kont) :
    (s.via kind c k).Own kind (s.current c) := by
  unfold State.via
  split
  · assumption
  · trivial

theorem resumeContext_cases (k : Option Kont) :
    (∃ j, resumeContext k = .take j) ∨ resumeContext k = .panicked := by
  cases k with
  | none => exact .inr rfl
  | some k => exact .inl ⟨_, rfl⟩

theorem Turn.of_calm {p : Pc} {ev : Event} (hp : p.Calm) (hcurrent : s'.current c = s.current c)
    (hprev : s'.prev c = s.prev c) (hev : ev.Calm) : Turn kind s c (s'.go c p) ev :=
  .calm (by simpa using hp) hcurrent hprev hev

theorem Step.turn (hstep : Step kind s a s') : Turn kind s a.1 s' a.2 := by
  have hgo : ∀ (r : State) (c : Cpu) (p : Pc), (r.go c p).pc c = p := by simp
  cases hstep with
  | initVsched hoff hm => exact .boot hoff hm (hgo _ _ _) (by simp) (by simp)
  | initVschedSecondary hoff hi => exact .boot hoff hi (hgo _ _ _) (by simp) (by simp)
  | spawn => exact .stay rfl rfl rfl trivial
  | setFlag => exact .stay rfl rfl rfl trivial
  | pending _ hk => exact .pending (hgo _ _ _) hk rfl rfl trivial
  | @yieldCas c _ _ =>
      split
      · exact .resched (hgo _ _ _) (own_via s _ _) rfl rfl trivial
      · exact .of_calm trivial rfl rfl trivial
  | yieldCasFail => exact .resched (hgo _ _ _) (own_via s _ _) rfl rfl trivial
  | yieldPut => exact .resched (hgo _ _ _) (own_via s _ _) rfl rfl trivial
  | dropGuard => exact .resched (hgo _ _ _) (own_via s _ _) rfl rfl trivial
  | pick hpc _ => exact .choose hpc (hgo _ _ _) rfl rfl trivial
  | pickIdle hpc _ => exact .choose hpc (hgo _ _ _) rfl rfl trivial
  | assertReady hpc _ => exact .assert hpc (hgo _ _ _) rfl rfl trivial
  | setRunningSame hpc => exact .same hpc (hgo _ _ _) rfl rfl
  | setRunning hpc hne => exact .start hpc hne (hgo _ _ _) rfl rfl trivial
  | setOnCpu hpc => exact .claim hpc (hgo _ _ _) rfl rfl trivial
  | replaceThread hpc => exact .switch hpc (hgo _ _ _) (by simp) (by simp)
  | replaceFuture hpc => exact .switch hpc (hgo _ _ _) (by simp) (by simp)
  | replaceSchedule hpc => exact .switch hpc (hgo _ _ _) (by simp) (by simp)
  | switchTo hpc =>
      refine .resume (.inl ⟨_, _, hpc⟩) ?_ rfl rfl trivial
      rw [hgo]
      split
      · exact .inl ⟨_, rfl⟩
      · exact resumeContext_cases _
  | leave hpc =>
      refine .resume (.inr ⟨_, hpc⟩) ?_ rfl rfl trivial
      rw [hgo]
      split
      · exact .inl ⟨_, rfl⟩
      · exact resumeContext_cases _
  | take hpc hprev =>
      exact .take hpc (by simp [hprev]) (hgo _ _ _) rfl (by simp)
  | takeEmpty hpc hprev => exact .take hpc (by simp [hprev]) (hgo _ _ _) rfl (by simp)
  | takeNothing hpc hprev => exact .take hpc (by simp [hprev]) (hgo _ _ _) rfl (by simp)
  | checkPrevExited => exact .of_calm (plain_resume _).calm rfl rfl trivial
  | checkPrev => exact .of_calm (plain_resume _).calm rfl rfl trivial
  | poll => exact .of_calm (plain_resumeCoroutine _).calm rfl rfl trivial
  | afterPollRunning hpc hstate => exact .suspend hpc hstate (hgo _ _ _) rfl rfl trivial
  | afterPoll hpc hstate => exact .left hpc hstate (hgo _ _ _) rfl rfl trivial
  | schedBlocked hpc => exact .suspended hpc (hgo _ _ _) rfl rfl
  | evalLocked => exact .of_calm (by split <;> trivial) rfl rfl trivial
  | evalUnlocked => exact .of_calm (by split <;> trivial) rfl rfl trivial
  | cancelLoad =>
      refine .of_calm ?_ rfl rfl trivial
      split
      · trivial
      · exact (plain_wait_done _).calm
  | cancelClear => exact .of_calm (plain_wait_done _).calm rfl rfl trivial
  | @notifyUnlock c q m found _ =>
      cases m with
      | one => exact .of_calm trivial rfl rfl trivial
      | task => exact .of_calm trivial rfl rfl trivial
      | all => cases found <;> exact .of_calm trivial rfl rfl trivial
      | exit e =>
          cases found with
          | true => exact .of_calm trivial rfl rfl trivial
          | false => exact .resched (hgo _ _ _) (own_via s _ _) rfl rfl trivial
  | wakeCas =>
      refine .of_calm ?_ rfl rfl trivial
      split
      · exact calm_caller_done _
      · trivial
  | wakeCasFail => exact .of_calm (calm_caller_done _) rfl rfl trivial
  | wakePut => exact .of_calm (calm_caller_done _) rfl rfl trivial
  | requeueUnlock => exact .of_calm (by split <;> trivial) rfl rfl trivial
  | wakersUnlock => exact .of_calm (by split <;> trivial) rfl rfl trivial
  | _ => exact .of_calm trivial rfl rfl trivial

theorem Step.on (hstep : Step kind s a s') (hev : ∀ m i, a.2 ≠ .boot m i) :
    s.pc a.1 ≠ .off := by
  cases hstep with
  | initVsched => exact absurd rfl (hev _ _)
  | initVschedSecondary => exact absurd rfl (hev _ _)
  | _ => simp [*]

section Own

variable (kind) (t : Task)

/-- What is known of the current task `t` where a CPU reschedules. -/
def Pc.Own : Pc → Prop
  | .pick v => v.Own kind t
  | .assertReady v _ => v.Own kind t
  | .setRunning v _ => v.Own kind t
  | .setOnCpu v n => v.Own kind t ∧ n ≠ t
  | .replace v n => v.Own kind t ∧ n ≠ t
  | .afterPoll u => (kind u).isCoroutine = true
  | .schedBlocked u => (kind u).isCoroutine = true
  | _ => True

end Own

variable {t : Task}

theorem Pc.Calm.own {p : Pc} (hp : p.Calm) : p.Own kind t := by
  cases p <;> trivial

theorem own_stay (v : Via) (u : Task) : (v.stay u).Own kind t := by
  rcases v with k | k | -
  · cases k <;> trivial
  · cases k with
    | exiting => trivial
    | user => exact (plain_resumeCoroutine .user).calm.own
    | blocked w => exact (plain_resumeCoroutine (.blocked w)).calm.own
  · trivial

theorem Turn.own {ev : Event} (hturn : Turn kind s c s' ev)
    (hown : (s.pc c).Own kind (s.current c)) : (s'.pc c).Own kind (s'.current c) := by
  cases hturn with
  | boot _ _ hpc =>
      rw [hpc]
      trivial
  | stay hpc hcurrent =>
      rw [hpc, hcurrent]
      exact hown
  | calm hcalm => exact hcalm.own
  | pending hpc hk =>
      rw [hpc]
      exact hk
  | resched hpc hv hcurrent =>
      rw [hpc, hcurrent]
      exact hv
  | choose hold hpc hcurrent =>
      rw [hold] at hown
      rw [hpc, hcurrent]
      exact hown
  | assert hold hpc hcurrent =>
      rw [hold] at hown
      rw [hpc, hcurrent]
      exact hown
  | same _ hpc =>
      rw [hpc]
      exact own_stay _ _
  | start hold hne hpc hcurrent =>
      rw [hold] at hown
      rw [hpc, hcurrent]
      exact ⟨hown, hne⟩
  | claim hold hpc hcurrent =>
      rw [hold] at hown
      rw [hpc, hcurrent]
      exact hown
  | @switch v n hold hpc =>
      rw [hold] at hown
      rw [hpc]
      cases v with
      | future k => exact hown.1
      | _ => trivial
  | resume _ hpc =>
      rcases hpc with ⟨k, hpc⟩ | hpc <;> rw [hpc] <;> trivial
  | take _ _ hpc =>
      rw [hpc]
      trivial
  | suspend hold _ hpc =>
      rw [hold] at hown
      rw [hpc]
      exact hown
  | suspended _ hpc =>
      rw [hpc]
      trivial
  | left _ _ hpc =>
      rw [hpc]
      trivial

theorem Step.own (hstep : Step kind s a s')
    (hs : ∀ d, (s.pc d).Own kind (s.current d)) (d : Cpu) :
    (s'.pc d).Own kind (s'.current d) := by
  by_cases hd : d = a.1
  · subst hd
    exact hstep.turn.own (hs _)
  · obtain ⟨hpc, hcurrent, -⟩ := hstep.others hd
    rw [hpc, hcurrent]
    exact hs d

/-- The queue whose lock the code holds. -/
def Caller.queueLock : Caller → Option QueueId
  | .queue q _ => some q
  | _ => none

def Pc.queueLock : Pc → Option QueueId
  | .evalLocked w _ => some w.queue
  | .waitUnlock w => some w.queue
  | .assertRunning w => some w.queue
  | .setBlocked w => some w.queue
  | .setInWaitQueue w => some w.queue
  | .pushBack w => some w.queue
  | .dropGuard w => some w.queue
  | .cancelRetain w => some w.queue
  | .cancelUnlock w => some w.queue
  | .notifyPop q _ => some q
  | .clearInWaitQueue q _ _ => some q
  | .notifyUnlock q _ _ => some q
  | .requeueDrain q _ _ => some q
  | .requeueUnlock q _ _ => some q
  | .requeueExtend _ q => some q
  | .requeueUnlockTarget q => some q
  | .wakeCas b _ => b.queueLock
  | .wakeSpin b _ => b.queueLock
  | .wakePut b _ => b.queueLock
  | _ => none

theorem Pc.Plain.queueLock {p : Pc} (hp : p.Plain) : p.queueLock = none := by
  cases p <;> first | rfl | cases hp

theorem queueLock_resumeContext (k : Option Kont) : (resumeContext k).queueLock = none := by
  cases k <;> rfl

theorem queueLock_stay (v : Via) (u : Task) : (v.stay u).queueLock = none := by
  rcases v with k | k | -
  · cases k <;> rfl
  · cases k with
    | exiting => rfl
    | user => exact (plain_resumeCoroutine .user).queueLock
    | blocked w => exact (plain_resumeCoroutine (.blocked w)).queueLock
  · rfl

theorem queueLock_caller_done (b : Caller) : b.done.queueLock = b.queueLock := by
  cases b <;> rfl

theorem queueLock_afterNotify (s : State) (c : Cpu) (q : QueueId) (found : Bool) (m : Mode) :
    (s.afterNotify kind c q found m).queueLock = none := by
  cases m <;> cases found <;> rfl

/-- What a step of CPU `c` does with the queue locks. -/
inductive Locking (s : State) (c : Cpu) (s' : State) : Prop
  | keep : s'.lock = s.lock → (s'.pc c).queueLock = (s.pc c).queueLock → Locking s c s'
  | acquire (q : QueueId) :
      s.lock q = none → s'.lock = Function.update s.lock q (some c) →
      (s.pc c).queueLock = none → (s'.pc c).queueLock = some q → Locking s c s'
  | release (q : QueueId) :
      s'.lock = Function.update s.lock q none →
      (s.pc c).queueLock = some q → (s'.pc c).queueLock = none → Locking s c s'

theorem Locking.same {p p' : Pc} (hpc : s.pc c = p) (hlock : s'.lock = s.lock)
    (hp : p'.queueLock = p.queueLock) : Locking s c (s'.go c p') :=
  .keep hlock (by simp [hpc, hp])

theorem Locking.take {q : QueueId} {p p' : Pc} (hpc : s.pc c = p) (hfree : s.lock q = none)
    (hp : p.queueLock = none) (hp' : p'.queueLock = some q)
    (hlock : s'.lock = Function.update s.lock q (some c)) : Locking s c (s'.go c p') :=
  .acquire q hfree hlock (by rw [hpc, hp]) (by simp [hp'])

theorem Locking.drop {q : QueueId} {p p' : Pc} (hpc : s.pc c = p)
    (hp : p.queueLock = some q) (hp' : p'.queueLock = none)
    (hlock : s'.lock = Function.update s.lock q none) : Locking s c (s'.go c p') :=
  .release q hlock (by rw [hpc, hp]) (by simp [hp'])

theorem Step.locking (hstep : Step kind s a s') : Locking s a.1 s' := by
  cases hstep with
  | spawn => exact .keep rfl rfl
  | setFlag => exact .keep rfl rfl
  | waitLock hpc hfree _ => exact .take hpc hfree rfl rfl rfl
  | waitLockUntil hpc hfree _ _ => exact .take hpc hfree rfl rfl rfl
  | cancelLock hpc hfree => exact .take hpc hfree rfl rfl rfl
  | notifyLock hpc hfree => exact .take hpc hfree rfl rfl rfl
  | requeueLock hpc hfree => exact .take hpc hfree rfl rfl rfl
  | requeueLockTarget hpc hfree => exact .take hpc hfree rfl rfl rfl
  | waitUnlock hpc => exact .drop hpc rfl rfl rfl
  | dropGuard hpc => exact .drop hpc rfl rfl rfl
  | cancelUnlock hpc => exact .drop hpc rfl rfl rfl
  | notifyUnlock hpc => exact .drop hpc rfl (queueLock_afterNotify _ _ _ _ _) rfl
  | requeueUnlock hpc => exact .drop hpc rfl (by split <;> rfl) rfl
  | requeueUnlockTarget hpc => exact .drop hpc rfl rfl rfl
  | yieldCas hpc _ => exact .same hpc rfl (by split <;> rfl)
  | setRunningSame hpc => exact .same hpc rfl (queueLock_stay _ _)
  | switchTo hpc =>
      refine .same hpc rfl ?_
      split
      · rfl
      · exact queueLock_resumeContext _
  | leave hpc =>
      refine .same hpc rfl ?_
      split
      · rfl
      · exact queueLock_resumeContext _
  | checkPrevExited hpc _ => exact .same hpc rfl (plain_resume _).queueLock
  | checkPrev hpc _ => exact .same hpc rfl (plain_resume _).queueLock
  | poll hpc _ => exact .same hpc rfl (plain_resumeCoroutine _).queueLock
  | evalLocked hpc => exact .same hpc rfl (by split <;> rfl)
  | evalUnlocked hpc => exact .same hpc rfl (by split <;> rfl)
  | cancelLoad hpc =>
      refine .same hpc rfl ?_
      split
      · rfl
      · exact (plain_wait_done _).queueLock
  | cancelClear hpc => exact .same hpc rfl (plain_wait_done _).queueLock
  | wakeCas hpc _ =>
      refine .same hpc rfl ?_
      split
      · exact queueLock_caller_done _
      · rfl
  | wakeCasFail hpc _ => exact .same hpc rfl (queueLock_caller_done _)
  | wakePut hpc _ => exact .same hpc rfl (queueLock_caller_done _)
  | wakersUnlock hpc => exact .same hpc rfl (by split <;> rfl)
  | _ => exact .keep rfl (by simp [Pc.queueLock, Caller.queueLock, *])

/-- A queue lock is held by the CPU that stands in its critical section. -/
def Locked (s : State) : Prop :=
  ∀ c q, s.lock q = some c ↔ (s.pc c).queueLock = some q

theorem Step.locked (hstep : Step kind s a s') (hs : Locked s) : Locked s' := by
  intro d q
  by_cases hd : d = a.1
  · subst hd
    rcases hstep.locking with ⟨hlock, hpc⟩ | ⟨r, hfree, hlock, hpc, hpc'⟩ | ⟨r, hlock, hpc, hpc'⟩
    · rw [hlock, hpc]
      exact hs _ q
    · rw [hlock, hpc']
      by_cases hq : q = r
      · simp [hq]
      · have hnot := (hs a.1 q).not.mpr (by simp [hpc])
        rw [Function.update_of_ne hq]
        simp [hnot, Ne.symm hq]
    · rw [hlock, hpc']
      by_cases hq : q = r
      · simp [hq]
      · have hnot := (hs a.1 q).not.mpr (by simp [hpc, Ne.symm hq])
        rw [Function.update_of_ne hq]
        simp [hnot]
  · rw [(hstep.others hd).1, ← hs d q]
    rcases hstep.locking with ⟨hlock, -⟩ | ⟨r, hfree, hlock, -⟩ | ⟨r, hlock, hpc, -⟩
    · rw [hlock]
    · rw [hlock]
      by_cases hq : q = r
      · simp [hq, hfree, Ne.symm hd]
      · rw [Function.update_of_ne hq]
    · rw [hlock]
      by_cases hq : q = r
      · simp [hq, (hs a.1 r).mpr hpc, Ne.symm hd]
      · rw [Function.update_of_ne hq]

end Smp
