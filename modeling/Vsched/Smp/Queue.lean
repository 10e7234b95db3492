import Vsched.Smp.Tidy

/-!
# Blocked tasks and wait queues

What a step does to the wait queues, and where the blocked tasks are: a task that
is blocked because of a blocking call is in the queue it called, on its way into
it, or popped from it and not yet woken.
-/

namespace Smp

open Handoff (TaskState Placed)

variable {kind : Task → Kind} {h : History} {s s' : State} {a : Cpu × Event} {c d : Cpu}
  {t : Task}

/-- The blocking call for which a task was last marked as blocked. -/
def reason : History → Task → Option Wait
  | [], _ => none
  | (_, .blocked u w) :: h, t => if u = t then some w else reason h t
  | (_, .suspended u) :: h, t => if u = t then none else reason h t
  | _ :: h, t => reason h t

/-- The events that mark no task as blocked. -/
def Event.Mute : Event → Prop
  | .blocked _ _ => False
  | .suspended _ => False
  | _ => True

theorem reason_cons {ev : Event} (hblocked : ∀ w, ev ≠ .blocked t w)
    (hsuspended : ev ≠ .suspended t) : reason ((c, ev) :: h) t = reason h t := by
  cases ev with
  | blocked u w =>
      have hu : u ≠ t := by
        rintro rfl
        exact hblocked w rfl
      simp [reason, hu]
  | suspended u =>
      have hu : u ≠ t := by
        rintro rfl
        exact hsuspended rfl
      simp [reason, hu]
  | _ => rfl

/-- The queue that `requeue` takes tasks from, or puts them into. -/
def Event.requeues : Event → Option QueueId
  | .drained q _ => some q
  | .extended q _ => some q
  | _ => none

/-- The call that a CPU is carrying out between the mark and the push. -/
def Pc.enters : Pc → Option Wait
  | .setInWaitQueue w => some w
  | .pushBack w => some w
  | _ => none

/-- The queue and the task that a CPU has popped from it, before it wakes the task. -/
def Pc.wakes : Pc → Option (QueueId × Task)
  | .clearInWaitQueue q _ t => some (q, t)
  | .wakeCas (.queue q _) t => some (q, t)
  | _ => none

/-- The tasks that `requeue` has taken from a queue and not yet put into the other. -/
def Pc.carries : Pc → List Task
  | .requeueUnlock _ l _ => l
  | .requeueLockTarget l _ => l
  | .requeueExtend l _ => l
  | _ => []

/-- Where a CPU neither blocks its task, nor wakes one it has popped, nor carries tasks from
queue to queue, nor exits. -/
def Pc.Away : Pc → Prop
  | .evalLocked _ _ => False
  | .assertRunning _ => False
  | .setBlocked _ => False
  | .setInWaitQueue _ => False
  | .pushBack _ => False
  | .clearInWaitQueue _ _ _ => False
  | .wakeCas (.queue _ _) _ => False
  | .storeExitCode _ => False
  | .requeueUnlock _ _ _ => False
  | .requeueLockTarget _ _ => False
  | .requeueExtend _ _ => False
  | _ => True

theorem Pc.Away.carries {p : Pc} (hp : p.Away) : p.carries = [] := by
  cases p <;> first | rfl | cases hp

theorem Pc.Away.enters {p : Pc} (hp : p.Away) : p.enters = none := by
  cases p <;> first | rfl | cases hp

theorem Pc.Away.wakes {p : Pc} (hp : p.Away) : p.wakes = none := by
  cases p with
  | wakeCas b t =>
      cases b <;> first | rfl | cases hp
  | _ => first | rfl | cases hp

/-- What a step of CPU `c` does with the wait queues. -/
inductive Queueing (kind : Task → Kind) (s : State) (c : Cpu) (s' : State) : Event → Prop
  | away {ev : Event} :
      (s.pc c).enters = none ∧ (s.pc c).wakes = none → (s'.pc c).Away → s'.queue = s.queue →
      ev.Mute → Queueing kind s c s' ev
  | stay {ev : Event} :
      s'.pc c = s.pc c → s'.current c = s.current c → s'.queue = s.queue → ev.Mute →
      Queueing kind s c s' ev
  | suspended {t : Task} :
      s.pc c = .schedBlocked t → (s'.pc c).Away → s'.queue = s.queue →
        Queueing kind s c s' (.suspended t)
  | enter {ev : Event} {w : Wait} :
      s.pc c = .waitLock w → w.cond = none ∨ (kind (s.current c)).isCoroutine = true →
      s'.pc c = .assertRunning w → s'.current c = s.current c → s'.queue = s.queue →
      ev.Mute → Queueing kind s c s' ev
  | check {ev : Event} {w : Wait} {b : Cond} :
      s.pc c = .waitLock w → w.cond = some b → s'.pc c = .evalLocked w b →
      s'.queue = s.queue → ev.Mute → Queueing kind s c s' ev
  | refuse {ev : Event} {w : Wait} {b : Cond} :
      s.pc c = .evalLocked w b → s.holds b = false → s'.pc c = .assertRunning w →
      s'.queue = s.queue → ev.Mute → Queueing kind s c s' ev
  | assert {ev : Event} {w : Wait} :
      s.pc c = .assertRunning w → s'.pc c = .setBlocked w → s'.current c = s.current c →
      s'.queue = s.queue → ev.Mute → Queueing kind s c s' ev
  | block {w : Wait} :
      s.pc c = .setBlocked w → s'.pc c = .setInWaitQueue w → s'.current c = s.current c →
      s'.queue = s.queue → Queueing kind s c s' (.blocked (s.current c) w)
  | mark {ev : Event} {w : Wait} :
      s.pc c = .setInWaitQueue w → s'.pc c = .pushBack w → s'.current c = s.current c →
      s'.queue = s.queue → ev.Mute → Queueing kind s c s' ev
  | push {ev : Event} {w : Wait} :
      s.pc c = .pushBack w → (s'.pc c).Away →
      s'.queue = Function.update s.queue w.queue (s.queue w.queue ++ [s.current c]) →
      ev.Mute → Queueing kind s c s' ev
  | pop {ev : Event} {q : QueueId} {m : Mode} {t : Task} :
      s.pc c = .notifyPop q m → t ∈ s.queue q →
      s'.queue = Function.update s.queue q ((s.queue q).erase t) →
      s'.pc c = .clearInWaitQueue q m t → ev.Mute → Queueing kind s c s' ev
  | clear {ev : Event} {q : QueueId} {m : Mode} {t : Task} :
      s.pc c = .clearInWaitQueue q m t → s'.pc c = .wakeCas (.queue q m) t →
      s'.queue = s.queue → ev.Mute → Queueing kind s c s' ev
  | wake {ev : Event} {b : Caller} {t : Task} :
      s.pc c = .wakeCas b t → s'.state t ≠ .blocked → (s'.pc c).Away →
      s'.queue = s.queue → ev.Mute → Queueing kind s c s' ev
  | retain {ev : Event} {w : Wait} :
      s.pc c = .cancelRetain w → (s'.pc c).Away →
      s'.queue = Function.update s.queue w.queue
        ((s.queue w.queue).filter (· ≠ s.current c)) →
      ev.Mute → Queueing kind s c s' ev
  | drain {q r : QueueId} {n : ℕ} :
      s.pc c = .requeueDrain q n r → s'.pc c = .requeueUnlock q ((s.queue q).take n) r →
      s'.queue = Function.update s.queue q ((s.queue q).drop n) →
      Queueing kind s c s' (.drained q ((s.queue q).take n))
  | unlock {ev : Event} {q r : QueueId} {l : List Task} :
      s.pc c = .requeueUnlock q l r → s'.pc c = .requeueLockTarget l r → s'.queue = s.queue →
      ev.Mute → Queueing kind s c s' ev
  | relock {ev : Event} {q : QueueId} {l : List Task} :
      s.pc c = .requeueLockTarget l q → s'.pc c = .requeueExtend l q → s'.queue = s.queue →
      ev.Mute → Queueing kind s c s' ev
  | extend {q : QueueId} {l : List Task} :
      s.pc c = .requeueExtend l q → s'.pc c = .requeueUnlockTarget q →
      s'.queue = Function.update s.queue q (s.queue q ++ l) →
      Queueing kind s c s' (.extended q l)
  | exit {e : ℤ} :
      s.pc c = .setExited e → s'.pc c = .storeExitCode e → s'.current c = s.current c →
      s'.state (s.current c) = .exited → s'.queue = s.queue →
      Queueing kind s c s' (.exited (s.current c) e)

theorem Pc.Plain.away {p : Pc} (hp : p.Plain) : p.Away := by
  cases p <;> trivial

theorem away_caller_done (b : Caller) : b.done.Away := by
  cases b <;> trivial

theorem away_stay (v : Via) (u : Task) : (v.stay u).Away := by
  rcases v with k | k | -
  · cases k <;> trivial
  · cases k with
    | exiting => trivial
    | user => exact (plain_resumeCoroutine .user).away
    | blocked w => exact (plain_resumeCoroutine (.blocked w)).away
  · trivial

theorem away_resumeContext (k : Option Kont) : (resumeContext k).Away := by
  cases k <;> trivial

theorem away_afterNotify (s : State) (c : Cpu) (q : QueueId) (found : Bool) (m : Mode) :
    (s.afterNotify kind c q found m).Away := by
  cases m <;> cases found <;> trivial

theorem Queueing.of_away {p : Pc} {ev : Event}
    (hpc : (s.pc c).enters = none ∧ (s.pc c).wakes = none) (hp : p.Away)
    (hqueue : s'.queue = s.queue) (hev : ev.Mute) : Queueing kind s c (s'.go c p) ev :=
  .away hpc (by simpa using hp) hqueue hev

theorem Step.queueing (hstep : Step kind s a s') : Queueing kind s a.1 s' a.2 := by
  have hgo : ∀ (r : State) (c : Cpu) (p : Pc), (r.go c p).pc c = p := by simp
  cases hstep with
  | spawn => exact .stay rfl rfl rfl trivial
  | setFlag => exact .stay rfl rfl rfl trivial
  | schedBlocked hpc => exact .suspended hpc (by rw [hgo]; trivial) rfl
  | waitLock hpc _ hw => exact .enter hpc hw (hgo _ _ _) rfl rfl trivial
  | waitLockUntil hpc _ hw _ => exact .check hpc hw (hgo _ _ _) rfl trivial
  | @evalLocked c w b hpc =>
      cases hb : s.holds b with
      | true => exact .of_away (by simp [*, Pc.enters, Pc.wakes]) trivial rfl trivial
      | false => exact .refuse hpc hb (hgo _ _ _) rfl trivial
  | assertRunning hpc _ => exact .assert hpc (hgo _ _ _) rfl rfl trivial
  | setBlocked hpc _ => exact .block hpc (hgo _ _ _) rfl rfl
  | setInWaitQueue hpc => exact .mark hpc (hgo _ _ _) rfl rfl trivial
  | pushBack hpc => exact .push hpc (by rw [hgo]; trivial) rfl trivial
  | @notifyPop c q m t l hpc _ hq =>
      refine .pop hpc (by simp [hq]) ?_ (hgo _ _ _) trivial
      rw [hq, List.erase_cons_head]
      rfl
  | notifyRemove hpc ht => exact .pop hpc ht rfl (hgo _ _ _) trivial
  | requeueDrain hpc => exact .drain hpc (hgo _ _ _) rfl
  | requeueExtend hpc => exact .extend hpc (hgo _ _ _) rfl
  | @requeueUnlock c q r l hpc =>
      cases l with
      | nil => exact .of_away (by simp [*, Pc.enters, Pc.wakes]) trivial rfl trivial
      | cons u l => exact .unlock hpc (hgo _ _ _) rfl trivial
  | requeueLockTarget hpc => exact .relock hpc (hgo _ _ _) rfl trivial
  | clearInWaitQueue hpc => exact .clear hpc (hgo _ _ _) rfl trivial
  | cancelRetain hpc => exact .retain hpc (by rw [hgo]; trivial) rfl trivial
  | wakeCas hpc _ =>
      refine .wake hpc (by simp) ?_ rfl trivial
      rw [hgo]
      split
      · exact away_caller_done _
      · trivial
  | wakeCasFail hpc hst =>
      exact .wake hpc hst (by rw [hgo]; exact away_caller_done _) rfl trivial
  | setExited hpc _ _ => exact .exit hpc (hgo _ _ _) rfl (by simp) rfl
  | yieldCas => exact .of_away (by simp [*, Pc.enters, Pc.wakes]) (by split <;> trivial) rfl trivial
  | setRunningSame => exact .of_away (by simp [*, Pc.enters, Pc.wakes]) (away_stay _ _) rfl trivial
  | switchTo =>
      refine .of_away (by simp [*, Pc.enters, Pc.wakes]) ?_ rfl trivial
      split
      · trivial
      · exact away_resumeContext _
  | leave =>
      refine .of_away (by simp [*, Pc.enters, Pc.wakes]) ?_ rfl trivial
      split
      · trivial
      · exact away_resumeContext _
  | checkPrevExited =>
      exact .of_away (by simp [*, Pc.enters, Pc.wakes]) (plain_resume _).away rfl trivial
  | checkPrev => exact .of_away (by simp [*, Pc.enters, Pc.wakes]) (plain_resume _).away rfl trivial
  | poll =>
      exact .of_away (by simp [*, Pc.enters, Pc.wakes]) (plain_resumeCoroutine _).away rfl trivial
  | evalUnlocked =>
      exact .of_away (by simp [*, Pc.enters, Pc.wakes]) (by split <;> trivial) rfl trivial
  | cancelLoad =>
      refine .of_away (by simp [*, Pc.enters, Pc.wakes]) ?_ rfl trivial
      split
      · trivial
      · exact (plain_wait_done _).away
  | cancelClear =>
      exact .of_away (by simp [*, Pc.enters, Pc.wakes]) (plain_wait_done _).away rfl trivial
  | notifyUnlock =>
      exact .of_away (by simp [*, Pc.enters, Pc.wakes]) (away_afterNotify _ _ _ _ _) rfl trivial
  | wakePut => exact .of_away (by simp [*, Pc.enters, Pc.wakes]) (away_caller_done _) rfl trivial
  | wakersUnlock =>
      exact .of_away (by simp [*, Pc.enters, Pc.wakes]) (by split <;> trivial) rfl trivial
  | _ => exact .of_away (by simp [*, Pc.enters, Pc.wakes]) trivial rfl trivial

/-- What marks a task as blocked. -/
theorem Step.blocks (hstep : Step kind s a s') (hblocked : s'.state t = .blocked) :
    s.state t = .blocked ∨ a.2 = .suspended t ∨ ∃ w, a.2 = .blocked t w := by
  have hset : ∀ (f : Task → TaskState) (u : Task) (st : TaskState), st ≠ .blocked →
      Function.update f u st t = .blocked → f t = .blocked := by
    intro f u st hst hupd
    by_cases htu : t = u
    · rw [htu, Function.update_self] at hupd
      exact absurd hupd hst
    · rwa [Function.update_of_ne htu] at hupd
  cases hstep with
  | initVsched => exact .inl (hset _ _ _ (by simp) (hset _ _ _ (by simp) hblocked))
  | initVschedSecondary => exact .inl (hset _ _ _ (by simp) (hset _ _ _ (by simp) hblocked))
  | spawn => exact .inl (hset _ _ _ (by simp) hblocked)
  | yieldCas => exact .inl (hset _ _ _ (by simp) hblocked)
  | setRunningSame => exact .inl (hset _ _ _ (by simp) hblocked)
  | setRunning => exact .inl (hset _ _ _ (by simp) hblocked)
  | setExited => exact .inl (hset _ _ _ (by simp) hblocked)
  | wakeCas => exact .inl (hset _ _ _ (by simp) hblocked)
  | @schedBlocked c u hpc =>
      by_cases htu : t = u
      · exact .inr (.inl (by rw [htu]))
      · left
        simpa [htu] using hblocked
  | @setBlocked c w hpc _ =>
      by_cases htc : t = s.current c
      · exact .inr (.inr ⟨w, by rw [htc]⟩)
      · left
        simpa [htc] using hblocked
  | _ => exact .inl hblocked

/-- Where a task may be that is blocked because of the call `w`. -/
def Await (s : State) (t : Task) (w : Wait) : Prop :=
  t ∈ s.queue w.queue ∨ (∃ c, (s.pc c).enters = some w ∧ s.current c = t) ∨
    ∃ c, (s.pc c).wakes = some (w.queue, t)

/-- A task blocked because of a call on `q` is in the queue, on its way into it, or
popped and not yet woken. -/
def Waiting (P : Task → Prop) (q : QueueId) (h : History) (s : State) : Prop :=
  ∀ t w, P t → w.queue = q → s.state t = .blocked → reason h t = some w → Await s t w

/-- The other CPUs carry on with what they do for a task. -/
theorem Await.step {w : Wait} (ht : Await s t w) (hstep : Step kind s a s')
    (hqueue : t ∈ s.queue w.queue → Await s' t w)
    (henters : (s.pc a.1).enters = some w → s.current a.1 = t → Await s' t w)
    (hwakes : (s.pc a.1).wakes = some (w.queue, t) → Await s' t w) : Await s' t w := by
  rcases ht with ht | ⟨c, hc, hcurrent⟩ | ⟨c, hc⟩
  · exact hqueue ht
  · by_cases hca : c = a.1
    · subst hca
      exact henters hc hcurrent
    · obtain ⟨hpc, hcur, -⟩ := hstep.others hca
      exact .inr (.inl ⟨c, by rw [hpc, hc], by rw [hcur, hcurrent]⟩)
  · by_cases hca : c = a.1
    · subst hca
      exact hwakes hc
    · exact .inr (.inr ⟨c, by rw [(hstep.others hca).1, hc]⟩)

theorem Queueing.await {P : Task → Prop} {w : Wait} {ev : Event}
    (hq : Queueing kind s c s' ev) (hstep : Step kind s (c, ev) s')
    (hplaced : Placed (isIdle kind) P (view s)) (hP : P t)
    (hkept : ev.requeues ≠ some w.queue) (hold : s.state t = .blocked)
    (hblocked : s'.state t = .blocked) (ht : Await s t w) : Await s' t w := by
  have hsame : s'.queue = s.queue → t ∈ s.queue w.queue → Await s' t w := by
    intro hqueue hmem
    exact .inl (hqueue ▸ hmem)
  have hnot : ∀ {p : Pc}, s.pc c = p → p.enters = none → p.wakes = none →
      (t ∈ s.queue w.queue → Await s' t w) → Await s' t w := by
    intro p hpc he hw hqueue
    refine ht.step hstep hqueue ?_ ?_
    · intro h
      rw [hpc, he] at h
      cases h
    · intro h
      rw [hpc, hw] at h
      cases h
  cases hq with
  | away hpc _ hqueue => exact hnot rfl hpc.1 hpc.2 (hsame hqueue)
  | stay hpc hcurrent hqueue =>
      refine ht.step hstep (hsame hqueue) ?_ ?_
      · intro he hcur
        exact .inr (.inl ⟨c, by rw [hpc]; exact he, by rw [hcurrent]; exact hcur⟩)
      · intro hw
        exact .inr (.inr ⟨c, by rw [hpc]; exact hw⟩)
  | suspended hpc _ hqueue => exact hnot hpc rfl rfl (hsame hqueue)
  | unlock hpc _ hqueue => exact hnot hpc rfl rfl (hsame hqueue)
  | relock hpc _ hqueue => exact hnot hpc rfl rfl (hsame hqueue)
  | enter hpc _ _ _ hqueue => exact hnot hpc rfl rfl (hsame hqueue)
  | check hpc _ _ hqueue => exact hnot hpc rfl rfl (hsame hqueue)
  | refuse hpc _ _ hqueue => exact hnot hpc rfl rfl (hsame hqueue)
  | assert hpc _ _ hqueue => exact hnot hpc rfl rfl (hsame hqueue)
  | block hpc _ _ hqueue => exact hnot hpc rfl rfl (hsame hqueue)
  | exit hpc _ _ _ hqueue => exact hnot hpc rfl rfl (hsame hqueue)
  | mark hpc hpc' hcurrent hqueue =>
      refine ht.step hstep (hsame hqueue) ?_ ?_
      · intro he hcur
        have he : (Pc.setInWaitQueue _).enters = some w := hpc ▸ he
        exact .inr (.inl ⟨c, by rw [hpc']; exact he, by rw [hcurrent]; exact hcur⟩)
      · intro hw
        have hw : (Pc.setInWaitQueue _).wakes = some (w.queue, t) := hpc ▸ hw
        cases hw
  | @push _ v hpc _ hqueue =>
      have hgrow : ∀ q, t ∈ s.queue q → t ∈ s'.queue q := by
        intro q hmem
        rw [hqueue]
        by_cases hq : q = v.queue
        · subst hq
          simp [hmem]
        · simpa [hq] using hmem
      refine ht.step hstep (fun hmem => .inl (hgrow _ hmem)) ?_ ?_
      · intro he hcur
        have he : (Pc.pushBack v).enters = some w := hpc ▸ he
        cases he
        exact .inl (by rw [hqueue]; simp [← hcur])
      · intro hw
        have hw : (Pc.pushBack v).wakes = some (w.queue, t) := hpc ▸ hw
        cases hw
  | @pop _ q m u hpc _ hqueue hpc' =>
      refine hnot hpc rfl rfl ?_
      intro hmem
      by_cases hq : w.queue = q
      · by_cases htu : t = u
        · exact .inr (.inr ⟨c, by rw [hpc', hq, htu]; rfl⟩)
        · left
          rw [hqueue, hq, Function.update_self]
          exact (List.mem_erase_of_ne htu).mpr (hq ▸ hmem)
      · exact .inl (by rw [hqueue, Function.update_of_ne hq]; exact hmem)
  | @drain q _ _ hpc _ hqueue =>
      have hq : w.queue ≠ q := by
        rintro rfl
        exact hkept rfl
      refine hnot hpc rfl rfl ?_
      intro hmem
      exact .inl (by rw [hqueue, Function.update_of_ne hq]; exact hmem)
  | @extend q _ hpc _ hqueue =>
      have hq : w.queue ≠ q := by
        rintro rfl
        exact hkept rfl
      refine hnot hpc rfl rfl ?_
      intro hmem
      exact .inl (by rw [hqueue, Function.update_of_ne hq]; exact hmem)
  | clear hpc hpc' hqueue =>
      refine ht.step hstep (hsame hqueue) ?_ ?_
      · intro he
        have he : (Pc.clearInWaitQueue _ _ _).enters = some w := hpc ▸ he
        cases he
      · intro hw
        have hw : (Pc.clearInWaitQueue _ _ _).wakes = some (w.queue, t) := hpc ▸ hw
        exact .inr (.inr ⟨c, by rw [hpc']; exact hw⟩)
  | @wake _ b u hpc hawake _ hqueue =>
      have hne : u ≠ t := by
        rintro rfl
        exact hawake hblocked
      refine ht.step hstep (hsame hqueue) ?_ ?_
      · intro he
        have he : (Pc.wakeCas b u).enters = some w := hpc ▸ he
        cases he
      · intro hw
        have hw : (Pc.wakeCas b u).wakes = some (w.queue, t) := hpc ▸ hw
        cases b <;> simp [Pc.wakes, hne] at hw
  | @retain _ v hpc _ hqueue =>
      -- the task that gives up its place runs, so it is not the blocked one
      have hne : t ≠ s.current c := by
        rintro rfl
        have hseat : Handoff.At (view s) (s.current c) (.seat c) := ⟨⟨_, view_role hpc⟩, rfl⟩
        exact hplaced.not_blocked hP hseat hold
      refine hnot hpc rfl rfl ?_
      intro hmem
      left
      rw [hqueue]
      by_cases hq : w.queue = v.queue
      · rw [hq] at hmem ⊢
        simp [hmem, hne]
      · simpa [hq] using hmem

theorem Step.at_blocked {w : Wait} (hstep : Step kind s a s') (hev : a.2 = .blocked t w) :
    s.pc a.1 = .setBlocked w ∧ s.current a.1 = t ∧ s'.pc a.1 = .setInWaitQueue w ∧
      s'.current a.1 = t := by
  cases hstep <;> cases hev
  exact ⟨‹_›, rfl, by simp, rfl⟩

theorem Step.waiting {P : Task → Prop} {q : QueueId} (hstep : Step kind s a s')
    (hkept : a.2.requeues ≠ some q) (hplaced : Placed (isIdle kind) P (view s))
    (hs : Waiting P q h s) : Waiting P q (a :: h) s' := by
  obtain ⟨c, ev⟩ := a
  rintro t w hP rfl hblocked hreason
  by_cases hmark : ∃ v, ev = .blocked t v
  · obtain ⟨v, rfl⟩ := hmark
    obtain ⟨-, -, hpc, hcurrent⟩ := hstep.at_blocked rfl
    obtain rfl : v = w := by simpa [reason] using hreason
    exact .inr (.inl ⟨c, by rw [hpc]; rfl, hcurrent⟩)
  · have hsuspend : ev ≠ .suspended t := by
      rintro rfl
      simp [reason] at hreason
    have hold : s.state t = .blocked := by
      rcases hstep.blocks hblocked with hold | hev | hev
      · exact hold
      · exact absurd hev hsuspend
      · exact absurd hev hmark
    have hsame : reason ((c, ev) :: h) t = reason h t :=
      reason_cons (fun v hv => hmark ⟨v, hv⟩) hsuspend
    exact hstep.queueing.await hstep hplaced hP hkept hold hblocked
      (hs t w hP rfl hold (hsame ▸ hreason))

/-- No task is requeued from `q` or to it. -/
def Unrequeued (q : QueueId) (_ : History) (_ : State) (a : Cpu × Event) : Prop :=
  a.2.requeues ≠ some q

instance (q : QueueId) (h : History) (s : State) (a : Cpu × Event) :
    Decidable (Unrequeued q h s a) :=
  inferInstanceAs (Decidable (a.2.requeues ≠ some q))

/-- In every run whose tasks of `P` keep their places. -/
theorem waiting_run {G : History → State → Cpu × Event → Prop} {P : Task → Prop} {q : QueueId}
    (hrun : (machine kind).RunOf G h s) (hkept : ∀ h s a, G h s a → Unrequeued q h s a)
    (hplaced : ∀ h s, (machine kind).RunOf G h s → Placed (isIdle kind) P (view s)) :
    Waiting P q h s := by
  refine hrun.invariant (I := Waiting P q) ?_ ?_
  · rintro s rfl t w _ _ hblocked
    cases hblocked
  · intro h s a s' hrun hs hg hstep
    exact Step.waiting hstep (hkept h s a hg) (hplaced h s hrun) hs

end Smp
