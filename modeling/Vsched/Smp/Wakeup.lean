import Vsched.Smp.Play
import Vsched.Smp.Queue

/-!
# No lost wake-up on a wait queue

A `notify_all` that begins when a condition holds finds its queue empty at last.
It has the lock then, so every task in the queue's critical sections comes later
and sees the condition, if it evaluates it there. Threads do; a coroutine
evaluates the condition before it takes the lock.
-/

namespace Smp

open Handoff (TaskState Placed)

variable {kind : Task → Kind} {h h₀ : History} {s s' s₀ : State} {a : Cpu × Event}
  {c d : Cpu} {t : Task} {q : QueueId} {m : Mode} {b : Cond} {R : Task → Prop}

/-- The calls that wait on `q` for `b`. -/
def Wait.On (w : Wait) (q : QueueId) (b : Cond) : Prop :=
  w.queue = q ∧ w.cond = some b

/-- `t` was last marked as blocked by a call that waits on `q` for `b`. -/
def WaitsFor (h : History) (t : Task) (q : QueueId) (b : Cond) : Prop :=
  ∃ w, reason h t = some w ∧ w.On q b

/-- No task of `R` waits on `q` for `b`, and none can come to. -/
structure Cleared (R : Task → Prop) (q : QueueId) (b : Cond) (h : History) (s : State) :
    Prop where
  queue : ∀ t, R t → t ∈ s.queue q → ¬ WaitsFor h t q b
  entering : ∀ c w, (s.pc c).enters = some w → w.queue = q → R (s.current c) →
    ¬ WaitsFor h (s.current c) q b
  marking : ∀ c w, s.pc c = .assertRunning w ∨ s.pc c = .setBlocked w → w.On q b →
    ¬ R (s.current c)
  waking : ∀ c t, (s.pc c).wakes = some (q, t) → R t → ¬ WaitsFor h t q b
  holds : s.holds b = true

theorem queueLock_enters {p : Pc} {w : Wait} (hp : p.enters = some w) :
    p.queueLock = some w.queue := by
  cases p <;> cases hp <;> rfl

theorem queueLock_wakes {p : Pc} (hp : p.wakes = some (q, t)) : p.queueLock = some q := by
  cases p with
  | clearInWaitQueue => cases hp; rfl
  | wakeCas b u => cases b <;> cases hp; rfl
  | _ => cases hp

/-- The CPU that has the lock and finds the queue empty. -/
theorem Cleared.of_empty (hlocked : Locked s) (hpc : s.pc d = .notifyPop q m)
    (hempty : s.queue q = []) (hb : s.holds b = true) : Cleared R q b h s := by
  have hlock : s.lock q = some d := (hlocked d q).mpr (by rw [hpc]; rfl)
  have honly : ∀ c, (s.pc c).queueLock = some q → s.pc c = .notifyPop q m := by
    intro c hc
    have hcd : s.lock q = some c := (hlocked c q).mpr hc
    rw [hlock] at hcd
    cases hcd
    exact hpc
  constructor
  · intro t _ ht
    rw [hempty] at ht
    cases ht
  · rintro c w hc rfl
    rw [honly c (queueLock_enters hc)] at hc
    cases hc
  · rintro c w hc ⟨rfl, -⟩
    have hlock : (s.pc c).queueLock = some w.queue := by rcases hc with hc | hc <;> rw [hc] <;> rfl
    rw [honly c hlock] at hc
    rcases hc with hc | hc <;> cases hc
  · intro c t hc
    rw [honly c (queueLock_wakes hc)] at hc
    cases hc
  · exact hb

/-- A thread evaluates the condition of its own call. -/
def Checks (s : State) : Prop :=
  ∀ c w b, s.pc c = .evalLocked w b → w.cond = some b

theorem Step.checks (hstep : Step kind s a s') (hs : Checks s) : Checks s' := by
  obtain ⟨e, ev⟩ := a
  intro c w b hc
  by_cases hce : c = e
  · subst hce
    have hqueueing : Queueing kind s c s' ev := hstep.queueing
    cases hqueueing with
    | stay hpc => exact hs c w b (hpc ▸ hc)
    | check _ hw hpc =>
        rw [hpc] at hc
        cases hc
        exact hw
    | _ => simp_all [Pc.Away]
  · rw [(hstep.others hce).1] at hc
    exact hs c w b hc

theorem checks_run {G : History → State → Cpu × Event → Prop}
    (hrun : (machine kind).RunOf G h s) : Checks s := by
  refine hrun.invariant (I := fun _ s => Checks s) ?_ ?_
  · rintro s rfl c w b hc
    cases hc
  · intro h s a s' _ hs _ hstep
    exact Step.checks hstep hs

/-- Only a CPU at the mark makes its task wait. -/
theorem WaitsFor.back (hstep : Step kind s a s') (hs : Cleared R q b h s) (ht : R t)
    (hwaits : WaitsFor (a :: h) t q b) : WaitsFor h t q b := by
  obtain ⟨w, hw, hon⟩ := hwaits
  obtain ⟨c, ev⟩ := a
  by_cases hblocked : ∃ v, ev = .blocked t v
  · obtain ⟨v, rfl⟩ := hblocked
    obtain rfl : v = w := by simpa [reason] using hw
    obtain ⟨hpc, hcurrent, -⟩ := hstep.at_blocked rfl
    exact absurd (hcurrent ▸ ht) (hs.marking c v (.inr hpc) hon)
  · have hsuspended : ev ≠ .suspended t := by
      rintro rfl
      simp [reason] at hw
    refine ⟨w, ?_, hon⟩
    rwa [reason_cons (fun v hv => hblocked ⟨v, hv⟩) hsuspended] at hw

theorem Queueing.member {ev : Event} (hq : Queueing kind s c s' ev)
    (hkept : ev.requeues ≠ some q) (ht : t ∈ s'.queue q) :
    t ∈ s.queue q ∨ ∃ w, s.pc c = .pushBack w ∧ w.queue = q ∧ s.current c = t := by
  have hsame : s'.queue = s.queue → t ∈ s.queue q := fun h => h ▸ ht
  cases hq with
  | away _ _ hqueue => exact .inl (hsame hqueue)
  | stay _ _ hqueue => exact .inl (hsame hqueue)
  | suspended _ _ hqueue => exact .inl (hsame hqueue)
  | unlock _ _ hqueue => exact .inl (hsame hqueue)
  | relock _ _ hqueue => exact .inl (hsame hqueue)
  | enter _ _ _ _ hqueue => exact .inl (hsame hqueue)
  | check _ _ _ hqueue => exact .inl (hsame hqueue)
  | refuse _ _ _ hqueue => exact .inl (hsame hqueue)
  | assert _ _ _ hqueue => exact .inl (hsame hqueue)
  | block _ _ _ hqueue => exact .inl (hsame hqueue)
  | exit _ _ _ _ hqueue => exact .inl (hsame hqueue)
  | mark _ _ _ hqueue => exact .inl (hsame hqueue)
  | clear _ _ hqueue => exact .inl (hsame hqueue)
  | wake _ _ _ hqueue => exact .inl (hsame hqueue)
  | @push _ w hpc _ hqueue =>
      by_cases hwq : q = w.queue
      · subst hwq
        rw [hqueue, Function.update_self, List.mem_append, List.mem_singleton] at ht
        exact ht.imp id fun h => ⟨w, hpc, rfl, h.symm⟩
      · rw [hqueue, Function.update_of_ne hwq] at ht
        exact .inl ht
  | @pop _ r _ u _ _ hqueue =>
      left
      by_cases hrq : q = r
      · subst hrq
        rw [hqueue, Function.update_self] at ht
        exact List.mem_of_mem_erase ht
      · rwa [hqueue, Function.update_of_ne hrq] at ht
  | @drain r _ _ _ _ hqueue =>
      have hrq : q ≠ r := by
        rintro rfl
        exact hkept rfl
      rw [hqueue, Function.update_of_ne hrq] at ht
      exact .inl ht
  | @extend r _ _ _ hqueue =>
      have hrq : q ≠ r := by
        rintro rfl
        exact hkept rfl
      rw [hqueue, Function.update_of_ne hrq] at ht
      exact .inl ht
  | @retain _ w _ _ hqueue =>
      left
      by_cases hwq : q = w.queue
      · subst hwq
        rw [hqueue, Function.update_self] at ht
        exact List.mem_of_mem_filter ht
      · rwa [hqueue, Function.update_of_ne hwq] at ht

/-- Threads see the condition under the lock; a coroutine of `R` must not come to
the lock any more with what it has seen before. -/
theorem Cleared.step (hs : Cleared R q b h s) (hchecks : Checks s) (hstep : Step kind s a s')
    (hkept : Unrequeued q h s a) (hb : s'.holds b = true)
    (hlate : ∀ w, s.pc a.1 = .waitLock w → w.On q b →
      (kind (s.current a.1)).isCoroutine = true → ¬ R (s.current a.1)) :
    Cleared R q b (a :: h) s' := by
  obtain ⟨e, ev⟩ := a
  have hqueueing : Queueing kind s e s' ev := hstep.queueing
  have hfresh : ∀ t, R t → ¬ WaitsFor h t q b → ¬ WaitsFor ((e, ev) :: h) t q b :=
    fun t ht hnot hwaits => hnot (hwaits.back hstep hs ht)
  constructor
  · intro t ht hmem
    refine hfresh t ht ?_
    rcases hqueueing.member hkept hmem with hmem | ⟨w, hpc, hw, rfl⟩
    · exact hs.queue t ht hmem
    · exact hs.entering e w (by rw [hpc]; rfl) hw ht
  · intro c w hc hw ht
    by_cases hce : c = e
    · subst hce
      have haway : ¬ (s'.pc c).Away := by
        intro hp
        rw [hp.enters] at hc
        cases hc
      cases hqueueing with
      | stay hpc hcurrent =>
          rw [hcurrent] at ht ⊢
          exact hfresh _ ht (hs.entering c w (hpc ▸ hc) hw ht)
      | @block v hold hpc hcurrent =>
          rw [hpc] at hc
          cases hc
          rw [hcurrent] at ht ⊢
          rintro ⟨u, hu, hon⟩
          obtain rfl : w = u := by simpa [reason] using hu
          exact hs.marking c w (.inr hold) hon ht
      | mark hold hpc hcurrent =>
          rw [hpc] at hc
          cases hc
          rw [hcurrent] at ht ⊢
          exact hfresh _ ht (hs.entering c w (by rw [hold]; rfl) hw ht)
      | _ => simp_all [Pc.enters]
    · obtain ⟨hpc, hcurrent, -⟩ := hstep.others hce
      rw [hpc] at hc
      rw [hcurrent] at ht ⊢
      exact hfresh _ ht (hs.entering c w hc hw ht)
  · intro c w hc hon
    by_cases hce : c = e
    · subst hce
      cases hqueueing with
      | stay hpc hcurrent =>
          rw [hcurrent]
          exact hs.marking c w (hpc ▸ hc) hon
      | enter hold hw hpc hcurrent =>
          rw [hpc] at hc
          obtain rfl : _ = w := by simpa using hc
          rw [hcurrent]
          refine hlate _ hold hon (hw.resolve_left ?_)
          simp [hon.2]
      | refuse hold hfalse hpc =>
          rw [hpc] at hc
          obtain rfl : _ = w := by simpa using hc
          have hw := hchecks c _ _ hold
          rw [hon.2] at hw
          cases hw
          rw [hs.holds] at hfalse
          cases hfalse
      | assert hold hpc hcurrent =>
          rw [hpc] at hc
          obtain rfl : _ = w := by simpa using hc
          rw [hcurrent]
          exact hs.marking c _ (.inl hold) hon
      | _ => rcases hc with hc | hc <;> simp_all [Pc.Away]
    · obtain ⟨hpc, hcurrent, -⟩ := hstep.others hce
      rw [hpc] at hc
      rw [hcurrent]
      exact hs.marking c w hc hon
  · intro c t hc ht
    refine hfresh t ht ?_
    by_cases hce : c = e
    · subst hce
      have haway : ¬ (s'.pc c).Away := by
        intro hp
        rw [hp.wakes] at hc
        cases hc
      cases hqueueing with
      | stay hpc => exact hs.waking c t (hpc ▸ hc) ht
      | pop _ hmem _ hpc =>
          rw [hpc] at hc
          cases hc
          exact hs.queue t ht hmem
      | clear hold hpc =>
          rw [hpc] at hc
          cases hc
          exact hs.waking c t (by rw [hold]; rfl) ht
      | _ => simp_all [Pc.wakes]
    · rw [(hstep.others hce).1] at hc
      exact hs.waking c t hc ht
  · exact hb

/-- The modes that go on until the queue is empty. -/
def Mode.isAll : Mode → Bool
  | .all => true
  | .exit _ => true
  | _ => false

/-- Where a CPU stands in `notify_all` on `q` before it finds the queue empty. -/
def Pc.Loop (q : QueueId) (m : Mode) : Pc → Prop
  | .notifyLock r n => r = q ∧ n = m
  | .notifyPop r n => r = q ∧ n = m
  | .clearInWaitQueue r n _ => r = q ∧ n = m
  | .wakeCas b _ => b = .queue q m
  | .wakeSpin b _ => b = .queue q m
  | .wakePut b _ => b = .queue q m
  | .notifyUnlock r n found => r = q ∧ n = m ∧ found = true
  | _ => False

theorem loop_done {b : Caller} (hb : b = .queue q m) : b.done.Loop q m := by
  subst hb
  exact ⟨rfl, rfl, rfl⟩

/-- `notify_all` goes on until it finds the queue empty. -/
theorem Step.loop (hstep : Step kind s a s') (hm : m.isAll = true) (hloop : (s.pc a.1).Loop q m) :
    ((s'.pc a.1).Loop q m ∧ a.2 ≠ .notified q m false) ∨
      s.pc a.1 = .notifyPop q m ∧ s.queue q = [] ∧ a.2 = .popped q none := by
  have hgo : ∀ (r : State) (c : Cpu) (p : Pc), (r.go c p).pc c = p := by simp
  cases hstep with
  | @notifyLock c r n hpc _ =>
      rw [hpc] at hloop
      exact .inl ⟨by rw [hgo]; exact hloop, by simp⟩
  | @notifyPop c r n u l hpc _ _ =>
      rw [hpc] at hloop
      exact .inl ⟨by rw [hgo]; exact hloop, by simp⟩
  | @notifyRemove c r u hpc _ =>
      rw [hpc] at hloop
      exact .inl ⟨by rw [hgo]; exact hloop, by simp⟩
  | @notifyMissing c r u hpc _ =>
      rw [hpc] at hloop
      obtain ⟨-, rfl⟩ := hloop
      cases hm
  | @notifyEmpty c r n hpc _ hempty =>
      rw [hpc] at hloop
      obtain ⟨rfl, rfl⟩ := hloop
      exact .inr ⟨hpc, hempty, rfl⟩
  | @clearInWaitQueue c r n u hpc =>
      rw [hpc] at hloop
      obtain ⟨rfl, rfl⟩ := hloop
      exact .inl ⟨by rw [hgo]; rfl, by simp⟩
  | @notifyUnlock c r n found hpc =>
      rw [hpc] at hloop
      obtain ⟨rfl, rfl, rfl⟩ := hloop
      refine .inl ⟨?_, by simp⟩
      rw [hgo]
      cases n with
      | one => cases hm
      | task => cases hm
      | all => exact ⟨rfl, rfl⟩
      | exit e => exact ⟨rfl, rfl⟩
  | wakeCas hpc _ =>
      rw [hpc] at hloop
      refine .inl ⟨?_, by simp⟩
      rw [hgo]
      split
      · exact loop_done hloop
      · exact hloop
  | wakeCasFail hpc _ =>
      rw [hpc] at hloop
      exact .inl ⟨by rw [hgo]; exact loop_done hloop, by simp⟩
  | wakeSpin hpc _ =>
      rw [hpc] at hloop
      exact .inl ⟨by rw [hgo]; exact hloop, by simp⟩
  | wakePut hpc _ =>
      rw [hpc] at hloop
      exact .inl ⟨by rw [hgo]; exact loop_done hloop, by simp⟩
  | _ => simp_all [Pc.Loop]

/-- The condition stays true once it is true. -/
def Stays (kind : Task → Kind) (b : Cond) (_ : History) (s : State) (a : Cpu × Event) : Prop :=
  s.holds b = true → ∀ s', Step kind s a s' → s'.holds b = true

/-- No task of `R` that is a coroutine takes the lock of `q` to wait for `b` after CPU
`d` has found the queue empty. -/
def LocksBefore (kind : Task → Kind) (R : Task → Prop) (d : Cpu) (q : QueueId) (b : Cond)
    (h : History) (s : State) (a : Cpu × Event) : Prop :=
  (d, .popped q none) ∈ h → ∀ w, s.pc a.1 = .waitLock w → w.On q b →
    (kind (s.current a.1)).isCoroutine = true → ¬ R (s.current a.1)

/-- While `notify_all` runs, or after it has found the queue empty. -/
theorem notify_all_clears {G : History → State → Cpu × Event → Prop}
    (hrun : (machine kind).RunOf G h₀ s₀) (hcall : s₀.pc d = .notifyLock q m)
    (hm : m.isAll = true) (hb : s₀.holds b = true)
    (hnext : ((machine kind).after s₀).RunOf (fun h s a => G (h ++ h₀) s a ∧
      Unrequeued q h s a ∧ Stays kind b h s a ∧ LocksBefore kind R d q b h s a) h s) :
    s.holds b = true ∧ ((s.pc d).Loop q m ∧ (d, .notified q m false) ∉ h ∨
      (d, .popped q none) ∈ h ∧ Cleared R q b (h ++ h₀) s) := by
  refine hnext.invariant (I := fun h s => s.holds b = true ∧
    ((s.pc d).Loop q m ∧ (d, .notified q m false) ∉ h ∨
      (d, .popped q none) ∈ h ∧ Cleared R q b (h ++ h₀) s)) ?_ ?_
  · rintro s rfl
    exact ⟨hb, .inl ⟨by rw [hcall]; exact ⟨rfl, rfl⟩, by simp⟩⟩
  · rintro h s a s' hnext ⟨hs, hphase⟩ ⟨hg, hkept, hstays, hbefore⟩ hstep
    have hb' : s'.holds b = true := hstays hs s' hstep
    refine ⟨hb', ?_⟩
    have hwhole : (machine kind).RunOf G (h ++ h₀) s :=
      hrun.append (hnext.mono fun _ _ _ hg => hg.1)
    rcases hphase with ⟨hloop, hnot⟩ | ⟨hpopped, hcleared⟩
    · by_cases hda : d = a.1
      · subst hda
        rcases Step.loop hstep hm hloop with ⟨hloop', hev⟩ | ⟨hpc, hempty, hev⟩
        · refine .inl ⟨hloop', ?_⟩
          intro hmem
          rcases List.mem_cons.mp hmem with heq | hmem
          · exact hev (by rw [← heq])
          · exact hnot hmem
        · have hcleared : Cleared R q b (h ++ h₀) s :=
            .of_empty (locked_run hwhole) hpc hempty hs
          refine .inr ⟨?_, hcleared.step (checks_run hwhole) hstep hkept hb' ?_⟩
          · exact List.mem_cons.mpr (.inl (by rw [← hev]))
          · intro w hw
            rw [hpc] at hw
            cases hw
      · refine .inl ⟨by rw [(Step.others hstep hda).1]; exact hloop, ?_⟩
        intro hmem
        rcases List.mem_cons.mp hmem with heq | hmem
        · exact hda (by rw [← heq])
        · exact hnot hmem
    · exact .inr ⟨List.mem_cons_of_mem a hpopped,
        hcleared.step (checks_run hwhole) hstep hkept hb' (hbefore hpopped)⟩

theorem Cleared.not_blocked {P : Task → Prop} (hs : Cleared R q b h s) (hwaiting : Waiting P q h s)
    (hR : R t) (hP : P t) (hblocked : s.state t = .blocked) : ¬ WaitsFor h t q b := by
  rintro ⟨w, hw, hon⟩
  obtain ⟨rfl, hcond⟩ := hon
  have hwaits : WaitsFor h t w.queue b := ⟨w, hw, rfl, hcond⟩
  rcases hwaiting t w hP rfl hblocked hw with hmem | ⟨c, hc, rfl⟩ | ⟨c, hc⟩
  · exact hs.queue t hR hmem hwaits
  · exact hs.entering c w hc rfl hR hwaits
  · exact hs.waking c t hc hR hwaits

/-- No thread waits on `q` for `b`: none is in the queue and none is blocked because of
it; and none that calls `wait_until` comes to block. -/
structure NoneWaits (kind : Task → Kind) (h : History) (s : State) (q : QueueId) (b : Cond) :
    Prop where
  queue : ∀ t, (kind t).isCoroutine = false → t ∈ s.queue q → ¬ WaitsFor h t q b
  blocked : ∀ t, (kind t).isCoroutine = false → s.state t = .blocked → ¬ WaitsFor h t q b
  passes : ∀ c w, (kind (s.current c)).isCoroutine = false → w.On q b →
    s.pc c ≠ .setBlocked w ∧
    ∀ ev s', s.pc c = .evalLocked w b → Step kind s (c, ev) s' → s'.pc c = .waitUnlock w

theorem Cleared.noneWaits (hs : Cleared (fun t => (kind t).isCoroutine = false) q b h s)
    (hwaiting : Waiting (fun t => (kind t).isCoroutine = false) q h s) :
    NoneWaits kind h s q b := by
  constructor
  · exact hs.queue
  · intro t ht hblocked
    exact hs.not_blocked hwaiting ht ht hblocked
  · intro c w hc hon
    refine ⟨fun hpc => hs.marking c w (.inr hpc) hon hc, ?_⟩
    intro ev s' hpc hstep
    cases hstep <;> simp_all [hs.holds]

/-- A task of `P` that is about to store its exit code has exited. -/
def Exiting (P : Task → Prop) (s : State) : Prop :=
  ∀ c e, s.pc c = .storeExitCode e → P (s.current c) → s.state (s.current c) = .exited

theorem exiting_run {G : History → State → Cpu × Event → Prop} {P : Task → Prop}
    (hrun : (machine kind).RunOf G h s)
    (hkeep : ∀ h s a s' t, (machine kind).RunOf G h s → P t → Step kind s a s' →
      s.state t = .exited → s'.state t = .exited) : Exiting P s := by
  refine hrun.invariant (I := fun _ s => Exiting P s) ?_ ?_
  · rintro s rfl c e hc
    cases hc
  · rintro h s ⟨d, ev⟩ s' hrun hs _ hstep c e hc ht
    have hsame : s.pc c = .storeExitCode e → s'.current c = s.current c →
        s'.state (s'.current c) = .exited := by
      intro hold hcurrent
      rw [hcurrent] at ht ⊢
      exact hkeep h s _ s' _ hrun ht hstep (hs c e hold ht)
    by_cases hcd : c = d
    · subst hcd
      have hqueueing : Queueing kind s c s' ev := Step.queueing hstep
      cases hqueueing with
      | stay hpc hcurrent => exact hsame (hpc ▸ hc) hcurrent
      | exit _ _ hcurrent hdead =>
          rw [hcurrent]
          exact hdead
      | _ => simp_all [Pc.Away]
    · obtain ⟨hpc, hcurrent, -⟩ := Step.others hstep hcd
      exact hsame (hpc ▸ hc) hcurrent

theorem Step.at_stored {e : ℤ} (hstep : Step kind s a s') (hev : a.2 = .stored t e) :
    s.pc a.1 = .storeExitCode e ∧ s.current a.1 = t ∧
      s'.pc a.1 = .notifyLock (.exit t) (.exit e) := by
  cases hstep <;> cases hev
  exact ⟨‹_›, rfl, by simp⟩

theorem stays_thread {G : History → State → Cpu × Event → Prop} {g : History}
    (hrun : (machine kind).RunOf G h s) (ht : (kind t).isCoroutine = false) :
    Stays kind (.exited t) g s a := by
  intro hdead s' hstep
  have hdead : s.state t = .exited := by simpa [State.holds] using hdead
  simpa [State.holds] using exited_thread hrun ht hstep hdead

/-- Once a `notify_all` that began when `b` held has returned, no thread waits on `q`
for `b`; once an exiting thread has notified its joiners, none of them waits. -/
theorem no_lost_wakeup :
    (∀ h₀ s₀ h s d q m b, (machine kind).RunOf (Unrequeued q) h₀ s₀ →
      s₀.pc d = .notifyLock q m → m.isAll = true → s₀.holds b = true →
      ((machine kind).after s₀).RunOf
        (fun h s a => Unrequeued q h s a ∧ Stays kind b h s a) h s →
      (d, .notified q m false) ∈ h → NoneWaits kind (h ++ h₀) s q b) ∧
    ∀ h₁ h₂ s d t e, (kind t).isCoroutine = false →
      (machine kind).RunOf (Unrequeued (.exit t)) (h₂ ++ (d, .stored t e) :: h₁) s →
      (d, .notified (.exit t) (.exit e) false) ∈ h₂ →
      NoneWaits kind (h₂ ++ (d, .stored t e) :: h₁) s (.exit t) (.exited t) := by
  have hgeneral : ∀ h₀ s₀ h s d q m b, (machine kind).RunOf (Unrequeued q) h₀ s₀ →
      s₀.pc d = .notifyLock q m → m.isAll = true → s₀.holds b = true →
      ((machine kind).after s₀).RunOf
        (fun h s a => Unrequeued q h s a ∧ Stays kind b h s a) h s →
      (d, .notified q m false) ∈ h → NoneWaits kind (h ++ h₀) s q b := by
    intro h₀ s₀ h s d q m b hrun hcall hm hb hnext hdone
    have hphase := (notify_all_clears (G := Unrequeued q)
      (R := fun t => (kind t).isCoroutine = false) hrun hcall hm hb
      (hnext.mono fun h s a hg => ⟨hg.1, hg.1, hg.2, fun _ w _ _ hk ht => by simp [hk] at ht⟩)).2
    rcases hphase with ⟨-, hnot⟩ | ⟨-, hcleared⟩
    · exact absurd hdone hnot
    · have hwhole : (machine kind).RunOf (Unrequeued q) (h ++ h₀) s :=
        hrun.append (hnext.mono fun _ _ _ hg => hg.1)
      exact hcleared.noneWaits (waiting_run hwhole (fun _ _ _ hg => hg) fun _ _ => placed_threads)
  refine ⟨hgeneral, ?_⟩
  intro h₁ h₂ s d t e ht hrun hdone
  obtain ⟨s₁, s₂, hfirst, hstep, hrest⟩ := hrun.split
  obtain ⟨hpc, hcurrent, hcall⟩ := Step.at_stored hstep rfl
  have hdead : s₁.state t = .exited := by
    have h := exiting_run (P := fun t => (kind t).isCoroutine = false) hfirst
      (fun _ _ _ _ _ hrun ht => exited_thread hrun ht) d e hpc
    rw [show s₁.current d = t from hcurrent] at h
    exact h ht
  have hsecond : (machine kind).RunOf (Unrequeued (.exit t)) ((d, .stored t e) :: h₁) s₂ :=
    hfirst.next (by simp [Unrequeued, Event.requeues]) hstep
  refine hgeneral _ s₂ h₂ s d _ _ _ hsecond hcall rfl ?_ ?_ hdone
  · simpa [State.holds] using exited_thread hfirst ht hstep hdead
  · refine hrest.upgrade ?_
    intro h r a r' hbefore _ hkept _
    exact ⟨hkept, stays_thread (hsecond.append hbefore) ht⟩

theorem stays_flag {n : ℕ} {g : History} (ha : a.2 ≠ .setFlag n false) :
    Stays kind (.flag n) g s a := by
  intro hb s' hstep
  cases hstep with
  | @setFlag c k v hpc =>
      by_cases hk : n = k
      · subst hk
        cases v with
        | true => simp [State.holds]
        | false => exact absurd rfl ha
      · simpa [State.holds, hk] using hb
  | _ => exact hb

/-- `main` blocks in `wait_until` on CPU 0 and thread 3 makes the condition true. -/
def beforeNotify : List Choice :=
  bootTwo ++ .call 0 (.wait (.waitUntil (.user 0) (.flag 0))) :: goes 0 15 ++
    [.call 1 (.setFlag 0 true), .call 1 (.notify (.user 0) .all)]

/-- `main` joins thread 3, which then exits. -/
def joinExit : List Choice :=
  bootTwo ++ .call 0 (.wait (.join 3)) :: goes 0 15 ++ .call 1 (.exit 7) :: goes 1 13

theorem no_lost_wakeup_main :
    (∃ (h₀ : History) (s₀ : State) (h : History) (s : State), 0 ∈ s₀.queue (.user 0) ∧
      s.state 0 = .ready ∧
      NoneWaits twoCpus (h ++ h₀) s (.user 0) (.flag 0)) ∧
    ∃ (h : History) (s : State), s.state 0 = .ready ∧
      NoneWaits twoCpus h s (.exit 3) (.exited 3) := by
  let p := (playAll twoCpus (Unrequeued (.user 0)) beforeNotify).get (by decide)
  let q := (playFrom twoCpus (fun h s a => Unrequeued (.user 0) h s a ∧ a.2 ≠ .setFlag 0 false)
    p.2 (goes 1 10)).get (by decide)
  let r := (playAll twoCpus (Unrequeued (.exit 3)) joinExit).get (by decide)
  have hp : (machine twoCpus).RunOf (Unrequeued (.user 0)) p.1 p.2 :=
    playAll_run _ _ (Option.some_get _).symm
  have hq := playFrom_run twoCpus
    (fun h s a => Unrequeued (.user 0) h s a ∧ a.2 ≠ .setFlag 0 false) (r := q)
    (Option.some_get _).symm
  have hr : (machine twoCpus).RunOf (Unrequeued (.exit 3))
      (r.1.take 10 ++ (1, .stored 3 7) :: r.1.drop 11) r.2 := by
    rw [show r.1.take 10 ++ (1, .stored 3 7) :: r.1.drop 11 = r.1 by decide]
    exact playAll_run _ _ (Option.some_get _).symm
  constructor
  · exact ⟨p.1, p.2, q.1, q.2, by decide, by decide,
      no_lost_wakeup.1 p.1 p.2 q.1 q.2 1 (.user 0) .all (.flag 0) hp (by decide) (by decide)
        (by decide) (hq.mono fun _ _ _ ha => ⟨ha.1, stays_flag ha.2⟩) (by decide)⟩
  · exact ⟨_, r.2, by decide,
      no_lost_wakeup.2 _ _ _ 1 3 7 (by decide) hr (by decide)⟩

end Smp
