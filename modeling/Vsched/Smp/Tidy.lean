import Vsched.Smp.Local

/-!
# Runs that clear `on_cpu` only of tasks no CPU holds

Threads keep their places in every run. Coroutines are marked as blocked by the
CPU that has polled them, and a CPU may do so to a coroutine that another one is
running already, unless `on_cpu` is cleared only where nobody holds the task.
The runs that do so are tidy: every task is in one place and held by one CPU.
A run in which no CPU switches from a task to itself is tidy, because a resume
point then always finds in the slot the task its CPU has just left.
-/

namespace Smp

open Handoff (TaskState Placed Hold ClearOk Held)

variable {kind : Task → Kind} {G : History → State → Cpu × Event → Prop} {h : History}
  {s s' : State} {a : Cpu × Event} {c d : Cpu} {t : Task}

theorem coroutine_not_idle (ht : (kind t).isCoroutine = true) : (kind t).isIdle = false := by
  cases hk : kind t <;> simp [hk, Kind.isCoroutine, Kind.isIdle] at ht ⊢

theorem idle_not_coroutine (ht : (kind t).isIdle = true) : (kind t).isCoroutine = false := by
  cases hk : kind t <;> simp [hk, Kind.isCoroutine, Kind.isIdle] at ht ⊢

section Runs

variable (hrun : (machine kind).RunOf G h s)
include hrun

theorem own_run (d : Cpu) : (s.pc d).Own kind (s.current d) := by
  refine hrun.invariant (I := fun _ s => ∀ d, (s.pc d).Own kind (s.current d)) ?_ ?_ d
  · rintro s rfl d
    trivial
  · intro h s a s' _ hs _ hstep d
    exact Step.own hstep hs d

theorem locked_run : Locked s := by
  refine hrun.invariant (I := fun _ s => Locked s) ?_ ?_
  · rintro s rfl c q
    simp [State.init, Pc.queueLock]
  · intro h s a s' _ hs _ hstep
    exact Step.locked hstep hs

end Runs

theorem placed_init (P : Task → Prop) : Placed (isIdle kind) P (view State.init) := by
  constructor
  · rintro t p q - hp -
    cases p <;> simp [Handoff.At, view, State.init, Pc.role, Handoff.Role.waking] at hp
  · intro t c _
    simp [view, State.init]
  · rintro t p - hp
    cases p <;> simp [Handoff.At, view, State.init, Pc.role, Handoff.Role.waking] at hp
  · intro c p hc _
    exact absurd rfl hc
  · intro c hc
    exact absurd rfl hc
  · rintro t p - hp
    cases p <;> simp [Handoff.At, view, State.init, Pc.role, Handoff.Role.waking] at hp
  · intro t _ hblocked
    cases hblocked
  · intro c hc
    exact absurd rfl hc
  · intro c d hc
    exact absurd rfl hc

theorem hold_init : Hold (view State.init) := by
  have hnot : ∀ c t, ¬ Held (view State.init) c t := fun c t hc => hc.1 rfl
  constructor
  · intro c t hc
    exact absurd hc (hnot c t)
  · intro c d t hc
    exact absurd hc (hnot c t)
  · intro t p d _ _ hd
    exact absurd hd (hnot d t)
  · intro c b u d _
    exact hnot d u
  · intro c d hc
    exact absurd rfl hc
  · intro d t hd
    exact absurd hd (hnot d t)
  · intro t ht
    cases ht

theorem Step.at_suspended (hstep : Step kind s a s') (hev : a.2 = .suspended t) :
    s.pc a.1 = .schedBlocked t := by
  cases hstep <;> cases hev
  assumption

/-- A step of a machine whose coroutines are where they belong. -/
theorem Step.moves_own (hstep : Step kind s a s')
    (hown : ∀ d, (s.pc d).Own kind (s.current d)) : Moves kind s a.1 a.2 s' := by
  refine hstep.moves ?_
  intro t ht
  have ho := hown a.1
  rw [ht] at ho
  exact coroutine_not_idle ho

/-- No thread is marked as blocked after its poll. -/
theorem Step.thread_suspended (hstep : Step kind s a s')
    (hown : ∀ d, (s.pc d).Own kind (s.current d)) :
    ∀ u, a.2 = .suspended u → u ≠ s.current a.1 → ¬ (kind u).isCoroutine = false := by
  intro u hu _ hthread
  have ho := hown a.1
  rw [hstep.at_suspended hu] at ho
  rw [show (kind u).isCoroutine = true from ho] at hthread
  cases hthread

/-- Threads, and idle tasks among them, keep their places in every run. -/
theorem placed_threads (hrun : (machine kind).RunOf G h s) :
    Placed (isIdle kind) (fun t => (kind t).isCoroutine = false) (view s) := by
  refine hrun.invariant
    (I := fun _ s => Placed (isIdle kind) (fun t => (kind t).isCoroutine = false) (view s)) ?_ ?_
  · rintro s rfl
    exact placed_init _
  · intro h s a s' hrun hs _ hstep
    obtain ⟨m, hm, -, hreblock⟩ := Step.moves_own hstep (own_run hrun)
    refine hs.step (fun t ht => idle_not_coroutine ht) hm ?_
    intro u hu
    exact Step.thread_suspended hstep (own_run hrun) u (hreblock u hu).1 (hreblock u hu).2

/-- Only `exit` makes a task `Exited`. -/
theorem Step.exits (hstep : Step kind s a s') (hdead : s'.state t = .exited) :
    s.state t = .exited ∨
      ∃ e, a.2 = .exited t e ∧ s.pc a.1 = .setExited e ∧ s.current a.1 = t := by
  have hset : ∀ (f : Task → TaskState) (u : Task) (st : TaskState), st ≠ .exited →
      Function.update f u st t = .exited → f t = .exited := by
    intro f u st hst hupd
    by_cases htu : t = u
    · rw [htu, Function.update_self] at hupd
      exact absurd hupd hst
    · rwa [Function.update_of_ne htu] at hupd
  cases hstep with
  | initVsched => exact .inl (hset _ _ _ (by simp) (hset _ _ _ (by simp) hdead))
  | initVschedSecondary => exact .inl (hset _ _ _ (by simp) (hset _ _ _ (by simp) hdead))
  | spawn => exact .inl (hset _ _ _ (by simp) hdead)
  | yieldCas => exact .inl (hset _ _ _ (by simp) hdead)
  | setRunningSame => exact .inl (hset _ _ _ (by simp) hdead)
  | setRunning => exact .inl (hset _ _ _ (by simp) hdead)
  | schedBlocked => exact .inl (hset _ _ _ (by simp) hdead)
  | setBlocked => exact .inl (hset _ _ _ (by simp) hdead)
  | wakeCas => exact .inl (hset _ _ _ (by simp) hdead)
  | @setExited c e hpc _ _ =>
      by_cases htc : t = s.current c
      · exact .inr ⟨e, by rw [htc], hpc, htc.symm⟩
      · left
        simpa [htc] using hdead
  | _ => exact .inl hdead

/-- The tasks of `P` that have exited exist and stay as they are. -/
def Dead (P : Task → Prop) (s : State) : Prop :=
  ∀ t, P t → s.state t = .exited → s.created t = true

theorem Step.dead {P : Task → Prop} (hstep : Step kind s a s')
    (hown : ∀ d, (s.pc d).Own kind (s.current d)) (hplaced : Placed (isIdle kind) P (view s))
    (hs : Dead P s) (hsuspend : ∀ u, a.2 = .suspended u → u ≠ s.current a.1 → ¬ P u) :
    Dead P s' ∧ ∀ t, P t → s.state t = .exited → s'.state t = .exited := by
  obtain ⟨m, hm, -, hreblock⟩ := hstep.moves_own hown
  have hkeep : ∀ t, P t → s.state t = .exited → s'.state t = .exited ∧ s'.created t = true := by
    intro t ht hdead
    refine hplaced.dead ht hm ?_ hdead (hs t ht hdead)
    rintro u hu rfl
    exact hsuspend u (hreblock u hu).1 (hreblock u hu).2 ht
  refine ⟨?_, fun t ht hdead => (hkeep t ht hdead).1⟩
  intro t ht hdead
  rcases hstep.exits hdead with hold | ⟨e, hev, hpc, rfl⟩
  · exact (hkeep t ht hold).2
  · have hseat : Handoff.At (view s) (s.current a.1) (.seat a.1) := ⟨⟨_, view_role hpc⟩, rfl⟩
    have hmade : s.created (s.current a.1) = true := hplaced.made _ _ ht hseat
    cases hstep <;> cases hev
    exact hmade

/-- No CPU runs `t` or is about to, and none but `c` has it in its slot. -/
def Unheld (s : State) (c : Cpu) (t : Task) : Prop :=
  ∀ d, s.pc d ≠ .off →
    s.current d ≠ t ∧ (∀ v, s.pc d ≠ .replace v t) ∧ (d ≠ c → s.prev d ≠ some t)

/-- `take_prev_task_and_clear_on_cpu` clears the flag of a task that no CPU holds. -/
def ClearsUnheld (_ : History) (s : State) (a : Cpu × Event) : Prop :=
  ∀ t, a.2 = .taken (some t) → Unheld s a.1 t

theorem role_off {p : Pc} : p.role = .off ↔ p = .off := by
  cases p <;> simp [Pc.role]

theorem role_claimed {p : Pc} : p.role = .claimed t ↔ ∃ v, p = .replace v t := by
  cases p <;> simp [Pc.role]

theorem clearOk_of_unheld {x : Option Task} (hx : ∀ t, x = some t → Unheld s c t) :
    ClearOk (view s) c x := by
  intro t ht d hd
  obtain ⟨hcurrent, hreplace, hprev⟩ := hx t ht d (fun hoff => hd (role_off.mpr hoff))
  refine ⟨hcurrent, ?_, hprev⟩
  intro hclaimed
  obtain ⟨v, hv⟩ := role_claimed.mp hclaimed
  exact hreplace v hv

/-- Where a poll has just returned: the coroutine still runs, or it is in the slot. -/
def Pc.Polled (t : Task) (x : Option Task) : Pc → Prop
  | .afterPoll u => u = t ∨ x = some u ∧ u ≠ t
  | .schedBlocked u => u = t
  | _ => True

/-- Every task is in one place and held by one CPU. -/
structure Tidy (kind : Task → Kind) (s : State) : Prop where
  placed : Placed (isIdle kind) (fun _ => True) (view s)
  hold : Hold (view s)
  polled : ∀ c, (s.pc c).Polled (s.current c) (s.prev c)

theorem Pc.Calm.polled {p : Pc} {x : Option Task} (hp : p.Calm) : p.Polled t x := by
  cases p <;> trivial

theorem polled_stay (v : Via) (u : Task) (x : Option Task) : (v.stay u).Polled t x := by
  rcases v with k | k | -
  · cases k <;> trivial
  · cases k with
    | exiting => trivial
    | user => exact (plain_resumeCoroutine .user).calm.polled
    | blocked w => exact (plain_resumeCoroutine (.blocked w)).calm.polled
  · trivial

/-- A task that its CPU has left is not `Running` before the slot is emptied. -/
theorem running_here (hhold : Hold (view s)) (hprev : s.prev c = some t)
    (hrole : (view s).role c = .work true .none) (hrun : s.state t = .running) :
    t = s.current c := by
  have hheld : Held (view s) c t := ⟨by simp [hrole], .inr (.inl hprev)⟩
  obtain ⟨e, he | he⟩ := hhold.seated t (hhold.made c t hheld) hrun
  · have hce : c = e := hhold.near t (.seat e) c he (by simp) hheld
    subst hce
    exact he.2.symm
  · have hce : c = e := hhold.near t (.started e) c he (by simp) hheld
    subst hce
    exact absurd he (Handoff.not_started_of_work hrole)

theorem Turn.polled {ev : Event} (hturn : Turn kind s c s' ev) (hhold : Hold (view s))
    (hown : (s.pc c).Own kind (s.current c))
    (hpolled : (s.pc c).Polled (s.current c) (s.prev c)) :
    (s'.pc c).Polled (s'.current c) (s'.prev c) := by
  cases hturn with
  | stay hpc hcurrent hprev =>
      rw [hpc, hcurrent, hprev]
      exact hpolled
  | calm hcalm => exact hcalm.polled
  | pending hpc _ hcurrent =>
      rw [hpc, hcurrent]
      exact .inl rfl
  | same _ hpc =>
      rw [hpc]
      exact polled_stay _ _ _
  | @switch v n hold hpc hcurrent hprev =>
      rw [hold] at hown
      rw [hpc, hcurrent, hprev]
      cases v with
      | future k => exact .inr ⟨rfl, hown.2.symm⟩
      | _ => trivial
  | suspend hold hstate hpc hcurrent =>
      rw [hold] at hpolled
      rw [hpc, hcurrent]
      rcases hpolled with hpolled | ⟨hprev, -⟩
      · exact hpolled
      · exact running_here hhold hprev (view_role hold) hstate
  | resume _ hpc =>
      rcases hpc with ⟨k, hpc⟩ | hpc <;> rw [hpc] <;> trivial
  | boot _ _ hpc =>
      rw [hpc]
      trivial
  | resched hpc =>
      rw [hpc]
      trivial
  | choose _ hpc =>
      rw [hpc]
      trivial
  | assert _ hpc =>
      rw [hpc]
      trivial
  | start _ _ hpc =>
      rw [hpc]
      trivial
  | claim _ hpc =>
      rw [hpc]
      trivial
  | take _ _ hpc =>
      rw [hpc]
      trivial
  | suspended _ hpc =>
      rw [hpc]
      trivial
  | left _ _ hpc =>
      rw [hpc]
      trivial

theorem Tidy.polled_step (hs : Tidy kind s) (hown : ∀ d, (s.pc d).Own kind (s.current d))
    (hstep : Step kind s a s') (d : Cpu) :
    (s'.pc d).Polled (s'.current d) (s'.prev d) := by
  by_cases hd : d = a.1
  · subst hd
    exact hstep.turn.polled hs.hold (hown _) (hs.polled _)
  · obtain ⟨hpc, hcurrent, hprev, -⟩ := hstep.others hd
    rw [hpc, hcurrent, hprev]
    exact hs.polled d

theorem Tidy.step (hs : Tidy kind s) (hown : ∀ d, (s.pc d).Own kind (s.current d))
    (hstep : Step kind s a s') (hclear : ClearsUnheld h s a) : Tidy kind s' := by
  obtain ⟨m, hm, htaken, hreblock⟩ := hstep.moves_own hown
  have hnot : ∀ u, m ≠ .reblock u := by
    intro u hu
    obtain ⟨hev, hne⟩ := hreblock u hu
    have hpolled := hs.polled a.1
    rw [hstep.at_suspended hev] at hpolled
    exact hne hpolled
  constructor
  · exact hs.placed.step (fun _ _ => trivial) hm (fun u hu => absurd hu (hnot u))
  · refine hs.hold.step hs.placed hm ?_ hnot
    intro x hx
    refine clearOk_of_unheld fun t ht => hclear t ?_
    rw [htaken x hx, ht]
  · exact hs.polled_step hown hstep

theorem tidy_run (hrun : (machine kind).RunOf ClearsUnheld h s) : Tidy kind s := by
  refine hrun.invariant (I := fun _ s => Tidy kind s) ?_ ?_
  · rintro s rfl
    exact ⟨placed_init _, hold_init, fun _ => trivial⟩
  · intro h s a s' hrun hs hclear hstep
    exact hs.step (own_run hrun) hstep hclear

theorem Tidy.not_suspended (hs : Tidy kind s) (hstep : Step kind s a s') :
    ∀ u, a.2 = .suspended u → u ≠ s.current a.1 → ¬ True := by
  intro u hu hne
  have hpolled := hs.polled a.1
  rw [hstep.at_suspended hu] at hpolled
  exact absurd hpolled hne

theorem dead_init (P : Task → Prop) : Dead P State.init := by
  intro t _ hdead
  cases hdead

theorem dead_threads (hrun : (machine kind).RunOf G h s) :
    Dead (fun t => (kind t).isCoroutine = false) s := by
  refine hrun.invariant (I := fun _ s => Dead (fun t => (kind t).isCoroutine = false) s) ?_ ?_
  · rintro s rfl
    exact dead_init _
  · intro h s a s' hrun hs _ hstep
    exact (Step.dead hstep (own_run hrun) (placed_threads hrun) hs
      (Step.thread_suspended hstep (own_run hrun))).1

theorem dead_tidy (hrun : (machine kind).RunOf ClearsUnheld h s) : Dead (fun _ => True) s := by
  refine hrun.invariant (I := fun _ s => Dead (fun _ => True) s) ?_ ?_
  · rintro s rfl
    exact dead_init _
  · intro h s a s' hrun hs _ hstep
    exact (Step.dead hstep (own_run hrun) (tidy_run hrun).placed hs
      ((tidy_run hrun).not_suspended hstep)).1

/-- A thread that has exited stays so. -/
theorem exited_thread (hrun : (machine kind).RunOf G h s) (ht : (kind t).isCoroutine = false)
    (hstep : Step kind s a s') (hdead : s.state t = .exited) : s'.state t = .exited :=
  (hstep.dead (own_run hrun) (placed_threads hrun) (dead_threads hrun)
    (hstep.thread_suspended (own_run hrun))).2 t ht hdead

/-- In a tidy run every task that has exited stays so. -/
theorem exited_tidy (hrun : (machine kind).RunOf ClearsUnheld h s) (hstep : Step kind s a s')
    (hdead : s.state t = .exited) : s'.state t = .exited :=
  (hstep.dead (own_run hrun) (tidy_run hrun).placed (dead_tidy hrun)
    ((tidy_run hrun).not_suspended hstep)).2 t trivial hdead

/-- No thread and no poll loop switches from its task to the same task. -/
def Event.movesOn : Event → Bool
  | .same (.future _) => true
  | .same _ => false
  | _ => true

def MovesOn (_ : History) (_ : State) (a : Cpu × Event) : Prop :=
  a.2.movesOn = true

instance : ∀ h s a, Decidable (MovesOn h s a) :=
  fun _ _ a => inferInstanceAs (Decidable (a.2.movesOn = true))

/-- The slot holds the task that the CPU has just left, until it is taken. -/
def Pc.Filled (t : Task) (x : Option Task) : Pc → Prop
  | .switchTo _ _ => ∃ u, x = some u ∧ u ≠ t
  | .take _ => ∃ u, x = some u ∧ u ≠ t
  | .leave _ => ∃ u, x = some u ∧ u ≠ t
  | .checkPrev _ y => x = none ∧ y ≠ some t
  | _ => True

theorem Pc.Calm.filled {p : Pc} {x : Option Task} (hp : p.Calm) : p.Filled t x := by
  cases p <;> trivial

theorem filled_stay {v : Via} (hv : (Event.same v).movesOn = true) (u : Task)
    (x : Option Task) : (v.stay u).Filled t x := by
  cases v with
  | thread k => cases hv
  | schedule => cases hv
  | future k =>
      cases k with
      | exiting => trivial
      | user => exact (plain_resumeCoroutine .user).calm.filled
      | blocked w => exact (plain_resumeCoroutine (.blocked w)).calm.filled

theorem Turn.filled {ev : Event} (hturn : Turn kind s c s' ev) (htidy : Tidy kind s)
    (hown : (s.pc c).Own kind (s.current c)) (hev : ev.movesOn = true)
    (hfilled : (s.pc c).Filled (s.current c) (s.prev c)) :
    (s'.pc c).Filled (s'.current c) (s'.prev c) := by
  cases hturn with
  | stay hpc hcurrent hprev =>
      rw [hpc, hcurrent, hprev]
      exact hfilled
  | calm hcalm => exact hcalm.filled
  | same _ hpc =>
      rw [hpc]
      exact filled_stay hev _ _
  | @switch v n hold hpc hcurrent hprev =>
      rw [hold] at hown
      have hne : s.current c ≠ n := hown.2.symm
      rw [hpc, hcurrent, hprev]
      cases v with
      | future k => trivial
      | _ => exact ⟨_, rfl, hne⟩
  | resume hold hpc hcurrent hprev =>
      have hx : ∃ u, s.prev c = some u ∧ u ≠ s.current c := by
        rcases hold with ⟨old, k, hold⟩ | ⟨t, hold⟩ <;> rwa [hold] at hfilled
      rw [hcurrent, hprev]
      rcases hpc with ⟨k, hpc⟩ | hpc <;> rw [hpc]
      · exact hx
      · trivial
  | @left _ t hold hstate hpc hcurrent hprev =>
      -- a coroutine that has its seat is `Running`, so it has left the CPU
      have hpolled := htidy.polled c
      rw [hold] at hpolled
      rw [hpc, hcurrent, hprev]
      rcases hpolled with rfl | hpolled
      · have hseat : Handoff.At (view s) (s.current c) (.seat c) :=
          ⟨⟨_, view_role hold⟩, rfl⟩
        exact absurd (htidy.placed.fits _ _ trivial hseat) hstate
      · exact ⟨t, hpolled⟩
  | pending hpc =>
      rw [hpc]
      trivial
  | boot _ _ hpc =>
      rw [hpc]
      trivial
  | resched hpc =>
      rw [hpc]
      trivial
  | choose _ hpc =>
      rw [hpc]
      trivial
  | assert _ hpc =>
      rw [hpc]
      trivial
  | start _ _ hpc =>
      rw [hpc]
      trivial
  | claim _ hpc =>
      rw [hpc]
      trivial
  | @take k y hold hy hpc hcurrent hprev =>
      rw [hold] at hfilled
      obtain ⟨u, hu, hne⟩ := hfilled
      rw [hpc, hcurrent, hprev, hy u hu]
      exact ⟨rfl, by simpa using hne⟩
  | suspend _ _ hpc =>
      rw [hpc]
      trivial
  | suspended _ hpc =>
      rw [hpc]
      trivial

/-- The slots of a state in which every resume point finds what it should. -/
def Filled (s : State) : Prop :=
  ∀ c, (s.pc c).Filled (s.current c) (s.prev c)

theorem Tidy.filled_step (hs : Tidy kind s) (hown : ∀ d, (s.pc d).Own kind (s.current d))
    (hfilled : Filled s) (hev : a.2.movesOn = true) (hstep : Step kind s a s') :
    Filled s' := by
  intro d
  by_cases hd : d = a.1
  · subst hd
    exact hstep.turn.filled hs (hown _) hev (hfilled _)
  · obtain ⟨hpc, hcurrent, hprev, -⟩ := hstep.others hd
    rw [hpc, hcurrent, hprev]
    exact hfilled d

theorem Turn.at_taken {x : Option Task} (hturn : Turn kind s c s' (.taken x)) :
    ∃ k, s.pc c = .take k ∧ ∀ t, s.prev c = some t → x = some t := by
  cases hturn with
  | stay _ _ _ hev => cases hev
  | calm _ _ _ hev => cases hev
  | pending _ _ _ _ hev => cases hev
  | resched _ _ _ _ hev => cases hev
  | choose _ _ _ _ hev => cases hev
  | assert _ _ _ _ hev => cases hev
  | start _ _ _ _ _ hev => cases hev
  | claim _ _ _ _ hev => cases hev
  | resume _ _ _ _ hev => cases hev
  | take hpc hx => exact ⟨_, hpc, hx⟩
  | suspend _ _ _ _ _ hev => cases hev
  | left _ _ _ _ _ hev => cases hev

/-- What a resume point finds in a filled slot is held by no other CPU. -/
theorem Tidy.clears (hs : Tidy kind s) (hfilled : Filled s) (hstep : Step kind s a s') :
    ClearsUnheld h s a := by
  intro t ht d hd
  obtain ⟨k, hpc, hx⟩ := Turn.at_taken (ht ▸ hstep.turn)
  have hslot := hfilled a.1
  rw [hpc] at hslot
  obtain ⟨u, hu, hne⟩ := hslot
  cases hx u hu
  have hheld : Held (view s) a.1 t := ⟨by simp [view, hpc, Pc.role], .inr (.inl hu)⟩
  have hd' : (view s).role d ≠ .off := fun hoff => hd (role_off.mp hoff)
  have hone : ∀ e, Held (view s) e t → e = a.1 := fun e he => hs.hold.one e a.1 t he hheld
  refine ⟨?_, ?_, ?_⟩
  · intro hcurrent
    obtain rfl := hone d ⟨hd', .inl hcurrent⟩
    exact hne hcurrent.symm
  · intro v hv
    obtain rfl := hone d ⟨hd', .inr (.inr (role_claimed.mpr ⟨v, hv⟩))⟩
    rw [hpc] at hv
    cases hv
  · intro hda hprev
    exact hda (hone d ⟨hd', .inr (.inl hprev)⟩)

theorem filled_run (hrun : (machine kind).RunOf MovesOn h s) : Tidy kind s ∧ Filled s := by
  refine hrun.invariant (I := fun _ s => Tidy kind s ∧ Filled s) ?_ ?_
  · rintro s rfl
    exact ⟨⟨placed_init _, hold_init, fun _ => trivial⟩, fun _ => trivial⟩
  · rintro h s a s' hrun ⟨hs, hfilled⟩ hev hstep
    exact ⟨hs.step (h := h) (own_run hrun) hstep (hs.clears hfilled hstep),
      hs.filled_step (own_run hrun) hfilled hev hstep⟩

/-- A run without self-switches clears flags of tasks only that no CPU holds. -/
theorem clears_run (hrun : (machine kind).RunOf MovesOn h s) :
    (machine kind).RunOf ClearsUnheld h s := by
  refine hrun.upgrade ?_
  intro h s a s' hrun _ _ hstep
  obtain ⟨hs, hfilled⟩ := filled_run hrun
  exact hs.clears hfilled hstep

end Smp
