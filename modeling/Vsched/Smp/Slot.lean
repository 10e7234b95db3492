import Vsched.Smp.Play
import Vsched.Smp.Tidy

/-!
# The slot of the previous task

Which task a resume point takes out of `prev_task`, and how often an exited task
is released. A history tells which tasks a CPU has run and what has been written
to its slot since it was last taken.
-/

namespace Smp

open Handoff (Held)

variable {kind : Task → Kind} {h : History} {s s' : State} {a : Cpu × Event} {c d : Cpu}
  {t : Task}

/-- The tasks that CPU `c` has run, the latest first. -/
def ran : History → Cpu → List Task
  | [], _ => []
  | (d, .boot m _) :: h, c => if d = c then m :: ran h c else ran h c
  | (d, .switched _ n) :: h, c => if d = c then n :: ran h c else ran h c
  | _ :: h, c => ran h c

/-- What `init`, `switch_to` or `resched_f` has written to the slot of CPU `c`
since it was last taken. -/
def written : History → Cpu → Option Task
  | [], _ => none
  | (d, .boot m _) :: h, c => if d = c then some m else written h c
  | (d, .switched old _) :: h, c => if d = c then some old else written h c
  | (d, .taken _) :: h, c => if d = c then none else written h c
  | _ :: h, c => written h c

/-- How often `t` has been released. -/
def releases (h : History) (t : Task) : ℕ :=
  h.countP (·.2 = .released t)

theorem ran_cons_calm {ev : Event} (hev : ev.Calm) : ran ((d, ev) :: h) c = ran h c := by
  cases ev <;> first | rfl | cases hev

theorem written_cons_calm {ev : Event} (hev : ev.Calm) :
    written ((d, ev) :: h) c = written h c := by
  cases ev <;> first | rfl | cases hev

theorem ran_cons_other {ev : Event} (hd : c ≠ d) : ran ((d, ev) :: h) c = ran h c := by
  cases ev <;> simp [ran, hd.symm]

theorem written_cons_other {ev : Event} (hd : c ≠ d) :
    written ((d, ev) :: h) c = written h c := by
  cases ev <;> simp [written, hd.symm]

/-- The history tells what a CPU runs and what its slot holds. -/
structure Traced (h : History) (s : State) (c : Cpu) : Prop where
  slot : s.prev c = written h c
  current : s.pc c ≠ .off → ∃ l, ran h c = s.current c :: l
  last : ∀ u, s.prev c = some u → u ≠ s.current c → ∃ l, ran h c = s.current c :: u :: l

theorem Turn.traced {ev : Event} (hturn : Turn kind s c s' ev)
    (hon : (∀ m i, ev ≠ .boot m i) → s.pc c ≠ .off) (hs : Traced h s c) :
    Traced ((c, ev) :: h) s' c := by
  have hkeep : s'.current c = s.current c → s'.prev c = s.prev c →
      written ((c, ev) :: h) c = written h c → ran ((c, ev) :: h) c = ran h c →
      (∀ m i, ev ≠ .boot m i) → Traced ((c, ev) :: h) s' c := by
    intro hcurrent hprev hwritten hran hev
    refine ⟨?_, ?_, ?_⟩
    · rw [hprev, hwritten]
      exact hs.slot
    · intro _
      rw [hcurrent, hran]
      exact hs.current (hon hev)
    · rw [hcurrent, hprev, hran]
      exact hs.last
  have hcalm : s'.current c = s.current c → s'.prev c = s.prev c → ev.Calm →
      Traced ((c, ev) :: h) s' c := by
    intro hcurrent hprev hev
    refine hkeep hcurrent hprev (written_cons_calm hev) (ran_cons_calm hev) ?_
    rintro m i rfl
    cases hev
  cases hturn with
  | @boot m i _ _ _ hcurrent hprev =>
      refine ⟨?_, ?_, ?_⟩
      · simp [hprev, written]
      · intro _
        exact ⟨ran h c, by simp [hcurrent, ran]⟩
      · intro u hu hne
        rw [hprev] at hu
        cases hu
        exact absurd hcurrent.symm hne
  | @switch v n hpc _ hcurrent hprev =>
      obtain ⟨l, hl⟩ := hs.current (by simp [hpc])
      have hran : ran ((c, Event.switched (s.current c) n) :: h) c = n :: s.current c :: l := by
        simp [ran, hl]
      refine ⟨?_, ?_, ?_⟩
      · simp [hprev, written]
      · intro _
        exact ⟨_, by rw [hran, hcurrent]⟩
      · intro u hu _
        rw [hprev] at hu
        cases hu
        exact ⟨l, by rw [hran, hcurrent]⟩
  | take hpc _ _ hcurrent hprev =>
      refine ⟨?_, ?_, ?_⟩
      · simp [hprev, written]
      · intro _
        rw [hcurrent]
        exact hs.current (by simp [hpc])
      · intro u hu
        rw [hprev] at hu
        cases hu
  | same _ _ hcurrent hprev => exact hkeep hcurrent hprev rfl rfl (by simp)
  | suspended _ _ hcurrent hprev => exact hkeep hcurrent hprev rfl rfl (by simp)
  | stay _ hcurrent hprev hev => exact hcalm hcurrent hprev hev
  | calm _ hcurrent hprev hev => exact hcalm hcurrent hprev hev
  | pending _ _ hcurrent hprev hev => exact hcalm hcurrent hprev hev
  | resched _ _ hcurrent hprev hev => exact hcalm hcurrent hprev hev
  | choose _ _ hcurrent hprev hev => exact hcalm hcurrent hprev hev
  | assert _ _ hcurrent hprev hev => exact hcalm hcurrent hprev hev
  | start _ _ _ hcurrent hprev hev => exact hcalm hcurrent hprev hev
  | claim _ _ hcurrent hprev hev => exact hcalm hcurrent hprev hev
  | resume _ _ hcurrent hprev hev => exact hcalm hcurrent hprev hev
  | suspend _ _ _ hcurrent hprev hev => exact hcalm hcurrent hprev hev
  | left _ _ _ hcurrent hprev hev => exact hcalm hcurrent hprev hev

theorem traced_run {G : History → State → Cpu × Event → Prop}
    (hrun : (machine kind).RunOf G h s) (c : Cpu) : Traced h s c := by
  refine hrun.invariant (I := fun h s => Traced h s c) ?_ ?_
  · rintro s rfl
    refine ⟨rfl, fun hon => absurd rfl hon, ?_⟩
    intro u hu
    cases hu
  · rintro h s ⟨d, ev⟩ s' _ hs _ hstep
    by_cases hd : c = d
    · subst hd
      exact Turn.traced (Step.turn hstep) (Step.on hstep) hs
    · obtain ⟨hpc, hcurrent, hprev, -⟩ := Step.others hstep hd
      refine ⟨?_, ?_, ?_⟩
      · rw [hprev, written_cons_other hd]
        exact hs.slot
      · rw [hpc, hcurrent, ran_cons_other hd]
        exact hs.current
      · rw [hprev, hcurrent, ran_cons_other hd]
        exact hs.last

/-- The task that a CPU is about to run or has just taken. -/
def Pc.grasps : Pc → Option Task
  | .replace _ n => some n
  | .checkPrev _ x => x
  | _ => none

/-- CPU `c` has `t`, or what is left of it. -/
def Owes (s : State) (c : Cpu) (t : Task) : Prop :=
  s.pc c ≠ .off ∧ (s.current c = t ∨ s.prev c = some t) ∨ (s.pc c).grasps = some t

theorem Pc.Calm.grasps {p : Pc} (hp : p.Calm) : p.grasps = none := by
  cases p <;> first | rfl | cases hp

theorem grasps_stay (v : Via) (u : Task) : (v.stay u).grasps = none := by
  rcases v with k | k | -
  · cases k <;> rfl
  · cases k with
    | exiting => rfl
    | user => exact (plain_resumeCoroutine .user).calm.grasps
    | blocked w => exact (plain_resumeCoroutine (.blocked w)).calm.grasps
  · rfl

theorem owes_of_held (ht : Held (view s) c t) : Owes s c t := by
  obtain ⟨hon, ht | ht | ht⟩ := ht
  · exact .inl ⟨fun hoff => hon (role_off.mpr hoff), .inl ht⟩
  · exact .inl ⟨fun hoff => hon (role_off.mpr hoff), .inr ht⟩
  · obtain ⟨v, hv⟩ := role_claimed.mp ht
    exact .inr (by simp [hv, Pc.grasps])

/-- A CPU that owes a task holds it or has taken it. -/
theorem Owes.cases (ht : Owes s c t) :
    Held (view s) c t ∨ ∃ k, s.pc c = .checkPrev k (some t) := by
  rcases ht with ⟨hon, ht⟩ | ht
  · exact .inl ⟨fun hoff => hon (role_off.mp hoff), ht.imp id .inl⟩
  · cases hpc : s.pc c <;> simp only [hpc, Pc.grasps, reduceCtorEq, Option.some.injEq] at ht
    · subst ht
      exact .inl ⟨by simp [view, hpc, Pc.role], .inr (.inr (by simp [view, hpc, Pc.role]))⟩
    · subst ht
      exact .inr ⟨_, rfl⟩

/-- Nobody comes to owe a task that has exited already. -/
theorem Turn.owes {ev : Event} (hturn : Turn kind s c s' ev) (htidy : Tidy kind s)
    (hfilled : (s.pc c).Filled (s.current c) (s.prev c)) (hdead : s.state t = .exited)
    (hmade : s.created t = true) (hon : (∀ m i, ev ≠ .boot m i) → s.pc c ≠ .off)
    (ht : Owes s' c t) : Owes s c t := by
  have hkeep : s'.current c = s.current c → s'.prev c = s.prev c →
      (s'.pc c).grasps = none → (∀ m i, ev ≠ .boot m i) → Owes s c t := by
    intro hcurrent hprev hpc hev
    rcases ht with ⟨-, ht⟩ | ht
    · rw [hcurrent, hprev] at ht
      exact .inl ⟨hon hev, ht⟩
    · rw [hpc] at ht
      cases ht
  have hcalm : s'.current c = s.current c → s'.prev c = s.prev c →
      (s'.pc c).grasps = none → ev.Calm → Owes s c t := by
    intro hcurrent hprev hpc hev
    refine hkeep hcurrent hprev hpc ?_
    rintro m i rfl
    cases hev
  cases hturn with
  | @boot m i _ hm hpc hcurrent hprev =>
      have htm : m = t := by
        rcases ht with ⟨-, ht | ht⟩ | ht
        · rwa [hcurrent] at ht
        · rw [hprev] at ht
          exact Option.some.inj ht
        · rw [hpc] at ht
          cases ht
      rw [htm, hmade] at hm
      cases hm
  | stay hpc hcurrent hprev =>
      rwa [Owes, hpc, hcurrent, hprev] at ht
  | @claim _ v n hold hpc hcurrent hprev hev =>
      have hne : n ≠ t := by
        rintro rfl
        have hstarted : Handoff.At (view s) n (.started c) := .inl (view_role hold)
        have hrun : s.state n = .running := htidy.placed.fits _ _ trivial hstarted
        rw [hrun] at hdead
        cases hdead
      rcases ht with ⟨-, ht⟩ | ht
      · rw [hcurrent, hprev] at ht
        exact .inl ⟨by simp [hold], ht⟩
      · rw [hpc] at ht
        exact absurd (Option.some.inj ht) hne
  | @switch v n hold hpc hcurrent hprev =>
      rcases ht with ⟨-, ht | ht⟩ | ht
      · rw [hcurrent] at ht
        exact .inr (by simp [hold, Pc.grasps, ht])
      · rw [hprev] at ht
        exact .inl ⟨by simp [hold], .inl (Option.some.inj ht)⟩
      · rw [hpc] at ht
        cases v <;> cases ht
  | @take k x hold hx hpc hcurrent hprev =>
      rw [hold] at hfilled
      obtain ⟨u, hu, -⟩ := hfilled
      rcases ht with ⟨-, ht | ht⟩ | ht
      · rw [hcurrent] at ht
        exact .inl ⟨by simp [hold], .inl ht⟩
      · rw [hprev] at ht
        cases ht
      · rw [hpc, hx u hu] at ht
        exact .inl ⟨by simp [hold], .inr (hu.trans ht)⟩
  | calm hpc hcurrent hprev hev => exact hcalm hcurrent hprev hpc.grasps hev
  | resume _ hpc hcurrent hprev hev =>
      refine hcalm hcurrent hprev ?_ hev
      rcases hpc with ⟨k, hpc⟩ | hpc <;> rw [hpc] <;> rfl
  | same _ hpc hcurrent hprev =>
      exact hkeep hcurrent hprev (by rw [hpc, grasps_stay]) (by simp)
  | suspended _ hpc hcurrent hprev =>
      exact hkeep hcurrent hprev (by rw [hpc]; rfl) (by simp)
  | pending hpc _ hcurrent hprev hev => exact hcalm hcurrent hprev (by rw [hpc]; rfl) hev
  | resched hpc _ hcurrent hprev hev => exact hcalm hcurrent hprev (by rw [hpc]; rfl) hev
  | choose _ hpc hcurrent hprev hev => exact hcalm hcurrent hprev (by rw [hpc]; rfl) hev
  | assert _ hpc hcurrent hprev hev => exact hcalm hcurrent hprev (by rw [hpc]; rfl) hev
  | start _ _ hpc hcurrent hprev hev => exact hcalm hcurrent hprev (by rw [hpc]; rfl) hev
  | suspend _ _ hpc hcurrent hprev hev => exact hcalm hcurrent hprev (by rw [hpc]; rfl) hev
  | left _ _ hpc hcurrent hprev hev => exact hcalm hcurrent hprev (by rw [hpc]; rfl) hev

/-- What is released has exited, and its CPU owes it no longer. -/
theorem Step.releases (hstep : Step kind s a s') (hev : a.2 = .released t) :
    (∃ k, s.pc a.1 = .checkPrev k (some t)) ∧ s.state t = .exited ∧ (s'.pc a.1).Calm ∧
      s'.current a.1 = s.current a.1 ∧ s'.prev a.1 = s.prev a.1 := by
  cases hstep <;> cases hev
  exact ⟨⟨_, ‹_›⟩, ‹_›, by simpa using (plain_resume _).calm, rfl, rfl⟩

theorem Step.exited_pc {e : ℤ} (hstep : Step kind s a s') (hev : a.2 = .exited t e) :
    s.pc a.1 = .setExited e ∧ s'.pc a.1 = .storeExitCode e := by
  cases hstep <;> cases hev
  exact ⟨‹_›, by simp⟩

/-- Each exited task is owed by one CPU until it is released. -/
structure Debt (h : History) (s : State) : Prop where
  once : ∀ t, releases h t ≤ 1
  paid : ∀ t, 0 < releases h t → s.state t = .exited ∧ ∀ c, ¬ Owes s c t
  one : ∀ t c d, s.state t = .exited → Owes s c t → Owes s d t → c = d
  dead : Dead (fun _ => True) s

/-- A task does not exit between the moment a CPU has taken it out of its slot and
the moment that CPU looks at its state. -/
def ExitsUnseen (_ : History) (s : State) (a : Cpu × Event) : Prop :=
  ∀ t e, a.2 = .exited t e → ∀ d k, s.pc d ≠ .checkPrev k (some t)

theorem Debt.step (hs : Debt h s) (htidy : Tidy kind s) (htidy' : Tidy kind s')
    (hfilled : Filled s) (hown : ∀ d, (s.pc d).Own kind (s.current d))
    (hunseen : ExitsUnseen h s a) (hstep : Step kind s a s') : Debt (a :: h) s' := by
  have howes : ∀ t, s.state t = .exited → ∀ c, Owes s' c t → Owes s c t := by
    intro t hdead c ht
    by_cases hc : c = a.1
    · subst hc
      exact hstep.turn.owes htidy (hfilled _) hdead (hs.dead t trivial hdead) hstep.on ht
    · obtain ⟨hpc, hcurrent, hprev, -⟩ := hstep.others hc
      rwa [Owes, hpc, hcurrent, hprev] at ht
  obtain ⟨hdead', hkeep⟩ :=
    hstep.dead hown htidy.placed hs.dead (htidy.not_suspended hstep)
  have hone : ∀ t c d, s'.state t = .exited → Owes s' c t → Owes s' d t → c = d := by
    intro t c d hdead hc hd
    rcases hstep.exits hdead with hold | ⟨e, hev, hpc, -⟩
    · exact hs.one t c d hold (howes t hold c hc) (howes t hold d hd)
    · -- the exiting task is held by its CPU, and nobody looks at it
      have hheld : ∀ f, Owes s' f t → Held (view s') f t := by
        intro f hf
        rcases hf.cases with hf | ⟨k, hf⟩
        · exact hf
        · by_cases hfa : f = a.1
          · rw [hfa, (hstep.exited_pc hev).2] at hf
            cases hf
          · rw [(hstep.others hfa).1] at hf
            exact absurd hf (hunseen t e hev f k)
      exact htidy'.hold.one c d t (hheld c hc) (hheld d hd)
  by_cases hrel : ∃ t, a.2 = .released t
  · obtain ⟨t, ht⟩ := hrel
    obtain ⟨⟨k, hk⟩, hdead, hcalm, hcurrent, hprev⟩ := hstep.releases ht
    have howed : Owes s a.1 t := .inr (by rw [hk]; rfl)
    have hzero : releases h t = 0 := by
      by_contra hpos
      exact (hs.paid t (Nat.pos_of_ne_zero hpos)).2 a.1 howed
    have hother : ∀ u, u ≠ t → releases (a :: h) u = releases h u := by
      intro u hu
      refine List.countP_cons_of_neg ?_
      simpa [ht] using hu.symm
    have hself : releases (a :: h) t = 1 := by
      rw [releases, List.countP_cons_of_pos (by simp [ht])]
      exact congrArg (· + 1) hzero
    refine ⟨?_, ?_, hone, hdead'⟩
    · intro u
      by_cases hu : u = t
      · rw [hu, hself]
      · rw [hother u hu]
        exact hs.once u
    · intro u hpos
      by_cases hu : u = t
      · subst hu
        refine ⟨hkeep u trivial hdead, ?_⟩
        intro c hc
        have hca : c = a.1 := hs.one u c a.1 hdead (howes u hdead c hc) howed
        have hslot := hfilled a.1
        rw [hk] at hslot
        rw [hca, Owes, hcurrent, hprev, hcalm.grasps, hslot.1] at hc
        rcases hc with ⟨-, hc | hc⟩ | hc
        · exact hslot.2 (congrArg some hc.symm)
        · cases hc
        · cases hc
      · rw [hother u hu] at hpos
        obtain ⟨hold, hnot⟩ := hs.paid u hpos
        exact ⟨hkeep u trivial hold, fun c hc => hnot c (howes u hold c hc)⟩
  · have hsame : ∀ t, releases (a :: h) t = releases h t := by
      intro t
      refine List.countP_cons_of_neg ?_
      simpa using fun ht => hrel ⟨t, ht⟩
    refine ⟨?_, ?_, hone, hdead'⟩
    · intro t
      rw [hsame]
      exact hs.once t
    · intro t ht
      rw [hsame] at ht
      obtain ⟨hdead, hnot⟩ := hs.paid t ht
      exact ⟨hkeep t trivial hdead, fun c hc => hnot c (howes t hdead c hc)⟩

/-- No self-switch, and no exit between a take and the look at what was taken. -/
def Paired (h : History) (s : State) (a : Cpu × Event) : Prop :=
  MovesOn h s a ∧ ExitsUnseen h s a

theorem debt_run (hrun : (machine kind).RunOf Paired h s) : Debt h s := by
  refine hrun.invariant (I := Debt) ?_ ?_
  · rintro s rfl
    refine ⟨fun t => Nat.zero_le _, fun t ht => absurd ht (Nat.lt_irrefl 0), ?_, ?_⟩
    · intro t c d hdead
      cases hdead
    · intro t _ hdead
      cases hdead
  · intro h s a s' hrun hs hpaired hstep
    have hmoves : (machine kind).RunOf MovesOn h s := hrun.mono fun _ _ _ hg => hg.1
    have hmoves' : (machine kind).RunOf MovesOn (a :: h) s' := hmoves.next hpaired.1 hstep
    exact hs.step (filled_run hmoves).1 (filled_run hmoves').1 (filled_run hmoves).2
      (own_run hrun) hpaired.2 hstep

def Event.exits : Event → Option Task
  | .exited t _ => some t
  | _ => none

/-- Only the first `n` CPUs go on, none of them switches to its own task, and none is
about to look at a task that exits. -/
def Among (n : ℕ) (h : History) (s : State) (a : Cpu × Event) : Prop :=
  MovesOn h s a ∧ a.1 < n ∧ ∀ d < n, (s.pc d).grasps = none ∨ (s.pc d).grasps ≠ a.2.exits

instance (n : ℕ) : ∀ h s a, Decidable (Among n h s a) :=
  fun h s a => inferInstanceAs (Decidable (MovesOn h s a ∧ a.1 < n ∧
    ∀ d < n, (s.pc d).grasps = none ∨ (s.pc d).grasps ≠ a.2.exits))

theorem off_of_among {n : ℕ} (hrun : (machine kind).RunOf (Among n) h s) :
    ∀ d, n ≤ d → s.pc d = .off := by
  refine hrun.invariant (I := fun _ s => ∀ d, n ≤ d → s.pc d = .off) ?_ ?_
  · rintro s rfl d _
    rfl
  · intro h s a s' _ hs hamong hstep d hd
    have hda : d ≠ a.1 := (hamong.2.1.trans_le hd).ne'
    rw [(Step.others hstep hda).1]
    exact hs d hd

theorem Among.paired {n : ℕ} (hamong : Among n h s a) (hrun : (machine kind).RunOf (Among n) h s) :
    Paired h s a := by
  refine ⟨hamong.1, ?_⟩
  intro t e hev d k hd
  by_cases hdn : d < n
  · rcases hamong.2.2 d hdn with hnone | hne
    · rw [hd] at hnone
      cases hnone
    · rw [hd, hev] at hne
      exact hne rfl
  · rw [off_of_among hrun d (Nat.not_lt.mp hdn)] at hd
    cases hd

theorem paired_of_among {n : ℕ} (hrun : (machine kind).RunOf (Among n) h s) :
    (machine kind).RunOf Paired h s :=
  hrun.upgrade fun _ _ _ _ hrun _ hamong _ => hamong.paired hrun

/-- Thread 3 blocks on CPU 0, where `main` takes it from the slot and looks at it; thread 4
wakes it on CPU 1, where it goes on. -/
def movedThread : List Choice :=
  [.init 0 0 1, .initSecondary 1 2, .call 0 (.spawn 0 3 0), .call 0 (.spawn 1 4 0),
      .call 0 .yield] ++ goes 0 2 ++ .go 0 1 none :: goes 0 8 ++
    .call 0 (.wait (.wait (.user 0))) :: goes 0 13 ++
    .call 1 .yield :: goes 1 10 ++ .call 1 (.notify (.user 0) .one) :: goes 1 7 ++ goes 0 1 ++
    .call 1 .yield :: goes 1 2 ++ .go 1 1 none :: goes 1 9

/-- Thread 3 exits on CPU 1, which goes on to its idle task. -/
def exitMoved : List Choice :=
  movedThread ++ .call 1 (.exit 7) :: goes 1 12

/-- `main` yields twice with nothing else to run. -/
def yieldTwice : List Choice :=
  .init 0 0 1 :: .call 0 .yield :: goes 0 8 ++ .call 0 .yield :: goes 0 6

/-- Thread 3 blocks on CPU 0 and is taken there by `main`; thread 4 wakes it on
CPU 1, where it exits before CPU 0 looks at it. -/
def releasedTwice : List Choice :=
  [.init 0 0 1, .initSecondary 1 2, .call 0 (.spawn 0 3 0), .call 0 (.spawn 1 4 0),
      .call 0 .yield] ++ goes 0 2 ++ .go 0 1 none :: goes 0 8 ++
    .call 0 (.wait (.wait (.user 0))) :: goes 0 13 ++
    .call 1 .yield :: goes 1 10 ++ .call 1 (.notify (.user 0) .one) :: goes 1 7 ++
    .call 1 .yield :: goes 1 2 ++ .go 1 1 none :: goes 1 9 ++
    .call 1 (.exit 0) :: goes 1 2 ++ goes 0 1 ++ goes 1 12

end Smp
