import Vsched.Handoff.Total
import Vsched.Smp.Join
import Vsched.Smp.Saved

/-!
# A task that may run is in one place, and is queued once for each time it blocks

With several CPUs that wake, pick and put back tasks at once, a task that is `Running`
or `Ready` is nowhere lost and nowhere twice, while flags are cleared only of tasks no
CPU holds. However many CPUs try to wake a blocked task, one of them does, and it puts
the task in a ready queue once.
-/

namespace Smp

open Handoff (TaskState Total Place At)

variable {kind : Task → Kind} {G : History → State → Cpu × Event → Prop} {h : History}
  {s s' : State} {a : Cpu × Event} {c d : Cpu} {t : Task}

section Place

/-- No task is put into the queue of a CPU that has not started. -/
theorem off_ready (hrun : (machine kind).RunOf G h s) : ∀ c, s.pc c = .off → s.ready c = [] := by
  refine hrun.invariant (I := fun _ s => ∀ c, s.pc c = .off → s.ready c = []) ?_ ?_
  · rintro s rfl c _
    rfl
  · intro h s a s' _ hs _ hstep c hoff
    have hold : s.pc c = .off := by
      by_contra hon
      exact hstep.stays_on hon hoff
    have hupdate : ∀ (d : Cpu) (l : List Task), d ≠ c → Function.update s.ready d l c = [] :=
      fun d l hd => by rw [Function.update_of_ne (Ne.symm hd), hs c hold]
    have hother : ∀ {d : Cpu} {p : Pc}, s.pc d = p → p ≠ .off → d ≠ c := by
      rintro d p hpc hp rfl
      exact hp (hpc ▸ hold)
    cases hstep with
    | @initVsched d m i _ _ _ _ _ =>
        by_cases hd : d = c
        · subst hd
          simp
        · exact hupdate d _ hd
    | @initVschedSecondary d i _ _ _ =>
        by_cases hd : d = c
        · subst hd
          simp
        · exact hupdate d _ hd
    | @spawn _ d t l l' _ hd _ _ _ => exact hupdate d _ fun hdc => hd (hdc ▸ hold)
    | yieldPut hpc _ => exact hupdate _ _ (hother hpc nofun)
    | pick hpc _ => exact hupdate _ _ (hother hpc nofun)
    | wakePut hpc _ => exact hupdate _ _ (hother hpc nofun)
    | _ => exact hs c hold

theorem total_run (hrun : (machine kind).RunOf ClearsUnheld h s) :
    Total (isIdle kind) (view s) := by
  refine hrun.invariant (I := fun _ s => Total (isIdle kind) (view s)) ?_ ?_
  · rintro s rfl t hmade
    cases hmade
  · intro h s a s' hrun hs _ hstep
    have htidy := tidy_run hrun
    obtain ⟨m, hm, -, hreblock⟩ := hstep.moves_own (own_run hrun)
    refine hs.step htidy.placed hm ?_ fun hoff => off_ready hrun _ (role_off.mp hoff)
    intro u hu
    exact htidy.not_suspended hstep u (hreblock u hu).1 (hreblock u hu).2 trivial

/-- Along every run in which the flags that are cleared are those of tasks no CPU holds, each
task that may run is in exactly one place, once, and in a state that belongs to it. -/
theorem runnable_once (hrun : (machine kind).RunOf ClearsUnheld h s) (hmade : s.created t = true)
    (hidle : (kind t).isIdle = false) (hrunnable : s.state t = .running ∨ s.state t = .ready) :
    ∃ p, At (view s) t p ∧ (∀ q, At (view s) t q → q = p) ∧ p.Allows (s.state t) ∧
      ∀ c, (s.ready c).count t ≤ 1 := by
  have hplaced := (tidy_run hrun).placed
  obtain ⟨p, hp⟩ := total_run hrun t hmade hidle hrunnable
  exact ⟨p, hp, fun q hq => hplaced.unique t q p trivial hq hp, hplaced.fits t p trivial hp,
    fun c => hplaced.once t c trivial⟩

/-- Thread 3 has woken `main` and not yet put it in a queue. -/
theorem runnable_once_handOver : ∃ h s, (machine twoCpus).RunOf ClearsUnheld h s ∧
    s.pc 1 = .wakePut (.queue (.user 0) .one) 0 ∧
      ∃ p, At (view s) 0 p ∧ (∀ q, At (view s) 0 q → q = p) ∧ p.Allows (s.state 0) ∧
        ∀ c, (s.ready c).count 0 ≤ 1 := by
  let r := (playAll twoCpus MovesOn handOver).get (by decide)
  have hrun : (machine twoCpus).RunOf MovesOn r.1 r.2 :=
    playAll_run _ _ (Option.some_get _).symm
  have hpc : r.2.pc 1 = .wakePut (.queue (.user 0) .one) 0 := by decide
  have hmade : r.2.created 0 = true := by decide
  have hready : r.2.state 0 = .ready := by decide
  generalize r = r at hrun hpc hmade hready
  exact ⟨r.1, r.2, clears_run hrun, hpc, runnable_once (clears_run hrun) hmade rfl (.inr hready)⟩

end Place

section Wakes

/-- How often a task has been marked as blocked. -/
def marks (h : History) (t : Task) : ℕ :=
  h.countP fun x => match x.2 with
    | .blocked u _ => u = t
    | .suspended u => u = t
    | _ => false

/-- How often a task has been put in a ready queue by a CPU that woke it. -/
def wakes (h : History) (t : Task) : ℕ :=
  h.countP fun x => match x.2 with
    | .queued u => u = t
    | _ => false

/-- A task that is blocked, or has been woken and not put in a queue yet. -/
def Pending (s : State) (t : Task) : Prop :=
  s.state t = .blocked ∨ ∃ c, ((s.pc c).role).waking = some t

/-- A step as it concerns the wake-ups of task `t`. -/
inductive Passage (s : State) (a : Cpu × Event) (s' : State) (t : Task) : Prop
  | keep : marks [a] t = 0 → wakes [a] t = 0 → (Pending s' t ↔ Pending s t) → Passage s a s' t
  | mark : marks [a] t = 1 → wakes [a] t = 0 → ¬ Pending s t → Pending s' t → Passage s a s' t
  | queue : marks [a] t = 0 → wakes [a] t = 1 → Pending s t → ¬ Pending s' t → Passage s a s' t

theorem Pending.go {r : State} {p p' : Pc} (hpc : s.pc c = p) (hr : r.pc = s.pc)
    (hstate : r.state t = .blocked ↔ s.state t = .blocked)
    (hwaking : p'.role.waking = some t ↔ p.role.waking = some t) :
    Pending (r.go c p') t ↔ Pending s t := by
  have hrole : ∀ d, (((r.go c p').pc d).role).waking = some t ↔
    ((s.pc d).role).waking = some t := by
    intro d
    by_cases hd : d = c
    · subst hd
      rw [State.go_pc, Function.update_self, hpc]
      exact hwaking
    · rw [State.go_pc, Function.update_of_ne hd, hr]
  exact or_congr hstate (exists_congr hrole)

/-- Tasks that run or may be picked are not pending. -/
theorem Tidy.not_pending {p : Place Cpu} (htidy : Tidy kind s) (hp : At (view s) t p)
    (hwaking : ∀ d, p ≠ .waking d) : ¬ Pending s t := by
  rintro (hblocked | ⟨d, hd⟩)
  · exact htidy.placed.not_blocked trivial hp hblocked
  · exact hwaking d (htidy.placed.unique t p (.waking d) trivial hp hd)

theorem Passage.work {r : State} {p p' : Pc} {b : Bool} {ev : Event}
    (hmarks : marks [(c, ev)] t = 0) (hwakes : wakes [(c, ev)] t = 0) (hpc : s.pc c = p)
    (hr : r.pc = s.pc) (hstate : r.state t = .blocked ↔ s.state t = .blocked)
    (hp : p.role.waking = none) (hp' : p'.role = .work b .none) :
    Passage s (c, ev) (r.go c p') t := by
  refine .keep hmarks hwakes (Pending.go hpc hr hstate ?_)
  rw [hp, hp']
  exact Iff.rfl

/-- A task that is marked as blocked. -/
theorem Passage.of_mark {r : State} {ev : Event} {p : Pc} (htidy : Tidy kind s)
    (hseat : At (view s) (s.current c) (.seat c))
    (hmark : marks [(c, ev)] t = if s.current c = t then 1 else 0)
    (hwakes : wakes [(c, ev)] t = 0) (hr : r.pc = s.pc)
    (hstate : r.state = Function.update s.state (s.current c) .blocked)
    (hnone : (s.pc c).role.waking = none) (hp : p.role.waking = none) :
    Passage s (c, ev) (r.go c p) t := by
  by_cases hct : s.current c = t
  · subst hct
    refine .mark (by simpa using hmark) hwakes (htidy.not_pending hseat nofun) (.inl ?_)
    simp [hstate]
  · refine .keep (by simpa [hct] using hmark) hwakes (Pending.go rfl hr ?_ (by simp [hnone, hp]))
    rw [hstate, Function.update_of_ne (Ne.symm hct)]

/-- What a step has to do with the wake-ups of a task that is not an idle task. -/
theorem Step.passage (hstep : Step kind s a s') (htidy : Tidy kind s) (htidy' : Tidy kind s')
    (ht : (kind t).isIdle = false) :
    Passage s a s' t := by
  have hset : ∀ (u : Task) (st : TaskState), st ≠ .blocked → (u = t → s.state t ≠ .blocked) →
      (Function.update s.state u st t = .blocked ↔ s.state t = .blocked) := by
    intro u st hst hu
    by_cases htu : t = u
    · subst htu
      simp [hst, hu rfl]
    · rw [Function.update_of_ne htu]
  have hseat : ∀ {c : Cpu} {p : Pc}, s.pc c = p → p.role = .work true .none →
      At (view s) (s.current c) (.seat c) :=
    fun hpc hp => ⟨⟨_, (view_role hpc).trans hp⟩, rfl⟩
  have halive : ∀ {u : Task} {p : Place Cpu}, At (view s) u p → u = t → s.state t ≠ .blocked := by
    rintro u p hp rfl
    exact htidy.placed.not_blocked trivial hp
  have hmade : ∀ u, s.created u = false → u = t → s.state t ≠ .blocked := by
    rintro u hu rfl hblocked
    have hwas : s.created u = true := htidy.placed.fresh u trivial hblocked
    rw [hu] at hwas
    cases hwas
  cases hstep with
  | @spawn c d u l l' _ _ hu _ _ =>
      exact .keep rfl rfl (or_congr (hset u .ready (by simp) (hmade u hu)) Iff.rfl)
  | setFlag => exact .keep rfl rfl Iff.rfl
  | @initVsched c m i hpc hm hi _ hk =>
      have hti : i ≠ t := by
        rintro rfl
        rw [hk] at ht
        cases ht
      refine .work rfl rfl hpc rfl ?_ rfl rfl
      by_cases htm : t = m
      · subst htm
        simp [hmade t hm rfl]
      · simp [htm, Ne.symm hti]
  | @initVschedSecondary c i hpc hi hk =>
      have hti : i ≠ t := by
        rintro rfl
        rw [hk] at ht
        cases ht
      exact .work rfl rfl hpc rfl (by simp [Ne.symm hti]) rfl rfl
  | yieldCas hpc hrun =>
      refine .keep rfl rfl (Pending.go hpc rfl (hset _ _ (by simp) (halive (hseat hpc rfl))) ?_)
      split <;> exact Iff.rfl
  | @setRunningSame c v hpc =>
      have hchosen : At (view s) (s.current c) (.chosen c) := view_role hpc
      exact .work rfl rfl hpc rfl (hset _ _ (by simp) (halive hchosen)) rfl (role_stay _ _)
  | @setRunning c v n hpc =>
      have hchosen : At (view s) n (.chosen c) := view_role hpc
      exact .keep rfl rfl (Pending.go hpc rfl (hset _ _ (by simp) (halive hchosen)) Iff.rfl)
  | @schedBlocked c u hpc =>
      have hpolled := htidy.polled c
      rw [hpc] at hpolled
      obtain rfl : u = s.current c := hpolled
      exact .of_mark htidy (hseat hpc rfl) (by simp [marks, List.countP_cons]) rfl rfl rfl
        (by rw [hpc]; rfl) rfl
  | @setBlocked c w hpc hi =>
      exact .of_mark htidy (hseat hpc rfl) (by simp [marks, List.countP_cons]) rfl rfl rfl
        (by rw [hpc]; rfl) rfl
  | setExited hpc =>
      exact .keep rfl rfl (Pending.go hpc rfl (hset _ _ (by simp) (halive (hseat hpc rfl))) Iff.rfl)
  | @wakeCas c b u hpc hblocked =>
      by_cases hut : u = t
      · subst hut
        refine .keep rfl rfl (iff_of_true (.inr ⟨c, ?_⟩) (.inl hblocked))
        simp [ht, Pc.role, Handoff.Role.waking]
      · refine .keep rfl rfl (Pending.go hpc rfl ?_ ?_)
        · exact hset u .ready (by simp) fun htu => absurd htu hut
        · split
          · rw [role_caller_done]
            exact Iff.rfl
          · simp [Pc.role, Handoff.Role.waking, hut]
  | @wakePut c b u l l' hpc hready =>
      by_cases hut : u = t
      · subst hut
        refine .queue rfl (by simp [wakes]) (.inr ⟨c, ?_⟩)
          (htidy'.not_pending (p := .ready c) (by simp [At, view]) (by simp))
        rw [hpc]
        rfl
      · refine .keep rfl (by simp [wakes, hut]) (Pending.go hpc rfl Iff.rfl ?_)
        rw [role_caller_done]
        simp [Pc.role, Handoff.Role.waking, hut]
  | wakeCasFail hpc => exact .work rfl rfl hpc rfl Iff.rfl rfl (role_caller_done _)
  | switchTo hpc =>
      refine .keep rfl rfl (Pending.go hpc rfl Iff.rfl ?_)
      split
      · exact Iff.rfl
      · rw [role_resumeContext]
        exact Iff.rfl
  | leave hpc =>
      refine .keep rfl rfl (Pending.go hpc rfl Iff.rfl ?_)
      split
      · exact Iff.rfl
      · rw [role_resumeContext]
        exact Iff.rfl
  | checkPrevExited hpc => exact .work rfl rfl hpc rfl Iff.rfl rfl (plain_resume _).role
  | checkPrev hpc => exact .work rfl rfl hpc rfl Iff.rfl rfl (plain_resume _).role
  | poll hpc => exact .work rfl rfl hpc rfl Iff.rfl rfl (plain_resumeCoroutine _).role
  | evalLocked hpc =>
      exact .keep rfl rfl (Pending.go hpc rfl Iff.rfl (by split <;> exact Iff.rfl))
  | evalUnlocked hpc =>
      exact .keep rfl rfl (Pending.go hpc rfl Iff.rfl (by split <;> exact Iff.rfl))
  | requeueUnlock hpc =>
      exact .keep rfl rfl (Pending.go hpc rfl Iff.rfl (by split <;> exact Iff.rfl))
  | wakersUnlock hpc =>
      exact .keep rfl rfl (Pending.go hpc rfl Iff.rfl (by split <;> exact Iff.rfl))
  | cancelLoad hpc =>
      refine .keep rfl rfl (Pending.go hpc rfl Iff.rfl ?_)
      split
      · exact Iff.rfl
      · rw [(plain_wait_done _).role]
        exact Iff.rfl
  | cancelClear hpc => exact .work rfl rfl hpc rfl Iff.rfl rfl (plain_wait_done _).role
  | notifyUnlock hpc => exact .work rfl rfl hpc rfl Iff.rfl rfl (role_afterNotify _ _ _ _ _)
  | _ =>
      have hpc := ‹s.pc _ = _›
      exact .keep rfl rfl (Pending.go hpc rfl Iff.rfl Iff.rfl)

/-- However many CPUs wake a task at once, it is put in a ready queue once for each time it
has been blocked; the last time is still to come while it is blocked or being woken. -/
theorem queued_once (hrun : (machine kind).RunOf ClearsUnheld h s) (ht : (kind t).isIdle = false) :
    marks h t = wakes h t ∧ ¬ Pending s t ∨ marks h t = wakes h t + 1 ∧ Pending s t := by
  refine hrun.invariant (I := fun h s => marks h t = wakes h t ∧ ¬ Pending s t ∨
    marks h t = wakes h t + 1 ∧ Pending s t) ?_ ?_
  · rintro s rfl
    refine .inl ⟨rfl, ?_⟩
    rintro (hblocked | ⟨c, hc⟩)
    · cases hblocked
    · cases hc
  · intro h s a s' hrun hs hguard hstep
    have hmarks : marks (a :: h) t = marks [a] t + marks h t := by
      rw [marks, ← List.singleton_append, List.countP_append]
      rfl
    have hwakes : wakes (a :: h) t = wakes [a] t + wakes h t := by
      rw [wakes, ← List.singleton_append, List.countP_append]
      rfl
    rw [hmarks, hwakes]
    rcases hstep.passage (tidy_run hrun) (tidy_run (hrun.next hguard hstep)) ht with
      ⟨hm, hw, hsame⟩ | ⟨hm, hw, hnot, hpending⟩ | ⟨hm, hw, hpending, hnot⟩
    · rwa [hm, hw, hsame, Nat.zero_add, Nat.zero_add]
    · refine .inr ⟨?_, hpending⟩
      obtain ⟨heq, -⟩ := hs.resolve_right fun hs => hnot hs.2
      omega
    · refine .inl ⟨?_, hnot⟩
      obtain ⟨heq, -⟩ := hs.resolve_left fun hs => hs.2 hpending
      omega

/-- The coroutine is suspended, and both CPUs call its waker before either has marked it. -/
def wokenTwice : List Choice :=
  bootCoroutine ++ .call 0 .pending :: goes 0 10 ++ [.call 0 (.wake 4), .call 1 (.wake 4)] ++
    goes 1 1 ++ goes 0 1 ++ goes 1 2

theorem queued_once_coroutine : ∃ h s, (machine withCoroutine).RunOf ClearsUnheld h s ∧
    (0, .wake 4) ∈ h ∧ (1, .wake 4) ∈ h ∧ marks h 4 = 1 ∧ s.ready 1 = [4] ∧
      (marks h 4 = wakes h 4 ∧ ¬ Pending s 4 ∨ marks h 4 = wakes h 4 + 1 ∧ Pending s 4) := by
  let r := (playAll withCoroutine MovesOn wokenTwice).get (by decide)
  have hrun : (machine withCoroutine).RunOf MovesOn r.1 r.2 :=
    playAll_run _ _ (Option.some_get _).symm
  have hzero : (0, Event.wake 4) ∈ r.1 := by decide
  have hone : (1, Event.wake 4) ∈ r.1 := by decide
  have hmarks : marks r.1 4 = 1 := by decide
  have hready : r.2.ready 1 = [4] := by decide
  generalize r = r at hrun hzero hone hmarks hready
  exact ⟨r.1, r.2, clears_run hrun, hzero, hone, hmarks, hready, queued_once (clears_run hrun) rfl⟩

end Wakes

end Smp
