import Vsched.Foundation.Locks
import Vsched.Smp.Saved

/-!
# Every CPU can go on, or waits for one that can

A CPU waits for a queue lock, for the lock of a list of wakers, or in `unblock_task`
for the flag of a task. Whoever is inside a lock may itself wait for a flag, and the
CPU that still has the task whose flag it is waits for nothing. So there is no cycle,
and the wait for a flag ends after a few accesses of that CPU.
-/

namespace Smp

open Handoff (TaskState Held)
open Locks (Guarded)

variable {kind : Task → Kind} {G : History → State → Cpu × Event → Prop} {h : History}
  {s s' : State} {a : Cpu × Event} {c d : Cpu} {t : Task}

section Wakers

def Caller.wakerLock : Caller → Option ℕ
  | .wakers n _ => some n
  | _ => none

/-- The list of wakers whose lock the code holds. -/
def Pc.wakerLocked : Pc → Option ℕ
  | .wakerPush n => some n
  | .wakerUnlock n => some n
  | .wakersPop n _ => some n
  | .wakersUnlock n _ _ => some n
  | .wakeCas b _ => b.wakerLock
  | .wakeSpin b _ => b.wakerLock
  | .wakePut b _ => b.wakerLock
  | _ => none

def WakerLocked (s : State) : Prop :=
  Guarded s.wakerLock fun c => (s.pc c).wakerLocked

theorem Pc.Plain.wakerLocked {p : Pc} (hp : p.Plain) : p.wakerLocked = none := by
  cases p <;> first | rfl | cases hp

theorem wakerLocked_stay (v : Via) (u : Task) : (v.stay u).wakerLocked = none := by
  rcases v with k | k | -
  · cases k <;> rfl
  · cases k with
    | exiting => rfl
    | user => exact (plain_resumeCoroutine .user).wakerLocked
    | blocked w => exact (plain_resumeCoroutine (.blocked w)).wakerLocked
  · rfl

theorem wakerLocked_resumeContext (k : Option Kont) : (resumeContext k).wakerLocked = none := by
  cases k <;> rfl

theorem wakerLocked_caller_done (b : Caller) : b.done.wakerLocked = b.wakerLock := by
  cases b <;> rfl

theorem wakerLocked_afterNotify (s : State) (c : Cpu) (q : QueueId) (found : Bool) (m : Mode) :
    (s.afterNotify kind c q found m).wakerLocked = none := by
  cases m <;> cases found <;> rfl

theorem wakerLocked_go (s : State) (c : Cpu) (p : Pc) :
    (fun d => ((s.go c p).pc d).wakerLocked) =
      Function.update (fun d => (s.pc d).wakerLocked) c p.wakerLocked := by
  funext d
  by_cases hd : d = c
  · simp [hd]
  · simp [hd]

theorem WakerLocked.keep {r : State} {p p' : Pc} (hs : WakerLocked s) (hpc : s.pc c = p)
    (hr : r.pc = s.pc) (hlock : r.wakerLock = s.wakerLock) (hp : p'.wakerLocked = p.wakerLocked) :
    WakerLocked (r.go c p') := by
  have hsame : Function.update (fun d => (s.pc d).wakerLocked) c p.wakerLocked =
      fun d => (s.pc d).wakerLocked := by
    rw [← hpc]
    exact Function.update_eq_self c _
  rw [WakerLocked, wakerLocked_go, hr, hp, hsame, State.go_wakerLock, hlock]
  exact hs

theorem Step.wakerLocked (hstep : Step kind s a s') (hs : WakerLocked s) : WakerLocked s' := by
  have hinside : ∀ {c : Cpu} {p : Pc}, s.pc c = p → (s.pc c).wakerLocked = p.wakerLocked :=
    fun hpc => by rw [hpc]
  cases hstep with
  | spawn => exact hs
  | setFlag => exact hs
  | wakerLock hpc hfree =>
      rw [WakerLocked, wakerLocked_go]
      exact hs.acquire hfree (hinside hpc)
  | wakersLock hpc hfree =>
      rw [WakerLocked, wakerLocked_go]
      exact hs.acquire hfree (hinside hpc)
  | wakerUnlock hpc =>
      rw [WakerLocked, wakerLocked_go]
      exact hs.release (hinside hpc)
  | @wakersUnlock c n all found hpc =>
      rw [WakerLocked, wakerLocked_go]
      have hout : (if all && found then Pc.wakersLock n all else .run).wakerLocked = none := by
        split <;> rfl
      rw [hout]
      exact hs.release (hinside hpc)
  | requeueUnlock hpc => exact hs.keep hpc rfl rfl (by split <;> rfl)
  | yieldCas hpc _ => exact hs.keep hpc rfl rfl (by split <;> rfl)
  | setRunningSame hpc => exact hs.keep hpc rfl rfl (wakerLocked_stay _ _)
  | switchTo hpc =>
      refine hs.keep hpc rfl rfl ?_
      split
      · rfl
      · exact wakerLocked_resumeContext _
  | leave hpc =>
      refine hs.keep hpc rfl rfl ?_
      split
      · rfl
      · exact wakerLocked_resumeContext _
  | checkPrevExited hpc _ => exact hs.keep hpc rfl rfl (plain_resume _).wakerLocked
  | checkPrev hpc _ => exact hs.keep hpc rfl rfl (plain_resume _).wakerLocked
  | poll hpc _ => exact hs.keep hpc rfl rfl (plain_resumeCoroutine _).wakerLocked
  | evalLocked hpc => exact hs.keep hpc rfl rfl (by split <;> rfl)
  | evalUnlocked hpc => exact hs.keep hpc rfl rfl (by split <;> rfl)
  | cancelLoad hpc =>
      refine hs.keep hpc rfl rfl ?_
      split
      · rfl
      · exact (plain_wait_done _).wakerLocked
  | cancelClear hpc => exact hs.keep hpc rfl rfl (plain_wait_done _).wakerLocked
  | notifyUnlock hpc => exact hs.keep hpc rfl rfl (wakerLocked_afterNotify _ _ _ _ _)
  | wakeCas hpc _ =>
      refine hs.keep hpc rfl rfl ?_
      split
      · exact wakerLocked_caller_done _
      · rfl
  | wakeCasFail hpc _ => exact hs.keep hpc rfl rfl (wakerLocked_caller_done _)
  | wakePut hpc _ => exact hs.keep hpc rfl rfl (wakerLocked_caller_done _)
  | _ =>
      have hpc := ‹s.pc _ = _›
      exact hs.keep hpc rfl rfl rfl

theorem waker_locked_run (hrun : (machine kind).RunOf G h s) : WakerLocked s := by
  refine hrun.invariant (I := fun _ s => WakerLocked s) ?_ ?_
  · rintro s rfl c n
    simp [State.init, Pc.wakerLocked]
  · intro h s a s' _ hs _ hstep
    exact hstep.wakerLocked hs

end Wakers

section Waits

/-- CPU `c` can take a step. -/
def Able (kind : Task → Kind) (s : State) (c : Cpu) : Prop :=
  ∃ ev s', Step kind s (c, ev) s'

/-- The queue whose lock the code is about to take. -/
def Pc.seeks : Pc → Option QueueId
  | .waitLock w => some w.queue
  | .cancelLock w => some w.queue
  | .notifyLock q _ => some q
  | .requeueLock q _ _ => some q
  | .requeueLockTarget _ q => some q
  | _ => none

/-- The list of wakers whose lock the code is about to take. -/
def Pc.wakerSeeks : Pc → Option ℕ
  | .wakerLock n => some n
  | .wakersLock n _ => some n
  | _ => none

/-- CPU `c` cannot go on before CPU `d` has. -/
inductive WaitsOn (s : State) (c d : Cpu) : Prop
  | queue {q : QueueId} : (s.pc c).seeks = some q → s.lock q = some d → WaitsOn s c d
  | wakers {n : ℕ} : (s.pc c).wakerSeeks = some n → s.wakerLock n = some d → WaitsOn s c d
  | flag {b : Caller} {t : Task} :
      s.pc c = .wakeSpin b t → s.onCpu t = true → Held (view s) d t → WaitsOn s c d

theorem Able.of_tick {r : Event × State} (htick : tick kind s c 0 none = some r) :
    Able kind s c :=
  ⟨r.1, r.2, tick_step htick⟩

theorem WaitsOn.of_lock {q : QueueId} (hseeks : (s.pc c).seeks = some q) :
    s.lock q = none ∨ ∃ d, WaitsOn s c d := by
  cases hlock : s.lock q with
  | none => exact .inl rfl
  | some d => exact .inr ⟨d, .queue hseeks hlock⟩

theorem WaitsOn.of_wakers {n : ℕ} (hseeks : (s.pc c).wakerSeeks = some n) :
    s.wakerLock n = none ∨ ∃ d, WaitsOn s c d := by
  cases hlock : s.wakerLock n with
  | none => exact .inl rfl
  | some d => exact .inr ⟨d, .wakers hseeks hlock⟩

/-- No code fails but what an idle task does wrong, and what cannot go on waits. -/
theorem able_or_waits (htidy : Tidy kind s) (hs : Sound s) (hon : s.pc c ≠ .off)
    (hhalted : s.pc c ≠ .halted) :
    Able kind s c ∨ IdleFails kind s c ∨ ∃ d, WaitsOn s c d := by
  rcases hs.asserts htidy c with hasserts | hfails
  swap
  · exact .inr (.inl hfails)
  unfold Asserts at hasserts
  cases hpc : s.pc c with
  | off => exact absurd hpc hon
  | halted => exact absurd hpc hhalted
  | panicked =>
      rw [hpc] at hasserts
      exact hasserts.elim
  | run => exact .inl ⟨_, _, .yield hpc⟩
  | yieldAssert =>
      rw [hpc] at hasserts
      exact .inl ⟨_, _, .yieldAssert hpc hasserts⟩
  | assertRunning w =>
      rw [hpc] at hasserts
      exact .inl ⟨_, _, .assertRunning hpc hasserts⟩
  | exitAssert e =>
      rw [hpc] at hasserts
      exact .inl ⟨_, _, .exitAssert hpc hasserts⟩
  | assertReady v n =>
      rw [hpc] at hasserts
      exact .inl ⟨_, _, .assertReady hpc hasserts⟩
  | poll =>
      have hctx := hs.saved.parted c (by rw [hpc]; rfl)
      obtain ⟨k, hk⟩ := Option.ne_none_iff_exists'.mp hctx
      exact .inl ⟨_, _, .poll hpc hk⟩
  | setBlocked w =>
      rw [hpc] at hasserts
      exact .inl ⟨_, _, .setBlocked hpc hasserts⟩
  | setExited e =>
      rw [hpc] at hasserts
      cases hm : (kind (s.current c)).isInit with
      | true => exact .inl ⟨_, _, .mainTaskExit hpc hasserts hm⟩
      | false => exact .inl ⟨_, _, .setExited hpc hasserts hm⟩
  | waitLock w =>
      rcases WaitsOn.of_lock (s := s) (c := c) (by rw [hpc]; rfl) with hfree | hwaits
      · left
        cases hk : (kind (s.current c)).isCoroutine with
        | true => exact ⟨_, _, .waitLock hpc hfree (.inr hk)⟩
        | false =>
            cases hw : w.cond with
            | none => exact ⟨_, _, .waitLock hpc hfree (.inl hw)⟩
            | some b => exact ⟨_, _, .waitLockUntil hpc hfree hw hk⟩
      · exact .inr (.inr hwaits)
  | cancelLock w =>
      rcases WaitsOn.of_lock (s := s) (c := c) (by rw [hpc]; rfl) with hfree | hwaits
      · exact .inl ⟨_, _, .cancelLock hpc hfree⟩
      · exact .inr (.inr hwaits)
  | notifyLock q m =>
      rcases WaitsOn.of_lock (s := s) (c := c) (by rw [hpc]; rfl) with hfree | hwaits
      · exact .inl ⟨_, _, .notifyLock hpc hfree⟩
      · exact .inr (.inr hwaits)
  | requeueLock q n r =>
      rcases WaitsOn.of_lock (s := s) (c := c) (by rw [hpc]; rfl) with hfree | hwaits
      · exact .inl ⟨_, _, .requeueLock hpc hfree⟩
      · exact .inr (.inr hwaits)
  | requeueLockTarget l r =>
      rcases WaitsOn.of_lock (s := s) (c := c) (by rw [hpc]; rfl) with hfree | hwaits
      · exact .inl ⟨_, _, .requeueLockTarget hpc hfree⟩
      · exact .inr (.inr hwaits)
  | wakerLock n =>
      rcases WaitsOn.of_wakers (s := s) (c := c) (by rw [hpc]; rfl) with hfree | hwaits
      · exact .inl ⟨_, _, .wakerLock hpc hfree⟩
      · exact .inr (.inr hwaits)
  | wakersLock n all =>
      rcases WaitsOn.of_wakers (s := s) (c := c) (by rw [hpc]; rfl) with hfree | hwaits
      · exact .inl ⟨_, _, .wakersLock hpc hfree⟩
      · exact .inr (.inr hwaits)
  | wakeSpin b t =>
      cases ht : s.onCpu t with
      | false => exact .inl ⟨_, _, .wakeSpin hpc ht⟩
      | true =>
          obtain ⟨d, hd⟩ := hs.cover.on t ht
          exact .inr (.inr ⟨d, .flag hpc ht hd⟩)
  | replace v n => cases v <;> exact .inl (.of_tick (by simp only [tick, hpc]; rfl))
  | take k =>
      left
      cases hprev : s.prev c with
      | none => exact ⟨_, _, .takeNothing hpc hprev⟩
      | some t => exact ⟨_, _, .take hpc hprev⟩
  | checkPrev k x =>
      left
      cases x with
      | none => exact ⟨_, _, .checkPrev hpc (by simp)⟩
      | some t =>
          by_cases ht : s.state t = .exited
          · exact ⟨_, _, .checkPrevExited hpc ht⟩
          · exact ⟨_, _, .checkPrev hpc (by simpa using ht)⟩
  | notifyPop q m =>
      left
      cases hm : m.seeks with
      | some t =>
          obtain rfl := Mode.seeks_eq_some.mp hm
          by_cases ht : t ∈ s.queue q
          · exact ⟨_, _, .notifyRemove hpc ht⟩
          · exact ⟨_, _, .notifyMissing hpc ht⟩
      | none =>
          cases hq : s.queue q with
          | nil => exact ⟨_, _, .notifyEmpty hpc hm hq⟩
          | cons t l => exact ⟨_, _, .notifyPop hpc hm hq⟩
  | wakersPop n all =>
      left
      cases hn : s.wakers n with
      | nil => exact ⟨_, _, .wakersEmpty hpc hn⟩
      | cons t l => exact ⟨_, _, .wakersPop hpc hn⟩
  | pick v =>
      left
      cases hready : s.ready c with
      | nil => exact ⟨_, _, .pickIdle hpc hready⟩
      | cons n l => exact ⟨_, _, .pick (l := []) hpc hready⟩
  | yieldCas =>
      left
      by_cases hrun : s.state (s.current c) = .running
      · exact ⟨_, _, .yieldCas hpc hrun⟩
      · exact ⟨_, _, .yieldCasFail hpc hrun⟩
  | setRunning v n =>
      left
      by_cases hn : n = s.current c
      · subst hn
        exact ⟨_, _, .setRunningSame hpc⟩
      · exact ⟨_, _, .setRunning hpc hn⟩
  | afterPoll t =>
      left
      by_cases hrun : s.state t = .running
      · exact ⟨_, _, .afterPollRunning hpc hrun⟩
      · exact ⟨_, _, .afterPoll hpc hrun⟩
  | wakeCas b t =>
      left
      by_cases hblocked : s.state t = .blocked
      · exact ⟨_, _, .wakeCas hpc hblocked⟩
      · exact ⟨_, _, .wakeCasFail hpc hblocked⟩
  | _ => exact .inl (.of_tick (by simp only [tick, hpc]; rfl))

end Waits

section Departure

/-- The accesses that a CPU which leaves its task makes at most before its flag is cleared. -/
def Pc.departure : Pc → ℕ
  | .setInWaitQueue _ => 11
  | .pushBack _ => 10
  | .dropGuard _ => 9
  | .pick _ => 8
  | .assertReady _ _ => 7
  | .setRunning _ _ => 6
  | .setOnCpu _ _ => 5
  | .replace _ _ => 4
  | .afterPoll _ => 3
  | .switchTo _ _ => 2
  | .leave _ => 2
  | .take _ => 1
  | _ => 0

/-- CPU `d` is on its way from task `t` to the next, before or after it has switched. -/
def Departs (s : State) (d : Cpu) (t : Task) : Prop :=
  s.current d = t ∧ 4 ≤ (s.pc d).departure ∨
    s.prev d = some t ∧ t ≠ s.current d ∧ (s.pc d).leaving (s.current d) = true

theorem Departs.pos (hd : Departs s d t) : 0 < (s.pc d).departure := by
  rcases hd with ⟨-, hpos⟩ | ⟨-, -, hleaving⟩
  · omega
  · cases hpc : s.pc d <;> rw [hpc] at hleaving <;> first | exact Nat.succ_pos _ | cases hleaving

theorem departure_le (p : Pc) : p.departure ≤ 11 := by
  cases p <;> simp [Pc.departure]

/-- A CPU that has given its task up departs from it, or carries out its exit. -/
theorem departure_of_gone {p : Pc} (hon : p.role ≠ .off) (hseat : ∀ w, p.role ≠ .work true w)
    (hyield : p.role ≠ .yielding) : 4 ≤ p.departure ∨ p.dying t = some t := by
  cases p <;> simp_all [Pc.role, Pc.dying, Pc.departure]

/-- The CPU that still holds a task which is being woken is departing from it. -/
theorem Held.departs {b : Caller} (htidy : Tidy kind s) (hs : Sound s)
    (hspin : s.pc c = .wakeSpin b t) (hheld : Held (view s) d t) : Departs s d t := by
  have hwaking : Handoff.At (view s) t (.waking c) := by
    rw [Handoff.At, view_role hspin]
    rfl
  have hready : s.state t = .ready := htidy.placed.fits t (.waking c) trivial hwaking
  have hnowhere : ∀ p, Handoff.At (view s) t p → p = .waking c :=
    fun p hp => htidy.placed.unique t p (.waking c) trivial hp hwaking
  have hcurrent : s.current d = t → Departs s d t := by
    intro ht
    have hseat : ∀ w, (view s).role d ≠ .work true w := by
      intro w hw
      cases hnowhere (.seat d) ⟨⟨w, hw⟩, ht⟩
    have hyield : (view s).role d ≠ .yielding := by
      intro hw
      cases hnowhere (.yielding d) ⟨hw, ht⟩
    rcases departure_of_gone (t := s.current d) hheld.1 hseat hyield with hfar | hdying
    · exact .inl ⟨ht, hfar⟩
    · have hdead : s.state (s.current d) = .exited := hs.dying.code d _ hdying
      rw [ht, hready] at hdead
      cases hdead
  rcases hheld.2 with ht | hprev | hclaimed
  · exact hcurrent ht
  · rcases hs.slotted d t hprev with ht | hleaving
    · exact hcurrent ht.symm
    · by_cases ht : s.current d = t
      · exact hcurrent ht
      · exact .inr ⟨hprev, Ne.symm ht, hleaving⟩
  · cases hnowhere (.started d) (.inr hclaimed)

/-- An access of a CPU that departs from a task clears its flag, or fewer are to come. -/
theorem Departs.step {ev : Event} (hd : Departs s d t) (htidy : Tidy kind s) (hs : Sound s)
    (hnot : ∀ v, s.pc d ≠ .setRunning v t) (hstep : Step kind s (d, ev) s') :
    s'.onCpu t = false ∨
      (s'.pc d).departure < (s.pc d).departure ∧ Held (view s') d t := by
  have hon : s.pc d ≠ .off := by
    intro hoff
    have hpos := hd.pos
    rw [hoff] at hpos
    cases hpos
  have hon' : (view s').role d ≠ .off := fun hoff => hstep.stays_on hon (role_off.mp hoff)
  have hctx : (s.pc d).parts = true → s'.ctx (s.current d) ≠ none :=
    fun hparts => hstep.ctx_some (hs.saved.parted d hparts)
  rcases hd with ⟨rfl, hfar⟩ | ⟨hprev, hne, hleaving⟩
  · cases hstep with
    | setInWaitQueue hpc => exact .inr ⟨by simp [hpc, Pc.departure], hon', .inl rfl⟩
    | pushBack hpc => exact .inr ⟨by simp [hpc, Pc.departure], hon', .inl rfl⟩
    | dropGuard hpc => exact .inr ⟨by simp [hpc, Pc.departure], hon', .inl rfl⟩
    | pick hpc => exact .inr ⟨by simp [hpc, Pc.departure], hon', .inl rfl⟩
    | pickIdle hpc => exact .inr ⟨by simp [hpc, Pc.departure], hon', .inl rfl⟩
    | assertReady hpc => exact .inr ⟨by simp [hpc, Pc.departure], hon', .inl rfl⟩
    | setRunning hpc => exact .inr ⟨by simp [hpc, Pc.departure], hon', .inl rfl⟩
    | setOnCpu hpc => exact .inr ⟨by simp [hpc, Pc.departure], hon', .inl rfl⟩
    | setRunningSame hpc => exact absurd hpc (hnot _)
    | replaceThread hpc =>
        exact .inr ⟨by simp [hpc, Pc.departure], hon', .inr (.inl (by simp [view]))⟩
    | replaceFuture hpc =>
        exact .inr ⟨by simp [hpc, Pc.departure], hon', .inr (.inl (by simp [view]))⟩
    | replaceSchedule hpc =>
        exact .inr ⟨by simp [hpc, Pc.departure], hon', .inr (.inl (by simp [view]))⟩
    | _ => simp_all [Pc.departure]
  · have htake : ∀ {x : Option Kont} {b : Bool}, x ≠ none →
        (if b then Pc.take none else resumeContext x).departure < 2 := by
      intro x b hx
      cases b <;> cases x <;> first | exact absurd rfl hx | exact Nat.one_lt_two
    cases hstep with
    | switchTo hpc =>
        refine .inr ⟨?_, hon', .inr (.inl hprev)⟩
        rw [State.go_pc, Function.update_self, hpc]
        exact htake (hctx (by rw [hpc]; rfl))
    | leave hpc =>
        refine .inr ⟨?_, hon', .inr (.inl hprev)⟩
        rw [State.go_pc, Function.update_self, hpc]
        exact htake (hctx (by rw [hpc]; rfl))
    | take hpc hslot =>
        rw [hprev] at hslot
        cases hslot
        exact .inl (by simp)
    | takeEmpty hpc hslot =>
        rw [hprev] at hslot
        cases hslot
    | takeNothing hpc hslot =>
        rw [hprev] at hslot
        cases hslot
    | afterPoll hpc _ => exact .inr ⟨by simp [hpc, Pc.departure], hon', .inr (.inl hprev)⟩
    | afterPollRunning hpc hrun =>
        -- the task that has been polled and left does not run
        have hpolled := htidy.polled d
        rw [hpc] at hpolled hleaving
        rcases hpolled with hu | ⟨hslot, hu⟩
        · simp [Pc.leaving, hu] at hleaving
        · exact absurd (running_here htidy.hold hslot (view_role hpc) hrun) hu
    | _ => simp_all [Pc.leaving]

/-- A CPU that departs from its task waits for nothing. -/
theorem Departs.able (hd : Departs s d t) (htidy : Tidy kind s) (hs : Sound s) :
    Able kind s d := by
  have hpos := hd.pos
  have hon : s.pc d ≠ .off := by
    intro hoff
    simp [hoff, Pc.departure] at hpos
  have hhalted : s.pc d ≠ .halted := by
    intro hhalted
    simp [hhalted, Pc.departure] at hpos
  rcases able_or_waits htidy hs hon hhalted with hable | ⟨hfails, -⟩ | ⟨e, hwaits⟩
  · exact hable
  · rcases hfails with ⟨w, hpc⟩ | ⟨e, hpc⟩ <;> simp [hpc, Pc.departure] at hpos
  · cases hwaits with
    | queue hseeks _ => cases hpc : s.pc d <;> simp_all [Pc.seeks, Pc.departure]
    | wakers hseeks _ => cases hpc : s.pc d <;> simp_all [Pc.wakerSeeks, Pc.departure]
    | flag hpc _ _ => simp [hpc, Pc.departure] at hpos

/-- What a CPU inside a lock can wait for is the flag of a task. -/
theorem WaitsOn.able {e : Cpu} (hwaits : WaitsOn s d e)
    (hlocked : (s.pc d).queueLock ≠ none ∨ (s.pc d).wakerLocked ≠ none) (htidy : Tidy kind s)
    (hs : Sound s) : Able kind s e := by
  cases hwaits with
  | queue hseeks _ =>
      cases hpc : s.pc d <;> simp_all [Pc.seeks, Pc.queueLock, Pc.wakerLocked]
  | wakers hseeks _ =>
      cases hpc : s.pc d <;> simp_all [Pc.wakerSeeks, Pc.queueLock, Pc.wakerLocked]
  | flag hpc _ hheld => exact (Held.departs htidy hs hpc hheld).able htidy hs

theorem Step.sets_flag (hstep : Step kind s a s') (ht : s'.onCpu t = true) :
    s.onCpu t = true ∨ s.created t = false ∨ ∃ v, s.pc a.1 = .setOnCpu v t := by
  have hset : ∀ (f : Task → Bool) (u : Task) (b : Bool), Function.update f u b t = true →
      t = u ∧ b = true ∨ f t = true := by
    intro f u b hupdate
    by_cases htu : t = u
    · subst htu
      exact .inl ⟨rfl, by simpa using hupdate⟩
    · exact .inr (by rwa [Function.update_of_ne htu] at hupdate)
  cases hstep with
  | initVsched _ hm =>
      rcases hset _ _ _ ht with ⟨rfl, -⟩ | ht
      · exact .inr (.inl hm)
      · rcases hset _ _ _ ht with ⟨-, hb⟩ | ht
        · cases hb
        · exact .inl ht
  | initVschedSecondary _ hi =>
      rcases hset _ _ _ ht with ⟨rfl, -⟩ | ht
      · exact .inr (.inl hi)
      · rcases hset _ _ _ ht with ⟨-, hb⟩ | ht
        · cases hb
        · exact .inl ht
  | setOnCpu hpc =>
      rcases hset _ _ _ ht with ⟨rfl, -⟩ | ht
      · exact .inr (.inr ⟨_, hpc⟩)
      · exact .inl ht
  | spawn => exact .inl ((hset _ _ _ ht).resolve_left fun hb => by cases hb.2)
  | take => exact .inl ((hset _ _ _ ht).resolve_left fun hb => by cases hb.2)
  | takeEmpty => exact .inl ((hset _ _ _ ht).resolve_left fun hb => by cases hb.2)
  | _ => exact .inl ht

/-- While CPU `c` waits for the flag of task `t`, the CPU that has the task comes nearer to
clearing it with each of its accesses. -/
theorem spin_departs {b : Caller} {h₁ h₂ : History}
    (hrun : (machine kind).RunOf ClearsUnheld (h₂ ++ (c, .woken t true) :: h₁) s)
    (hstays : ∀ x ∈ h₂, x.1 ≠ c) (hspin : s.pc c = .wakeSpin b t) (hon : s.onCpu t = true) :
    ∃ d, Held (view s) d t ∧
      h₂.countP (fun x => x.1 = d) + (s.pc d).departure ≤ 11 := by
  induction h₂ generalizing s with
  | nil =>
      obtain ⟨d, hd⟩ := (sound_run hrun).cover.on t hon
      exact ⟨d, hd, by simpa using departure_le _⟩
  | cons x h₂ ih =>
      cases hrun with
      | @next _ r _ _ hprev hguard hstep =>
          have htidy := tidy_run hprev
          have hs := sound_run hprev
          have hxc : c ≠ x.1 := Ne.symm (hstays x (List.mem_cons_self ..))
          have hspin' : r.pc c = .wakeSpin b t := by
            rw [← hspin]
            exact (hstep.others hxc).1.symm
          have hwaking : Handoff.At (view r) t (.waking c) := by
            rw [Handoff.At, view_role hspin']
            rfl
          have hon' : r.onCpu t = true := by
            rcases hstep.sets_flag hon with hon' | hmade | ⟨v, hpc⟩
            · exact hon'
            · have hcreated : r.created t = true := htidy.placed.made t (.waking c) trivial hwaking
              rw [hmade] at hcreated
              cases hcreated
            · cases htidy.placed.unique t (.waking c) (.started x.1) trivial hwaking
                (.inl (view_role hpc))
          obtain ⟨d, hd, hcount⟩ := ih hprev (fun y hy => hstays y (List.mem_cons_of_mem x hy))
            hspin' hon'
          refine ⟨d, ?_⟩
          by_cases hxd : x.1 = d
          · subst hxd
            have hnot : ∀ v, r.pc x.1 ≠ .setRunning v t := by
              intro v hpc
              cases htidy.placed.unique t (.waking c) (.chosen x.1) trivial hwaking
                (view_role hpc)
            rcases (Held.departs htidy hs hspin' hd).step htidy hs hnot hstep with
              hclear | ⟨hlt, hheld⟩
            · rw [hclear] at hon
              cases hon
            · refine ⟨hheld, ?_⟩
              rw [List.countP_cons_of_pos (by simp)]
              omega
          · obtain ⟨hpc, hcurrent, hslot, -⟩ := hstep.others (Ne.symm hxd)
            refine ⟨?_, ?_⟩
            · exact (Handoff.held_congr (by simp [view, hpc]) hcurrent hslot).mpr hd
            · rw [List.countP_cons_of_neg (by simpa using hxd), hpc]
              exact hcount

end Departure

/-- The boot tasks of three CPUs, and threads. -/
def threeCpus : Task → Kind
  | 0 => .main
  | 1 => .idle
  | 2 => .bootIdle
  | 3 => .bootIdle
  | _ => .thread

/-- CPU 1 goes on to thread 4 and CPU 2 to thread 5; `main` waits, and thread 4 pops it from
the queue and wakes it before CPU 0 has left it. -/
def wakesMain : List Choice :=
  [.init 0 0 1, .initSecondary 1 2, .initSecondary 2 3, .call 1 (.spawn 1 4 0), .call 1 .yield] ++
    goes 1 10 ++ .call 2 (.spawn 2 5 0) :: .call 2 .yield :: goes 2 10 ++
    .call 0 (.wait (.wait (.user 0))) :: goes 0 6 ++ .call 1 (.notify (.user 0) .one) :: goes 1 4

end Smp
