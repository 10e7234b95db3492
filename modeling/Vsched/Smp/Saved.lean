import Vsched.Handoff.Cover
import Vsched.Smp.Exclusion

/-!
# Contexts that are there when they are loaded

A CPU that leaves a task loads the context of the next one. The only tasks without
a saved context are those that a CPU has run since it started, so the context is
there. A task that has exited saves one too, with a `panic` behind it; it is never
loaded, since only tasks that are ready are picked. So along the runs that clear
`on_cpu` only of tasks no CPU holds nothing panics.
-/

namespace Smp

open Handoff (TaskState Held)

variable {kind : Task → Kind} {h : History} {s s' : State} {a : Cpu × Event} {c d : Cpu}
  {t u : Task}

/-- Where the context of the current task is going to be loaded or has been saved. -/
def Pc.parts : Pc → Bool
  | .pick .schedule => true
  | .assertReady .schedule _ => true
  | .setRunning .schedule _ => true
  | .setOnCpu .schedule _ => true
  | .replace .schedule _ => true
  | .switchTo _ _ => true
  | .take none => true
  | .checkPrev none _ => true
  | .poll => true
  | .afterPoll _ => true
  | .schedBlocked _ => true
  | .leave _ => true
  | _ => false

/-- A task without a context has been run by its CPU since it was made. -/
structure Saved (s : State) : Prop where
  parted : ∀ c, (s.pc c).parts = true → s.ctx (s.current c) ≠ none
  fresh : ∀ t, s.created t = true → s.ctx t = none →
    ∃ c, s.pc c ≠ .off ∧ (s.current c = t ∨ (∃ k, s.pc c = .switchTo t k) ∧ s.prev c = some t)

theorem Step.ctx_some (hstep : Step kind s a s') (ht : s.ctx t ≠ none) : s'.ctx t ≠ none := by
  have hset : ∀ (u : Task) (k : Kont), Function.update s.ctx u (some k) t ≠ none := by
    intro u k
    by_cases htu : t = u
    · simp [htu]
    · rwa [Function.update_of_ne htu]
  cases hstep <;> first | exact ht | exact hset _ _

theorem parts_via (s : State) (c : Cpu) (k : Kont) : (Pc.pick (s.via kind c k)).parts = false := by
  unfold State.via
  split <;> rfl

theorem parts_resumeThread (k : Kont) : k.resumeThread.parts = false := by
  rcases k with - | w | e
  · rfl
  · cases w <;> rfl
  · rfl

theorem parts_resumeCoroutine (k : Kont) : k.resumeCoroutine.parts = false := by
  rcases k with - | w | e
  · rfl
  · cases w <;> rfl
  · rfl

theorem parts_afterNotify (s : State) (c : Cpu) (q : QueueId) (found : Bool) (m : Mode) :
    (s.afterNotify kind c q found m).parts = false := by
  cases m with
  | one => rfl
  | task => rfl
  | all => cases found <;> rfl
  | exit e =>
      cases found with
      | true => rfl
      | false => exact parts_via s c _

theorem parts_via_of {v : Via} {n : Task} :
    (Pc.assertReady v n).parts = (Pc.pick v).parts ∧ (Pc.setRunning v n).parts = (Pc.pick v).parts ∧
      (Pc.setOnCpu v n).parts = (Pc.pick v).parts ∧ (v.stay n).parts = (Pc.pick v).parts := by
  rcases v with k | k | -
  · cases k <;> exact ⟨rfl, rfl, rfl, rfl⟩
  · cases k with
    | exiting => exact ⟨rfl, rfl, rfl, rfl⟩
    | user => exact ⟨rfl, rfl, rfl, rfl⟩
    | blocked w => exact ⟨rfl, rfl, rfl, parts_resumeCoroutine (.blocked w)⟩
  · exact ⟨rfl, rfl, rfl, rfl⟩

theorem parts_checkPrev (k : Option Kont) (x : Option Task) :
    (Pc.checkPrev k x).parts = (Pc.take k).parts := by
  cases k <;> rfl

theorem parts_resume (k : Option Kont) :
    (k.elim .poll Kont.resumeThread).parts = (Pc.take k).parts := by
  cases k with
  | none => rfl
  | some k => exact parts_resumeThread k

theorem parts_done (w : Wait) (b : Caller) : w.done.parts = false ∧ b.done.parts = false := by
  cases w <;> cases b <;> exact ⟨rfl, rfl⟩

/-- How a CPU gets where the context of its current task matters. -/
theorem Step.parts (hstep : Step kind s a s') (hparts : (s'.pc a.1).parts = true) :
    (s.pc a.1).parts = true ∧ s'.current a.1 = s.current a.1 ∨
      s'.ctx (s'.current a.1) ≠ none ∨ ∃ v, s.pc a.1 = .replace v (s'.current a.1) := by
  cases hstep with
  | spawn => exact .inl ⟨hparts, rfl⟩
  | setFlag => exact .inl ⟨hparts, rfl⟩
  | pending => exact .inr (.inl (by simp))
  | replaceThread hpc => exact .inr (.inr ⟨_, by simpa using hpc⟩)
  | replaceFuture hpc => exact .inr (.inr ⟨_, by simpa using hpc⟩)
  | replaceSchedule hpc => exact .inr (.inr ⟨_, by simpa using hpc⟩)
  | pick hpc => exact .inl ⟨by simpa [hpc, parts_via_of] using hparts, rfl⟩
  | pickIdle hpc => exact .inl ⟨by simpa [hpc, parts_via_of] using hparts, rfl⟩
  | assertReady hpc => exact .inl ⟨by simpa [hpc, parts_via_of] using hparts, rfl⟩
  | setRunning hpc => exact .inl ⟨by simpa [hpc, parts_via_of] using hparts, rfl⟩
  | setRunningSame hpc => exact .inl ⟨by simpa [hpc, parts_via_of] using hparts, rfl⟩
  | @setOnCpu c v n hpc =>
      refine .inl ⟨?_, rfl⟩
      cases v <;> simp_all [Pc.parts]
  | switchTo hpc => exact .inl ⟨by rw [hpc]; rfl, rfl⟩
  | leave hpc => exact .inl ⟨by rw [hpc]; rfl, rfl⟩
  | take hpc => exact .inl ⟨by simpa [hpc, parts_checkPrev, parts_resume] using hparts, rfl⟩
  | takeEmpty hpc => exact .inl ⟨by simpa [hpc, parts_checkPrev, parts_resume] using hparts, rfl⟩
  | takeNothing hpc => exact .inl ⟨by simpa [hpc, parts_checkPrev, parts_resume] using hparts, rfl⟩
  | checkPrevExited hpc =>
      exact .inl ⟨by simpa [hpc, parts_checkPrev, parts_resume] using hparts, rfl⟩
  | checkPrev hpc => exact .inl ⟨by simpa [hpc, parts_checkPrev, parts_resume] using hparts, rfl⟩
  | afterPollRunning hpc => exact .inl ⟨by rw [hpc]; rfl, rfl⟩
  | afterPoll hpc => exact .inl ⟨by rw [hpc]; rfl, rfl⟩
  | schedBlocked hpc => exact .inl ⟨by rw [hpc]; rfl, rfl⟩
  | yieldCas =>
      simp only [State.go_pc, Function.update_self] at hparts
      split at hparts
      · simp [parts_via] at hparts
      · cases hparts
  | yieldCasFail => simp [parts_via] at hparts
  | yieldPut => simp [parts_via] at hparts
  | dropGuard => simp [parts_via] at hparts
  | notifyUnlock => simp [parts_afterNotify] at hparts
  | poll => simp [parts_resumeCoroutine] at hparts
  | cancelLoad =>
      simp only [State.go_pc, Function.update_self] at hparts
      split at hparts
      · cases hparts
      · simp [parts_done _ .direct] at hparts
  | cancelClear => simp [parts_done _ .direct] at hparts
  | wakeCas =>
      simp only [State.go_pc, Function.update_self] at hparts
      split at hparts
      · simp [parts_done (.join 0)] at hparts
      · cases hparts
  | wakeCasFail => simp [parts_done (.join 0)] at hparts
  | wakePut => simp [parts_done (.join 0)] at hparts
  | _ =>
      simp only [State.go_pc, Function.update_self] at hparts
      first | cases hparts | (split at hparts <;> cases hparts)

/-- The task that a CPU is about to switch to has been left with a context. -/
theorem Saved.claimed {v : Via} (hs : Saved s) (htidy : Tidy kind s)
    (hown : (s.pc c).Own kind (s.current c)) (hpc : s.pc c = .replace v t) : s.ctx t ≠ none := by
  intro hnone
  have hstarted : Handoff.At (view s) t (.started c) := .inr (view_role hpc)
  have hmade : s.created t = true := htidy.placed.made t _ trivial hstarted
  have hhere : Held (view s) c t := ⟨by simp [view, hpc, Pc.role], .inr (.inr (view_role hpc))⟩
  obtain ⟨d, hd, hfresh⟩ := hs.fresh t hmade hnone
  have hthere : Held (view s) d t := by
    refine ⟨fun hoff => hd (role_off.mp hoff), ?_⟩
    rcases hfresh with hcurrent | ⟨-, hprev⟩
    · exact .inl hcurrent
    · exact .inr (.inl hprev)
  have hdc : d = c := htidy.hold.one d c t hthere hhere
  subst hdc
  rw [hpc] at hown hfresh
  rcases hfresh with hcurrent | ⟨⟨k, hk⟩, -⟩
  · exact hown.2 hcurrent.symm
  · cases hk

theorem Saved.parted_step (hs : Saved s) (htidy : Tidy kind s)
    (hown : ∀ d, (s.pc d).Own kind (s.current d)) (hstep : Step kind s a s') (d : Cpu)
    (hparts : (s'.pc d).parts = true) : s'.ctx (s'.current d) ≠ none := by
  by_cases hd : d = a.1
  · subst hd
    rcases hstep.parts hparts with ⟨hold, hcurrent⟩ | hctx | ⟨v, hpc⟩
    · rw [hcurrent]
      exact hstep.ctx_some (hs.parted _ hold)
    · exact hctx
    · exact hstep.ctx_some (hs.claimed htidy (hown _) hpc)
  · obtain ⟨hpc, hcurrent, -⟩ := hstep.others hd
    rw [hpc] at hparts
    rw [hcurrent]
    exact hstep.ctx_some (hs.parted d hparts)

/-- A CPU that has started stays on. -/
theorem Step.stays_on (hstep : Step kind s a s') (hd : s.pc d ≠ .off) : s'.pc d ≠ .off := by
  by_cases hda : d = a.1
  · subst hda
    have hne : ∀ {r : State} {c : Cpu} {p : Pc} {w : Bool} {x : Handoff.Wake Task},
        p.role = .work w x → (r.go c p).pc c ≠ .off := by
      intro r c p w x hp
      rw [State.go_pc, Function.update_self]
      rintro rfl
      cases hp
    cases hstep with
    | spawn => exact hd
    | setFlag => exact hd
    | setRunningSame => exact hne (role_stay _ _)
    | checkPrevExited => exact hne (plain_resume _).role
    | checkPrev => exact hne (plain_resume _).role
    | poll => exact hne (plain_resumeCoroutine _).role
    | cancelClear => exact hne (plain_wait_done _).role
    | notifyUnlock => exact hne (role_afterNotify _ _ _ _ _)
    | wakeCasFail => exact hne (role_caller_done _)
    | wakePut => exact hne (role_caller_done _)
    | switchTo =>
        split
        · simp
        · exact hne (role_resumeContext _)
    | leave =>
        split
        · simp
        · exact hne (role_resumeContext _)
    | cancelLoad =>
        split
        · simp
        · exact hne (plain_wait_done _).role
    | wakeCas =>
        split
        · exact hne (role_caller_done _)
        · simp
    | _ => first | (simp; done) | (split <;> simp)
  · rwa [(hstep.others hda).1]

theorem Saved.fresh_step (hs : Saved s) (hstep : Step kind s a s')
    (ht : s'.created t = true) (hnone : s'.ctx t = none) :
    ∃ c, s'.pc c ≠ .off ∧
      (s'.current c = t ∨ (∃ k, s'.pc c = .switchTo t k) ∧ s'.prev c = some t) := by
  have hold : s.ctx t = none := by
    by_contra hold
    exact hstep.ctx_some hold hnone
  have hkeep : s.created t = true → ∃ c, s'.pc c ≠ .off ∧
      (s'.current c = t ∨ (∃ k, s'.pc c = .switchTo t k) ∧ s'.prev c = some t) := by
    intro hmade
    obtain ⟨d, hd, hfresh⟩ := hs.fresh t hmade hold
    refine ⟨d, hstep.stays_on hd, ?_⟩
    by_cases hda : d = a.1
    · subst hda
      rcases hfresh with rfl | ⟨⟨k, hk⟩, hprev⟩
      · have hparted : (s.pc a.1).parts ≠ true := fun hparts => hs.parted _ hparts hold
        cases hstep with
        | initVsched hoff => exact absurd hoff hd
        | initVschedSecondary hoff => exact absurd hoff hd
        | @replaceThread c k n _ => exact .inr ⟨⟨k, by simp⟩, by simp⟩
        | replaceFuture => simp at hnone
        | replaceSchedule hpc => simp [hpc, Pc.parts] at hparted
        | _ => exact .inl rfl
      · cases hstep with
        | switchTo hpc =>
            rw [hk] at hpc
            cases hpc
            simp at hnone
        | spawn => exact .inr ⟨⟨k, hk⟩, hprev⟩
        | setFlag => exact .inr ⟨⟨k, hk⟩, hprev⟩
        | _ => simp_all
    · obtain ⟨hpc, hcurrent, hprev, -⟩ := hstep.others hda
      rw [hpc, hcurrent, hprev]
      exact hfresh
  cases hstep with
  | @initVsched c m i hoff hm hi _ _ =>
      by_cases htm : t = m
      · subst htm
        exact ⟨c, by simp, .inl (by simp)⟩
      · by_cases hti : t = i
        · subst hti
          simp at hnone
        · exact hkeep (by simpa [htm, hti] using ht)
  | @initVschedSecondary c i hoff hi _ =>
      by_cases hti : t = i
      · subst hti
        exact ⟨c, by simp, .inl (by simp)⟩
      · exact hkeep (by simpa [hti] using ht)
  | @spawn c d u l l' hpc _ hu _ _ =>
      by_cases htu : t = u
      · subst htu
        simp at hnone
      · exact hkeep (by simpa [htu] using ht)
  | _ => exact hkeep ht

section Dying

def Kont.exits : Kont → Bool
  | .exiting _ => true
  | _ => false

def Via.exits : Via → Bool
  | .thread k => k.exits
  | .future k => k.exits
  | .schedule => false

/-- The task that has exited where the code of its exit goes on, `t` being the current one. -/
def Pc.dying (t : Task) : Pc → Option Task
  | .storeExitCode _ => some t
  | .notifyLock _ m => if m.seated then none else some t
  | .notifyPop _ m => if m.seated then none else some t
  | .clearInWaitQueue _ m _ => if m.seated then none else some t
  | .notifyUnlock _ m _ => if m.seated then none else some t
  | .wakeCas b _ => if b.seated then none else some t
  | .wakeSpin b _ => if b.seated then none else some t
  | .wakePut b _ => if b.seated then none else some t
  | .pick v => if v.exits then some t else none
  | .assertReady v _ => if v.exits then some t else none
  | .setRunning v _ => if v.exits then some t else none
  | .setOnCpu v _ => if v.exits then some t else none
  | .replace v _ => if v.exits then some t else none
  | .switchTo old k => if k.exits then some old else none
  | .take k => if k.elim false Kont.exits then some t else none
  | .checkPrev k _ => if k.elim false Kont.exits then some t else none
  | .panicked => some t
  | _ => none

/-- A task in whose exit a CPU stands has exited, and one that will panic when it is resumed. -/
structure Dying (s : State) : Prop where
  code : ∀ c t, (s.pc c).dying (s.current c) = some t → s.state t = .exited
  context : ∀ t e, s.ctx t = some (.exiting e) → s.state t = .exited

theorem dying_resumeThread (k : Kont) :
    (k.resumeThread).dying t = if k.exits then some t else none := by
  rcases k with - | w | e
  · rfl
  · cases w <;> rfl
  · rfl

theorem dying_resumeCoroutine (k : Kont) : k.resumeCoroutine.dying t = none := by
  rcases k with - | w | e
  · rfl
  · cases w <;> rfl
  · rfl

theorem dying_resume (k : Option Kont) :
    (k.elim .poll Kont.resumeThread).dying t = (Pc.take k).dying t := by
  cases k with
  | none => rfl
  | some k => exact dying_resumeThread k

theorem dying_done (w : Wait) : w.done.dying t = none := by
  cases w <;> rfl

theorem dying_caller_done (b : Caller) :
    b.done.dying t = if b.seated then none else some t := by
  cases b <;> rfl

theorem dying_via (k : Kont) :
    (Pc.pick (s.via kind c k)).dying t = if k.exits then some t else none := by
  rw [State.via]
  split <;> rfl

theorem dying_afterNotify (q : QueueId) (found : Bool) (m : Mode) :
    (s.afterNotify kind c q found m).dying t = if m.seated then none else some t := by
  cases m with
  | one => rfl
  | task => rfl
  | all => cases found <;> rfl
  | exit e =>
      cases found with
      | true => rfl
      | false => exact dying_via _

theorem dying_stay (v : Via) (n : Task) (hv : v.exits = false) : (v.stay n).dying t = none := by
  rcases v with k | k | -
  · cases k <;> first | rfl | cases hv
  · cases k with
    | exiting => cases hv
    | user => rfl
    | blocked w => exact dying_resumeCoroutine (.blocked w)
  · rfl

theorem dying_resumeContext (k : Option Kont) (hdying : (resumeContext k).dying t = some u) :
    t = u ∧ (k = none ∨ ∃ e, k = some (.exiting e)) := by
  rcases k with - | k
  · exact ⟨Option.some_inj.mp hdying, .inl rfl⟩
  · cases k with
    | exiting e => exact ⟨Option.some_inj.mp hdying, .inr ⟨e, rfl⟩⟩
    | _ => cases hdying

/-- How a CPU gets into the exit of a task. -/
theorem Step.dying (hstep : Step kind s a s')
    (hdying : (s'.pc a.1).dying (s'.current a.1) = some t) :
    (s.pc a.1).dying (s.current a.1) = some t ∨ s'.state t = .exited ∨
      (∃ v, s.pc a.1 = .setRunning v (s.current a.1) ∧ v.exits = true) ∨
      (s.pc a.1).parts = true ∧ t = s.current a.1 ∧
        (s'.ctx t = none ∨ ∃ e, s'.ctx t = some (.exiting e)) := by
  cases hstep with
  | spawn => exact .inl hdying
  | setFlag => exact .inl hdying
  | @setRunningSame c v hpc =>
      cases hv : v.exits with
      | true => exact .inr (.inr (.inl ⟨v, hpc, hv⟩))
      | false =>
          simp [dying_stay v _ hv] at hdying
  | @setExited c e hpc _ _ =>
      simp only [State.go_pc, Function.update_self, Pc.dying, Option.some.injEq] at hdying
      subst hdying
      exact .inr (.inl (by simp))
  | @switchTo c old k hpc =>
      simp only [State.go_pc, Function.update_self] at hdying
      split at hdying
      · cases hdying
      · obtain ⟨rfl, hctx⟩ := dying_resumeContext _ hdying
        exact .inr (.inr (.inr ⟨by rw [hpc]; rfl, rfl, hctx⟩))
  | @leave c u hpc =>
      simp only [State.go_pc, Function.update_self] at hdying
      split at hdying
      · cases hdying
      · obtain ⟨rfl, hctx⟩ := dying_resumeContext _ hdying
        exact .inr (.inr (.inr ⟨by rw [hpc]; rfl, rfl, hctx⟩))
  | @notify c q m _ hm =>
      cases m with
      | exit e => exact absurd rfl (hm e)
      | _ => simp [Pc.dying, Mode.seated] at hdying
  | requeueUnlock =>
      simp only [State.go_pc, Function.update_self] at hdying
      split at hdying <;> cases hdying
  | yieldCas =>
      simp only [State.go_pc, Function.update_self] at hdying
      split at hdying
      · simp [dying_via, Kont.exits] at hdying
      · cases hdying
  | @replaceThread c k n hpc =>
      simp only [State.go_pc, Function.update_self] at hdying
      exact .inl (by rw [hpc]; exact hdying)
  | evalLocked =>
      simp only [State.go_pc, Function.update_self] at hdying
      split at hdying <;> cases hdying
  | evalUnlocked =>
      simp only [State.go_pc, Function.update_self] at hdying
      split at hdying <;> cases hdying
  | cancelLoad =>
      simp only [State.go_pc, Function.update_self] at hdying
      split at hdying
      · cases hdying
      · simp [dying_done] at hdying
  | wakersUnlock =>
      simp only [State.go_pc, Function.update_self] at hdying
      split at hdying <;> cases hdying
  | wakeCas hpc =>
      simp only [State.go_pc, Function.update_self] at hdying
      rw [hpc]
      split at hdying
      · exact .inl (by rwa [dying_caller_done] at hdying)
      · exact .inl hdying
  | wakeCasFail hpc =>
      simp only [State.go_pc, Function.update_self, dying_caller_done] at hdying
      exact .inl (by rw [hpc]; exact hdying)
  | wakePut hpc =>
      simp only [State.go_pc, Function.update_self, dying_caller_done] at hdying
      exact .inl (by rw [hpc]; exact hdying)
  | notifyUnlock hpc =>
      simp only [State.go_pc, Function.update_self, dying_afterNotify] at hdying
      exact .inl (by rw [hpc]; exact hdying)
  | checkPrev hpc =>
      simp only [State.go_pc, Function.update_self, dying_resume] at hdying
      exact .inl (by rw [hpc]; exact hdying)
  | checkPrevExited hpc =>
      simp only [State.go_pc, Function.update_self, dying_resume] at hdying
      exact .inl (by rw [hpc]; exact hdying)
  | poll => simp [dying_resumeCoroutine] at hdying
  | cancelClear => simp [dying_done] at hdying
  | yieldCasFail => simp [dying_via, Kont.exits] at hdying
  | yieldPut => simp [dying_via, Kont.exits] at hdying
  | dropGuard => simp [dying_via, Kont.exits] at hdying
  | _ =>
      simp only [State.go_pc, Function.update_self] at hdying
      first | cases hdying; done | exact .inl (by simp only [‹s.pc _ = _›]; exact hdying)

theorem Dying.context_step (hs : Dying s) (hstep : Step kind s a s')
    (hkeep : ∀ t, s.state t = .exited → s'.state t = .exited) {e : ℤ}
    (ht : s'.ctx t = some (.exiting e)) : s'.state t = .exited := by
  have hset : ∀ (u : Task) (k : Kont), Function.update s.ctx u (some k) t = some (.exiting e) →
      (k.exits = true → s.state u = .exited) → s.state t = .exited := by
    intro u k hctx hu
    by_cases htu : t = u
    · subst htu
      simp only [Function.update_self, Option.some.injEq] at hctx
      exact hu (by rw [hctx]; rfl)
    · rw [Function.update_of_ne htu] at hctx
      exact hs.context t e hctx
  refine hkeep t ?_
  cases hstep with
  | initVsched => exact hset _ _ ht nofun
  | spawn => exact hset _ _ ht nofun
  | pending => exact hset _ _ ht nofun
  | @replaceFuture c k n hpc =>
      refine hset _ _ ht fun hk => hs.code c _ ?_
      simp [hpc, Pc.dying, Via.exits, hk]
  | @switchTo c old k hpc =>
      refine hset _ _ ht fun hk => hs.code c _ ?_
      simp [hpc, Pc.dying, hk]
  | _ => exact hs.context t e ht

/-- A CPU that has its task runs a task that has not exited. -/
theorem Tidy.alive {w : Handoff.Wake Task} (htidy : Tidy kind s)
    (hrole : (view s).role c = .work true w) : s.state (s.current c) = .running := by
  have hseat : Handoff.At (view s) (s.current c) (.seat c) := ⟨⟨w, hrole⟩, rfl⟩
  exact htidy.placed.fits _ (.seat c) trivial hseat

theorem Dying.code_step (hs : Dying s)
    (hsaved : Saved s) (hcover : Handoff.Cover (view s)) (hstep : Step kind s a s')
    (hkeep : ∀ t, s.state t = .exited → s'.state t = .exited)
    (hcontext : ∀ t e, s'.ctx t = some (.exiting e) → s'.state t = .exited)
    (hd : (s'.pc d).dying (s'.current d) = some t) : s'.state t = .exited := by
  by_cases hda : d = a.1
  · subst hda
    rcases hstep.dying hd with hold | hexited | ⟨v, hpc, hv⟩ | ⟨hparts, rfl, hnone | ⟨e, he⟩⟩
    · exact hkeep t (hs.code _ t hold)
    · exact hexited
    · -- the current task is ready when it is picked again
      have hchosen : s.state (s.current a.1) = .ready := hcover.chosen a.1 _ (view_role hpc)
      have hdead : s.state (s.current a.1) = .exited := hs.code a.1 _ (by simp [hpc, Pc.dying, hv])
      rw [hchosen] at hdead
      cases hdead
    · exact absurd hnone (hstep.ctx_some (hsaved.parted _ hparts))
    · exact hcontext _ e he
  · obtain ⟨hpc, hcurrent, -⟩ := hstep.others hda
    rw [hpc, hcurrent] at hd
    exact hkeep t (hs.code d t hd)

end Dying

section Slot

/-- Where the slot holds the task that the CPU has just left, `t` being the current one. -/
def Pc.leaving (t : Task) : Pc → Bool
  | .switchTo _ _ => true
  | .take _ => true
  | .leave _ => true
  | .afterPoll u => u ≠ t
  | _ => false

/-- What a slot holds elsewhere is the current task, which has not been left yet. -/
def Slotted (s : State) : Prop :=
  ∀ c t, s.prev c = some t → t = s.current c ∨ (s.pc c).leaving (s.current c) = true

theorem leaving_resume {x : Option Kont} {b : Bool} (hx : x ≠ none) :
    (if b then Pc.take none else resumeContext x).leaving t = true := by
  cases b with
  | true => rfl
  | false =>
      cases x with
      | none => exact absurd rfl hx
      | some k => rfl

theorem Slotted.step (hs : Slotted s) (htidy : Tidy kind s) (hsaved : Saved s)
    (hown : ∀ d, (s.pc d).Own kind (s.current d)) (hstep : Step kind s a s') : Slotted s' := by
  intro d t hprev
  by_cases hda : d = a.1
  · subst hda
    have hctx : (s.pc a.1).parts = true → s'.ctx (s.current a.1) ≠ none :=
      fun hparts => hstep.ctx_some (hsaved.parted _ hparts)
    cases hstep with
    | initVsched => exact .inl (by simpa [eq_comm] using hprev)
    | initVschedSecondary => exact .inl (by simpa [eq_comm] using hprev)
    | spawn => exact hs _ t hprev
    | setFlag => exact hs _ t hprev
    | take => simp at hprev
    | takeEmpty => simp at hprev
    | takeNothing => simp at hprev
    | replaceThread => exact .inr (by simp [Pc.leaving])
    | replaceSchedule => exact .inr (by simp [Pc.leaving])
    | @replaceFuture c k n hpc =>
        have hne := hown c
        rw [hpc] at hne
        exact .inr (by simpa [Pc.leaving] using Ne.symm hne.2)
    | switchTo hpc =>
        right
        rw [State.go_pc, Function.update_self]
        exact leaving_resume (hctx (by rw [hpc]; rfl))
    | leave hpc =>
        right
        rw [State.go_pc, Function.update_self]
        exact leaving_resume (hctx (by rw [hpc]; rfl))
    | afterPoll => exact .inr (by simp [Pc.leaving])
    | @afterPollRunning c u hpc hrun =>
        -- the task that has been polled still runs, so it has not been left
        left
        have hpolled := htidy.polled c
        rw [hpc] at hpolled
        have hu : u = s.current c := by
          rcases hpolled with hu | ⟨hslot, -⟩
          · exact hu
          · exact running_here htidy.hold hslot (view_role hpc) hrun
        refine (hs c t hprev).resolve_right ?_
        simp [hpc, Pc.leaving, hu]
    | _ =>
        refine .inl ((hs _ t hprev).resolve_right ?_)
        simp [*, Pc.leaving]
  · obtain ⟨hpc, hcurrent, hold, -⟩ := hstep.others hda
    rw [hpc, hcurrent]
    exact hs d t (hold ▸ hprev)

end Slot

/-- The contexts, the slots and the flags of a state, and the tasks that have exited. -/
structure Sound (s : State) : Prop where
  saved : Saved s
  slotted : Slotted s
  cover : Handoff.Cover (view s)
  dying : Dying s

theorem sound_run (hrun : (machine kind).RunOf ClearsUnheld h s) : Sound s := by
  refine hrun.invariant (I := fun _ s => Sound s) ?_ ?_
  · rintro s rfl
    exact ⟨⟨fun _ => nofun, fun _ => nofun⟩, fun _ _ => nofun, ⟨fun _ => nofun, fun _ _ => nofun⟩,
      ⟨fun _ _ => nofun, fun _ _ => nofun⟩⟩
  · intro h s a s' hrun hs _ hstep
    have htidy := tidy_run hrun
    have hown := own_run hrun
    have hkeep : ∀ t, s.state t = .exited → s'.state t = .exited :=
      fun t => exited_tidy hrun hstep
    obtain ⟨m, hm, -, hreblock⟩ := hstep.moves_own hown
    have hnot : ∀ u, m ≠ .reblock u := by
      intro u hu
      exact htidy.not_suspended hstep u (hreblock u hu).1 (hreblock u hu).2 trivial
    have hcontext : ∀ t e, s'.ctx t = some (.exiting e) → s'.state t = .exited :=
      fun t e => hs.dying.context_step hstep hkeep
    refine ⟨⟨hs.saved.parted_step htidy hown hstep, fun t => hs.saved.fresh_step hstep⟩,
      hs.slotted.step htidy hs.saved hown hstep, ?_, ⟨fun d t => ?_, hcontext⟩⟩
    · refine hs.cover.step htidy.placed htidy.hold hm hnot ?_
      intro n y hclaimed hy
      obtain ⟨v, hv⟩ := role_claimed.mp hclaimed
      refine (hs.slotted a.1 y hy).resolve_right ?_
      simp [show s.pc a.1 = .replace v n from hv, Pc.leaving]
    · exact hs.dying.code_step hs.saved hs.cover hstep hkeep hcontext

/-- What the code asserts where CPU `c` stands: its task is `Running` where it yields, blocks
or exits, and no idle task where it blocks or exits; the task picked next is `Ready`; and a
task that has exited is not resumed, nor one whose context has not been saved. -/
def Asserts (kind : Task → Kind) (s : State) (c : Cpu) : Prop :=
  match s.pc c with
  | .yieldAssert => s.state (s.current c) = .running
  | .assertRunning _ => s.state (s.current c) = .running
  | .setBlocked _ => (kind (s.current c)).isIdle = false
  | .exitAssert _ => s.state (s.current c) = .running
  | .setExited _ => (kind (s.current c)).isIdle = false
  | .assertReady _ n => s.state n = .ready
  | .panicked => False
  | _ => True

/-- The idle task of CPU `c` is the one that blocks or exits, which the code refuses with a
failed assertion. -/
def IdleFails (kind : Task → Kind) (s : State) (c : Cpu) : Prop :=
  ((∃ w, s.pc c = .setBlocked w) ∨ ∃ e, s.pc c = .setExited e) ∧
    (kind (s.current c)).isIdle = true

theorem Sound.asserts (hs : Sound s) (htidy : Tidy kind s) (c : Cpu) :
    Asserts kind s c ∨ IdleFails kind s c := by
  have halive : ∀ {p : Pc}, s.pc c = p → p.role = .work true .none →
      s.state (s.current c) = .running := fun hpc hrole =>
    htidy.alive ((view_role hpc).trans hrole)
  unfold Asserts
  split
  case _ hpc => exact .inl (halive hpc rfl)
  case _ hpc => exact .inl (halive hpc rfl)
  case _ w hpc =>
    cases hidle : (kind (s.current c)).isIdle with
    | true => exact .inr ⟨.inl ⟨w, hpc⟩, hidle⟩
    | false => exact .inl rfl
  case _ hpc => exact .inl (halive hpc rfl)
  case _ e hpc =>
    cases hidle : (kind (s.current c)).isIdle with
    | true => exact .inr ⟨.inr ⟨e, hpc⟩, hidle⟩
    | false => exact .inl rfl
  case _ v n hpc => exact .inl (hs.cover.chosen c n (view_role hpc))
  case _ hpc =>
    have hdead := hs.dying.code c (s.current c) (by rw [hpc]; rfl)
    rw [halive hpc rfl] at hdead
    cases hdead
  case _ => exact .inl trivial

/-- Along every run in which the flags that are cleared are those of tasks no CPU holds, no
assertion fails, no task that has exited is resumed and every context that is loaded has
been saved; unless an idle task blocks or exits. -/
theorem asserts_hold (hrun : (machine kind).RunOf ClearsUnheld h s) (c : Cpu) :
    Asserts kind s c ∨ IdleFails kind s c :=
  (sound_run hrun).asserts (tidy_run hrun) c

/-- `main` blocks and CPU 0 picks its idle task. -/
def blocksMain : List Choice :=
  bootTwo ++ .call 0 (.wait (.wait (.user 0))) :: goes 0 7

theorem asserts_hold_blocksMain : ∃ h s, (machine twoCpus).RunOf ClearsUnheld h s ∧
    s.pc 0 = .assertReady (.thread (.blocked (.wait (.user 0)))) 1 ∧
      (Asserts twoCpus s 0 ∨ IdleFails twoCpus s 0) := by
  let r := (playAll twoCpus MovesOn blocksMain).get (by decide)
  have hrun : (machine twoCpus).RunOf MovesOn r.1 r.2 :=
    playAll_run _ _ (Option.some_get _).symm
  exact ⟨r.1, r.2, clears_run hrun, by decide, asserts_hold (clears_run hrun) 0⟩

/-- In a run that clears the flag of `main` while CPU 0 is leaving it, CPU 1 loads the context
of `main` before it has been saved. -/
theorem loaded_early : ∃ h s, (machine twoCpus).Run h s ∧ s.pc 1 = .panicked ∧ s.ctx 0 = none := by
  let r := (playAll twoCpus (fun _ _ _ => True) (pickedEarly ++ goes 1 1)).get (by decide)
  exact ⟨r.1, r.2, playAll_run _ _ (Option.some_get _).symm, by decide, by decide⟩

end Smp
