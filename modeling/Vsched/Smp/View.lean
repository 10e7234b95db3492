import Vsched.Handoff.Hold
import Vsched.Smp.Machine

/-!
# The task system refines the hand-off model

`view` keeps of a state what scheduling is about, and `Pc.role` what an access
means for it. Every step of the task system is a hand-off move of its CPU or
leaves the view as it is, so what the moves keep holds along every run.
-/

namespace Smp

open Handoff (TaskState Role Wake Core Move Place)

/-- Code that runs while the dying task notifies its joiners has given up its
seat. -/
def Mode.seated : Mode → Bool
  | .exit _ => false
  | _ => true

def Caller.seated : Caller → Bool
  | .queue _ m => m.seated
  | _ => true

def Pc.role : Pc → Role Task
  | .off => .off
  | .yieldPut => .yielding
  | .pick _ => .work false .none
  | .assertReady _ n => .chosen n
  | .setRunning _ n => .chosen n
  | .setOnCpu _ n => .starting n
  | .replace _ n => .claimed n
  | .setInWaitQueue _ => .work false .none
  | .pushBack _ => .work false .none
  | .dropGuard _ => .work false .none
  | .storeExitCode _ => .work false .none
  | .notifyLock _ m => .work m.seated .none
  | .notifyPop _ m => .work m.seated .none
  | .clearInWaitQueue _ m _ => .work m.seated .none
  | .notifyUnlock _ m _ => .work m.seated .none
  | .wakeCas a _ => .work a.seated .none
  | .wakeSpin a t => .work a.seated (.spinning t)
  | .wakePut a t => .work a.seated (.passed t)
  | _ => .work true .none

def view (s : State) : Core Cpu Task where
  state := s.state
  onCpu := s.onCpu
  current := s.current
  idle := s.idle
  prev := s.prev
  ready := s.ready
  role := Pc.role ∘ s.pc
  created := s.created

variable {kind : Task → Kind}

abbrev isIdle (kind : Task → Kind) (t : Task) : Bool := (kind t).isIdle

/-- Where the code goes on after a resume point or a blocking call: the task holds
no lock and has its seat. -/
def Pc.Plain : Pc → Prop
  | .run => True
  | .panicked => True
  | .poll => True
  | .waitLock _ => True
  | .evalUnlocked _ _ => True
  | .cancelLoad _ => True
  | .loadExitCode _ => True
  | .exitAssert _ => True
  | _ => False

theorem plain_resumeThread (k : Kont) : k.resumeThread.Plain := by
  rcases k with - | w | e
  · trivial
  · cases w <;> trivial
  · trivial

theorem plain_resumeCoroutine (k : Kont) : k.resumeCoroutine.Plain := by
  rcases k with - | w | e
  · trivial
  · cases w <;> trivial
  · trivial

theorem plain_resume (k : Option Kont) : (k.elim .poll Kont.resumeThread).Plain := by
  cases k with
  | none => trivial
  | some k => exact plain_resumeThread k

theorem plain_wait_done (w : Wait) : w.done.Plain := by
  cases w <;> trivial

theorem Pc.Plain.role {p : Pc} (hp : p.Plain) : p.role = .work true .none := by
  cases p <;> first | rfl | cases hp

theorem role_resumeContext (k : Option Kont) : (resumeContext k).role = .work true .none := by
  cases k <;> rfl

theorem role_stay (v : Via) (t : Task) : (v.stay t).role = .work true .none := by
  rcases v with k | k | -
  · cases k <;> rfl
  · cases k with
    | exiting => rfl
    | user => exact (plain_resumeCoroutine .user).role
    | blocked w => exact (plain_resumeCoroutine (.blocked w)).role
  · rfl

theorem role_caller_done (a : Caller) : a.done.role = .work a.seated .none := by
  cases a <;> rfl

theorem role_afterNotify (s : State) (c : Cpu) (q : QueueId) (found : Bool) (m : Mode) :
    (s.afterNotify kind c q found m).role = .work m.seated .none := by
  cases m <;> cases found <;> rfl

/-- A step that changes the place of its CPU only. -/
theorem view_go (s : State) (c : Cpu) (p : Pc) :
    view (s.go c p) = (view s).setRole c p.role := by
  simp [view, Core.setRole, Function.comp_update]

theorem view_role {s : State} {c : Cpu} {p : Pc} (hpc : s.pc c = p) :
    (view s).role c = p.role := by
  simp [view, hpc]

/-- The step is a move of the hand-off model; what it clears or marks as blocked
behind its owner's back is in its event. -/
def Moves (kind : Task → Kind) (s : State) (c : Cpu) (ev : Event) (s' : State) : Prop :=
  ∃ m, Handoff.Step (isIdle kind) (view s) c m (view s') ∧
    (∀ x, m = .clear x → ev = .taken x) ∧
    ∀ u, m = .reblock u → ev = .suspended u ∧ u ≠ s.current c

variable {s s' : State} {c : Cpu} {ev : Event} {p p' : Pc}

theorem setRole_same {k : Core Cpu Task} {r : Role Task} (hrole : k.role c = r) :
    k.setRole c r = k := by
  simp [Core.setRole, ← hrole]

theorem Moves.stay (hpc : s.pc c = p) (hrole : p'.role = p.role) (hview : view s' = view s) :
    Moves kind s c ev (s'.go c p') := by
  refine ⟨.stay, ?_, by simp, by simp⟩
  rw [view_go, hview, setRole_same (by rw [view_role hpc, hrole])]
  exact .stay

theorem Moves.of {m : Move Task} {k : Core Cpu Task}
    (hstep : Handoff.Step (isIdle kind) (view s) c m (k.setRole c p'.role))
    (hview : view s' = k) (hclear : ∀ x, m ≠ .clear x) (hreblock : ∀ u, m ≠ .reblock u) :
    Moves kind s c ev (s'.go c p') := by
  refine ⟨m, ?_, fun x hx => absurd hx (hclear x), fun u hu => absurd hu (hreblock u)⟩
  rw [view_go, hview]
  exact hstep

/-- Taking the previous task clears what was found in the slot. -/
theorem Moves.clear {x : Option Task} (hpc : s.pc c = p) (hrole : p.role = .work true .none)
    (hrole' : p'.role = .work true .none) (hx : ∀ y, s.prev c = some y → x = some y)
    (hview : view s' = ((view s).clearOnCpu x).setPrev c none) :
    Moves kind s c (.taken x) (s'.go c p') := by
  have hold : (view s).role c = .work true .none := by rw [view_role hpc, hrole]
  refine ⟨.clear x, ?_, by simp, by simp⟩
  rw [view_go, hview, hrole', setRole_same (by cases x <;> exact hold)]
  exact .clear hold hx

/-- Every step of the task system is a move of the hand-off model. -/
theorem Step.moves {a : Cpu × Event} (hstep : Step kind s a s')
    (hsched : ∀ t, s.pc a.1 = .schedBlocked t → (kind t).isIdle = false) :
    Moves kind s a.1 a.2 s' := by
  cases hstep with
  | @initVsched c m i hoff hm hi _ hki =>
      exact .of (.boot (view_role hoff) hm hi (by rw [isIdle, hki]; rfl)) rfl (by simp)
        (by simp)
  | @initVschedSecondary c i hoff hi hki =>
      exact .of (.boot (view_role hoff) hi hi (by rw [isIdle, hki]; rfl)) rfl (by simp)
        (by simp)
  | @spawn c d t l l' _ _ hnew hkind hready =>
      refine ⟨.spawn, .spawn hnew ?_ hready, by simp, by simp⟩
      rcases hkind with h | h <;> simp [isIdle, h, Kind.isIdle]
  | setFlag _ => exact ⟨.stay, .stay, by simp, by simp⟩
  | yield hpc => exact .stay hpc rfl rfl
  | wait hpc _ => exact .stay hpc rfl rfl
  | waitUntilF hpc _ _ => exact .stay hpc rfl rfl
  | exit hpc => exact .stay hpc rfl rfl
  | @notify c q m hpc hm =>
      refine .stay hpc ?_ rfl
      cases m with
      | exit e => exact absurd rfl (hm e)
      | _ => rfl
  | requeue hpc => exact .stay hpc rfl rfl
  | wake hpc _ => exact .stay hpc rfl rfl
  | notifyWakers hpc => exact .stay hpc rfl rfl
  | wakerBlock hpc _ => exact .stay hpc rfl rfl
  | pending hpc _ => exact .stay hpc rfl rfl
  | yieldAssert hpc _ => exact .stay hpc rfl rfl
  | @yieldCas c hpc hrun =>
      cases hi : (kind (s.current c)).isIdle with
      | true =>
          exact .of (.yieldIdle (view_role hpc) hi hrun) rfl (by simp) (by simp)
      | false =>
          exact .of (.yield (view_role hpc) hi hrun) rfl (by simp) (by simp)
  | yieldCasFail hpc hrun => exact .of (.yieldFail (view_role hpc) hrun) rfl (by simp) (by simp)
  | yieldPut hpc hready => exact .of (.requeue (view_role hpc) hready) rfl (by simp) (by simp)
  | pick hpc hready => exact .of (.pick (view_role hpc) hready) rfl (by simp) (by simp)
  | pickIdle hpc hready => exact .of (.pickIdle (view_role hpc) hready) rfl (by simp) (by simp)
  | assertReady hpc _ => exact .stay hpc rfl rfl
  | @setRunningSame c v hpc =>
      refine .of (m := .start) (k := (view s).setState (s.current c) .running) ?_ rfl
        (by simp) (by simp)
      have h : Handoff.Step (isIdle kind) (view s) c .start _ := .start (view_role hpc)
      rwa [if_pos (show s.current c = (view s).current c from rfl), ← role_stay] at h
  | @setRunning c v n hpc hne =>
      refine .of (m := .start) (k := (view s).setState n .running) ?_ rfl (by simp) (by simp)
      have h : Handoff.Step (isIdle kind) (view s) c .start _ := .start (view_role hpc)
      rwa [if_neg (show n ≠ (view s).current c from hne)] at h
  | setOnCpu hpc => exact .of (.claim (view_role hpc)) rfl (by simp) (by simp)
  | replaceThread hpc => exact .of (.switch (view_role hpc)) rfl (by simp) (by simp)
  | replaceFuture hpc => exact .of (.switch (view_role hpc)) rfl (by simp) (by simp)
  | replaceSchedule hpc => exact .of (.switch (view_role hpc)) rfl (by simp) (by simp)
  | switchTo hpc =>
      refine .stay hpc ?_ rfl
      split
      · rfl
      · exact role_resumeContext _
  | @take c k t hpc hprev =>
      refine .clear hpc rfl rfl ?_ rfl
      intro y hy
      rw [← hprev, hy]
  | takeEmpty hpc hprev => exact .clear hpc rfl rfl (by simp [hprev]) rfl
  | takeNothing hpc hprev => exact .clear hpc rfl rfl (by simp [hprev]) rfl
  | checkPrevExited hpc _ => exact .stay hpc (plain_resume _).role rfl
  | checkPrev hpc _ => exact .stay hpc (plain_resume _).role rfl
  | poll hpc _ => exact .stay hpc (plain_resumeCoroutine _).role rfl
  | afterPollRunning hpc _ => exact .stay hpc rfl rfl
  | afterPoll hpc _ => exact .stay hpc rfl rfl
  | @schedBlocked c t hpc =>
      have hi : (kind t).isIdle = false := hsched t hpc
      by_cases hcur : t = s.current c
      · subst hcur
        exact .of (.leave (view_role hpc) hi (.inl rfl)) rfl (by simp) (by simp)
      · refine ⟨.reblock t, ?_, by simp, ?_⟩
        · rw [view_go]
          exact .reblock (view_role hpc) hcur hi
        · rintro u hu
          cases hu
          exact ⟨rfl, hcur⟩
  | leave hpc =>
      refine .stay hpc ?_ rfl
      split
      · rfl
      · exact role_resumeContext _
  | waitLock hpc _ _ => exact .stay hpc rfl rfl
  | waitLockUntil hpc _ _ _ => exact .stay hpc rfl rfl
  | evalLocked hpc => exact .stay hpc (by split <;> rfl) rfl
  | evalUnlocked hpc => exact .stay hpc (by split <;> rfl) rfl
  | waitUnlock hpc => exact .stay hpc rfl rfl
  | assertRunning hpc _ => exact .stay hpc rfl rfl
  | setBlocked hpc hi =>
      exact .of (.leave (view_role hpc) hi (.inl rfl)) rfl (by simp) (by simp)
  | setInWaitQueue hpc => exact .stay hpc rfl rfl
  | pushBack hpc => exact .stay hpc rfl rfl
  | dropGuard hpc => exact .stay hpc rfl rfl
  | cancelLoad hpc =>
      refine .stay hpc ?_ rfl
      split
      · rfl
      · exact (plain_wait_done _).role
  | cancelLock hpc _ => exact .stay hpc rfl rfl
  | cancelRetain hpc => exact .stay hpc rfl rfl
  | cancelUnlock hpc => exact .stay hpc rfl rfl
  | cancelClear hpc => exact .stay hpc (plain_wait_done _).role rfl
  | loadExitCode hpc => exact .stay hpc rfl rfl
  | exitAssert hpc _ => exact .stay hpc rfl rfl
  | mainTaskExit hpc _ _ => exact .stay hpc rfl rfl
  | setExited hpc hi _ =>
      exact .of (.leave (view_role hpc) hi (.inr rfl)) rfl (by simp) (by simp)
  | storeExitCode hpc => exact .stay hpc rfl rfl
  | notifyLock hpc _ => exact .stay hpc rfl rfl
  | notifyPop hpc _ _ => exact .stay hpc rfl rfl
  | notifyEmpty hpc _ _ => exact .stay hpc rfl rfl
  | notifyRemove hpc _ => exact .stay hpc rfl rfl
  | notifyMissing hpc _ => exact .stay hpc rfl rfl
  | clearInWaitQueue hpc => exact .stay hpc rfl rfl
  | notifyUnlock hpc => exact .stay hpc (role_afterNotify _ _ _ _ _) rfl
  | requeueLock hpc _ => exact .stay hpc rfl rfl
  | requeueDrain hpc => exact .stay hpc rfl rfl
  | requeueUnlock hpc => exact .stay hpc (by split <;> rfl) rfl
  | requeueLockTarget hpc _ => exact .stay hpc rfl rfl
  | requeueExtend hpc => exact .stay hpc rfl rfl
  | requeueUnlockTarget hpc => exact .stay hpc rfl rfl
  | @wakeCas c b t hpc hblocked =>
      cases hi : (kind t).isIdle with
      | true =>
          refine ⟨.wake, ?_, by simp, by simp⟩
          have h : Handoff.Step (isIdle kind) (view s) c .wake ((view s).setState t .ready) :=
            .wakeIdle (view_role hpc) hblocked hi
          have hrole : ((view s).setState t .ready).role c = .work b.seated .none :=
            view_role hpc
          rw [if_pos rfl, view_go, role_caller_done]
          rwa [← setRole_same hrole] at h
      | false => exact .of (.wake (view_role hpc) hblocked) rfl (by simp) (by simp)
  | wakeCasFail hpc _ => exact .stay hpc (role_caller_done _) rfl
  | wakeSpin hpc hoff => exact .of (.pass (view_role hpc) hoff) rfl (by simp) (by simp)
  | @wakePut c b t l l' hpc hready =>
      have h : Handoff.Step (isIdle kind) (view s) c .enqueue _ :=
        .enqueue (view_role hpc) hready
      refine .of (m := .enqueue) (k := (view s).setReady c (l ++ t :: l')) ?_ rfl (by simp)
        (by simp)
      rwa [role_caller_done]
  | wakerLock hpc _ => exact .stay hpc rfl rfl
  | wakerPush hpc => exact .stay hpc rfl rfl
  | wakerUnlock hpc => exact .stay hpc rfl rfl
  | wakersLock hpc _ => exact .stay hpc rfl rfl
  | wakersPop hpc _ => exact .stay hpc rfl rfl
  | wakersEmpty hpc _ => exact .stay hpc rfl rfl
  | wakersUnlock hpc =>
      refine .stay hpc ?_ rfl
      split <;> rfl

end Smp
