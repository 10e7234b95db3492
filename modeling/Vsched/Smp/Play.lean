import Vsched.Foundation.Labelled
import Vsched.Smp.Machine

/-!
# The steps as a function

`perform` runs the task system by choices: which CPU goes on, what a task calls
where its code is free, which position of a ready queue is used, and what is
read from an empty slot. The steps of the machine are exactly what the choices
can bring about, so schedules can be played.
-/

namespace Smp

/-- What a task calls where its code is free. -/
inductive Call
  | spawn (d : Cpu) (t : Task) (i : ℕ)
  | setFlag (n : ℕ) (b : Bool)
  | yield
  | wait (w : Wait)
  | exit (e : ℤ)
  | notify (q : QueueId) (m : Mode)
  | requeue (q : QueueId) (count : ℕ) (target : QueueId)
  | wake (t : Task)
  | notifyWakers (n : ℕ) (all : Bool)
  | wakerBlock (n : ℕ)
  | pending
  deriving DecidableEq, Repr

inductive Choice
  | init (c : Cpu) (m i : Task)
  | initSecondary (c : Cpu) (i : Task)
  | call (c : Cpu) (o : Call)
  /-- The next access of `c`, at position `i` if it is one to a ready queue; an
  empty slot is read as `x`. -/
  | go (c : Cpu) (i : ℕ) (x : Option Task)
  deriving DecidableEq, Repr

variable (kind : Task → Kind)

def call (s : State) (c : Cpu) : Call → Option (Event × State)
  | .spawn d t i =>
      if s.pc d ≠ .off ∧ s.created t = false ∧ (kind t = .thread ∨ kind t = .coroutine) then
        some (.spawn t,
          { s with
            created := Function.update s.created t true
            state := Function.update s.state t .ready
            onCpu := Function.update s.onCpu t false
            ctx := Function.update s.ctx t (some .user)
            ready := Function.update s.ready d
              ((s.ready d).take i ++ t :: (s.ready d).drop i) })
      else none
  | .setFlag n b => some (.setFlag n b, { s with flag := Function.update s.flag n b })
  | .yield => some (.silent, s.go c .yieldAssert)
  | .wait w =>
      if (kind (s.current c)).isCoroutine = false then some (.silent, s.go c (.waitLock w))
      else match w.cond with
        | none => some (.silent, s.go c (.waitLock w))
        | some b => some (.silent, s.go c (.evalUnlocked w b))
  | .exit e => some (.silent, s.go c (.exitAssert e))
  | .notify q m =>
      match m with
      | .exit _ => none
      | _ => some (.notify q m, s.go c (.notifyLock q m))
  | .requeue q count target => some (.silent, s.go c (.requeueLock q count target))
  | .wake t =>
      if (kind t).isCoroutine = true then some (.wake t, s.go c (.wakeCas .direct t)) else none
  | .notifyWakers n all => some (.silent, s.go c (.wakersLock n all))
  | .wakerBlock n =>
      if (kind (s.current c)).isCoroutine = true then some (.silent, s.go c (.wakerLock n))
      else none
  | .pending =>
      if (kind (s.current c)).isCoroutine = true then
        some (.silent, State.go
          { s with ctx := Function.update s.ctx (s.current c) (some .user) } c
          (.afterPoll (s.current c)))
      else none

/-- The next access of CPU `c`. -/
def tick (s : State) (c : Cpu) (i : ℕ) (x : Option Task) : Option (Event × State) :=
  match s.pc c with
  | .off | .halted | .panicked | .run => none
  | .yieldAssert =>
      if s.state (s.current c) = .running then some (.silent, s.go c .yieldCas) else none
  | .yieldCas =>
      if s.state (s.current c) = .running then
        some (.silent, State.go
          { s with state := Function.update s.state (s.current c) .ready } c
          (if (kind (s.current c)).isIdle then .pick (s.via kind c .user) else .yieldPut))
      else some (.silent, s.go c (.pick (s.via kind c .user)))
  | .yieldPut =>
      some (.silent, State.go
        { s with
          ready := Function.update s.ready c
            ((s.ready c).take i ++ s.current c :: (s.ready c).drop i) } c
        (.pick (s.via kind c .user)))
  | .pick v =>
      if s.ready c = [] then some (.silent, s.go c (.assertReady v (s.idle c)))
      else match (s.ready c).drop i with
        | [] => none
        | n :: l =>
            some (.silent, State.go
              { s with ready := Function.update s.ready c ((s.ready c).take i ++ l) } c
              (.assertReady v n))
  | .assertReady v n =>
      if s.state n = .ready then some (.silent, s.go c (.setRunning v n)) else none
  | .setRunning v n =>
      if n = s.current c then
        some (.same v, State.go
          { s with state := Function.update s.state (s.current c) .running } c
          (v.stay (s.current c)))
      else
        some (.silent, State.go
          { s with state := Function.update s.state n .running } c (.setOnCpu v n))
  | .setOnCpu v n =>
      some (.silent, State.go
        { s with onCpu := Function.update s.onCpu n true } c (.replace v n))
  | .replace (.thread k) n =>
      some (.switched (s.current c) n, State.go
        { s with
          prev := Function.update s.prev c (some (s.current c))
          current := Function.update s.current c n } c (.switchTo (s.current c) k))
  | .replace (.future k) n =>
      some (.switched (s.current c) n, State.go
        { s with
          prev := Function.update s.prev c (some (s.current c))
          current := Function.update s.current c n
          ctx := Function.update s.ctx (s.current c) (some k) } c
        (.afterPoll (s.current c)))
  | .replace .schedule n =>
      some (.switched (s.current c) n, State.go
        { s with
          prev := Function.update s.prev c (some (s.current c))
          current := Function.update s.current c n } c (.leave (s.current c)))
  | .switchTo old k =>
      some (.silent, State.go { s with ctx := Function.update s.ctx old (some k) } c
        (if (kind (s.current c)).isCoroutine then .take none
          else resumeContext (Function.update s.ctx old (some k) (s.current c))))
  | .take k =>
      match s.prev c with
      | some t =>
          some (.taken (some t), State.go
            { s with
              prev := Function.update s.prev c none
              onCpu := Function.update s.onCpu t false } c (.checkPrev k (some t)))
      | none =>
          match x with
          | some t =>
              some (.taken (some t), State.go
                { s with
                  prev := Function.update s.prev c none
                  onCpu := Function.update s.onCpu t false } c (.checkPrev k (some t)))
          | none =>
              some (.taken none, State.go
                { s with prev := Function.update s.prev c none } c (.checkPrev k none))
  | .checkPrev k y =>
      match y with
      | some t =>
          if s.state t = .exited then
            some (.released t, s.go c (k.elim .poll Kont.resumeThread))
          else some (.silent, s.go c (k.elim .poll Kont.resumeThread))
      | none => some (.silent, s.go c (k.elim .poll Kont.resumeThread))
  | .poll =>
      match s.ctx (s.current c) with
      | some k => some (.poll (s.current c), s.go c k.resumeCoroutine)
      | none => none
  | .afterPoll t =>
      if s.state t = .running then some (.silent, s.go c (.schedBlocked t))
      else some (.silent, s.go c (.leave t))
  | .schedBlocked t =>
      some (.suspended t, State.go
        { s with state := Function.update s.state t .blocked } c (.pick .schedule))
  | .leave _ =>
      some (.silent, s.go c
        (if (kind (s.current c)).isCoroutine then .take none
          else resumeContext (s.ctx (s.current c))))
  | .waitLock w =>
      if s.lock w.queue = none then
        if (kind (s.current c)).isCoroutine = true then
          some (.silent, State.go
            { s with lock := Function.update s.lock w.queue (some c) } c (.assertRunning w))
        else match w.cond with
          | none =>
              some (.silent, State.go
                { s with lock := Function.update s.lock w.queue (some c) } c
                (.assertRunning w))
          | some b =>
              some (.silent, State.go
                { s with lock := Function.update s.lock w.queue (some c) } c
                (.evalLocked w b))
      else none
  | .evalLocked w b =>
      some (.silent, s.go c (if s.holds b then .waitUnlock w else .assertRunning w))
  | .evalUnlocked w b =>
      some (.silent, s.go c (if s.holds b then .cancelLoad w else .waitLock w))
  | .waitUnlock w =>
      some (.silent, State.go
        { s with lock := Function.update s.lock w.queue none } c (.cancelLoad w))
  | .assertRunning w =>
      if s.state (s.current c) = .running then some (.silent, s.go c (.setBlocked w)) else none
  | .setBlocked w =>
      if (kind (s.current c)).isIdle = false then
        some (.blocked (s.current c) w, State.go
          { s with state := Function.update s.state (s.current c) .blocked } c
          (.setInWaitQueue w))
      else none
  | .setInWaitQueue w =>
      some (.silent, State.go
        { s with inWaitQueue := Function.update s.inWaitQueue (s.current c) true } c
        (.pushBack w))
  | .pushBack w =>
      some (.silent, State.go
        { s with queue :=
            Function.update s.queue w.queue (s.queue w.queue ++ [s.current c]) } c
        (.dropGuard w))
  | .dropGuard w =>
      some (.silent, State.go
        { s with lock := Function.update s.lock w.queue none } c
        (.pick (s.via kind c (.blocked w))))
  | .cancelLoad w =>
      some (.silent, s.go c (if s.inWaitQueue (s.current c) then .cancelLock w else w.done))
  | .cancelLock w =>
      if s.lock w.queue = none then
        some (.silent, State.go
          { s with lock := Function.update s.lock w.queue (some c) } c (.cancelRetain w))
      else none
  | .cancelRetain w =>
      some (.silent, State.go
        { s with queue :=
            Function.update s.queue w.queue ((s.queue w.queue).filter (· ≠ s.current c)) } c
        (.cancelUnlock w))
  | .cancelUnlock w =>
      some (.silent, State.go
        { s with lock := Function.update s.lock w.queue none } c (.cancelClear w))
  | .cancelClear w =>
      some (.silent, State.go
        { s with inWaitQueue := Function.update s.inWaitQueue (s.current c) false } c
        w.done)
  | .loadExitCode t => some (.joined t (s.exitCode t), s.go c .run)
  | .exitAssert e =>
      if s.state (s.current c) = .running then some (.silent, s.go c (.setExited e)) else none
  | .setExited e =>
      if (kind (s.current c)).isIdle = false then
        if (kind (s.current c)).isInit = true then some (.silent, s.go c .halted)
        else
          some (.exited (s.current c) e, State.go
            { s with state := Function.update s.state (s.current c) .exited } c
            (.storeExitCode e))
      else none
  | .storeExitCode e =>
      some (.stored (s.current c) e, State.go
        { s with exitCode := Function.update s.exitCode (s.current c) e } c
        (.notifyLock (.exit (s.current c)) (.exit e)))
  | .notifyLock q m =>
      if s.lock q = none then
        some (.silent, State.go
          { s with lock := Function.update s.lock q (some c) } c (.notifyPop q m))
      else none
  | .notifyPop q m =>
      match m.seeks with
      | some t =>
          if t ∈ s.queue q then
            some (.popped q (some t), State.go
              { s with queue := Function.update s.queue q ((s.queue q).erase t) } c
              (.clearInWaitQueue q m t))
          else some (.popped q none, s.go c (.notifyUnlock q m false))
      | none =>
          match s.queue q with
          | [] => some (.popped q none, s.go c (.notifyUnlock q m false))
          | t :: l =>
              some (.popped q (some t), State.go
                { s with queue := Function.update s.queue q l } c (.clearInWaitQueue q m t))
  | .clearInWaitQueue q m t =>
      some (.silent, State.go
        { s with inWaitQueue := Function.update s.inWaitQueue t false } c
        (.wakeCas (.queue q m) t))
  | .notifyUnlock q m found =>
      some (.notified q m found, State.go
        { s with lock := Function.update s.lock q none } c (s.afterNotify kind c q found m))
  | .requeueLock q count target =>
      if s.lock q = none then
        some (.silent, State.go
          { s with lock := Function.update s.lock q (some c) } c
          (.requeueDrain q count target))
      else none
  | .requeueDrain q count target =>
      some (.drained q ((s.queue q).take count), State.go
        { s with queue := Function.update s.queue q ((s.queue q).drop count) } c
        (.requeueUnlock q ((s.queue q).take count) target))
  | .requeueUnlock q tasks target =>
      some (.silent, State.go
        { s with lock := Function.update s.lock q none } c
        (if tasks = [] then .run else .requeueLockTarget tasks target))
  | .requeueLockTarget tasks target =>
      if s.lock target = none then
        some (.silent, State.go
          { s with lock := Function.update s.lock target (some c) } c
          (.requeueExtend tasks target))
      else none
  | .requeueExtend tasks target =>
      some (.extended target tasks, State.go
        { s with queue := Function.update s.queue target (s.queue target ++ tasks) } c
        (.requeueUnlockTarget target))
  | .requeueUnlockTarget target =>
      some (.silent, State.go
        { s with lock := Function.update s.lock target none } c .run)
  | .wakeCas a t =>
      if s.state t = .blocked then
        some (.woken t true, State.go
          { s with state := Function.update s.state t .ready } c
          (if (kind t).isIdle then a.done else .wakeSpin a t))
      else some (.woken t false, s.go c a.done)
  | .wakeSpin a t => if s.onCpu t = false then some (.silent, s.go c (.wakePut a t)) else none
  | .wakePut a t =>
      some (.queued t, State.go
        { s with
          ready := Function.update s.ready c
            ((s.ready c).take i ++ t :: (s.ready c).drop i) } c a.done)
  | .wakerLock n =>
      if s.wakerLock n = none then
        some (.silent, State.go
          { s with wakerLock := Function.update s.wakerLock n (some c) } c (.wakerPush n))
      else none
  | .wakerPush n =>
      some (.silent, State.go
        { s with wakers := Function.update s.wakers n (s.wakers n ++ [s.current c]) } c
        (.wakerUnlock n))
  | .wakerUnlock n =>
      some (.silent, State.go
        { s with wakerLock := Function.update s.wakerLock n none } c .run)
  | .wakersLock n all =>
      if s.wakerLock n = none then
        some (.silent, State.go
          { s with wakerLock := Function.update s.wakerLock n (some c) } c
          (.wakersPop n all))
      else none
  | .wakersPop n all =>
      match s.wakers n with
      | [] => some (.silent, s.go c (.wakersUnlock n all false))
      | t :: l =>
          some (.wake t, State.go
            { s with wakers := Function.update s.wakers n l } c
            (.wakeCas (.wakers n all) t))
  | .wakersUnlock n all found =>
      some (.silent, State.go
        { s with wakerLock := Function.update s.wakerLock n none } c
        (if all && found then .wakersLock n all else .run))

def perform (s : State) : Choice → Option ((Cpu × Event) × State)
  | .init c m i =>
      if s.pc c = .off ∧ s.created m = false ∧ s.created i = false ∧ kind m = .main ∧
          kind i = .idle then
        some ((c, .boot m i), State.go
          { s with
            created := Function.update (Function.update s.created i true) m true
            state := Function.update (Function.update s.state i .ready) m .running
            onCpu := Function.update (Function.update s.onCpu i false) m true
            ctx := Function.update s.ctx i (some .user)
            current := Function.update s.current c m
            idle := Function.update s.idle c i
            prev := Function.update s.prev c (some m)
            ready := Function.update s.ready c [] } c .run)
      else none
  | .initSecondary c i =>
      if s.pc c = .off ∧ s.created i = false ∧ kind i = .bootIdle then
        some ((c, .boot i i), State.go
          { s with
            created := Function.update (Function.update s.created i true) i true
            state := Function.update (Function.update s.state i .ready) i .running
            onCpu := Function.update (Function.update s.onCpu i false) i true
            current := Function.update s.current c i
            idle := Function.update s.idle c i
            prev := Function.update s.prev c (some i)
            ready := Function.update s.ready c [] } c .run)
      else none
  | .call c o =>
      if s.pc c = .run then (call kind s c o).map fun r => ((c, r.1), r.2) else none
  | .go c i x => (tick kind s c i x).map fun r => ((c, r.1), r.2)

variable {kind} {s s' : State} {c : Cpu} {ev : Event}

theorem call_step {o : Call} (hpc : s.pc c = .run) (hcall : call kind s c o = some (ev, s')) :
    Step kind s (c, ev) s' := by
  cases o with
  | spawn d t i =>
      by_cases hif : s.pc d ≠ .off ∧ s.created t = false ∧ (kind t = .thread ∨ kind t = .coroutine)
      · simp only [call, if_pos hif, Option.some.injEq, Prod.mk.injEq] at hcall
        obtain ⟨rfl, rfl⟩ := hcall
        exact .spawn hpc hif.1 hif.2.1 hif.2.2 (List.take_append_drop _ _).symm
      · simp [call, if_neg hif] at hcall
  | setFlag n b =>
      cases hcall
      exact .setFlag hpc
  | yield =>
      cases hcall
      exact .yield hpc
  | wait w =>
      cases hk : (kind (s.current c)).isCoroutine with
      | false =>
          rw [call, if_pos hk] at hcall
          cases hcall
          exact .wait hpc (.inl hk)
      | true =>
          rw [call, if_neg (by simp [hk])] at hcall
          cases hw : w.cond with
          | none =>
              simp only [hw] at hcall
              cases hcall
              exact .wait hpc (.inr hw)
          | some b =>
              simp only [hw] at hcall
              cases hcall
              exact .waitUntilF hpc hk hw
  | exit e =>
      cases hcall
      exact .exit hpc
  | notify q m =>
      cases m with
      | exit e => cases hcall
      | _ =>
          cases hcall
          exact .notify hpc (by simp)
  | requeue q count target =>
      cases hcall
      exact .requeue hpc
  | wake t =>
      by_cases hif : (kind t).isCoroutine = true
      · rw [call, if_pos hif] at hcall
        cases hcall
        exact .wake hpc hif
      · rw [call, if_neg hif] at hcall
        cases hcall
  | notifyWakers n all =>
      cases hcall
      exact .notifyWakers hpc
  | wakerBlock n =>
      by_cases hif : (kind (s.current c)).isCoroutine = true
      · rw [call, if_pos hif] at hcall
        cases hcall
        exact .wakerBlock hpc hif
      · rw [call, if_neg hif] at hcall
        cases hcall
  | pending =>
      by_cases hif : (kind (s.current c)).isCoroutine = true
      · rw [call, if_pos hif] at hcall
        cases hcall
        exact .pending hpc hif
      · rw [call, if_neg hif] at hcall
        cases hcall

theorem tick_step {i : ℕ} {x : Option Task} (htick : tick kind s c i x = some (ev, s')) :
    Step kind s (c, ev) s' := by
  unfold tick at htick
  cases hpc : s.pc c <;> simp only [hpc] at htick
  case off | halted | panicked | run => cases htick
  case yieldAssert =>
      split at htick
      case isTrue h =>
        cases htick
        exact .yieldAssert hpc h
      case isFalse h =>
        cases htick
  case yieldCas =>
      split at htick
      case isTrue h =>
        cases htick
        exact .yieldCas hpc h
      case isFalse h =>
        cases htick
        exact .yieldCasFail hpc h
  case yieldPut =>
      cases htick
      exact .yieldPut hpc (List.take_append_drop _ _).symm
  case pick v =>
      split at htick
      case isTrue h =>
        cases htick
        exact .pickIdle hpc h
      case isFalse =>
        split at htick
        · cases htick
        case h_2 n l h =>
          cases htick
          refine .pick hpc ?_
          rw [← h, List.take_append_drop]
  case assertReady v n =>
      split at htick
      case isTrue h =>
        cases htick
        exact .assertReady hpc h
      case isFalse h =>
        cases htick
  case setRunning v n =>
      split at htick
      case isTrue h =>
        subst h
        cases htick
        exact .setRunningSame hpc
      case isFalse h =>
        cases htick
        exact .setRunning hpc h
  case setOnCpu v n =>
      cases htick
      exact .setOnCpu hpc
  case replace v n =>
      cases v with
      | thread k =>
          cases htick
          exact .replaceThread hpc
      | future k =>
          cases htick
          exact .replaceFuture hpc
      | schedule =>
          cases htick
          exact .replaceSchedule hpc
  case switchTo old k =>
      cases htick
      exact .switchTo hpc
  case take k =>
      cases hprev : s.prev c with
      | some t =>
          simp only [hprev] at htick
          cases htick
          exact .take hpc hprev
      | none =>
          simp only [hprev] at htick
          cases x with
          | some t =>
              cases htick
              exact .takeEmpty hpc hprev
          | none =>
              cases htick
              exact .takeNothing hpc hprev
  case checkPrev k y =>
      cases y with
      | some t =>
          simp only at htick
          split at htick
          case isTrue h =>
            cases htick
            exact .checkPrevExited hpc h
          case isFalse h =>
            cases htick
            refine .checkPrev hpc ?_
            rintro u hu
            cases hu
            exact h
      | none =>
          cases htick
          exact .checkPrev hpc (by simp)
  case poll =>
      split at htick
      case h_1 k h =>
        cases htick
        exact .poll hpc h
      · cases htick
  case afterPoll t =>
      split at htick
      case isTrue h =>
        cases htick
        exact .afterPollRunning hpc h
      case isFalse h =>
        cases htick
        exact .afterPoll hpc h
  case schedBlocked t =>
      cases htick
      exact .schedBlocked hpc
  case leave t =>
      cases htick
      exact .leave hpc
  case waitLock w =>
      split at htick
      case isTrue hlock =>
        split at htick
        case isTrue hk =>
          cases htick
          exact .waitLock hpc hlock (.inr hk)
        case isFalse hk =>
          split at htick
          case h_1 hw =>
            cases htick
            exact .waitLock hpc hlock (.inl hw)
          case h_2 b hw =>
            cases htick
            exact .waitLockUntil hpc hlock hw (by simpa using hk)
      case isFalse =>
        cases htick
  case evalLocked w b =>
      cases htick
      exact .evalLocked hpc
  case evalUnlocked w b =>
      cases htick
      exact .evalUnlocked hpc
  case waitUnlock w =>
      cases htick
      exact .waitUnlock hpc
  case assertRunning w =>
      split at htick
      case isTrue h =>
        cases htick
        exact .assertRunning hpc h
      case isFalse h =>
        cases htick
  case setBlocked w =>
      split at htick
      case isTrue h =>
        cases htick
        exact .setBlocked hpc h
      case isFalse h =>
        cases htick
  case setInWaitQueue w =>
      cases htick
      exact .setInWaitQueue hpc
  case pushBack w =>
      cases htick
      exact .pushBack hpc
  case dropGuard w =>
      cases htick
      exact .dropGuard hpc
  case cancelLoad w =>
      cases htick
      exact .cancelLoad hpc
  case cancelLock w =>
      split at htick
      case isTrue h =>
        cases htick
        exact .cancelLock hpc h
      case isFalse h =>
        cases htick
  case cancelRetain w =>
      cases htick
      exact .cancelRetain hpc
  case cancelUnlock w =>
      cases htick
      exact .cancelUnlock hpc
  case cancelClear w =>
      cases htick
      exact .cancelClear hpc
  case loadExitCode t =>
      cases htick
      exact .loadExitCode hpc
  case exitAssert e =>
      split at htick
      case isTrue h =>
        cases htick
        exact .exitAssert hpc h
      case isFalse h =>
        cases htick
  case setExited e =>
      split at htick
      case isTrue hidle =>
        split at htick
        case isTrue hinit =>
          cases htick
          exact .mainTaskExit hpc hidle hinit
        case isFalse hinit =>
          cases htick
          exact .setExited hpc hidle (by simpa using hinit)
      case isFalse =>
        cases htick
  case storeExitCode e =>
      cases htick
      exact .storeExitCode hpc
  case notifyLock q m =>
      split at htick
      case isTrue h =>
        cases htick
        exact .notifyLock hpc h
      case isFalse h =>
        cases htick
  case notifyPop q m =>
      split at htick
      case h_1 t hm =>
        obtain rfl := Mode.seeks_eq_some.mp hm
        split at htick
        case isTrue h =>
          cases htick
          exact .notifyRemove hpc h
        case isFalse h =>
          cases htick
          exact .notifyMissing hpc h
      case h_2 hm =>
        split at htick
        case h_1 h =>
          cases htick
          exact .notifyEmpty hpc hm h
        case h_2 t l h =>
          cases htick
          exact .notifyPop hpc hm h
  case clearInWaitQueue q m t =>
      cases htick
      exact .clearInWaitQueue hpc
  case notifyUnlock q m found =>
      cases htick
      exact .notifyUnlock hpc
  case requeueLock q count target =>
      split at htick
      case isTrue h =>
        cases htick
        exact .requeueLock hpc h
      case isFalse h =>
        cases htick
  case requeueDrain q count target =>
      cases htick
      exact .requeueDrain hpc
  case requeueUnlock q tasks target =>
      cases htick
      exact .requeueUnlock hpc
  case requeueLockTarget tasks target =>
      split at htick
      case isTrue h =>
        cases htick
        exact .requeueLockTarget hpc h
      case isFalse h =>
        cases htick
  case requeueExtend tasks target =>
      cases htick
      exact .requeueExtend hpc
  case requeueUnlockTarget target =>
      cases htick
      exact .requeueUnlockTarget hpc
  case wakeCas a t =>
      split at htick
      case isTrue h =>
        cases htick
        exact .wakeCas hpc h
      case isFalse h =>
        cases htick
        exact .wakeCasFail hpc h
  case wakeSpin a t =>
      split at htick
      case isTrue h =>
        cases htick
        exact .wakeSpin hpc h
      case isFalse h =>
        cases htick
  case wakePut a t =>
      cases htick
      exact .wakePut hpc (List.take_append_drop _ _).symm
  case wakerLock n =>
      split at htick
      case isTrue h =>
        cases htick
        exact .wakerLock hpc h
      case isFalse h =>
        cases htick
  case wakerPush n =>
      cases htick
      exact .wakerPush hpc
  case wakerUnlock n =>
      cases htick
      exact .wakerUnlock hpc
  case wakersLock n all =>
      split at htick
      case isTrue h =>
        cases htick
        exact .wakersLock hpc h
      case isFalse h =>
        cases htick
  case wakersPop n all =>
      split at htick
      case h_1 h =>
        cases htick
        exact .wakersEmpty hpc h
      case h_2 t l h =>
        cases htick
        exact .wakersPop hpc h
  case wakersUnlock n all found =>
      cases htick
      exact .wakersUnlock hpc

theorem tick_perform {i : ℕ} {x : Option Task} (htick : tick kind s c i x = some (ev, s')) :
    ∃ k, perform kind s k = some ((c, ev), s') :=
  ⟨.go c i x, by simp [perform, htick]⟩

/-- What the choices bring about are the steps of the machine. -/
theorem perform_iff_step {a : Cpu × Event} :
    (∃ k, perform kind s k = some (a, s')) ↔ Step kind s a s' := by
  constructor
  · rintro ⟨k, hk⟩
    cases k with
    | init c m i =>
        by_cases hif : s.pc c = .off ∧ s.created m = false ∧ s.created i = false ∧
            kind m = .main ∧ kind i = .idle
        · rw [perform, if_pos hif] at hk
          cases hk
          exact .initVsched hif.1 hif.2.1 hif.2.2.1 hif.2.2.2.1 hif.2.2.2.2
        · rw [perform, if_neg hif] at hk
          cases hk
    | initSecondary c i =>
        by_cases hif : s.pc c = .off ∧ s.created i = false ∧ kind i = .bootIdle
        · rw [perform, if_pos hif] at hk
          cases hk
          exact .initVschedSecondary hif.1 hif.2.1 hif.2.2
        · rw [perform, if_neg hif] at hk
          cases hk
    | call c o =>
        by_cases hif : s.pc c = .run
        · rw [perform, if_pos hif] at hk
          obtain ⟨r, hr, hra⟩ := Option.map_eq_some_iff.mp hk
          cases hra
          exact call_step hif hr
        · rw [perform, if_neg hif] at hk
          cases hk
    | go c i x =>
        obtain ⟨r, hr, hra⟩ := Option.map_eq_some_iff.mp hk
        cases hra
        exact tick_step hr
  · intro hstep
    cases hstep with
    | @initVsched c m i hoff hm hi hkm hki =>
        exact ⟨.init c m i, if_pos ⟨hoff, hm, hi, hkm, hki⟩⟩
    | @initVschedSecondary c i hoff hi hki =>
        exact ⟨.initSecondary c i, if_pos ⟨hoff, hi, hki⟩⟩
    | @spawn c d t l l' hpc hd hnew hkind hready =>
        exact ⟨.call c (.spawn d t l.length), by simp [perform, call, hpc, hd, hnew, hkind, hready]⟩
    | @setFlag c n b hpc => exact ⟨.call c (.setFlag n b), by simp [perform, call, hpc]⟩
    | @yield c hpc => exact ⟨.call c .yield, by simp [perform, call, hpc]⟩
    | @wait c w hpc hw =>
        refine ⟨.call c (.wait w), ?_⟩
        rcases hw with hw | hw <;> simp [perform, call, hpc, hw]
    | @waitUntilF c w b hpc hk hw =>
        exact ⟨.call c (.wait w), by simp [perform, call, hpc, hk, hw]⟩
    | @exit c e hpc => exact ⟨.call c (.exit e), by simp [perform, call, hpc]⟩
    | @notify c q m hpc hm =>
        refine ⟨.call c (.notify q m), ?_⟩
        cases m with
        | exit e => exact absurd rfl (hm e)
        | _ => simp [perform, call, hpc]
    | @requeue c q target count hpc =>
        exact ⟨.call c (.requeue q count target), by simp [perform, call, hpc]⟩
    | @wake c t hpc hk => exact ⟨.call c (.wake t), by simp [perform, call, hpc, hk]⟩
    | @notifyWakers c n all hpc =>
        exact ⟨.call c (.notifyWakers n all), by simp [perform, call, hpc]⟩
    | @wakerBlock c n hpc hk => exact ⟨.call c (.wakerBlock n), by simp [perform, call, hpc, hk]⟩
    | @pending c hpc hk => exact ⟨.call c .pending, by simp [perform, call, hpc, hk]⟩
    | @yieldPut c l l' hpc hready =>
        exact tick_perform (i := l.length) (x := none) (by simp [tick, hpc, hready])
    | @pick c v n l l' hpc hready =>
        exact tick_perform (i := l.length) (x := none) (by simp [tick, hpc, hready])
    | @wakePut c b t l l' hpc hready =>
        exact tick_perform (i := l.length) (x := none) (by simp [tick, hpc, hready])
    | @takeEmpty c k t hpc hprev =>
        exact tick_perform (i := 0) (x := (some t)) (by simp [tick, hpc, hprev])
    | takeNothing hpc hprev =>
        exact tick_perform (i := 0) (x := none) (by simp [tick, hpc, hprev])
    | @checkPrev c k x hpc hx =>
        refine tick_perform (i := 0) (x := none) ?_
        cases x with
        | none => simp [tick, hpc]
        | some t => simp [tick, hpc, hx t rfl]
    | @waitLock c w hpc hlock hw =>
        refine tick_perform (i := 0) (x := none) ?_
        cases hk : (kind (s.current c)).isCoroutine with
        | true => simp [tick, hpc, hlock, hk]
        | false =>
            have hnone : w.cond = none := hw.resolve_right (by simp [hk])
            simp [tick, hpc, hlock, hk, hnone]
    | waitLockUntil hpc hlock hw hk =>
        exact tick_perform (i := 0) (x := none) (by simp [tick, hpc, hlock, hw, hk])
    | yieldAssert hpc h => exact tick_perform (i := 0) (x := none) (by simp [tick, hpc, h])
    | yieldCas hpc h => exact tick_perform (i := 0) (x := none) (by simp [tick, hpc, h])
    | yieldCasFail hpc h => exact tick_perform (i := 0) (x := none) (by simp [tick, hpc, h])
    | assertReady hpc h => exact tick_perform (i := 0) (x := none) (by simp [tick, hpc, h])
    | setRunningSame hpc => exact tick_perform (i := 0) (x := none) (by simp [tick, hpc])
    | setRunning hpc h => exact tick_perform (i := 0) (x := none) (by simp [tick, hpc, h])
    | setOnCpu hpc => exact tick_perform (i := 0) (x := none) (by simp [tick, hpc])
    | replaceThread hpc => exact tick_perform (i := 0) (x := none) (by simp [tick, hpc])
    | replaceFuture hpc => exact tick_perform (i := 0) (x := none) (by simp [tick, hpc])
    | replaceSchedule hpc => exact tick_perform (i := 0) (x := none) (by simp [tick, hpc])
    | switchTo hpc => exact tick_perform (i := 0) (x := none) (by simp [tick, hpc])
    | take hpc h => exact tick_perform (i := 0) (x := none) (by simp [tick, hpc, h])
    | checkPrevExited hpc h => exact tick_perform (i := 0) (x := none) (by simp [tick, hpc, h])
    | poll hpc h => exact tick_perform (i := 0) (x := none) (by simp [tick, hpc, h])
    | afterPollRunning hpc h => exact tick_perform (i := 0) (x := none) (by simp [tick, hpc, h])
    | afterPoll hpc h => exact tick_perform (i := 0) (x := none) (by simp [tick, hpc, h])
    | schedBlocked hpc => exact tick_perform (i := 0) (x := none) (by simp [tick, hpc])
    | leave hpc => exact tick_perform (i := 0) (x := none) (by simp [tick, hpc])
    | evalLocked hpc => exact tick_perform (i := 0) (x := none) (by simp [tick, hpc])
    | evalUnlocked hpc => exact tick_perform (i := 0) (x := none) (by simp [tick, hpc])
    | waitUnlock hpc => exact tick_perform (i := 0) (x := none) (by simp [tick, hpc])
    | assertRunning hpc h => exact tick_perform (i := 0) (x := none) (by simp [tick, hpc, h])
    | setBlocked hpc h => exact tick_perform (i := 0) (x := none) (by simp [tick, hpc, h])
    | setInWaitQueue hpc => exact tick_perform (i := 0) (x := none) (by simp [tick, hpc])
    | pushBack hpc => exact tick_perform (i := 0) (x := none) (by simp [tick, hpc])
    | dropGuard hpc => exact tick_perform (i := 0) (x := none) (by simp [tick, hpc])
    | cancelLoad hpc => exact tick_perform (i := 0) (x := none) (by simp [tick, hpc])
    | cancelLock hpc h => exact tick_perform (i := 0) (x := none) (by simp [tick, hpc, h])
    | cancelRetain hpc => exact tick_perform (i := 0) (x := none) (by simp [tick, hpc])
    | cancelUnlock hpc => exact tick_perform (i := 0) (x := none) (by simp [tick, hpc])
    | cancelClear hpc => exact tick_perform (i := 0) (x := none) (by simp [tick, hpc])
    | loadExitCode hpc => exact tick_perform (i := 0) (x := none) (by simp [tick, hpc])
    | exitAssert hpc h => exact tick_perform (i := 0) (x := none) (by simp [tick, hpc, h])
    | mainTaskExit hpc h h' => exact tick_perform (i := 0) (x := none) (by simp [tick, hpc, h, h'])
    | setExited hpc h h' => exact tick_perform (i := 0) (x := none) (by simp [tick, hpc, h, h'])
    | storeExitCode hpc => exact tick_perform (i := 0) (x := none) (by simp [tick, hpc])
    | notifyLock hpc h => exact tick_perform (i := 0) (x := none) (by simp [tick, hpc, h])
    | notifyPop hpc hm h => exact tick_perform (i := 0) (x := none) (by simp [tick, hpc, hm, h])
    | notifyEmpty hpc hm h => exact tick_perform (i := 0) (x := none) (by simp [tick, hpc, hm, h])
    | notifyRemove hpc h =>
        exact tick_perform (i := 0) (x := none) (by simp [tick, hpc, h, Mode.seeks])
    | notifyMissing hpc h =>
        exact tick_perform (i := 0) (x := none) (by simp [tick, hpc, h, Mode.seeks])
    | requeueLock hpc h => exact tick_perform (i := 0) (x := none) (by simp [tick, hpc, h])
    | requeueDrain hpc => exact tick_perform (i := 0) (x := none) (by simp [tick, hpc])
    | requeueUnlock hpc => exact tick_perform (i := 0) (x := none) (by simp [tick, hpc])
    | requeueLockTarget hpc h => exact tick_perform (i := 0) (x := none) (by simp [tick, hpc, h])
    | requeueExtend hpc => exact tick_perform (i := 0) (x := none) (by simp [tick, hpc])
    | requeueUnlockTarget hpc => exact tick_perform (i := 0) (x := none) (by simp [tick, hpc])
    | clearInWaitQueue hpc => exact tick_perform (i := 0) (x := none) (by simp [tick, hpc])
    | notifyUnlock hpc => exact tick_perform (i := 0) (x := none) (by simp [tick, hpc])
    | wakeCas hpc h => exact tick_perform (i := 0) (x := none) (by simp [tick, hpc, h])
    | wakeCasFail hpc h => exact tick_perform (i := 0) (x := none) (by simp [tick, hpc, h])
    | wakeSpin hpc h => exact tick_perform (i := 0) (x := none) (by simp [tick, hpc, h])
    | wakerLock hpc h => exact tick_perform (i := 0) (x := none) (by simp [tick, hpc, h])
    | wakerPush hpc => exact tick_perform (i := 0) (x := none) (by simp [tick, hpc])
    | wakerUnlock hpc => exact tick_perform (i := 0) (x := none) (by simp [tick, hpc])
    | wakersLock hpc h => exact tick_perform (i := 0) (x := none) (by simp [tick, hpc, h])
    | wakersPop hpc h => exact tick_perform (i := 0) (x := none) (by simp [tick, hpc, h])
    | wakersEmpty hpc h => exact tick_perform (i := 0) (x := none) (by simp [tick, hpc, h])
    | wakersUnlock hpc => exact tick_perform (i := 0) (x := none) (by simp [tick, hpc])
    | pickIdle hpc h => exact tick_perform (i := 0) (x := none) (by simp [tick, hpc, h])

section Play

variable (kind : Task → Kind) (G : History → State → Cpu × Event → Prop)
  [∀ h s a, Decidable (G h s a)]

/-- The run that a list of choices leads to from `s₀`, if its steps meet the guard. -/
def playFrom (s₀ : State) (ks : List Choice) : Option (History × State) :=
  Labelled.play (perform kind) G ks [] s₀

theorem playFrom_run {s₀ : State} {ks : List Choice} {r : History × State}
    (hplay : playFrom kind G s₀ ks = some r) : ((machine kind).after s₀).RunOf G r.1 r.2 :=
  .play (fun _ k _ _ hk => perform_iff_step.mp ⟨k, hk⟩) (.start rfl) hplay

/-- The run that a list of choices leads to. -/
def playAll (ks : List Choice) : Option (History × State) :=
  playFrom kind G State.init ks

theorem playAll_run {ks : List Choice} {r : History × State}
    (hplay : playAll kind G ks = some r) : (machine kind).RunOf G r.1 r.2 :=
  playFrom_run kind G hplay

end Play

/-- The next `n` accesses of CPU `c`. -/
def goes (c : Cpu) (n : ℕ) : List Choice :=
  List.replicate n (.go c 0 none)

/-- The tasks of one CPU: `main`, its idle task, and threads. -/
def oneCpu : Task → Kind
  | 0 => .main
  | 1 => .idle
  | _ => .thread

/-- `main` and `idle` of CPU 0, the idle task of CPU 1, and threads. -/
def twoCpus : Task → Kind
  | 0 => .main
  | 1 => .idle
  | 2 => .bootIdle
  | _ => .thread

/-- Both CPUs start, and CPU 1 goes on to a new thread, 3. -/
def bootTwo : List Choice :=
  [.init 0 0 1, .initSecondary 1 2, .call 0 (.spawn 1 3 0), .call 1 .yield] ++ goes 1 10

end Smp
