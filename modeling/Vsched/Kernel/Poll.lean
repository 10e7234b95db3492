import Vsched.Kernel.Queued

/-!
# A poll that reaches several futures

A future may poll several of the crate's own futures in one poll, as a join does. Each of
them finds its task through the current task of the CPU, and the first one that is left
pending has replaced it. The poll acts on its own task only while nothing is polled behind
the future that has left the CPU, and while the task that it leaves has a place.
-/

namespace Kernel

open Sched (BaseScheduler TaskState Store)

variable {σ : Type*} {B : BaseScheduler σ Task} {queue : σ → List Task} {I : σ → Prop}
  {stores : σ → Sched.Call Task → Prop} {waiting : Prop} {kind : ℕ → Kind} {s s' : State σ}
  {v v₁ v' : View σ} {t u next : Task} {known : Task → Prop} {sch : σ} {b : Bool}

/-- A pending future of the crate inside the future that is polled. -/
inductive Inner
  /-- `YieldFuture`. -/
  | yield
  /-- `BlockedReschedFuture`, of `wait_f` or of `wait_until_f` while its condition fails. -/
  | block (q : QueueId)
  deriving DecidableEq, Repr

section Poll

variable (B)

/-- The first poll of a future up to `resched_f`. -/
def View.leaveFor (v : View σ) : Inner → Option (View σ)
  | .yield => v.yieldCurrent B
  | .block q => v.blockCurrent q

/-- The first poll of a future, which is pending if the current task has been replaced. -/
def View.pollInner (v : View σ) (x : Inner) : Option (View σ × Bool) :=
  (v.leaveFor B x).bind fun v' => v'.reschedF B

/-- What `coroutine_schedule` does when the task it has polled is still running. The list
holds the tasks that have been picked. -/
def View.repair (v : View σ) (t : Task) : Option (View σ × List Task) :=
  if v.isRunning t then ((v.setState t .blocked).reschedF B).map fun r => (r.1, [r.1.current])
  else some (v, [])

/-- The poll of the coroutine `t` that reaches the futures of a list one after another, up to
the place where `coroutine_schedule` leaves `t`, with the tasks that have been picked. -/
def View.pollCoroutine (t : Task) : List Inner → View σ → Option (View σ × List Task)
  | [], v => v.repair B t
  | x :: xs, v => (v.pollInner B x).bind fun r =>
      (View.pollCoroutine t xs r.1).map fun p => (p.1, r.1.current :: p.2)

/-- The scheduler after `t` has yielded, if it picks `t` again. -/
def givenBack (sch : σ) (t : Task) : Option σ :=
  (B.putPrevTask sch t false).bind fun sch₁ =>
    (B.pickNextTask sch₁).bind fun r => if r.2 = some t then some r.1 else none

/-- The futures are polled while `t` is current, and the one that leaves it is the last: a
wait, or a yield after which the scheduler stores `t` and picks another task. A `t` that none
of them leaves is `waiting` in a queue already. -/
def LastLeaves (stores : σ → Sched.Call Task → Prop) (waiting : Prop) (t : Task) :
    List Inner → σ → Prop
  | [], _ => waiting
  | .yield :: xs, sch =>
      match givenBack B sch t with
      | some sch' => LastLeaves stores waiting t xs sch'
      | none => xs = [] ∧ stores sch (.putPrevTask t false)
  | .block _ :: xs, _ => xs = []

end Poll

/-- A poll acts only on the task that is polled. To pick this task again is not to choose a
next task. -/
structure ActsOnlyOn (queue : σ → List Task) (t : Task) (v v' : View σ) (picked : List Task) :
    Prop where
  blocked : ∀ u, u ≠ t → v'.state u = .blocked → v.state u = .blocked
  waits : ∀ u q, u ≠ t → (v'.queue q).count u ≤ (v.queue q).count u
  next : ∃ next, picked.filter (· ≠ t) = [next] ∧ v'.current = next ∧
    ∀ u, v'.state u = .running ↔ u = next
  self : v'.state t = .ready ∧ t ∈ queue v'.scheduler ∨
    v'.state t = .blocked ∧ ∃ q, t ∈ v'.queue q

namespace View

/-- The state in which a future leaves its task. -/
def leftAs : Inner → TaskState
  | .yield => .ready
  | .block _ => .blocked

/-- What a future does to the current task before it reschedules. -/
structure LeftFor (x : Inner) (v v₁ : View σ) : Prop where
  current : v₁.current = v.current
  before : v.state v.current = .running
  state : v₁.state = Function.update v.state v.current (leftAs x)
  waits : ∀ q, v₁.queue q = v.queue q ∨
    x = .block q ∧ v₁.queue q = v.queue q ++ [v.current]

theorem leaveFor_eq {x : Inner} (h : v.leaveFor B x = some v₁) : v.LeftFor x v₁ := by
  cases x with
  | yield =>
      obtain ⟨hrunning, ⟨-, rfl⟩ | ⟨-, sch, -, rfl⟩⟩ := yieldCurrent_eq h
      · exact ⟨rfl, hrunning, rfl, fun _ => .inl rfl⟩
      · exact ⟨rfl, hrunning, rfl, fun _ => .inl rfl⟩
  | block q =>
      obtain ⟨hrunning, -, rfl⟩ := blockCurrent_eq h
      refine ⟨rfl, hrunning, rfl, fun q' => ?_⟩
      by_cases hq : q' = q
      · subst hq
        exact .inr ⟨rfl, by simp [setQueue, setInWaitQueue, setState]⟩
      · exact .inl (by simp [setQueue, setInWaitQueue, setState, hq])

/-- The next task is current and runs; the rest is as the future has left it. -/
structure TakenOver (next : Task) (v₁ v' : View σ) : Prop where
  current : v'.current = next
  ready : v₁.state next = .ready
  state : v'.state = Function.update v₁.state next .running
  waits : v'.queue = v₁.queue

theorem reschedF_takenOver (h : v₁.reschedF B = some (v', b)) :
    ∃ sch next, Picks B v₁ sch next ∧ v'.scheduler = sch ∧ TakenOver next v₁ v' := by
  obtain ⟨sch, next, hpicks, ⟨hsame, -, rfl⟩ | ⟨-, -, rfl⟩⟩ := reschedF_eq h
  · exact ⟨sch, next, hpicks, rfl, hsame, hpicks.ready, rfl, rfl⟩
  · exact ⟨sch, next, hpicks, rfl, rfl, hpicks.ready, rfl, rfl⟩

theorem pollInner_eq {x : Inner} (h : v.pollInner B x = some (v', b)) :
    ∃ v₁ sch next, v.leaveFor B x = some v₁ ∧ v.LeftFor x v₁ ∧ Picks B v₁ sch next ∧
      v'.scheduler = sch ∧ TakenOver next v₁ v' := by
  obtain ⟨v₁, hleave, hresched⟩ := Option.bind_eq_some_iff.mp h
  obtain ⟨sch, next, hpicks, hscheduler, htaken⟩ := reschedF_takenOver hresched
  exact ⟨v₁, sch, next, hleave, leaveFor_eq hleave, hpicks, hscheduler, htaken⟩

theorem TakenOver.blocked (h : TakenOver next v₁ v') (hu : v₁.state u = .blocked) :
    v'.state u = .blocked := by
  have hne : u ≠ next := by
    rintro rfl
    rw [h.ready] at hu
    cases hu
  rw [h.state, Function.update_of_ne hne]
  exact hu

/-- No future wakes a task. -/
theorem pollInner_blocked {x : Inner} (h : v.pollInner B x = some (v', b))
    (hu : v.state u = .blocked) : v'.state u = .blocked := by
  obtain ⟨v₁, sch, next, -, hleft, -, -, htaken⟩ := pollInner_eq h
  have hne : u ≠ v.current := by
    rintro rfl
    rw [hleft.before] at hu
    cases hu
  refine htaken.blocked ?_
  rw [hleft.state, Function.update_of_ne hne]
  exact hu

theorem repair_blocked {picks : List Task} (h : v.repair B t = some (v', picks))
    (hu : v.state u = .blocked) : v'.state u = .blocked := by
  unfold View.repair at h
  split_ifs at h with hrunning
  · obtain ⟨⟨v₂, b⟩, hresched, hpair⟩ := Option.map_eq_some_iff.mp h
    obtain ⟨rfl, -⟩ := Prod.mk.inj hpair
    obtain ⟨sch, next, -, -, htaken⟩ := reschedF_takenOver hresched
    refine htaken.blocked ?_
    by_cases hut : u = t
    · simp [View.setState, hut]
    · simpa [View.setState, hut] using hu
  · obtain ⟨rfl, -⟩ := Prod.mk.inj (Option.some.inj h)
    exact hu

theorem pollCoroutine_cons {x : Inner} {xs : List Inner} {picks : List Task}
    (h : View.pollCoroutine B t (x :: xs) v = some (v', picks)) :
    ∃ v₂ b picks', v.pollInner B x = some (v₂, b) ∧
      View.pollCoroutine B t xs v₂ = some (v', picks') ∧ picks = v₂.current :: picks' := by
  obtain ⟨⟨v₂, b⟩, hpoll, hmap⟩ := Option.bind_eq_some_iff.mp h
  obtain ⟨⟨v₃, picks'⟩, hrest, hpair⟩ := Option.map_eq_some_iff.mp hmap
  obtain ⟨rfl, rfl⟩ := Prod.mk.inj hpair
  exact ⟨v₂, b, picks', hpoll, hrest, rfl⟩

theorem pollCoroutine_blocked {xs : List Inner} {picks : List Task}
    (h : View.pollCoroutine B t xs v = some (v', picks)) (hu : v.state u = .blocked) :
    v'.state u = .blocked := by
  induction xs generalizing v picks with
  | nil => exact repair_blocked h hu
  | cons x xs ih =>
      obtain ⟨v₂, b, picks', hpoll, hrest, -⟩ := pollCoroutine_cons h
      exact ih hrest (pollInner_blocked hpoll hu)

/-- A task that is no longer running is left alone. -/
theorem repair_left (h : v.state t ≠ .running) : v.repair B t = some (v, []) := by
  simp [View.repair, View.isRunning, h]

/-- A task that is still running is blocked, and another task is picked. -/
theorem repair_running {picks : List Task} (h : v.repair B t = some (v', picks))
    (hrunning : v.state t = .running) :
    v'.state t = .blocked ∧ v'.queue = v.queue ∧ ∃ next, picks = [next] ∧ next ≠ t := by
  unfold View.repair at h
  rw [if_pos (by simp [View.isRunning, hrunning])] at h
  obtain ⟨⟨v₂, b⟩, hresched, hpair⟩ := Option.map_eq_some_iff.mp h
  obtain ⟨rfl, rfl⟩ := Prod.mk.inj hpair
  obtain ⟨sch, next, -, -, htaken⟩ := reschedF_takenOver hresched
  have hblocked : (v.setState t .blocked).state t = .blocked := by simp [View.setState]
  refine ⟨htaken.blocked hblocked, htaken.waits, _, rfl, ?_⟩
  rw [show v₂.current = next from htaken.current]
  rintro rfl
  have hready := htaken.ready
  rw [hblocked] at hready
  cases hready

/-- While the polled task is current and runs, another task is picked before it is left. -/
theorem pollCoroutine_picks {xs : List Inner} {picks : List Task}
    (h : View.pollCoroutine B t xs v = some (v', picks)) (hcurrent : v.current = t)
    (hrunning : v.state t = .running) : ∃ next ∈ picks, next ≠ t := by
  induction xs generalizing v picks with
  | nil =>
      obtain ⟨-, -, next, rfl, hne⟩ := repair_running h hrunning
      exact ⟨next, by simp, hne⟩
  | cons x xs ih =>
      obtain ⟨v₂, b, picks', hpoll, hrest, rfl⟩ := pollCoroutine_cons h
      obtain ⟨v₁, sch, next, -, -, -, -, htaken⟩ := pollInner_eq hpoll
      by_cases hne : v₂.current = t
      · have hstate : v₂.state t = .running := by
          rw [htaken.state, ← htaken.current, hne, Function.update_self]
        obtain ⟨next', hmem, hne'⟩ := ih hrest hne hstate
        exact ⟨next', List.mem_cons_of_mem _ hmem, hne'⟩
      · exact ⟨v₂.current, by simp, hne⟩

/-- Whether the scheduler picks the task that has yielded again. -/
theorem givenBack_eq (hyield : v.yieldCurrent B = some v₁) (hidle : v.current.isIdle = false)
    (hpicks : Picks B v₁ sch next) :
    givenBack B v.scheduler v.current = if next = v.current then some sch else none := by
  obtain ⟨-, ⟨hno, -⟩ | ⟨-, sch₁, hput, rfl⟩⟩ := yieldCurrent_eq hyield
  · rw [hidle] at hno
    cases hno
  obtain ⟨x, hpick, rfl⟩ := hpicks.pick
  have hpick' : B.pickNextTask sch₁ = some (sch, x) := hpick
  have hagain : x = some v.current ↔ x.getD .idle = v.current := by
    cases x with
    | some u => simp
    | none => simp [(Task.ne_idle hidle).symm]
  simp only [givenBack, hput, Option.bind_some, hpick', hagain]

/-- After a yield that picks the task again, only the scheduler has changed. -/
theorem pollInner_again (h : v.pollInner B .yield = some (v', b)) (hidle : v.current.isIdle = false)
    (hagain : givenBack B v.scheduler v.current = some sch) : v' = { v with scheduler := sch } := by
  obtain ⟨v₁, hleave, hresched⟩ := Option.bind_eq_some_iff.mp h
  obtain ⟨sch', next, hpicks, hcases⟩ := reschedF_eq hresched
  rw [givenBack_eq hleave hidle hpicks] at hagain
  obtain ⟨hrunning, ⟨hno, -⟩ | ⟨-, sch₁, hput, rfl⟩⟩ := yieldCurrent_eq hleave
  · rw [hidle] at hno
    cases hno
  split_ifs at hagain with hsame
  obtain rfl := Option.some.inj hagain
  rcases hcases with ⟨-, -, rfl⟩ | ⟨hne, -⟩
  · have hstate : Function.update (Function.update v.state v.current .ready) next .running =
        v.state := by
      rw [hsame, Function.update_idem, ← hrunning, Function.update_eq_self]
    simp only [picked, setState]
    rw [hstate]
  · exact absurd hsame.symm hne

theorem Queued.leaveFor {x : Inner} (h : v.Queued queue I known) (hB : Store B queue I stores)
    (hleave : v.leaveFor B x = some v₁) : v₁.Queued queue I known := by
  cases x with
  | yield => exact h.yieldCurrent hB hleave
  | block q => exact h.blockCurrent hleave

theorem Queued.pollInner {x : Inner} (h : v.Queued queue I known) (hB : Store B queue I stores)
    (hpoll : v.pollInner B x = some (v', b)) : v'.Queued queue I known := by
  obtain ⟨v₁, hleave, hresched⟩ := Option.bind_eq_some_iff.mp hpoll
  obtain ⟨sch, next, hpicks, ⟨-, -, rfl⟩ | ⟨-, -, rfl⟩⟩ := reschedF_eq hresched
  · exact ((h.leaveFor hB hleave).picked hB hpicks).1
  · exact ((h.leaveFor hB hleave).picked hB hpicks).1.same rfl rfl

end View

namespace ActsOnlyOn

variable {picks : List Task} {xs : List Inner}

/-- Two tasks besides the polled one have been picked. -/
theorem not_twice {next' : Task} {rest : List Task}
    (h : ActsOnlyOn queue t v v' (next :: rest)) (hne : next ≠ t) (hmem : next' ∈ rest)
    (hne' : next' ≠ t) : False := by
  obtain ⟨w, hfilter, -⟩ := h.next
  rw [List.filter_cons_of_pos (by simpa using hne)] at hfilter
  have hrest : rest.filter (· ≠ t) = [] := (List.cons.inj hfilter).2
  have hin : next' ∈ rest.filter (· ≠ t) := List.mem_filter.mpr ⟨hmem, by simpa using hne'⟩
  rw [hrest] at hin
  exact List.not_mem_nil hin

/-- No future is polled behind one that has put another task in the place of the polled
one: it would act on that task. -/
theorem nothing_behind {v₂ : View σ} (h : ActsOnlyOn queue t v v' (next :: picks))
    (hready : v.state next = .ready) (hne : next ≠ t) (hcurrent : v₂.current = next)
    (hrest : View.pollCoroutine B t xs v₂ = some (v', picks)) : xs = [] := by
  cases xs with
  | nil => rfl
  | cons y ys =>
      exfalso
      obtain ⟨v₃, b, picks', hpoll, hrest', rfl⟩ := View.pollCoroutine_cons hrest
      obtain ⟨v₄, sch, next', -, hleft, -, -, htaken⟩ := View.pollInner_eq hpoll
      cases y with
      | yield =>
          by_cases hback : v₃.current = t
          · have hstate : v₃.state t = .running := by
              rw [htaken.state, ← htaken.current, hback, Function.update_self]
            obtain ⟨w, hmem, hw⟩ := View.pollCoroutine_picks hrest' hback hstate
            exact h.not_twice hne (List.mem_cons_of_mem _ hmem) hw
          · exact h.not_twice hne (List.mem_cons_self ..) hback
      | block q =>
          have hleftBlocked : v₄.state next = .blocked := by
            rw [hleft.state, hcurrent, Function.update_self]
            rfl
          have hblocked := View.pollCoroutine_blocked hrest' (htaken.blocked hleftBlocked)
          have hbefore := h.blocked next hne hblocked
          rw [hready] at hbefore
          cases hbefore

/-- A yield after which another task is picked leaves the task in the ready queue if the
scheduler stores it. -/
theorem stored_iff (hB : Store B queue I stores) (hqueued : v.Queued queue I known)
    (hidle : v.current.isIdle = false) (hyield : v.yieldCurrent B = some v₁)
    (hpicks : View.Picks B v₁ sch next) (hne : next ≠ v.current) :
    v.current ∈ queue sch ↔ stores v.scheduler (.putPrevTask v.current false) := by
  obtain ⟨hrunning, ⟨hno, -⟩ | ⟨-, sch₁, hput, rfl⟩⟩ := View.yieldCurrent_eq hyield
  · rw [hidle] at hno
    cases hno
  obtain ⟨hqueued₁, hstored⟩ := hqueued.put hB (by rw [hrunning]; decide) hidle hput
  rw [(hqueued₁.picked hB hpicks).2 v.current hne.symm, ← hstored]

/-- A poll that acts only on its task polls nothing behind the future that leaves it, and the
task has a place. -/
theorem lastLeaves (hB : Store B queue I stores) (hqueued : v.Queued queue I known)
    (h : ActsOnlyOn queue t v v' picks) (hcurrent : v.current = t) (hidle : t.isIdle = false)
    (hrunning : v.state t = .running) (hpoll : View.pollCoroutine B t xs v = some (v', picks)) :
    LastLeaves B stores (∃ q, t ∈ v.queue q) t xs v.scheduler := by
  subst hcurrent
  induction xs generalizing v picks with
  | nil =>
      obtain ⟨hblocked, hqueue, -⟩ := View.repair_running hpoll hrunning
      rcases h.self with ⟨hready, -⟩ | ⟨-, q, hmem⟩
      · rw [hblocked] at hready
        cases hready
      · exact ⟨q, hqueue ▸ hmem⟩
  | cons x xs ih =>
      obtain ⟨v₂, b, picks', hinner, hrest, rfl⟩ := View.pollCoroutine_cons hpoll
      obtain ⟨v₁, sch, next, hleave, hleft, hpicks, hscheduler, htaken⟩ := View.pollInner_eq hinner
      have hready : next ≠ v.current → v.state next = .ready := by
        intro hne
        rw [← htaken.ready, hleft.state, Function.update_of_ne hne]
      rw [htaken.current] at h
      cases x with
      | yield =>
          have hagain := View.givenBack_eq hleave hidle hpicks
          by_cases hsame : next = v.current
          · rw [if_pos hsame] at hagain
            have hqueued₂ := hqueued.pollInner hB hinner
            obtain rfl := View.pollInner_again hinner hidle hagain
            simp only [LastLeaves, hagain]
            rw [hsame] at h
            have hacts : ActsOnlyOn queue v.current { v with scheduler := sch } v' picks' :=
              ⟨h.blocked, h.waits, by simpa using h.next, h.self⟩
            exact ih (v := { v with scheduler := sch }) hqueued₂ hacts hidle hrunning hrest
          · rw [if_neg hsame] at hagain
            simp only [LastLeaves, hagain]
            obtain rfl := h.nothing_behind (hready hsame) hsame htaken.current hrest
            refine ⟨rfl, (stored_iff hB hqueued hidle hleave hpicks hsame).mp ?_⟩
            -- the task is ready, so that `coroutine_schedule` leaves it alone
            have hstate : v₂.state v.current = .ready := by
              rw [htaken.state, Function.update_of_ne (Ne.symm hsame), hleft.state,
                Function.update_self]
              rfl
            have hkept := (View.repair_left (B := B) (t := v.current) (v := v₂)
              (by rw [hstate]; decide)).symm.trans hrest
            obtain ⟨rfl, -⟩ := Prod.mk.inj (Option.some.inj hkept)
            rcases h.self with ⟨-, hmem⟩ | ⟨hblocked, -⟩
            · exact hscheduler ▸ hmem
            · rw [hstate] at hblocked
              cases hblocked
      | block q =>
          have hne : next ≠ v.current := by
            rintro rfl
            have hno := htaken.ready
            rw [hleft.state, Function.update_self] at hno
            cases hno
          exact h.nothing_behind (hready hne) hne htaken.current hrest

/-- The task has stopped in the state `st`, and another one has taken over. -/
theorem of_takenOver {st : TaskState} (htaken : View.TakenOver next v₁ v')
    (hne : next ≠ v.current) (hrunning : ∀ u, v.state u = .running ↔ u = v.current)
    (hstate : v₁.state = Function.update v.state v.current st) (hst : st ≠ .running)
    (hwaits : ∀ u q, u ≠ v.current → (v₁.queue q).count u ≤ (v.queue q).count u)
    (hself : st = .ready ∧ v.current ∈ queue v'.scheduler ∨
      st = .blocked ∧ ∃ q, v.current ∈ v₁.queue q) :
    ActsOnlyOn queue v.current v v' [next] := by
  have hstate' : v'.state =
      Function.update (Function.update v.state v.current st) next .running := by
    rw [htaken.state, hstate]
  have hleft : v'.state v.current = st := by
    rw [hstate', Function.update_of_ne hne.symm, Function.update_self]
  refine ⟨fun u hu hblocked => ?_, fun u q hu => ?_,
    ⟨next, by simp [hne], htaken.current, fun u => ?_⟩, ?_⟩
  · rw [hstate'] at hblocked
    by_cases hnext : u = next
    · simp [hnext] at hblocked
    · simpa [hnext, hu] using hblocked
  · rw [htaken.waits]
    exact hwaits u q hu
  · rw [hstate']
    by_cases hnext : u = next
    · simp [hnext]
    by_cases hcurrent : u = v.current
    · subst hcurrent
      simp [hnext, hst]
    · simp [hnext, hcurrent, hrunning]
  · rw [hleft, htaken.waits]
    exact hself

end ActsOnlyOn

section Leaves

/-- A future leaves its task, and the next task is found. -/
theorem View.Queued.leaves {x : Inner} (h : v.Queued queue I known) (hB : Store B queue I stores)
    (hidle : v.current.isIdle = false) (hrunning : ∀ u, v.state u = .running ↔ u = v.current) :
    ∃ v₁ r, v.leaveFor B x = some v₁ ∧ v.pollInner B x = some r := by
  have hrun := (hrunning v.current).mpr rfl
  have hisRunning : v.isRunning v.current = true := by simp [View.isRunning, hrun]
  obtain ⟨v₁, hleave⟩ : ∃ v₁, v.leaveFor B x = some v₁ := by
    cases x with
    | yield =>
        obtain ⟨sch, hput⟩ := hB.putPrevTask_total h.inv v.current false
        exact ⟨{ v.setState v.current .ready with scheduler := sch }, by
          simp [View.leaveFor, View.yieldCurrent, hisRunning, View.putTaskWithState,
            Sched.putTaskWithState, hrun, hidle, hput, View.setState]⟩
    | block q => exact ⟨_, by simp [View.leaveFor, View.blockCurrent, hisRunning, hidle]; rfl⟩
  have hleft := View.leaveFor_eq hleave
  have hnot : v₁.state .idle ≠ .running := by
    have hne := (Task.ne_idle hidle).symm
    rw [hleft.state, Function.update_of_ne hne, Ne, hrunning]
    exact hne
  obtain ⟨sch, next, hpick, -⟩ := (h.leaveFor hB hleave).pickNextTask hB hnot
  refine ⟨v₁, ?_⟩
  rw [View.pollInner, hleave, Option.bind_some, View.reschedF, hpick, Option.map_some]
  exact ⟨_, rfl, rfl⟩

/-- The first future of a list picks the task again, or it leaves the task and is the last. -/
theorem LastLeaves.step {x : Inner} {xs : List Inner} (hB : Store B queue I stores)
    (h : v.Queued queue I known) (hidle : v.current.isIdle = false)
    (hrunning : ∀ u, v.state u = .running ↔ u = v.current)
    (hlast : LastLeaves B stores waiting v.current (x :: xs) v.scheduler) :
    (x = .yield ∧ ∃ sch, v.pollInner B .yield = some ({ v with scheduler := sch }, false) ∧
        View.Queued queue I known { v with scheduler := sch } ∧
        LastLeaves B stores waiting v.current xs sch) ∨
      xs = [] ∧ ∃ v', v.pollInner B x = some (v', true) ∧
        v'.repair B v.current = some (v', []) ∧ ActsOnlyOn queue v.current v v' [v'.current] := by
  obtain ⟨v₁, ⟨v', b⟩, hleave, hpoll⟩ := h.leaves (x := x) hB hidle hrunning
  have hleft := View.leaveFor_eq hleave
  obtain ⟨u, hu, hresched⟩ := Option.bind_eq_some_iff.mp hpoll
  obtain rfl := Option.some.inj (hleave.symm.trans hu)
  obtain ⟨sch, next, hpicks, hcase⟩ := View.reschedF_eq hresched
  rw [hleft.current] at hcase
  have hleaves : next ≠ v.current → (x = .yield → v.current ∈ queue sch) →
      ∃ v', v.pollInner B x = some (v', true) ∧ v'.repair B v.current = some (v', []) ∧
        ActsOnlyOn queue v.current v v' [v'.current] := by
    intro hne hqueued
    obtain ⟨hsame, -⟩ | ⟨-, rfl, rfl⟩ := hcase
    · exact absurd hsame.symm hne
    have htaken : View.TakenOver next v₁ ((v₁.picked sch next).replaceCurrent next) :=
      ⟨rfl, hpicks.ready, rfl, rfl⟩
    have hacts : ActsOnlyOn queue v.current v
      ((v₁.picked sch next).replaceCurrent next) [next] := by
      refine .of_takenOver htaken hne hrunning hleft.state (by cases x <;> simp [View.leftAs])
        (fun w q hw => ?_) ?_
      · rcases hleft.waits q with hsame | ⟨-, happend⟩
        · rw [hsame]
        · rw [happend, List.count_append, List.count_singleton]
          simp [Ne.symm hw]
      · cases x with
        | yield => exact .inl ⟨rfl, hqueued rfl⟩
        | block q =>
            obtain ⟨-, -, rfl⟩ := View.blockCurrent_eq hleave
            exact .inr ⟨rfl, q, by simp [View.setQueue]⟩
    obtain ⟨w, -, hcurrent, hall⟩ := hacts.next
    refine ⟨_, hpoll, View.repair_left fun hno => ?_, hacts⟩
    rw [hall, ← hcurrent] at hno
    exact hne hno.symm
  cases x with
  | yield =>
      have hagain := View.givenBack_eq hleave hidle hpicks
      by_cases hsame : next = v.current
      · rw [if_pos hsame] at hagain
        simp only [LastLeaves, hagain] at hlast
        obtain ⟨-, rfl, -⟩ | ⟨hne, -⟩ := hcase
        · have hview := View.pollInner_again hpoll hidle hagain
          rw [hview] at hpoll
          exact .inl ⟨rfl, sch, hpoll, h.pollInner hB hpoll, hlast⟩
        · exact absurd hsame.symm hne
      · rw [if_neg hsame] at hagain
        simp only [LastLeaves, hagain] at hlast
        refine .inr ⟨hlast.1, hleaves hsame fun _ => ?_⟩
        exact (ActsOnlyOn.stored_iff hB h hidle hleave hpicks hsame).mpr hlast.2
  | block q =>
      refine .inr ⟨hlast, hleaves ?_ (by simp)⟩
      rintro rfl
      have hno := hpicks.ready
      rw [hleft.state, Function.update_self] at hno
      cases hno

/-- A task that no future leaves, and that waits in a queue already, is blocked there. -/
theorem ActsOnlyOn.of_repair (hB : Store B queue I stores) (h : v.Queued queue I known)
    (hidle : v.current.isIdle = false) (hrunning : ∀ u, v.state u = .running ↔ u = v.current)
    (hwaiting : ∃ q, v.current ∈ v.queue q) :
    ∃ v', v.repair B v.current = some (v', [v'.current]) ∧
      ActsOnlyOn queue v.current v v' [v'.current] := by
  have hrun := (hrunning v.current).mpr rfl
  have hblocked : (v.setState v.current .blocked).Queued queue I known :=
    h.setState (by rw [hrun]; decide) fun hno => absurd hno (Task.ne_idle hidle)
  have hnot : (v.setState v.current .blocked).state .idle ≠ .running := by
    have hne := (Task.ne_idle hidle).symm
    simp [View.setState, hne, hrunning]
  obtain ⟨sch, next, hpick, hpicks⟩ := hblocked.pickNextTask hB hnot
  have hne : next ≠ v.current := by
    rintro rfl
    have hno := hpicks.ready
    simp [View.setState] at hno
  have htaken : View.TakenOver next (v.setState v.current .blocked)
      (((v.setState v.current .blocked).picked sch next).replaceCurrent next) :=
    ⟨rfl, hpicks.ready, rfl, rfl⟩
  have hacts : ActsOnlyOn queue v.current v
      (((v.setState v.current .blocked).picked sch next).replaceCurrent next) [next] :=
    .of_takenOver htaken hne hrunning rfl (by decide) (fun _ _ _ => le_rfl)
      (.inr ⟨rfl, hwaiting⟩)
  have hresched : (v.setState v.current .blocked).reschedF B =
      some (((v.setState v.current .blocked).picked sch next).replaceCurrent next, true) := by
    rw [View.reschedF, hpick, Option.map_some]
    exact congrArg some (if_neg hne.symm)
  refine ⟨_, ?_, hacts⟩
  rw [View.repair, if_pos (by simp [View.isRunning, hrun]), hresched]
  rfl

/-- A poll whose last future leaves the task acts only on this task. -/
theorem LastLeaves.actsOnlyOn {xs : List Inner} (hB : Store B queue I stores)
    (h : v.Queued queue I known) (hidle : v.current.isIdle = false)
    (hrunning : ∀ u, v.state u = .running ↔ u = v.current)
    (hlast : LastLeaves B stores (∃ q, v.current ∈ v.queue q) v.current xs v.scheduler) :
    ∃ v' picks, View.pollCoroutine B v.current xs v = some (v', picks) ∧
      ActsOnlyOn queue v.current v v' picks := by
  induction xs generalizing v with
  | nil =>
      obtain ⟨v', hrepair, hacts⟩ := ActsOnlyOn.of_repair hB h hidle hrunning hlast
      exact ⟨v', _, hrepair, hacts⟩
  | cons x xs ih =>
      rcases hlast.step hB h hidle hrunning with
        ⟨rfl, sch, hpoll, hqueued, hlast'⟩ | ⟨rfl, v', hpoll, hleft, hacts⟩
      · obtain ⟨v', picks, hrest, hacts⟩ := ih (v := { v with scheduler := sch }) hqueued hidle
          hrunning hlast'
        obtain ⟨w, hfilter, hw⟩ := hacts.next
        refine ⟨v', v.current :: picks, ?_, hacts.blocked, hacts.waits, ⟨w, ?_, hw⟩, hacts.self⟩
        · simp [View.pollCoroutine, hpoll, hrest]
        · simpa using hfilter
      · refine ⟨v', [v'.current], ?_, hacts⟩
        simp [View.pollCoroutine, hpoll, hleft]

end Leaves

/-- `coroutine_schedule` leaves the polled task as `pollCoroutine` does. -/
theorem State.takeStack_repair : s.takeStack B t = (s.view.repair B t).bind fun r =>
    (s.kstack t).map fun stack =>
      { s with
        view := r.1, kstack := Function.update s.kstack t none, pc := .handOver t stack } := by
  unfold State.takeStack View.repair
  split_ifs
  · cases (s.view.setState t .blocked).reschedF B <;> rfl
  · rfl

/-- The operation of the polled task that polls a future of the crate. -/
def Inner.act : Inner → Act
  | .yield => .yield .future
  | .block q => .wait .future (.wait q)

/-- What the poll of the future goes on with. -/
def Inner.kont : Inner → Kont
  | .yield => .user
  | .block q => .blocked .future (.wait q)

theorem State.perform_inner (x : Inner) : s.perform kind B x.act =
    (s.view.leaveFor B x).bind fun v => State.reschedFuture { s with view := v } B x.kont := by
  cases x <;> rfl

/-- A future that leaves its task does so in the machine. -/
theorem State.perform_left {x : Inner} (h : s.view.pollInner B x = some (v', true)) :
    s.perform kind B x.act = some { s with
      view := v'
      future := Function.update s.future s.view.current x.kont
      pc := .polled s.view.current } := by
  obtain ⟨v₁, hleave, hresched⟩ := Option.bind_eq_some_iff.mp h
  rw [State.perform_inner, hleave, Option.bind_some]
  simp only [State.reschedFuture, hresched, Option.bind_some, if_true,
    (View.leaveFor_eq hleave).current]

theorem State.perform_again (h : s.view.pollInner B .yield = some (v', false)) :
    s.perform kind B (.yield .future) = some { s with view := v', pc := .user } := by
  obtain ⟨v₁, hleave, hresched⟩ := Option.bind_eq_some_iff.mp h
  rw [show Act.yield .future = Inner.yield.act from rfl, State.perform_inner, hleave,
    Option.bind_some]
  simp [State.reschedFuture, hresched, State.goOn, Inner.kont]

section Machine

variable {scheduler : σ} {h : List Act} {xs : List Inner}

theorem Inner.enabled (x : Inner) (hpc : s.pc = .user)
    (hcoroutine : s.view.current.isCoroutine kind = true) : s.Enabled kind x.act := by
  have hnot := (Task.isCoroutine_of_user hcoroutine).2
  unfold State.Enabled
  rw [hpc]
  cases x with
  | yield =>
      refine ⟨rfl, fun hidle => ?_, fun _ => hcoroutine, trivial⟩
      rw [hnot] at hidle
      cases hidle
  | block q =>
      refine ⟨rfl, fun hidle => ?_, fun _ => hcoroutine, trivial⟩
      rw [hnot] at hidle
      cases hidle

/-- The future of a coroutine may return `Pending` on its own. -/
theorem State.enabled_pending (hpc : s.pc = .user)
    (hcoroutine : s.view.current.isCoroutine kind = true) : s.Enabled kind .pending := by
  have hnot := (Task.isCoroutine_of_user hcoroutine).2
  unfold State.Enabled
  rw [hpc]
  refine ⟨rfl, fun hidle => ?_, fun _ => hcoroutine, hcoroutine⟩
  rw [hnot] at hidle
  cases hidle

/-- While a task polls, it is the one that runs. -/
theorem Active.polling (ha : Active s) (hpc : s.pc = .user) (u : Task) :
    s.view.state u = .running ↔ u = s.view.current := by
  refine ⟨ha.only u, ?_⟩
  rintro rfl
  exact ha.running (by simp [State.leaving, hpc])

/-- A poll whose last future leaves the task is a run of the machine up to the repair. Where
no future leaves it, the poll returns `Pending` on its own. -/
theorem LastLeaves.run (hB : Store B queue I stores) (hI : I scheduler)
    (hempty : queue scheduler = []) (hrun : (machine kind B scheduler).Run h s)
    (hpc : s.pc = .user) (hcoroutine : s.view.current.isCoroutine kind = true)
    (hlast : LastLeaves B stores (∃ q, s.view.current ∈ s.view.queue q) s.view.current xs
      s.view.scheduler) :
    ∃ h' s' v picks₁ picks₂, (machine kind B scheduler).Run h' s' ∧
      s'.pc = .polled s.view.current ∧ s'.view.repair B s.view.current = some (v, picks₂) ∧
      View.pollCoroutine B s.view.current xs s.view = some (v, picks₁ ++ picks₂) := by
  induction xs generalizing s h with
  | nil =>
      have hqueued := View.Queued.of_run hB hI hempty hrun
      obtain ⟨v, hrepair, -⟩ := ActsOnlyOn.of_repair hB hqueued
        (Task.isCoroutine_of_user hcoroutine).2 ((Control.of_run hrun).2.polling hpc) hlast
      exact ⟨_, _, v, [], _, hrun.next trivial ⟨State.enabled_pending hpc hcoroutine, rfl⟩, rfl,
        hrepair, hrepair⟩
  | cons x xs ih =>
      have hqueued := View.Queued.of_run hB hI hempty hrun
      have henabled := x.enabled hpc hcoroutine
      rcases hlast.step hB hqueued (Task.isCoroutine_of_user hcoroutine).2
        ((Control.of_run hrun).2.polling hpc) with
        ⟨rfl, sch, hpoll, -, hlast'⟩ | ⟨rfl, v, hpoll, hleft, -⟩
      · have hnext := hrun.next trivial ⟨henabled, State.perform_again hpoll⟩
        obtain ⟨h', s', v, picks₁, picks₂, hrun', hpc', hrepair, hrest⟩ :=
          ih hnext rfl hcoroutine hlast'
        refine ⟨h', s', v, s.view.current :: picks₁, picks₂, hrun', hpc', hrepair, ?_⟩
        have hrest' : View.pollCoroutine B s.view.current xs { s.view with scheduler := sch } =
            some (v, picks₁ ++ picks₂) := hrest
        simp [View.pollCoroutine, hpoll, hrest']
      · refine ⟨_, _, v, [v.current], [], hrun.next trivial ⟨henabled, State.perform_left hpoll⟩,
          rfl, hleft, ?_⟩
        simp [View.pollCoroutine, hpoll, hleft]

end Machine

/-- From every starting state of a scheduler, in every run, and whatever futures of the crate
a coroutine polls: the poll acts only on its own task if and only if the last of the futures
is the one that leaves the task and the task has a place then. -/
def PollsAlone (kind : ℕ → Kind) (B : BaseScheduler σ Task) (queue : σ → List Task)
    (start : σ → Prop) (stores : σ → Sched.Call Task → Prop) : Prop :=
  ∀ scheduler, start scheduler → ∀ (h : List Act) (s : State σ),
    (machine kind B scheduler).Run h s → s.pc = .user →
      s.view.current.isCoroutine kind = true → ∀ xs,
        ((∃ v picks, View.pollCoroutine B s.view.current xs s.view = some (v, picks) ∧
          ActsOnlyOn queue s.view.current s.view v picks) ↔
          LastLeaves B stores (∃ q, s.view.current ∈ s.view.queue q) s.view.current xs
            s.view.scheduler)

theorem PollsAlone.of_store {start : σ → Prop} (hB : Store B queue I stores)
    (hstart : ∀ s, start s → I s ∧ queue s = []) : PollsAlone kind B queue start stores := by
  intro scheduler hscheduler h s hrun hpc hcoroutine xs
  obtain ⟨hI, hempty⟩ := hstart scheduler hscheduler
  have hqueued := View.Queued.of_run hB hI hempty hrun
  have hrunning := (Control.of_run hrun).2.polling hpc
  have hidle := (Task.isCoroutine_of_user hcoroutine).2
  constructor
  · rintro ⟨v, picks, hpoll, hacts⟩
    exact hacts.lastLeaves hB hqueued rfl hidle ((hrunning _).mpr rfl) hpoll
  · exact LastLeaves.actsOnlyOn hB hqueued hidle hrunning

/-- With each of the three schedulers a poll acts on its own task if and only if the last
future it reaches is the one that leaves the task, and the task has a place then. -/
theorem polls_alone {cap : ℕ} (kind : ℕ → Kind) (slice : ℕ) (hpos : 1 ≤ cap)
    (hcap : cap < BTreeMap.usize) :
    PollsAlone kind (Sched.fifo cap) Sched.Fifo.readyQueue (fun s => s.readyQueue = [])
        (Sched.Room cap Sched.Fifo.readyQueue) ∧
      PollsAlone kind (Sched.rr slice cap) (Sched.RR.queue cap) (fun s => s.readyQueue = .new)
        (Sched.Room (cap - 1) (Sched.RR.queue cap)) ∧
      PollsAlone kind (Sched.cfs cap) (Sched.CFS.queue cap)
        (fun s => ∃ tasks, s = Sched.CFS.new tasks)
        (fun s c => Sched.Room cap (Sched.CFS.queue cap) s c ∨ s.Taken cap c) := by
  refine ⟨.of_store Sched.fifo_store fun s hs => ⟨trivial, hs⟩,
    .of_store (Sched.rr_store slice) fun s hs => ?_,
    .of_store (Sched.cfs_store hcap) ?_⟩
  · have hrest : Deque.Rests cap [] s.readyQueue := by
      rw [hs]
      exact Deque.Inv.init (by omega)
    exact ⟨⟨[], hrest⟩, hrest.items⟩
  · rintro s ⟨tasks, rfl⟩
    have hrest : BTreeMap.Rests cap [] (Sched.CFS.new tasks).readyQueue := BTreeMap.Rests.new
    exact ⟨⟨[], hrest⟩, List.perm_nil.mp (Sched.CFS.queue_perm hrest)⟩

/-- A coroutine has made a waker and has returned `Pending`; the next one polls a yield and
then a wait. -/
theorem polls_alone_one : ∃ (h : List Act) (s : State (Sched.Fifo Task)),
    (machine (fun _ => .coroutine) (Sched.fifo 2) ⟨[]⟩).Run h s ∧
      s.view.state (.user 0) = .blocked ∧
      ∃ v picks, View.pollCoroutine (Sched.fifo 2) (.user 1) [.yield, .block (.user 7)] s.view =
          some (v, picks) ∧
        ActsOnlyOn Sched.Fifo.readyQueue (.user 1) s.view v picks := by
  let r := (playAll (fun _ => .coroutine) (Sched.fifo 2) ⟨[]⟩ (fun _ _ _ => True)
    [.new 0, .spawn 0, .new 1, .spawn 1, .wait .thread (.wait (.user 9)), .tick, .tick,
      .cloneWaker (.user 0), .pending, .tick, .tick, .tick, .tick]).get (by decide)
  have hrun : (machine (fun _ => .coroutine) (Sched.fifo 2) ⟨[]⟩).Run r.1 r.2 :=
    playAll_run (Option.some_get _).symm
  have hpc : r.2.pc = .user := by decide
  have hcurrent : r.2.view.current = .user 1 := by decide
  have hblocked : r.2.view.state (.user 0) = .blocked := by decide
  have hempty : r.2.view.scheduler.readyQueue = [] := by decide
  generalize r.1 = h, r.2 = s at hrun hpc hcurrent hblocked hempty
  have hiff := (polls_alone (fun _ => .coroutine) 5 (by decide)
    (by norm_num [BTreeMap.usize])).1 ⟨[]⟩ rfl h s hrun hpc (by rw [hcurrent]; rfl)
    [.yield, .block (.user 7)]
  have hscheduler : s.view.scheduler = ⟨[]⟩ := congrArg Sched.Fifo.mk hempty
  rw [hcurrent, hscheduler] at hiff
  exact ⟨h, s, hrun, hblocked, hiff.mpr rfl⟩

/-- Two waits in one poll: the second blocks the task that has followed. -/
theorem poll_blocks_other : ∃ (h : List Act) (s : State (Sched.Fifo Task)),
    (machine (fun _ => .coroutine) (Sched.fifo 4) ⟨[]⟩).RunOf (Waits fun _ n => n ≤ 4) h s ∧
      s.pc = .user ∧ s.view.current = .user 0 ∧ s.view.state (.user 1) = .ready ∧
      ∃ r, View.pollCoroutine (Sched.fifo 4) (.user 0) [.block (.user 7), .block (.user 8)]
          s.view = some r ∧
        r.1.state (.user 1) = .blocked ∧ .user 1 ∈ r.1.queue (.user 8) ∧
        ¬ ActsOnlyOn Sched.Fifo.readyQueue (.user 0) s.view r.1 r.2 := by
  let r := (playAll (fun _ => .coroutine) (Sched.fifo 4) ⟨[]⟩ (Waits fun _ n => n ≤ 4)
    [.new 0, .spawn 0, .new 1, .spawn 1, .yield .thread, .tick, .tick]).get (by decide)
  have hrun : (machine (fun _ => .coroutine) (Sched.fifo 4) ⟨[]⟩).RunOf (Waits fun _ n => n ≤ 4)
      r.1 r.2 := playAll_run (Option.some_get _).symm
  let p := (View.pollCoroutine (Sched.fifo 4) (.user 0) [.block (.user 7), .block (.user 8)]
    r.2.view).get (by decide)
  have hpoll : View.pollCoroutine (Sched.fifo 4) (.user 0)
      [.block (.user 7), .block (.user 8)] r.2.view = some p := (Option.some_get _).symm
  have hready : r.2.view.state (.user 1) = .ready := by decide
  have hblocked : p.1.state (.user 1) = .blocked := by decide
  have hqueue : .user 1 ∈ p.1.queue (.user 8) := by decide
  have hpc : r.2.pc = .user := by decide
  have hcurrent : r.2.view.current = .user 0 := by decide
  generalize p = q at hpoll hblocked hqueue
  generalize r.1 = h, r.2 = s at hrun hpc hcurrent hready hpoll
  refine ⟨h, s, hrun, hpc, hcurrent, hready, q, hpoll, hblocked, hqueue, fun hacts => ?_⟩
  have hbefore := hacts.blocked (.user 1) (by decide) hblocked
  rw [hready] at hbefore
  cases hbefore

end Kernel
