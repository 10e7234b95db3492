import Vsched.Map.Reader
import Vsched.Map.Room
import Vsched.Map.Ledger
import Vsched.Sched.Order

/-!
# A completely fair scheduler that the CPUs share

Another CPU may wake a task into the ready queue of a scheduler while the CPU it
belongs to adds, picks or ticks. Here the calls of `CFScheduler` are taken apart
into their accesses to the cached minimum and the id pool and into the accesses
of the lock-free map, which fall between each other in any order. The fields of a
task are read and written in one access: only the CPU that has a task does so.
-/

namespace Sched

def Key.id (k : Key) : ℤ := (ofLex k).2

namespace SharedCFS

open BTreeMap (Act Look Watched History)

inductive Op (T : Type*)
  | addTask (task : T)
  | putPrevTask (prev : T)
  | pickNextTask
  | taskTick (current : T)
  | setPriority (task : T) (prio : ℤ)
  deriving DecidableEq, Repr

inductive Ret (T : Type*)
  | done
  | picked (next : Option T)
  | answer (b : Bool)
  deriving DecidableEq, Repr

/-- Where a CPU stands: outside any call, or in front of the next access. -/
inductive Pc (T : Type*)
  | idle
  /-- `min_vruntime.load().is_none()`. -/
  | checkMin (task : T)
  /-- `min_vruntime.store(Some(0))`. -/
  | resetMin (task : T)
  /-- `min_vruntime.load().unwrap()`. -/
  | loadMin (task : T)
  /-- An `unwrap` has found `None`, with this task in hand. -/
  | panicked (task : Option T)
  /-- `id_pool.fetch_add`; `add_task` has loaded the vruntime to start with. -/
  | takeId (task : T) (start : Option ℤ)
  | setVruntime (task : T) (start taskid : ℤ)
  | setId (task : T) (start : Option ℤ) (taskid : ℤ)
  | loadVruntime (prev : T) (taskid : ℤ)
  /-- In front of `ready_queue.insert`; `adds` in `add_task`. -/
  | insert (adds : Bool) (k : Key) (task : T)
  | inserting (adds : Bool)
  /-- In front of `ready_queue.first_key_value`. -/
  | first
  | looking
  /-- The last store of `add_task`. -/
  | storeMin (o : Option ℤ)
  /-- In front of `ready_queue.pop_first`. -/
  | pick
  | picking
  /-- `delta.fetch_add`. -/
  | tick (current : T)
  | isEmpty (current : T)
  | tickCheck (current : T)
  | tickVruntime (current : T)
  /-- The other `min_vruntime.load().unwrap()`. -/
  | tickMin (vruntime : ℤ)
  | renice (task : T) (prio : ℤ)
  deriving DecidableEq

inductive Event (T : Type*)
  | call (o : Op T)
  /-- An access of the ready queue. -/
  | queue (a : Act Key T)
  /-- An id has been taken. -/
  | took (taskid : ℤ)
  | ret (r : Ret T)
  | silent
  deriving DecidableEq

variable {T : Type*} [DecidableEq T]

def start : Op T → Pc T
  | .addTask task => .checkMin task
  | .putPrevTask prev => .takeId prev none
  | .pickNextTask => .pick
  | .taskTick current => .tick current
  | .setPriority task prio => .renice task prio

/-- What the CPUs share beside the ready queue. -/
structure Vars (T : Type*) where
  minVruntime : Option ℤ
  idPool : ℤ
  tasks : T → CFSTask

def Vars.setTask (v : Vars T) (task : T) (t : CFSTask) : Vars T :=
  { v with tasks := Function.update v.tasks task t }

/-- An access outside the ready queue, but for `is_empty`, which loads its counter. -/
def access (m : BTreeMap.Mem Key T) (v : Vars T) : Pc T → Vars T × Pc T × Event T
  | .checkMin task =>
      if v.minVruntime.isNone then (v, .resetMin task, .silent) else (v, .loadMin task, .silent)
  | .resetMin task => ({ v with minVruntime := some 0 }, .loadMin task, .silent)
  | .loadMin task =>
      match v.minVruntime with
      | some vruntime => (v, .takeId task (some vruntime), .silent)
      | none => (v, .panicked (some task), .silent)
  | .takeId task none =>
      ({ v with idPool := wrap (v.idPool + 1) }, .setId task none v.idPool, .took v.idPool)
  | .takeId task (some vruntime) =>
      ({ v with idPool := wrap (v.idPool + 1) }, .setVruntime task vruntime v.idPool,
        .took v.idPool)
  | .setVruntime task vruntime taskid =>
      (v.setTask task ((v.tasks task).setVruntime vruntime), .setId task (some vruntime) taskid,
        .silent)
  | .setId task none taskid =>
      (v.setTask task ((v.tasks task).setId taskid), .loadVruntime task taskid, .silent)
  | .setId task (some vruntime) taskid =>
      (v.setTask task ((v.tasks task).setId taskid), .insert true (key vruntime taskid) task,
        .silent)
  | .loadVruntime prev taskid =>
      (v, .insert false (key (v.tasks prev).getVruntime taskid) prev, .silent)
  | .storeMin o => ({ v with minVruntime := o }, .idle, .ret .done)
  | .tick current => (v.setTask current (v.tasks current).taskTick, .isEmpty current, .silent)
  | .isEmpty current =>
      if m.isEmpty then (v, .idle, .ret (.answer false)) else (v, .tickCheck current, .silent)
  | .tickCheck current =>
      if v.minVruntime.isNone then (v, .idle, .ret (.answer true))
      else (v, .tickVruntime current, .silent)
  | .tickVruntime current => (v, .tickMin (v.tasks current).getVruntime, .silent)
  | .tickMin vruntime =>
      match v.minVruntime with
      | some minVruntime => (v, .idle, .ret (.answer (decide (vruntime > minVruntime))))
      | none => (v, .panicked none, .silent)
  | .renice task prio =>
      if -20 ≤ prio ∧ prio ≤ 19 then
        (v.setTask task ((v.tasks task).setPriority prio), .idle, .ret (.answer true))
      else (v, .idle, .ret (.answer false))
  | p => (v, p, .silent)

/-- The access of the ready queue that CPU `t` is in front of. -/
def Pc.look (t : ℕ) : Pc T → Option (Look Key T)
  | .insert _ k task => some (.change (.invoke t (.insert k task)))
  | .inserting _ => some (.change (.access t))
  | .first => some (.ask t (.scan .firstKeyValue))
  | .looking => some (.read t)
  | .pick => some (.change (.invoke t .popFirst))
  | .picking => some (.change (.access t))
  | _ => none

/-- A CPU that makes no access. -/
def Pc.stops : Pc T → Bool
  | .idle => true
  | .panicked _ => true
  | _ => false

/-- Where a CPU goes on after an access of the ready queue. -/
def Pc.after : Pc T → Act Key T → Pc T
  | .insert adds _ _, _ => .inserting adds
  | .inserting true, .change (_, .ret _) => .first
  | .inserting false, .change (_, .ret _) => .idle
  | .first, _ => .looking
  | .looking, .read _ (.answer (.first o)) => .storeMin (o.map fun p => Key.vruntime p.1)
  | .pick, _ => .picking
  | .picking, .change (_, .ret _) => .idle
  | p, _ => p

/-- A `CFScheduler` and the CPUs that call it. -/
structure State (T : Type*) where
  queue : Watched Key T
  vars : Vars T
  pc : ℕ → Pc T

/-- `CFScheduler::new`, for tasks with the given fields. -/
def State.new (tasks : T → CFSTask) : State T where
  queue := Watched.init
  vars := ⟨none, 0, tasks⟩
  pc := fun _ => .idle

inductive Step (cap : ℕ) : State T → ℕ × Event T → State T → Prop
  | call {s : State T} {t : ℕ} {o : Op T} :
      s.pc t = .idle → Step cap s (t, .call o) { s with pc := Function.update s.pc t (start o) }
  | own {s : State T} {t : ℕ} :
      (s.pc t).stops = false → (s.pc t).look t = none →
      Step cap s (t, (access s.queue.state.mem s.vars (s.pc t)).2.2)
        ⟨s.queue, (access s.queue.state.mem s.vars (s.pc t)).1,
          Function.update s.pc t (access s.queue.state.mem s.vars (s.pc t)).2.1⟩
  | queue {s : State T} {t : ℕ} {k : Look Key T} {a : Act Key T} {queue : Watched Key T} :
      (s.pc t).look t = some k → s.queue.perform cap k = some (a, queue) →
      Step cap s (t, .queue a) ⟨queue, s.vars, Function.update s.pc t ((s.pc t).after a)⟩

/-- A scheduler whose ready queue has `cap` slots, under every interleaving. -/
def machine (cap : ℕ) (tasks : T → CFSTask) : Labelled.System (State T) (ℕ × Event T) where
  start := fun s => s = State.new tasks
  step := Step cap

/-- A CPU makes a call, or the next access of the one it is in. -/
inductive Choice (T : Type*)
  | call (t : ℕ) (o : Op T)
  | go (t : ℕ)

/-- The next `n` accesses of CPU `t`. -/
def goes (t n : ℕ) : List (Choice ℕ) :=
  List.replicate n (.go t)

def perform (cap : ℕ) (s : State T) : Choice T → Option ((ℕ × Event T) × State T)
  | .call t o =>
      if s.pc t = .idle then
        some ((t, .call o), { s with pc := Function.update s.pc t (start o) })
      else none
  | .go t =>
      match (s.pc t).look t with
      | some k => (s.queue.perform cap k).map fun x =>
          ((t, .queue x.1), ⟨x.2, s.vars, Function.update s.pc t ((s.pc t).after x.1)⟩)
      | none =>
          if (s.pc t).stops then none
          else
            let x := access s.queue.state.mem s.vars (s.pc t)
            some ((t, x.2.2), ⟨s.queue, x.1, Function.update s.pc t x.2.1⟩)

theorem perform_step {cap : ℕ} {s s' : State T} {k : Choice T} {a : ℕ × Event T}
    (h : perform cap s k = some (a, s')) : Step cap s a s' := by
  cases k with
  | call t o =>
      simp only [perform] at h
      split at h
      case isTrue hidle =>
        cases h
        exact .call hidle
      case isFalse => cases h
  | go t =>
      simp only [perform] at h
      split at h
      case _ k hk =>
        obtain ⟨x, hx, heq⟩ := Option.map_eq_some_iff.mp h
        cases heq
        exact .queue hk hx
      case _ hnone =>
        split at h
        · cases h
        case isFalse hbusy =>
          cases h
          exact .own (by simpa using hbusy) hnone

/-- The run that a list of choices leads to, if its steps meet the guard. -/
def playAll (cap : ℕ) (tasks : T → CFSTask) (G : List (ℕ × Event T) → State T → ℕ × Event T → Prop)
    [∀ h s a, Decidable (G h s a)] (ks : List (Choice T)) : Option (List (ℕ × Event T) × State T) :=
  Labelled.play (perform cap) G ks [] (State.new tasks)

theorem playAll_run {cap : ℕ} {tasks : T → CFSTask}
    {G : List (ℕ × Event T) → State T → ℕ × Event T → Prop} [∀ h s a, Decidable (G h s a)]
    {ks : List (Choice T)} {r : List (ℕ × Event T) × State T}
    (h : playAll cap tasks G ks = some r) : (machine cap tasks).RunOf G r.1 r.2 :=
  .play (fun _ _ _ _ => perform_step) (.start rfl) h

section History

/-- The accesses of the ready queue. -/
def queueActs (h : List (ℕ × Event T)) : List (Act Key T) :=
  h.filterMap fun a =>
    match a.2 with
    | .queue x => some x
    | _ => none

/-- What has been done to the ready queue. -/
def changes (h : List (ℕ × Event T)) : History Key T :=
  BTreeMap.changed (queueActs h)

/-- The ids that have been taken. -/
def ids (h : List (ℕ × Event T)) : List ℤ :=
  h.filterMap fun a =>
    match a.2 with
    | .took taskid => some taskid
    | _ => none

/-- The tasks that have been handed in. -/
def handedIn (h : List (ℕ × Event T)) : List T :=
  h.filterMap fun a =>
    match a.2 with
    | .call (.addTask task) => some task
    | .call (.putPrevTask prev) => some prev
    | _ => none

end History

/-- The task that a CPU has been handed and has not passed on to the ready queue. -/
def Pc.task : Pc T → Option T
  | .checkMin task => some task
  | .resetMin task => some task
  | .loadMin task => some task
  | .panicked task => task
  | .takeId task _ => some task
  | .setVruntime task _ _ => some task
  | .setId task _ _ => some task
  | .loadVruntime prev _ => some prev
  | .insert _ _ task => some task
  | _ => none

/-- The id that a CPU has taken and has not passed on to the ready queue. -/
def Pc.id : Pc T → Option ℤ
  | .setVruntime _ _ taskid => some taskid
  | .setId _ _ taskid => some taskid
  | .loadVruntime _ taskid => some taskid
  | .insert _ k _ => some k.id
  | _ => none

/-- A CPU in a call that changes the ready queue. -/
def Pc.inside : Pc T → Bool
  | .inserting _ => true
  | .picking => true
  | _ => false

/-- What an access outside the ready queue does to the ids. -/
inductive Own (v : Vars T) (p : Pc T) : Vars T × Pc T × Event T → Prop
  | took {v' : Vars T} {p' : Pc T} (hpool : v'.idPool = wrap (v.idPool + 1)) (hid : p.id = none)
      (hid' : p'.id = some v.idPool) (htask : p'.task = p.task) (hinside : p'.inside = false) :
      Own v p (v', p', .took v.idPool)
  | other {v' : Vars T} {p' : Pc T} {e : Event T} (hpool : v'.idPool = v.idPool)
      (hid : p'.id = p.id) (htask : p'.task = p.task) (hinside : p'.inside = false)
      (hevent : e = .silent ∨ ∃ r, e = .ret r) : Own v p (v', p', e)

theorem access_own {m : BTreeMap.Mem Key T} {v : Vars T} {p : Pc T} {t : ℕ}
    (hlook : p.look t = none) : Own v p (access m v p) := by
  cases p with
  | idle => exact .other rfl rfl rfl rfl (.inl rfl)
  | checkMin task =>
      simp only [access]
      split <;> exact .other rfl rfl rfl rfl (.inl rfl)
  | resetMin task => exact .other rfl rfl rfl rfl (.inl rfl)
  | loadMin task =>
      simp only [access]
      split <;> exact .other rfl rfl rfl rfl (.inl rfl)
  | panicked task => exact .other rfl rfl rfl rfl (.inl rfl)
  | takeId task start => cases start <;> exact .took rfl rfl rfl rfl rfl
  | setVruntime task start taskid => exact .other rfl rfl rfl rfl (.inl rfl)
  | setId task start taskid => cases start <;> exact .other rfl rfl rfl rfl (.inl rfl)
  | loadVruntime prev taskid => exact .other rfl rfl rfl rfl (.inl rfl)
  | storeMin o => exact .other rfl rfl rfl rfl (.inr ⟨_, rfl⟩)
  | tick current => exact .other rfl rfl rfl rfl (.inl rfl)
  | isEmpty current =>
      simp only [access]
      split
      · exact .other rfl rfl rfl rfl (.inr ⟨_, rfl⟩)
      · exact .other rfl rfl rfl rfl (.inl rfl)
  | tickCheck current =>
      simp only [access]
      split
      · exact .other rfl rfl rfl rfl (.inr ⟨_, rfl⟩)
      · exact .other rfl rfl rfl rfl (.inl rfl)
  | tickVruntime current => exact .other rfl rfl rfl rfl (.inl rfl)
  | tickMin vruntime =>
      simp only [access]
      split
      · exact .other rfl rfl rfl rfl (.inr ⟨_, rfl⟩)
      · exact .other rfl rfl rfl rfl (.inl rfl)
  | renice task prio =>
      simp only [access]
      split <;> exact .other rfl rfl rfl rfl (.inr ⟨_, rfl⟩)
  | insert adds k task => cases hlook
  | inserting adds => cases hlook
  | first => cases hlook
  | looking => cases hlook
  | pick => cases hlook
  | picking => cases hlook

variable {cap n t : ℕ} {h : List (ℕ × Event T)} {s s' : State T}

omit [DecidableEq T] in
theorem perform_invoke {q q' : BTreeMap.State Key T} {c : BTreeMap.Call Key T}
    {a : ℕ × BTreeMap.Event Key T} (h : BTreeMap.perform cap q (.invoke t c) = some (a, q')) :
    q.pc t = .idle ∧ a = (t, .call c) ∧ q' = ⟨q.mem, Function.update q.pc t (.enter c)⟩ := by
  cases hpc : q.pc t <;> simp only [BTreeMap.perform, hpc] at h <;> cases h
  exact ⟨rfl, rfl, rfl⟩

omit [DecidableEq T] in
theorem perform_access {q q' : BTreeMap.State Key T} {a : ℕ × BTreeMap.Event Key T}
    (h : BTreeMap.perform cap q (.access t) = some (a, q')) :
    q.pc t ≠ .idle ∧ a = (t, (BTreeMap.tick cap q.mem (q.pc t)).2.2) ∧
      q' = ⟨(BTreeMap.tick cap q.mem (q.pc t)).1,
        Function.update q.pc t (BTreeMap.tick cap q.mem (q.pc t)).2.1⟩ := by
  have hbusy : q.pc t ≠ .idle := by
    intro hidle
    simp [BTreeMap.perform, hidle] at h
  refine ⟨hbusy, ?_⟩
  cases hpc : q.pc t <;> simp only [BTreeMap.perform, hpc] at h <;> cases h <;> exact ⟨rfl, rfl⟩

/-- A step of the scheduler as the ready queue sees it. -/
inductive Sight (cap : ℕ) (s : State T) (t : ℕ) : Event T → State T → Prop
  | call {o : Op T} (hidle : s.pc t = .idle) :
      Sight cap s t (.call o) { s with pc := Function.update s.pc t (start o) }
  | own {x : Vars T × Pc T × Event T} (hinside : (s.pc t).inside = false)
      (hown : Own s.vars (s.pc t) x) :
      Sight cap s t x.2.2 ⟨s.queue, x.1, Function.update s.pc t x.2.1⟩
  | insert {adds : Bool} {k : Key} {task : T} (hpc : s.pc t = .insert adds k task)
      (hidle : s.queue.state.pc t = .idle) :
      Sight cap s t (.queue (.change (t, .call (.insert k task))))
        ⟨⟨⟨s.queue.state.mem, Function.update s.queue.state.pc t (.enter (.insert k task))⟩,
          s.queue.reader⟩, s.vars, Function.update s.pc t (.inserting adds)⟩
  | pick (hpc : s.pc t = .pick) (hidle : s.queue.state.pc t = .idle) :
      Sight cap s t (.queue (.change (t, .call .popFirst)))
        ⟨⟨⟨s.queue.state.mem, Function.update s.queue.state.pc t (.enter .popFirst)⟩,
          s.queue.reader⟩, s.vars, Function.update s.pc t .picking⟩
  | access {e : BTreeMap.Event Key T} (hinside : (s.pc t).inside = true)
      (hbusy : s.queue.state.pc t ≠ .idle)
      (he : (BTreeMap.tick cap s.queue.state.mem (s.queue.state.pc t)).2.2 = e) :
      Sight cap s t (.queue (.change (t, e)))
        ⟨⟨⟨(BTreeMap.tick cap s.queue.state.mem (s.queue.state.pc t)).1,
            Function.update s.queue.state.pc t
              (BTreeMap.tick cap s.queue.state.mem (s.queue.state.pc t)).2.1⟩, s.queue.reader⟩,
          s.vars, Function.update s.pc t ((s.pc t).after (.change (t, e)))⟩
  | read {a : BTreeMap.ReadEvent Key T} {reader : ℕ → BTreeMap.Reader Key T}
      (hpc : s.pc t = .first ∨ s.pc t = .looking) :
      Sight cap s t (.queue (.read t a)) ⟨⟨s.queue.state, reader⟩, s.vars,
        Function.update s.pc t ((s.pc t).after (.read t a))⟩

theorem Step.sight {a : ℕ × Event T} (hstep : Step cap s a s') : Sight cap s a.1 a.2 s' := by
  cases hstep with
  | call hidle => exact .call hidle
  | @own t hstops hlook =>
      refine .own ?_ (access_own hlook)
      cases hpc : s.pc t <;> rw [hpc] at hlook <;> first | rfl | cases hlook
  | @queue t k a queue hlook hperform =>
      have hchange : ∀ {x : BTreeMap.Choice Key T}, s.queue.perform cap (.change x) =
          some (a, queue) → ∃ b q, BTreeMap.perform cap s.queue.state x = some (b, q) ∧
            a = .change b ∧ queue = ⟨q, s.queue.reader⟩ := by
        intro x hx
        obtain ⟨y, hy, heq⟩ := Option.map_eq_some_iff.mp hx
        cases heq
        exact ⟨y.1, y.2, hy, rfl, rfl⟩
      cases hpc : s.pc t with
      | insert adds k task =>
          rw [hpc] at hlook
          cases hlook
          obtain ⟨b, q, hinvoke, rfl, rfl⟩ := hchange hperform
          obtain ⟨hidle, rfl, rfl⟩ := perform_invoke hinvoke
          exact .insert hpc hidle
      | pick =>
          rw [hpc] at hlook
          cases hlook
          obtain ⟨b, q, hinvoke, rfl, rfl⟩ := hchange hperform
          obtain ⟨hidle, rfl, rfl⟩ := perform_invoke hinvoke
          exact .pick hpc hidle
      | inserting adds =>
          have hinside : (s.pc t).inside = true := by rw [hpc]; rfl
          rw [hpc] at hlook
          cases hlook
          obtain ⟨b, q, haccess, rfl, rfl⟩ := hchange hperform
          obtain ⟨hbusy, rfl, rfl⟩ := perform_access haccess
          rw [← hpc]
          exact .access hinside hbusy rfl
      | picking =>
          have hinside : (s.pc t).inside = true := by rw [hpc]; rfl
          rw [hpc] at hlook
          cases hlook
          obtain ⟨b, q, haccess, rfl, rfl⟩ := hchange hperform
          obtain ⟨hbusy, rfl, rfl⟩ := perform_access haccess
          rw [← hpc]
          exact .access hinside hbusy rfl
      | first =>
          rw [hpc] at hlook
          cases hlook
          simp only [Watched.perform] at hperform
          split at hperform <;> cases hperform
          rw [← hpc]
          exact .read (.inl hpc)
      | looking =>
          rw [hpc] at hlook
          cases hlook
          simp only [Watched.perform] at hperform
          split at hperform <;> cases hperform
          rw [← hpc]
          exact .read (.inr hpc)
      | _ =>
          rw [hpc] at hlook
          cases hlook

/-- The ids of the keys that have been passed to the ready queue. -/
def insertedIds (h : List (ℕ × Event T)) : List ℤ :=
  (BTreeMap.inserts (changes h)).map fun p => p.1.id

/-- Every id is taken once, and passed to the ready queue once by the CPU that has taken it. -/
structure Numbered (h : List (ℕ × Event T)) (s : State T) : Prop where
  pool : s.vars.idPool = wrap (ids h).length
  given : ∀ x ∈ ids h, ∃ j : ℕ, j < (ids h).length ∧ x = wrap j
  held : ∀ t x, (s.pc t).id = some x → x ∈ ids h ∧ x ∉ insertedIds h
  apart : ∀ t u x, (s.pc t).id = some x → (s.pc u).id = some x → t = u
  inserted : ∀ x ∈ insertedIds h, x ∈ ids h

/-- Fewer than `2 ^ 64` ids are taken. -/
def NoLap (h : List (ℕ × Event T)) (_ : State T) : ℕ × Event T → Prop
  | (_, .took _) => (ids h).length < 2 ^ 64
  | _ => True

theorem wrap_inj {j n : ℕ} (hj : j < 2 ^ 64) (hn : n < 2 ^ 64) (heq : wrap j = wrap n) : j = n := by
  have hj' : wrap j % 2 ^ 64 = j % 2 ^ 64 := Int.bmod_emod
  have hn' : wrap n % 2 ^ 64 = n % 2 ^ 64 := Int.bmod_emod
  omega

omit [DecidableEq T] in
/-- An id that is taken before the pool comes round is a new one. -/
theorem Numbered.fresh (hnum : Numbered h s) (hlap : (ids h).length < 2 ^ 64) :
    s.vars.idPool ∉ ids h := by
  intro hmem
  obtain ⟨j, hj, heq⟩ := hnum.given _ hmem
  rw [hnum.pool] at heq
  have hsame := wrap_inj (hj.trans hlap) hlap heq.symm
  omega

omit [DecidableEq T] in
/-- A step after which the ids are where they have been. -/
theorem Numbered.keep {p : Pc T} {q : Watched Key T} {v : Vars T} {e : Event T}
    (hnum : Numbered h s) (hpool : v.idPool = s.vars.idPool)
    (hid : ∀ x, p.id = some x → (s.pc t).id = some x)
    (hids : ids ((t, e) :: h) = ids h) (hinserted : insertedIds ((t, e) :: h) = insertedIds h) :
    Numbered ((t, e) :: h) ⟨q, v, Function.update s.pc t p⟩ := by
  have hback : ∀ u x, (Function.update s.pc t p u).id = some x → (s.pc u).id = some x := by
    intro u x hx
    by_cases hu : u = t
    · subst hu
      exact hid x (by simpa using hx)
    · simpa [hu] using hx
  constructor
  · rw [hids, hpool]
    exact hnum.pool
  · rw [hids]
    exact hnum.given
  · intro u x hx
    rw [hids, hinserted]
    exact hnum.held u x (hback u x hx)
  · intro u w x hu hw
    exact hnum.apart u w x (hback u x hu) (hback w x hw)
  · rw [hids, hinserted]
    exact hnum.inserted

omit [DecidableEq T] in
/-- A CPU takes an id. -/
theorem Numbered.take {p : Pc T} {v : Vars T} (hnum : Numbered h s)
    (hlap : (ids h).length < 2 ^ 64) (hpool : v.idPool = wrap (s.vars.idPool + 1))
    (hid : p.id = some s.vars.idPool) :
    Numbered ((t, .took s.vars.idPool) :: h) ⟨s.queue, v, Function.update s.pc t p⟩ := by
  have hfresh := hnum.fresh hlap
  have hids : ids ((t, .took s.vars.idPool) :: h) = s.vars.idPool :: ids h := rfl
  have hinserted : insertedIds ((t, .took s.vars.idPool) :: h) = insertedIds h := rfl
  constructor
  · rw [hids, List.length_cons, Nat.cast_succ, hpool, hnum.pool, wrap_wrap_add]
  · intro x hx
    rw [hids, List.mem_cons] at hx
    rw [hids, List.length_cons]
    rcases hx with rfl | hx
    · exact ⟨_, Nat.lt_succ_self _, hnum.pool⟩
    · obtain ⟨j, hj, heq⟩ := hnum.given x hx
      exact ⟨j, hj.trans (Nat.lt_succ_self _), heq⟩
  · intro u x hx
    rw [hids, hinserted]
    by_cases hu : u = t
    · subst hu
      simp only [Function.update_self, hid, Option.some.injEq] at hx
      subst hx
      exact ⟨List.mem_cons_self, fun hmem => hfresh (hnum.inserted _ hmem)⟩
    · simp only [Function.update_of_ne hu] at hx
      obtain ⟨hgiven, hout⟩ := hnum.held u x hx
      exact ⟨List.mem_cons_of_mem _ hgiven, hout⟩
  · intro u w x hu hw
    by_cases hut : u = t <;> by_cases hwt : w = t
    · rw [hut, hwt]
    · subst hut
      simp only [Function.update_self, hid, Option.some.injEq, Function.update_of_ne hwt] at hu hw
      subst hu
      exact absurd (hnum.held w _ hw).1 hfresh
    · subst hwt
      simp only [Function.update_self, hid, Option.some.injEq, Function.update_of_ne hut] at hu hw
      subst hw
      exact absurd (hnum.held u _ hu).1 hfresh
    · simp only [Function.update_of_ne hut, Function.update_of_ne hwt] at hu hw
      exact hnum.apart u w x hu hw
  · intro x hx
    exact List.mem_cons_of_mem _ (hnum.inserted x hx)

omit [DecidableEq T] in
/-- A CPU passes its id to the ready queue. -/
theorem Numbered.pass {adds : Bool} {k : Key} {task : T} {q : Watched Key T} (hnum : Numbered h s)
    (hpc : s.pc t = .insert adds k task) :
    Numbered ((t, .queue (.change (t, .call (.insert k task)))) :: h)
      ⟨q, s.vars, Function.update s.pc t (.inserting adds)⟩ := by
  have hhere : (s.pc t).id = some k.id := by
    rw [hpc]
    rfl
  have hinserted : insertedIds ((t, .queue (.change (t, .call (.insert k task)))) :: h) =
      k.id :: insertedIds h := rfl
  have hother : ∀ u x, (Function.update s.pc t (Pc.inserting adds) u).id = some x →
      u ≠ t ∧ (s.pc u).id = some x := by
    intro u x hx
    by_cases hu : u = t
    · subst hu
      simp [Pc.id] at hx
    · exact ⟨hu, by simpa [hu] using hx⟩
  refine ⟨hnum.pool, hnum.given, ?_, ?_, ?_⟩
  · intro u x hx
    obtain ⟨hu, hx⟩ := hother u x hx
    obtain ⟨hgiven, hout⟩ := hnum.held u x hx
    refine ⟨hgiven, ?_⟩
    rw [hinserted, List.mem_cons, not_or]
    refine ⟨?_, hout⟩
    rintro rfl
    exact hu (hnum.apart u t _ hx hhere)
  · intro u w x hu hw
    exact hnum.apart u w x (hother u x hu).2 (hother w x hw).2
  · intro x hx
    rw [hinserted, List.mem_cons] at hx
    rcases hx with rfl | hx
    · exact (hnum.held t _ hhere).1
    · exact hnum.inserted x hx

/-- The ready queue is used as a map whose keys are inserted once, and the ids see to that. -/
structure Inv (cap : ℕ) (h : List (ℕ × Event T)) (s : State T) : Prop where
  run : (BTreeMap.machine Key T cap).RunOf BTreeMap.Distinct (changes h) s.queue.state
  numbered : Numbered h s
  quiet : ∀ t, (s.pc t).inside = false → s.queue.state.pc t = .idle

omit [DecidableEq T] in
theorem start_id (o : Op T) : (start o).id = none := by
  cases o <;> rfl

omit [DecidableEq T] in
theorem after_id {a : Act Key T} (p : Pc T) (hinside : p.inside = true) :
    (p.after a).id = none := by
  cases p with
  | inserting adds =>
      unfold Pc.after
      split <;> rfl
  | picking =>
      unfold Pc.after
      split <;> rfl
  | _ => cases hinside

omit [DecidableEq T] in
theorem after_read {a : BTreeMap.ReadEvent Key T} {p : Pc T} (hp : p = .first ∨ p = .looking) :
    (p.after (.read t a)).id = none ∧ (p.after (.read t a)).task = none ∧
      (p.after (.read t a)).inside = false := by
  rcases hp with rfl | rfl
  · exact ⟨rfl, rfl, rfl⟩
  · cases a with
    | answer x => cases x <;> exact ⟨rfl, rfl, rfl⟩
    | ask q => exact ⟨rfl, rfl, rfl⟩
    | silent => exact ⟨rfl, rfl, rfl⟩

omit [DecidableEq T] in
/-- A CPU leaves a call of the ready queue when it returns. -/
theorem after_inside {e : BTreeMap.Event Key T} (p : Pc T) (hinside : p.inside = true)
    (hout : (p.after (.change (t, e))).inside = false) : ∃ r, e = .ret r := by
  cases e with
  | ret r => exact ⟨r, rfl⟩
  | _ =>
      cases p with
      | inserting adds => cases adds <;> cases hout
      | picking => cases hout
      | _ => cases hinside

omit [DecidableEq T] in
/-- The other CPUs stand where they have stood. -/
theorem quiet_update {p : Pc T} {q : ℕ → BTreeMap.Pc Key T} {p' : BTreeMap.Pc Key T}
    (hquiet : ∀ t, (s.pc t).inside = false → q t = .idle) (hp : p.inside = false → p' = .idle) :
    ∀ u, (Function.update s.pc t p u).inside = false → Function.update q t p' u = .idle := by
  intro u hu
  by_cases hut : u = t
  · subst hut
    simp only [Function.update_self] at hu ⊢
    exact hp hu
  · simp only [Function.update_of_ne hut] at hu ⊢
    exact hquiet u hu

omit [DecidableEq T] in
theorem Inv.step {e : Event T} (hinv : Inv cap h s) (hlap : NoLap h s (t, e))
    (hsight : Sight cap s t e s') : Inv cap ((t, e) :: h) s' := by
  cases hsight with
  | @call o hidle =>
      refine ⟨hinv.run, hinv.numbered.keep rfl ?_ rfl rfl, ?_⟩
      · intro x hx
        rw [start_id] at hx
        cases hx
      · intro u hu
        by_cases hut : u = t
        · subst hut
          exact hinv.quiet u (by rw [hidle]; rfl)
        · exact hinv.quiet u (by simpa [hut] using hu)
  | own hinside hown =>
      have hquiet : ∀ {p : Pc T} u, (Function.update s.pc t p u).inside = false →
          s.queue.state.pc u = .idle := by
        intro p u hu
        by_cases hut : u = t
        · subst hut
          exact hinv.quiet u hinside
        · exact hinv.quiet u (by simpa [hut] using hu)
      cases hown with
      | took hpool hid hid' _ _ => exact ⟨hinv.run, hinv.numbered.take hlap hpool hid', hquiet⟩
      | other hpool hid _ _ hevent =>
          rcases hevent with rfl | ⟨r, rfl⟩
          · exact ⟨hinv.run, hinv.numbered.keep hpool (fun x hx => hid ▸ hx) rfl rfl, hquiet⟩
          · exact ⟨hinv.run, hinv.numbered.keep hpool (fun x hx => hid ▸ hx) rfl rfl, hquiet⟩
  | @insert adds k task hpc hidle =>
      have hhere : (s.pc t).id = some k.id := by
        rw [hpc]
        rfl
      refine ⟨hinv.run.next ?_ (.call hidle), hinv.numbered.pass hpc,
        quiet_update hinv.quiet fun hin => by cases hin⟩
      intro hmem
      obtain ⟨p, hp, rfl⟩ := List.mem_map.mp hmem
      exact (hinv.numbered.held t _ hhere).2 (List.mem_map.mpr ⟨p, hp, rfl⟩)
  | pick hpc hidle =>
      refine ⟨hinv.run.next trivial (.call hidle), hinv.numbered.keep rfl ?_ rfl rfl,
        quiet_update hinv.quiet fun hin => by cases hin⟩
      intro x hx
      cases hx
  | @access e hinside hbusy he =>
      have hbound := (BTreeMap.Inv.of_run hinv.run).bounded t
      have hturn := BTreeMap.tick_turn (m := s.queue.state.mem) hbound
      have hcall := hturn.not_call
      have hstep : BTreeMap.Step cap s.queue.state _ _ := .tick hbusy
      rw [he] at hstep
      refine ⟨hinv.run.next ?_ hstep, hinv.numbered.keep rfl ?_ rfl ?_, ?_⟩
      · rw [he] at hcall
        cases e with
        | call c => exact absurd rfl (hcall c)
        | _ => exact trivial
      · intro x hx
        rw [after_id _ hinside] at hx
        cases hx
      · have hsame := BTreeMap.inserts_tick (t := t) (h := changes h) hturn
        rw [he] at hsame
        exact congrArg (List.map fun p => p.1.id) hsame
      · refine quiet_update hinv.quiet fun hout => ?_
        obtain ⟨r, rfl⟩ := after_inside _ hinside hout
        exact BTreeMap.tick_ends _ r he
  | read hpc =>
      refine ⟨hinv.run, hinv.numbered.keep rfl ?_ rfl rfl, ?_⟩
      · intro x hx
        rw [(after_read hpc).1] at hx
        cases hx
      · intro u hu
        by_cases hut : u = t
        · subst hut
          exact hinv.quiet u (by rcases hpc with hpc | hpc <;> rw [hpc] <;> rfl)
        · exact hinv.quiet u (by simpa [hut] using hu)

theorem Inv.of_run {tasks : T → CFSTask} (hrun : (machine cap tasks).RunOf NoLap h s) :
    Inv cap h s := by
  refine hrun.invariant ?_ ?_
  · rintro _ rfl
    refine ⟨.start rfl, ⟨by simp [State.new, ids, wrap], ?_, ?_, ?_, ?_⟩, fun _ _ => rfl⟩
    · intro x hx
      cases hx
    · intro t x hx
      cases hx
    · intro t u x hx
      cases hx
    · intro x hx
      cases hx
  · intro h s a s' _ hinv hlap hstep
    exact hinv.step hlap hstep.sight

section Tasks

/-- The task that CPU `t` is handing in. -/
def State.handing (s : State T) (t : ℕ) : Option T :=
  match (s.pc t).task with
  | some task => some task
  | none => ((s.queue.state.pc t).pending).map Prod.snd

/-- The task that CPU `t` has taken out of the ready queue and not returned yet. -/
def State.taking (s : State T) (t : ℕ) : Option T :=
  (s.queue.state.hands t).map Prod.snd

/-- The tasks that the ready queue has refused. -/
def refused (h : List (ℕ × Event T)) : List T :=
  (changes h).filterMap fun a =>
    match a.2 with
    | .ret (.inserted _ task none) => some task
    | _ => none

/-- The tasks that have been picked. -/
def picked (h : List (ℕ × Event T)) : List T :=
  (BTreeMap.popped (changes h)).map Prod.snd

omit [DecidableEq T] in
theorem handing_none (hinv : Inv cap h s) (hidle : s.pc t = .idle) : s.handing t = none := by
  have hqueue := hinv.quiet t (by rw [hidle]; rfl)
  simp [State.handing, hidle, hqueue, Pc.task, BTreeMap.Pc.pending]

omit [DecidableEq T] in
theorem handing_inside {p : Pc T} (hinside : p.inside = true) (a : Act Key T) :
    p.task = none ∧ (p.after a).task = none := by
  cases p with
  | inserting adds =>
      refine ⟨rfl, ?_⟩
      unfold Pc.after
      split <;> rfl
  | picking =>
      refine ⟨rfl, ?_⟩
      unfold Pc.after
      split <;> rfl
  | _ => cases hinside

omit [DecidableEq T] in
/-- The other CPUs are handing in what they have been handing in. -/
theorem handing_update {o : Option T} (hpc : ∀ u, u ≠ t → s'.pc u = s.pc u)
    (hqueue : ∀ u, u ≠ t → s'.queue.state.pc u = s.queue.state.pc u) (hhere : s'.handing t = o) :
    s'.handing = Function.update s.handing t o := by
  funext u
  by_cases hu : u = t
  · subst hu
    simpa using hhere
  · simp [hu, State.handing, hpc u hu, hqueue u hu]

/-- Where the tasks are that have been handed in by the CPUs below `n`. -/
structure Handed (n : ℕ) (h : List (ℕ × Event T)) (s : State T) : Prop where
  within : ∀ t, n ≤ t → s.pc t = .idle
  tasks : (handedIn h).Perm
    ((BTreeMap.stored (changes h)).map Prod.snd ++ (refused h ++ Slots.contents n s.handing))

omit [DecidableEq T] in
theorem within_update {p : Pc T} (hwithin : ∀ t, n ≤ t → s.pc t = .idle) (ht : t < n) :
    ∀ u, n ≤ u → Function.update s.pc t p u = .idle := by
  intro u hu
  have hut : u ≠ t := by omega
  simpa [hut] using hwithin u hu

omit [DecidableEq T] in
/-- A step after which the tasks are where they have been. -/
theorem Handed.keep {p : Pc T} {q : Watched Key T} {v : Vars T} {e : Event T}
    (hhanded : Handed n h s) (ht : t < n)
    (hqueue : ∀ u, u ≠ t → q.state.pc u = s.queue.state.pc u)
    (hhere : State.handing ⟨q, v, Function.update s.pc t p⟩ t = s.handing t)
    (hin : handedIn ((t, e) :: h) = handedIn h)
    (hstored : BTreeMap.stored (changes ((t, e) :: h)) = BTreeMap.stored (changes h))
    (hrefused : refused ((t, e) :: h) = refused h) :
    Handed n ((t, e) :: h) ⟨q, v, Function.update s.pc t p⟩ := by
  refine ⟨within_update hhanded.within ht, ?_⟩
  have hsame : State.handing ⟨q, v, Function.update s.pc t p⟩ = s.handing := by
    have hupdate := handing_update (fun u hu => Function.update_of_ne hu p s.pc) hqueue hhere
    rwa [Function.update_eq_self] at hupdate
  rw [hin, hstored, hrefused, hsame]
  exact hhanded.tasks

omit [DecidableEq T] in
/-- A CPU is handed a task. -/
theorem Handed.fill {p : Pc T} {e : Event T} {task : T} (hhanded : Handed n h s) (ht : t < n)
    (hnone : s.handing t = none) (htask : p.task = some task)
    (hin : handedIn ((t, e) :: h) = task :: handedIn h)
    (hchanges : changes ((t, e) :: h) = changes h) :
    Handed n ((t, e) :: h) { s with pc := Function.update s.pc t p } := by
  refine ⟨within_update hhanded.within ht, ?_⟩
  have hupdate : State.handing { s with pc := Function.update s.pc t p } =
      Function.update s.handing t (some task) := by
    refine handing_update (fun u hu => Function.update_of_ne hu p s.pc) (fun _ _ => rfl) ?_
    simp [State.handing, htask]
  have hrefused : refused ((t, e) :: h) = refused h := by rw [refused, hchanges, refused]
  rw [hin, hchanges, hrefused, hupdate]
  calc List.Perm (task :: handedIn h) (task :: ((BTreeMap.stored (changes h)).map Prod.snd ++
        (refused h ++ Slots.contents n s.handing))) := hhanded.tasks.cons _
    List.Perm _ ((BTreeMap.stored (changes h)).map Prod.snd ++
        (refused h ++ task :: Slots.contents n s.handing)) := by
        rw [← List.append_assoc, ← List.append_assoc]
        exact List.perm_middle.symm
    List.Perm _ _ := ((Slots.contents_fill ht hnone).symm.append_left _).append_left _

omit [DecidableEq T] in
/-- The ready queue takes a task, or refuses it. -/
theorem Handed.settle {p : Pc T} {q : Watched Key T} {v : Vars T} {e : Event T}
    (hhanded : Handed n h s) (task : T) (ht : t < n) (hsome : s.handing t = some task)
    (hqueue : ∀ u, u ≠ t → q.state.pc u = s.queue.state.pc u)
    (hnone : State.handing ⟨q, v, Function.update s.pc t p⟩ t = none)
    (hin : handedIn ((t, e) :: h) = handedIn h)
    (hsettled : ((BTreeMap.stored (changes ((t, e) :: h))).map Prod.snd ++
      refused ((t, e) :: h)).Perm
        (task :: ((BTreeMap.stored (changes h)).map Prod.snd ++ refused h))) :
    Handed n ((t, e) :: h) ⟨q, v, Function.update s.pc t p⟩ := by
  refine ⟨within_update hhanded.within ht, ?_⟩
  have hupdate : State.handing ⟨q, v, Function.update s.pc t p⟩ =
      Function.update s.handing t none :=
    handing_update (fun u hu => Function.update_of_ne hu p s.pc) hqueue hnone
  have hempty := Slots.contents_empty ht hsome
  rw [hin, hupdate, ← List.append_assoc]
  calc List.Perm (handedIn h) ((BTreeMap.stored (changes h)).map Prod.snd ++
        (refused h ++ Slots.contents n s.handing)) := hhanded.tasks
    List.Perm _ ((BTreeMap.stored (changes h)).map Prod.snd ++ refused h ++
        task :: Slots.contents n (Function.update s.handing t none)) := by
        rw [← List.append_assoc]
        exact hempty.append_left _
    List.Perm _ (task :: ((BTreeMap.stored (changes h)).map Prod.snd ++ refused h) ++
        Slots.contents n (Function.update s.handing t none)) := List.perm_middle
    List.Perm _ _ := hsettled.symm.append_right _

omit [DecidableEq T] in
theorem Handed.step {e : Event T} (hinv : Inv cap h s) (hhanded : Handed n h s) (ht : t < n)
    (hsight : Sight cap s t e s') : Handed n ((t, e) :: h) s' := by
  cases hsight with
  | @call o hidle =>
      have hnone := handing_none hinv hidle
      have hqueue := hinv.quiet t (by rw [hidle]; rfl)
      cases o with
      | addTask task => exact hhanded.fill ht hnone rfl rfl rfl
      | putPrevTask prev => exact hhanded.fill ht hnone rfl rfl rfl
      | _ =>
          refine hhanded.keep ht (fun _ _ => rfl) ?_ rfl rfl rfl
          rw [hnone]
          simp [State.handing, start, Pc.task, hqueue, BTreeMap.Pc.pending]
  | own hinside hown =>
      cases hown with
      | took hpool hid hid' htask _ =>
          refine hhanded.keep ht (fun _ _ => rfl) ?_ rfl rfl rfl
          simp [State.handing, htask]
      | other hpool hid htask _ hevent =>
          rcases hevent with rfl | ⟨r, rfl⟩
          · refine hhanded.keep ht (fun _ _ => rfl) ?_ rfl rfl rfl
            simp [State.handing, htask]
          · refine hhanded.keep ht (fun _ _ => rfl) ?_ rfl rfl rfl
            simp [State.handing, htask]
  | insert hpc hidle =>
      refine hhanded.keep ht (fun u hu => Function.update_of_ne hu _ _) ?_ rfl rfl rfl
      simp [State.handing, hpc, Pc.task, BTreeMap.Pc.pending]
  | pick hpc hidle =>
      refine hhanded.keep ht (fun u hu => Function.update_of_ne hu _ _) ?_ rfl rfl rfl
      simp [State.handing, hpc, Pc.task, BTreeMap.Pc.pending, hidle]
  | @access e hinside hbusy he =>
      have hbound := (BTreeMap.Inv.of_run hinv.run).bounded t
      have hturn := BTreeMap.tick_turn (m := s.queue.state.mem) hbound
      have hpending : ¬ (BTreeMap.tick cap s.queue.state.mem (s.queue.state.pc t)).2.2.Settles →
          _ := BTreeMap.tick_pending hbound
      obtain ⟨htask, htask'⟩ := handing_inside hinside (.change (t, e))
      have hother : ∀ u, u ≠ t → Function.update s.queue.state.pc t
          (BTreeMap.tick cap s.queue.state.mem (s.queue.state.pc t)).2.1 u = s.queue.state.pc u :=
        fun u hu => Function.update_of_ne hu _ _
      rw [he] at hpending
      by_cases hsettles : e.Settles
      · cases e with
        | stored i p =>
            obtain ⟨hsome, hnone⟩ := hturn.stored_pending he
            refine hhanded.settle p.2 ht ?_ hother ?_ rfl (.refl _)
            · simp [State.handing, htask, hsome]
            · simp [State.handing, htask', hnone]
        | ret r =>
            cases r with
            | inserted k task o =>
                cases o with
                | none =>
                    obtain ⟨hsome, hnone⟩ := hturn.failed_pending he
                    refine hhanded.settle task ht ?_ hother ?_ rfl List.perm_middle
                    · simp [State.handing, htask, hsome]
                    · simp [State.handing, htask', hnone]
                | some o => exact hsettles.elim
            | popped o => exact hsettles.elim
            | cleared => exact hsettles.elim
        | call c => exact hsettles.elim
        | took i => exact hsettles.elim
        | freed i o => exact hsettles.elim
        | silent => exact hsettles.elim
      · have hstored : BTreeMap.stored (changes ((t, .queue (.change (t, e))) :: h)) =
            BTreeMap.stored (changes h) := by
          cases e with
          | stored i p => exact absurd trivial hsettles
          | _ => rfl
        have hrefused : refused ((t, .queue (.change (t, e))) :: h) = refused h := by
          cases e with
          | ret r =>
              cases r with
              | inserted k task o =>
                  cases o with
                  | none => exact absurd trivial hsettles
                  | some o => rfl
              | popped o => rfl
              | cleared => rfl
          | _ => rfl
        refine hhanded.keep ht hother ?_ rfl hstored hrefused
        simp [State.handing, htask, htask', hpending hsettles]
  | @read a reader hpc =>
      have htask : (s.pc t).task = none := by
        rcases hpc with hpc | hpc <;> rw [hpc] <;> rfl
      refine hhanded.keep ht (fun _ _ => rfl) ?_ rfl rfl rfl
      simp [State.handing, htask, (after_read hpc).2.1]

/-- The task of the entry in slot `i`, the slot being valid or locked. -/
def slotTask (m : BTreeMap.Mem Key T) (i : ℕ) : Option T :=
  match (m.word i).state with
  | .valid => (m.entry i).map fun e => e.value
  | .deleting => (m.entry i).map fun e => e.value
  | _ => none

/-- The tasks in the ready queue. -/
def State.queued (cap : ℕ) (s : State T) : List T :=
  Slots.contents cap (slotTask s.queue.state.mem)

omit [DecidableEq T] in
theorem Inv.slotTask_eq (hinv : Inv cap h s) {i : ℕ} (hi : i < cap) :
    slotTask s.queue.state.mem i = (BTreeMap.cells (changes h) i).map Prod.snd := by
  have hholds := fun p => (BTreeMap.Inv.of_run hinv.run).holds_iff (p := p)
    (BTreeMap.Once.of_run hinv.run).plain hi
  cases hcell : BTreeMap.cells (changes h) i with
  | some p =>
      obtain ⟨hstate, e, hentry, rfl⟩ := (hholds p).mpr hcell
      rcases hstate with hstate | hstate <;> simp [slotTask, hstate, hentry, BTreeMap.Entry.pair]
  | none =>
      rw [Option.map_none, slotTask]
      cases hentry : s.queue.state.mem.entry i with
      | none => split <;> rfl
      | some e =>
          have hout : ¬ s.queue.state.Holds i e.pair := by
            rw [hholds, hcell]
            simp
          split
          case _ hstate => exact absurd ⟨.inl hstate, e, hentry, rfl⟩ hout
          case _ hstate => exact absurd ⟨.inr hstate, e, hentry, rfl⟩ hout
          case _ => rfl

omit [DecidableEq T] in
theorem Inv.queued_eq (hinv : Inv cap h s) :
    s.queued cap = (Slots.contents cap (BTreeMap.cells (changes h))).map Prod.snd := by
  rw [State.queued, ← Slots.contents_map]
  exact Slots.contents_congr fun i hi => hinv.slotTask_eq hi

omit [DecidableEq T] in
/-- Every task that has been handed in is in the ready queue, has been picked or refused, or
is on its way in or out with one CPU. -/
theorem Handed.places (hinv : Inv cap h s) (hhanded : Handed n h s) :
    (handedIn h).Perm (s.queued cap ++ picked h ++ Slots.contents n s.taking ++
      (refused h ++ Slots.contents n s.handing)) := by
  obtain ⟨n', hled⟩ := BTreeMap.Ledger.of_run hinv.run
  have hhands : ∀ t, n ≤ t → s.queue.state.hands t = none := by
    intro t ht
    have hidle := hinv.quiet t (by rw [hhanded.within t ht]; rfl)
    rw [BTreeMap.State.hands, hidle]
    rfl
  have hwide := (hled.widen (le_max_right n n')).hands
  rw [Slots.contents_widen (le_max_left n n') hhands] at hwide
  have hstored := (hled.slots.trans (hwide.append_left _)).map Prod.snd
  rw [List.map_append, List.map_append, ← hinv.queued_eq, ← List.append_assoc,
    ← Slots.contents_map] at hstored
  exact hhanded.tasks.trans (hstored.append_right _)

end Tasks

section Room

/-- The slot that CPU `t` will look at first for the task it is handing in, or looks at. -/
def State.place (s : State T) (t : ℕ) : Option ℕ :=
  match (s.pc t).task with
  | some _ => some 0
  | none => (s.queue.state.pc t).place

/-- How many of the CPUs below `n` are handing in a task that has no slot yet. -/
def State.handers (n : ℕ) (s : State T) : ℕ := FirstFit.seekers n s.place 0

/-- The CPUs are numbered below `n`; a task is handed in while the slots that are not free and
the tasks that are being handed in leave a slot; and fewer than `2 ^ 64` ids are taken. -/
def Spacious (n cap : ℕ) (h : List (ℕ × Event T)) (s : State T) : ℕ × Event T → Prop
  | (t, .call (.addTask _)) => t < n ∧ s.handers n + (s.queue.state.mem.used cap).card < cap
  | (t, .call (.putPrevTask _)) => t < n ∧ s.handers n + (s.queue.state.mem.used cap).card < cap
  | (t, .took _) => t < n ∧ (ids h).length < 2 ^ 64
  | (t, _) => t < n

omit [DecidableEq T] in
theorem Spacious.lt {a : ℕ × Event T} (hguard : Spacious n cap h s a) : a.1 < n := by
  obtain ⟨t, e⟩ := a
  cases e with
  | call o => cases o <;> first | exact hguard.1 | exact hguard
  | took taskid => exact hguard.1
  | _ => exact hguard

omit [DecidableEq T] in
theorem Spacious.noLap {a : ℕ × Event T} (hguard : Spacious n cap h s a) : NoLap h s a := by
  obtain ⟨t, e⟩ := a
  cases e with
  | took taskid => exact hguard.2
  | _ => exact trivial

omit [DecidableEq T] in
/-- The other CPUs stand in front of the slots they have stood in front of. -/
theorem place_update {o : Option ℕ} (hpc : ∀ u, u ≠ t → s'.pc u = s.pc u)
    (hqueue : ∀ u, u ≠ t → s'.queue.state.pc u = s.queue.state.pc u) (hhere : s'.place t = o) :
    s'.place = Function.update s.place t o := by
  funext u
  by_cases hu : u = t
  · subst hu
    simpa using hhere
  · simp [hu, State.place, hpc u hu, hqueue u hu]

/-- There is a slot for every task that is being handed in, and none has been refused. -/
structure Room (n cap : ℕ) (h : List (ℕ × Event T)) (s : State T) : Prop where
  roomy : FirstFit.Roomy n cap s.place (s.queue.state.mem.used cap)
  accepted : refused h = []

omit [DecidableEq T] in
/-- A step after which a CPU stands in front of the same slot, or gives up. -/
theorem Room.keep {p : Pc T} {q : Watched Key T} {v : Vars T} {e : Event T} {o : Option ℕ}
    (hroom : Room n cap h s) (ht : t < n) (hqueue : ∀ u, u ≠ t → q.state.pc u = s.queue.state.pc u)
    (hhere : State.place ⟨q, v, Function.update s.pc t p⟩ t = o) (ho : o = none ∨ o = s.place t)
    (hused : q.state.mem = s.queue.state.mem) (hrefused : refused ((t, e) :: h) = refused h) :
    Room n cap ((t, e) :: h) ⟨q, v, Function.update s.pc t p⟩ := by
  refine ⟨?_, hrefused.trans hroom.accepted⟩
  rw [place_update (fun u hu => Function.update_of_ne hu p s.pc) hqueue hhere, hused]
  refine hroom.roomy.shrink ht (fun i => ?_) subset_rfl
  rcases ho with rfl | rfl
  · exact Nat.zero_le _
  · exact le_rfl

omit [DecidableEq T] in
theorem Room.step {e : Event T} (hinv : Inv cap h s) (hroom : Room n cap h s)
    (hguard : Spacious n cap h s (t, e)) (hsight : Sight cap s t e s') :
    Room n cap ((t, e) :: h) s' := by
  have ht : t < n := hguard.lt
  cases hsight with
  | @call o hidle =>
      have hqueue := hinv.quiet t (by rw [hidle]; rfl)
      have hnone : s.place t = none := by
        simp [State.place, hidle, hqueue, Pc.task, BTreeMap.Pc.place]
      have hjoin : ∀ {p : Pc T} {task : T}, p.task = some task →
          s.handers n + (s.queue.state.mem.used cap).card < cap → FirstFit.Roomy n cap
            (State.place { s with pc := Function.update s.pc t p })
            (s.queue.state.mem.used cap) := by
        intro p task htask hlt
        have hupdate : State.place { s with pc := Function.update s.pc t p } =
            Function.update s.place t (some 0) := by
          refine place_update (fun u hu => Function.update_of_ne hu p s.pc) (fun _ _ => rfl) ?_
          simp [State.place, htask]
        rw [hupdate]
        exact hroom.roomy.join ht hnone hlt
      cases o with
      | addTask task => exact ⟨hjoin rfl hguard.2, hroom.accepted⟩
      | putPrevTask prev => exact ⟨hjoin rfl hguard.2, hroom.accepted⟩
      | _ =>
          refine hroom.keep ht (fun _ _ => rfl) ?_ (.inl rfl) rfl rfl
          simp [State.place, start, Pc.task, hqueue, BTreeMap.Pc.place]
  | own hinside hown =>
      cases hown with
      | took hpool hid hid' htask _ =>
          refine hroom.keep ht (fun _ _ => rfl) ?_ (.inr rfl) rfl rfl
          simp [State.place, htask]
      | other hpool hid htask _ hevent =>
          rcases hevent with rfl | ⟨r, rfl⟩
          · refine hroom.keep ht (fun _ _ => rfl) ?_ (.inr rfl) rfl rfl
            simp [State.place, htask]
          · refine hroom.keep ht (fun _ _ => rfl) ?_ (.inr rfl) rfl rfl
            simp [State.place, htask]
  | insert hpc hidle =>
      refine hroom.keep ht (fun u hu => Function.update_of_ne hu _ _) ?_ (.inr rfl) rfl rfl
      simp [State.place, hpc, Pc.task, BTreeMap.Pc.place]
  | pick hpc hidle =>
      refine hroom.keep ht (fun u hu => Function.update_of_ne hu _ _) ?_ (.inl rfl) rfl rfl
      simp [State.place, Pc.task, BTreeMap.Pc.place]
  | @access e hinside hbusy he =>
      obtain ⟨htask, htask'⟩ := handing_inside hinside (.change (t, e))
      have hplace : s.place t = (s.queue.state.pc t).place := by simp [State.place, htask]
      obtain ⟨hroomy, hevent⟩ :=
        BTreeMap.tick_room (BTreeMap.Inv.of_run hinv.run) hroom.roomy ht hplace
      rw [he] at hevent
      refine ⟨?_, ?_⟩
      · convert hroomy using 1
        refine place_update (fun u hu => Function.update_of_ne hu _ _)
          (fun u hu => Function.update_of_ne hu _ _) ?_
        simp [State.place, htask']
      · refine Eq.trans ?_ hroom.accepted
        cases e with
        | ret r =>
            cases r with
            | inserted k task o =>
                cases o with
                | none => exact absurd rfl (hevent k task)
                | some o => rfl
            | popped o => rfl
            | cleared => rfl
        | _ => rfl
  | @read a reader hpc =>
      have htask : (s.pc t).task = none := by
        rcases hpc with hpc | hpc <;> rw [hpc] <;> rfl
      refine hroom.keep ht (fun _ _ => rfl) ?_ (.inr rfl) rfl rfl
      simp [State.place, htask, (after_read hpc).2.1]

/-- A ready queue with room for the tasks handed in, however the CPUs interfere: every task
that has been handed in is in the ready queue or has been picked, or one CPU is handing it in
or about to return it; and as often as it has been handed in. -/
theorem tasks_kept {tasks : T → CFSTask} (hrun : (machine cap tasks).RunOf (Spacious n cap) h s) :
    (handedIn h).Perm (s.queued cap ++ picked h ++ Slots.contents n s.taking ++
      Slots.contents n s.handing) := by
  have hinv : ∀ {h : List (ℕ × Event T)} {s : State T},
      (machine cap tasks).RunOf (Spacious n cap) h s → Inv cap h s :=
    fun hrun => Inv.of_run (hrun.mono fun _ _ _ hg => hg.noLap)
  have hall : Handed n h s ∧ Room n cap h s := by
    refine hrun.invariant (I := fun h s => Handed n h s ∧ Room n cap h s) ?_ ?_
    · rintro _ rfl
      refine ⟨⟨fun _ _ => rfl, ?_⟩, ?_, rfl⟩
      · have hnil : Slots.contents n (State.new tasks).handing = [] := by
          simp [Slots.contents, State.handing, State.new, Watched.init, BTreeMap.State.init,
            Pc.task, BTreeMap.Pc.pending]
        rw [hnil]
        exact .refl _
      · have hused : (State.new tasks).queue.state.mem.used cap = ∅ := by
          ext i
          simp [BTreeMap.Mem.mem_used, State.new, Watched.init, BTreeMap.State.init,
            BTreeMap.Mem.new]
        rw [hused]
        exact FirstFit.Roomy.empty n cap
    · rintro h s a s' hprev ⟨hhanded, hroom⟩ hguard hstep
      exact ⟨hhanded.step (hinv hprev) hguard.lt hstep.sight,
        hroom.step (hinv hprev) hguard hstep.sight⟩
  have hplaces := hall.1.places (hinv hrun)
  rw [hall.2.accepted, List.nil_append] at hplaces
  exact hplaces

instance (h : List (ℕ × Event T)) (s : State T) (a : ℕ × Event T) :
    Decidable (Spacious n cap h s a) :=
  match a with
  | (_, .call (.addTask _)) => inferInstanceAs (Decidable (_ ∧ _))
  | (_, .call (.putPrevTask _)) => inferInstanceAs (Decidable (_ ∧ _))
  | (t, .call .pickNextTask) => inferInstanceAs (Decidable (t < n))
  | (t, .call (.taskTick _)) => inferInstanceAs (Decidable (t < n))
  | (t, .call (.setPriority _ _)) => inferInstanceAs (Decidable (t < n))
  | (_, .took _) => inferInstanceAs (Decidable (_ ∧ _))
  | (t, .queue _) => inferInstanceAs (Decidable (t < n))
  | (t, .ret _) => inferInstanceAs (Decidable (t < n))
  | (t, .silent) => inferInstanceAs (Decidable (t < n))

/-- CPU `1` wakes task `8` while CPU `0` adds task `7`; and it hands in task `9` when CPU `0`
has taken out task `7`. -/
def wokenMeanwhile : List (Choice ℕ) :=
  .call 0 (.addTask 7) :: goes 0 9 ++ .call 1 (.putPrevTask 8) ::
    goes 1 5 ++ goes 0 13 ++ goes 1 8 ++ .call 0 .pickNextTask :: goes 0 14 ++
    [.call 1 (.putPrevTask 9)]

theorem tasks_kept_three : ∃ (h : List (ℕ × Event ℕ)) (s : State ℕ),
    (machine 2 fun _ => CFSTask.new).RunOf (Spacious 2 2) h s ∧ handedIn h = [9, 8, 7] ∧
      s.queued 2 = [8] ∧ Slots.contents 2 s.taking = [7] ∧ Slots.contents 2 s.handing = [9] ∧
      (handedIn h).Perm (s.queued 2 ++ picked h ++ Slots.contents 2 s.taking ++
        Slots.contents 2 s.handing) := by
  let r := (playAll 2 (fun _ => CFSTask.new) (Spacious 2 2) wokenMeanwhile).get
    (by decide +kernel)
  have hrun : (machine 2 fun _ => CFSTask.new).RunOf (Spacious 2 2) r.1 r.2 :=
    playAll_run (Option.some_get _).symm
  have hin : handedIn r.1 = [9, 8, 7] := by decide +kernel
  have hqueued : r.2.queued 2 = [8] := by decide +kernel
  have htaking : Slots.contents 2 r.2.taking = [7] := by decide +kernel
  have hhanding : Slots.contents 2 r.2.handing = [9] := by decide +kernel
  generalize r = r at hrun hin hqueued htaking hhanding
  exact ⟨r.1, r.2, hrun, hin, hqueued, htaking, hhanding, tasks_kept hrun⟩

end Room

section Unwrap

/-- A CPU in `add_task` or `task_tick`. -/
def Pc.minds : Pc T → Bool
  | .checkMin _ => true
  | .resetMin _ => true
  | .loadMin _ => true
  | .panicked _ => true
  | .takeId _ (some _) => true
  | .setVruntime _ _ _ => true
  | .setId _ (some _) _ => true
  | .insert true _ _ => true
  | .inserting true => true
  | .first => true
  | .looking => true
  | .storeMin _ => true
  | .tick _ => true
  | .isEmpty _ => true
  | .tickCheck _ => true
  | .tickVruntime _ => true
  | .tickMin _ => true
  | _ => false

/-- A CPU that is about to `unwrap` the cached minimum. -/
def Pc.unwraps : Pc T → Bool
  | .loadMin _ => true
  | .tickVruntime _ => true
  | .tickMin _ => true
  | _ => false

/-- `add_task` and `task_tick` are called by CPU `o` only, the one the scheduler belongs to. -/
def OwnedBy (o : ℕ) (_ : List (ℕ × Event T)) (_ : State T) : ℕ × Event T → Prop
  | (t, .call (.addTask _)) => t = o
  | (t, .call (.taskTick _)) => t = o
  | _ => True

/-- The cached minimum is there when it is unwrapped. -/
structure Cached (o : ℕ) (s : State T) : Prop where
  only : ∀ t, t ≠ o → (s.pc t).minds = false
  some : (s.pc o).unwraps = true → s.vars.minVruntime ≠ none
  running : ∀ t task, s.pc t ≠ .panicked task

/-- What an access outside the ready queue does to the cached minimum: a CPU that does not mind
it leaves it alone, and one that does panics only if it unwraps `None`. -/
structure Mindful (v : Vars T) (p : Pc T) (x : Vars T × Pc T × Event T) : Prop where
  quiet : p.minds = false → x.1.minVruntime = v.minVruntime ∧ x.2.1.minds = false
  some : (p.unwraps = true → v.minVruntime ≠ none) →
    x.2.1.unwraps = true → x.1.minVruntime ≠ none
  running : (p.unwraps = true → v.minVruntime ≠ none) → (∀ task, p ≠ .panicked task) →
    ∀ task, x.2.1 ≠ .panicked task

theorem access_mindful (m : BTreeMap.Mem Key T) (v : Vars T) (p : Pc T) :
    Mindful v p (access m v p) := by
  cases p with
  | checkMin task =>
      cases hmin : v.minVruntime with
      | none =>
          simp only [access, hmin, Option.isNone_none, if_true]
          exact ⟨nofun, fun _ => nofun, fun _ _ _ => nofun⟩
      | some vruntime =>
          simp only [access, hmin, Option.isNone_some, Bool.false_eq_true, if_false]
          exact ⟨nofun, fun _ _ => by simp [hmin], fun _ _ _ => nofun⟩
  | loadMin task =>
      cases hmin : v.minVruntime with
      | none =>
          simp only [access, hmin]
          exact ⟨nofun, fun _ => nofun, fun hload => absurd hmin (hload rfl)⟩
      | some vruntime =>
          simp only [access, hmin]
          exact ⟨nofun, fun _ => nofun, fun _ _ _ => nofun⟩
  | tickCheck current =>
      cases hmin : v.minVruntime with
      | none =>
          simp only [access, hmin, Option.isNone_none, if_true]
          exact ⟨nofun, fun _ => nofun, fun _ _ _ => nofun⟩
      | some vruntime =>
          simp only [access, hmin, Option.isNone_some, Bool.false_eq_true, if_false]
          exact ⟨nofun, fun _ _ => by simp [hmin], fun _ _ _ => nofun⟩
  | tickMin vruntime =>
      cases hmin : v.minVruntime with
      | none =>
          simp only [access, hmin]
          exact ⟨nofun, fun _ => nofun, fun hload => absurd hmin (hload rfl)⟩
      | some minVruntime =>
          simp only [access, hmin]
          exact ⟨nofun, fun _ => nofun, fun _ _ _ => nofun⟩
  | isEmpty current =>
      simp only [access]
      split <;> exact ⟨nofun, fun _ => nofun, fun _ _ _ => nofun⟩
  | renice task prio =>
      simp only [access]
      split <;> exact ⟨fun _ => ⟨rfl, rfl⟩, fun _ => nofun, fun _ _ _ => nofun⟩
  | takeId task start =>
      cases start with
      | none => exact ⟨fun _ => ⟨rfl, rfl⟩, fun _ => nofun, fun _ _ _ => nofun⟩
      | some vruntime => exact ⟨nofun, fun _ => nofun, fun _ _ _ => nofun⟩
  | setId task start taskid =>
      cases start with
      | none => exact ⟨fun _ => ⟨rfl, rfl⟩, fun _ => nofun, fun _ _ _ => nofun⟩
      | some vruntime => exact ⟨nofun, fun _ => nofun, fun _ _ _ => nofun⟩
  | resetMin task => exact ⟨nofun, fun _ _ => Option.some_ne_none 0, fun _ _ _ => nofun⟩
  | tickVruntime current => exact ⟨nofun, fun hload _ => hload rfl, fun _ _ _ => nofun⟩
  | panicked task => exact ⟨nofun, fun _ => nofun, fun _ hrun => absurd rfl (hrun task)⟩
  | setVruntime task start taskid => exact ⟨nofun, fun _ => nofun, fun _ _ _ => nofun⟩
  | storeMin o => exact ⟨nofun, fun _ => nofun, fun _ _ _ => nofun⟩
  | tick current => exact ⟨nofun, fun _ => nofun, fun _ _ _ => nofun⟩
  | inserting adds =>
      cases adds <;> exact ⟨fun hquiet => ⟨rfl, hquiet⟩, fun _ => nofun, fun _ _ _ => nofun⟩
  | insert adds k task =>
      cases adds <;> exact ⟨fun hquiet => ⟨rfl, hquiet⟩, fun _ => nofun, fun _ _ _ => nofun⟩
  | idle => exact ⟨fun _ => ⟨rfl, rfl⟩, fun _ => nofun, fun _ _ _ => nofun⟩
  | loadVruntime prev taskid => exact ⟨fun _ => ⟨rfl, rfl⟩, fun _ => nofun, fun _ _ _ => nofun⟩
  | first => exact ⟨nofun, fun _ => nofun, fun _ _ _ => nofun⟩
  | looking => exact ⟨nofun, fun _ => nofun, fun _ _ _ => nofun⟩
  | pick => exact ⟨fun _ => ⟨rfl, rfl⟩, fun _ => nofun, fun _ _ _ => nofun⟩
  | picking => exact ⟨fun _ => ⟨rfl, rfl⟩, fun _ => nofun, fun _ _ _ => nofun⟩

omit [DecidableEq T] in
theorem after_inserting (adds : Bool) (a : Act Key T) :
    (Pc.inserting adds : Pc T).after a = .inserting adds ∨
      adds = true ∧ (Pc.inserting adds : Pc T).after a = .first ∨
      adds = false ∧ (Pc.inserting adds : Pc T).after a = .idle := by
  cases a with
  | read u e => cases adds <;> exact .inl rfl
  | change x =>
      obtain ⟨u, e⟩ := x
      cases adds <;> cases e <;> simp [Pc.after]

omit [DecidableEq T] in
/-- After an access of the ready queue nothing is unwrapped at once. -/
theorem after_minds {p : Pc T} {k : Look Key T} (hlook : p.look t = some k) (a : Act Key T) :
    (p.minds = false → (p.after a).minds = false) ∧ (p.after a).unwraps = false ∧
      ∀ task, p.after a ≠ .panicked task := by
  cases p with
  | insert adds k task => cases adds <;> exact ⟨id, rfl, fun _ => nofun⟩
  | inserting adds =>
      rcases after_inserting adds a with hafter | ⟨rfl, hafter⟩ | ⟨rfl, hafter⟩ <;> rw [hafter]
      · exact ⟨id, rfl, fun _ => nofun⟩
      · exact ⟨nofun, rfl, fun _ => nofun⟩
      · exact ⟨fun _ => rfl, rfl, fun _ => nofun⟩
  | first => exact ⟨id, rfl, fun _ => nofun⟩
  | looking =>
      refine ⟨nofun, ?_⟩
      unfold Pc.after
      split <;> exact ⟨rfl, fun _ => nofun⟩
  | pick => exact ⟨fun _ => rfl, rfl, fun _ => nofun⟩
  | picking =>
      unfold Pc.after
      split <;> first | exact ⟨fun _ => rfl, rfl, fun _ => nofun⟩ | simp_all
  | _ => cases hlook

omit [DecidableEq T] in
/-- A step that does not change the cached minimum and after which CPU `t` unwraps nothing. -/
theorem Cached.keep {o : ℕ} {p : Pc T} {q : Watched Key T} (hcached : Cached o s)
    (hminds : t ≠ o → p.minds = false) (hunwraps : t = o → p.unwraps = false)
    (hrunning : ∀ task, p ≠ .panicked task) :
    Cached o ⟨q, s.vars, Function.update s.pc t p⟩ := by
  refine ⟨fun u hu => ?_, fun hload => ?_, fun u task => ?_⟩
  · by_cases hut : u = t
    · subst hut
      simpa using hminds hu
    · simpa [hut] using hcached.only u hu
  · by_cases hto : t = o
    · subst hto
      simp [hunwraps rfl] at hload
    · simp only [Function.update_of_ne (Ne.symm hto)] at hload
      exact hcached.some hload
  · by_cases hut : u = t
    · subst hut
      simpa using hrunning task
    · simpa [hut] using hcached.running u task

theorem Cached.step {o : ℕ} {a : ℕ × Event T} (hcached : Cached o s) (hguard : OwnedBy o h s a)
    (hstep : Step cap s a s') : Cached o s' := by
  cases hstep with
  | @call t op hidle =>
      cases op with
      | addTask task => exact hcached.keep (absurd hguard) (fun _ => rfl) fun _ => nofun
      | taskTick current => exact hcached.keep (absurd hguard) (fun _ => rfl) fun _ => nofun
      | _ => exact hcached.keep (fun _ => rfl) (fun _ => rfl) fun _ => nofun
  | @queue t k a queue hlook hperform =>
      obtain ⟨hminds, hunwraps, hrunning⟩ := after_minds hlook a
      exact hcached.keep (fun hto => hminds (hcached.only t hto)) (fun _ => hunwraps) hrunning
  | @own t hstops hlook =>
      have hmindful := access_mindful s.queue.state.mem s.vars (s.pc t)
      have hrunning : (s.pc t).unwraps = true → s.vars.minVruntime ≠ none := by
        intro hload
        by_cases hto : t = o
        · subst hto
          exact hcached.some hload
        · have hquiet := hcached.only t hto
          cases hpc : s.pc t <;> simp_all [Pc.unwraps, Pc.minds]
      refine ⟨fun u hu => ?_, fun hload => ?_, fun u task => ?_⟩
      · by_cases hut : u = t
        · subst hut
          simpa using (hmindful.quiet (hcached.only u hu)).2
        · simpa [hut] using hcached.only u hu
      · by_cases hto : t = o
        · subst hto
          simp only [Function.update_self] at hload
          exact hmindful.some hrunning hload
        · simp only [Function.update_of_ne (Ne.symm hto)] at hload
          simpa only [(hmindful.quiet (hcached.only t hto)).1] using hcached.some hload
      · by_cases hut : u = t
        · subst hut
          simpa using hmindful.running hrunning (hcached.running u) task
        · simpa [hut] using hcached.running u task

/-- Neither `unwrap` of the cached minimum panics while one CPU adds tasks and ticks, whatever
the others pick, put back or renice meanwhile. -/
theorem unwraps_some {o : ℕ} {tasks : T → CFSTask}
    (hrun : (machine cap tasks).RunOf (OwnedBy o) h s) (t : ℕ) (task : Option T) :
    s.pc t ≠ .panicked task := by
  have hcached : Cached o s := by
    refine hrun.invariant (I := fun _ s => Cached o s) ?_ ?_
    · rintro _ rfl
      exact ⟨fun _ _ => rfl, nofun, fun _ _ => nofun⟩
    · intro h s a s' _ hcached hguard hstep
      exact hcached.step hguard hstep
  exact hcached.running t task

instance (o : ℕ) (h : List (ℕ × Event T)) (s : State T) (a : ℕ × Event T) :
    Decidable (OwnedBy o h s a) :=
  match a with
  | (t, .call (.addTask _)) => inferInstanceAs (Decidable (t = o))
  | (t, .call (.taskTick _)) => inferInstanceAs (Decidable (t = o))
  | (_, .call (.putPrevTask _)) => .isTrue trivial
  | (_, .call .pickNextTask) => .isTrue trivial
  | (_, .call (.setPriority _ _)) => .isTrue trivial
  | (_, .took _) => .isTrue trivial
  | (_, .queue _) => .isTrue trivial
  | (_, .ret _) => .isTrue trivial
  | (_, .silent) => .isTrue trivial

/-- CPU `0` adds task `7`, and before it looks for the first one CPU `1` picks the task. -/
def pickedMeanwhile : List (Choice ℕ) :=
  .call 0 (.addTask 7) :: goes 0 14 ++ .call 1 .pickNextTask :: goes 1 12

theorem unwraps_some_two : ∃ (h : List (ℕ × Event ℕ)) (s : State ℕ),
    (machine 2 fun _ => CFSTask.new).RunOf (OwnedBy 0) h s ∧ picked h = [7] ∧
      s.pc 0 = .loadMin 8 ∧ s.pc 0 ≠ .panicked (some 8) := by
  let r := (playAll 2 (fun _ => CFSTask.new) (OwnedBy 0)
    (pickedMeanwhile ++ goes 0 5 ++ [.call 0 (.addTask 8), .go 0, .go 0])).get
      (by decide +kernel)
  have hrun : (machine 2 fun _ => CFSTask.new).RunOf (OwnedBy 0) r.1 r.2 :=
    playAll_run (Option.some_get _).symm
  have hpicked : picked r.1 = [7] := by decide +kernel
  have hload : r.2.pc 0 = .loadMin 8 := by decide +kernel
  generalize r = r at hrun hpicked hload
  exact ⟨r.1, r.2, hrun, hpicked, hload, unwraps_some hrun 0 (some 8)⟩

/-- Two CPUs that add tasks at once do not keep the cached minimum there: CPU `1` finds it, and
unwraps it after CPU `0` has stored that the ready queue is empty. -/
theorem unwraps_none : ∃ (h : List (ℕ × Event ℕ)) (s : State ℕ),
    (machine 2 fun _ => CFSTask.new).Run h s ∧ s.pc 1 = .panicked (some 8) := by
  let r := (playAll 2 (fun _ => CFSTask.new) (fun _ _ _ => True)
    (pickedMeanwhile ++ [.call 1 (.addTask 8), .go 1] ++ goes 0 5 ++
      [.go 1])).get (by decide +kernel)
  have hrun : (machine 2 fun _ => CFSTask.new).Run r.1 r.2 :=
    playAll_run (Option.some_get _).symm
  have hpanicked : r.2.pc 1 = .panicked (some 8) := by decide +kernel
  generalize r = r at hrun hpanicked
  exact ⟨r.1, r.2, hrun, hpanicked⟩

end Unwrap

end SharedCFS

end Sched
