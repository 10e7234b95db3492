import Vsched.Sched.Custody

/-!
# Which tasks the three schedulers lose

Each of the three schedulers keeps custody of its tasks, and accepts a task while
its ready queue has a place for it: the deque of the round-robin scheduler has one
place less than its capacity.
-/

namespace Sched

variable {T : Type*} {cap : ℕ}

/-- The ready queue has a free place among `room`. -/
def Room {σ : Type*} (room : ℕ) (queue : σ → List T) (s : σ) (_ : Call T) : Prop :=
  (queue s).length < room

instance {σ : Type*} (room : ℕ) (queue : σ → List T) (s : σ) (c : Call T) :
    Decidable (Room room queue s c) :=
  inferInstanceAs (Decidable (_ < _))

section RoundRobin

/-- No call on the deque is in progress. -/
def RR.Rests (cap : ℕ) (s : RR T) : Prop :=
  ∃ l, Deque.Rests cap l s.readyQueue

theorem RR.push_custody {s : RR T} {t : T} (e : Deque.End) (h : s.Rests cap) :
    ∃ s', s.push cap (.push e t) = some s' ∧ s'.Rests cap ∧
      ((s.queue cap).length < cap - 1 → (s'.queue cap).Perm (t :: s.queue cap)) ∧
      (¬ (s.queue cap).length < cap - 1 → s'.queue cap = s.queue cap) := by
  obtain ⟨l, hrest⟩ := h
  have hqueue : s.queue cap = l := hrest.items
  have hlen := hrest.layout.length_lt
  rw [hqueue]
  by_cases hroom : l.length < cap - 1
  · obtain ⟨m', honce, hrest'⟩ := hrest.once_push e t (by omega)
    refine ⟨{ s with readyQueue := m' }, by simp [RR.push, honce], ⟨_, hrest'⟩, ?_,
      fun h => absurd hroom h⟩
    intro _
    have hqueue' : RR.queue cap { s with readyQueue := m' } = (Deque.Call.push e t).apply l :=
      hrest'.items
    rw [hqueue']
    cases e with
    | front => exact List.Perm.refl _
    | back => exact List.perm_append_singleton t l
  · have hfull := hrest.once_push_full e t (by omega)
    refine ⟨s, by simp [RR.push, hfull], ⟨l, hrest⟩, fun h => absurd h hroom, ?_⟩
    intro _
    exact hqueue

/-- Pushing at either end hands a task in. -/
theorem RR.handIn {s : RR T} {t : T} (e : Deque.End) (h : s.Rests cap) :
    ∃ s', s.push cap (.push e t) = some s' ∧ s'.Rests cap ∧
      ((s.queue cap).length < cap - 1 → (s'.queue cap).Perm (t :: s.queue cap)) ∧
      (¬ (s.queue cap).length < cap - 1 → (s'.queue cap).length ≤ (s.queue cap).length) ∧
      (t ∈ s'.queue cap ↔ t ∈ s.queue cap ∨ (s.queue cap).length < cap - 1) := by
  obtain ⟨s', hpush, hrest, hyes, hno⟩ := RR.push_custody (t := t) e h
  refine ⟨s', hpush, hrest, hyes, fun hroom => le_of_eq (by rw [hno hroom]), ?_⟩
  by_cases hroom : (s.queue cap).length < cap - 1
  · rw [(hyes hroom).mem_iff]
    simp [hroom]
  · rw [hno hroom]
    simp [hroom]

theorem rr_custody [DecidableEq T] (slice cap : ℕ) :
    Custody (rr slice cap : BaseScheduler (RR T) T) (RR.queue cap) (RR.Rests cap)
      (Room (cap - 1) (RR.queue cap)) (Room (cap - 1) (RR.queue cap)) where
  handIn := by
    intro s c t h hc
    cases c with
    | addTask task =>
        cases hc
        obtain ⟨s', hpush, hrest⟩ := RR.handIn .back h
        exact ⟨s', by simpa [BaseScheduler.call, rr, RR.addTask, Deque.pushBack] using hpush,
          hrest⟩
    | putPrevTask task preempt =>
        cases hc
        by_cases hfront : 0 < s.timeSlice t ∧ preempt = true
        · obtain ⟨s', hpush, hrest⟩ := RR.handIn (t := t) .front h
          refine ⟨s', ?_, hrest⟩
          simp only [BaseScheduler.call, rr, RR.putPrevTask, if_pos hfront, Deque.pushFront, hpush]
          rfl
        · obtain ⟨s', hpush, hrest⟩ := RR.handIn (t := t)
            (s := { s with timeSlice := Function.update s.timeSlice t (wrap slice) }) .back h
          refine ⟨s', ?_, hrest⟩
          simp only [BaseScheduler.call, rr, RR.putPrevTask, if_neg hfront, Deque.pushBack, hpush]
          rfl
    | pickNextTask => cases hc
  pick := by
    rintro s ⟨l, hrest⟩
    have hqueue : s.queue cap = l := hrest.items
    rw [hqueue]
    cases l with
    | nil =>
        refine ⟨s, none, ?_, ⟨[], hrest⟩, by rw [hqueue]; exact List.Perm.refl _⟩
        simp [BaseScheduler.call, rr, RR.pickNextTask, Deque.popFront, popped,
          hrest.once_pop_empty .front]
    | cons t l =>
        obtain ⟨m', honce, hrest'⟩ := hrest.once_pop (e := .front) (x := t) rfl
        have hqueue' : RR.queue cap { s with readyQueue := m' } = l := hrest'.items
        refine ⟨{ s with readyQueue := m' }, some t, ?_, ⟨_, hrest'⟩, ?_⟩
        · simp [BaseScheduler.call, rr, RR.pickNextTask, Deque.popFront, popped, honce]
        · rw [hqueue']
          exact List.Perm.refl _

end RoundRobin

theorem Fifo.enqueue_custody (s : Fifo T) (t : T) :
    (s.readyQueue.length < cap → (s.enqueue cap t).readyQueue.Perm (t :: s.readyQueue)) ∧
      (¬ s.readyQueue.length < cap →
        (s.enqueue cap t).readyQueue.length ≤ s.readyQueue.length) ∧
      (t ∈ (s.enqueue cap t).readyQueue ↔ t ∈ s.readyQueue ∨ s.readyQueue.length < cap) := by
  unfold Fifo.enqueue
  split_ifs with hroom
  · exact ⟨fun _ => List.perm_append_singleton t _, fun h => absurd hroom h, by simp [hroom]⟩
  · exact ⟨fun h => absurd h hroom, fun _ => le_refl _, by simp [hroom]⟩

theorem fifo_custody (cap : ℕ) :
    Custody (fifo cap : BaseScheduler (Fifo T) T) Fifo.readyQueue (fun _ => True)
      (Room cap Fifo.readyQueue) (Room cap Fifo.readyQueue) where
  handIn := by
    intro s c t _ hc
    cases c with
    | addTask task =>
        cases hc
        exact ⟨_, rfl, trivial, s.enqueue_custody t⟩
    | putPrevTask task preempt =>
        cases hc
        exact ⟨_, rfl, trivial, s.enqueue_custody t⟩
    | pickNextTask => cases hc
  pick := by
    intro s _
    refine ⟨_, _, rfl, trivial, ?_⟩
    cases s.readyQueue <;> exact List.Perm.refl _

namespace CFS

/-- The key a hand-in gives its task. -/
def givenKey (s : CFS T) : Call T → Key
  | .addTask _ => key (s.minVruntime.getD 0) s.idPool
  | .putPrevTask prev _ => key (s.tasks prev).getVruntime s.idPool
  | .pickNextTask => key 0 0

/-- A task is queued under the key a hand-in gives its task. -/
def Taken (cap : ℕ) (s : CFS T) (c : Call T) : Prop :=
  ∃ p ∈ s.readyQueue.pairs cap, p.1 = s.givenKey c

/-- No call on the map is in progress. -/
def Rests (cap : ℕ) (s : CFS T) : Prop :=
  ∃ l, BTreeMap.Rests cap l s.readyQueue

theorem queue_perm {s : CFS T} {l : List (Key × T)} (h : BTreeMap.Rests cap l s.readyQueue) :
    (s.queue cap).Perm (l.map Prod.snd) :=
  h.pairs.map _

theorem not_taken_iff {s : CFS T} {l : List (Key × T)} (h : BTreeMap.Rests cap l s.readyQueue)
    (c : Call T) : ¬ s.Taken cap c ↔ OrderedMap.find (s.givenKey c) l = none := by
  rw [OrderedMap.find_eq_none]
  unfold Taken
  push Not
  exact ⟨fun hno p hp => hno p (h.pairs.mem_iff.mpr hp),
    fun hno p hp => hno p (h.pairs.mem_iff.mp hp)⟩

/-- A hand-in inserts its task under the key it gives it. -/
theorem handIn {s s' : CFS T} {c : Call T} {t : T} (hcap : cap < BTreeMap.usize)
    (h : s.Rests cap)
    (hqueue : s'.readyQueue = (s.readyQueue.insert cap (s.givenKey c) t).1) :
    s'.Rests cap ∧
      (Room cap (queue cap) s c ∧ ¬ s.Taken cap c → (s'.queue cap).Perm (t :: s.queue cap)) ∧
      (¬ (Room cap (queue cap) s c ∧ ¬ s.Taken cap c) →
        (s'.queue cap).length ≤ (s.queue cap).length) ∧
      (t ∈ s'.queue cap ↔ t ∈ s.queue cap ∨ (Room cap (queue cap) s c ∨ s.Taken cap c)) := by
  obtain ⟨l, hrest⟩ := h
  obtain ⟨-, hrest'⟩ := hrest.insert hcap (s.givenKey c) t
  rw [← hqueue] at hrest'
  have hroom : Room cap (queue cap) s c ↔ l.length < cap := by
    rw [Room, (queue_perm hrest).length_eq, List.length_map]
  have htaken := not_taken_iff hrest c
  refine ⟨⟨_, hrest'⟩, ?_⟩
  rw [(queue_perm hrest').length_eq, (queue_perm hrest').mem_iff, (queue_perm hrest).length_eq,
    (queue_perm hrest).mem_iff, hroom]
  simp only [BTreeMap.Op.onMap] at hrest' ⊢
  cases hfind : OrderedMap.find (s.givenKey c) l with
  | some old =>
      -- the task queued under the key is given up
      have hput := OrderedMap.put_present (v := t) hrest.sorted hfind
      have hlen := hput.length_eq
      have hyes : s.Taken cap c := by
        by_contra hno
        rw [htaken, hfind] at hno
        cases hno
      simp only [List.length_cons, Nat.add_right_cancel_iff] at hlen
      refine ⟨fun hno => absurd hyes hno.2, fun _ => by simp [hlen], ?_⟩
      refine iff_of_true (List.mem_map.mpr ⟨_, OrderedMap.mem_put_self, rfl⟩) ?_
      exact .inr (.inr hyes)
  | none =>
      have hno := htaken.mpr hfind
      by_cases hlt : l.length < cap
      · have hput := OrderedMap.put_absent (v := t) hfind
        have hmem : t ∈ (OrderedMap.put (s.givenKey c) t l).map Prod.snd :=
          List.mem_map.mpr ⟨_, OrderedMap.mem_put_self, rfl⟩
        simp only [hfind, if_pos hlt] at hrest' ⊢
        refine ⟨fun _ => ?_, fun h => absurd ⟨hlt, hno⟩ h,
          iff_of_true hmem (.inr (.inl hlt))⟩
        calc List.Perm (s'.queue cap) ((OrderedMap.put (s.givenKey c) t l).map Prod.snd) :=
              queue_perm hrest'
          List.Perm _ (t :: l.map Prod.snd) := hput.map _
          List.Perm _ (t :: s.queue cap) := (queue_perm hrest).symm.cons _
      · simp only [if_neg hlt]
        refine ⟨fun h => absurd h.1 hlt, fun _ => le_refl _, ?_⟩
        simp [hlt, hno]

end CFS

theorem cfs_custody [DecidableEq T] (hcap : cap < BTreeMap.usize) :
    Custody (cfs cap : BaseScheduler (CFS T) T) (CFS.queue cap) (CFS.Rests cap)
      (fun s c => Room cap (CFS.queue cap) s c ∧ ¬ s.Taken cap c)
      (fun s c => Room cap (CFS.queue cap) s c ∨ s.Taken cap c) where
  handIn := by
    intro s c t h hc
    cases c with
    | addTask task =>
        cases hc
        exact ⟨_, rfl, CFS.handIn hcap h rfl⟩
    | putPrevTask task preempt =>
        cases hc
        refine ⟨_, rfl, CFS.handIn hcap h ?_⟩
        simp only [CFS.putPrevTask, CFS.insert, CFS.setTask, Function.update_self, CFS.givenKey]
        rfl
    | pickNextTask => cases hc
  pick := by
    rintro s ⟨l, hrest⟩
    obtain ⟨hfirst, hrest'⟩ := hrest.popFirst hcap
    refine ⟨_, _, rfl, ⟨_, hrest'⟩, ?_⟩
    refine (CFS.queue_perm hrest).trans ?_
    refine List.Perm.trans ?_
      ((CFS.queue_perm (s := (s.pickNextTask cap).1) hrest').symm.append_left _)
    change List.Perm _ ((Option.map Prod.snd (s.readyQueue.popFirst cap).2).toList ++ _)
    rw [hfirst]
    cases l <;> exact List.Perm.refl _

/-- From every starting state the calls return, and the tasks handed in are the tasks
picked and the tasks queued exactly when every hand-in was accepted; whenever
`put_task_with_state` then answers `true`, its task is ready, and it is in the queue
exactly when the scheduler stored it or had it there already. -/
def Keeps [DecidableEq T] {σ : Type*} (B : BaseScheduler σ T) (queue : σ → List T)
    (start : σ → Prop) (accepts stores : σ → Call T → Prop) : Prop :=
  ∀ s₀, start s₀ → ∀ cs, ∃ s picked, B.calls cs s₀ = some (s, picked) ∧
    ((picked ++ queue s).Perm (handed cs) ↔ Accepted B accepts cs s₀) ∧
    ∀ p task currentState preempt p', p.scheduler = s →
      putTaskWithState B p task currentState preempt = some (p', true) →
      p'.state task = .ready ∧ (task ∈ queue p'.scheduler ↔
        task ∈ queue s ∨ stores s (.putPrevTask task preempt))

theorem Custody.keeps [DecidableEq T] {σ : Type*} {B : BaseScheduler σ T} {queue : σ → List T}
    {I start : σ → Prop} {accepts stores : σ → Call T → Prop}
    (hB : Custody B queue I accepts stores) (hstart : ∀ s, start s → I s ∧ queue s = []) :
    Keeps B queue start accepts stores := by
  intro s₀ hs₀ cs
  obtain ⟨hI, hempty⟩ := hstart s₀ hs₀
  obtain ⟨s, picked, hcalls, hI', hiff, -⟩ := hB.calls hI cs
  rw [hempty, List.append_nil] at hiff
  refine ⟨s, picked, hcalls, hiff, ?_⟩
  rintro p task currentState preempt p' rfl htrue
  obtain ⟨hready, hcall⟩ := putTaskWithState_true htrue
  obtain ⟨s', hcall', -, -, -, hmem⟩ := hB.handIn _ (.putPrevTask task preempt) task hI' rfl
  have hsame : p'.scheduler = s' := by
    rw [hcall, Option.some.injEq, Prod.mk.injEq] at hcall'
    exact hcall'.1
  rw [hsame]
  exact ⟨hready, hmem⟩

/-- A round-robin scheduler keeps the tasks for which its deque of `CAPACITY - 1`
places has room, a FIFO scheduler those for which its queue has room, and a fair
scheduler those for which its map has room and that are not given the key of a
queued task. -/
theorem task_kept [DecidableEq T] (slice : ℕ) (hpos : 1 ≤ cap) (hcap : cap < BTreeMap.usize) :
    Keeps (rr slice cap : BaseScheduler (RR T) T) (RR.queue cap)
        (fun s => s.readyQueue = .new)
        (Room (cap - 1) (RR.queue cap)) (Room (cap - 1) (RR.queue cap)) ∧
      Keeps (cfs cap : BaseScheduler (CFS T) T) (CFS.queue cap)
        (fun s => ∃ tasks, s = CFS.new tasks)
        (fun s c => Room cap (CFS.queue cap) s c ∧ ¬ s.Taken cap c)
        (fun s c => Room cap (CFS.queue cap) s c ∨ s.Taken cap c) ∧
      Keeps (fifo cap : BaseScheduler (Fifo T) T) Fifo.readyQueue
        (fun s => s.readyQueue = [])
        (Room cap Fifo.readyQueue) (Room cap Fifo.readyQueue) := by
  refine ⟨(rr_custody slice cap).keeps ?_, (cfs_custody hcap).keeps ?_,
    (fifo_custody cap).keeps ?_⟩
  · rintro s hs
    have hrest : Deque.Rests cap [] s.readyQueue := by
      rw [hs]
      exact Deque.Inv.init (by omega)
    exact ⟨⟨[], hrest⟩, hrest.items⟩
  · rintro s ⟨tasks, rfl⟩
    have hrest : BTreeMap.Rests cap [] (CFS.new tasks).readyQueue := BTreeMap.Rests.new
    exact ⟨⟨[], hrest⟩, List.perm_nil.mp (CFS.queue_perm hrest)⟩
  · intro s hs
    exact ⟨trivial, hs⟩

/-- With four places all three keep two tasks of which one is picked again. -/
theorem task_kept_four : ∃ (s : RR ℕ) (picked : List ℕ),
    (rr 5 4).calls [.addTask 7, .addTask 8, .pickNextTask] ⟨.new, fun _ => 5⟩ =
      some (s, picked) ∧ (picked ++ s.queue 4).Perm [7, 8] := by
  obtain ⟨s, picked, hcalls, hiff, -⟩ :=
    (task_kept (T := ℕ) 5 (show 1 ≤ 4 by decide) (by norm_num [BTreeMap.usize])).1
      ⟨.new, fun _ => 5⟩ rfl [.addTask 7, .addTask 8, .pickNextTask]
  exact ⟨s, picked, hcalls, hiff.mpr (by decide)⟩

/-- A deque of two slots has place for one task: the second one that is woken is
reported as put into the run queue and is lost. -/
theorem task_dropped : ∃ p p' : PerCPU (RR ℕ) ℕ,
    (rr 5 2).calls [.addTask 7] ⟨.new, fun _ => 5⟩ = some (p.scheduler, []) ∧
    p.state 8 = .blocked ∧ p.isIdle 8 = false ∧ p.onCpu 8 = false ∧
    putTaskWithState (rr 5 2) p 8 .blocked false = some (p', true) ∧
    p'.state 8 = .ready ∧ 8 ∉ p'.scheduler.queue 2 := by
  let s := ((rr 5 2).calls [.addTask 7] ⟨Deque.Mem.new, fun _ => 5⟩).get (by decide)
  let p : PerCPU (RR ℕ) ℕ := ⟨s.1, fun _ => .blocked, fun _ => false, fun _ => false⟩
  let p' := (putTaskWithState (rr 5 2) p 8 .blocked false).get (by decide)
  have hput : putTaskWithState (rr 5 2) p 8 .blocked false = some p' :=
    (Option.some_get _).symm
  have htrue : p'.2 = true := by decide
  exact ⟨p, p'.1, rfl, rfl, rfl, rfl, hput.trans (congrArg some (Prod.ext rfl htrue)),
    by decide, by decide⟩

end Sched
