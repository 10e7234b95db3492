import Vsched.Sched.Order

/-!
# Equal tasks take turns

Tasks that are added in order and each get one tick before they are put back are picked
in turn. A scheduler does this if it can tell that it queues the tasks of the turns
`k, …, k + j - 1` in this order, whatever is behind it: a deque with these tasks, or a map
in which turn `i` has the key of the vruntime `i / n` and the id `i`.
-/

namespace Sched

variable {σ T : Type*}

/-- Picks a task, gives it a tick and puts it back. -/
def BaseScheduler.turn (B : BaseScheduler σ T) (s : σ) : Option (σ × Option T) :=
  (B.pickNextTask s).bind fun
    | (s₁, none) => some (s₁, none)
    | (s₁, some next) => (B.taskTick s₁ next).bind fun r =>
        (B.putPrevTask r.1 next false).map fun s₂ => (s₂, some next)

def BaseScheduler.addAll (B : BaseScheduler σ T) : List T → σ → Option σ
  | [], s => some s
  | t :: ts, s => do
      let s' ← B.addTask s t
      B.addAll ts s'

/-- What `k` picks return, or `k` turns. -/
def repeated (f : σ → Option (σ × Option T)) : ℕ → σ → Option (σ × List (Option T))
  | 0, s => some (s, [])
  | k + 1, s => do
      let (s₁, picked) ← f s
      let (s₂, rest) ← repeated f k s₁
      pure (s₂, picked :: rest)

theorem repeated_add {f : σ → Option (σ × Option T)} {j k : ℕ} {s s₁ s₂ : σ}
    {xs ys : List (Option T)} (hj : repeated f j s = some (s₁, xs))
    (hk : repeated f k s₁ = some (s₂, ys)) : repeated f (j + k) s = some (s₂, xs ++ ys) := by
  induction j generalizing s xs with
  | zero =>
      cases hj
      rw [Nat.zero_add]
      exact hk
  | succ j ih =>
      simp only [repeated, Option.bind_eq_bind, Option.bind_eq_some_iff] at hj
      obtain ⟨⟨s', x⟩, hf, ⟨s'', rest⟩, hrest, hpair⟩ := hj
      cases hpair
      rw [Nat.succ_add]
      simp [repeated, hf, ih hrest]

/-- The tasks are added in order, `K` turns go round them, and picking them all then ends
with the turns that come next. -/
def TakesTurns (B : BaseScheduler σ T) (ts : List T) (K : ℕ) (s₀ : σ) : Prop :=
  ∃ s₁ s₂ s₃, B.addAll ts s₀ = some s₁ ∧
    repeated B.turn K s₁ = some (s₂, (List.range K).map fun k => ts[k % ts.length]?) ∧
    repeated B.pickNextTask (ts.length + 1) s₂ =
      some (s₃, (ts.rotate K).map some ++ [none])

/-- `task k` is the task of turn `k`, which comes round after `n` turns. `Holds k j s` says
that the tasks of `j` turns from `k` on are queued; the scheduler can take task number `m`
in while `fits m`. -/
structure Rotation (B : BaseScheduler σ T) (n : ℕ) (task : ℕ → T) (fits : ℕ → Prop)
    (Holds : ℕ → ℕ → σ → Prop) : Prop where
  add : ∀ j s, Holds 0 j s → j < n → fits j →
    ∃ s', B.addTask s (task j) = some s' ∧ Holds 0 (j + 1) s'
  pick : ∀ k j s, Holds k (j + 1) s →
    ∃ s', B.pickNextTask s = some (s', some (task k)) ∧ Holds (k + 1) j s'
  empty : ∀ k s, Holds k 0 s → ∃ s', B.pickNextTask s = some (s', none)
  back : ∀ k j s, Holds (k + 1) j s → j + 1 = n → fits (k + n) →
    ∃ s' resched s'', B.taskTick s (task k) = some (s', resched) ∧
      B.putPrevTask s' (task k) false = some s'' ∧ Holds (k + 1) (j + 1) s''

namespace Rotation

variable {B : BaseScheduler σ T} {n : ℕ} {task : ℕ → T} {fits : ℕ → Prop}
  {Holds : ℕ → ℕ → σ → Prop} {s : σ}

theorem addAll (hB : Rotation B n task fits Holds) {ts : List T} {j : ℕ} (hs : Holds 0 j s)
    (hts : ts = (List.range' j (n - j)).map task) (hfits : ∀ m, m < n → fits m) (hj : j ≤ n) :
    ∃ s', B.addAll ts s = some s' ∧ Holds 0 n s' := by
  induction ts generalizing s j with
  | nil =>
      have hlen := congrArg List.length hts
      simp only [List.length_nil, List.length_map, List.length_range'] at hlen
      obtain rfl : j = n := by omega
      exact ⟨s, rfl, hs⟩
  | cons t ts ih =>
      have hlen := congrArg List.length hts
      simp only [List.length_cons, List.length_map, List.length_range'] at hlen
      obtain ⟨m, hm⟩ : ∃ m, n - j = m + 1 := ⟨n - j - 1, by omega⟩
      rw [hm, List.range'_succ, List.map_cons, List.cons.injEq] at hts
      obtain ⟨rfl, hts⟩ := hts
      obtain ⟨s', hadd, hs'⟩ := hB.add j s hs (by omega) (hfits j (by omega))
      obtain ⟨s'', hall, hs''⟩ := ih hs' (by rw [hts, show n - (j + 1) = m by omega]) (by omega)
      exact ⟨s'', by simp [BaseScheduler.addAll, hadd, hall], hs''⟩

theorem turn (hB : Rotation B n task fits Holds) (hpos : 1 ≤ n) {k : ℕ} (hs : Holds k n s)
    (hfits : fits (k + n)) :
    ∃ s', B.turn s = some (s', some (task k)) ∧ Holds (k + 1) n s' := by
  obtain ⟨j, rfl⟩ : ∃ j, n = j + 1 := ⟨n - 1, by omega⟩
  obtain ⟨s₁, hpick, hs₁⟩ := hB.pick k j s hs
  obtain ⟨s₂, resched, s₃, htick, hput, hs₃⟩ := hB.back k j s₁ hs₁ rfl hfits
  exact ⟨s₃, by simp [BaseScheduler.turn, hpick, htick, hput], hs₃⟩

theorem turns (hB : Rotation B n task fits Holds) (hpos : 1 ≤ n) {k : ℕ} (hs : Holds k n s)
    (K : ℕ) (hfits : ∀ i, i < K → fits (k + i + n)) :
    ∃ s', repeated B.turn K s = some (s', (List.range' k K).map fun i => some (task i)) ∧
      Holds (k + K) n s' := by
  induction K generalizing s k with
  | zero => exact ⟨s, rfl, hs⟩
  | succ K ih =>
      obtain ⟨s₁, hturn, hs₁⟩ := hB.turn hpos hs (hfits 0 (Nat.succ_pos K))
      obtain ⟨s₂, hrest, hs₂⟩ := ih hs₁ fun i hi => by
        rw [Nat.add_right_comm k 1 i]
        exact hfits (i + 1) (Nat.succ_lt_succ hi)
      refine ⟨s₂, ?_, by rwa [Nat.add_right_comm, ← Nat.add_assoc] at *⟩
      simp [repeated, hturn, hrest, List.range'_succ]

theorem picks (hB : Rotation B n task fits Holds) {k j : ℕ} (hs : Holds k j s) :
    ∃ s', repeated B.pickNextTask (j + 1) s =
      some (s', ((List.range' k j).map fun i => some (task i)) ++ [none]) := by
  induction j generalizing s k with
  | zero =>
      obtain ⟨s', hpick⟩ := hB.empty k s hs
      exact ⟨s', by simp [repeated, hpick]⟩
  | succ j ih =>
      obtain ⟨s₁, hpick, hs₁⟩ := hB.pick k j s hs
      obtain ⟨s₂, hrest⟩ := ih hs₁
      refine ⟨s₂, ?_⟩
      rw [repeated, hpick]
      simp [hrest, List.range'_succ]

end Rotation

/-- The task of turn `k` when `ts` take turns. -/
def turnTask (ts : List T) (hpos : 1 ≤ ts.length) (k : ℕ) : T :=
  ts.get ⟨k % ts.length, Nat.mod_lt k hpos⟩

section

variable {ts : List T} {hpos : 1 ≤ ts.length}

theorem getElem?_turnTask (k : ℕ) : ts[k % ts.length]? = some (turnTask ts hpos k) :=
  List.getElem?_eq_getElem (Nat.mod_lt k hpos)

theorem map_turnTask : ts = (List.range' 0 ts.length).map (turnTask ts hpos) := by
  refine List.ext_getElem (by simp) ?_
  intro i hi _
  simp [turnTask, Nat.mod_eq_of_lt hi]

theorem rotate_turnTask (K : ℕ) :
    (ts.rotate K).map some = (List.range' K ts.length).map fun i =>
      some (turnTask ts hpos i) := by
  refine List.ext_getElem (by simp) ?_
  intro i hi _
  simp [turnTask, List.getElem_rotate, Nat.add_comm K i]

theorem turnTask_add (k : ℕ) : turnTask ts hpos (k + ts.length) = turnTask ts hpos k := by
  simp [turnTask]

/-- The tasks of `n` turns that follow each other are different. -/
theorem turnTask_ne (hnodup : ts.Nodup) {i j : ℕ} (hlt : i < j) (hle : j < i + ts.length) :
    turnTask ts hpos i ≠ turnTask ts hpos j := by
  intro heq
  have hmod : i % ts.length = j % ts.length := (hnodup.getElem_inj_iff).mp heq
  have hi := Nat.div_add_mod i ts.length
  have hj := Nat.div_add_mod j ts.length
  rw [hmod] at hi
  have hmul : ts.length * (j / ts.length) = ts.length * (i / ts.length) + (j - i) := by omega
  have hdvd : ts.length ∣ j - i :=
    (Nat.dvd_add_right (Nat.dvd_mul_right _ (i / ts.length))).mp
      (hmul ▸ Nat.dvd_mul_right _ _)
  have := Nat.le_of_dvd (by omega) hdvd
  omega

theorem Rotation.takesTurns {B : BaseScheduler σ T} {fits : ℕ → Prop}
    {Holds : ℕ → ℕ → σ → Prop} {s₀ : σ}
    (hB : Rotation B ts.length (turnTask ts hpos) fits Holds) (h₀ : Holds 0 0 s₀) (K : ℕ)
    (hfits : ∀ m, m < ts.length + K → fits m) : TakesTurns B ts K s₀ := by
  obtain ⟨s₁, hadd, hs₁⟩ := hB.addAll h₀ map_turnTask (fun m hm => hfits m (by omega)) (by omega)
  obtain ⟨s₂, hturns, hs₂⟩ := hB.turns hpos hs₁ K fun i hi => hfits _ (by omega)
  obtain ⟨s₃, hpicks⟩ := hB.picks hs₂
  refine ⟨s₁, s₂, s₃, hadd, ?_, ?_⟩
  · have hturn : ∀ k, ts[k % ts.length]? = some (turnTask ts hpos k) := getElem?_turnTask
    rw [hturns, List.range_eq_range']
    simp only [hturn]
  · have hrotate : (ts.rotate K).map some =
        (List.range' K ts.length).map fun i => some (turnTask ts hpos i) := rotate_turnTask K
    rw [hpicks, Nat.zero_add, hrotate]

end

section RoundRobin

variable [DecidableEq T] {cap n : ℕ} {task : ℕ → T}

/-- The deque holds the tasks of `j` turns from `k` on. -/
def RR.Holds (cap n : ℕ) (task : ℕ → T) (k j : ℕ) (s : RR T) : Prop :=
  Deque.Rests cap ((List.range' k j).map task) s.readyQueue ∧ j ≤ n

omit [DecidableEq T] in
theorem RR.Holds.push {k j : ℕ} {s : RR T} (h : s.Holds cap n task k j) (hn : n ≤ cap - 1)
    (hj : j < n) {t : T} (ht : t = task (k + j)) :
    ∃ s', s.push cap (Deque.pushBack t) = some s' ∧ s'.Holds cap n task k (j + 1) := by
  subst ht
  obtain ⟨m', honce, hrest⟩ := h.1.once_push .back (task (k + j))
    (by rw [List.length_map, List.length_range']; omega)
  refine ⟨{ s with readyQueue := m' }, by simp [RR.push, Deque.pushBack, honce], ?_, hj⟩
  rw [List.range'_1_concat, List.map_append]
  exact hrest

/-- A round-robin scheduler puts a task back with a whole slice, at the end. -/
theorem rr_rotation (slice : ℕ) (hn : n ≤ cap - 1) (htask : ∀ k, task (k + n) = task k) :
    Rotation (rr slice cap : BaseScheduler (RR T) T) n task (fun _ => True)
      (fun k j s => s.Holds cap n task k j) where
  add := by
    intro j s h hj _
    exact h.push hn hj (by rw [Nat.zero_add])
  pick := by
    intro k j s h
    obtain ⟨m', honce, hrest⟩ := h.1.once_pop .front (x := task k) (by
      rw [List.range'_succ]
      rfl)
    refine ⟨{ s with readyQueue := m' }, ?_, ?_, by have := h.2; omega⟩
    · simp [rr, RR.pickNextTask, Deque.popFront, popped, honce]
    · rw [List.range'_succ] at hrest
      exact hrest
  empty := by
    intro k s h
    exact ⟨s, by simp [rr, RR.pickNextTask, Deque.popFront, popped, h.1.once_pop_empty .front]⟩
  back := by
    intro k j s h hj _
    let s₁ := (s.taskTick (task k)).1
    let s₂ : RR T :=
      { s₁ with timeSlice := Function.update s₁.timeSlice (task k) (wrap slice) }
    have h₂ : s₂.Holds cap n task (k + 1) j := h
    obtain ⟨s', hpush, hs'⟩ := h₂.push hn (by omega) (t := task k) (by
      rw [show k + 1 + j = k + n by omega, htask])
    refine ⟨s₁, _, s', rfl, ?_, hs'⟩
    simp only [rr, RR.putPrevTask, Bool.false_eq_true, and_false, if_false]
    exact hpush

end RoundRobin

namespace CFS

section

variable [DecidableEq T] {cap n : ℕ} {task : ℕ → T} {s : CFS T} {k j : ℕ}

/-- The pair under which turn `i` is queued. -/
def turnPair (n : ℕ) (task : ℕ → T) (i : ℕ) : Key × T := (key (i / n : ℕ) i, task i)

/-- The map holds the tasks of `j` turns from `k` on, and the account of every task is
that of its last turn. -/
structure Holds (cap n : ℕ) (task : ℕ → T) (k j : ℕ) (s : CFS T) : Prop where
  ordered : ∃ a, Ordered cap ((List.range' k j).map (turnPair n task)) (k + j) a s
  fields : ∀ i, i < k + j → k + j ≤ i + n →
    (s.tasks (task i)).initVruntime = 0 ∧ (s.tasks (task i)).delta = (i / n : ℕ) ∧
      (s.tasks (task i)).nice = 0
  fresh : ∀ i, k + j ≤ i → i < n → s.tasks (task i) = CFSTask.new
  start : k = 0 → s.startVruntime = 0
  few : j ≤ n
  ids : k + j ≤ 2 ^ 63

omit [DecidableEq T] in
/-- The key of the next turn is above those of the turns that are queued. -/
theorem turnPair_last : OrderedMap.put (turnPair n task (k + j)).1 (task (k + j))
    ((List.range' k j).map (turnPair n task)) = (List.range' k (j + 1)).map (turnPair n task) := by
  rw [List.range'_1_concat, List.map_append]
  refine OrderedMap.put_append ?_
  intro p hp
  obtain ⟨i, hi, rfl⟩ := List.mem_map.mp hp
  obtain ⟨-, hlt⟩ := List.mem_range'_1.mp hi
  have hle : i / n ≤ (k + j) / n := Nat.div_le_div_right (by omega)
  rw [turnPair, turnPair, key_lt_key]
  omega

omit [DecidableEq T] in
theorem Ordered.mem_turns {a : T → ℕ}
    (h : Ordered cap ((List.range' k j).map (turnPair n task)) (k + j) a s) {t : T} :
    t ∈ s.queue cap ↔ ∃ i, k ≤ i ∧ i < k + j ∧ task i = t := by
  rw [h.mem_queue]
  constructor
  · rintro ⟨p, hp, rfl⟩
    obtain ⟨i, hi, rfl⟩ := List.mem_map.mp hp
    obtain ⟨hle, hlt⟩ := List.mem_range'_1.mp hi
    exact ⟨i, hle, hlt, rfl⟩
  · rintro ⟨i, hle, hlt, rfl⟩
    exact ⟨_, List.mem_map_of_mem (List.mem_range'_1.mpr ⟨hle, hlt⟩), rfl⟩

omit [DecidableEq T] in
theorem Ordered.length_turns {a : T → ℕ}
    (h : Ordered cap ((List.range' k j).map (turnPair n task)) (k + j) a s) :
    (s.queue cap).length = j := by
  rw [h.queue_perm.length_eq, List.length_map, List.length_map, List.length_range']

omit [DecidableEq T] in
theorem Ordered.lap_turns {a : T → ℕ}
    (h : Ordered cap ((List.range' k j).map (turnPair n task)) (k + j) a s)
    (hids : k + j < 2 ^ 63) : ∀ u ∈ s.queue cap, lap (a u) = lap (k + j) := by
  intro u hu
  obtain ⟨p, hp, rfl⟩ := h.mem_queue.mp hu
  have := h.early p hp
  rw [lap_small (by omega), lap_small hids]

theorem Holds.add (h : s.Holds cap n task 0 j) (hcap : cap < BTreeMap.usize) (hn : n ≤ cap)
    (hne : ∀ i j, i < j → j < i + n → task i ≠ task j) (hj : j < n) (hfits : j < 2 ^ 63) :
    (s.addTask cap (task j)).Holds cap n task 0 (j + 1) := by
  obtain ⟨a, hord⟩ := h.ordered
  have hstart := h.start rfl
  have hout : task j ∉ s.queue cap := by
    rw [hord.mem_turns]
    rintro ⟨i, -, hlt, heq⟩
    exact hne i j (by omega) (by omega) heq
  have hnew := h.fresh j (by omega) hj
  have hord' := hord.addTask hcap hout (by rw [hord.length_turns]; omega)
    (hord.lap_turns (by omega)) hnew
  have hkey : key s.startVruntime (wrap ((0 + j : ℕ) : ℤ)) = (turnPair n task (0 + j)).1 := by
    rw [hstart, wrap_small (by omega), turnPair, Nat.div_eq_of_lt (by omega : 0 + j < n)]
    rfl
  have htask : task j = task (0 + j) := by rw [Nat.zero_add]
  rw [hkey, htask, turnPair_last] at hord'
  have hother : ∀ i, i ≠ j → i < n → (s.addTask cap (task j)).tasks (task i) =
      s.tasks (task i) := by
    intro i hij hi
    have hdiff : task i ≠ task j := by
      rcases lt_or_gt_of_ne hij with hlt | hlt
      · exact hne i j hlt (by omega)
      · exact (hne j i hlt (by omega)).symm
    simp only [CFS.addTask, CFS.insert, CFS.setTask, Function.update_of_ne hdiff]
  refine ⟨⟨_, htask ▸ hord'⟩, ?_, ?_, ?_, hj, by omega⟩
  · intro i hi hlate
    by_cases hij : i = j
    · subst hij
      simp only [CFS.addTask, CFS.insert, CFS.setTask, Function.update_self, hnew,
        Nat.div_eq_of_lt hj]
      exact ⟨hstart, rfl, rfl⟩
    · rw [hother i hij (by omega)]
      exact h.fields i (by omega) (by omega)
  · intro i hi hin
    rw [hother i (by omega) hin]
    exact h.fresh i (by omega) hin
  · intro _
    -- the first task keeps its key at the head
    have hfirst := hord'.rests.firstKeyValue
    rw [List.range'_succ] at hfirst
    rw [← htask] at hfirst
    change (((s.addTask cap (task j)).readyQueue.firstKeyValue cap).map
      fun p => p.1.vruntime).getD 0 = 0
    rw [hfirst]
    simp [turnPair, key, Key.vruntime]

omit [DecidableEq T] in
theorem Holds.pick (h : s.Holds cap n task k (j + 1)) (hcap : cap < BTreeMap.usize) :
    (s.pickNextTask cap).2 = some (task k) ∧
      (s.pickNextTask cap).1.Holds cap n task (k + 1) j := by
  obtain ⟨a, hord⟩ := h.ordered
  obtain ⟨hfirst, hord'⟩ := hord.pickNextTask hcap
  rw [List.range'_succ] at hfirst hord'
  have hcount : k + (j + 1) = k + 1 + j := by omega
  refine ⟨hfirst, ⟨a, hcount ▸ hord'⟩, hcount ▸ h.fields, hcount ▸ h.fresh, ?_, ?_, hcount ▸ h.ids⟩
  · intro hk
    omega
  · have := h.few
    omega

omit [DecidableEq T] in
theorem Holds.empty (h : s.Holds cap n task k 0) (hcap : cap < BTreeMap.usize) :
    (s.pickNextTask cap).2 = none := by
  obtain ⟨a, hord⟩ := h.ordered
  exact (hord.pickNextTask hcap).1

/-- A task that is picked and ticked has the account of its next turn. -/
theorem Holds.ticked (h : s.Holds cap n task (k + 1) j) (hj : j + 1 = n)
    (hfits : (k + n) / n < 2 ^ 63) :
    ((s.tasks (task k)).taskTick.initVruntime = 0 ∧
      (s.tasks (task k)).taskTick.delta = ((k + n) / n : ℕ) ∧
      (s.tasks (task k)).taskTick.nice = 0) ∧
    (s.taskTick (task k)).1.vruntime (task k) = ((k + n) / n : ℕ) := by
  obtain ⟨hinit, hdelta, hnice⟩ := h.fields k (by omega) (by omega)
  have hdiv : ((k + n) / n : ℕ) = k / n + 1 := Nat.add_div_right k (by omega)
  have hticks : (s.tasks (task k)).taskTick.delta = ((k + n) / n : ℕ) := by
    change wrap ((s.tasks (task k)).delta + 1) = _
    rw [hdelta, ← Nat.cast_succ, Nat.succ_eq_add_one, ← hdiv, wrap_small hfits]
  refine ⟨⟨hinit, hticks, hnice⟩, ?_⟩
  rw [CFS.vruntime, taskTick_tasks, Function.update_self, CFSTask.getVruntime,
    if_pos (show (s.tasks (task k)).taskTick.nice = 0 from hnice)]
  change wrap ((s.tasks (task k)).initVruntime + (s.tasks (task k)).taskTick.delta) = _
  rw [hinit, hticks, zero_add, wrap_small hfits]

/-- The task of turn `k` is put back as that of turn `k + n`. -/
theorem Holds.back (h : s.Holds cap n task (k + 1) j) (hcap : cap < BTreeMap.usize)
    (hn : n ≤ cap) (hne : ∀ i j, i < j → j < i + n → task i ≠ task j)
    (htask : ∀ k, task (k + n) = task k) (hj : j + 1 = n) (hfits : k + n < 2 ^ 63) :
    ((s.taskTick (task k)).1.putPrevTask cap (task k)).Holds cap n task (k + 1) (j + 1) := by
  obtain ⟨a, hord⟩ := h.ordered
  have hcount : k + 1 + j = k + n := by omega
  obtain ⟨hfields, hvr⟩ := h.ticked hj ((Nat.div_le_self _ _).trans_lt hfits)
  have hout : task k ∉ s.queue cap := by
    rw [hord.mem_turns]
    rintro ⟨i, hle, hlt, heq⟩
    exact hne k i (by omega) (by omega) heq.symm
  have htick := hord.taskTick hout
  have hout' : task k ∉ (s.taskTick (task k)).1.queue cap := by
    rw [htick.mem_queue, ← hord.mem_queue]
    exact hout
  have hord' := htick.putPrevTask hcap hout'
    (by rw [htick.length_turns]; omega) (htick.lap_turns (by omega))
  have hkey : key ((s.taskTick (task k)).1.vruntime (task k)) (wrap ((k + 1 + j : ℕ) : ℤ)) =
      (turnPair n task (k + 1 + j)).1 := by
    rw [hvr, wrap_small (by omega), turnPair, hcount]
  have hturn : task k = task (k + 1 + j) := by rw [hcount, htask]
  have hput : OrderedMap.put (key ((s.taskTick (task k)).1.vruntime (task k))
      (wrap ((k + 1 + j : ℕ) : ℤ))) (task k) ((List.range' (k + 1) j).map (turnPair n task)) =
        (List.range' (k + 1) (j + 1)).map (turnPair n task) := by
    rw [hkey, hturn]
    exact turnPair_last
  rw [hput] at hord'
  have hother : ∀ t, t ≠ task k →
      ((s.taskTick (task k)).1.putPrevTask cap (task k)).tasks t = s.tasks t := by
    intro t ht
    simp only [CFS.putPrevTask, CFS.insert, CFS.setTask, taskTick_tasks,
      Function.update_of_ne ht]
  refine ⟨⟨_, hord'⟩, ?_, ?_, by omega, by omega, by omega⟩
  · intro i hi hlate
    rcases Nat.lt_or_ge i (k + n) with hlt | hge
    · have hdiff : task i ≠ task k := (hne k i (by omega) (by omega)).symm
      rw [hother _ hdiff]
      exact h.fields i (by omega) (by omega)
    · obtain rfl : i = k + n := by omega
      rw [htask]
      simp only [CFS.putPrevTask, CFS.insert, CFS.setTask, taskTick_tasks, Function.update_self]
      exact hfields
  · intro i hi hin
    omega

end

end CFS

/-- A fair scheduler puts a task back behind those of its turn. -/
theorem cfs_rotation [DecidableEq T] {cap n : ℕ} {task : ℕ → T} (hcap : cap < BTreeMap.usize)
    (hn : n ≤ cap) (hne : ∀ i j, i < j → j < i + n → task i ≠ task j)
    (htask : ∀ k, task (k + n) = task k) :
    Rotation (cfs cap : BaseScheduler (CFS T) T) n task (fun m => m < 2 ^ 63)
      (fun k j s => s.Holds cap n task k j) where
  add := fun j s h hj hfits => ⟨_, rfl, h.add hcap hn hne hj hfits⟩
  pick := by
    intro k j s h
    obtain ⟨hfirst, h'⟩ := h.pick hcap
    exact ⟨_, congrArg some (Prod.ext rfl hfirst), h'⟩
  empty := fun k s h => ⟨_, congrArg some (Prod.ext rfl (h.empty hcap))⟩
  back := fun k j s h hj hfits => ⟨_, _, _, rfl, rfl, h.back hcap hn hne htask hj hfits⟩

/-- Tasks without ticks, before any is added. -/
theorem CFS.holds_new [DecidableEq T] {cap n : ℕ} {task : ℕ → T} {tasks : T → CFSTask}
    (hnew : ∀ i, i < n → tasks (task i) = CFSTask.new) :
    (CFS.new tasks).Holds cap n task 0 0 where
  ordered := ⟨fun _ => 0, Ordered.new tasks _⟩
  fields := fun i hi => by omega
  fresh := fun i _ hi => hnew i hi
  start := fun _ => rfl
  few := Nat.zero_le _
  ids := Nat.zero_le _

/-- Equal tasks take turns, round a round-robin scheduler for ever and round a fair one
until its ids overflow. -/
theorem turns_taken [DecidableEq T] {cap : ℕ} (hcap : cap < BTreeMap.usize) (ts : List T)
    (hnodup : ts.Nodup) (hpos : 1 ≤ ts.length) (K : ℕ) :
    (ts.length ≤ cap - 1 → ∀ slice (s₀ : RR T), s₀.readyQueue = .new →
      TakesTurns (rr slice cap) ts K s₀) ∧
    (ts.length ≤ cap → ts.length + K ≤ 2 ^ 63 → ∀ tasks : T → CFSTask,
      (∀ t ∈ ts, tasks t = CFSTask.new) → TakesTurns (cfs cap) ts K (CFS.new tasks)) := by
  constructor
  · intro hroom slice s₀ hs₀
    have hrest : Deque.Rests cap [] s₀.readyQueue := by
      rw [hs₀]
      exact Deque.Inv.init (by omega)
    have hB : Rotation (rr slice cap) ts.length (turnTask ts hpos) _ _ :=
      rr_rotation slice hroom turnTask_add
    exact hB.takesTurns ⟨hrest, Nat.zero_le _⟩ K fun _ _ => trivial
  · intro hroom hids tasks hnew
    have hB : Rotation (cfs cap) ts.length (turnTask ts hpos) _ _ :=
      cfs_rotation hcap hroom (fun i j hlt hle => turnTask_ne hnodup hlt hle) turnTask_add
    exact hB.takesTurns (CFS.holds_new fun i _ => hnew _ (List.getElem_mem _)) K
      fun m hm => by omega

/-- Three tasks, two turns. -/
theorem turns_taken_three : TakesTurns (rr 5 4) [7, 8, 9] 2 ⟨.new, fun _ => 5⟩ ∧
    TakesTurns (cfs 4) [7, 8, 9] 2 (CFS.new fun _ => CFSTask.new) := by
  obtain ⟨hrr, hcfs⟩ := turns_taken (T := ℕ) (show 4 < BTreeMap.usize by norm_num [BTreeMap.usize])
    [7, 8, 9] (by decide) (by decide) 2
  exact ⟨hrr (by decide) 5 _ rfl, hcfs (by decide) (by norm_num) _ fun _ _ => rfl⟩

/-- The turn whose task is put back under the first id after the overflow: of three tasks
the other two have its vruntime and greater ids, and it is picked again. -/
theorem CFS.Holds.overflow {task : ℕ → ℕ} {s : CFS ℕ} (h : s.Holds 4 3 task (2 ^ 63 - 3) 3)
    (hne : ∀ i j, i < j → j < i + 3 → task i ≠ task j) :
    ∃ s', repeated (cfs 4).turn 2 s =
      some (s', [some (task (2 ^ 63 - 3)), some (task (2 ^ 63 - 3))]) := by
  have hcap : 4 < BTreeMap.usize := by norm_num [BTreeMap.usize]
  obtain ⟨hpick, h₁⟩ := h.pick hcap
  generalize hs₁ : (s.pickNextTask 4).1 = s₁ at h₁
  generalize ht : task (2 ^ 63 - 3) = t at hpick ⊢
  obtain ⟨-, hvr⟩ := h₁.ticked rfl (by norm_num)
  obtain ⟨a, hord⟩ := h₁.ordered
  have hout : t ∉ s₁.queue 4 := by
    rw [hord.mem_turns, ← ht]
    rintro ⟨i, hle, hlt, heq⟩
    exact hne (2 ^ 63 - 3) i (by omega) (by omega) heq.symm
  have htick := hord.taskTick hout
  rw [ht] at hvr
  -- the pair that is put back stands before the two that are queued
  let k := key 3074457345618258602 (wrap (2 ^ 63))
  have hbelow : ∀ p ∈ (List.range' (2 ^ 63 - 3 + 1) 2).map (turnPair 3 task), k < p.1 := by
    intro p hp
    obtain ⟨i, hi, rfl⟩ := List.mem_map.mp hp
    obtain ⟨hle, hlt⟩ := List.mem_range'_1.mp hi
    have hid : wrap (2 ^ 63) = -2 ^ 63 := by decide
    rw [turnPair, key_lt_key, hid]
    omega
  have hfind : OrderedMap.find k ((List.range' (2 ^ 63 - 3 + 1) 2).map (turnPair 3 task)) =
      none := by
    rw [OrderedMap.find_eq_none]
    exact fun p hp => (hbelow p hp).ne'
  obtain ⟨-, hrest⟩ := htick.rests.insert hcap k t
  simp only [BTreeMap.Op.onMap, hfind, List.length_map, List.length_range',
    if_pos (show 2 < 4 by decide), OrderedMap.put_cons hbelow] at hrest
  have hqueue : ((s₁.taskTick t).1.putPrevTask 4 t).readyQueue =
      ((s₁.taskTick t).1.readyQueue.insert 4 k t).1 := by
    have hpool : (s₁.taskTick t).1.idPool = wrap (2 ^ 63) := htick.pool
    have hvr' : (s₁.taskTick t).1.vruntime t = 3074457345618258602 := hvr
    simp only [CFS.putPrevTask, CFS.insert, CFS.setTask, Function.update_self, k, ← hpool,
      ← hvr']
    rfl
  rw [← hqueue] at hrest
  have hagain : (((s₁.taskTick t).1.putPrevTask 4 t).pickNextTask 4).2 = some t :=
    congrArg (Option.map Prod.snd) (hrest.popFirst hcap).1
  have hturn : ∀ r : CFS ℕ, (r.pickNextTask 4).2 = some t →
      (cfs 4).turn r = some ((((r.pickNextTask 4).1.taskTick t).1.putPrevTask 4 t), some t) := by
    intro r hr
    have hsplit : (cfs 4).pickNextTask r = some ((r.pickNextTask 4).1, some t) :=
      congrArg some (Prod.ext rfl hr)
    rw [BaseScheduler.turn, hsplit]
    rfl
  have hfirst := hturn s hpick
  rw [hs₁] at hfirst
  simp [repeated, hfirst, hturn _ hagain]

/-- With three tasks the turns are no longer taken after `2 ^ 63 - 2` of them. -/
theorem turns_missed : ¬ TakesTurns (cfs 4) [0, 1, 2] (2 ^ 63 - 1)
    (CFS.new fun _ => CFSTask.new) := by
  rintro ⟨s₁, s₂, -, hadd, hturns, -⟩
  have hpos : 1 ≤ [0, 1, 2].length := by decide
  let task := turnTask [0, 1, 2] hpos
  have hne : ∀ i j, i < j → j < i + 3 → task i ≠ task j :=
    fun i j hlt hle => turnTask_ne (by decide) hlt hle
  have hB : Rotation (cfs 4) 3 task _ _ :=
    cfs_rotation (by norm_num [BTreeMap.usize]) (by decide) hne turnTask_add
  have hnew : (CFS.new fun _ : ℕ => CFSTask.new).Holds 4 3 task 0 0 := CFS.holds_new fun _ _ => rfl
  obtain ⟨s₁', hadd', hs₁⟩ := hB.addAll hnew map_turnTask (fun m hm => by omega) (Nat.zero_le _)
  obtain rfl : s₁ = s₁' := Option.some.inj (hadd.symm.trans hadd')
  obtain ⟨s₃, hfirst, hs₃⟩ := hB.turns (by decide) hs₁ (2 ^ 63 - 3) fun i hi => by omega
  rw [Nat.zero_add] at hs₃
  obtain ⟨s₄, hlast⟩ := hs₃.overflow hne
  have hall := repeated_add hfirst hlast
  rw [show 2 ^ 63 - 3 + 2 = 2 ^ 63 - 1 by norm_num, hturns, Option.some.injEq,
    Prod.mk.injEq] at hall
  -- the last turn is that of the third task again instead of the first
  have hpick := congrArg (fun xs => xs[2 ^ 63 - 2]?) hall.2
  rw [List.getElem?_map, List.getElem?_range (by norm_num), Option.map_some,
    List.getElem?_append_right (by simp)] at hpick
  have hlast : task (2 ^ 63 - 3) = 2 := rfl
  rw [hlast, List.length_map, List.length_range'] at hpick
  exact absurd hpick (by decide)

end Sched
