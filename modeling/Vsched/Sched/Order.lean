import Vsched.Sched.Minimum

/-!
# The order in which the fair scheduler picks

The key of a queued task is the vruntime it had when it was handed in, with the id it was
given then. Both stay as they are while it is queued, so the task at the head of the map
is one of least vruntime, and among those of this vruntime the one of least id. The ids
count the tasks handed in, and are in the order of arrival unless the counter has
overflowed between two arrivals.
-/

namespace Sched

/-- How often an id counter that starts at zero has overflowed at its `n`th id. -/
def lap (n : ℕ) : ℕ := (n + 2 ^ 63) / 2 ^ 64

theorem wrap_lap (n : ℕ) : wrap n = n - 2 ^ 64 * (lap n : ℤ) := by
  unfold wrap lap
  rw [Int.bmod_def]
  split_ifs <;> omega

/-- Ids of one lap are in the order in which they were given. -/
theorem wrap_lt_wrap {m n : ℕ} (h : lap m = lap n) : wrap m < wrap n ↔ m < n := by
  rw [wrap_lap, wrap_lap, h]
  omega

theorem lap_small {n : ℕ} (hn : n < 2 ^ 63) : lap n = 0 := by
  unfold lap
  omega

theorem wrap_small {n : ℕ} (hn : n < 2 ^ 63) : wrap n = n := by
  rw [wrap_lap, lap_small hn]
  omega

theorem wrap_wrap (x : ℤ) : wrap (wrap x) = wrap x :=
  Int.bmod_bmod

theorem wrap_wrap_add (x y : ℤ) : wrap (wrap x + y) = wrap (x + y) :=
  Int.bmod_add_bmod

theorem CFSTask.wrap_getVruntime (t : CFSTask) : wrap t.getVruntime = t.getVruntime := by
  unfold getVruntime
  split_ifs <;> exact wrap_wrap _

theorem key_lt_key {v w i j : ℤ} : key v i < key w j ↔ v < w ∨ v = w ∧ i < j :=
  Prod.Lex.toLex_lt_toLex

theorem key_inj {v w i j : ℤ} : key v i = key w j ↔ v = w ∧ i = j := by
  rw [key, key, toLex_inj, Prod.mk.injEq]

namespace CFS

variable {T : Type*} [DecidableEq T] {cap n : ℕ} {s s' : CFS T} {l : List (Key × T)}
  {a : T → ℕ} {t u : T} {v : ℤ}

theorem taskTick_tasks (s : CFS T) (t : T) :
    (s.taskTick t).1.tasks = Function.update s.tasks t (s.tasks t).taskTick := by
  unfold CFS.taskTick
  dsimp only
  split_ifs
  · rfl
  · split <;> rfl

/-- `n` tasks have been handed in, each queued one as number `a t`; the queue is the map
`l`, with each task under its vruntime and its number. -/
structure Ordered (cap : ℕ) (l : List (Key × T)) (n : ℕ) (a : T → ℕ) (s : CFS T) : Prop where
  rests : BTreeMap.Rests cap l s.readyQueue
  keys : ∀ p ∈ l, p.1 = key (s.vruntime p.2) (wrap (a p.2))
  early : ∀ p ∈ l, a p.2 < n
  laps : ∀ p ∈ l, ∀ q ∈ l, lap (a p.2) = lap (a q.2)
  nodup : (l.map Prod.snd).Nodup
  pool : s.idPool = wrap n
  cached : ∀ m ∈ s.minVruntime, wrap m = m

namespace Ordered

omit [DecidableEq T] in
theorem queue_perm (h : Ordered cap l n a s) : (s.queue cap).Perm (l.map Prod.snd) :=
  CFS.queue_perm h.rests

omit [DecidableEq T] in
theorem queue_nodup (h : Ordered cap l n a s) : (s.queue cap).Nodup :=
  h.queue_perm.nodup_iff.mpr h.nodup

omit [DecidableEq T] in
theorem mem_queue (h : Ordered cap l n a s) : t ∈ s.queue cap ↔ ∃ p ∈ l, p.2 = t := by
  rw [h.queue_perm.mem_iff, List.mem_map]

omit [DecidableEq T] in
theorem startVruntime (h : Ordered cap l n a s) : wrap s.startVruntime = s.startVruntime := by
  unfold CFS.startVruntime
  cases hmin : s.minVruntime with
  | none => rfl
  | some m => exact h.cached m hmin

omit [DecidableEq T] in
theorem new (tasks : T → CFSTask) (a : T → ℕ) : Ordered cap [] 0 a (CFS.new tasks) where
  rests := BTreeMap.Rests.new
  keys := fun p hp => by cases hp
  early := fun p hp => by cases hp
  laps := fun p hp => by cases hp
  nodup := List.nodup_nil
  pool := rfl
  cached := fun m hm => by cases hm

omit [DecidableEq T] in
/-- No task is queued under the next id. -/
theorem find_none (h : Ordered cap l n a s) (hlap : ∀ u ∈ s.queue cap, lap (a u) = lap n) :
    OrderedMap.find (key v (wrap n)) l = none := by
  rw [OrderedMap.find_eq_none]
  intro p hp hkey
  have hlt := (wrap_lt_wrap (hlap _ (h.mem_queue.mpr ⟨p, hp, rfl⟩))).mpr (h.early p hp)
  rw [h.keys p hp, key_inj] at hkey
  rw [hkey.2] at hlt
  exact lt_irrefl _ hlt

/-- A task is handed in under its vruntime and the next id. -/
theorem handIn (h : Ordered cap l n a s) (hcap : cap < BTreeMap.usize)
    (ht : t ∉ s.queue cap) (hroom : (s.queue cap).length < cap)
    (hlap : ∀ u ∈ s.queue cap, lap (a u) = lap n)
    (hqueue : s'.readyQueue = (s.readyQueue.insert cap (key v (wrap n)) t).1)
    (hself : s'.vruntime t = v) (hother : ∀ u, u ≠ t → s'.vruntime u = s.vruntime u)
    (hpool : s'.idPool = wrap (s.idPool + 1)) (hcached : ∀ m ∈ s'.minVruntime, wrap m = m) :
    Ordered cap (OrderedMap.put (key v (wrap n)) t l) (n + 1) (Function.update a t n) s' := by
  have hfind : OrderedMap.find (key v (wrap n)) l = none := h.find_none hlap
  have hlen : l.length < cap := by
    rw [← List.length_map Prod.snd, ← h.queue_perm.length_eq]
    exact hroom
  have hput := OrderedMap.put_absent (v := t) hfind
  have hnew : ∀ p ∈ l, p.2 ≠ t := by
    rintro p hp rfl
    exact ht (h.mem_queue.mpr ⟨p, hp, rfl⟩)
  have hold : ∀ p ∈ l, Function.update a t n p.2 = a p.2 :=
    fun p hp => Function.update_of_ne (hnew p hp) n a
  have hlapOld : ∀ p ∈ l, lap (a p.2) = lap n :=
    fun p hp => hlap _ (h.mem_queue.mpr ⟨p, hp, rfl⟩)
  obtain ⟨-, hrest⟩ := h.rests.insert hcap (key v (wrap n)) t
  simp only [BTreeMap.Op.onMap, hfind, if_pos hlen, ← hqueue] at hrest
  refine ⟨hrest, ?_, ?_, ?_, ?_, ?_, hcached⟩
  · intro p hp
    rcases OrderedMap.mem_put hp with rfl | hp
    · rw [hself, Function.update_self]
    · rw [hold p hp, hother _ (hnew p hp)]
      exact h.keys p hp
  · intro p hp
    rcases OrderedMap.mem_put hp with rfl | hp
    · rw [Function.update_self]
      exact Nat.lt_succ_self n
    · rw [hold p hp]
      exact Nat.lt_succ_of_lt (h.early p hp)
  · have hall : ∀ p ∈ OrderedMap.put (key v (wrap n)) t l,
        lap (Function.update a t n p.2) = lap n := by
      intro p hp
      rcases OrderedMap.mem_put hp with rfl | hp
      · rw [Function.update_self]
      · rw [hold p hp]
        exact hlapOld p hp
    intro p hp q hq
    rw [hall p hp, hall q hq]
  · rw [(hput.map Prod.snd).nodup_iff, List.map_cons, List.nodup_cons]
    refine ⟨?_, h.nodup⟩
    intro hmem
    obtain ⟨p, hp, hpt⟩ := List.mem_map.mp hmem
    exact hnew p hp hpt
  · rw [hpool, h.pool, wrap_wrap_add]
    norm_num

theorem vruntime_new (h : Ordered cap l n a s) (hnew : s.tasks t = CFSTask.new) :
    (s.addTask cap t).vruntime t = s.startVruntime := by
  have hstart : (s.addTask cap t).vruntime t =
      ((s.tasks t).setVruntime s.startVruntime).getVruntime := by
    simp only [CFS.vruntime, CFS.addTask, CFS.insert, CFS.setTask, Function.update_self]
    rfl
  rw [hstart, hnew]
  change wrap (s.startVruntime + 0) = s.startVruntime
  rw [add_zero, h.startVruntime]

theorem addTask (h : Ordered cap l n a s) (hcap : cap < BTreeMap.usize)
    (ht : t ∉ s.queue cap) (hroom : (s.queue cap).length < cap)
    (hlap : ∀ u ∈ s.queue cap, lap (a u) = lap n) (hnew : s.tasks t = CFSTask.new) :
    Ordered cap (OrderedMap.put (key s.startVruntime (wrap n)) t l) (n + 1)
      (Function.update a t n) (s.addTask cap t) := by
  have hself := h.vruntime_new (t := t) hnew
  have hother : ∀ u, u ≠ t → (s.addTask cap t).vruntime u = s.vruntime u := by
    intro u hu
    simp only [CFS.vruntime, CFS.addTask, CFS.insert, CFS.setTask, Function.update_of_ne hu]
  have hqueue : (s.addTask cap t).readyQueue =
      (s.readyQueue.insert cap (key s.startVruntime (wrap n)) t).1 := by
    rw [← h.pool]
    rfl
  -- the minimum that is cached is the vruntime in a key of the map
  have hafter : Ordered cap (OrderedMap.put (key s.startVruntime (wrap n)) t l) (n + 1)
      (Function.update a t n) { s.addTask cap t with minVruntime := none } :=
    h.handIn hcap ht hroom hlap hqueue hself hother rfl fun m hm => by cases hm
  refine ⟨hafter.rests, hafter.keys, hafter.early, hafter.laps, hafter.nodup, hafter.pool, ?_⟩
  intro m hm
  have hmin : (s.addTask cap t).minVruntime =
      ((s.addTask cap t).readyQueue.firstKeyValue cap).map fun p => p.1.vruntime := rfl
  have hfirst : (s.addTask cap t).readyQueue.firstKeyValue cap =
      (OrderedMap.put (key s.startVruntime (wrap n)) t l).head? := hafter.rests.firstKeyValue
  rw [hmin, hfirst] at hm
  obtain ⟨p, hp, rfl⟩ := Option.mem_map.mp hm
  rw [hafter.keys p (List.mem_of_mem_head? hp)]
  exact CFSTask.wrap_getVruntime _

theorem putPrevTask (h : Ordered cap l n a s) (hcap : cap < BTreeMap.usize)
    (ht : t ∉ s.queue cap) (hroom : (s.queue cap).length < cap)
    (hlap : ∀ u ∈ s.queue cap, lap (a u) = lap n) :
    Ordered cap (OrderedMap.put (key (s.vruntime t) (wrap n)) t l) (n + 1)
      (Function.update a t n) (s.putPrevTask cap t) := by
  refine h.handIn hcap ht hroom hlap ?_ ?_ ?_ rfl h.cached
  · simp only [CFS.putPrevTask, CFS.insert, CFS.setTask, Function.update_self, ← h.pool]
    rfl
  · simp only [CFS.vruntime, CFS.putPrevTask, CFS.insert, CFS.setTask, Function.update_self]
    rfl
  · intro u hu
    simp only [CFS.vruntime, CFS.putPrevTask, CFS.insert, CFS.setTask, Function.update_of_ne hu]

omit [DecidableEq T] in
theorem pickNextTask (h : Ordered cap l n a s) (hcap : cap < BTreeMap.usize) :
    (s.pickNextTask cap).2 = l.head?.map Prod.snd ∧
      Ordered cap l.tail n a (s.pickNextTask cap).1 := by
  obtain ⟨hfirst, hrest⟩ := h.rests.popFirst hcap
  refine ⟨congrArg (Option.map Prod.snd) hfirst, hrest, ?_, ?_, ?_, ?_, h.pool, h.cached⟩
  · exact fun p hp => h.keys p (List.mem_of_mem_tail hp)
  · exact fun p hp => h.early p (List.mem_of_mem_tail hp)
  · exact fun p hp q hq => h.laps p (List.mem_of_mem_tail hp) q (List.mem_of_mem_tail hq)
  · rw [List.map_tail]
    exact h.nodup.tail

/-- Changing the fields of a task that is not queued. -/
theorem setTask (h : Ordered cap l n a s) (ht : t ∉ s.queue cap) (c : CFSTask) :
    Ordered cap l n a (s.setTask t c) := by
  refine ⟨h.rests, ?_, h.early, h.laps, h.nodup, h.pool, h.cached⟩
  intro p hp
  have hne : p.2 ≠ t := by
    rintro rfl
    exact ht (h.mem_queue.mpr ⟨p, hp, rfl⟩)
  rw [h.keys p hp]
  change key (s.tasks p.2).getVruntime _ = key (Function.update s.tasks t c p.2).getVruntime _
  rw [Function.update_of_ne hne]

theorem taskTick (h : Ordered cap l n a s) (ht : t ∉ s.queue cap) :
    Ordered cap l n a (s.taskTick t).1 := by
  have hset := h.setTask ht (s.tasks t).taskTick
  unfold CFS.taskTick
  dsimp only
  split_ifs
  · exact hset
  · split <;> exact hset

theorem setPriority (h : Ordered cap l n a s) (ht : t ∉ s.queue cap) (prio : ℤ) :
    Ordered cap l n a (s.setPriority t prio).1 := by
  unfold CFS.setPriority
  split_ifs
  · exact h.setTask ht _
  · exact h

omit [DecidableEq T] in
/-- The head of the map is before every other queued task. -/
theorem head_first (h : Ordered cap l n a s) {p q : Key × T} (hp : l.head? = some p)
    (hq : q ∈ l) (hne : q.2 ≠ p.2) : s.vruntime p.2 < s.vruntime q.2 ∨
      s.vruntime p.2 = s.vruntime q.2 ∧ a p.2 < a q.2 := by
  have hmem : p ∈ l := List.mem_of_mem_head? hp
  have hlt : p.1 < q.1 := by
    cases l with
    | nil => cases hp
    | cons r l =>
        cases hp
        rcases List.mem_cons.mp hq with rfl | hq
        · exact absurd rfl hne
        · exact h.rests.sorted.head_lt q hq
  rw [h.keys p hmem, h.keys q hq, key_lt_key, wrap_lt_wrap (h.laps p hmem q hq)] at hlt
  exact hlt

end Ordered

/-- The task a call hands in. -/
def Op.handIn : Op T → Option T
  | .addTask task => some task
  | .putPrevTask prev => some prev
  | _ => none

/-- The number of tasks handed in. -/
def arrivals (h : List (Op T)) : ℕ := h.countP fun o => o.handIn.isSome

/-- The number of tasks handed in before the last arrival of `t`. -/
def arrival (t : T) : List (Op T) → ℕ
  | [] => 0
  | o :: h => if o.handIn = some t then arrivals h else arrival t h

/-- A task that has been handed in and is not queued has been picked and not put
back. -/
def Picked (cap : ℕ) (h : List (Op T)) (s : CFS T) (t : T) : Prop :=
  (∃ o ∈ h, o.handIn = some t) ∧ t ∉ s.queue cap

/-- Tasks are fresh when they are added, are put back, ticked and given a priority while
they are picked, and find room in the queue. -/
def Orderly (cap : ℕ) (h : List (Op T)) (s : CFS T) : Op T → Prop
  | .addTask task => s.tasks task = CFSTask.new ∧ (∀ o ∈ h, o.handIn ≠ some task) ∧
      (s.queue cap).length < cap
  | .pickNextTask => True
  | .putPrevTask prev => Picked cap h s prev ∧ (s.queue cap).length < cap
  | .taskTick current => Picked cap h s current
  | .setPriority current _ => Picked cap h s current

/-- The id counter does not overflow while a task is queued. -/
def SameLap (cap : ℕ) (h : List (Op T)) (s : CFS T) (o : Op T) : Prop :=
  o.handIn.isSome → ∀ u ∈ s.queue cap, lap (arrival u h) = lap (arrivals h)

/-- The next pick returns none if no task is queued. Otherwise it takes away one task,
which has the least vruntime and is the first that was handed in among those that have
it. -/
def PicksLeast (cap : ℕ) (h : List (Op T)) (s : CFS T) : Prop :=
  (s.queue cap).Nodup ∧
    match (s.pickNextTask cap).2 with
    | none => s.queue cap = []
    | some t => (s.queue cap).Perm (t :: (s.pickNextTask cap).1.queue cap) ∧
        ∀ u ∈ s.queue cap, u ≠ t → s.vruntime t < s.vruntime u ∨
          s.vruntime t = s.vruntime u ∧ arrival t h < arrival u h

omit [DecidableEq T] in
theorem arrivals_handIn {o : Op T} {h : List (Op T)} (ho : o.handIn = some t) :
    arrivals (o :: h) = arrivals h + 1 := by
  rw [arrivals, List.countP_cons_of_pos (by rw [ho]; rfl)]
  rfl

omit [DecidableEq T] in
theorem arrivals_other {o : Op T} {h : List (Op T)} (ho : o.handIn = none) :
    arrivals (o :: h) = arrivals h := by
  rw [arrivals, List.countP_cons_of_neg (by rw [ho]; exact Bool.false_ne_true)]
  rfl

theorem arrival_handIn {o : Op T} {h : List (Op T)} (ho : o.handIn = some t) :
    (fun u => arrival u (o :: h)) = Function.update (fun u => arrival u h) t (arrivals h) := by
  funext u
  by_cases hu : u = t
  · subst hu
    rw [Function.update_self, arrival, if_pos ho]
  · rw [Function.update_of_ne hu, arrival, if_neg]
    rw [ho, Option.some.injEq]
    exact fun htu => hu htu.symm

theorem arrival_other {o : Op T} {h : List (Op T)} (ho : o.handIn = none) :
    (fun u => arrival u (o :: h)) = fun u => arrival u h := by
  funext u
  rw [arrival, if_neg]
  rw [ho]
  exact fun hu => by cases hu

/-- The map is in order, and only tasks that were handed in are queued. -/
def InOrder (cap : ℕ) (h : List (Op T)) (s : CFS T) : Prop :=
  (∃ l, Ordered cap l (arrivals h) (fun u => arrival u h) s) ∧
    ∀ t ∈ s.queue cap, ∃ o ∈ h, o.handIn = some t

namespace InOrder

variable {h : List (Op T)}

theorem handIn (hin : InOrder cap h s) {o : Op T} (ho : o.handIn = some t)
    (hqueue : (s'.queue cap).Perm (t :: s.queue cap))
    (hord : Ordered cap l (arrivals h + 1) (Function.update (fun u => arrival u h) t (arrivals h))
      s') : InOrder cap (o :: h) s' := by
  refine ⟨⟨l, ?_⟩, ?_⟩
  · rw [arrivals_handIn ho, arrival_handIn ho]
    exact hord
  · intro u hu
    rcases List.mem_cons.mp (hqueue.mem_iff.mp hu) with rfl | hu
    · exact ⟨o, List.mem_cons_self, ho⟩
    · obtain ⟨o', ho', htask⟩ := hin.2 u hu
      exact ⟨o', List.mem_cons_of_mem _ ho', htask⟩

theorem other (hin : InOrder cap h s) {o : Op T} (ho : o.handIn = none)
    (hqueue : ∀ u ∈ s'.queue cap, u ∈ s.queue cap)
    (hord : Ordered cap l (arrivals h) (fun u => arrival u h) s') :
    InOrder cap (o :: h) s' := by
  refine ⟨⟨l, ?_⟩, ?_⟩
  · rw [arrivals_other ho, arrival_other ho]
    exact hord
  · intro u hu
    obtain ⟨o', ho', htask⟩ := hin.2 u (hqueue u hu)
    exact ⟨o', List.mem_cons_of_mem _ ho', htask⟩

theorem step (hin : InOrder cap h s) (hcap : cap < BTreeMap.usize) {o : Op T}
    (hguard : Orderly cap h s o) (hlap : SameLap cap h s o) :
    InOrder cap (o :: h) (o.apply cap s) := by
  obtain ⟨⟨l, hord⟩, hknown⟩ := hin
  cases o with
  | addTask task =>
      obtain ⟨hnew, hfresh, hroom⟩ := hguard
      have ht : task ∉ s.queue cap := by
        intro hmem
        obtain ⟨o, ho, htask⟩ := hknown task hmem
        exact hfresh o ho htask
      have hord' := hord.addTask hcap ht hroom (hlap rfl) hnew
      refine handIn ⟨⟨l, hord⟩, hknown⟩ rfl ?_ hord'
      have hput := OrderedMap.put_absent (v := task)
        (hord.find_none (v := s.startVruntime) (hlap rfl))
      exact hord'.queue_perm.trans ((hput.map Prod.snd).trans (hord.queue_perm.symm.cons task))
  | pickNextTask =>
      have hord' := (hord.pickNextTask hcap).2
      refine other ⟨⟨l, hord⟩, hknown⟩ rfl ?_ hord'
      intro u hu
      obtain ⟨p, hp, rfl⟩ := hord'.mem_queue.mp hu
      exact hord.mem_queue.mpr ⟨p, List.mem_of_mem_tail hp, rfl⟩
  | putPrevTask prev =>
      obtain ⟨⟨-, ht⟩, hroom⟩ := hguard
      have hord' := hord.putPrevTask hcap ht hroom (hlap rfl)
      refine handIn ⟨⟨l, hord⟩, hknown⟩ rfl ?_ hord'
      have hput := OrderedMap.put_absent (v := prev)
        (hord.find_none (v := s.vruntime prev) (hlap rfl))
      exact hord'.queue_perm.trans ((hput.map Prod.snd).trans (hord.queue_perm.symm.cons prev))
  | taskTick current =>
      have hord' := hord.taskTick hguard.2
      refine other ⟨⟨l, hord⟩, hknown⟩ rfl ?_ hord'
      exact fun u hu => hord.mem_queue.mpr (hord'.mem_queue.mp hu)
  | setPriority current prio =>
      have hord' := hord.setPriority hguard.2 prio
      refine other ⟨⟨l, hord⟩, hknown⟩ rfl ?_ hord'
      exact fun u hu => hord.mem_queue.mpr (hord'.mem_queue.mp hu)

theorem picksLeast (hin : InOrder cap h s) (hcap : cap < BTreeMap.usize) :
    PicksLeast cap h s := by
  obtain ⟨⟨l, hord⟩, -⟩ := hin
  obtain ⟨hfirst, hord'⟩ := hord.pickNextTask hcap
  refine ⟨hord.queue_nodup, ?_⟩
  rw [hfirst]
  cases l with
  | nil => exact List.perm_nil.mp hord.queue_perm
  | cons p l =>
      refine ⟨hord.queue_perm.trans (hord'.queue_perm.symm.cons p.2), ?_⟩
      intro u hu hne
      obtain ⟨q, hq, rfl⟩ := hord.mem_queue.mp hu
      exact hord.head_first rfl hq hne

end InOrder

theorem inOrder_run (hcap : cap < BTreeMap.usize) {h : List (Op T)}
    (hrun : (machine T cap).RunOf (fun h s o => Orderly cap h s o ∧ SameLap cap h s o) h s) :
    InOrder cap h s := by
  refine hrun.invariant ?_ ?_
  · rintro s ⟨tasks, rfl⟩
    have hord : Ordered cap [] 0 _ (CFS.new tasks) := Ordered.new tasks fun u => arrival u []
    exact ⟨⟨[], hord⟩, fun t ht => by obtain ⟨p, hp, -⟩ := hord.mem_queue.mp ht; cases hp⟩
  · rintro h s o s' - hin ⟨hguard, hlap⟩ rfl
    exact hin.step hcap hguard hlap

/-- As long as the id counter does not overflow while a task is queued, every pick takes
the queued task of least vruntime, and the first of them that was handed in. -/
theorem least_picked (hcap : cap < BTreeMap.usize) {h : List (Op T)}
    (hrun : (machine T cap).RunOf (fun h s o => Orderly cap h s o ∧ SameLap cap h s o) h s) :
    PicksLeast cap h s :=
  (inOrder_run hcap hrun).picksLeast hcap

/-- Two new tasks, of which the first one added is picked. -/
theorem least_picked_two : ∃ (h : List (Op ℕ)) (s : CFS ℕ), PicksLeast 4 h s ∧
    (s.pickNextTask 4).2 = some 7 := by
  let s₀ : CFS ℕ := new fun _ => CFSTask.new
  let s₁ := s₀.addTask 4 7
  let s₂ := s₁.addTask 4 8
  have hrun : (machine ℕ 4).RunOf (fun h s o => Orderly 4 h s o ∧ SameLap 4 h s o)
      [.addTask 8, .addTask 7] s₂ := by
    refine .next (.next (.start ⟨_, rfl⟩) ⟨⟨rfl, ?_, ?_⟩, ?_⟩ rfl) ⟨⟨?_, ?_, ?_⟩, ?_⟩ rfl
    · exact fun o ho => by cases ho
    · change (s₀.queue 4).length < 4
      decide
    · intro _ u hu
      exact absurd hu (show u ∉ s₀.queue 4 from fun hu => by cases hu)
    · change s₁.tasks 8 = CFSTask.new
      decide
    · decide
    · change (s₁.queue 4).length < 4
      decide
    · intro _ u hu
      have hqueue : s₁.queue 4 = [7] := by decide
      change u ∈ s₁.queue 4 at hu
      rw [hqueue, List.mem_singleton] at hu
      subst hu
      decide
  exact ⟨_, s₂, least_picked (by norm_num [BTreeMap.usize]) hrun, by decide⟩

/-- A task that is alone in the queue for the `n + 1`st time, of a vruntime that does not
rise. -/
structure Alone (n : ℕ) (h : List (Op ℕ)) (s : CFS ℕ) : Prop where
  run : (machine ℕ 4).RunOf (Orderly 4) h s
  count : arrivals h = n + 1
  known : ∃ o ∈ h, o.handIn = some 7
  fresh : ∀ o ∈ h, o.handIn ≠ some 8
  ordered : Ordered 4 [(key 0 (wrap n), 7)] (n + 1) (fun u => arrival u h) s
  vruntime : s.vruntime 7 = 0
  start : s.startVruntime = 0
  new : s.tasks 8 = CFSTask.new

theorem alone_new : ∃ h s, Alone 0 h s := by
  let s₀ : CFS ℕ := CFS.new fun _ => CFSTask.new
  have hrun : (machine ℕ 4).RunOf (Orderly 4) [] s₀ := .start ⟨_, rfl⟩
  have hord : Ordered 4 [] 0 _ s₀ := Ordered.new (fun _ => CFSTask.new) fun u => arrival u []
  have hord' := hord.addTask (t := 7) (by norm_num [BTreeMap.usize])
    (show 7 ∉ s₀.queue 4 by decide) (show (s₀.queue 4).length < 4 by decide)
    (fun u hu => by obtain ⟨p, hp, -⟩ := hord.mem_queue.mp hu; cases hp) rfl
  have hupdate := arrival_handIn (o := .addTask 7) (t := 7) (h := []) rfl
  change _ = Function.update _ 7 0 at hupdate
  rw [← hupdate] at hord'
  refine ⟨[.addTask 7], s₀.addTask 4 7, ?_, rfl, ⟨_, List.mem_cons_self, rfl⟩, by decide,
    hord', by decide, by decide, by decide⟩
  have hguard : Orderly 4 [] s₀ (.addTask 7) :=
    ⟨rfl, fun o ho => (List.not_mem_nil ho).elim, show (s₀.queue 4).length < 4 by decide⟩
  exact hrun.next hguard rfl

/-- It is picked and put back without a tick. -/
theorem Alone.next {h : List (Op ℕ)} {s : CFS ℕ} (ha : Alone n h s) :
    ∃ h' s', Alone (n + 1) h' s' := by
  have hcap : 4 < BTreeMap.usize := by norm_num [BTreeMap.usize]
  let s₁ := (s.pickNextTask 4).1
  have hord₁ : Ordered 4 [] (n + 1) (fun u => arrival u h) s₁ := (ha.ordered.pickNextTask hcap).2
  have hempty : s₁.queue 4 = [] := List.perm_nil.mp hord₁.queue_perm
  have hout : 7 ∉ s₁.queue 4 := by rw [hempty]; exact List.not_mem_nil
  have hroom : (s₁.queue 4).length < 4 := by rw [hempty]; decide
  have hord₂ := hord₁.putPrevTask hcap hout hroom fun u hu => by rw [hempty] at hu; cases hu
  have hvr : s₁.vruntime 7 = 0 := ha.vruntime
  obtain ⟨o, ho, htask⟩ := ha.known
  rw [← ha.count, ← arrival_other (o := .pickNextTask) rfl,
    ← arrivals_other (o := .pickNextTask) (h := h) rfl,
    ← arrival_handIn (o := .putPrevTask 7) (h := .pickNextTask :: h) rfl, hvr,
    arrivals_other (o := .pickNextTask) (h := h) rfl, ha.count] at hord₂
  have hrun₁ : (machine ℕ 4).RunOf (Orderly 4) (.pickNextTask :: h) s₁ :=
    ha.run.next (show Orderly 4 h s .pickNextTask from trivial) rfl
  have hguard : Orderly 4 (.pickNextTask :: h) s₁ (.putPrevTask 7) :=
    ⟨⟨⟨o, List.mem_cons_of_mem _ ho, htask⟩, hout⟩, hroom⟩
  refine ⟨.putPrevTask 7 :: .pickNextTask :: h, s₁.putPrevTask 4 7, hrun₁.next hguard rfl, ?_,
    ⟨_, List.mem_cons_self, rfl⟩, ?_, hord₂, ?_, ha.start, ?_⟩
  · rw [arrivals_handIn (t := 7) rfl, arrivals_other rfl, ha.count]
  · intro o ho
    rcases List.mem_cons.mp ho with rfl | ho
    · decide
    · rcases List.mem_cons.mp ho with rfl | ho
      · decide
      · exact ha.fresh o ho
  · simp only [CFS.vruntime, CFS.putPrevTask, CFS.insert, CFS.setTask, Function.update_self]
    exact hvr
  · simp only [CFS.putPrevTask, CFS.insert, CFS.setTask]
    rw [Function.update_of_ne (by decide)]
    exact ha.new

theorem alone (n : ℕ) : ∃ h s, Alone n h s := by
  induction n with
  | zero => exact alone_new
  | succ n ih =>
      obtain ⟨h, s, ha⟩ := ih
      exact ha.next

/-- A task queued under the greatest id is picked after one of the same vruntime that is
added after it: the id counter has overflowed. -/
theorem least_missed : ∃ (h : List (Op ℕ)) (s : CFS ℕ), (machine ℕ 4).RunOf (Orderly 4) h s ∧
    ¬ PicksLeast 4 h s := by
  have hcap : 4 < BTreeMap.usize := by norm_num [BTreeMap.usize]
  obtain ⟨h, s, ha⟩ := alone (2 ^ 63 - 1)
  have hqueue : s.queue 4 = [7] := List.perm_singleton.mp ha.ordered.queue_perm
  let s' := s.addTask 4 8
  have hguard : Orderly 4 h s (.addTask 8) := ⟨ha.new, ha.fresh, by rw [hqueue]; decide⟩
  refine ⟨.addTask 8 :: h, s', ha.run.next hguard rfl, ?_⟩
  have hfind : OrderedMap.find (key 0 (wrap (2 ^ 63))) [(key 0 (wrap (2 ^ 63 - 1 : ℕ)), 7)] =
      none := by decide
  obtain ⟨-, hrest⟩ := ha.ordered.rests.insert hcap (key 0 (wrap (2 ^ 63))) 8
  have hput : OrderedMap.put (key 0 (wrap (2 ^ 63))) 8 [(key 0 (wrap (2 ^ 63 - 1 : ℕ)), 7)] =
      [(key 0 (wrap (2 ^ 63)), 8), (key 0 (wrap (2 ^ 63 - 1 : ℕ)), 7)] := by decide
  simp only [BTreeMap.Op.onMap, hfind, hput] at hrest
  have hpool : s.idPool = wrap (2 ^ 63) := ha.ordered.pool
  have hqueue' : s'.readyQueue = (s.readyQueue.insert 4 (key 0 (wrap (2 ^ 63))) 8).1 := by
    rw [← hpool, ← ha.start]
    rfl
  replace hrest : BTreeMap.Rests 4 [(key 0 (wrap (2 ^ 63)), 8),
      (key 0 (wrap (2 ^ 63 - 1 : ℕ)), 7)] s'.readyQueue := by
    rw [hqueue']
    exact hrest
  -- the new task stands at the head of the map
  have hfirst : (s'.pickNextTask 4).2 = some 8 :=
    congrArg (Option.map Prod.snd) (hrest.popFirst hcap).1
  have hmem : 7 ∈ s'.queue 4 := (queue_perm hrest).mem_iff.mpr (by decide)
  have hnew : s'.vruntime 8 = 0 := (ha.ordered.vruntime_new ha.new).trans ha.start
  have hold : s'.vruntime 7 = 0 := by
    simp only [s', CFS.vruntime, CFS.addTask, CFS.insert, CFS.setTask]
    rw [Function.update_of_ne (by decide)]
    exact ha.vruntime
  have hearly := ha.ordered.early _ List.mem_cons_self
  rintro ⟨-, hleast⟩
  rw [hfirst] at hleast
  rcases hleast.2 7 hmem (by decide) with hlt | ⟨-, hlt⟩
  · rw [hnew, hold] at hlt
    exact lt_irrefl _ hlt
  · have h₈ : arrival 8 (.addTask 8 :: h) = 2 ^ 63 := by
      rw [arrival, if_pos (show (Op.addTask 8).handIn = some 8 from rfl), ha.count]
      norm_num
    have h₇ : arrival 7 (.addTask 8 :: h) = arrival 7 h := by
      rw [arrival, if_neg (by decide)]
    rw [h₈, h₇] at hlt
    dsimp only at hearly
    omega

end CFS

end Sched
