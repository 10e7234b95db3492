import Vsched.Foundation.Labelled
import Vsched.Sched.Loss

/-!
# The cached minimum of the fair scheduler

`add_task` refreshes `min_vruntime`; `pick_next_task` and `put_prev_task` leave it
as it is, though they change the ready queue. So it follows the queue only along
the runs in which a pick leaves another task of the vruntime it takes away, or
none at all, and a task that is put back does not undercut it. Along these runs
a new task starts at the least vruntime queued, and a tick asks for a reschedule
exactly if some queued task is behind the current one.
-/

namespace Sched

namespace CFS

variable {T : Type*} [DecidableEq T] {cap : ℕ} {s : CFS T} {l : List (Key × T)} {t : T}

/-- The calls on a fair scheduler. -/
inductive Op (T : Type*)
  | addTask (task : T)
  | pickNextTask
  | putPrevTask (prev : T)
  | taskTick (current : T)
  | setPriority (current : T) (prio : ℤ)
  deriving DecidableEq, Repr

def Op.apply (cap : ℕ) (s : CFS T) : Op T → CFS T
  | .addTask task => s.addTask cap task
  | .pickNextTask => (s.pickNextTask cap).1
  | .putPrevTask prev => s.putPrevTask cap prev
  | .taskTick current => (s.taskTick current).1
  | .setPriority current prio => (s.setPriority current prio).1

/-- A fair scheduler of capacity `cap` used one call at a time. -/
def machine (T : Type*) [DecidableEq T] (cap : ℕ) : Labelled.System (CFS T) (Op T) where
  start := fun s => ∃ tasks, s = new tasks
  step := fun s o s' => s' = o.apply cap s

/-- The vruntime of a task. -/
def vruntime (s : CFS T) (t : T) : ℤ := (s.tasks t).getVruntime

/-- The task a call is about is not queued: it is new, or has been picked and not
put back. -/
def Outside (cap : ℕ) (s : CFS T) : Op T → Prop
  | .addTask task => task ∉ s.queue cap
  | .pickNextTask => True
  | .putPrevTask prev => prev ∉ s.queue cap
  | .taskTick current => current ∉ s.queue cap
  | .setPriority current _ => current ∉ s.queue cap

/-- The vruntime a new task is given. -/
def startVruntime (s : CFS T) : ℤ := s.minVruntime.getD 0

/-- A new task has no ticks counted; a pick leaves no task, or another one of the
cached vruntime; a task put back is not behind the cached vruntime, and has just
that one if no other task is queued. -/
def Follows (cap : ℕ) (s : CFS T) : Op T → Prop
  | .addTask task => ((s.tasks task).setVruntime s.startVruntime).getVruntime = s.startVruntime
  | .pickNextTask => (s.queue cap).length ≤ 1 ∨
      2 ≤ (s.queue cap).countP fun t => decide (s.minVruntime = some (s.vruntime t))
  | .putPrevTask prev =>
      if s.queue cap = [] then s.minVruntime = some (s.vruntime prev)
      else ∀ m ∈ s.minVruntime, m ≤ s.vruntime prev
  | .taskTick _ => True
  | .setPriority _ _ => True

/-- The cached vruntime is the least one among the queued tasks. -/
def Tracks (cap : ℕ) (s : CFS T) : Prop :=
  s.queue cap ≠ [] → ∃ t ∈ s.queue cap, s.minVruntime = some (s.vruntime t) ∧
    ∀ u ∈ s.queue cap, s.vruntime t ≤ s.vruntime u

theorem vruntime_le {a b : Key} (h : a ≤ b) : a.vruntime ≤ b.vruntime :=
  Prod.Lex.monotone_fst_ofLex h

/-- The queue is the map `l`, each task under its vruntime, the least of which is
cached. -/
structure Account (cap : ℕ) (l : List (Key × T)) (s : CFS T) : Prop where
  rests : BTreeMap.Rests cap l s.readyQueue
  keys : ∀ p ∈ l, p.1.vruntime = s.vruntime p.2
  cached : ∀ p, l.head? = some p → s.minVruntime = some p.1.vruntime

namespace Account

omit [DecidableEq T] in
theorem mem_queue (h : Account cap l s) : t ∈ s.queue cap ↔ ∃ k, (k, t) ∈ l := by
  rw [(queue_perm h.rests).mem_iff, List.mem_map]
  constructor
  · rintro ⟨p, hp, rfl⟩
    exact ⟨p.1, hp⟩
  · rintro ⟨k, hk⟩
    exact ⟨(k, t), hk, rfl⟩

omit [DecidableEq T] in
theorem queue_eq_nil (h : Account cap l s) : s.queue cap = [] ↔ l = [] := by
  rw [← List.length_eq_zero_iff, (queue_perm h.rests).length_eq, List.length_map,
    List.length_eq_zero_iff]

omit [DecidableEq T] in
/-- The head of the map is a queued task of least vruntime. -/
theorem least (h : Account cap l s) {p : Key × T} (hp : l.head? = some p) :
    p.2 ∈ s.queue cap ∧ s.minVruntime = some (s.vruntime p.2) ∧
      ∀ u ∈ s.queue cap, s.vruntime p.2 ≤ s.vruntime u := by
  have hmem : p ∈ l := List.mem_of_mem_head? hp
  refine ⟨h.mem_queue.mpr ⟨p.1, hmem⟩, by rw [← h.keys p hmem, h.cached p hp], ?_⟩
  intro u hu
  obtain ⟨k, hk⟩ := h.mem_queue.mp hu
  rw [← h.keys p hmem, ← h.keys _ hk]
  exact vruntime_le (h.rests.sorted.head_le hp _ hk)

omit [DecidableEq T] in
theorem tracks (h : Account cap l s) : s.Tracks cap := by
  intro hne
  cases hp : l.head? with
  | none => exact absurd (h.queue_eq_nil.mpr (List.head?_eq_none_iff.mp hp)) hne
  | some p =>
      obtain ⟨hmem, hcached, hle⟩ := h.least hp
      exact ⟨p.2, hmem, hcached, hle⟩

omit [DecidableEq T] in
theorem not_queued (h : Account cap l s) (ht : t ∉ s.queue cap) : ∀ p ∈ l, p.2 ≠ t := by
  rintro p hp rfl
  exact ht (h.mem_queue.mpr ⟨p.1, hp⟩)

/-- Changing the fields of a task that is not queued. -/
theorem setTask (h : Account cap l s) (ht : t ∉ s.queue cap) (c : CFSTask) :
    Account cap l (s.setTask t c) where
  rests := h.rests
  keys := by
    intro p hp
    rw [h.keys p hp]
    change (s.tasks p.2).getVruntime = (Function.update s.tasks t c p.2).getVruntime
    rw [Function.update_of_ne (h.not_queued ht p hp)]
  cached := h.cached

end Account

omit [DecidableEq T] in
/-- What a map holds after an insertion. -/
theorem mem_onMap {k : Key} {p : Key × T}
    (hp : p ∈ ((BTreeMap.Op.insert k t).onMap cap l).1) : p = (k, t) ∨ p ∈ l := by
  simp only [BTreeMap.Op.onMap] at hp
  cases hfind : OrderedMap.find k l with
  | some old =>
      simp only [hfind] at hp
      exact OrderedMap.mem_put hp
  | none =>
      simp only [hfind] at hp
      split_ifs at hp
      · exact OrderedMap.mem_put hp
      · exact .inr hp

omit [DecidableEq T] in
theorem key_onMap {k : Key} {p : Key × T} (hp : p ∈ l) :
    ∃ q ∈ ((BTreeMap.Op.insert k t).onMap cap l).1, q.1 = p.1 := by
  simp only [BTreeMap.Op.onMap]
  cases OrderedMap.find k l with
  | some old => exact OrderedMap.key_put hp
  | none =>
      dsimp only
      split_ifs
      · exact OrderedMap.key_put hp
      · exact ⟨p, hp, rfl⟩

namespace Account

theorem addTask (h : Account cap l s) (hcap : cap < BTreeMap.usize)
    (ht : t ∉ s.queue cap) (hfresh : s.Follows cap (.addTask t)) :
    ∃ l', Account cap l' (s.addTask cap t) := by
  have hset := h.setTask ht (((s.tasks t).setVruntime s.startVruntime).setId s.idPool)
  obtain ⟨-, hrest⟩ := h.rests.insert hcap (key s.startVruntime s.idPool) t
  refine ⟨_, hrest, ?_, ?_⟩
  · intro p hp
    rcases mem_onMap hp with rfl | hp
    · have hnew : (s.addTask cap t).vruntime t =
          ((s.tasks t).setVruntime s.startVruntime).getVruntime := by
        simp only [vruntime, CFS.addTask, CFS.insert, CFS.setTask, Function.update_self]
        rfl
      rw [hnew, hfresh]
      rfl
    · exact hset.keys p hp
  · intro p hp
    have hfirst := hrest.firstKeyValue
    calc (s.addTask cap t).minVruntime
        = ((s.readyQueue.insert cap (key s.startVruntime s.idPool) t).1.firstKeyValue cap).map
            fun p => p.1.vruntime := rfl
      _ = some p.1.vruntime := by rw [hfirst, hp]; rfl

omit [DecidableEq T] in
theorem pickNextTask (h : Account cap l s) (hcap : cap < BTreeMap.usize)
    (hleft : s.Follows cap .pickNextTask) : Account cap l.tail (s.pickNextTask cap).1 where
  rests := (h.rests.popFirst hcap).2
  keys := fun p hp => h.keys p (List.mem_of_mem_tail hp)
  cached := by
    intro q hq
    change s.minVruntime = _
    have hcount : (s.queue cap).countP (fun t => decide (s.minVruntime = some (s.vruntime t))) =
        l.countP (fun p => decide (s.minVruntime = some p.1.vruntime)) := by
      rw [(queue_perm h.rests).countP_eq, List.countP_map]
      refine List.countP_congr ?_
      intro p hp
      simp [h.keys p hp]
    have hlen : (s.queue cap).length = l.length := by
      rw [(queue_perm h.rests).length_eq, List.length_map]
    cases l with
    | nil => cases hq
    | cons p l =>
        have hmin := h.cached p rfl
        have hqmem : q ∈ l := List.mem_of_mem_head? hq
        rcases hleft with hone | htwo
        · rw [hlen, List.length_cons] at hone
          have := List.length_pos_of_mem hqmem
          omega
        · -- a second task of the cached vruntime bounds the new head from above
          rw [hcount, List.countP_cons] at htwo
          obtain ⟨r, hr, hrmin⟩ : ∃ r ∈ l, decide (s.minVruntime = some r.1.vruntime) = true := by
            rw [← List.countP_pos_iff]
            split_ifs at htwo <;> omega
          have hr := vruntime_le (h.rests.sorted.tail.head_le hq r hr)
          have hp := vruntime_le (le_of_lt (h.rests.sorted.head_lt q hqmem))
          rw [decide_eq_true_eq, hmin, Option.some.injEq] at hrmin
          rw [hmin, Option.some.injEq]
          omega

theorem putPrevTask (h : Account cap l s) (hcap : cap < BTreeMap.usize)
    (ht : t ∉ s.queue cap) (hback : s.Follows cap (.putPrevTask t)) :
    ∃ l', Account cap l' (s.putPrevTask cap t) := by
  have hset := h.setTask ht ((s.tasks t).setId s.idPool)
  have hvr : ∀ u, (s.putPrevTask cap t).vruntime u = s.vruntime u := by
    intro u
    by_cases hu : u = t
    · subst hu
      simp only [vruntime, CFS.putPrevTask, CFS.insert, CFS.setTask, Function.update_self]
      rfl
    · simp only [vruntime, CFS.putPrevTask, CFS.insert, CFS.setTask, Function.update_of_ne hu]
  obtain ⟨-, hrest⟩ := h.rests.insert hcap (key (s.vruntime t) s.idPool) t
  have hqueue : (s.putPrevTask cap t).readyQueue =
      (s.readyQueue.insert cap (key (s.vruntime t) s.idPool) t).1 := by
    simp only [CFS.putPrevTask, CFS.insert, CFS.setTask, Function.update_self]
    rfl
  rw [← hqueue] at hrest
  refine ⟨_, hrest, ?_, ?_⟩
  · intro p hp
    rw [hvr]
    rcases mem_onMap hp with rfl | hp
    · rfl
    · exact h.keys p hp
  · intro q hq
    change s.minVruntime = _
    have hqmem := List.mem_of_mem_head? hq
    cases l with
    | nil =>
        have hmin : s.minVruntime = some (s.vruntime t) := by
          have hback := hback
          rwa [Follows, if_pos (h.queue_eq_nil.mpr rfl)] at hback
        rcases mem_onMap hqmem with rfl | hp
        · exact hmin
        · cases hp
    | cons p l =>
        have hmin := h.cached p rfl
        have hle : p.1.vruntime ≤ s.vruntime t := by
          have hback := hback
          rw [Follows, if_neg (fun hnil => List.cons_ne_nil p l (h.queue_eq_nil.mp hnil)),
            hmin] at hback
          exact hback _ rfl
        -- the key of the old head is still in the map
        obtain ⟨r, hr, hrkey⟩ := key_onMap (k := key (s.vruntime t) s.idPool)
          (t := t) (p := p) (l := p :: l) List.mem_cons_self
        have hqr := vruntime_le (hrest.sorted.head_le hq r hr)
        rw [hrkey] at hqr
        have hpq : p.1.vruntime ≤ q.1.vruntime := by
          rcases mem_onMap hqmem with rfl | hq
          · exact hle
          · exact vruntime_le (h.rests.sorted.head_le rfl q hq)
        rw [hmin, Option.some.injEq]
        omega

theorem taskTick (h : Account cap l s) (ht : t ∉ s.queue cap) :
    Account cap l (s.taskTick t).1 := by
  have hset := h.setTask ht (s.tasks t).taskTick
  unfold CFS.taskTick
  dsimp only
  split_ifs
  · exact hset
  · split <;> exact hset

theorem setPriority (h : Account cap l s) (ht : t ∉ s.queue cap) (prio : ℤ) :
    Account cap l (s.setPriority t prio).1 := by
  unfold CFS.setPriority
  split_ifs
  · exact h.setTask ht _
  · exact h

theorem step (h : Account cap l s) (hcap : cap < BTreeMap.usize) {o : Op T}
    (hout : s.Outside cap o) (hfollow : s.Follows cap o) :
    ∃ l', Account cap l' (o.apply cap s) := by
  cases o with
  | addTask task => exact h.addTask hcap hout hfollow
  | pickNextTask => exact ⟨_, h.pickNextTask hcap hfollow⟩
  | putPrevTask prev => exact h.putPrevTask hcap hout hfollow
  | taskTick current => exact ⟨_, h.taskTick hout⟩
  | setPriority current prio => exact ⟨_, h.setPriority hout prio⟩

/-- A tick answers whether some queued task is behind the current one. -/
theorem tick_answer (h : Account cap l s) (ht : t ∉ s.queue cap) :
    (s.taskTick t).2 = true ↔
      ∃ u ∈ s.queue cap, (s.taskTick t).1.vruntime u < (s.taskTick t).1.vruntime t := by
  have hset := h.setTask ht (s.tasks t).taskTick
  have hqueue : (s.setTask t (s.tasks t).taskTick).queue cap = s.queue cap := rfl
  have hempty := hset.rests.isEmpty
  unfold CFS.taskTick
  dsimp only
  rw [hempty]
  cases l with
  | nil =>
      rw [h.queue_eq_nil.mpr rfl]
      simp
  | cons p l =>
      obtain ⟨hmem, hmin, hle⟩ := hset.least (p := p) rfl
      rw [hqueue] at hmem hle
      rw [if_neg (by simp), hmin]
      simp only [decide_eq_true_eq]
      constructor
      · intro hlt
        exact ⟨p.2, hmem, hlt⟩
      · rintro ⟨u, hu, hlt⟩
        exact lt_of_le_of_lt (hle u hu) hlt

end Account

/-- Every state of such a run has an account. -/
theorem account_run (hcap : cap < BTreeMap.usize) {h : List (Op T)}
    (hrun : (machine T cap).RunOf (fun _ s o => s.Outside cap o ∧ s.Follows cap o) h s) :
    ∃ l, Account cap l s := by
  refine hrun.invariant (I := fun _ s => ∃ l, Account cap l s) ?_ ?_
  · rintro s ⟨tasks, rfl⟩
    exact ⟨[], BTreeMap.Rests.new, fun p hp => (List.not_mem_nil hp).elim,
      fun p hp => (Option.some_ne_none p hp.symm).elim⟩
  · rintro h s o s' - ⟨l, hacc⟩ ⟨hout, hfollow⟩ rfl
    exact hacc.step hcap hout hfollow

/-- Along every run whose calls leave the cached vruntime right it is the least one
queued; a new task then starts there, and a tick asks for a reschedule exactly if
a queued task is behind the current one. -/
theorem min_tracked (hcap : cap < BTreeMap.usize) {h : List (Op T)}
    (hrun : (machine T cap).RunOf (fun _ s o => s.Outside cap o ∧ s.Follows cap o) h s) :
    s.Tracks cap ∧
      (∀ t, t ∉ s.queue cap → s.queue cap ≠ [] → s.Follows cap (.addTask t) →
        ∃ u ∈ s.queue cap, (s.addTask cap t).vruntime t = s.vruntime u ∧
          ∀ w ∈ s.queue cap, s.vruntime u ≤ s.vruntime w) ∧
      ∀ t, t ∉ s.queue cap → ((s.taskTick t).2 = true ↔
        ∃ u ∈ s.queue cap, (s.taskTick t).1.vruntime u < (s.taskTick t).1.vruntime t) := by
  obtain ⟨l, hacc⟩ := account_run hcap hrun
  refine ⟨hacc.tracks, ?_, fun t ht => hacc.tick_answer ht⟩
  intro t _ hne hfresh
  obtain ⟨u, hu, hmin, hle⟩ := hacc.tracks hne
  refine ⟨u, hu, ?_, hle⟩
  have hstart : s.startVruntime = s.vruntime u := by rw [startVruntime, hmin]; rfl
  calc (s.addTask cap t).vruntime t
      = ((s.tasks t).setVruntime s.startVruntime).getVruntime := by
        simp only [vruntime, CFS.addTask, CFS.insert, CFS.setTask, Function.update_self]
        rfl
    _ = s.startVruntime := hfresh
    _ = s.vruntime u := hstart

/-- Two new tasks, one of them picked: a tick then puts it behind the other one. -/
theorem min_tracked_two : ∃ s : CFS ℕ, s.Tracks 4 ∧ s.queue 4 = [8] ∧
    (s.taskTick 7).2 = true := by
  let s₀ : CFS ℕ := new fun _ => CFSTask.new
  let s₁ := s₀.addTask 4 7
  let s₂ := s₁.addTask 4 8
  let s₃ := (s₂.pickNextTask 4).1
  have hrun : (machine ℕ 4).RunOf (fun _ s o => s.Outside 4 o ∧ s.Follows 4 o)
      [.pickNextTask, .addTask 8, .addTask 7] s₃ := by
    refine .next (.next (.next (.start ⟨_, rfl⟩) ⟨?_, ?_⟩ rfl) ⟨?_, ?_⟩ rfl) ⟨trivial, ?_⟩ rfl
    · change 7 ∉ s₀.queue 4
      decide
    · change ((s₀.tasks 7).setVruntime s₀.startVruntime).getVruntime = s₀.startVruntime
      decide
    · change 8 ∉ s₁.queue 4
      decide
    · change ((s₁.tasks 8).setVruntime s₁.startVruntime).getVruntime = s₁.startVruntime
      decide
    · exact .inr (show 2 ≤ (s₂.queue 4).countP _ by decide)
  obtain ⟨htracks, -, htick⟩ := min_tracked (by norm_num [BTreeMap.usize]) hrun
  refine ⟨s₃, htracks, by decide, (htick 7 (by decide)).mpr ⟨8, by decide, by decide⟩⟩

/-- A task that has run for a tick is put back behind a cached vruntime that no
queued task has any more. -/
theorem min_stale : ∃ (h : List (Op ℕ)) (s : CFS ℕ),
    (machine ℕ 4).RunOf (fun _ s o => s.Outside 4 o ∧ (s.queue 4).length < 4) h s ∧
    s.queue 4 = [7] ∧ s.vruntime 7 = 1 ∧ s.minVruntime = some 0 ∧ ¬ s.Tracks 4 := by
  let s₀ : CFS ℕ := new fun _ => CFSTask.new
  let s₁ := s₀.addTask 4 7
  let s₂ := (s₁.pickNextTask 4).1
  let s₃ := (s₂.taskTick 7).1
  let s₄ := s₃.putPrevTask 4 7
  have hqueue : s₄.queue 4 = [7] := by decide
  have hvr : s₄.vruntime 7 = 1 := by decide
  have hmin : s₄.minVruntime = some 0 := by decide
  let G : List (Op ℕ) → CFS ℕ → Op ℕ → Prop :=
    fun _ s o => s.Outside 4 o ∧ (s.queue 4).length < 4
  have hrun₁ : (machine ℕ 4).RunOf G [.addTask 7] s₁ :=
    .next (.start ⟨_, rfl⟩) ⟨show 7 ∉ s₀.queue 4 by decide,
      show (s₀.queue 4).length < 4 by decide⟩ rfl
  have hrun₂ : (machine ℕ 4).RunOf G [.pickNextTask, .addTask 7] s₂ :=
    hrun₁.next ⟨trivial, show (s₁.queue 4).length < 4 by decide⟩ rfl
  have hrun₃ : (machine ℕ 4).RunOf G [.taskTick 7, .pickNextTask, .addTask 7] s₃ :=
    hrun₂.next ⟨show 7 ∉ s₂.queue 4 by decide, show (s₂.queue 4).length < 4 by decide⟩ rfl
  refine ⟨[.putPrevTask 7, .taskTick 7, .pickNextTask, .addTask 7], s₄, ?_, hqueue, hvr, hmin,
    ?_⟩
  · exact hrun₃.next ⟨show 7 ∉ s₃.queue 4 by decide,
      show (s₃.queue 4).length < 4 by decide⟩ rfl
  · intro htracks
    obtain ⟨t, ht, heq, -⟩ := htracks (by rw [hqueue]; decide)
    rw [hqueue, List.mem_singleton] at ht
    rw [ht, hvr, hmin] at heq
    cases heq

end CFS

end Sched
