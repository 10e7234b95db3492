import Vsched.Sched.Cpu
import Vsched.Sched.Order
import Vsched.Sched.Priority

/-!
# A fixed set of tasks stays together

The fair scheduler picks a task of least vruntime, and a tick that leaves it so may be
followed by another one; the first tick that takes it past the cached minimum is its
last. As no vruntime is below the minimum cached when the tasks were added, which is zero,
a tick only ever adds to a least vruntime, and it adds at most 69.
-/

namespace Sched

namespace CFSTask

/-- A tick adds at most one unit of the least weight. -/
theorem charge_tick {t : CFSTask} (h : t.Valid) :
    t.charge ≤ (t.later 1).charge ∧ (t.later 1).charge ≤ t.charge + 69 := by
  have hweight := getWeight_bounds h
  constructor
  · have hle := charge_later h (Nat.zero_le 1)
    rwa [later_zero] at hle
  · have hticks : (t.later 1).charge =
        t.initVruntime + (t.delta * 1024 + 1024) / t.getWeight := by
      change t.initVruntime + (t.delta + (1 : ℕ)) * 1024 / t.getWeight = _
      congr 2
      ring
    have hle : (t.delta * 1024 + 1024) / t.getWeight ≤
        (t.delta * 1024 + 69 * t.getWeight) / t.getWeight :=
      Int.ediv_le_ediv (by omega) (by omega)
    rw [Int.add_mul_ediv_right _ _ (by omega)] at hle
    rw [hticks, charge]
    omega

end CFSTask

namespace CFS

variable {T : Type*} [DecidableEq T] {cap : ℕ} {ts : Finset T} {c c' : Cpu (CFS T) T}
  {h : List (Cpu.Act T)} {t u : T}

/-- The tasks are new, all added before the first pick, and never leave; the current one is
not ticked any more once a tick has asked for a reschedule. Nothing overflows. -/
def FixedSet (ts : Finset T) (h : List (Cpu.Act T)) (c : Cpu (CFS T) T) : Cpu.Act T → Prop
  | .addTask task => task ∈ ts ∧ .addTask task ∉ h ∧ (∀ p, .pickNextTask p ∉ h) ∧
      c.scheduler.idPool + 1 < 2 ^ 63
  | .pickNextTask _ => ∀ t ∈ ts, .addTask t ∈ h
  | .putPrevTask _ _ => c.scheduler.idPool + 1 < 2 ^ 63
  | .taskTick current => c.due = false ∧ ((c.scheduler.tasks current).later 1).Fits
  | .setPriority _ _ => True
  | .leave _ => False
  | .wake _ _ => False

/-- The tasks that have been added are queued or current, in a map that is in order. -/
structure Kept (cap : ℕ) (ts : Finset T) (h : List (Cpu.Act T)) (c : Cpu (CFS T) T) : Prop where
  ordered : ∃ l n a, Ordered cap l n a c.scheduler ∧ n < 2 ^ 63
  queued : ∀ t, t ∈ c.scheduler.queue cap ↔ .addTask t ∈ h ∧ c.current ≠ some t
  known : ∀ t, .addTask t ∈ h → t ∈ ts
  picked : ∀ t, c.current = some t →
    (∃ p, .pickNextTask p ∈ h) ∧ .addTask t ∈ h ∧ ∀ u ∈ ts, .addTask u ∈ h

/-- No two tasks are further apart than a tick takes one that is least. -/
structure Level (ts : Finset T) (h : List (Cpu.Act T)) (c : Cpu (CFS T) T) : Prop where
  fresh : ∀ t ∈ ts, .addTask t ∉ h → c.scheduler.tasks t = CFSTask.new
  start : c.scheduler.startVruntime = 0
  account : ∀ t ∈ ts, (c.scheduler.tasks t).Valid ∧ (c.scheduler.tasks t).Fits ∧
    0 ≤ (c.scheduler.tasks t).initVruntime
  zero : (∀ p, .pickNextTask p ∉ h) → ∀ t ∈ ts, c.scheduler.vruntime t = 0
  spread : ∀ t ∈ ts, ∀ u ∈ ts, c.scheduler.vruntime t ≤ c.scheduler.vruntime u + 69
  least : ∀ t, c.current = some t → c.due = false → ∀ u ∈ ts,
    c.scheduler.vruntime t ≤ c.scheduler.vruntime u

namespace Kept

/-- There is room for a task that is not queued. -/
theorem room (hk : Kept cap ts h c) (hcard : ts.card ≤ cap) (ht : t ∈ ts)
    (hout : t ∉ c.scheduler.queue cap) : (c.scheduler.queue cap).length < cap := by
  obtain ⟨l, n, a, hord, -⟩ := hk.ordered
  have hsub : (c.scheduler.queue cap).toFinset ⊆ ts.erase t := by
    intro u hu
    rw [List.mem_toFinset] at hu
    refine Finset.mem_erase.mpr ⟨?_, hk.known u ((hk.queued u).mp hu).1⟩
    rintro rfl
    exact hout hu
  have hlt : (ts.erase t).card < ts.card := Finset.card_erase_lt_of_mem ht
  have hle := Finset.card_le_card hsub
  rw [List.toFinset_card_of_nodup hord.queue_nodup] at hle
  omega

omit [DecidableEq T] in
theorem current_out (hk : Kept cap ts h c) (hcur : c.current = some t) :
    t ∉ c.scheduler.queue cap :=
  fun hmem => ((hk.queued t).mp hmem).2 hcur

omit [DecidableEq T] in
theorem current_mem (hk : Kept cap ts h c) (hcur : c.current = some t) : t ∈ ts :=
  hk.known t (hk.picked t hcur).2.1

theorem addTask (hk : Kept cap ts h c) (hcap : cap < BTreeMap.usize) (hcard : ts.card ≤ cap)
    (ht : t ∈ ts) (hnew : .addTask t ∉ h) (htask : c.scheduler.tasks t = CFSTask.new)
    (hids : c.scheduler.idPool + 1 < 2 ^ 63) :
    Kept cap ts (.addTask t :: h) { c with scheduler := c.scheduler.addTask cap t } := by
  obtain ⟨l, n, a, hord, hn⟩ := hk.ordered
  have hout : t ∉ c.scheduler.queue cap := fun hmem => hnew ((hk.queued t).mp hmem).1
  have hlap : ∀ u ∈ c.scheduler.queue cap, lap (a u) = lap n := by
    intro u hu
    obtain ⟨p, hp, rfl⟩ := hord.mem_queue.mp hu
    rw [lap_small ((hord.early p hp).trans hn), lap_small hn]
  have hord' := hord.addTask hcap hout (hk.room hcard ht hout) hlap htask
  have hperm := OrderedMap.put_absent (v := t)
    (hord.find_none (v := c.scheduler.startVruntime) hlap)
  have hqueue : ((c.scheduler.addTask cap t).queue cap).Perm (t :: c.scheduler.queue cap) :=
    hord'.queue_perm.trans ((hperm.map Prod.snd).trans (hord.queue_perm.symm.cons t))
  have hpool := hord.pool
  rw [wrap_small hn] at hpool
  refine ⟨⟨_, _, _, hord', by omega⟩, ?_, ?_, ?_⟩
  · intro u
    dsimp only
    rw [hqueue.mem_iff, List.mem_cons, List.mem_cons, hk.queued u, Cpu.Act.addTask.injEq]
    constructor
    · rintro (rfl | ⟨hu, hcur⟩)
      · exact ⟨.inl rfl, fun hcur => hnew (hk.picked _ hcur).2.1⟩
      · exact ⟨.inr hu, hcur⟩
    · rintro ⟨rfl | hu, hcur⟩
      · exact .inl rfl
      · exact .inr ⟨hu, hcur⟩
  · intro u hu
    rcases List.mem_cons.mp hu with heq | hu
    · cases heq
      exact ht
    · exact hk.known u hu
  · intro u hu
    obtain ⟨⟨p, hp⟩, hadd, hall⟩ := hk.picked u hu
    exact ⟨⟨p, List.mem_cons_of_mem _ hp⟩, List.mem_cons_of_mem _ hadd,
      fun w hw => List.mem_cons_of_mem _ (hall w hw)⟩

omit [DecidableEq T] in
theorem pickNextTask (hk : Kept cap ts h c) (hcap : cap < BTreeMap.usize)
    (hall : ∀ t ∈ ts, .addTask t ∈ h) (hnone : c.current = none) {picked : Option T}
    (hpick : (c.scheduler.pickNextTask cap).2 = picked) :
    Kept cap ts (.pickNextTask picked :: h)
      ⟨(c.scheduler.pickNextTask cap).1, picked, false⟩ := by
  obtain ⟨l, n, a, hord, hn⟩ := hk.ordered
  obtain ⟨hfirst, hord'⟩ := hord.pickNextTask hcap
  have hmem : ∀ u, .addTask u ∈ Cpu.Act.pickNextTask picked :: h ↔ .addTask u ∈ h := by
    intro u
    rw [List.mem_cons, or_iff_right (by simp)]
  have hadded : ∀ p ∈ l, .addTask p.2 ∈ h :=
    fun p hp => ((hk.queued p.2).mp (hord.mem_queue.mpr ⟨p, hp, rfl⟩)).1
  refine ⟨⟨_, n, a, hord', hn⟩, ?_, ?_, ?_⟩
  · intro u
    dsimp only
    rw [hord'.mem_queue, hmem]
    have hu := hk.queued u
    rw [hord.mem_queue, hnone] at hu
    have hnodup := hord.nodup
    cases l with
    | nil =>
        obtain rfl : picked = none := hpick.symm.trans hfirst
        exact hu
    | cons p l =>
        obtain rfl : picked = some p.2 := hpick.symm.trans hfirst
        rw [List.map_cons, List.nodup_cons] at hnodup
        rw [List.tail_cons]
        constructor
        · rintro ⟨q, hq, rfl⟩
          refine ⟨hadded q (List.mem_cons_of_mem _ hq), ?_⟩
          intro heq
          exact hnodup.1 (List.mem_map.mpr ⟨q, hq, (Option.some.inj heq).symm⟩)
        · rintro ⟨hadd, hne⟩
          obtain ⟨q, hq, rfl⟩ := hu.mpr ⟨hadd, fun heq => by cases heq⟩
          rcases List.mem_cons.mp hq with rfl | hq
          · exact absurd rfl hne
          · exact ⟨q, hq, rfl⟩
  · exact fun u hu => hk.known u ((hmem u).mp hu)
  · intro u hu
    refine ⟨⟨picked, List.mem_cons_self⟩, (hmem u).mpr ?_, fun w hw => (hmem w).mpr (hall w hw)⟩
    obtain ⟨p, hp, rfl⟩ := Option.map_eq_some_iff.mp (hfirst.symm.trans (hpick.trans hu))
    exact hadded p (List.mem_of_mem_head? hp)

theorem putPrevTask (hk : Kept cap ts h c) (hcap : cap < BTreeMap.usize) (hcard : ts.card ≤ cap)
    (hcur : c.current = some t) (hids : c.scheduler.idPool + 1 < 2 ^ 63) {preempt : Bool} :
    Kept cap ts (.putPrevTask t preempt :: h) ⟨c.scheduler.putPrevTask cap t, none, false⟩ := by
  obtain ⟨l, n, a, hord, hn⟩ := hk.ordered
  have hout := hk.current_out hcur
  have hlap : ∀ u ∈ c.scheduler.queue cap, lap (a u) = lap n := by
    intro u hu
    obtain ⟨p, hp, rfl⟩ := hord.mem_queue.mp hu
    rw [lap_small ((hord.early p hp).trans hn), lap_small hn]
  have hord' := hord.putPrevTask hcap hout (hk.room hcard (hk.current_mem hcur) hout) hlap
  have hperm := OrderedMap.put_absent (v := t)
    (hord.find_none (v := c.scheduler.vruntime t) hlap)
  have hqueue : ((c.scheduler.putPrevTask cap t).queue cap).Perm (t :: c.scheduler.queue cap) :=
    hord'.queue_perm.trans ((hperm.map Prod.snd).trans (hord.queue_perm.symm.cons t))
  have hpool := hord.pool
  rw [wrap_small hn] at hpool
  have hmem : ∀ u, .addTask u ∈ Cpu.Act.putPrevTask t preempt :: h ↔ .addTask u ∈ h := by
    intro u
    rw [List.mem_cons, or_iff_right (by simp)]
  refine ⟨⟨_, _, _, hord', by omega⟩, ?_, fun u hu => hk.known u ((hmem u).mp hu),
    fun u hu => by cases hu⟩
  intro u
  dsimp only
  rw [hqueue.mem_iff, List.mem_cons, hmem, hk.queued u, hcur]
  constructor
  · rintro (rfl | ⟨hu, -⟩)
    · exact ⟨(hk.picked _ hcur).2.1, fun hu => by cases hu⟩
    · exact ⟨hu, fun hu => by cases hu⟩
  · rintro ⟨hu, -⟩
    by_cases hut : u = t
    · exact .inl hut
    · exact .inr ⟨hu, fun heq => hut (Option.some.inj heq).symm⟩

omit [DecidableEq T] in
/-- Changing the account of the current task. -/
theorem same (hk : Kept cap ts h c) {s : CFS T} {due : Bool} {o : Cpu.Act T}
    (hord : ∀ l n a, Ordered cap l n a c.scheduler → Ordered cap l n a s)
    (hadd : ∀ u, o ≠ .addTask u) : Kept cap ts (o :: h) ⟨s, c.current, due⟩ := by
  obtain ⟨l, n, a, hl, hn⟩ := hk.ordered
  have hmem : ∀ u, .addTask u ∈ o :: h ↔ .addTask u ∈ h := by
    intro u
    rw [List.mem_cons, or_iff_right fun heq => hadd u heq.symm]
  refine ⟨⟨l, n, a, hord l n a hl, hn⟩, ?_, fun u hu => hk.known u ((hmem u).mp hu), ?_⟩
  · intro u
    dsimp only
    rw [(hord l n a hl).mem_queue, ← hl.mem_queue, hmem]
    exact hk.queued u
  · intro u hu
    obtain ⟨⟨p, hp⟩, hu, hall⟩ := hk.picked u hu
    exact ⟨⟨p, List.mem_cons_of_mem _ hp⟩, (hmem u).mpr hu, fun w hw => (hmem w).mpr (hall w hw)⟩

end Kept

namespace Level

omit [DecidableEq T] in
theorem vruntime_eq (hl : Level ts h c) (ht : t ∈ ts) :
    c.scheduler.vruntime t = (c.scheduler.tasks t).charge := by
  obtain ⟨hvalid, hfits, -⟩ := hl.account t ht
  exact CFSTask.getVruntime_eq hvalid hfits

omit [DecidableEq T] in
theorem vruntime_nonneg (hl : Level ts h c) (ht : t ∈ ts) : 0 ≤ c.scheduler.vruntime t := by
  obtain ⟨hvalid, -, hinit⟩ := hl.account t ht
  have hweight := CFSTask.getWeight_bounds hvalid
  have hdelta := hvalid.delta
  have hpart : 0 ≤ (c.scheduler.tasks t).delta * 1024 / (c.scheduler.tasks t).getWeight :=
    Int.ediv_nonneg (by omega) (by omega)
  rw [hl.vruntime_eq ht, CFSTask.charge]
  omega

omit [DecidableEq T] in
/-- An action after which every task has the vruntime it had. -/
theorem keep (hl : Level ts h c) {o : Cpu.Act T}
    (hvr : ∀ u ∈ ts, c'.scheduler.vruntime u = c.scheduler.vruntime u)
    (hfresh : ∀ u ∈ ts, .addTask u ∉ o :: h → c'.scheduler.tasks u = CFSTask.new)
    (hstart : c'.scheduler.startVruntime = 0)
    (haccount : ∀ u ∈ ts, (c'.scheduler.tasks u).Valid ∧ (c'.scheduler.tasks u).Fits ∧
      0 ≤ (c'.scheduler.tasks u).initVruntime)
    (hcur : ∀ u, c'.current = some u → c'.due = false →
      u ∈ ts ∧ ∀ w ∈ ts, c.scheduler.vruntime u ≤ c.scheduler.vruntime w) :
    Level ts (o :: h) c' where
  fresh := hfresh
  start := hstart
  account := haccount
  zero := by
    intro hno u hu
    rw [hvr u hu]
    exact hl.zero (fun p hp => hno p (List.mem_cons_of_mem _ hp)) u hu
  spread := by
    intro u hu w hw
    rw [hvr u hu, hvr w hw]
    exact hl.spread u hu w hw
  least := by
    intro u hu hdue w hw
    obtain ⟨hmem, hle⟩ := hcur u hu hdue
    rw [hvr u hmem, hvr w hw]
    exact hle w hw

theorem addTask (hl : Level ts h c) (hk : Kept cap ts h c)
    (hk' : Kept cap ts (.addTask t :: h) { c with scheduler := c.scheduler.addTask cap t })
    (ht : t ∈ ts) (hnew : .addTask t ∉ h) (hfirst : ∀ p, .pickNextTask p ∉ h) :
    Level ts (.addTask t :: h) { c with scheduler := c.scheduler.addTask cap t } := by
  obtain ⟨l, n, a, hord, -⟩ := hk.ordered
  have htask := hl.fresh t ht hnew
  have hself : (c.scheduler.addTask cap t).tasks t =
      (CFSTask.new.setVruntime c.scheduler.startVruntime).setId c.scheduler.idPool := by
    simp only [CFS.addTask, CFS.insert, CFS.setTask, Function.update_self, htask]
    rfl
  have hother : ∀ u, u ≠ t → (c.scheduler.addTask cap t).tasks u = c.scheduler.tasks u := by
    intro u hu
    simp only [CFS.addTask, CFS.insert, CFS.setTask, Function.update_of_ne hu]
  have hvr : ∀ u ∈ ts, (c.scheduler.addTask cap t).vruntime u = c.scheduler.vruntime u := by
    intro u hu
    by_cases hut : u = t
    · subst hut
      rw [hord.vruntime_new htask, hl.start, hl.zero hfirst u hu]
    · rw [CFS.vruntime, hother u hut]
      rfl
  refine hl.keep hvr ?_ ?_ ?_ ?_
  · intro u hu hno
    rw [List.mem_cons, not_or] at hno
    have hut : u ≠ t := fun heq => hno.1 (by rw [heq])
    rw [hother u hut]
    exact hl.fresh u hu hno.2
  · -- the new minimum is the vruntime of a queued task
    obtain ⟨l', n', a', hord', -⟩ := hk'.ordered
    have hhead : (c.scheduler.addTask cap t).readyQueue.firstKeyValue cap = l'.head? :=
      hord'.rests.firstKeyValue
    change (((c.scheduler.addTask cap t).readyQueue.firstKeyValue cap).map
      fun p => p.1.vruntime).getD 0 = 0
    rw [hhead]
    cases hp : l'.head? with
    | none => rfl
    | some p =>
        have hmem := List.mem_of_mem_head? hp
        have hqueued := hord'.mem_queue.mpr ⟨p, hmem, rfl⟩
        have hts := hk'.known p.2 ((hk'.queued p.2).mp hqueued).1
        rw [Option.map_some, Option.getD_some, hord'.keys p hmem]
        exact (hvr p.2 hts).trans (hl.zero hfirst p.2 hts)
  · intro u hu
    by_cases hut : u = t
    · subst hut
      dsimp only
      rw [hself, hl.start]
      exact ⟨CFSTask.Valid.new.setId _, CFSTask.Fits.new.setId _, le_refl _⟩
    · dsimp only
      rw [hother u hut]
      exact hl.account u hu
  · intro u hu hdue
    exact ⟨hk.known u (hk.picked u hu).2.1, hl.least u hu hdue⟩

omit [DecidableEq T] in
theorem pickNextTask (hl : Level ts h c) (hk : Kept cap ts h c) (hcap : cap < BTreeMap.usize)
    (hall : ∀ t ∈ ts, .addTask t ∈ h) (hnone : c.current = none) {picked : Option T}
    (hpick : (c.scheduler.pickNextTask cap).2 = picked) :
    Level ts (.pickNextTask picked :: h) ⟨(c.scheduler.pickNextTask cap).1, picked, false⟩ := by
  obtain ⟨l, n, a, hord, -⟩ := hk.ordered
  have hfirst := (hord.pickNextTask hcap).1
  refine hl.keep (fun u _ => rfl) ?_ hl.start hl.account ?_
  · exact fun u hu hno => absurd (List.mem_cons_of_mem _ (hall u hu)) hno
  · intro u hu _
    obtain ⟨p, hp, rfl⟩ := Option.map_eq_some_iff.mp (hfirst.symm.trans (hpick.trans hu))
    have hqueued := hord.mem_queue.mpr ⟨p, List.mem_of_mem_head? hp, rfl⟩
    refine ⟨hk.known _ ((hk.queued _).mp hqueued).1, ?_⟩
    intro w hw
    obtain ⟨q, hq, rfl⟩ := hord.mem_queue.mp
      ((hk.queued w).mpr ⟨hall w hw, by rw [hnone]; exact fun heq => by cases heq⟩)
    by_cases hqp : q.2 = p.2
    · rw [hqp]
    · rcases hord.head_first hp hq hqp with hlt | ⟨heq, -⟩
      · exact hlt.le
      · exact heq.le

theorem putPrevTask (hl : Level ts h c) (hk : Kept cap ts h c) (hcur : c.current = some t)
    {preempt : Bool} :
    Level ts (.putPrevTask t preempt :: h) ⟨c.scheduler.putPrevTask cap t, none, false⟩ := by
  have hself : (c.scheduler.putPrevTask cap t).tasks t =
      (c.scheduler.tasks t).setId c.scheduler.idPool := by
    simp only [CFS.putPrevTask, CFS.insert, CFS.setTask, Function.update_self]
  have hother : ∀ u, u ≠ t → (c.scheduler.putPrevTask cap t).tasks u = c.scheduler.tasks u := by
    intro u hu
    simp only [CFS.putPrevTask, CFS.insert, CFS.setTask, Function.update_of_ne hu]
  refine hl.keep ?_ ?_ hl.start ?_ (fun u hu => by cases hu)
  · intro u _
    by_cases hut : u = t
    · subst hut
      change ((c.scheduler.putPrevTask cap u).tasks u).getVruntime = _
      rw [hself]
      rfl
    · change ((c.scheduler.putPrevTask cap t).tasks u).getVruntime = _
      rw [hother u hut]
      rfl
  · intro u hu hno
    exact absurd (List.mem_cons_of_mem _ ((hk.picked t hcur).2.2 u hu)) hno
  · intro u hu
    by_cases hut : u = t
    · subst hut
      dsimp only
      rw [hself]
      obtain ⟨hvalid, hfits, hinit⟩ := hl.account u hu
      exact ⟨hvalid.setId _, hfits.setId _, hinit⟩
    · dsimp only
      rw [hother u hut]
      exact hl.account u hu

theorem setPriority (hl : Level ts h c) (hk : Kept cap ts h c) (hcur : c.current = some t)
    (prio : ℤ) : Level ts (.setPriority t prio :: h)
      { c with scheduler := (c.scheduler.setPriority t prio).1 } := by
  have ht := hk.current_mem hcur
  have hall := (hk.picked t hcur).2.2
  have hleast : ∀ u, c.current = some u → c.due = false →
      u ∈ ts ∧ ∀ w ∈ ts, c.scheduler.vruntime u ≤ c.scheduler.vruntime w :=
    fun u hu hdue => ⟨hk.current_mem hu, hl.least u hu hdue⟩
  unfold CFS.setPriority
  split_ifs with hrange
  · have hvr := hl.vruntime_eq ht
    have hnonneg := hl.vruntime_nonneg ht
    obtain ⟨hvalid, hfits, -⟩ := hl.account t ht
    have hhigh := hfits.high
    rw [← hvr] at hhigh
    have hcharge : ((c.scheduler.tasks t).setPriority prio).charge = c.scheduler.vruntime t := by
      change c.scheduler.vruntime t + 0 * 1024 / _ = _
      rw [zero_mul, Int.zero_ediv, add_zero]
    have hvalid' : ((c.scheduler.tasks t).setPriority prio).Valid := ⟨le_refl _, hrange⟩
    have hfits' : ((c.scheduler.tasks t).setPriority prio).Fits :=
      ⟨by change -2 ^ 63 ≤ c.scheduler.vruntime t; omega, by change (0 : ℤ) < 2 ^ 63; norm_num,
        .inr (by change (0 : ℤ) * 1024 < 2 ^ 63; norm_num), by rw [hcharge]; exact hhigh⟩
    refine hl.keep ?_ ?_ hl.start ?_ hleast
    · intro u _
      by_cases hut : u = t
      · subst hut
        simp only [CFS.vruntime, CFS.setTask, Function.update_self]
        rw [CFSTask.getVruntime_eq hvalid' hfits', hcharge]
        rfl
      · simp only [CFS.vruntime, CFS.setTask, Function.update_of_ne hut]
    · exact fun u hu hno => absurd (List.mem_cons_of_mem _ (hall u hu)) hno
    · intro u hu
      by_cases hut : u = t
      · subst hut
        simp only [CFS.setTask, Function.update_self]
        exact ⟨hvalid', hfits', hnonneg⟩
      · simp only [CFS.setTask, Function.update_of_ne hut]
        exact hl.account u hu
  · exact hl.keep (fun u _ => rfl)
      (fun u hu hno => absurd (List.mem_cons_of_mem _ (hall u hu)) hno) hl.start hl.account hleast

/-- A tick of a task that is least, and what it says about that task afterwards. -/
theorem taskTick (hl : Level ts h c) (hk : Kept cap ts h c) (hcur : c.current = some t)
    (hdue : c.due = false) (hfits : ((c.scheduler.tasks t).later 1).Fits) :
    Level ts (.taskTick t :: h)
      ⟨(c.scheduler.taskTick t).1, some t, (c.scheduler.taskTick t).2⟩ := by
  obtain ⟨l, n, a, hord, -⟩ := hk.ordered
  have ht := hk.current_mem hcur
  obtain ⟨⟨p, hp⟩, -, hall⟩ := hk.picked t hcur
  obtain ⟨hvalid, -, hinit⟩ := hl.account t ht
  have htasks : (c.scheduler.taskTick t).1.tasks =
      Function.update c.scheduler.tasks t ((c.scheduler.tasks t).later 1) := by
    rw [taskTick_tasks, CFSTask.taskTick_eq hvalid hfits]
  have hmin : (c.scheduler.taskTick t).1.minVruntime = c.scheduler.minVruntime := by
    unfold CFS.taskTick
    dsimp only
    split_ifs
    · rfl
    · split <;> rfl
  obtain ⟨hmono, htick⟩ := CFSTask.charge_tick hvalid
  have hold : ∀ u, u ≠ t → (c.scheduler.taskTick t).1.vruntime u = c.scheduler.vruntime u := by
    intro u hu
    rw [CFS.vruntime, htasks, Function.update_of_ne hu]
    rfl
  have hnew : (c.scheduler.taskTick t).1.vruntime t = ((c.scheduler.tasks t).later 1).charge := by
    rw [CFS.vruntime, htasks, Function.update_self]
    exact CFSTask.getVruntime_eq (hvalid.later 1) hfits
  rw [← hl.vruntime_eq ht, ← hnew] at hmono htick
  have hleast := hl.least t hcur hdue
  refine ⟨?_, ?_, ?_, ?_, ?_, ?_⟩
  · exact fun u hu hno => absurd (List.mem_cons_of_mem _ (hall u hu)) hno
  · change (c.scheduler.taskTick t).1.minVruntime.getD 0 = 0
    rw [hmin]
    exact hl.start
  · intro u hu
    dsimp only
    rw [htasks]
    by_cases hut : u = t
    · subst hut
      rw [Function.update_self]
      exact ⟨hvalid.later 1, hfits, hinit⟩
    · rw [Function.update_of_ne hut]
      exact hl.account u hu
  · exact fun hno => absurd (List.mem_cons_of_mem _ hp) (hno p)
  · intro u hu w hw
    dsimp only
    have hspread := hl.spread u hu w hw
    by_cases hut : u = t
    · subst hut
      by_cases hwu : w = u
      · subst hwu
        omega
      · rw [hold w hwu]
        have := hleast w hw
        omega
    · by_cases hwt : w = t
      · subst hwt
        rw [hold u hut]
        omega
      · rw [hold u hut, hold w hwt]
        exact hspread
  · intro u hu hresched w hw
    obtain rfl : t = u := Option.some.inj hu
    by_cases hwt : w = t
    · rw [hwt]
    · -- another task is queued, so the task has not passed the cached minimum
      have hqueued := (hk.queued w).mpr
        ⟨hall w hw, by rw [hcur]; exact fun heq => hwt (Option.some.inj heq).symm⟩
      have hnil : l ≠ [] := by
        rintro rfl
        obtain ⟨q, hq, -⟩ := hord.mem_queue.mp hqueued
        cases hq
      have hzero : (c.scheduler.taskTick t).1.vruntime t ≤ 0 := by
        have hempty : (c.scheduler.setTask t (c.scheduler.tasks t).taskTick).readyQueue.isEmpty =
            false := by
          have hrests := hord.rests.isEmpty
          rw [List.isEmpty_eq_false_iff.mpr hnil] at hrests
          exact hrests
        have hstart := hl.start
        have htick' := hresched
        change (c.scheduler.taskTick t).2 = false at htick'
        rw [CFS.vruntime, taskTick_tasks, Function.update_self]
        unfold CFS.taskTick at htick'
        dsimp only at htick'
        rw [hempty, if_neg Bool.false_ne_true] at htick'
        cases hcached : c.scheduler.minVruntime with
        | none =>
            simp [CFS.setTask, hcached] at htick'
        | some m =>
            rw [CFS.startVruntime, hcached, Option.getD_some] at hstart
            subst hstart
            simpa [CFS.setTask, hcached] using htick'
      have hother := hl.vruntime_nonneg hw
      rw [hold w hwt]
      exact hzero.trans hother

end Level

/-- A fair scheduler without tasks, for a set of new ones. -/
def StartsNew (ts : Finset T) (s : CFS T) : Prop :=
  ∃ tasks : T → CFSTask, s = CFS.new tasks ∧ ∀ t ∈ ts, tasks t = CFSTask.new

omit [DecidableEq T] in
theorem kept_start {s : CFS T} (hs : StartsNew ts s) :
    Kept cap ts [] ⟨s, none, false⟩ ∧ Level ts [] ⟨s, none, false⟩ := by
  obtain ⟨tasks, rfl, hnew⟩ := hs
  have hord : Ordered cap [] 0 _ (CFS.new tasks) := Ordered.new tasks fun _ => 0
  have hqueue : (CFS.new tasks).queue cap = [] := List.perm_nil.mp hord.queue_perm
  have hvr : ∀ t ∈ ts, (CFS.new tasks).vruntime t = 0 := by
    intro t ht
    change (tasks t).getVruntime = 0
    rw [hnew t ht]
    rfl
  refine ⟨⟨⟨[], 0, _, hord, by norm_num⟩, ?_, fun t ht => (List.not_mem_nil ht).elim,
      fun t ht => (Option.some_ne_none t ht.symm).elim⟩,
    ⟨fun t ht _ => hnew t ht, rfl, ?_, fun _ => hvr, ?_,
      fun t ht => (Option.some_ne_none t ht.symm).elim⟩⟩
  · intro t
    dsimp only
    rw [hqueue]
    exact iff_of_false List.not_mem_nil fun hadd => List.not_mem_nil hadd.1
  · intro t ht
    change (tasks t).Valid ∧ (tasks t).Fits ∧ 0 ≤ (tasks t).initVruntime
    rw [hnew t ht]
    exact ⟨CFSTask.Valid.new, CFSTask.Fits.new, le_refl _⟩
  · intro t ht u hu
    rw [hvr t ht, hvr u hu]
    norm_num

theorem kept_step (hk : Kept cap ts h c) (hl : Level ts h c) (hcap : cap < BTreeMap.usize)
    (hcard : ts.card ≤ cap) {a : Cpu.Act T} (hguard : FixedSet ts h c a)
    (hstep : a.apply (cfs cap) c = some c') : Kept cap ts (a :: h) c' ∧ Level ts (a :: h) c' := by
  cases a with
  | addTask t =>
      obtain ⟨ht, hnew, hfirst, hids⟩ := hguard
      obtain ⟨s, hadd, rfl⟩ := Cpu.addTask_eq hstep
      cases hadd
      have hk' := hk.addTask hcap hcard ht hnew (hl.fresh t ht hnew) hids
      exact ⟨hk', hl.addTask hk hk' ht hnew hfirst⟩
  | pickNextTask picked =>
      obtain ⟨hnone, s, hpick, rfl⟩ := Cpu.pickNextTask_eq hstep
      have hpair : c.scheduler.pickNextTask cap = (s, picked) := Option.some.inj hpick
      obtain rfl : (c.scheduler.pickNextTask cap).1 = s := congrArg Prod.fst hpair
      have hpick : (c.scheduler.pickNextTask cap).2 = picked := congrArg Prod.snd hpair
      exact ⟨hk.pickNextTask hcap hguard hnone hpick, hl.pickNextTask hk hcap hguard hnone hpick⟩
  | putPrevTask t preempt =>
      obtain ⟨hcur, s, hput, rfl⟩ := Cpu.putPrevTask_eq hstep
      cases hput
      exact ⟨hk.putPrevTask hcap hcard hcur hguard, hl.putPrevTask hk hcur⟩
  | taskTick t =>
      obtain ⟨hdue, hfits⟩ := hguard
      obtain ⟨hcur, s, resched, htick, rfl⟩ := Cpu.taskTick_eq hstep
      obtain ⟨rfl, rfl⟩ := Prod.mk.inj (Option.some.inj htick)
      refine ⟨?_, hl.taskTick hk hcur hdue hfits⟩
      rw [← hcur]
      exact hk.same (fun l n a hord => hord.taskTick (hk.current_out hcur))
        fun u heq => by cases heq
  | setPriority t prio =>
      obtain ⟨hcur, s, done, hset, rfl⟩ := Cpu.setPriority_eq hstep
      obtain ⟨rfl, rfl⟩ := Prod.mk.inj (Option.some.inj hset)
      refine ⟨?_, hl.setPriority hk hcur prio⟩
      exact hk.same (fun l n a hord => hord.setPriority (hk.current_out hcur) prio)
        fun u heq => by cases heq
  | leave t => exact hguard.elim
  | wake t preempt => exact hguard.elim

/-- The vruntimes of a fixed set of tasks are never further apart than one tick. -/
theorem vruntimes_close (hcap : cap < BTreeMap.usize) (hcard : ts.card ≤ cap)
    (hrun : (Cpu.machine (cfs cap) (StartsNew ts)).RunOf (FixedSet ts) h c) :
    ∀ t ∈ ts, ∀ u ∈ ts, |c.scheduler.vruntime t - c.scheduler.vruntime u| ≤ 69 := by
  have hinv : Kept cap ts h c ∧ Level ts h c := by
    refine hrun.invariant (I := fun h c => Kept cap ts h c ∧ Level ts h c) ?_ ?_
    · rintro ⟨s, current, due⟩ ⟨hs, rfl, rfl⟩
      exact kept_start hs
    · rintro h c a c' - ⟨hk, hl⟩ hguard hstep
      exact kept_step hk hl hcap hcard hguard hstep
  intro t ht u hu
  rw [abs_sub_le_iff]
  have htu := hinv.2.spread t ht u hu
  have hut := hinv.2.spread u hu t ht
  constructor <;> omega

theorem apply_pickNextTask (hnone : c.current = none) {picked : Option T}
    (hpick : (c.scheduler.pickNextTask cap).2 = picked) :
    (Cpu.Act.pickNextTask picked).apply (cfs cap) c =
      some ⟨(c.scheduler.pickNextTask cap).1, picked, false⟩ := by
  simp [Cpu.Act.apply, cfs, hnone, hpick]

/-- Two tasks of which one, at nice 19, gets a tick: 68 units. -/
theorem vruntimes_close_two : ∃ c : Cpu (CFS ℕ) ℕ,
    |c.scheduler.vruntime 7 - c.scheduler.vruntime 8| ≤ 69 ∧ c.scheduler.vruntime 7 = 68 ∧
      c.scheduler.vruntime 8 = 0 := by
  let c₀ : Cpu (CFS ℕ) ℕ := ⟨CFS.new fun _ => CFSTask.new, none, false⟩
  let c₁ : Cpu (CFS ℕ) ℕ := ⟨c₀.scheduler.addTask 2 7, none, false⟩
  let c₂ : Cpu (CFS ℕ) ℕ := ⟨c₁.scheduler.addTask 2 8, none, false⟩
  let c₃ : Cpu (CFS ℕ) ℕ := ⟨(c₂.scheduler.pickNextTask 2).1, some 7, false⟩
  let c₄ : Cpu (CFS ℕ) ℕ := ⟨(c₃.scheduler.setPriority 7 19).1, some 7, false⟩
  let c₅ : Cpu (CFS ℕ) ℕ := ⟨(c₄.scheduler.taskTick 7).1, some 7, (c₄.scheduler.taskTick 7).2⟩
  have hrun₀ : (Cpu.machine (cfs 2) (StartsNew {7, 8})).RunOf (FixedSet {7, 8}) [] c₀ :=
    .start ⟨⟨_, rfl, fun _ _ => rfl⟩, rfl, rfl⟩
  have hadd₁ : FixedSet {7, 8} [] c₀ (.addTask 7) :=
    ⟨by decide, by decide, fun p hp => List.not_mem_nil hp, by decide⟩
  have hadd₂ : FixedSet {7, 8} [.addTask 7] c₁ (.addTask 8) :=
    ⟨by decide, by decide, fun p hp => by simp at hp, by decide⟩
  have hpick : FixedSet {7, 8} [.addTask 8, .addTask 7] c₂ (.pickNextTask (some 7)) := by
    change ∀ t ∈ ({7, 8} : Finset ℕ), Cpu.Act.addTask t ∈ [.addTask 8, .addTask 7]
    decide
  have htick : FixedSet {7, 8} [.setPriority 7 19, .pickNextTask (some 7), .addTask 8, .addTask 7]
      c₄ (.taskTick 7) := by
    have htask : c₄.scheduler.tasks 7 = (CFSTask.new.setPriority 19) := by decide
    refine ⟨rfl, ?_⟩
    rw [htask]
    exact ⟨by decide, by decide, .inr (by decide), by decide⟩
  have hpicked : (Cpu.Act.pickNextTask (some 7)).apply (cfs 2) c₂ = some c₃ :=
    apply_pickNextTask rfl (by decide)
  have hrun₁ := hrun₀.next hadd₁ (show (Cpu.Act.addTask 7).apply (cfs 2) c₀ = some c₁ from rfl)
  have hrun₂ := hrun₁.next hadd₂ (show (Cpu.Act.addTask 8).apply (cfs 2) c₁ = some c₂ from rfl)
  have hrun₃ := hrun₂.next hpick hpicked
  have hset : FixedSet {7, 8} [.pickNextTask (some 7), .addTask 8, .addTask 7] c₃
      (.setPriority 7 19) := trivial
  have hrun₄ := hrun₃.next hset
    (show (Cpu.Act.setPriority 7 19).apply (cfs 2) c₃ = some c₄ from rfl)
  have hrun₅ := hrun₄.next htick (show (Cpu.Act.taskTick 7).apply (cfs 2) c₄ = some c₅ from rfl)
  have h₇ : c₅.scheduler.vruntime 7 = 68 := by decide
  have h₈ : c₅.scheduler.vruntime 8 = 0 := by decide
  have hclose := vruntimes_close (by norm_num [BTreeMap.usize]) (by decide) hrun₅
  clear_value c₅
  exact ⟨c₅, hclose 7 (by decide) 8 (by decide), h₇, h₈⟩

end CFS

end Sched
