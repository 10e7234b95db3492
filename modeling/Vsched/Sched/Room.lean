import Vsched.Sched.Loss

/-!
# Schedulers with room for all tasks

While a scheduler has room for `n` tasks and fewer are queued, it stores the task it is
handed. The id that the fair scheduler gives its next task must not be that of a queued
one: its counter comes round after `2 ^ 64` tasks. With or without room, its queue holds no
other tasks than those it has been handed.
-/

namespace Sched

variable {σ T : Type*}

/-- A scheduler that stores what it is handed while it has room, as long as `I` holds.
`fits s n` says that it has room for `n` tasks. -/
structure Keeper (B : BaseScheduler σ T) (queue : σ → List T) (I : σ → Prop)
    (fits : σ → ℕ → Prop) : Prop where
  handIn : ∀ s c t n, I s → c.task = some t → fits s n → (queue s).length < n →
    ∃ s', B.call s c = some (s', none) ∧ I s' ∧ (queue s').Perm (t :: queue s)
  pick : ∀ s, I s → ∃ s' picked, B.pickNextTask s = some (s', picked) ∧ I s' ∧
    (queue s).Perm (picked.toList ++ queue s')

namespace Keeper

variable {B : BaseScheduler σ T} {queue : σ → List T} {I : σ → Prop} {fits : σ → ℕ → Prop}
  {accepts stores : σ → Call T → Prop} {s : σ} {t : T} {n : ℕ}

theorem of_custody (hB : Custody B queue I accepts stores)
    (hfits : ∀ s c t n, c.task = some t → fits s n → (queue s).length < n → accepts s c) :
    Keeper B queue I fits where
  handIn := by
    intro s c t n hI hc hroom hlt
    obtain ⟨s', hcall, hI', hperm, -⟩ := hB.handIn s c t hI hc
    exact ⟨s', hcall, hI', hperm (hfits s c t n hc hroom hlt)⟩
  pick := by
    intro s hI
    obtain ⟨s', picked, hcall, hI', hperm⟩ := hB.pick s hI
    exact ⟨s', picked, hcall, hI', hperm⟩

theorem addTask (hB : Keeper B queue I fits) (hI : I s) (hfits : fits s n)
    (hlt : (queue s).length < n) :
    ∃ s', B.addTask s t = some s' ∧ I s' ∧ (queue s').Perm (t :: queue s) := by
  obtain ⟨s', hcall, hrest⟩ := hB.handIn s (.addTask t) t n hI rfl hfits hlt
  obtain ⟨u, hadd, hpair⟩ := Option.map_eq_some_iff.mp hcall
  obtain ⟨rfl, -⟩ := Prod.mk.inj hpair
  exact ⟨u, hadd, hrest⟩

theorem putPrevTask (hB : Keeper B queue I fits) (hI : I s) (hfits : fits s n)
    (hlt : (queue s).length < n) (preempt : Bool) :
    ∃ s', B.putPrevTask s t preempt = some s' ∧ I s' ∧ (queue s').Perm (t :: queue s) := by
  obtain ⟨s', hcall, hrest⟩ := hB.handIn s (.putPrevTask t preempt) t n hI rfl hfits hlt
  obtain ⟨u, hput, hpair⟩ := Option.map_eq_some_iff.mp hcall
  obtain ⟨rfl, -⟩ := Prod.mk.inj hpair
  exact ⟨u, hput, hrest⟩

end Keeper

variable {cap : ℕ}

theorem fifo_keeper : Keeper (fifo cap : BaseScheduler (Fifo T) T) Fifo.readyQueue
    (fun _ => True) (fun _ n => n ≤ cap) :=
  .of_custody (fifo_custody cap) fun _ _ _ _ _ hfits hlt => hlt.trans_le hfits

theorem rr_keeper [DecidableEq T] (slice : ℕ) :
    Keeper (rr slice cap : BaseScheduler (RR T) T) (RR.queue cap) (RR.Rests cap)
      (fun _ n => n ≤ cap - 1) :=
  .of_custody (rr_custody slice cap) fun _ _ _ _ _ hfits hlt => hlt.trans_le hfits

/-- No queued task has the id that the next task is given. -/
def CFS.IdFree (cap : ℕ) (s : CFS T) : Prop :=
  ∀ p ∈ s.readyQueue.pairs cap, (ofLex p.1).2 ≠ s.idPool

instance (s : CFS T) : Decidable (s.IdFree cap) :=
  inferInstanceAs (Decidable (∀ p ∈ s.readyQueue.pairs cap, _ ≠ _))

theorem CFS.IdFree.not_taken [DecidableEq T] {s : CFS T} (h : s.IdFree cap) {c : Call T} {t : T}
    (hc : c.task = some t) : ¬ s.Taken cap c := by
  rintro ⟨p, hp, hkey⟩
  refine h p hp ?_
  cases c with
  | addTask task => simp [hkey, CFS.givenKey, key]
  | putPrevTask task preempt => simp [hkey, CFS.givenKey, key]
  | pickNextTask => cases hc

theorem cfs_keeper [DecidableEq T] (hcap : cap < BTreeMap.usize) :
    Keeper (cfs cap : BaseScheduler (CFS T) T) (CFS.queue cap) (CFS.Rests cap)
      (fun s n => n ≤ cap ∧ s.IdFree cap) :=
  .of_custody (cfs_custody hcap) fun _ _ _ _ hc hfits hlt =>
    ⟨hlt.trans_le hfits.1, hfits.2.not_taken hc⟩

/-- A scheduler whose queue holds no other tasks than those handed in, as long as `I`
holds. The task of a hand-in is in the queue then if the scheduler stores it, or if it was
there before. -/
structure Store (B : BaseScheduler σ T) (queue : σ → List T) (I : σ → Prop)
    (stores : σ → Call T → Prop) : Prop where
  handIn : ∀ s c t, I s → c.task = some t → ∃ s', B.call s c = some (s', none) ∧ I s' ∧
    (queue s').Subperm (t :: queue s) ∧ (t ∈ queue s' ↔ t ∈ queue s ∨ stores s c)
  pick : ∀ s, I s → ∃ s' picked, B.pickNextTask s = some (s', picked) ∧ I s' ∧
    (queue s).Perm (picked.toList ++ queue s')

namespace Store

variable {B : BaseScheduler σ T} {queue : σ → List T} {I : σ → Prop}
  {accepts stores : σ → Call T → Prop} {s s' : σ} {t : T}

theorem of_custody (hB : Custody B queue I accepts stores)
    (hrefused : ∀ s c t s', I s → c.task = some t → ¬ accepts s c →
      B.call s c = some (s', none) → (queue s').Subperm (t :: queue s)) :
    Store B queue I stores where
  handIn := by
    intro s c t hI hc
    obtain ⟨s', hcall, hI', hyes, -, hmem⟩ := hB.handIn s c t hI hc
    refine ⟨s', hcall, hI', ?_, hmem⟩
    by_cases ha : accepts s c
    · exact (hyes ha).subperm
    · exact hrefused s c t s' hI hc ha hcall
  pick := by
    intro s hI
    obtain ⟨s', picked, hcall, hI', hperm⟩ := hB.pick s hI
    exact ⟨s', picked, hcall, hI', hperm⟩

theorem addTask (hB : Store B queue I stores) (hI : I s) (hadd : B.addTask s t = some s') :
    I s' ∧ (queue s').Subperm (t :: queue s) := by
  obtain ⟨u, hcall, hI', hsub, -⟩ := hB.handIn s (.addTask t) t hI rfl
  rw [BaseScheduler.call, hadd, Option.map_some, Option.some.injEq, Prod.mk.injEq] at hcall
  obtain ⟨rfl, -⟩ := hcall
  exact ⟨hI', hsub⟩

theorem putPrevTask_total (hB : Store B queue I stores) (hI : I s) (t : T) (preempt : Bool) :
    ∃ s', B.putPrevTask s t preempt = some s' := by
  obtain ⟨u, hcall, -⟩ := hB.handIn s (.putPrevTask t preempt) t hI rfl
  obtain ⟨s', hput, -⟩ := Option.map_eq_some_iff.mp hcall
  exact ⟨s', hput⟩

theorem putPrevTask {preempt : Bool} (hB : Store B queue I stores) (hI : I s)
    (hput : B.putPrevTask s t preempt = some s') :
    I s' ∧ (queue s').Subperm (t :: queue s) ∧
      (t ∈ queue s' ↔ t ∈ queue s ∨ stores s (.putPrevTask t preempt)) := by
  obtain ⟨u, hcall, hI', hrest⟩ := hB.handIn s (.putPrevTask t preempt) t hI rfl
  rw [BaseScheduler.call, hput, Option.map_some, Option.some.injEq, Prod.mk.injEq] at hcall
  obtain ⟨rfl, -⟩ := hcall
  exact ⟨hI', hrest⟩

theorem pickNextTask {x : Option T} (hB : Store B queue I stores) (hI : I s)
    (hpick : B.pickNextTask s = some (s', x)) :
    I s' ∧ (queue s).Perm (x.toList ++ queue s') := by
  obtain ⟨u, y, hcall, hrest⟩ := hB.pick s hI
  rw [hpick, Option.some.injEq, Prod.mk.injEq] at hcall
  obtain ⟨rfl, rfl⟩ := hcall
  exact hrest

end Store

theorem fifo_store : Store (fifo cap : BaseScheduler (Fifo T) T) Fifo.readyQueue (fun _ => True)
    (Room cap Fifo.readyQueue) := by
  refine .of_custody (fifo_custody cap) fun s c t s' _ hc hfull hcall => ?_
  have hsame : s' = s := by
    have hno : ¬ s.readyQueue.length < cap := hfull
    cases c with
    | addTask task => simpa [BaseScheduler.call, fifo, Fifo.enqueue, hno] using hcall.symm
    | putPrevTask task preempt =>
        simpa [BaseScheduler.call, fifo, Fifo.enqueue, hno] using hcall.symm
    | pickNextTask => cases hc
  rw [hsame]
  exact (List.sublist_cons_self t _).subperm

theorem rr_store [DecidableEq T] (slice : ℕ) :
    Store (rr slice cap : BaseScheduler (RR T) T) (RR.queue cap) (RR.Rests cap)
      (Room (cap - 1) (RR.queue cap)) := by
  refine .of_custody (rr_custody slice cap) fun s c t s' hrest hc hfull hcall => ?_
  -- a push on the full deque leaves it alone
  have hpush : ∀ (e : Deque.End) (r : RR T), r.Rests cap → r.queue cap = s.queue cap →
      (r.push cap (.push e t)).map (fun u => (u, (none : Option T))) = some (s', none) →
      s'.queue cap = s.queue cap := by
    intro e r hr hqueue hcall
    obtain ⟨r', hpush, -, -, hno⟩ := RR.push_custody (t := t) e hr
    rw [hpush, Option.map_some, Option.some.injEq, Prod.mk.injEq] at hcall
    rw [← hcall.1, hno (hqueue ▸ hfull), hqueue]
  have hsame : s'.queue cap = s.queue cap := by
    cases c with
    | addTask task =>
        cases hc
        exact hpush .back s hrest rfl hcall
    | putPrevTask task preempt =>
        cases hc
        simp only [BaseScheduler.call, rr, RR.putPrevTask] at hcall
        split at hcall
        · exact hpush .front s hrest rfl hcall
        · exact hpush .back { s with timeSlice := Function.update s.timeSlice t (wrap slice) } hrest
            rfl hcall
    | pickNextTask => cases hc
  rw [hsame]
  exact (List.sublist_cons_self t _).subperm

/-- What the map holds after a hand-in that does not add a pair. -/
theorem CFS.handIn_subperm [DecidableEq T] {s s' : CFS T} {c : Call T} {t : T}
    (hcap : cap < BTreeMap.usize) (h : s.Rests cap)
    (hqueue : s'.readyQueue = (s.readyQueue.insert cap (s.givenKey c) t).1) :
    (s'.queue cap).Subperm (t :: s.queue cap) := by
  obtain ⟨l, hrest⟩ := h
  obtain ⟨-, hrest'⟩ := hrest.insert hcap (s.givenKey c) t
  rw [← hqueue] at hrest'
  refine (CFS.queue_perm hrest').subperm.trans (List.Subperm.trans ?_
    ((CFS.queue_perm hrest).symm.cons t).subperm)
  simp only [BTreeMap.Op.onMap]
  cases hfind : OrderedMap.find (s.givenKey c) l with
  | some old =>
      have hput := (OrderedMap.put_present (v := t) hrest.sorted hfind).map Prod.snd
      simp only [List.map_cons] at hput
      exact ((List.sublist_cons_self old _).subperm).trans hput.subperm
  | none =>
      by_cases hlt : l.length < cap
      · simp only [if_pos hlt]
        exact ((OrderedMap.put_absent (v := t) hfind).map Prod.snd).subperm
      · simp only [if_neg hlt]
        exact (List.sublist_cons_self t _).subperm

theorem cfs_store [DecidableEq T] (hcap : cap < BTreeMap.usize) :
    Store (cfs cap : BaseScheduler (CFS T) T) (CFS.queue cap) (CFS.Rests cap)
      (fun s c => Room cap (CFS.queue cap) s c ∨ s.Taken cap c) := by
  refine .of_custody (cfs_custody hcap) fun s c t s' hrest hc _ hcall => ?_
  refine CFS.handIn_subperm (c := c) hcap hrest ?_
  cases c with
  | addTask task =>
      cases hc
      obtain ⟨rfl, -⟩ := Prod.mk.inj (Option.some.inj hcall)
      rfl
  | putPrevTask task preempt =>
      cases hc
      obtain ⟨rfl, -⟩ := Prod.mk.inj (Option.some.inj hcall)
      simp only [CFS.putPrevTask, CFS.insert, CFS.setTask, Function.update_self, CFS.givenKey]
      rfl
  | pickNextTask => cases hc

end Sched
