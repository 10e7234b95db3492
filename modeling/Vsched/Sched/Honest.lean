import Vsched.Sched.Loss

/-!
# Schedulers that make up no task

Whether a scheduler has room for a task or drops it, its queue holds afterwards only what it
held before and the task that was handed in, and the task it picks was in the queue.
-/

namespace Sched

variable {σ T : Type*} {cap : ℕ}

/-- A scheduler that queues only tasks it is handed, as long as `I` holds. -/
structure Honest (B : BaseScheduler σ T) (queue : σ → List T) (I : σ → Prop) : Prop where
  handIn : ∀ s c t s' r, I s → c.task = some t → B.call s c = some (s', r) →
    I s' ∧ ∀ u ∈ queue s', u = t ∨ u ∈ queue s
  pick : ∀ s s' picked, I s → B.pickNextTask s = some (s', picked) →
    I s' ∧ (∀ u ∈ queue s', u ∈ queue s) ∧ ∀ u, picked = some u → u ∈ queue s

namespace Honest

variable {B : BaseScheduler σ T} {queue : σ → List T} {I : σ → Prop}
  {accepts stores : σ → Call T → Prop} {s s' : σ} {t : T}

/-- It is enough to know what is queued after a task that has been refused. -/
theorem of_custody (hB : Custody B queue I accepts stores)
    (hrefused : ∀ s c t s' r, I s → c.task = some t → ¬ accepts s c →
      B.call s c = some (s', r) → ∀ u ∈ queue s', u = t ∨ u ∈ queue s) :
    Honest B queue I where
  handIn := by
    intro s c t s' r hI hc hcall
    obtain ⟨s₁, hcall₁, hI₁, hperm, -⟩ := hB.handIn s c t hI hc
    obtain ⟨rfl, rfl⟩ := Prod.mk.inj (Option.some.inj (hcall₁.symm.trans hcall))
    refine ⟨hI₁, fun u hu => ?_⟩
    by_cases ha : accepts s c
    · exact List.mem_cons.mp ((hperm ha).mem_iff.mp hu)
    · exact hrefused s c t s₁ none hI hc ha hcall u hu
  pick := by
    intro s s' picked hI hpick
    obtain ⟨s₁, picked₁, hpick₁, hI₁, hperm⟩ := hB.pick s hI
    obtain ⟨rfl, rfl⟩ := Prod.mk.inj (Option.some.inj (hpick₁.symm.trans hpick))
    refine ⟨hI₁, fun u hu => hperm.mem_iff.mpr (List.mem_append_right _ hu), fun u hu => ?_⟩
    exact hperm.mem_iff.mpr (List.mem_append_left _ (by simp [hu]))

theorem addTask (hB : Honest B queue I) (hI : I s) (hadd : B.addTask s t = some s') :
    I s' ∧ ∀ u ∈ queue s', u = t ∨ u ∈ queue s :=
  hB.handIn s (.addTask t) t s' none hI rfl (by simp [BaseScheduler.call, hadd])

theorem putPrevTask {preempt : Bool} (hB : Honest B queue I) (hI : I s)
    (hput : B.putPrevTask s t preempt = some s') :
    I s' ∧ ∀ u ∈ queue s', u = t ∨ u ∈ queue s :=
  hB.handIn s (.putPrevTask t preempt) t s' none hI rfl (by simp [BaseScheduler.call, hput])

end Honest

theorem Fifo.enqueue_full {s : Fifo T} {t : T} (hfull : ¬ s.readyQueue.length < cap) :
    s.enqueue cap t = s :=
  if_neg hfull

theorem fifo_honest : Honest (fifo cap : BaseScheduler (Fifo T) T) Fifo.readyQueue
    fun _ => True := by
  refine .of_custody (fifo_custody cap) fun s c t s' r _ hc hfull hcall u hu => .inr ?_
  cases c with
  | pickNextTask => cases hc
  | addTask task | putPrevTask task preempt =>
      obtain ⟨rfl, -⟩ := Prod.mk.inj (Option.some.inj hcall)
      rwa [Fifo.enqueue_full hfull] at hu

/-- A full deque stays as it is. -/
theorem RR.push_full {s s' : RR T} {t : T} {e : Deque.End} (h : s.Rests cap)
    (hfull : ¬ Room (cap - 1) (RR.queue cap) s (.addTask t))
    (hpush : s.push cap (.push e t) = some s') : s'.queue cap = s.queue cap := by
  obtain ⟨s₁, hpush₁, -, -, hno⟩ := RR.push_custody (t := t) e h
  obtain rfl := Option.some.inj (hpush₁.symm.trans hpush)
  exact hno hfull

theorem rr_honest [DecidableEq T] (slice : ℕ) :
    Honest (rr slice cap : BaseScheduler (RR T) T) (RR.queue cap) (RR.Rests cap) := by
  refine .of_custody (rr_custody slice cap) fun s c t s' r h hc hfull hcall u hu => .inr ?_
  cases c with
  | pickNextTask => cases hc
  | addTask task =>
      obtain ⟨s₁, hpush, hpair⟩ := Option.map_eq_some_iff.mp hcall
      obtain ⟨rfl, -⟩ := Prod.mk.inj hpair
      rwa [RR.push_full h hfull hpush] at hu
  | putPrevTask task preempt =>
      obtain ⟨s₁, hput, hpair⟩ := Option.map_eq_some_iff.mp hcall
      obtain ⟨rfl, -⟩ := Prod.mk.inj hpair
      simp only [rr, RR.putPrevTask] at hput
      split_ifs at hput with hfront
      · rwa [RR.push_full h hfull hput] at hu
      · rw [RR.push_full (s := { s with
          timeSlice := Function.update s.timeSlice task (wrap slice) }) h hfull hput] at hu
        exact hu

/-- Inserting under a key puts the task into the place of another one or next to them. -/
theorem CFS.insert_mem {s s' : CFS T} {k : Key} {t u : T} (hcap : cap < BTreeMap.usize)
    (h : s.Rests cap) (hqueue : s'.readyQueue = (s.readyQueue.insert cap k t).1)
    (hu : u ∈ s'.queue cap) : u = t ∨ u ∈ s.queue cap := by
  obtain ⟨l, hrest⟩ := h
  obtain ⟨-, hrest'⟩ := hrest.insert hcap k t
  rw [← hqueue] at hrest'
  rw [(queue_perm hrest).mem_iff]
  rw [(queue_perm hrest').mem_iff] at hu
  have hput : u ∈ (OrderedMap.put k t l).map Prod.snd ∨ u ∈ l.map Prod.snd := by
    simp only [BTreeMap.Op.onMap] at hu
    split at hu
    · exact .inl hu
    · split_ifs at hu
      · exact .inl hu
      · exact .inr hu
  refine hput.elim (fun hmem => ?_) .inr
  obtain ⟨p, hp, rfl⟩ := List.mem_map.mp hmem
  rcases OrderedMap.mem_put hp with rfl | hp
  · exact .inl rfl
  · exact .inr (List.mem_map.mpr ⟨p, hp, rfl⟩)

theorem cfs_honest [DecidableEq T] (hcap : cap < BTreeMap.usize) :
    Honest (cfs cap : BaseScheduler (CFS T) T) (CFS.queue cap) (CFS.Rests cap) := by
  refine .of_custody (cfs_custody hcap) fun s c t s' r h hc _ hcall u hu => ?_
  cases c with
  | pickNextTask => cases hc
  | addTask task =>
      obtain rfl := Option.some.inj hc
      obtain ⟨rfl, -⟩ := Prod.mk.inj (Option.some.inj hcall)
      exact CFS.insert_mem hcap h rfl hu
  | putPrevTask task preempt =>
      obtain rfl := Option.some.inj hc
      obtain ⟨rfl, -⟩ := Prod.mk.inj (Option.some.inj hcall)
      exact CFS.insert_mem hcap h rfl hu

end Sched
