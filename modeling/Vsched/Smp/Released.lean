import Vsched.Smp.Join
import Vsched.Smp.Saved
import Vsched.Smp.Slot
import Vsched.Smp.Stacks

/-!
# A task that has been released is referred to nowhere

The queues, the slots and the current tasks are raw pointers: the reference of a task that
has exited is dropped by the resume point that finds it in its slot. A task that is woken by
its wait queue only is in one entry of one queue, or popped by one CPU, as long as it is
blocked, so nothing points to it when it has exited and has been released.
-/

namespace Smp

open Handoff (TaskState Held Placed At)

variable {kind : Task → Kind} {h : History} {s s' : State} {a : Cpu × Event} {c d : Cpu}
  {t : Task}

/-- Where a wait queue's pointer to a task may be. -/
inductive Desk
  | queue (q : QueueId)
  /-- Its CPU is about to put it into the queue. -/
  | entering (c : Cpu)
  /-- A CPU has popped it and wakes it. -/
  | popped (c : Cpu)
  /-- A CPU moves it from queue to queue. -/
  | carried (c : Cpu)

/-- The pointers that are there. -/
def Desk.tasks (s : State) : Desk → List Task
  | .queue q => s.queue q
  | .entering c => if (s.pc c).enters = none then [] else [s.current c]
  | .popped c => ((s.pc c).wakes.map Prod.snd).toList
  | .carried c => (s.pc c).carries

/-- A task is at one desk at most, once, and is blocked while it is. -/
structure Listed (s : State) (t : Task) : Prop where
  unique : ∀ x y : Desk, t ∈ x.tasks s → t ∈ y.tasks s → x = y
  once : ∀ x : Desk, (x.tasks s).count t ≤ 1
  blocked : ∀ x : Desk, t ∈ x.tasks s → s.state t = .blocked

/-- The task has come to no desk. -/
theorem Listed.of_le (hs : Listed s t)
    (hcount : ∀ x : Desk, (x.tasks s').count t ≤ (x.tasks s).count t)
    (hstate : ∀ x : Desk, t ∈ x.tasks s' → s'.state t = .blocked) : Listed s' t := by
  have hsub : ∀ x : Desk, t ∈ x.tasks s' → t ∈ x.tasks s := fun x hx =>
    List.count_pos_iff.mp ((List.count_pos_iff.mpr hx).trans_le (hcount x))
  exact ⟨fun x y hx hy => hs.unique x y (hsub x hx) (hsub y hy),
    fun x => (hcount x).trans (hs.once x), hstate⟩

/-- The task may have moved from desk `x` to desk `y`. -/
theorem Listed.shift {x y : Desk} (hs : Listed s t) (hxy : x ≠ y)
    (hother : ∀ z : Desk, z ≠ x → z ≠ y → (z.tasks s').count t ≤ (z.tasks s).count t)
    (hsum : (x.tasks s').count t + (y.tasks s').count t ≤
      (x.tasks s).count t + (y.tasks s).count t)
    (hstate : s.state t = .blocked → s'.state t = .blocked) : Listed s' t := by
  have hpos : ∀ {z : Desk} {r : State}, t ∈ z.tasks r ↔ 0 < (z.tasks r).count t :=
    List.count_pos_iff.symm
  have hzero : ∀ {z w : Desk}, t ∈ z.tasks s → w ≠ z → (w.tasks s).count t = 0 := by
    intro z w hz hw
    by_contra hne
    exact hw (hs.unique w z (hpos.mpr (Nat.pos_of_ne_zero hne)) hz)
  have hpair : (x.tasks s).count t + (y.tasks s).count t ≤ 1 := by
    have hx := hs.once x
    have hy := hs.once y
    by_cases hmem : t ∈ x.tasks s
    · have := hzero hmem hxy.symm
      omega
    · rw [List.count_eq_zero_of_not_mem hmem]
      omega
  have hnear : ∀ {z : Desk}, t ∈ z.tasks s' → (z = x ∨ z = y) ∨
      t ∈ z.tasks s ∧ (x.tasks s').count t = 0 ∧ (y.tasks s').count t = 0 := by
    intro z hz
    by_cases hzx : z = x
    · exact .inl (.inl hzx)
    by_cases hzy : z = y
    · exact .inl (.inr hzy)
    have hold : t ∈ z.tasks s := hpos.mpr ((hpos.mp hz).trans_le (hother z hzx hzy))
    have hx := hzero hold (Ne.symm hzx)
    have hy := hzero hold (Ne.symm hzy)
    exact .inr ⟨hold, by omega, by omega⟩
  refine ⟨fun z w hz hw => ?_, fun z => ?_, fun z hz => hstate ?_⟩
  · have hz' := hpos.mp hz
    have hw' := hpos.mp hw
    rcases hnear hz with hz | ⟨hz, hx, hy⟩ <;> rcases hnear hw with hw | ⟨hw, hx', hy'⟩
    · rcases hz with rfl | rfl <;> rcases hw with rfl | rfl <;> first | rfl | omega
    · rcases hz with rfl | rfl <;> omega
    · rcases hw with rfl | rfl <;> omega
    · exact hs.unique z w hz hw
  · by_cases hz : z = x ∨ z = y
    · rcases hz with rfl | rfl <;> omega
    · exact (hother z (fun h => hz (.inl h)) fun h => hz (.inr h)).trans (hs.once z)
  · have hz' := hpos.mp hz
    rcases hnear hz with hz | ⟨hz, -⟩
    · have hsome : 0 < (x.tasks s).count t ∨ 0 < (y.tasks s).count t := by
        rcases hz with rfl | rfl <;> omega
      exact hsome.elim (fun h => hs.blocked x (hpos.mpr h)) fun h => hs.blocked y (hpos.mpr h)
    · exact hs.blocked z hz

/-- A blocked task stays blocked until it is woken. -/
theorem Tidy.stays_blocked (htidy : Tidy kind s) (hstep : Step kind s a s')
    (hblocked : s.state t = .blocked) : s'.state t = .blocked ∨ a.2 = .woken t true := by
  have hset : ∀ {f : Task → TaskState} {u : Task} {st : TaskState}, f t = .blocked →
      (t = u → st = .blocked) → Function.update f u st t = .blocked := by
    intro f u st hf hu
    by_cases htu : t = u
    · subst htu
      rw [Function.update_self, hu rfl]
    · rw [Function.update_of_ne htu, hf]
  have hmade : s.created t = true := htidy.placed.fresh t trivial hblocked
  have hnew : ∀ {u : Task}, s.created u = false → t ≠ u := by
    rintro u hu rfl
    rw [hmade] at hu
    cases hu
  have hplace : ∀ {u : Task} {p : Handoff.Place Cpu}, At (view s) u p → t ≠ u := by
    rintro u p hp rfl
    exact htidy.placed.not_blocked trivial hp hblocked
  cases hstep with
  | initVsched _ hm hi =>
      exact .inl (hset (hset hblocked fun htu => absurd htu (hnew hi)) fun htu =>
        absurd htu (hnew hm))
  | initVschedSecondary _ hi =>
      exact .inl (hset (hset hblocked fun htu => absurd htu (hnew hi)) fun htu =>
        absurd htu (hnew hi))
  | spawn _ _ hu => exact .inl (hset hblocked fun htu => absurd htu (hnew hu))
  | @yieldCas c _ hrunning =>
      refine .inl (hset hblocked fun htu => ?_)
      rw [← htu, hblocked] at hrunning
      cases hrunning
  | @setRunningSame c v hpc =>
      have hp : At (view s) (s.current c) (.chosen c) := view_role hpc
      exact .inl (hset hblocked fun htu => absurd htu (hplace hp))
  | @setRunning c v n hpc =>
      have hp : At (view s) n (.chosen c) := view_role hpc
      exact .inl (hset hblocked fun htu => absurd htu (hplace hp))
  | schedBlocked => exact .inl (hset hblocked fun _ => rfl)
  | setBlocked => exact .inl (hset hblocked fun _ => rfl)
  | @setExited c e hpc =>
      have hp : At (view s) (s.current c) (.seat c) := ⟨⟨_, view_role hpc⟩, rfl⟩
      exact .inl (hset hblocked fun htu => absurd htu (hplace hp))
  | @wakeCas c b u =>
      by_cases htu : t = u
      · exact .inr (by rw [htu])
      · exact .inl (hset hblocked fun h => absurd h htu)
  | _ => exact .inl hblocked

/-- What the step leaves alone: the desks of the other CPUs, and what it is known to keep. -/
theorem Step.tasks_le {x : Desk} (hstep : Step kind s a s')
    (hqueue : ∀ q, x = .queue q → (s'.queue q).count t ≤ (s.queue q).count t)
    (hown : x = .entering a.1 ∨ x = .popped a.1 ∨ x = .carried a.1 →
      (x.tasks s').count t ≤ (x.tasks s).count t) :
    (x.tasks s').count t ≤ (x.tasks s).count t := by
  cases x with
  | queue q => exact hqueue q rfl
  | entering d =>
      by_cases hd : d = a.1
      · exact hown (.inl (hd ▸ rfl))
      · obtain ⟨hpc, hcurrent, -⟩ := hstep.others hd
        rw [Desk.tasks, Desk.tasks, hpc, hcurrent]
  | popped d =>
      by_cases hd : d = a.1
      · exact hown (.inr (.inl (hd ▸ rfl)))
      · obtain ⟨hpc, -⟩ := hstep.others hd
        rw [Desk.tasks, Desk.tasks, hpc]
  | carried d =>
      by_cases hd : d = a.1
      · exact hown (.inr (.inr (hd ▸ rfl)))
      · obtain ⟨hpc, -⟩ := hstep.others hd
        rw [Desk.tasks, Desk.tasks, hpc]

/-- A wake-up of the task comes from a wait queue. -/
def Unwaked (s : State) (t : Task) : Prop :=
  ∀ c b, s.pc c = .wakeCas b t → ∃ q, (s.pc c).wakes = some (q, t)

theorem Step.at_woken (hstep : Step kind s a s') (hev : a.2 = .woken t true) :
    (∃ b, s.pc a.1 = .wakeCas b t) ∧ (s'.pc a.1).wakes = none := by
  cases hstep <;> cases hev
  refine ⟨⟨_, ‹_›⟩, ?_⟩
  simp only [State.go_pc, Function.update_self]
  split
  · exact (away_caller_done _).wakes
  · rfl

theorem Step.marked {w : Wait} (hstep : Step kind s a s') (hev : a.2 = .blocked t w) :
    s'.state t = .blocked := by
  cases hstep <;> cases hev
  simp

section Step

variable {ev : Event}

/-- Where no task is on a desk of the CPU. -/
def Pc.Bare (p : Pc) : Prop :=
  p.enters = none ∧ p.wakes = none ∧ p.carries = []

theorem Pc.Away.bare {p : Pc} (hp : p.Away) : p.Bare :=
  ⟨hp.enters, hp.wakes, hp.carries⟩

theorem Pc.Bare.tasks {x : Desk} (hbare : (s.pc c).Bare)
    (hx : x = .entering c ∨ x = .popped c ∨ x = .carried c) : x.tasks s = [] := by
  obtain ⟨henters, hwakes, hcarries⟩ := hbare
  rcases hx with rfl | rfl | rfl <;> simp [Desk.tasks, henters, hwakes, hcarries]

variable (hs : Listed s t) (htidy : Tidy kind s) (hwaked : Unwaked s t)
  (hstep : Step kind s (c, ev) s')

include hs htidy hstep

/-- The step brings the task to no desk. -/
theorem Listed.keep (hev : ev ≠ .woken t true)
    (hqueue : ∀ q, (s'.queue q).count t ≤ (s.queue q).count t)
    (hown : ∀ x : Desk, x = .entering c ∨ x = .popped c ∨ x = .carried c →
      (x.tasks s').count t ≤ (x.tasks s).count t) : Listed s' t := by
  have hle : ∀ x : Desk, (x.tasks s').count t ≤ (x.tasks s).count t := fun x =>
    hstep.tasks_le (fun q _ => hqueue q) (hown x)
  refine hs.of_le hle fun x hx => ?_
  have hold : t ∈ x.tasks s :=
    List.count_pos_iff.mp ((List.count_pos_iff.mpr hx).trans_le (hle x))
  exact (htidy.stays_blocked hstep (hs.blocked x hold)).resolve_right hev

/-- The step leaves every queue alone and clears the desks of its CPU. -/
theorem Listed.leave (hev : ev ≠ .woken t true) (hqueue : s'.queue = s.queue)
    (hbare : (s'.pc c).Bare) : Listed s' t := by
  refine hs.keep htidy hstep hev (fun q => by rw [hqueue]) fun x hx => ?_
  rw [hbare.tasks hx]
  exact Nat.zero_le _

/-- The step may bring the task from queue `q` to a desk of its CPU, or back. -/
theorem Listed.carry {q : QueueId} {y : Desk}
    (hy : y = .entering c ∨ y = .popped c ∨ y = .carried c) (hev : ev ≠ .woken t true)
    (hqueue : ∀ r, r ≠ q → s'.queue r = s.queue r)
    (hown : ∀ x : Desk, x ≠ y → x = .entering c ∨ x = .popped c ∨ x = .carried c →
      x.tasks s' = [])
    (hsum : (s'.queue q).count t + (y.tasks s').count t ≤
      (s.queue q).count t + (y.tasks s).count t) : Listed s' t := by
  refine hs.shift (x := .queue q) (y := y) ?_ (fun z hzq hzy => ?_) hsum
    fun hblocked => (htidy.stays_blocked hstep hblocked).resolve_right hev
  · rcases hy with rfl | rfl | rfl <;> simp
  · refine hstep.tasks_le (fun r hz => ?_) fun hz => ?_
    · rw [hqueue r fun hr => hzq (hr ▸ hz)]
    · rw [hown z hzy hz]
      exact Nat.zero_le _

include hwaked

theorem Queueing.listed (hq : Queueing kind s c s' ev) : Listed s' t := by
  have hwoken : ∀ {p : Pc}, s.pc c = p → p.wakes = none → ev ≠ .woken t true := by
    rintro p hpc hp rfl
    obtain ⟨⟨b, hb⟩, -⟩ := hstep.at_woken rfl
    obtain ⟨q, hq⟩ := hwaked c b hb
    rw [hpc, hp] at hq
    cases hq
  have hsame : ∀ {f : QueueId → List Task} {q r : QueueId} {l : List Task},
      s'.queue = Function.update f q l → r ≠ q → s'.queue r = f r := by
    intro f q r l hqueue hr
    rw [hqueue, Function.update_of_ne hr]
  cases hq with
  | away hpc haway hqueue => exact hs.leave htidy hstep (hwoken rfl hpc.2) hqueue haway.bare
  | stay hpc hcurrent hqueue =>
      refine hs.keep htidy hstep ?_ (fun q => by rw [hqueue]) ?_
      · rintro rfl
        obtain ⟨⟨b, hb⟩, hwakes⟩ := hstep.at_woken rfl
        obtain ⟨q, hq⟩ := hwaked c b hb
        rw [hpc, hq] at hwakes
        cases hwakes
      · rintro x (rfl | rfl | rfl) <;> simp [Desk.tasks, hpc, hcurrent]
  | suspended hpc haway hqueue => exact hs.leave htidy hstep (hwoken hpc rfl) hqueue haway.bare
  | enter hpc _ hpc' _ hqueue =>
      exact hs.leave htidy hstep (hwoken hpc rfl) hqueue (by rw [hpc']; exact ⟨rfl, rfl, rfl⟩)
  | check hpc _ hpc' hqueue =>
      exact hs.leave htidy hstep (hwoken hpc rfl) hqueue (by rw [hpc']; exact ⟨rfl, rfl, rfl⟩)
  | refuse hpc _ hpc' hqueue =>
      exact hs.leave htidy hstep (hwoken hpc rfl) hqueue (by rw [hpc']; exact ⟨rfl, rfl, rfl⟩)
  | assert hpc hpc' _ hqueue =>
      exact hs.leave htidy hstep (hwoken hpc rfl) hqueue (by rw [hpc']; exact ⟨rfl, rfl, rfl⟩)
  | exit hpc hpc' _ _ hqueue =>
      exact hs.leave htidy hstep (hwoken hpc rfl) hqueue (by rw [hpc']; exact ⟨rfl, rfl, rfl⟩)
  | @block w hpc hpc' hcurrent hqueue =>
      by_cases ht : t = s.current c
      · -- a task that runs is on no desk
        subst ht
        have hnone : ∀ x : Desk, (x.tasks s).count (s.current c) = 0 := by
          intro x
          refine List.count_eq_zero_of_not_mem fun hx => ?_
          have hrunning := htidy.alive (w := .none) (view_role hpc)
          rw [hs.blocked x hx] at hrunning
          cases hrunning
        have hzero : ∀ x : Desk, x ≠ .entering c →
            (x.tasks s').count (s.current c) = 0 := by
          intro x hx
          refine Nat.le_zero.mp (le_trans ?_ (hnone x).le)
          refine hstep.tasks_le (fun q _ => by rw [hqueue]) ?_
          rintro (rfl | rfl | rfl)
          · exact absurd rfl hx
          · simp [Desk.tasks, hpc', Pc.wakes]
          · simp [Desk.tasks, hpc', Pc.carries]
        have honly : ∀ x : Desk, s.current c ∈ x.tasks s' → x = .entering c := by
          intro x hx
          by_contra hne
          exact (List.count_pos_iff.mpr hx).ne' (hzero x hne)
        refine ⟨fun x y hx hy => (honly x hx).trans (honly y hy).symm, fun x => ?_,
          fun _ _ => hstep.marked rfl⟩
        by_cases hx : x = .entering c
        · subst hx
          simp [Desk.tasks, hpc', Pc.enters, hcurrent]
        · rw [hzero x hx]
          exact Nat.zero_le _
      · refine hs.keep htidy hstep (by simp) (fun q => by rw [hqueue]) ?_
        rintro x (rfl | rfl | rfl)
        · simp [Desk.tasks, hpc', Pc.enters, hcurrent, Ne.symm ht]
        · simp [Desk.tasks, hpc', Pc.wakes]
        · simp [Desk.tasks, hpc', Pc.carries]
  | mark hpc hpc' hcurrent hqueue =>
      refine hs.keep htidy hstep (hwoken hpc rfl) (fun q => by rw [hqueue]) ?_
      rintro x (rfl | rfl | rfl)
      · simp [Desk.tasks, hpc, hpc', Pc.enters, hcurrent]
      · simp [Desk.tasks, hpc', Pc.wakes]
      · simp [Desk.tasks, hpc', Pc.carries]
  | @push _ w hpc haway hqueue =>
      refine hs.carry htidy hstep (q := w.queue) (y := .entering c) (.inl rfl) (hwoken hpc rfl)
        (fun r hr => hsame hqueue hr) (fun x _ hx => haway.bare.tasks hx) ?_
      rw [haway.bare.tasks (.inl rfl), hqueue, Function.update_self, List.count_append]
      simp [Desk.tasks, hpc, Pc.enters]
  | @pop _ q m u hpc hmem hqueue hpc' =>
      refine hs.carry htidy hstep (q := q) (y := .popped c) (.inr (.inl rfl)) (hwoken hpc rfl)
        (fun r hr => hsame hqueue hr) ?_ ?_
      · rintro x hx (rfl | rfl | rfl)
        · simp [Desk.tasks, hpc', Pc.enters]
        · exact absurd rfl hx
        · simp [Desk.tasks, hpc', Pc.carries]
      · rw [(List.perm_cons_erase hmem).count_eq t, hqueue, Function.update_self]
        simp [Desk.tasks, hpc', Pc.wakes, List.count_cons]
  | clear hpc hpc' hqueue =>
      refine hs.keep htidy hstep ?_ (fun q => by rw [hqueue]) ?_
      · rintro rfl
        obtain ⟨⟨b, hb⟩, -⟩ := hstep.at_woken rfl
        rw [hpc] at hb
        cases hb
      · rintro x (rfl | rfl | rfl)
        · simp [Desk.tasks, hpc', Pc.enters]
        · simp [Desk.tasks, hpc, hpc', Pc.wakes]
        · simp [Desk.tasks, hpc', Pc.carries]
  | @wake _ b u hpc hnot haway hqueue =>
      by_cases ht : t = u
      · subst ht
        obtain ⟨r, hr⟩ := hwaked c b hpc
        have hhere : t ∈ (Desk.popped c).tasks s := by simp [Desk.tasks, hr]
        have hle : ∀ x : Desk, (x.tasks s').count t ≤ (x.tasks s).count t := fun x =>
          hstep.tasks_le (fun q _ => by rw [hqueue]) fun hx => by
            rw [haway.bare.tasks hx]
            exact Nat.zero_le _
        refine hs.of_le hle fun x hx => ?_
        have hold : t ∈ x.tasks s :=
          List.count_pos_iff.mp ((List.count_pos_iff.mpr hx).trans_le (hle x))
        rw [hs.unique x _ hold hhere, haway.bare.tasks (.inr (.inl rfl))] at hx
        cases hx
      · refine hs.leave htidy hstep ?_ hqueue haway.bare
        rintro rfl
        obtain ⟨⟨b', hb⟩, -⟩ := hstep.at_woken rfl
        rw [hpc] at hb
        cases hb
        exact ht rfl
  | @retain _ w hpc haway hqueue =>
      refine hs.keep htidy hstep (hwoken hpc rfl) (fun q => ?_) fun x hx => ?_
      · by_cases hq : q = w.queue
        · subst hq
          rw [hqueue, Function.update_self]
          exact List.filter_sublist.count_le t
        · rw [hsame hqueue hq]
      · rw [haway.bare.tasks hx]
        exact Nat.zero_le _
  | @drain q r n hpc hpc' hqueue =>
      refine hs.carry htidy hstep (q := q) (y := .carried c) (.inr (.inr rfl)) (by simp)
        (fun r hr => hsame hqueue hr) ?_ ?_
      · rintro x hx (rfl | rfl | rfl)
        · simp [Desk.tasks, hpc', Pc.enters]
        · simp [Desk.tasks, hpc', Pc.wakes]
        · exact absurd rfl hx
      · have hsplit := congrArg (List.count t) (List.take_append_drop n (s.queue q))
        rw [List.count_append] at hsplit
        rw [hqueue, Function.update_self]
        simp only [Desk.tasks, hpc', Pc.carries]
        omega
  | unlock hpc hpc' hqueue =>
      refine hs.keep htidy hstep (hwoken hpc rfl) (fun q => by rw [hqueue]) ?_
      rintro x (rfl | rfl | rfl)
      · simp [Desk.tasks, hpc', Pc.enters]
      · simp [Desk.tasks, hpc', Pc.wakes]
      · simp [Desk.tasks, hpc, hpc', Pc.carries]
  | relock hpc hpc' hqueue =>
      refine hs.keep htidy hstep (hwoken hpc rfl) (fun q => by rw [hqueue]) ?_
      rintro x (rfl | rfl | rfl)
      · simp [Desk.tasks, hpc', Pc.enters]
      · simp [Desk.tasks, hpc', Pc.wakes]
      · simp [Desk.tasks, hpc, hpc', Pc.carries]
  | @extend q l hpc hpc' hqueue =>
      have hbare : (s'.pc c).Bare := by
        rw [hpc']
        exact ⟨rfl, rfl, rfl⟩
      refine hs.carry htidy hstep (q := q) (y := .carried c) (.inr (.inr rfl)) (by simp)
        (fun r hr => hsame hqueue hr) (fun x _ hx => hbare.tasks hx) ?_
      rw [hbare.tasks (.inr (.inr rfl)), hqueue, Function.update_self, List.count_append]
      simp [Desk.tasks, hpc, Pc.carries]

end Step

/-- A CPU comes to wake a task because a waker is called or it has popped the task. -/
theorem Step.at_wakeCas {b : Caller} (hstep : Step kind s a s') (hpc : s'.pc a.1 = .wakeCas b t) :
    a.2 = .wake t ∨ ∃ q m, b = .queue q m := by
  have hplain : ∀ {p : Pc} {r : State} {d : Cpu}, p.Plain → (r.go d p).pc d = .wakeCas b t →
      False := by
    intro p r d hp hr
    rw [State.go_pc, Function.update_self] at hr
    rw [hr] at hp
    exact hp
  have hresume : ∀ {x : Bool} {k : Option Kont} {r : State} {d : Cpu},
      (r.go d (if x then .take none else resumeContext k)).pc d = .wakeCas b t → False := by
    intro x k r d hr
    cases x <;> cases k <;> simp [resumeContext] at hr
  cases hstep with
  | spawn hold => simp [hold] at hpc
  | setFlag hold => simp [hold] at hpc
  | @wake c u =>
      obtain ⟨-, rfl⟩ : Caller.direct = b ∧ u = t := by simpa using hpc
      exact .inl rfl
  | @wakersPop c n all u =>
      obtain ⟨-, rfl⟩ : Caller.wakers n all = b ∧ u = t := by simpa using hpc
      exact .inl rfl
  | @clearInWaitQueue c q m u =>
      obtain ⟨rfl, -⟩ : Caller.queue q m = b ∧ u = t := by simpa using hpc
      exact .inr ⟨q, m, rfl⟩
  | @setRunningSame c v =>
      rcases v with k | k | -
      · cases k <;> simp [Via.stay] at hpc
      · cases k with
        | exiting => simp [Via.stay] at hpc
        | user => exact (hplain (plain_resumeCoroutine .user) hpc).elim
        | blocked w => exact (hplain (plain_resumeCoroutine (.blocked w)) hpc).elim
      · simp [Via.stay] at hpc
  | switchTo => exact (hresume hpc).elim
  | leave => exact (hresume hpc).elim
  | checkPrevExited => exact (hplain (plain_resume _) hpc).elim
  | checkPrev => exact (hplain (plain_resume _) hpc).elim
  | poll => exact (hplain (plain_resumeCoroutine _) hpc).elim
  | yieldCas => split at hpc <;> simp at hpc
  | evalLocked => split at hpc <;> simp at hpc
  | evalUnlocked => split at hpc <;> simp at hpc
  | cancelLoad =>
      split at hpc
      · simp at hpc
      · exact (hplain (plain_wait_done _) hpc).elim
  | cancelClear => exact (hplain (plain_wait_done _) hpc).elim
  | @notifyUnlock c q m found => cases m <;> cases found <;> simp [State.afterNotify] at hpc
  | @wakeCas c x u =>
      split at hpc
      · cases x <;> simp [Caller.done] at hpc
      · simp at hpc
  | @wakeCasFail c x => cases x <;> simp [Caller.done] at hpc
  | @wakePut c x => cases x <;> simp [Caller.done] at hpc
  | requeueUnlock => split at hpc <;> simp at hpc
  | wakersUnlock => split at hpc <;> simp at hpc
  | _ => simp at hpc

theorem Unwaked.step (hs : Unwaked s t) (hstep : Step kind s a s') (hev : a.2 ≠ .wake t) :
    Unwaked s' t := by
  intro c b hpc
  by_cases hc : c = a.1
  · subst hc
    obtain ⟨q, m, rfl⟩ := (hstep.at_wakeCas hpc).resolve_left hev
    exact ⟨q, by rw [hpc]; rfl⟩
  · rw [(hstep.others hc).1] at hpc ⊢
    exact hs c b hpc

/-- No waker of `t` is called. -/
def WithoutWaker (t : Task) (h : History) (s : State) (a : Cpu × Event) : Prop :=
  Paired h s a ∧ a.2 ≠ .wake t

theorem moves_of_withoutWaker (hrun : (machine kind).RunOf (WithoutWaker t) h s) :
    (machine kind).RunOf MovesOn h s :=
  hrun.mono fun _ _ _ hg => hg.1.1

theorem listed_run (hrun : (machine kind).RunOf (WithoutWaker t) h s) :
    Unwaked s t ∧ Listed s t := by
  refine hrun.invariant (I := fun _ s => Unwaked s t ∧ Listed s t) ?_ ?_
  · rintro s rfl
    have hnone : ∀ x : Desk, x.tasks State.init = [] := by
      rintro (q | c | c | c) <;> rfl
    refine ⟨fun c b hpc => ?_, ⟨fun x _ hx => ?_, fun x => ?_, fun x hx => ?_⟩⟩
    · cases hpc
    · rw [hnone x] at hx
      cases hx
    · rw [hnone x]
      exact Nat.zero_le _
    · rw [hnone x] at hx
      cases hx
  · rintro h s ⟨c, ev⟩ s' hrun ⟨hwaked, hlisted⟩ hguard hstep
    have htidy := (filled_run (moves_of_withoutWaker hrun)).1
    exact ⟨hwaked.step hstep hguard.2,
      Queueing.listed hlisted htidy hwaked hstep hstep.queueing⟩

theorem kin_run (hrun : (machine kind).RunOf ClearsUnheld h s) :
    ∀ c, (s.pc c).Kin kind (s.current c) (s.prev c) := by
  refine hrun.invariant (I := fun _ s => ∀ c, (s.pc c).Kin kind (s.current c) (s.prev c)) ?_ ?_
  · rintro s rfl c
    trivial
  · intro h s a s' hrun hs _ hstep
    exact (tidy_run hrun).kin_step hstep hs

/-- The task, other than its current one, that a CPU is dealing with. -/
def Pc.refers : Pc → Option Task
  | .assertReady _ n => some n
  | .setRunning _ n => some n
  | .setOnCpu _ n => some n
  | .replace _ n => some n
  | .switchTo old _ => some old
  | .checkPrev _ x => x
  | .afterPoll u => some u
  | .schedBlocked u => some u
  | .leave u => some u
  | .clearInWaitQueue _ _ u => some u
  | .wakeCas _ u => some u
  | .wakeSpin _ u => some u
  | .wakePut _ u => some u
  | _ => none

/-- No raw pointer to the task is left. -/
structure Unreferenced (s : State) (t : Task) : Prop where
  current : ∀ c, s.pc c ≠ .off → s.current c ≠ t
  prev : ∀ c, s.pc c ≠ .off → s.prev c ≠ some t
  code : ∀ c, (s.pc c).refers ≠ some t
  carried : ∀ c, t ∉ (s.pc c).carries
  ready : ∀ c, t ∉ s.ready c
  queue : ∀ q, t ∉ s.queue q

/-- CPU 1 pops the coroutine from the wait queue; its waker is called on CPU 0, where it goes
on and exits. -/
def wokenInHand : List Choice :=
  bootCoroutine ++ .call 0 (.wait (.wait (.user 0))) :: goes 0 15 ++
    .call 1 (.notify (.user 0) .one) :: goes 1 3 ++
    .call 0 (.wake 4) :: goes 0 3 ++ .call 0 .yield :: goes 0 2 ++ .go 0 1 none :: goes 0 10 ++
    .call 0 (.exit 7) :: goes 0 15

/-- A task that its waker has woken while a notifier had it in hand is released, and the
notifier goes on to look at it. -/
theorem released_in_hand : ∃ h s, (machine withCoroutine).RunOf MovesOn h s ∧
    (0, .released 4) ∈ h ∧ s.pc 1 = .wakeCas (.queue (.user 0) .one) 4 := by
  let r := (playAll withCoroutine MovesOn wokenInHand).get (by decide)
  exact ⟨r.1, r.2, playAll_run _ _ (Option.some_get _).symm, by decide, by decide⟩

end Smp
