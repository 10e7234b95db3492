import Vsched.Kernel.Refine

/-!
# Threads and coroutines are scheduled alike

The tasks are given as programs that share a memory. Whatever is seen while their code goes on,
the whole view of the scheduler each time, does not depend on which of them are threads and
which are coroutines.
-/

namespace Kernel

open Sched (BaseScheduler TaskState Keeper Honest)

/-- The code of the tasks. -/
structure Program (μ : Type*) where
  /-- The next operation of a task, to which the last one has returned a result. -/
  next : Task → ℤ → μ → Op × μ
  /-- A condition of `wait_until`. -/
  test : Task → ℕ → μ → Bool × μ

variable {σ μ : Type*}

/-- What the current task does next. -/
def Program.move (P : Program μ) (v : View σ) (m : μ) : Stop → Option (Next × μ)
  | .user =>
      if v.current = .idle then some (.op .yield, m)
      else
        let (o, m') := P.next v.current (v.result v.current) m
        some (.op o, m')
  | .condition w =>
      match w.cond with
      | some (.test n) =>
          let (b, m') := P.test v.current n m
          some (.check b, m')
      | some (.exited t) => some (.check (v.state t = .exited), m)
      | none => none
  | .notifying _ _ _ => some (.round, m)
  | .halted => none

/-- The tasks, their memory and what has been seen so far. -/
structure Watched (α σ μ : Type*) where
  state : α
  memory : μ
  seen : List (View σ)

/-- What is seen where the code of a task goes on. -/
def View.sight (v : View σ) : Option Stop → List (View σ)
  | some .user => [v]
  | some (.condition _) => [v]
  | _ => []

namespace Program

variable (P : Program μ) (kind : ℕ → Kind) (B : BaseScheduler σ Task)

/-- A step of the kernel that runs the program. -/
inductive KernelStep :
    Watched (State σ) σ μ → Act → Watched (State σ) σ μ → Prop
  | stop {s s' : State σ} {m m' : μ} {l : List (View σ)} {p : Stop} {x : Next} :
      s.pc.stop = some p → P.move s.view m p = some (x, m') →
      s.Enabled kind (x.act (s.view.current.form kind)) →
      s.perform kind B (x.act (s.view.current.form kind)) = some s' →
      KernelStep ⟨s, m, l⟩ (x.act (s.view.current.form kind))
        ⟨s', m', l ++ s'.view.sight s'.pc.stop⟩
  | tick {s s' : State σ} {m : μ} {l : List (View σ)} :
      s.pc.stop = none → s.tick kind B = some s' →
      KernelStep ⟨s, m, l⟩ .tick ⟨s', m, l ++ s'.view.sight s'.pc.stop⟩

/-- The kernel running the program, with tasks of the given kinds. -/
def kernel (scheduler : σ) (m : μ) : Labelled.System (Watched (State σ) σ μ) Act where
  start := fun p => p = ⟨State.init scheduler, m, []⟩
  step := P.KernelStep kind B

inductive CommonStep :
    Watched (Common σ) σ μ → Next → Watched (Common σ) σ μ → Prop
  | step {a a' : Common σ} {m m' : μ} {l : List (View σ)} {x : Next} :
      P.move a.view m a.stop = some (x, m') → a.Enabled x → a.perform B x = some a' →
      CommonStep ⟨a, m, l⟩ x ⟨a', m', l ++ a'.view.sight (some a'.stop)⟩

/-- The common model running the program. -/
def common (scheduler : σ) (m : μ) : Labelled.System (Watched (Common σ) σ μ) Next where
  start := fun p => p = ⟨Common.init scheduler, m, []⟩
  step := P.CommonStep B

/-- The step that the kernel takes. -/
def advance (p : Watched (State σ) σ μ) : Option (Act × Watched (State σ) σ μ) :=
  match p.state.pc.stop with
  | some q =>
      (P.move p.state.view p.memory q).bind fun r =>
        let a := r.1.act (p.state.view.current.form kind)
        if p.state.Enabled kind a then
          (p.state.perform kind B a).map fun s' =>
            (a, ⟨s', r.2, p.seen ++ s'.view.sight s'.pc.stop⟩)
        else none
  | none =>
      (p.state.tick kind B).map fun s' =>
        (.tick, ⟨s', p.memory, p.seen ++ s'.view.sight s'.pc.stop⟩)

/-- The first `n` steps of the kernel. -/
def steps (scheduler : σ) (m : μ) (n : ℕ) : Option (List Act × Watched (State σ) σ μ) :=
  Labelled.play (fun p (_ : Unit) => P.advance kind B p) (fun _ _ _ => True) (List.replicate n ())
    [] ⟨State.init scheduler, m, []⟩

end Program

/-- The tasks fit in the ready queue when the current one does something. -/
def CommonRoom (fits : σ → ℕ → Prop) (_ : List Next) (p : Watched (Common σ) σ μ) (x : Next) :
    Prop :=
  fits p.state.view.scheduler (p.state.load x)

variable {P : Program μ} {kind : ℕ → Kind} {B : BaseScheduler σ Task} {queue : σ → List Task}
  {I : σ → Prop} {fits : σ → ℕ → Prop} {scheduler : σ} {m m' m₀ : μ} {s s' : State σ}
  {a a' : Common σ} {x : Next} {l : List (View σ)}

theorem Program.kernelStep_iff {p p' : Watched (State σ) σ μ} {c : Act} :
    P.KernelStep kind B p c p' ↔ P.advance kind B p = some (c, p') := by
  constructor
  · rintro (⟨hstop, hmove, he, hperform⟩ | ⟨hstop, htick⟩)
    · simp only [Program.advance, hstop, hmove, Option.bind_some, if_pos he, hperform,
        Option.map_some]
    · simp only [Program.advance, hstop, htick, Option.map_some]
  · intro h
    unfold Program.advance at h
    split at h
    · rename_i q hstop
      obtain ⟨⟨y, n⟩, hmove, hnext⟩ := Option.bind_eq_some_iff.mp h
      simp only at hnext
      split_ifs at hnext with he
      obtain ⟨t, hperform, hpair⟩ := Option.map_eq_some_iff.mp hnext
      obtain ⟨rfl, rfl⟩ := Prod.mk.inj hpair
      exact .stop hstop hmove he hperform
    · rename_i hstop
      obtain ⟨t, htick, hpair⟩ := Option.map_eq_some_iff.mp h
      obtain ⟨rfl, rfl⟩ := Prod.mk.inj hpair
      exact .tick hstop htick

/-- There is one step that the kernel can take. -/
theorem Program.KernelStep.unique {p p' p'' : Watched (State σ) σ μ} {c c' : Act}
    (h : P.KernelStep kind B p c p') (h' : P.KernelStep kind B p c' p'') : c = c' ∧ p' = p'' :=
  Prod.mk.inj (Option.some.inj
    ((Program.kernelStep_iff.mp h).symm.trans (Program.kernelStep_iff.mp h')))

theorem Program.steps_run {n : ℕ} {r : List Act × Watched (State σ) σ μ}
    (h : P.steps kind B scheduler m n = some r) : (P.kernel kind B scheduler m).Run r.1 r.2 :=
  .play (M := P.kernel kind B scheduler m) (fun _ _ _ _ => Program.kernelStep_iff.mpr)
    (.start rfl) h

namespace State

theorem Refines.stop (h : s.Refines kind a) : s.pc.stop = some a.stop := by
  rw [h.pc, Pc.stop_pc]

theorem Refines.form (h : s.Refines kind a) :
    s.view.current.form kind = a.view.current.form kind := by
  rw [h.view]

theorem Refines.holds (h : s.Refines kind a) (o : Op) (f : Form) :
    s.Holds kind (o.act f) ↔ match o with
      | .new n => a.created (.user n) = false
      | .spawn n => a.created (.user n) = true ∧ .user n ∉ a.spawned ∧ 0 < a.handles (.user n)
      | _ => True := by
  cases o with
  | new n =>
      show s.created (.user n) = false ∧ (s.refs (.user n)).strong = 0 ↔ _
      rw [← h.created]
      exact ⟨And.left, fun hnew => ⟨hnew, h.parked.fresh _ hnew⟩⟩
  | spawn n =>
      show s.created (.user n) = true ∧ .user n ∉ s.spawned ∧ 0 < (s.refs (.user n)).handles ↔ _
      rw [h.created, h.spawned, h.handles]
  | _ => exact Iff.rfl

/-- The current task calls its operations in its own form. -/
theorem Refines.mayCall (h : s.Refines kind a) (o : Op) :
    s.MayCall kind (o.act (a.view.current.form kind)) ↔ a.MayCall o := by
  unfold State.MayCall Common.MayCall
  rw [h.holds, h.view]
  refine and_congr (forall_congr' fun hidle => ?_) ((and_iff_right fun hform => ?_).trans Iff.rfl)
  · have hthread : a.view.current.form kind = .thread := by
      refine Task.form_thread ?_
      cases hcurrent : a.view.current with
      | user n => simp [hcurrent, Task.isIdle] at hidle
      | _ => rfl
    rw [hthread]
    cases o <;> simp [Op.act]
  · by_contra hno
    rw [Task.form_thread (by simpa using hno)] at hform
    cases o <;> simp [Op.act, Act.form] at hform

/-- The kernel lets the program do what the common model lets it do. -/
theorem Refines.enabled (h : s.Refines kind a)
    (hmove : P.move a.view m a.stop = some (x, m')) :
    s.Enabled kind (x.act (a.view.current.form kind)) ↔ a.Enabled x := by
  unfold State.Enabled Common.Enabled
  rw [h.pc]
  cases hstop : a.stop with
  | user =>
      obtain ⟨o, rfl⟩ : ∃ o, x = .op o := by
        simp only [Program.move, hstop] at hmove
        split_ifs at hmove
        · exact ⟨_, (Prod.mk.inj (Option.some.inj hmove)).1.symm⟩
        · exact ⟨_, (Prod.mk.inj (Option.some.inj hmove)).1.symm⟩
      have hop : (o.act (a.view.current.form kind)).isOp = true := by cases o <;> rfl
      exact (and_iff_right hop).trans (h.mayCall o)
  | condition w =>
      simp only [Program.move, hstop] at hmove
      split at hmove
      · rename_i n hcond
        obtain ⟨rfl, -⟩ := Prod.mk.inj (Option.some.inj hmove)
        refine iff_of_true ?_ trivial
        show s.Outcome _ w.cond
        rw [hcond]
        trivial
      · rename_i t hcond
        obtain ⟨rfl, -⟩ := Prod.mk.inj (Option.some.inj hmove)
        refine iff_of_true ?_ trivial
        show s.Outcome _ w.cond
        rw [hcond, ← h.view]
        rfl
      · cases hmove
  | notifying q resched exits =>
      simp only [Program.move, hstop] at hmove
      obtain ⟨rfl, -⟩ := Prod.mk.inj (Option.some.inj hmove)
      exact iff_of_true rfl trivial
  | halted =>
      simp [Program.move, hstop] at hmove

end State

/-- Along every run of the common model the tasks are where they belong. -/
theorem Common.Sound.of_run (hB : Keeper B queue I fits) (hI : I scheduler)
    (hempty : queue scheduler = []) {h : List Next} {p : Watched (Common σ) σ μ}
    (hrun : (P.common B scheduler m).RunOf (CommonRoom fits) h p) : p.state.Sound queue I := by
  refine hrun.invariant (I := fun _ p => p.state.Sound queue I) ?_ ?_
  · rintro p rfl
    exact .init hI hempty
  · rintro h p x p' - hsound hfits hstep
    cases hstep with
    | step hmove he hperform =>
        obtain ⟨a', ha', hsound'⟩ := hsound.perform hB he hfits
        obtain rfl := Option.some.inj (ha'.symm.trans hperform)
        exact hsound'

theorem Common.Made.of_run (hB : Honest B queue I) (hI : I scheduler)
    (hempty : queue scheduler = []) {h : List Next} {p : Watched (Common σ) σ μ}
    (hrun : (P.common B scheduler m).Run h p) : p.state.Made queue I := by
  refine hrun.invariant (I := fun _ p => p.state.Made queue I) ?_ ?_
  · rintro p rfl
    exact .init hI hempty
  · rintro h p x p' - hmade - hstep
    cases hstep with
    | step _ he hperform => exact hmade.perform hB he hperform

/-- The kernel follows by itself until it is at the next stop. -/
theorem State.Settles.run {R : State σ → Prop} {h : List Act} (hsettles : s.Settles kind B R)
    (hrun : (P.kernel kind B scheduler m).Run h ⟨s, m', l ++ s.view.sight s.pc.stop⟩) :
    ∃ h' s', (P.kernel kind B scheduler m).Run h' ⟨s', m', l ++ s'.view.sight s'.pc.stop⟩ ∧
      R s' := by
  induction hsettles generalizing h with
  | now hR => exact ⟨h, _, hrun, hR⟩
  | @tick s s' hstop htick _ ih =>
      refine ih (hrun.next trivial (a := .tick) ?_)
      have hsight : l ++ s.view.sight s.pc.stop = l := by simp [hstop, View.sight]
      rw [hsight]
      exact .tick hstop htick

theorem State.Refines.sight (h : s.Refines kind a) :
    s.view.sight s.pc.stop = a.view.sight (some a.stop) := by
  rw [h.stop, h.view]

/-- The step of the kernel that starts what the common model does at once. -/
theorem State.Refines.kernelStep (h : s.Refines kind a)
    (hmove : P.move a.view m a.stop = some (x, m')) (he : a.Enabled x)
    (hperform : s.perform kind B (x.act (a.view.current.form kind)) = some s') :
    P.KernelStep kind B ⟨s, m, l⟩ (x.act (s.view.current.form kind))
      ⟨s', m', l ++ s'.view.sight s'.pc.stop⟩ := by
  refine .stop h.stop (by rwa [h.view]) ?_ ?_
  · rw [h.form]
    exact (h.enabled hmove).mpr he
  · rw [h.form]
    exact hperform

/-- Whatever the common model does, the kernel does with tasks of any kinds. -/
theorem Program.kernel_of_common (hB : Honest B queue I) (hI : I scheduler)
    (hempty : queue scheduler = []) (kind : ℕ → Kind) {h : List Next} {p : Watched (Common σ) σ μ}
    (hrun : (P.common B scheduler m).Run h p) :
    ∃ h' s, (P.kernel kind B scheduler m).Run h' ⟨s, p.memory, p.seen⟩ ∧
      s.Refines kind p.state := by
  induction hrun with
  | start hstart =>
      obtain rfl := hstart
      exact ⟨[], State.init scheduler, .start rfl, .init scheduler⟩
  | next hprev _ hstep ih =>
      obtain ⟨h', s, hkernel, hrefines⟩ := ih
      have hmade := Common.Made.of_run hB hI hempty hprev
      cases hstep with
      | step hmove he hperform =>
          obtain ⟨s', hrun', hsettles⟩ := hrefines.perform hmade he hperform
            (hmade.perform hB he hperform).current
          obtain ⟨h'', s'', hrun'', hrefines''⟩ :=
            hsettles.run (hkernel.next trivial (hrefines.kernelStep hmove he hrun'))
          refine ⟨h'', s'', ?_, hrefines''⟩
          rwa [hrefines''.sight] at hrun''

/-- The kernel is where the common model is, or on its way to where that goes next. -/
inductive Follows (P : Program μ) (kind : ℕ → Kind) (B : BaseScheduler σ Task) :
    Watched (State σ) σ μ → Watched (Common σ) σ μ → Prop
  | there {s : State σ} {a : Common σ} {m : μ} {l : List (View σ)} :
      s.Refines kind a → Follows P kind B ⟨s, m, l⟩ ⟨a, m, l⟩
  | onWay {s : State σ} {a a' : Common σ} {m m' : μ} {l : List (View σ)} {x : Next} :
      s.pc.stop = none → P.move a.view m a.stop = some (x, m') → a.Enabled x →
      a.perform B x = some a' → s.Settles kind B (·.Refines kind a') →
      Follows P kind B ⟨s, m', l⟩ ⟨a, m, l⟩

/-- The kernel has started what the common model does next, and goes on. -/
theorem Follows.settle {g : List Next} (hmove : P.move a.view m' a.stop = some (x, m))
    (he : a.Enabled x) (hperform : a.perform B x = some a')
    (hrun : (P.common B scheduler m₀).Run g ⟨a, m', l⟩)
    (hsettles : s.Settles kind B (·.Refines kind a')) :
    ∃ g' q, (P.common B scheduler m₀).Run g' q ∧
      Follows P kind B ⟨s, m, l ++ s.view.sight s.pc.stop⟩ q := by
  cases hsettles with
  | now hrefines =>
      refine ⟨_, _, hrun.next trivial (.step hmove he hperform), ?_⟩
      rw [hrefines.sight]
      exact .there hrefines
  | tick hstop htick hrest =>
      refine ⟨_, _, hrun, ?_⟩
      have hsight : l ++ s.view.sight s.pc.stop = l := by simp [hstop, View.sight]
      rw [hsight]
      exact .onWay hstop hmove he hperform (.tick hstop htick hrest)

/-- Whatever the kernel does, it follows the common model. -/
theorem Program.common_of_kernel (hB : Honest B queue I) (hI : I scheduler)
    (hempty : queue scheduler = []) {h : List Act} {p : Watched (State σ) σ μ}
    (hrun : (P.kernel kind B scheduler m).Run h p) :
    ∃ g q, (P.common B scheduler m).Run g q ∧ Follows P kind B p q := by
  induction hrun with
  | start hstart =>
      obtain rfl := hstart
      exact ⟨[], _, .start rfl, .there (.init scheduler)⟩
  | next _ _ hstep ih =>
      obtain ⟨g, q, hcommon, hfollows⟩ := ih
      have hmade := Common.Made.of_run hB hI hempty hcommon
      cases hstep with
      | stop hstop hmove he hperform =>
          cases hfollows with
          | onWay hnone =>
              rw [hstop] at hnone
              cases hnone
          | there hrefines =>
              obtain rfl := Option.some.inj (hrefines.stop.symm.trans hstop)
              rw [hrefines.form] at he hperform
              rw [hrefines.view] at hmove
              have he' := (hrefines.enabled hmove).mp he
              obtain ⟨a', ha'⟩ := hrefines.perform_some he' hperform
              obtain ⟨s', hrun', hsettles⟩ := hrefines.perform hmade he' ha'
                (hmade.perform hB he' ha').current
              obtain rfl := Option.some.inj (hrun'.symm.trans hperform)
              exact Follows.settle hmove he' ha' hcommon hsettles
      | tick hstop htick =>
          cases hfollows with
          | there hrefines =>
              rw [hrefines.stop] at hstop
              cases hstop
          | onWay _ hmove he hperform hsettles =>
              cases hsettles with
              | now hrefines =>
                  rw [hrefines.stop] at hstop
                  cases hstop
              | tick _ htick' hrest =>
                  obtain rfl := Option.some.inj (htick'.symm.trans htick)
                  exact Follows.settle hmove he hperform hcommon hrest

/-- As long as the tasks fit in the ready queue, whatever the program does next leads on,
with tasks of any kinds. -/
theorem Program.leads_on (hB : Keeper B queue I fits) (hhonest : Honest B queue I)
    (hI : I scheduler) (hempty : queue scheduler = []) (kind : ℕ → Kind) {h : List Next}
    (hrun : (P.common B scheduler m₀).RunOf (CommonRoom fits) h ⟨a, m, l⟩)
    (hmove : P.move a.view m a.stop = some (x, m')) (he : a.Enabled x)
    (hfits : fits a.view.scheduler (a.load x)) :
    ∃ a' h' s, a.perform B x = some a' ∧ (P.kernel kind B scheduler m₀).Run h'
      ⟨s, m', l ++ a'.view.sight (some a'.stop)⟩ ∧ s.Refines kind a' := by
  obtain ⟨a', hperform, -⟩ := (Common.Sound.of_run hB hI hempty hrun).perform hB he hfits
  have hnext := (hrun.mono fun _ _ _ _ => trivial).next trivial
    (Program.CommonStep.step hmove he hperform)
  obtain ⟨h', s, hkernel, hrefines⟩ := Program.kernel_of_common hhonest hI hempty kind hnext
  exact ⟨a', h', s, hperform, hkernel, hrefines⟩

/-- What two assignments of kinds have in common: whatever one kernel has seen in a run, the
other one sees in a run of the same program, and stands at the same stop. -/
def Alike (P : Program μ) (kind kind' : ℕ → Kind) (B : BaseScheduler σ Task) (start : σ → Prop) :
    Prop :=
  ∀ scheduler, start scheduler → ∀ (m : μ) (h : List Act) (p : Watched (State σ) σ μ),
    (P.kernel kind B scheduler m).Run h p →
    ∃ h' p', (P.kernel kind' B scheduler m).Run h' p' ∧ p'.seen = p.seen ∧
      (p.state.pc.stop ≠ none → p'.state.pc.stop = p.state.pc.stop ∧
        p'.state.view = p.state.view ∧ p'.memory = p.memory)

theorem Alike.of_honest {start : σ → Prop} (hB : Honest B queue I)
    (hstart : ∀ s, start s → I s ∧ queue s = []) (P : Program μ) (kind kind' : ℕ → Kind) :
    Alike P kind kind' B start := by
  intro scheduler hscheduler m h p hrun
  obtain ⟨hI, hempty⟩ := hstart scheduler hscheduler
  obtain ⟨g, q, hcommon, hfollows⟩ := Program.common_of_kernel hB hI hempty hrun
  obtain ⟨h', s', hrun', hrefines'⟩ := Program.kernel_of_common hB hI hempty kind' hcommon
  refine ⟨h', _, hrun', ?_⟩
  cases hfollows with
  | there hrefines =>
      refine ⟨rfl, fun _ => ⟨?_, ?_, rfl⟩⟩
      · exact hrefines'.stop.trans hrefines.stop.symm
      · exact hrefines'.view.trans hrefines.view.symm
  | onWay hnone => exact ⟨rfl, fun hstop => absurd hnone hstop⟩

/-- With each of the three schedulers, threads and coroutines are scheduled alike, whether or
not the tasks fit in the ready queue. -/
theorem tasks_alike {cap : ℕ} (P : Program μ) (kind kind' : ℕ → Kind) (slice : ℕ) (hpos : 1 ≤ cap)
    (hcap : cap < BTreeMap.usize) :
    Alike P kind kind' (Sched.fifo cap) (fun s => s.readyQueue = []) ∧
      Alike P kind kind' (Sched.rr slice cap) (fun s => s.readyQueue = .new) ∧
      Alike P kind kind' (Sched.cfs cap) (fun s => ∃ tasks, s = Sched.CFS.new tasks) := by
  refine ⟨.of_honest Sched.fifo_honest (fun s hs => ⟨trivial, hs⟩) _ _ _,
    .of_honest (Sched.rr_honest slice) (fun s hs => ?_) _ _ _,
    .of_honest (Sched.cfs_honest hcap) ?_ _ _ _⟩
  · have hrest : Deque.Rests cap [] s.readyQueue := by
      rw [hs]
      exact Deque.Inv.init (by omega)
    exact ⟨⟨[], hrest⟩, hrest.items⟩
  · rintro s ⟨tasks, rfl⟩
    have hrest : BTreeMap.Rests cap [] (Sched.CFS.new tasks).readyQueue := BTreeMap.Rests.new
    exact ⟨⟨[], hrest⟩, List.perm_nil.mp (Sched.CFS.queue_perm hrest)⟩

/-- Every task goes through its list of operations; the conditions are false. -/
def Program.ofLists (ops : Task → List Op) : Program (Task → ℕ) where
  next t _ m := ((ops t).getD (m t) .yield, Function.update m t (m t + 1))
  test _ _ m := (false, m)

/-- A wait, a wake-up and two exits, with two threads and with two coroutines. -/
theorem tasks_alike_two :
    let P := Program.ofLists fun t =>
      if t = .main then [.new 0, .new 1, .spawn 0, .spawn 1, .wait (.wait (.user 7))]
      else if t = .user 0 then [.notifyOne (.user 7) false, .exit 3]
      else [.exit 4]
    ∃ h p, (P.kernel (fun _ => .coroutine) (Sched.fifo 4) ⟨[]⟩ fun _ => 0).Run h p ∧
      p.seen.map View.current =
        [.main, .main, .main, .main, .user 0, .user 0, .user 1, .main] := by
  intro P
  let r := (P.steps (fun _ => .thread) (Sched.fifo 4) ⟨[]⟩ (fun _ => 0) 13).get (by decide)
  have hrun : (P.kernel (fun _ => .thread) (Sched.fifo 4) ⟨[]⟩ fun _ => 0).Run r.1 r.2 :=
    Program.steps_run (Option.some_get _).symm
  have hseen : r.2.seen.map View.current =
      [.main, .main, .main, .main, .user 0, .user 0, .user 1, .main] := by decide
  generalize r.1 = h, r.2 = p at hrun hseen
  obtain ⟨h', p', hrun', hsame, -⟩ := (tasks_alike P (fun _ => .thread)
    (fun _ => .coroutine) 5 (by decide) (by norm_num [BTreeMap.usize])).1 ⟨[]⟩ rfl _ h p hrun
  exact ⟨h', p', hrun', by rw [hsame, hseen]⟩

end Kernel
