import Vsched.Smp.Wakeup

/-!
# Coroutines that wait, and what a join returns

`wait_until_f` evaluates its condition before it takes the lock of the queue, so
it may block after the last wake-up. `notify_exit` is called when the task is
`Exited` already and stores the exit code after that, so a join may load the code
before it is stored.
-/

namespace Smp

open Handoff (TaskState Placed)

variable {kind : Task → Kind} {h h₀ : History} {s s' s₀ : State} {a : Cpu × Event}
  {c d : Cpu} {t : Task}

/-- The exit of `t` has found no joiner left in the queue. -/
def Emptied (t : Task) (h : History) : Prop :=
  ∃ h₁ h₂ d e, h = h₂ ++ (d, .stored t e) :: h₁ ∧ (d, .popped (.exit t) none) ∈ h₂

/-- No coroutine takes the lock to join `t` after that, and no joiner is requeued. -/
def JoinsBefore (kind : Task → Kind) (t : Task) (h : History) (s : State) (a : Cpu × Event) :
    Prop :=
  ClearsUnheld h s a ∧ Unrequeued (.exit t) h s a ∧ (Emptied t h → ∀ w, s.pc a.1 = .waitLock w →
    w.On (.exit t) (.exited t) → (kind (s.current a.1)).isCoroutine = false)

/-- Where no coroutine takes the lock after `notify_all` has found the queue empty, none
is left blocked in the queue; and where besides `on_cpu` is cleared of tasks only that
no CPU holds, nobody who joins an exited task is left blocked. -/
theorem no_lost_wakeup_f :
    (∀ h₀ s₀ h s d q m b, (machine kind).Run h₀ s₀ → s₀.pc d = .notifyLock q m →
      m.isAll = true → s₀.holds b = true → ((machine kind).after s₀).RunOf (fun h s a =>
        Unrequeued q h s a ∧ Stays kind b h s a ∧
          LocksBefore kind (fun _ => True) d q b h s a) h s →
      (d, .notified q m false) ∈ h →
      ∀ t, t ∈ s.queue q → s.state t = .blocked → ¬ WaitsFor (h ++ h₀) t q b) ∧
    ∀ h₁ h₂ s d t e, (machine kind).RunOf (JoinsBefore kind t) (h₂ ++ (d, .stored t e) :: h₁) s →
      (d, .notified (.exit t) (.exit e) false) ∈ h₂ →
      ∀ u, s.state u = .blocked →
        ¬ WaitsFor (h₂ ++ (d, .stored t e) :: h₁) u (.exit t) (.exited t) := by
  constructor
  · intro h₀ s₀ h s d q m b hrun hcall hm hb hnext hdone t hmem _
    have hphase := (notify_all_clears (G := fun _ _ _ => True) hrun hcall hm hb
      (hnext.mono fun _ _ _ hg => ⟨trivial, hg⟩)).2
    rcases hphase with ⟨-, hnot⟩ | ⟨-, hcleared⟩
    · exact absurd hdone hnot
    · exact hcleared.queue t trivial hmem
  · intro h₁ h₂ s d t e hrun hdone
    obtain ⟨s₁, s₂, hfirst, hstep, hrest⟩ := hrun.split
    obtain ⟨hpc, hcurrent, hcall⟩ := Step.at_stored hstep rfl
    have htidy : (machine kind).RunOf ClearsUnheld h₁ s₁ := hfirst.mono fun _ _ _ hg => hg.1
    have hdead : s₁.state t = .exited := by
      have h := exiting_run (P := fun _ => True) htidy
        (fun _ _ _ _ _ hrun _ => exited_tidy hrun) d e hpc trivial
      rwa [show s₁.current d = t from hcurrent] at h
    have hsecond : (machine kind).RunOf ClearsUnheld ((d, .stored t e) :: h₁) s₂ := by
      refine htidy.next ?_ hstep
      intro u hu
      cases hu
    have hb : s₂.holds (.exited t) = true := by
      simpa [State.holds] using exited_tidy htidy hstep hdead
    have hguard : ((machine kind).after s₂).RunOf (fun h s a =>
        ClearsUnheld (h ++ (d, .stored t e) :: h₁) s a ∧
          Unrequeued (.exit t) h s a ∧ Stays kind (.exited t) h s a ∧
          LocksBefore kind (fun _ => True) d (.exit t) (.exited t) h s a) h₂ s := by
      refine hrest.upgrade ?_
      intro h r a r' hbefore _ hg _
      have hsofar : (machine kind).RunOf ClearsUnheld (h ++ (d, .stored t e) :: h₁) r :=
        hsecond.append (hbefore.mono fun _ _ _ hg => hg.1)
      refine ⟨hg.1, hg.2.1, ?_, ?_⟩
      · intro hr r' hstep
        have hr : r.state t = .exited := by simpa [State.holds] using hr
        simpa [State.holds] using exited_tidy hsofar hstep hr
      · intro hpopped w hw hon hk _
        rw [hg.2.2 ⟨h₁, h, d, e, rfl, hpopped⟩ w hw hon] at hk
        cases hk
    have hphase := (notify_all_clears hsecond hcall rfl hb hguard).2
    rcases hphase with ⟨-, hnot⟩ | ⟨-, hcleared⟩
    · exact absurd hdone hnot
    · intro u hu
      have hplaced : ∀ h s, (machine kind).RunOf (JoinsBefore kind t) h s →
          Placed (isIdle kind) (fun _ => True) (view s) :=
        fun _ _ hr => (tidy_run (hr.mono fun _ _ _ hg => hg.1)).placed
      exact hcleared.not_blocked (waiting_run (P := fun _ => True) hrun
        (fun _ _ _ hg => hg.2.1) hplaced) trivial trivial hu

/-- Task 4 is a coroutine. -/
def withCoroutine : Task → Kind
  | 0 => .main
  | 1 => .idle
  | 2 => .bootIdle
  | 4 => .coroutine
  | _ => .thread

/-- CPU 1 runs thread 3, CPU 0 goes on to the coroutine. -/
def bootCoroutine : List Choice :=
  bootTwo ++ [.call 0 (.spawn 0 4 0), .call 0 .yield] ++ goes 0 2 ++ .go 0 1 none :: goes 0 9

def Pc.atLock : Pc → Bool
  | .waitLock _ => true
  | _ => false

/-- A run in which CPU 1 empties the queue of `q` after all joins have taken the lock. -/
def LocksFirst (q : QueueId) (h : History) (s : State) (a : Cpu × Event) : Prop :=
  MovesOn h s a ∧ Unrequeued q h s a ∧ a.2 ≠ .setFlag 0 false ∧
    ((s.pc a.1).atLock = true → ∀ x ∈ h, x.2 ≠ .popped q none)

instance (q : QueueId) : ∀ h s a, Decidable (LocksFirst q h s a) :=
  fun h s a => inferInstanceAs (Decidable (MovesOn h s a ∧ Unrequeued q h s a ∧
    a.2 ≠ .setFlag 0 false ∧
    ((s.pc a.1).atLock = true → ∀ x ∈ h, x.2 ≠ .popped q none)))

/-- The coroutine blocks for a flag, which CPU 1 then sets. -/
def waitFlag : List Choice :=
  bootCoroutine ++ .call 0 (.wait (.waitUntil (.user 0) (.flag 0))) :: goes 0 16 ++
    [.call 1 (.setFlag 0 true), .call 1 (.notify (.user 0) .all)]

/-- The coroutine blocks before thread 3 exits. -/
def earlyJoin : List Choice :=
  bootCoroutine ++ .call 0 (.wait (.join 3)) :: goes 0 16 ++ .call 1 (.exit 7) :: goes 1 13

theorem joinsBefore_of_locksFirst (hrun : (machine kind).RunOf (LocksFirst (.exit t)) h s) :
    (machine kind).RunOf (JoinsBefore kind t) h s := by
  refine hrun.upgrade ?_
  intro h s a s' hrun _ hfirst hstep
  obtain ⟨htidy, hfilled⟩ := filled_run (hrun.mono fun _ _ _ hg => hg.1)
  refine ⟨htidy.clears hfilled hstep, hfirst.2.1, ?_⟩
  rintro ⟨h₁, h₂, d, e, rfl, hmem⟩ w hw _
  exact absurd rfl (hfirst.2.2.2 (by rw [hw]; rfl) _ (List.mem_append_left _ hmem))

theorem no_lost_wakeup_f_early :
    (∃ (h₀ : History) (s₀ : State) (h : History) (s : State), s₀.state 4 = .blocked ∧
      s.state 4 = .ready ∧
      ∀ t, t ∈ s.queue (.user 0) → s.state t = .blocked →
        ¬ WaitsFor (h ++ h₀) t (.user 0) (.flag 0)) ∧
    ∃ (h : History) (s : State), s.state 4 = .ready ∧
      ∀ u, s.state u = .blocked → ¬ WaitsFor h u (.exit 3) (.exited 3) := by
  let p := (playAll withCoroutine (fun _ _ _ => True) waitFlag).get (by decide)
  let q := (playFrom withCoroutine (LocksFirst (.user 0)) p.2 (goes 1 10)).get (by decide)
  let r := (playAll withCoroutine (LocksFirst (.exit 3)) earlyJoin).get (by decide)
  have hp : (machine withCoroutine).Run p.1 p.2 := playAll_run _ _ (Option.some_get _).symm
  have hq : ((machine withCoroutine).after p.2).RunOf (LocksFirst (.user 0)) q.1 q.2 :=
    playFrom_run _ _ (Option.some_get _).symm
  have hr : (machine withCoroutine).RunOf (LocksFirst (.exit 3))
      (r.1.take 10 ++ (1, .stored 3 7) :: r.1.drop 11) r.2 := by
    rw [show r.1.take 10 ++ (1, .stored 3 7) :: r.1.drop 11 = r.1 by decide]
    exact playAll_run _ _ (Option.some_get _).symm
  constructor
  · refine ⟨p.1, p.2, q.1, q.2, by decide, by decide,
      no_lost_wakeup_f.1 p.1 p.2 q.1 q.2 1 (.user 0) .all (.flag 0) hp (by decide) (by decide)
        (by decide) (hq.mono fun h s a hg => ⟨hg.2.1, stays_flag hg.2.2.1, ?_⟩) (by decide)⟩
    intro hmem w hw
    exact absurd rfl (hg.2.2.2 (by rw [hw]; rfl) _ hmem)
  · exact ⟨_, r.2, by decide,
      no_lost_wakeup_f.2 _ _ _ 1 3 7 (joinsBefore_of_locksFirst hr) (by decide)⟩

/-- The coroutine sees that thread 3 has not exited; the thread exits and notifies its
joiners; the coroutine takes the lock and blocks. -/
def lateJoin : List Choice :=
  bootCoroutine ++ .call 0 (.wait (.join 3)) :: goes 0 1 ++ .call 1 (.exit 7) :: goes 1 6 ++
    goes 0 6

/-- The coroutine is left blocked in the queue. -/
theorem late_join_blocks : ∃ h₁ h₂ s,
    (machine withCoroutine).RunOf MovesOn (h₂ ++ (1, .stored 3 7) :: h₁) s ∧
    (1, .notified (.exit 3) (.exit 7) false) ∈ h₂ ∧ s.state 3 = .exited ∧
    4 ∈ s.queue (.exit 3) ∧ s.state 4 = .blocked ∧
    WaitsFor (h₂ ++ (1, .stored 3 7) :: h₁) 4 (.exit 3) (.exited 3) := by
  let r := (playAll withCoroutine MovesOn lateJoin).get (by decide)
  have hsplit : r.1.take 9 ++ (1, .stored 3 7) :: r.1.drop 10 = r.1 := by decide
  refine ⟨r.1.drop 10, r.1.take 9, r.2, ?_, by decide, by decide, by decide, by decide, ?_⟩
  · rw [hsplit]
    exact playAll_run _ _ (Option.some_get _).symm
  · exact ⟨.join 3, by decide, rfl, rfl⟩

/-- The exit code that has been stored for `t`. -/
def codeOf : History → Task → ℤ
  | [], _ => 0
  | (_, .stored u e) :: h, t => if u = t then e else codeOf h t
  | _ :: h, t => codeOf h t

theorem codeOf_cons {ev : Event} (hev : ∀ e, ev ≠ .stored t e) :
    codeOf ((c, ev) :: h) t = codeOf h t := by
  cases ev with
  | stored u e =>
      have hu : u ≠ t := by
        rintro rfl
        exact hev e rfl
      simp [codeOf, hu]
  | _ => rfl

/-- The exit code that all stores agree on, or none has been made. -/
theorem codeOf_eq {e : ℤ} (hall : ∀ d f, (d, .stored t f) ∈ h → f = e) :
    codeOf h t = e ∨ codeOf h t = 0 ∧ ∀ d f, (d, .stored t f) ∉ h := by
  induction h with
  | nil => exact .inr ⟨rfl, by simp⟩
  | cons a h ih =>
      obtain ⟨c, ev⟩ := a
      by_cases hev : ∃ f, ev = .stored t f
      · obtain ⟨f, rfl⟩ := hev
        left
        rw [← hall c f List.mem_cons_self]
        simp [codeOf]
      · have hne : ∀ f, ev ≠ .stored t f := fun f hf => hev ⟨f, hf⟩
        rw [codeOf_cons hne]
        refine (ih fun d f hmem => hall d f (List.mem_cons_of_mem _ hmem)).imp id ?_
        rintro ⟨hzero, hnone⟩
        refine ⟨hzero, ?_⟩
        intro d f hmem
        rcases List.mem_cons.mp hmem with heq | hmem
        · exact hne f (congrArg Prod.snd heq).symm
        · exact hnone d f hmem

section Codes

variable {G : History → State → Cpu × Event → Prop} (hrun : (machine kind).RunOf G h s)
include hrun

theorem code_run (t : Task) : s.exitCode t = codeOf h t := by
  refine hrun.invariant (I := fun h s => s.exitCode t = codeOf h t) ?_ ?_
  · rintro s rfl
    rfl
  · intro h s a s' _ hs _ hstep
    have hstep : Step kind s a s' := hstep
    cases hstep with
    | @storeExitCode c e hpc =>
        by_cases ht : t = s.current c
        · simp [ht, codeOf]
        · rw [codeOf_cons (by simp [Ne.symm ht])]
          simpa [ht] using hs
    | _ => exact hs

/-- A task stores the exit code it has exited with. -/
theorem stored_run : (∀ c e, s.pc c = .storeExitCode e → (c, .exited (s.current c) e) ∈ h) ∧
    ∀ d t e, (d, .stored t e) ∈ h → (d, .exited t e) ∈ h := by
  refine hrun.invariant (I := fun h s =>
    (∀ c e, s.pc c = .storeExitCode e → (c, .exited (s.current c) e) ∈ h) ∧
      ∀ d t e, (d, .stored t e) ∈ h → (d, .exited t e) ∈ h) ?_ ?_
  · rintro s rfl
    constructor
    · intro c e hc
      cases hc
    · intro d t e hmem
      cases hmem
  · rintro h s ⟨d, ev⟩ s' _ ⟨hpcs, hstored⟩ _ hstep
    constructor
    · intro c e hc
      by_cases hcd : c = d
      · subst hcd
        have hqueueing : Queueing kind s c s' ev := Step.queueing hstep
        cases hqueueing with
        | stay hpc hcurrent =>
            rw [hcurrent]
            exact List.mem_cons_of_mem _ (hpcs c e (hpc ▸ hc))
        | exit _ hpc hcurrent =>
            rw [hpc] at hc
            cases hc
            rw [hcurrent]
            exact List.mem_cons_self
        | _ => simp_all [Pc.Away]
      · obtain ⟨hpc, hcurrent, -⟩ := Step.others hstep hcd
        rw [hcurrent]
        exact List.mem_cons_of_mem _ (hpcs c e (hpc ▸ hc))
    · intro c t e hmem
      rcases List.mem_cons.mp hmem with heq | hmem
      · cases heq
        obtain ⟨hpc, hcurrent, -⟩ := Step.at_stored hstep rfl
        have hexit := hpcs d e hpc
        rw [show s.current d = t from hcurrent] at hexit
        exact List.mem_cons_of_mem _ hexit
      · exact List.mem_cons_of_mem _ (hstored c t e hmem)

theorem joined_run {h₁ h₂ : History} {v : ℤ} (hsplit : h = h₂ ++ (c, .joined t v) :: h₁) :
    v = codeOf h₁ t := by
  rw [hsplit] at hrun
  obtain ⟨s₁, s₂, hfirst, hstep, -⟩ := hrun.split
  rw [← code_run hfirst t]
  have hload : ∀ a, Step kind s₁ a s₂ → a.2 = .joined t v → v = s₁.exitCode t := by
    intro a ha hev
    cases ha <;> cases hev
    rfl
  exact hload _ hstep rfl

end Codes

/-- A join returns the code its target exits with if and only if that is zero or each
join loads it after the store. -/
theorem join_returns {e : ℤ} (hrun : (machine kind).Run h s)
    (hexit : ∀ d f, (d, .exited t f) ∈ h → f = e) :
    (∀ c v, (c, .joined t v) ∈ h → v = e) ↔
      e = 0 ∨ ∀ h₁ h₂ c v, h = h₂ ++ (c, .joined t v) :: h₁ → ∃ d f, (d, .stored t f) ∈ h₁ := by
  have hcode : ∀ h₁ h₂ c v, h = h₂ ++ (c, .joined t v) :: h₁ →
      v = e ∨ v = 0 ∧ ∀ d f, (d, .stored t f) ∉ h₁ := by
    intro h₁ h₂ c v hsplit
    rw [joined_run hrun hsplit]
    refine codeOf_eq ?_
    intro d f hmem
    refine hexit d f ((stored_run hrun).2 d t f ?_)
    rw [hsplit]
    exact List.mem_append_right _ (List.mem_cons_of_mem _ hmem)
  constructor
  · intro hall
    by_cases he : e = 0
    · exact .inl he
    · right
      intro h₁ h₂ c v hsplit
      by_contra hnone
      have hv : v = e := hall c v (by rw [hsplit]; simp)
      rw [joined_run hrun hsplit] at hv
      have hempty : ∀ d f, (d, .stored t f) ∈ h₁ → f = 0 :=
        fun d f hmem => absurd ⟨d, f, hmem⟩ hnone
      rcases codeOf_eq hempty with hzero | ⟨hzero, -⟩ <;> exact he (hv.symm.trans hzero)
  · rintro hwhen c v hmem
    obtain ⟨h₂, h₁, hsplit⟩ := List.append_of_mem hmem
    rcases hcode h₁ h₂ c v hsplit with hv | ⟨hv, hnone⟩
    · exact hv
    · rcases hwhen with he | hstored
      · rw [hv, he]
      · obtain ⟨d, f, hmem⟩ := hstored h₁ h₂ c v hsplit
        exact absurd hmem (hnone d f)

/-- `main` joins thread 3 after it has stored its exit code. -/
def joinLate : List Choice :=
  bootTwo ++ .call 1 (.exit 7) :: goes 1 3 ++ .call 0 (.wait (.join 3)) :: goes 0 5

def Event.exitCode : Event → Option ℤ
  | .exited _ e => some e
  | _ => none

theorem join_returns_late : ∃ h s, (machine twoCpus).Run h s ∧ (0, .joined 3 7) ∈ h ∧
    ((∀ c v, (c, .joined 3 v) ∈ h → v = 7) ↔ (7 : ℤ) = 0 ∨
      ∀ h₁ h₂ c v, h = h₂ ++ (c, .joined 3 v) :: h₁ → ∃ d f, (d, .stored 3 f) ∈ h₁) := by
  let r := (playAll twoCpus (fun _ _ _ => True) joinLate).get (by decide)
  have hrun : (machine twoCpus).Run r.1 r.2 := playAll_run _ _ (Option.some_get _).symm
  have hcodes : r.1.filterMap (fun a => a.2.exitCode) = [7] := by decide
  have hexit : ∀ d f, (d, Event.exited 3 f) ∈ r.1 → f = 7 := by
    intro d f hmem
    have hf : f ∈ r.1.filterMap (fun a => a.2.exitCode) := List.mem_filterMap.mpr ⟨_, hmem, rfl⟩
    rw [hcodes] at hf
    exact List.mem_singleton.mp hf
  exact ⟨r.1, r.2, hrun, by decide, join_returns hrun hexit⟩

/-- `main` joins thread 3 between its exit and its store. -/
def joinEarly : List Choice :=
  bootTwo ++ .call 1 (.exit 7) :: goes 1 2 ++ .call 0 (.wait (.join 3)) :: goes 0 5

theorem join_returns_zero : ∃ h s, (machine twoCpus).RunOf MovesOn h s ∧
    (1, .exited 3 7) ∈ h ∧ (0, .joined 3 0) ∈ h := by
  let r := (playAll twoCpus MovesOn joinEarly).get (by decide)
  exact ⟨r.1, r.2, playAll_run _ _ (Option.some_get _).symm, by decide, by decide⟩

end Smp
