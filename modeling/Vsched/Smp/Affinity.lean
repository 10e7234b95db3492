import Vsched.Handoff.Bound
import Vsched.Smp.Play
import Vsched.Smp.Tidy

/-!
# The CPUs a task may run on

Every task has a mask of CPUs, which `set_cpumask` replaces. `spawn` and the wake-ups use
the ready queue of the CPU that calls them and do not read the mask. A task stays within its
mask as long as it is spawned and woken there, since nothing else takes it to another CPU.
-/

namespace Smp

open Handoff (Bound Made)

/-- `AxCpuMask`. -/
abbrev CpuMask := Cpu → Bool

def CpuMask.full : CpuMask := fun _ => true

def CpuMask.oneShot (c : Cpu) : CpuMask := fun d => d = c

/-- The tasks with their masks. -/
structure Masked where
  state : State
  cpumask : Task → CpuMask

def Masked.init : Masked := ⟨State.init, fun _ => .full⟩

inductive Label
  | access (a : Cpu × Event)
  | setCpumask (c : Cpu) (t : Task) (mask : CpuMask)

/-- `init_vsched` and `init_vsched_secondary` set the masks of their tasks. -/
def maskAfter (cpumask : Task → CpuMask) (a : Cpu × Event) : Task → CpuMask :=
  match a.2 with
  | .boot m i =>
      Function.update (Function.update cpumask m (.oneShot a.1)) i (.oneShot a.1)
  | _ => cpumask

/-- `spawn` puts the task into the ready queue of the CPU that calls it. -/
def SpawnsHere (a : Cpu × Event) (s' : State) : Prop :=
  match a.2 with
  | .spawn t => t ∈ s'.ready a.1
  | _ => True

instance (a : Cpu × Event) (s' : State) : Decidable (SpawnsHere a s') := by
  unfold SpawnsHere
  split <;> infer_instance

inductive Masked.Step (kind : Task → Kind) : Masked → Label → Masked → Prop
  | access {s : Masked} {a : Cpu × Event} {s' : State} :
      Smp.Step kind s.state a s' → SpawnsHere a s' →
      Masked.Step kind s (.access a) ⟨s', maskAfter s.cpumask a⟩
  | setCpumask {s : Masked} {c : Cpu} {t : Task} {mask : CpuMask} :
      s.state.pc c = .run →
      Masked.Step kind s (.setCpumask c t mask)
        { s with cpumask := Function.update s.cpumask t mask }

/-- The task system with masks, in any order of the steps of the CPUs. -/
def masked (kind : Task → Kind) : Labelled.System Masked Label where
  start := fun s => s = Masked.init
  step := Masked.Step kind

/-- A task is spawned and woken by CPUs of its mask, and it is given no mask without a CPU
that it is bound to. -/
def KeepsMask (_ : List Label) (s : Masked) : Label → Prop
  | .access (c, .spawn t) => s.cpumask t c = true
  | .access (c, .woken t true) => s.cpumask t c = true
  | .setCpumask _ t mask => ∀ d, Bound (view s.state) t d → mask d = true
  | _ => True

variable {kind : Task → Kind} {s s' : State} {a : Cpu × Event} {c d : Cpu} {t : Task}

/-- The coroutine whose poll `coroutine_schedule` has ended. -/
def Pc.polled : Pc → Option Task
  | .afterPoll t => some t
  | .schedBlocked t => some t
  | _ => none

theorem view_off : (view s).role c ≠ .off ↔ s.pc c ≠ .off := not_congr role_off

theorem Step.created_same (hstep : Step kind s a s') (hboot : ∀ m i, a.2 ≠ .boot m i)
    (hspawn : ∀ t, a.2 ≠ .spawn t) : s'.created = s.created := by
  cases hstep with
  | initVsched => exact absurd rfl (hboot _ _)
  | initVschedSecondary => exact absurd rfl (hboot _ _)
  | spawn => exact absurd rfl (hspawn _)
  | _ => rfl

/-- Only a wake-up makes a blocked task ready. -/
theorem Step.unblocks (hstep : Step kind s a s') (hboot : ∀ m i, a.2 ≠ .boot m i)
    (hspawn : ∀ t, a.2 ≠ .spawn t) (hold : s.state t = .blocked) (hnew : s'.state t = .ready) :
    a.2 = .woken t true := by
  have hkept : ∀ (u : Task) (st : Handoff.TaskState), st ≠ .ready →
      Function.update s.state u st t = .ready → False := by
    intro u st hst hupdate
    by_cases htu : t = u
    · subst htu
      exact hst (by simpa using hupdate)
    · rw [Function.update_of_ne htu, hold] at hupdate
      cases hupdate
  cases hstep with
  | initVsched => exact absurd rfl (hboot _ _)
  | initVschedSecondary => exact absurd rfl (hboot _ _)
  | spawn => exact absurd rfl (hspawn _)
  | @yieldCas c _ hrun =>
      have hne : t ≠ s.current c := by
        rintro rfl
        rw [hrun] at hold
        cases hold
      have hsame : s.state t = .ready := by simpa [hne] using hnew
      rw [hold] at hsame
      cases hsame
  | setRunningSame => exact (hkept _ _ (by decide) hnew).elim
  | setRunning => exact (hkept _ _ (by decide) hnew).elim
  | schedBlocked => exact (hkept _ _ (by decide) hnew).elim
  | setBlocked => exact (hkept _ _ (by decide) hnew).elim
  | setExited => exact (hkept _ _ (by decide) hnew).elim
  | @wakeCas c b u _ _ =>
      by_cases htu : t = u
      · rw [htu]
      · have hsame : s.state t = .ready := by simpa [htu] using hnew
        rw [hold] at hsame
        cases hsame
  | _ =>
      rw [show s.state t = .ready from hnew] at hold
      cases hold

theorem Pc.Calm.polled_none {p : Pc} (hp : p.Calm) : p.polled = none := by
  cases p <;> first | rfl | cases hp

theorem polled_none_stay (v : Via) (u : Task) : (v.stay u).polled = none := by
  rcases v with k | k | -
  · cases k <;> rfl
  · cases k with
    | exiting => rfl
    | user => exact (plain_resumeCoroutine .user).calm.polled_none
    | blocked w => exact (plain_resumeCoroutine (.blocked w)).calm.polled_none
  · rfl

/-- A coroutine whose poll ends was the current task. -/
theorem Turn.polls {ev : Event} (hturn : Turn kind s c s' ev) (ht : (s'.pc c).polled = some t) :
    (s.pc c).polled = some t ∨ t = s.current c ∧ ∀ m i, ev ≠ .boot m i := by
  cases hturn with
  | stay hpc =>
      rw [hpc] at ht
      exact .inl ht
  | calm hcalm =>
      rw [hcalm.polled_none] at ht
      cases ht
  | pending hpc _ _ _ hev =>
      rw [hpc] at ht
      refine .inr ⟨(Option.some.inj ht).symm, ?_⟩
      rintro m i rfl
      exact hev
  | same _ hpc =>
      rw [hpc, polled_none_stay] at ht
      cases ht
  | @switch v n _ hpc =>
      rw [hpc] at ht
      cases v with
      | future k => exact .inr ⟨(Option.some.inj ht).symm, by simp⟩
      | thread k => cases ht
      | schedule => cases ht
  | resume _ hpc =>
      rcases hpc with ⟨k, hpc⟩ | hpc <;> rw [hpc] at ht <;> cases ht
  | suspend hold _ hpc =>
      rw [hpc] at ht
      rw [hold]
      exact .inl ht
  | boot _ _ hpc =>
      rw [hpc] at ht
      cases ht
  | resched hpc =>
      rw [hpc] at ht
      cases ht
  | choose _ hpc =>
      rw [hpc] at ht
      cases ht
  | assert _ hpc =>
      rw [hpc] at ht
      cases ht
  | start _ _ hpc =>
      rw [hpc] at ht
      cases ht
  | claim _ hpc =>
      rw [hpc] at ht
      cases ht
  | take _ _ hpc =>
      rw [hpc] at ht
      cases ht
  | suspended _ hpc =>
      rw [hpc] at ht
      cases ht
  | left _ _ hpc =>
      rw [hpc] at ht
      cases ht

/-- `init_vsched` and `init_vsched_secondary`. -/
theorem Step.boots {m i : Task} (hstep : Step kind s a s') (hev : a.2 = .boot m i) :
    Handoff.Step (isIdle kind) (view s) a.1 .boot (view s') ∧ s.created m = false ∧
      s.created i = false ∧ s'.current a.1 = m ∧ s'.idle a.1 = i := by
  cases hstep with
  | @initVsched c m i hoff hm hi _ hki =>
      cases hev
      refine ⟨?_, hm, hi, by simp, by simp⟩
      rw [view_go]
      exact .boot (view_role hoff) hm hi (by rw [isIdle, hki]; rfl)
  | @initVschedSecondary c i hoff hi hki =>
      cases hev
      refine ⟨?_, hi, hi, by simp, by simp⟩
      rw [view_go]
      exact .boot (view_role hoff) hi hi (by rw [isIdle, hki]; rfl)
  | _ => cases hev

theorem Step.spawns {u : Task} (hstep : Step kind s a s') (hev : a.2 = .spawn u) :
    Handoff.Step (isIdle kind) (view s) a.1 .spawn (view s') ∧
      s'.created = Function.update s.created u true := by
  cases hstep with
  | @spawn c d t l l' _ _ hnew hkind hready =>
      cases hev
      refine ⟨.spawn hnew ?_ hready, rfl⟩
      rcases hkind with h | h <;> simp [isIdle, h, Kind.isIdle]
  | _ => cases hev

/-- What may bind a task to a CPU. -/
inductive Seats (c : Cpu) (t : Task) : Event → Prop
  | main {i : Task} : Seats c t (.boot t i)
  | idle {m : Task} : Seats c t (.boot m t)
  | spawn : Seats c t (.spawn t)
  | woken : Seats c t (.woken t true)

/-- Only starting a CPU, spawning and waking bind a task to a CPU, the one that does so. -/
theorem Step.bound (hstep : Step kind s a s') (hown : ∀ d, (s.pc d).Own kind (s.current d))
    (hmade : Made (view s)) (hhere : SpawnsHere a s') (h : Bound (view s') t d) :
    Bound (view s) t d ∨ d = a.1 ∧ Seats d t a.2 := by
  by_cases hboot : ∃ m i, a.2 = .boot m i
  · obtain ⟨m, i, hev⟩ := hboot
    obtain ⟨hmove, -, -, hcurrent, hidle⟩ := hstep.boots hev
    refine (hmove.bound h).imp_right fun hbinds => ?_
    cases hbinds with
    | boot hd hcases =>
        refine ⟨hd, ?_⟩
        rw [hev]
        rcases hcases with ht | ht
        · obtain rfl : t = m := ht.trans hcurrent
          exact .main
        · obtain rfl : t = i := ht.trans hidle
          exact .idle
  by_cases hspawn : ∃ u, a.2 = .spawn u
  · obtain ⟨u, hev⟩ := hspawn
    obtain ⟨hmove, hcreated⟩ := hstep.spawns hev
    refine (hmove.bound h).imp_right fun hbinds => ?_
    cases hbinds with
    | spawn hnew hnow hqueued =>
        have htu : t = u := by
          by_contra htu
          have hold : s'.created t = s.created t := by rw [hcreated, Function.update_of_ne htu]
          rw [show s'.created t = true from hnow, show s.created t = false from hnew] at hold
          cases hold
        subst htu
        have hmem : t ∈ s'.ready a.1 := by
          unfold SpawnsHere at hhere
          rw [hev] at hhere
          exact hhere
        have hd : d = a.1 := by
          refine (hqueued a.1 hmem).resolve_right ?_ |>.symm
          intro hold
          have hon : (view s).role a.1 ≠ .off :=
            view_off.mpr (hstep.on fun m i hb => hboot ⟨m, i, hb⟩)
          rw [hmade.bound t a.1 (.of_ready hon hold)] at hnew
          cases hnew
        rw [hev]
        exact ⟨hd, .spawn⟩
  have hboot' : ∀ m i, a.2 ≠ .boot m i := fun m i hev => hboot ⟨m, i, hev⟩
  have hspawn' : ∀ u, a.2 ≠ .spawn u := fun u hev => hspawn ⟨u, hev⟩
  obtain ⟨m, hmove, -⟩ := hstep.moves_own hown
  refine (hmove.bound h).imp_right fun hbinds => ?_
  cases hbinds with
  | boot => exact absurd hmove.boot_off (view_off.mpr (hstep.on hboot'))
  | spawn hnew hnow =>
      have hold := congrFun (hstep.created_same hboot' hspawn') t
      rw [show s'.created t = true from hnow, show s.created t = false from hnew] at hold
      cases hold
  | wake hd hblocked hready =>
      refine ⟨hd, ?_⟩
      rw [hstep.unblocks hboot' hspawn' hblocked hready]
      exact .woken

/-- The tasks that have been created are where their masks allow. -/
structure Kept (kind : Task → Kind) (s : Masked) : Prop where
  own : ∀ d, (s.state.pc d).Own kind (s.state.current d)
  made : Made (view s.state)
  polled : ∀ d t, (s.state.pc d).polled = some t → s.state.created t = true
  within : ∀ t d, Bound (view s.state) t d → s.cpumask t d = true

theorem Kept.init : Kept kind Masked.init where
  own _ := trivial
  made := ⟨fun _ _ h => absurd rfl h.1, fun t ht => by cases ht⟩
  polled _ _ ht := by cases ht
  within _ _ h := absurd rfl h.1

theorem maskAfter_of_ne {cpumask : Task → CpuMask} (ht : ∀ m i, a.2 = .boot m i → t ≠ m ∧ t ≠ i) :
    maskAfter cpumask a t = cpumask t := by
  obtain ⟨c, ev⟩ := a
  cases ev with
  | boot m i =>
      obtain ⟨htm, hti⟩ := ht m i rfl
      simp [maskAfter, htm, hti]
  | _ => rfl

theorem Step.polled_made {s : Masked} {s' : State} (hs : Kept kind s)
    (hstep : Step kind s.state a s') (ht : (s'.pc d).polled = some t) :
    s.state.created t = true := by
  by_cases hd : d = a.1
  · subst hd
    rcases hstep.turn.polls ht with hold | ⟨rfl, hev⟩
    · exact hs.polled a.1 t hold
    · exact hs.made.bound _ a.1 (.of_current (view_off.mpr (hstep.on hev)))
  · rw [(hstep.others hd).1] at ht
    exact hs.polled d t ht

/-- An access keeps the tasks within their masks if a task is made ready where it may run. -/
theorem Kept.access {s : Masked} {s' : State} (hs : Kept kind s) (hstep : Step kind s.state a s')
    (hhere : SpawnsHere a s') (hkeeps : ∀ h, KeepsMask h s (.access a)) :
    Kept kind ⟨s', maskAfter s.cpumask a⟩ := by
  obtain ⟨m, hmove, -, hreblock⟩ := hstep.moves_own hs.own
  refine ⟨hstep.own hs.own, ?_, ?_, ?_⟩
  · refine hmove.made hs.made fun u hu => hs.polled a.1 u ?_
    rw [hstep.at_suspended (hreblock u hu).1]
    rfl
  · intro d t ht
    exact hmove.created (hstep.polled_made hs ht)
  · intro t d hbound
    rcases hstep.bound hs.own hs.made hhere hbound with hold | ⟨rfl, hseats⟩
    · have ht := hs.made.bound t d hold
      show maskAfter s.cpumask a t d = true
      rw [maskAfter_of_ne]
      · exact hs.within t d hold
      · intro m i hev
        obtain ⟨-, hm, hi, -⟩ := hstep.boots hev
        constructor <;> rintro rfl
        · rw [show s.state.created t = true from ht] at hm
          cases hm
        · rw [show s.state.created t = true from ht] at hi
          cases hi
    · obtain ⟨c, ev⟩ := a
      cases hseats with
      | @main i => by_cases hti : t = i <;> simp [maskAfter, CpuMask.oneShot, hti]
      | @idle m => by_cases htm : t = m <;> simp [maskAfter, CpuMask.oneShot, htm]
      | spawn => exact hkeeps []
      | woken => exact hkeeps []

theorem Kept.setCpumask {s : Masked} {mask : CpuMask} (hs : Kept kind s)
    (hmask : ∀ d, Bound (view s.state) t d → mask d = true) :
    Kept kind { s with cpumask := Function.update s.cpumask t mask } := by
  refine ⟨hs.own, hs.made, hs.polled, ?_⟩
  intro u d hbound
  by_cases hut : u = t
  · subst hut
    simpa using hmask d hbound
  · simpa [hut] using hs.within u d hbound

theorem kept_run {h : List Label} {s : Masked} (hrun : (masked kind).RunOf KeepsMask h s) :
    Kept kind s := by
  refine hrun.invariant (I := fun _ s => Kept kind s) ?_ ?_
  · rintro s rfl
    exact .init
  · intro h s a s' _ hs hkeeps hstep
    cases hstep with
    | access hstep hhere => exact hs.access hstep hhere fun _ => hkeeps
    | setCpumask => exact hs.setCpumask hkeeps

/-- As long as tasks are spawned and woken by CPUs of their masks, and no mask takes a task off
the CPU that has it, every task is queued and runs on CPUs of its mask only. -/
theorem affinity_kept {h : List Label} {s : Masked} (hrun : (masked kind).RunOf KeepsMask h s)
    {c : Cpu} (hon : s.state.pc c ≠ .off) :
    s.cpumask (s.state.current c) c = true ∧
      ∀ t ∈ s.state.ready c, s.cpumask t c = true := by
  have hkept := kept_run hrun
  refine ⟨hkept.within _ c (.of_current (view_off.mpr hon)), fun t ht => ?_⟩
  exact hkept.within t c (.of_ready (view_off.mpr hon) ht)

section Play

variable (kind)

/-- The accesses among the steps as a function. -/
def Masked.perform (s : Masked) (k : Choice) : Option (Label × Masked) :=
  match Smp.perform kind s.state k with
  | none => none
  | some (a, s') =>
      if SpawnsHere a s' then some (.access a, ⟨s', maskAfter s.cpumask a⟩) else none

theorem Masked.perform_step {s s' : Masked} {k : Choice} {l : Label}
    (h : s.perform kind k = some (l, s')) : Masked.Step kind s l s' := by
  unfold Masked.perform at h
  split at h
  · cases h
  · rename_i a r hperform
    split at h
    · rename_i hhere
      obtain ⟨rfl, rfl⟩ : Label.access a = l ∧ ⟨r, maskAfter s.cpumask a⟩ = s' := by simpa using h
      exact .access (perform_iff_step.mp ⟨k, hperform⟩) hhere
    · cases h

/-- The guard where no mask is set. -/
def WakesWithin (s : Masked) : Label → Bool
  | .access (c, .spawn t) => s.cpumask t c
  | .access (c, .woken t true) => s.cpumask t c
  | .setCpumask _ _ _ => false
  | _ => true

theorem WakesWithin.keeps {h : List Label} {s : Masked} {l : Label}
    (hl : WakesWithin s l = true) : KeepsMask h s l := by
  rcases l with ⟨c, ev⟩ | ⟨c, t, mask⟩
  · cases ev with
    | spawn t => exact hl
    | woken t won =>
        cases won with
        | true => exact hl
        | false => trivial
    | _ => trivial
  · cases hl

theorem masked_play {G : List Label → Masked → Label → Prop} [∀ h s l, Decidable (G h s l)]
    {ks : List Choice} {r : List Label × Masked}
    (hplay : Labelled.play (Masked.perform kind) G ks [] Masked.init = some r) :
    (masked kind).RunOf G r.1 r.2 :=
  .play (fun _ _ _ _ hk => Masked.perform_step kind hk) (.start rfl) hplay

end Play

/-- `main` spawns thread 4 and waits; CPU 1 moves it to another queue, where thread 4 looks
for it and wakes it. -/
def wokenAtHome : List Choice :=
  [.init 0 0 1, .initSecondary 1 2, .call 0 (.spawn 0 4 0),
      .call 0 (.wait (.wait (.user 0)))] ++ goes 0 14 ++
    .call 1 (.requeue (.user 0) 3 (.user 1)) :: goes 1 6 ++
    .call 0 (.notify (.user 1) (.task 0)) :: goes 0 7

theorem affinity_kept_home :
    ∃ s : Masked, s.state.pc 0 = .run ∧ s.state.current 0 = 4 ∧ 0 ∈ s.state.ready 0 ∧
      s.cpumask 0 0 = true ∧ s.cpumask 0 1 = false := by
  let r := (Labelled.play (Masked.perform twoCpus) (fun _ s l => WakesWithin s l = true)
    wokenAtHome [] Masked.init).get (by decide)
  have hplayed : (masked twoCpus).RunOf (fun _ s l => WakesWithin s l = true) r.1 r.2 :=
    masked_play _ (Option.some_get _).symm
  have hpc : r.2.state.pc 0 = .run := by decide
  have hcurrent : r.2.state.current 0 = 4 := by decide
  have hready : 0 ∈ r.2.state.ready 0 := by decide
  have hother : r.2.cpumask 0 1 = false := by decide
  generalize r.1 = h, r.2 = s at hplayed hpc hcurrent hready hother
  have hrun : (masked twoCpus).RunOf KeepsMask h s := hplayed.mono fun _ _ _ => WakesWithin.keeps
  have hon : s.state.pc 0 ≠ .off := by simp [hpc]
  exact ⟨s, hpc, hcurrent, hready, (affinity_kept hrun hon).2 0 hready, hother⟩

/-- Both CPUs start, `main` waits on CPU 0 and CPU 1, which runs its own new thread 3, wakes
it. -/
def wokenAway : List Choice :=
  [.init 0 0 1, .initSecondary 1 2, .call 1 (.spawn 1 3 0), .call 1 .yield] ++ goes 1 10 ++
    .call 0 (.wait (.wait (.user 0))) :: goes 0 13 ++
    .call 1 (.notify (.user 0) .one) :: goes 1 7

def pickedAway : List Choice :=
  wokenAway ++ .call 1 .yield :: goes 1 3 ++ .go 1 1 none :: goes 1 4

/-- A wake-up puts `main`, which `init_vsched` binds to CPU 0, into the queue of CPU 1, which
goes on to it. -/
theorem affinity_broken :
    (∃ h s, (masked twoCpus).Run h s ∧ s.state.pc 1 ≠ .off ∧ 0 ∈ s.state.ready 1 ∧
      s.cpumask 0 0 = true ∧ s.cpumask 0 1 = false) ∧
    ∃ h s, (masked twoCpus).Run h s ∧ s.state.pc 1 ≠ .off ∧ s.state.current 1 = 0 ∧
      s.cpumask 0 0 = true ∧ s.cpumask 0 1 = false := by
  let r := (Labelled.play (Masked.perform twoCpus) (fun _ _ _ => True)
    wokenAway [] Masked.init).get (by decide)
  let q := (Labelled.play (Masked.perform twoCpus) (fun _ _ _ => True)
    pickedAway [] Masked.init).get (by decide)
  constructor
  · have hrun : (masked twoCpus).Run r.1 r.2 := masked_play _ (Option.some_get _).symm
    exact ⟨r.1, r.2, hrun, by decide, by decide, by decide, by decide⟩
  · have hrun : (masked twoCpus).Run q.1 q.2 := masked_play _ (Option.some_get _).symm
    exact ⟨q.1, q.2, hrun, by decide, by decide, by decide, by decide⟩

end Smp
