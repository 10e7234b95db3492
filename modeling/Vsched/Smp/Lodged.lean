import Vsched.Smp.Affinity
import Vsched.Smp.Exclusion
import Vsched.Smp.Stacks

/-!
# No two CPUs are on one stack, and a coroutine stack stays with its CPU

The stack a CPU has for coroutines is in its pool, in the local variable of
`coroutine_schedule` or with the coroutine the CPU runs, and goes from one to the other
only. So a CPU needs one such stack, however many coroutines it runs and wherever they
run next. A CPU is on a stack that is its own or that of a task it has, and no other CPU
has that task while flags are cleared only of tasks no CPU holds.
-/

namespace Smp

open Handoff (Hold Held)

namespace Stacked

section Stock

variable (kind : Task → Kind) (s : Stacked) (c : Cpu)

/-- CPU `c` has its stack with coroutine `t`, or is about to set one up for it. -/
def Uses (t : Task) : Prop :=
  s.hand c = .empty ∧ (s.state.pc c).user (s.state.current c) = some t ∧
    (kind t).isCoroutine = true

/-- The coroutine stack of CPU `c` that is not in the pool. -/
def lent : Option ℕ :=
  match s.hand c with
  | .taken a => some a
  | .recycled => none
  | .empty =>
      ((s.state.pc c).user (s.state.current c)).bind fun t =>
        if (kind t).isCoroutine then s.kstack t else none

/-- The coroutine stacks at CPU `c`. -/
def stock : List ℕ := (s.lent kind c).toList ++ s.pool c

end Stock

/-- Who has a stack for good. -/
inductive Host
  | cpu (c : Cpu)
  | task (t : Task)

def Hosts (kind : Task → Kind) (s : Stacked) : Host → ℕ → Prop
  | .cpu c, a => a ∈ s.stock kind c
  | .task t, a => (kind t).isCoroutine = false ∧ s.kstack t = some a

/-- What holds at CPU `c`. -/
structure Local (kind : Task → Kind) (s : Stacked) (c : Cpu) : Prop where
  lent : ∀ t, s.Uses kind c t → s.kstack t ≠ none ∨ (s.state.pc c).sets = some t
  hand : s.hand c ≠ .empty → ∃ t, s.state.pc c = .leave t
  empty : s.hand c = .empty → s.state.pc c ≠ .off →
    s.sp c = s.stackOf ((s.state.pc c).frame (s.state.current c))
  taken : ∀ a, s.hand c = .taken a → s.sp c = .alloc a
  recycled : s.hand c = .recycled →
    (kind (s.state.current c)).isCoroutine = false ∧ ∃ a ∈ s.pool c, s.sp c = .alloc a
  single : (s.stock kind c).length ≤ 1

/-- Every stack has one host, and a coroutine has one while a CPU runs it only. -/
structure Lodged (kind : Task → Kind) (s : Stacked) : Prop where
  kin : ∀ c, (s.state.pc c).Kin kind (s.state.current c) (s.state.prev c)
  here : ∀ c, s.Local kind c
  used : ∀ t a, (kind t).isCoroutine = true → s.kstack t = some a → ∃ c, s.Uses kind c t
  fresh : ∀ t, s.state.created t = false → s.kstack t = none
  kept : ∀ t, s.state.created t = true → kind t = .thread → s.kstack t ≠ none
  unique : ∀ x y a, s.Hosts kind x a → s.Hosts kind y a → x = y
  bound : ∀ x a, s.Hosts kind x a → a < s.allocated

variable {kind : Task → Kind} {s s' : Stacked} {c d : Cpu} {t : Task} {l : Label}

theorem Uses.lent (hu : s.Uses kind c t) : s.lent kind c = s.kstack t := by
  obtain ⟨hhand, huser, hcoroutine⟩ := hu
  simp [Stacked.lent, hhand, huser, hcoroutine]

theorem lent_taken {a : ℕ} (hhand : s.hand c = .taken a) : s.lent kind c = some a := by
  simp [Stacked.lent, hhand]

theorem lent_recycled (hhand : s.hand c = .recycled) : s.lent kind c = none := by
  simp [Stacked.lent, hhand]

/-- Where the CPU's stack is for no coroutine. -/
theorem lent_idle (hhand : s.hand c = .empty)
    (hnot : ∀ t, (s.state.pc c).user (s.state.current c) = some t → (kind t).isCoroutine = false) :
    s.lent kind c = none := by
  simp only [Stacked.lent, hhand]
  cases huser : (s.state.pc c).user (s.state.current c) with
  | none => rfl
  | some t => simp [hnot t huser]

theorem Uses.held (hl : Lodged kind s) (hu : s.Uses kind c t) : Held (view s.state) c t :=
  held_user (hl.kin c) hu.2.1

/-- A step touches what belongs to its own CPU. -/
theorem Step.others (hstep : Stacked.Step kind s (c, l) s') (hd : d ≠ c) :
    s'.state.pc d = s.state.pc d ∧ s'.state.current d = s.state.current d ∧
      s'.hand d = s.hand d ∧ s'.pool d = s.pool d ∧ s'.sp d = s.sp d := by
  have hmade : ∀ ev : Event, (s.made kind c ev).hand = s.hand ∧ (s.made kind c ev).pool = s.pool ∧
      (s.made kind c ev).sp d = s.sp d := by
    intro ev
    cases ev <;> simp only [made] <;> (try split) <;> simp [giveNew, hd]
  cases hstep with
  | @access _ ev s' hstep =>
      obtain ⟨hpc, hcurrent, -⟩ := hstep.others hd
      exact ⟨hpc, hcurrent, congrFun (hmade ev).1 d, congrFun (hmade ev).2.1 d, (hmade ev).2.2⟩
  | reuse => simp [hd]
  | alloc => simp [giveNew]
  | switchTo _ hstep =>
      obtain ⟨hpc, hcurrent, -⟩ := hstep.others hd
      exact ⟨hpc, hcurrent, rfl, rfl, by simp [hd]⟩
  | take => simp [hd]
  | give _ _ _ hstep =>
      obtain ⟨hpc, hcurrent, -⟩ := hstep.others hd
      exact ⟨hpc, hcurrent, by simp [hd], rfl, rfl⟩
  | recycle => simp [hd]
  | leave _ _ hstep =>
      obtain ⟨hpc, hcurrent, -⟩ := hstep.others hd
      exact ⟨hpc, hcurrent, by simp [hd], rfl, by simp [hd]⟩

/-- `set_kstack` is for a task that its CPU has claimed. -/
theorem held_sets {s : State} {n : Task} (hn : (s.pc c).sets = some n) : Held (view s) c n := by
  cases hpc : s.pc c with
  | replace v m =>
      cases v with
      | thread k =>
          obtain rfl : m = n := by simpa [hpc, Pc.sets] using hn
          exact ⟨by simp [view, hpc, Pc.role], .inr (.inr (by simp [view, hpc, Pc.role]))⟩
      | _ => simp [hpc, Pc.sets] at hn
  | _ => simp [hpc, Pc.sets] at hn

theorem held_current {s : State} (hon : s.pc c ≠ .off) : Held (view s) c (s.current c) :=
  ⟨fun hoff => hon (role_off.mp hoff), .inl rfl⟩

/-- A step gives and takes the stacks of new tasks and of tasks its CPU has. -/
theorem Lodged.kstack (hl : Lodged kind s) (hstep : Stacked.Step kind s (c, l) s') (t : Task) :
    s'.kstack t = s.kstack t ∨ s.state.created t = false ∨ Held (view s.state) c t := by
  have hupdate : ∀ {u : Task} {x : Option ℕ},
      s.state.created u = false ∨ Held (view s.state) c u →
      Function.update s.kstack u x t = s.kstack t ∨ s.state.created t = false ∨
        Held (view s.state) c t := by
    intro u x hu
    by_cases htu : t = u
    · subst htu
      exact .inr hu
    · exact .inl (Function.update_of_ne htu _ _)
  cases hstep with
  | @access _ ev s' hstep =>
      cases ev with
      | boot m i =>
          simp only [made]
          split
          · exact hupdate (.inl (hstep.boots rfl).2.2.1)
          · exact .inl rfl
      | spawn u =>
          simp only [made]
          split
          · refine hupdate (.inl ?_)
            cases hstep with
            | spawn _ _ hnew => exact hnew
          · exact .inl rfl
      | _ => exact .inl rfl
  | reuse hn => exact hupdate (.inr (held_sets hn))
  | alloc hn => exact hupdate (.inr (held_sets hn))
  | switchTo => exact .inl rfl
  | @take _ u _ hpc =>
      refine hupdate (.inr ?_)
      have hheld := held_frame (hl.kin c) (by simp [hpc])
      rwa [hpc] at hheld
  | give hpc => exact hupdate (.inr (held_current (by simp [hpc])))
  | recycle => exact .inl rfl
  | leave => exact .inl rfl

/-- The stack of a task that another CPU has stays. -/
theorem Lodged.kstack_held (hl : Lodged kind s) (htidy : Tidy kind s.state)
    (hstep : Stacked.Step kind s (c, l) s') (hd : d ≠ c) (ht : Held (view s.state) d t) :
    s'.kstack t = s.kstack t := by
  rcases hl.kstack hstep t with hsame | hnew | hheld
  · exact hsame
  · rw [show s.state.created t = true from htidy.hold.made d t ht] at hnew
    cases hnew
  · exact absurd (htidy.hold.one d c t ht hheld) hd

section Others

variable (hl : Lodged kind s) (htidy : Tidy kind s.state)
  (hstep : Stacked.Step kind s (c, l) s') (hd : d ≠ c)

include hstep hd in
theorem Step.uses : s'.Uses kind d t ↔ s.Uses kind d t := by
  obtain ⟨hpc, hcurrent, hhand, -⟩ := hstep.others hd
  simp only [Uses, hpc, hcurrent, hhand]

include hl htidy hstep hd

theorem Lodged.lent_others : s'.lent kind d = s.lent kind d := by
  obtain ⟨hpc, hcurrent, hhand, -⟩ := hstep.others hd
  simp only [Stacked.lent, hpc, hcurrent, hhand]
  split
  · rfl
  · rfl
  · cases huser : (s.state.pc d).user (s.state.current d) with
    | none => rfl
    | some t =>
        have hsame := hl.kstack_held htidy hstep hd (held_user (hl.kin d) huser)
        simp [hsame]

theorem Lodged.stock_others : s'.stock kind d = s.stock kind d := by
  rw [stock, stock, hl.lent_others htidy hstep hd, (hstep.others hd).2.2.2.1]

theorem Lodged.local_others : s'.Local kind d := by
  obtain ⟨hpc, hcurrent, hhand, hpool, hsp⟩ := hstep.others hd
  have hlocal := hl.here d
  refine ⟨fun t ht => ?_, ?_, fun hempty hon => ?_, ?_, ?_, ?_⟩
  · have hu : s.Uses kind d t := (hstep.uses hd).mp ht
    rw [hpc, hl.kstack_held htidy hstep hd (hu.held hl)]
    exact hlocal.lent t hu
  · rw [hhand, hpc]
    exact hlocal.hand
  · rw [hpc] at hon
    rw [hsp, hpc, hcurrent, hlocal.empty (hhand ▸ hempty) hon, stackOf, stackOf,
      hl.kstack_held htidy hstep hd (held_frame (hl.kin d) hon)]
  · rw [hhand, hsp]
    exact hlocal.taken
  · rw [hhand, hcurrent, hpool, hsp]
    exact hlocal.recycled
  · rw [hl.stock_others htidy hstep hd]
    exact hlocal.single

end Others

/-- What a step of CPU `c` does to the hosts of the stacks. -/
inductive Effect (kind : Task → Kind) (s : Stacked) (c : Cpu) (s' : Stacked) : Label → Prop
  | keep {l : Label} :
      l ≠ .alloc → s'.stock kind c = s.stock kind c →
      (∀ t, (kind t).isCoroutine = false → s'.kstack t = s.kstack t) →
      s'.allocated = s.allocated → Effect kind s c s' l
  | alloc :
      s.stock kind c = [] → s'.stock kind c = [s.allocated] →
      (∀ t, (kind t).isCoroutine = false → s'.kstack t = s.kstack t) →
      s'.allocated = s.allocated + 1 → Effect kind s c s' .alloc
  /-- A thread or an idle task is made. -/
  | new {l : Label} {t : Task} :
      l ≠ .alloc → s'.stock kind c = s.stock kind c →
      s'.kstack = Function.update s.kstack t (some s.allocated) →
      s'.allocated = s.allocated + 1 → Effect kind s c s' l

/-- Every stack stays with its host, but for a new one that is given to one of them. -/
theorem Effect.hosts (heffect : Effect kind s c s' l)
    (hothers : ∀ d, d ≠ c → s'.stock kind d = s.stock kind d) :
    (∀ x a, s'.Hosts kind x a → s.Hosts kind x a) ∧ s'.allocated = s.allocated ∨
      ∃ y, (∀ x a, s'.Hosts kind x a → s.Hosts kind x a ∨ x = y ∧ a = s.allocated) ∧
        s'.allocated = s.allocated + 1 := by
  have hcpu : s'.stock kind c = s.stock kind c → ∀ d, s'.stock kind d = s.stock kind d := by
    intro hc d
    by_cases hd : d = c
    · exact hd ▸ hc
    · exact hothers d hd
  cases heffect with
  | keep _ hstock hkstack halloc =>
      refine .inl ⟨fun x a hx => ?_, halloc⟩
      cases x with
      | cpu d => exact (congrArg (a ∈ ·) (hcpu hstock d)).mp hx
      | task t => exact ⟨hx.1, (hkstack t hx.1).symm.trans hx.2⟩
  | alloc _ hstock hkstack halloc =>
      refine .inr ⟨.cpu c, fun x a hx => ?_, halloc⟩
      cases x with
      | cpu d =>
          by_cases hd : d = c
          · subst hd
            have ha : a ∈ s'.stock kind d := hx
            rw [hstock, List.mem_singleton] at ha
            exact .inr ⟨rfl, ha⟩
          · exact .inl ((congrArg (a ∈ ·) (hothers d hd)).mp hx)
      | task t => exact .inl ⟨hx.1, (hkstack t hx.1).symm.trans hx.2⟩
  | @new _ u _ hstock hkstack halloc =>
      refine .inr ⟨.task u, fun x a hx => ?_, halloc⟩
      cases x with
      | cpu d => exact .inl ((congrArg (a ∈ ·) (hcpu hstock d)).mp hx)
      | task t =>
          obtain ⟨hkind, ha⟩ := hx
          rw [hkstack] at ha
          by_cases htu : t = u
          · subst htu
            rw [Function.update_self] at ha
            exact .inr ⟨rfl, (Option.some.inj ha).symm⟩
          · rw [Function.update_of_ne htu] at ha
            exact .inl ⟨hkind, ha⟩

/-- A step of CPU `c` is looked at there only. -/
theorem Lodged.step_of (hl : Lodged kind s) (htidy : Tidy kind s.state)
    (hstep : Stacked.Step kind s (c, l) s')
    (hkin : ∀ d, (s'.state.pc d).Kin kind (s'.state.current d) (s'.state.prev d))
    (hlocal : s'.Local kind c) (heffect : Effect kind s c s' l)
    (hused : ∀ t a, (kind t).isCoroutine = true → s'.kstack t = some a →
      s.kstack t = some a ∧ ¬ s.Uses kind c t ∨ s'.Uses kind c t)
    (hfresh : ∀ t, s'.state.created t = false → s'.kstack t = none)
    (hkept : ∀ t, s'.state.created t = true → kind t = .thread → s'.kstack t ≠ none) :
    Lodged kind s' ∧ Effect kind s c s' l := by
  have hothers : ∀ d, d ≠ c → s'.stock kind d = s.stock kind d :=
    fun d hd => hl.stock_others htidy hstep hd
  have hhosts := heffect.hosts hothers
  refine ⟨⟨hkin, fun d => ?_, fun t a ht ha => ?_, hfresh, hkept, fun x y a hx hy => ?_,
    fun x a hx => ?_⟩, heffect⟩
  · by_cases hd : d = c
    · exact hd ▸ hlocal
    · exact hl.local_others htidy hstep hd
  · rcases hused t a ht ha with ⟨hold, hnot⟩ | hu
    · obtain ⟨d, hd⟩ := hl.used t a ht hold
      have hdc : d ≠ c := fun hdc => hnot (hdc ▸ hd)
      exact ⟨d, (hstep.uses hdc).mpr hd⟩
    · exact ⟨c, hu⟩
  · rcases hhosts with ⟨hsub, -⟩ | ⟨z, hsub, -⟩
    · exact hl.unique x y a (hsub x a hx) (hsub y a hy)
    · rcases hsub x a hx with hx | ⟨rfl, rfl⟩ <;> rcases hsub y _ hy with hy | ⟨rfl, ha⟩
      · exact hl.unique x y a hx hy
      · exact absurd (hl.bound x a hx) (by omega)
      · exact absurd (hl.bound y _ hy) (by omega)
      · rfl
  · rcases hhosts with ⟨hsub, halloc⟩ | ⟨z, hsub, halloc⟩
    · rw [halloc]
      exact hl.bound x a (hsub x a hx)
    · rw [halloc]
      rcases hsub x a hx with hx | ⟨-, rfl⟩
      · exact Nat.lt_succ_of_lt (hl.bound x a hx)
      · exact Nat.lt_succ_self _

section Steps

variable (hl : Lodged kind s) (htidy : Tidy kind s.state)

include hl in
theorem Lodged.hand_empty (hpc : ∀ t, s.state.pc c ≠ .leave t) : s.hand c = .empty := by
  by_contra hhand
  obtain ⟨t, ht⟩ := (hl.here c).hand hhand
  exact hpc t ht

include hl htidy

/-- Only coroutines are without a stack. -/
theorem Lodged.unserved {n : Task} (hn : Held (view s.state) c n) (hserved : ¬ s.Served kind n) :
    (kind n).isCoroutine = true ∧ s.kstack n = none := by
  have hnone : s.kstack n = none := by
    by_contra hsome
    exact hserved (.inl hsome)
  have hmade : s.state.created n = true := htidy.hold.made c n hn
  refine ⟨?_, hnone⟩
  cases hk : kind n with
  | main => exact absurd (.inr (.inl (by rw [hk]; rfl))) hserved
  | idle => exact absurd (.inr (.inr (by rw [hk]; rfl))) hserved
  | bootIdle => exact absurd (.inr (.inl (by rw [hk]; rfl))) hserved
  | thread => exact absurd hnone (hl.kept n hmade hk)
  | coroutine => rfl

/-- A coroutine with a stack that CPU `c` has is the one the CPU has its stack with. -/
theorem Lodged.uses_of_held {n : Task} {a : ℕ} (hn : Held (view s.state) c n)
    (hcoroutine : (kind n).isCoroutine = true) (ha : s.kstack n = some a) : s.Uses kind c n := by
  obtain ⟨d, hd⟩ := hl.used n a hcoroutine ha
  obtain rfl : d = c := htidy.hold.one d c n (hd.held hl) hn
  exact hd

/-- `set_kstack` with a stack from the pool or with a new one. -/
theorem Lodged.setKstack {n : Task} {b : ℕ} {p : List ℕ} (hstep : Stacked.Step kind s (c, l) s')
    (hown : (s.state.pc c).Own kind (s.state.current c)) (hn : (s.state.pc c).sets = some n)
    (hserved : ¬ s.Served kind n) (hstate : s'.state = s.state) (hhand' : s'.hand = s.hand)
    (hsp : s'.sp = s.sp) (hkstack : s'.kstack = Function.update s.kstack n (some b))
    (hpool : s'.pool c = p)
    (hfrom : l ≠ .alloc ∧ s.pool c = b :: p ∧ s'.allocated = s.allocated ∨
      l = .alloc ∧ s.pool c = [] ∧ p = [] ∧ b = s.allocated ∧
        s'.allocated = s.allocated + 1) :
    Lodged kind s' ∧ Effect kind s c s' l := by
  have hheld := held_sets hn
  obtain ⟨hcoroutine, hnone⟩ := hl.unserved htidy hheld hserved
  obtain ⟨k, hpc⟩ : ∃ k, s.state.pc c = .replace (.thread k) n := by
    unfold Pc.sets at hn
    split at hn
    next v u hpc => exact ⟨v, by rw [hpc, Option.some.inj hn]⟩
    next => cases hn
  have hhand := hl.hand_empty (c := c) (by simp [hpc])
  have hne : s.state.current c ≠ n := by
    rw [hpc] at hown
    exact hown.2.symm
  have hu : s.Uses kind c n := ⟨hhand, by rw [hpc]; rfl, hcoroutine⟩
  have hsame : ∀ t, s'.Uses kind c t ↔ s.Uses kind c t := fun t => by
    simp only [Uses, hstate, hhand']
  have honly : ∀ t, s.Uses kind c t → t = n := fun t ht =>
    Option.some.inj (ht.2.1.symm.trans hu.2.1)
  have hown' : s'.kstack n = some b := by simp [hkstack]
  have hother : ∀ t, t ≠ n → s'.kstack t = s.kstack t := fun t ht => by simp [hkstack, ht]
  have hthreads : ∀ t, (kind t).isCoroutine = false → s'.kstack t = s.kstack t := by
    intro t ht
    refine hother t fun htn => ?_
    rw [htn, hcoroutine] at ht
    cases ht
  have hold : s.stock kind c = s.pool c := by simp [stock, hu.lent, hnone]
  have hnew : s'.stock kind c = b :: p := by
    simp [stock, ((hsame n).mpr hu).lent, hown', hpool]
  refine hl.step_of htidy hstep (hstate ▸ hl.kin) ⟨fun t ht => ?_, ?_, fun _ hon => ?_,
    fun a ha => ?_, fun ha => ?_, ?_⟩ ?_ (fun t a _ ha => ?_) (fun t ht => ?_) fun t ht hk => ?_
  · exact .inl (by simp [honly t ((hsame t).mp ht), hown'])
  · rw [hhand', hstate]
    exact (hl.here c).hand
  · rw [hstate] at hon
    have hframe := (hl.here c).empty hhand hon
    rw [hsp, hframe, hstate, hpc]
    simp [Pc.frame, stackOf, hother _ hne]
  · rw [hhand', hhand] at ha
    cases ha
  · rw [hhand', hhand] at ha
    cases ha
  · rw [hnew]
    rcases hfrom with ⟨-, hfull, -⟩ | ⟨-, -, rfl, -⟩
    · have hsingle := (hl.here c).single
      rwa [hold, hfull] at hsingle
    · exact le_rfl
  · rcases hfrom with ⟨hlabel, hfull, halloc⟩ | ⟨rfl, hempty, rfl, rfl, halloc⟩
    · exact .keep hlabel (by rw [hnew, hold, hfull]) hthreads halloc
    · exact .alloc (hold.trans hempty) hnew hthreads halloc
  · by_cases htn : t = n
    · exact .inr (htn ▸ (hsame n).mpr hu)
    · exact .inl ⟨(hother t htn).symm.trans ha, fun hu => htn (honly t hu)⟩
  · rw [hstate] at ht
    have htn : t ≠ n := by
      rintro rfl
      rw [show s.state.created t = true from htidy.hold.made c t hheld] at ht
      cases ht
    exact (hother t htn).trans (hl.fresh t ht)
  · rw [hthreads t (by rw [hk]; rfl)]
    exact hl.kept t (hstate ▸ ht) hk

/-- `coroutine_schedule` takes the stack of the coroutine it has polled. -/
theorem Lodged.take {a : ℕ} (hstep : Stacked.Step kind s (c, .take) s')
    (hpc : s.state.pc c = .leave t) (hhand : s.hand c = .empty) (ha : s.kstack t = some a)
    (hstate : s'.state = s.state) (hhand' : s'.hand c = .taken a) (hsp : s'.sp = s.sp)
    (hkstack : s'.kstack = Function.update s.kstack t none) (hpool : s'.pool = s.pool)
    (halloc : s'.allocated = s.allocated) : Lodged kind s' ∧ Effect kind s c s' .take := by
  have hkin := hl.kin c
  rw [hpc] at hkin
  have hu : s.Uses kind c t := ⟨hhand, by rw [hpc]; rfl, hkin.1⟩
  have honly : ∀ u, s.Uses kind c u → u = t := fun u hu' =>
    Option.some.inj (hu'.2.1.symm.trans hu.2.1)
  have hother : ∀ u, u ≠ t → s'.kstack u = s.kstack u := fun u hut => by simp [hkstack, hut]
  have hthreads : ∀ u, (kind u).isCoroutine = false → s'.kstack u = s.kstack u := by
    intro u hu
    refine hother u fun hut => ?_
    rw [hut, hkin.1] at hu
    cases hu
  have hstock : s'.stock kind c = s.stock kind c := by
    simp [stock, hu.lent, ha, lent_taken hhand', hpool]
  refine hl.step_of htidy hstep (hstate ▸ hl.kin) ⟨fun u hu' => ?_, fun _ => ?_, fun he => ?_,
    fun b hb => ?_, fun he => ?_, ?_⟩ (.keep (by simp) hstock hthreads halloc) (fun u b _ hb => ?_)
    (fun u hu' => ?_) fun u hu' hk => ?_
  · rw [Uses, hhand'] at hu'
    cases hu'.1
  · exact ⟨t, by rw [hstate, hpc]⟩
  · rw [hhand'] at he
    cases he
  · obtain rfl : a = b := by simpa [hhand'] using hb
    rw [hsp, (hl.here c).empty hhand (by simp [hpc]), hpc]
    simp [Pc.frame, stackOf, ha]
  · rw [hhand'] at he
    cases he
  · rw [hstock]
    exact (hl.here c).single
  · have hut : u ≠ t := by
      rintro rfl
      simp [hkstack] at hb
    exact .inl ⟨(hother u hut).symm.trans hb, fun hu' => hut (honly u hu')⟩
  · by_cases hut : u = t
    · simp [hkstack, hut]
    · rw [hother u hut]
      exact hl.fresh u (hstate ▸ hu')
  · rw [hthreads u (by rw [hk]; rfl)]
    exact hl.kept u (hstate ▸ hu') hk

/-- The loop of `coroutine_schedule` goes on with the next coroutine. -/
theorem Lodged.give {a : ℕ} {ev : Event} (hstep : Stacked.Step kind s (c, .access ev) s')
    (hpc : s.state.pc c = .leave t) (hhand : s.hand c = .taken a)
    (hserved : ¬ s.Served kind (s.state.current c))
    (haccess : Smp.Step kind s.state (c, ev) s'.state)
    (hhand' : s'.hand c = .empty) (hsp : s'.sp = s.sp)
    (hkstack : s'.kstack = Function.update s.kstack (s.state.current c) (some a))
    (hpool : s'.pool = s.pool) (halloc : s'.allocated = s.allocated) :
    Lodged kind s' ∧ Effect kind s c s' (.access ev) := by
  have hheld : Held (view s.state) c (s.state.current c) := held_current (by simp [hpc])
  obtain ⟨hcoroutine, hnone⟩ := hl.unserved htidy hheld hserved
  obtain ⟨hcurrent, huser, hframe, hleft, hcreated⟩ := haccess.leaves hpc
  have hu : s'.Uses kind c (s.state.current c) := ⟨hhand', by rw [hcurrent, huser], hcoroutine⟩
  have hgiven : s'.kstack (s.state.current c) = some a := by simp [hkstack]
  have hother : ∀ u, u ≠ s.state.current c → s'.kstack u = s.kstack u :=
    fun u hne => by simp [hkstack, hne]
  have hthreads : ∀ u, (kind u).isCoroutine = false → s'.kstack u = s.kstack u := by
    intro u hu
    refine hother u fun hne => ?_
    rw [hne, hcoroutine] at hu
    cases hu
  have hstock : s'.stock kind c = s.stock kind c := by
    simp [stock, hu.lent, hgiven, lent_taken hhand, hpool]
  refine hl.step_of htidy hstep (htidy.kin_step haccess hl.kin) ⟨fun u hu' => ?_, fun he => ?_,
    fun _ _ => ?_, fun b hb => ?_, fun he => ?_, ?_⟩ (.keep (by simp) hstock hthreads halloc)
    (fun u b _ hb => ?_) (fun u hu' => ?_) fun u hu' hk => ?_
  · obtain rfl : s.state.current c = u := Option.some.inj (hu.2.1.symm.trans hu'.2.1)
    exact .inl (by simp [hgiven])
  · exact absurd hhand' he
  · rw [hcurrent, hframe, hsp, (hl.here c).taken a hhand, stackOf, hgiven]
  · rw [hhand'] at hb
    cases hb
  · rw [hhand'] at he
    cases he
  · rw [hstock]
    exact (hl.here c).single
  · by_cases hne : u = s.state.current c
    · exact .inr (hne ▸ hu)
    · refine .inl ⟨(hother u hne).symm.trans hb, fun hold => ?_⟩
      rw [Uses, hhand] at hold
      cases hold.1
  · rw [hcreated] at hu'
    have hne : u ≠ s.state.current c := by
      rintro rfl
      rw [show s.state.created _ = true from htidy.hold.made c _ hheld] at hu'
      cases hu'
    rw [hother u hne]
    exact hl.fresh u hu'
  · rw [hthreads u (by rw [hk]; rfl)]
    exact hl.kept u (hcreated ▸ hu') hk

/-- `coroutine_schedule` puts the stack into the pool while it is still on it. -/
theorem Lodged.recycle {a : ℕ} (hstep : Stacked.Step kind s (c, .recycle) s')
    (hpc : s.state.pc c = .leave t) (hhand : s.hand c = .taken a)
    (hserved : s.Served kind (s.state.current c)) (hstate : s'.state = s.state)
    (hhand' : s'.hand c = .recycled) (hsp : s'.sp = s.sp) (hkstack : s'.kstack = s.kstack)
    (hpool : s'.pool c = a :: s.pool c) (halloc : s'.allocated = s.allocated) :
    Lodged kind s' ∧ Effect kind s c s' .recycle := by
  have hheld : Held (view s.state) c (s.state.current c) := held_current (by simp [hpc])
  have hnot : ∀ {u : Task}, ¬ s.Uses kind c u := by
    rintro u hu
    rw [Uses, hhand] at hu
    cases hu.1
  have hthread : (kind (s.state.current c)).isCoroutine = false := by
    by_contra hcoroutine
    rw [Bool.not_eq_false] at hcoroutine
    have hsome : s.kstack (s.state.current c) ≠ none := by
      refine hserved.resolve_right ?_
      cases hk : kind (s.state.current c) <;> rw [hk] at hcoroutine <;> simp_all [Kind.isCoroutine,
        Kind.isInit, Kind.isIdle]
    obtain ⟨b, hb⟩ := Option.ne_none_iff_exists'.mp hsome
    exact hnot (hl.uses_of_held htidy hheld hcoroutine hb)
  have hstock : s'.stock kind c = s.stock kind c := by
    simp [stock, lent_recycled hhand', lent_taken hhand, hpool]
  refine hl.step_of htidy hstep (hstate ▸ hl.kin) ⟨fun u hu => ?_, fun _ => ?_, fun he => ?_,
    fun b hb => ?_, fun _ => ⟨?_, ?_⟩, ?_⟩ (.keep (by simp) hstock
      (fun _ _ => by rw [hkstack]) halloc)
    (fun u b _ hb => .inl ⟨hkstack ▸ hb, hnot⟩) (fun u hu => ?_) fun u hu hk => ?_
  · rw [Uses, hhand'] at hu
    cases hu.1
  · exact ⟨t, by rw [hstate, hpc]⟩
  · rw [hhand'] at he
    cases he
  · rw [hhand'] at hb
    cases hb
  · rw [hstate]
    exact hthread
  · exact ⟨a, by simp [hpool], by rw [hsp, (hl.here c).taken a hhand]⟩
  · rw [hstock]
    exact (hl.here c).single
  · rw [hkstack]
    exact hl.fresh u (hstate ▸ hu)
  · rw [hkstack]
    exact hl.kept u (hstate ▸ hu) hk

/-- `coroutine_schedule` loads the context of the next task. -/
theorem Lodged.leave {ev : Event} (hstep : Stacked.Step kind s (c, .access ev) s')
    (hpc : s.state.pc c = .leave t) (hhand : s.hand c = .recycled)
    (haccess : Smp.Step kind s.state (c, ev) s'.state) (hhand' : s'.hand c = .empty)
    (hsp : s'.sp c = s.stackOf (s.state.current c)) (hkstack : s'.kstack = s.kstack)
    (hpool : s'.pool = s.pool) (halloc : s'.allocated = s.allocated) :
    Lodged kind s' ∧ Effect kind s c s' (.access ev) := by
  obtain ⟨hcurrent, huser, hframe, -, hcreated⟩ := haccess.leaves hpc
  have hthread := ((hl.here c).recycled hhand).1
  have hnot : ∀ {u : Task}, ¬ s'.Uses kind c u := by
    rintro u ⟨-, hu, hcoroutine⟩
    obtain rfl : s.state.current c = u := by simpa [hcurrent, huser] using hu
    rw [hthread] at hcoroutine
    cases hcoroutine
  have hlent : s'.lent kind c = none := by
    refine lent_idle hhand' fun u hu => ?_
    obtain rfl : s.state.current c = u := by simpa [hcurrent, huser] using hu
    exact hthread
  have hstock : s'.stock kind c = s.stock kind c := by
    simp [stock, hlent, lent_recycled hhand, hpool]
  refine hl.step_of htidy hstep (htidy.kin_step haccess hl.kin) ⟨fun u hu => absurd hu hnot,
    fun he => absurd hhand' he, fun _ _ => ?_, fun b hb => ?_, fun he => ?_, ?_⟩
    (.keep (by simp) hstock (fun _ _ => by rw [hkstack]) halloc)
      (fun u b _ hb => .inl ⟨hkstack ▸ hb, ?_⟩)
    (fun u hu => ?_) fun u hu hk => ?_
  · rw [hcurrent, hframe, hsp, stackOf, stackOf, hkstack]
  · rw [hhand'] at hb
    cases hb
  · rw [hhand'] at he
    cases he
  · rw [hstock]
    exact (hl.here c).single
  · rw [Uses, hhand]
    rintro ⟨hempty, -⟩
    cases hempty
  · rw [hkstack]
    exact hl.fresh u (hcreated ▸ hu)
  · rw [hkstack]
    exact hl.kept u (hcreated ▸ hu) hk

/-- A stack is made with a new task, or none is. -/
inductive Grown (kind : Task → Kind) (s s' : Stacked) : Prop
  | same : s'.kstack = s.kstack → s'.allocated = s.allocated → Grown kind s s'
  | new {u : Task} :
      s.state.created u = false → (kind u).isCoroutine = false →
      s'.kstack = Function.update s.kstack u (some s.allocated) →
      s'.allocated = s.allocated + 1 → Grown kind s s'

omit hl htidy in
theorem Grown.coroutine (hgrown : Grown kind s s') (ht : (kind t).isCoroutine = true) :
    s'.kstack t = s.kstack t := by
  cases hgrown with
  | same hkstack => rw [hkstack]
  | @new u _ hu hkstack =>
      have htu : t ≠ u := by
        rintro rfl
        rw [ht] at hu
        cases hu
      rw [hkstack, Function.update_of_ne htu]

omit hl in
theorem Grown.held (hgrown : Grown kind s s') (ht : Held (view s.state) c t) :
    s'.kstack t = s.kstack t := by
  cases hgrown with
  | same hkstack => rw [hkstack]
  | @new u hu _ hkstack =>
      have htu : t ≠ u := by
        rintro rfl
        rw [show s.state.created t = true from htidy.hold.made c t ht] at hu
        cases hu
      rw [hkstack, Function.update_of_ne htu]

/-- An access that leaves the coroutine stack of its CPU where it is. -/
theorem Lodged.access_of {ev : Event} (hstep : Stacked.Step kind s (c, .access ev) s')
    (haccess : Smp.Step kind s.state (c, ev) s'.state) (hleave : ∀ t, s.state.pc c ≠ .leave t)
    (hhand' : s'.hand = s.hand) (hpool : s'.pool = s.pool) (hgrown : Grown kind s s')
    (hlent : s'.lent kind c = s.lent kind c)
    (huses : ∀ t, s'.Uses kind c t → s'.kstack t ≠ none ∨ (s'.state.pc c).sets = some t)
    (hused : ∀ t, s.Uses kind c t → s'.Uses kind c t)
    (hsp : s'.state.pc c ≠ .off →
      s'.sp c = s'.stackOf ((s'.state.pc c).frame (s'.state.current c)))
    (hfresh : ∀ t, s'.state.created t = false → s'.kstack t = none)
    (hkept : ∀ t, s'.state.created t = true → kind t = .thread → s'.kstack t ≠ none) :
    Lodged kind s' ∧ Effect kind s c s' (.access ev) := by
  have hhand : s'.hand c = .empty := by rw [hhand', hl.hand_empty hleave]
  have hstock : s'.stock kind c = s.stock kind c := by rw [stock, stock, hlent, hpool]
  refine hl.step_of htidy hstep (htidy.kin_step haccess hl.kin) ⟨huses, fun he => absurd hhand he,
    fun _ => hsp, fun a ha => ?_, fun ha => ?_, ?_⟩ ?_ (fun t a ht ha => ?_) hfresh hkept
  · rw [hhand] at ha
    cases ha
  · rw [hhand] at ha
    cases ha
  · rw [hstock]
    exact (hl.here c).single
  · cases hgrown with
    | same hkstack halloc => exact .keep (by simp) hstock (fun _ _ => by rw [hkstack]) halloc
    | new _ _ hkstack halloc => exact .new (by simp) hstock hkstack halloc
  · rw [hgrown.coroutine ht] at ha
    by_cases hu : s.Uses kind c t
    · exact .inr (hused t hu)
    · exact .inl ⟨ha, hu⟩

/-- An access after which the CPU is on the same stack, for the same task. -/
theorem Lodged.access_same {ev : Event} (hstep : Stacked.Step kind s (c, .access ev) s')
    (haccess : Smp.Step kind s.state (c, ev) s'.state) (hleave : ∀ t, s.state.pc c ≠ .leave t)
    (hhand' : s'.hand = s.hand) (hpool : s'.pool = s.pool) (hgrown : Grown kind s s')
    (huser : (s'.state.pc c).user (s'.state.current c) = (s.state.pc c).user (s.state.current c))
    (hserved : ∀ n, (s.state.pc c).sets = some n → s.Served kind n)
    (hsp : s'.state.pc c ≠ .off →
      s'.sp c = s'.stackOf ((s'.state.pc c).frame (s'.state.current c)))
    (hfresh : ∀ t, s'.state.created t = false → s'.kstack t = none)
    (hkept : ∀ t, s'.state.created t = true → kind t = .thread → s'.kstack t ≠ none) :
    Lodged kind s' ∧ Effect kind s c s' (.access ev) := by
  have hsame : ∀ t, s'.Uses kind c t ↔ s.Uses kind c t := fun t => by
    simp only [Uses, huser, hhand']
  refine hl.access_of htidy hstep haccess hleave hhand' hpool hgrown ?_ (fun t ht => ?_)
    (fun t ht => (hsame t).mpr ht) hsp hfresh hkept
  · have hstack : (fun t => if (kind t).isCoroutine then s'.kstack t else none) =
        fun t => if (kind t).isCoroutine then s.kstack t else none := by
      funext t
      split
      next hcoroutine => exact hgrown.coroutine hcoroutine
      next => rfl
    simp only [Stacked.lent, huser, hhand', hstack]
  · have hu : s.Uses kind c t := (hsame t).mp ht
    have hcoroutine := hu.2.2
    rw [hgrown.coroutine hcoroutine]
    rcases (hl.here c).lent t hu with hsome | hsets
    · exact .inl hsome
    · refine .inl ((hserved t hsets).resolve_right ?_)
      cases hk : kind t <;> rw [hk] at hcoroutine <;> simp_all [Kind.isCoroutine, Kind.isInit,
        Kind.isIdle]

/-- The CPU claims the thread or coroutine it is about to switch to. -/
theorem Lodged.claim {ev : Event} {k : Kont} {n : Task}
    (hstep : Stacked.Step kind s (c, .access ev) s')
    (haccess : Smp.Step kind s.state (c, ev) s'.state)
    (hpc : s.state.pc c = .setOnCpu (.thread k) n)
    (hown : (s.state.pc c).Own kind (s.state.current c)) (hhand' : s'.hand = s.hand)
    (hpool : s'.pool = s.pool) (hsp : s'.sp = s.sp) (hkstack : s'.kstack = s.kstack)
    (halloc : s'.allocated = s.allocated) : Lodged kind s' ∧ Effect kind s c s' (.access ev) := by
  have hkin := hl.kin c
  rw [hpc] at hkin hown
  have hhand := hl.hand_empty (c := c) (by simp [hpc])
  obtain ⟨hpc', hcurrent, hcreated⟩ : s'.state.pc c = .replace (.thread k) n ∧
      s'.state.current c = s.state.current c ∧ s'.state.created = s.state.created := by
    generalize s'.state = r at haccess
    cases haccess with
    | setOnCpu hold =>
        rw [hpc] at hold
        cases hold
        exact ⟨by simp, rfl, rfl⟩
    | _ hold =>
        rw [hpc] at hold
        cases hold
  -- The task claimed is in no CPU's hands, so it has no coroutine stack.
  have hnone : (kind n).isCoroutine = true → s.kstack n = none := by
    intro hcoroutine
    by_contra hsome
    obtain ⟨a, ha⟩ := Option.ne_none_iff_exists'.mp hsome
    obtain ⟨d, hd⟩ := hl.used n a hcoroutine ha
    have hrole : (view s.state).role c = .starting n := view_role hpc
    obtain rfl : d = c := htidy.hold.near n (.started c) d (.inl hrole) (by simp) (hd.held hl)
    have huser := hd.2.1
    rw [hpc] at huser
    exact hown.2 (Option.some.inj huser).symm
  have hbefore : s.lent kind c = none := by
    refine lent_idle hhand fun t ht => ?_
    rw [hpc] at ht
    exact Option.some.inj ht ▸ hkin
  have hafter : s'.lent kind c = none := by
    by_cases hcoroutine : (kind n).isCoroutine = true
    · have hu : s'.Uses kind c n := ⟨hhand' ▸ hhand, by rw [hpc']; rfl, hcoroutine⟩
      rw [hu.lent, hkstack, hnone hcoroutine]
    · refine lent_idle (hhand' ▸ hhand) fun t ht => ?_
      rw [hpc'] at ht
      exact Option.some.inj ht ▸ Bool.eq_false_of_not_eq_true hcoroutine
  refine hl.access_of htidy hstep haccess (by simp [hpc]) hhand' hpool (.same hkstack halloc)
    (hafter.trans hbefore.symm) (fun t ht => .inr ?_) (fun t ht => ?_) (fun _ => ?_) ?_ ?_
  · have huser := ht.2.1
    rw [hpc'] at huser ⊢
    exact huser
  · obtain ⟨-, huser, hcoroutine⟩ := ht
    rw [hpc] at huser
    obtain rfl : s.state.current c = t := Option.some.inj huser
    rw [show (kind (s.state.current c)).isCoroutine = false from hkin] at hcoroutine
    cases hcoroutine
  · have hframe := (hl.here c).empty hhand (by simp [hpc])
    rw [hpc] at hframe
    rw [hsp, hframe, hpc', hcurrent]
    simp [Pc.frame, stackOf, hkstack]
  · rw [hcreated, hkstack]
    exact hl.fresh
  · rw [hcreated, hkstack]
    exact hl.kept

/-- `switch_to` loads the context of the next task. -/
theorem Lodged.switchTo {ev : Event} {old : Task} {k : Kont}
    (hstep : Stacked.Step kind s (c, .access ev) s')
    (haccess : Smp.Step kind s.state (c, ev) s'.state) (hpc : s.state.pc c = .switchTo old k)
    (hhand' : s'.hand = s.hand) (hpool : s'.pool = s.pool)
    (hsp : s'.sp c = s.stackOf (s.state.current c)) (hkstack : s'.kstack = s.kstack)
    (halloc : s'.allocated = s.allocated) : Lodged kind s' ∧ Effect kind s c s' (.access ev) := by
  obtain ⟨hcurrent, hcreated, hframe, huser⟩ : s'.state.current c = s.state.current c ∧
      s'.state.created = s.state.created ∧
      (s'.state.pc c).frame (s.state.current c) = s.state.current c ∧
      (s'.state.pc c).user (s.state.current c) = some (s.state.current c) := by
    generalize s'.state = r at haccess
    cases haccess with
    | switchTo =>
        simp only [State.go_pc, Function.update_self]
        refine ⟨rfl, rfl, ?_⟩
        split
        · exact ⟨rfl, rfl⟩
        · exact ⟨frame_resumeContext _, user_resumeContext _⟩
    | _ hold =>
        rw [hpc] at hold
        cases hold
  refine hl.access_same htidy hstep haccess (by simp [hpc]) hhand' hpool (.same hkstack halloc)
    ?_ (fun n hn => ?_) (fun _ => ?_) ?_ ?_
  · rw [hcurrent, huser, hpc]
    rfl
  · rw [hpc] at hn
    cases hn
  · rw [hcurrent, hframe, hsp, stackOf, stackOf, hkstack]
  · rw [hcreated, hkstack]
    exact hl.fresh
  · rw [hcreated, hkstack]
    exact hl.kept

omit hl htidy in
theorem not_user (u : Task) (hu : (kind u).isInit = true ∨ (kind u).isIdle = true) :
    (kind u).isCoroutine = false ∧ kind u ≠ .thread := by
  cases hk : kind u <;> simp_all [Kind.isInit, Kind.isIdle, Kind.isCoroutine]

/-- `init_vsched` and `init_vsched_secondary`. -/
theorem Lodged.boot {m i : Task} (haccess : Smp.Step kind s.state (c, .boot m i) s'.state)
    (hstep : Stacked.Step kind s (c, .access (.boot m i)) s')
    (hs' : s' = { s.made kind c (.boot m i) with state := s'.state }) :
    Lodged kind s' ∧ Effect kind s c s' (.access (.boot m i)) := by
  obtain ⟨hoff, hpc, hcurrent, hm, hi, hinit, hidle, hcreated, hne⟩ :
      s.state.pc c = .off ∧ s'.state.pc c = .run ∧ s'.state.current c = m ∧
        s.state.created m = false ∧ s.state.created i = false ∧ (kind m).isInit = true ∧
        (kind i).isIdle = true ∧
        s'.state.created = Function.update (Function.update s.state.created i true) m true ∧
        (kind i = .idle → i ≠ m) := by
    generalize s'.state = r at haccess
    cases haccess with
    | initVsched hoff hm hi hkm hki =>
        refine ⟨hoff, by simp, by simp, hm, hi, by rw [hkm]; rfl, by rw [hki]; rfl, rfl, ?_⟩
        rintro - rfl
        rw [hki] at hkm
        cases hkm
    | initVschedSecondary hoff hi hki =>
        refine ⟨hoff, by simp, by simp, hi, hi, by rw [hki]; rfl, by rw [hki]; rfl, rfl, ?_⟩
        rw [hki]
        rintro ⟨⟩
  have hhand := hl.hand_empty (c := c) (by simp [hoff])
  obtain ⟨hhand', hpool, hsp, hgrown, hstack⟩ : s'.hand = s.hand ∧ s'.pool = s.pool ∧
      s'.sp c = .boot m ∧ Grown kind s s' ∧
      ∀ u, s'.kstack u = s.kstack u ∨ u = i ∧ kind i = .idle := by
    rw [hs']
    simp only [made]
    split
    next hk =>
      refine ⟨rfl, rfl, by simp [giveNew], .new hi (not_user i (.inr hidle)).1 rfl rfl, fun u => ?_⟩
      by_cases hu : u = i
      · exact .inr ⟨hu, hk⟩
      · exact .inl (Function.update_of_ne hu _ _)
    next => exact ⟨rfl, rfl, by simp, .same rfl rfl, fun _ => .inl rfl⟩
  have hmain : s'.kstack m = none := by
    rcases hstack m with hsame | ⟨rfl, hk⟩
    · rw [hsame]
      exact hl.fresh m hm
    · exact absurd rfl (hne hk)
  have hnot : ∀ t, (s'.state.pc c).user (s'.state.current c) = some t →
      (kind t).isCoroutine = false := by
    intro t ht
    rw [hpc, hcurrent] at ht
    exact Option.some.inj ht ▸ (not_user m (.inl hinit)).1
  have hbefore : s.lent kind c = none :=
    lent_idle hhand fun t ht => by simp [hoff, Pc.user] at ht
  refine hl.access_of htidy hstep haccess (by simp [hoff]) hhand' hpool hgrown
    ((lent_idle (hhand' ▸ hhand) hnot).trans hbefore.symm) (fun t ht => ?_) (fun t ht => ?_)
    (fun _ => ?_) (fun t ht => ?_) fun t ht hk => ?_
  · exact absurd ht.2.2 (by rw [hnot t ht.2.1]; simp)
  · have huser := ht.2.1
    simp [hoff, Pc.user] at huser
  · rw [hsp, hpc, hcurrent]
    simp [Pc.frame, stackOf, hmain]
  · have htm : t ≠ m := by
      rintro rfl
      simp [hcreated] at ht
    have hti : t ≠ i := by
      rintro rfl
      simp [hcreated, htm] at ht
    rw [(hstack t).resolve_right fun h => hti h.1]
    exact hl.fresh t (by simpa [hcreated, htm, hti] using ht)
  · have htm : t ≠ m := by
      rintro rfl
      exact (not_user t (.inl hinit)).2 hk
    have hti : t ≠ i := by
      rintro rfl
      exact (not_user t (.inr hidle)).2 hk
    rw [(hstack t).resolve_right fun h => hti h.1]
    exact hl.kept t (by simpa [hcreated, htm, hti] using ht) hk

/-- A thread is spawned with its stack, a coroutine without one. -/
theorem Lodged.spawn {u : Task} (haccess : Smp.Step kind s.state (c, .spawn u) s'.state)
    (hstep : Stacked.Step kind s (c, .access (.spawn u)) s')
    (hs' : s' = { s.made kind c (.spawn u) with state := s'.state }) :
    Lodged kind s' ∧ Effect kind s c s' (.access (.spawn u)) := by
  obtain ⟨hrun, hpc, hcurrent, hnew, hcreated⟩ : s.state.pc c = .run ∧
      s'.state.pc = s.state.pc ∧ s'.state.current = s.state.current ∧
      s.state.created u = false ∧ s'.state.created = Function.update s.state.created u true := by
    generalize s'.state = r at haccess
    cases haccess with
    | spawn hpc _ hnew => exact ⟨hpc, rfl, rfl, hnew, rfl⟩
  obtain ⟨hhand', hpool, hsp, hgrown, hstack⟩ : s'.hand = s.hand ∧ s'.pool = s.pool ∧
      s'.sp = s.sp ∧ Grown kind s s' ∧
      ∀ t, (t ≠ u → s'.kstack t = s.kstack t) ∧
        (t = u → kind t = .thread → s'.kstack t ≠ none) := by
    rw [hs']
    simp only [made]
    split
    next hk =>
      refine ⟨rfl, rfl, rfl, .new hnew (by rw [hk]; rfl) rfl rfl, fun t => ⟨fun ht => ?_, ?_⟩⟩
      · exact Function.update_of_ne ht _ _
      · rintro rfl -
        simp [giveNew]
    next hk =>
      refine ⟨rfl, rfl, rfl, .same rfl rfl, fun t => ⟨fun _ => rfl, ?_⟩⟩
      rintro rfl ht
      exact absurd ht hk
  have hon : s.state.pc c ≠ .off := by simp [hrun]
  refine hl.access_same htidy hstep haccess (by simp [hrun]) hhand' hpool hgrown
    (by rw [hpc, hcurrent]) (fun n hn => ?_) (fun _ => ?_) (fun t ht => ?_) fun t ht hk => ?_
  · rw [hrun] at hn
    cases hn
  · have hframe := (hl.here c).empty (hl.hand_empty (by simp [hrun])) hon
    rw [hsp, hframe, hpc, hcurrent, stackOf, stackOf,
      hgrown.held htidy (held_frame (hl.kin c) hon)]
  · have htu : t ≠ u := by
      rintro rfl
      simp [hcreated] at ht
    rw [(hstack t).1 htu]
    exact hl.fresh t (by simpa [hcreated, htu] using ht)
  · by_cases htu : t = u
    · exact (hstack t).2 htu hk
    · rw [(hstack t).1 htu]
      exact hl.kept t (by simpa [hcreated, htu] using ht) hk

/-- Every other access leaves the stacks as they are. -/
theorem Lodged.access {ev : Event} (haccess : Smp.Step kind s.state (c, ev) s'.state)
    (hstep : Stacked.Step kind s (c, .access ev) s') (hloads : (s.state.pc c).loads = false)
    (hboot : ∀ m i, ev ≠ .boot m i) (hspawn : ∀ t, ev ≠ .spawn t)
    (hclaim : ∀ k n, s.state.pc c ≠ .setOnCpu (.thread k) n)
    (hserved : ∀ n, (s.state.pc c).sets = some n → s.Served kind n)
    (hs' : s' = { s with state := s'.state }) :
    Lodged kind s' ∧ Effect kind s c s' (.access ev) := by
  have hleave : ∀ t, s.state.pc c ≠ .leave t := by
    intro t ht
    rw [ht] at hloads
    cases hloads
  have hcreated := haccess.created_same hboot hspawn
  have hon := haccess.on hboot
  have hkstack : s'.kstack = s.kstack := by rw [hs']
  refine hl.access_same htidy hstep haccess hleave (by rw [hs']) (by rw [hs'])
    (.same hkstack (by rw [hs'])) (haccess.user hboot hleave hclaim (hl.kin c)) hserved
    (fun _ => ?_) ?_ ?_
  · have hframe := haccess.frame hboot hloads (hl.kin c)
    rw [show s'.state.current c = s'.state.current (c, ev).1 from rfl, hframe, stackOf, hkstack,
      hs']
    exact (hl.here c).empty (hl.hand_empty hleave) hon
  · rw [hcreated, hkstack]
    exact hl.fresh
  · rw [hcreated, hkstack]
    exact hl.kept

theorem Lodged.step (hown : ∀ d, (s.state.pc d).Own kind (s.state.current d))
    (hstep : Stacked.Step kind s (c, l) s') : Lodged kind s' ∧ Effect kind s c s' l := by
  have hwhole := hstep
  cases hstep with
  | @access _ ev r haccess hloads hserved =>
      cases ev with
      | boot m i => exact hl.boot htidy haccess hwhole rfl
      | spawn u => exact hl.spawn htidy haccess hwhole rfl
      | _ =>
          by_cases hclaim : ∃ k n, s.state.pc c = .setOnCpu (.thread k) n
          · obtain ⟨k, n, hpc⟩ := hclaim
            exact hl.claim htidy hwhole haccess hpc (hown c) rfl rfl rfl rfl rfl
          · exact hl.access htidy haccess hwhole hloads (by simp) (by simp)
              (fun k n hpc => hclaim ⟨k, n, hpc⟩) hserved rfl
  | reuse hn hserved hpool =>
      exact hl.setKstack htidy hwhole (hown c) hn hserved rfl rfl rfl rfl (by simp)
        (.inl ⟨by simp, hpool, rfl⟩)
  | alloc hn hserved hpool =>
      exact hl.setKstack htidy hwhole (hown c) hn hserved rfl rfl rfl rfl rfl
        (.inr ⟨rfl, hpool, hpool, rfl, rfl⟩)
  | switchTo hpc haccess =>
      exact hl.switchTo htidy hwhole haccess hpc rfl rfl (by simp) rfl rfl
  | take hpc hhand ha =>
      exact hl.take htidy hwhole hpc hhand ha rfl (by simp) rfl rfl rfl rfl
  | give hpc hhand hserved haccess =>
      exact hl.give htidy hwhole hpc hhand hserved haccess (by simp) rfl rfl rfl rfl
  | recycle hpc hhand hserved =>
      exact hl.recycle htidy hwhole hpc hhand hserved rfl (by simp) rfl rfl (by simp) rfl
  | leave hpc hhand haccess =>
      exact hl.leave htidy hwhole hpc hhand haccess (by simp) (by simp) rfl rfl rfl

end Steps

theorem Lodged.init : Lodged kind Stacked.init where
  kin _ := trivial
  here c := by
    refine ⟨fun t hu => ?_, fun he => absurd rfl he, fun _ hon => absurd rfl hon, fun a ha => ?_,
      fun ha => ?_, Nat.zero_le _⟩
    · cases hu.2.1
    · cases ha
    · cases ha
  used _ _ _ h := by cases h
  fresh _ _ := rfl
  kept _ h := by cases h
  unique x _ a hx := by
    cases x with
    | cpu c => cases hx
    | task t => cases hx.2
  bound x a hx := by
    cases x with
    | cpu c => cases hx
    | task t => cases hx.2

variable {h : List (Cpu × Label)}

/-- The accesses are a run of the task system. -/
theorem accesses_of {G : List (Cpu × Label) → Stacked → Cpu × Label → Prop}
    {G' : History → State → Cpu × Event → Prop} (hrun : (stacked kind).RunOf G h s)
    (hguard : ∀ h s c ev, G h s (c, .access ev) → G' (accesses h) s.state (c, ev)) :
    (machine kind).RunOf G' (accesses h) s.state := by
  refine hrun.invariant (I := fun h s => (machine kind).RunOf G' (accesses h) s.state) ?_ ?_
  · rintro s rfl
    exact .start rfl
  · rintro h s ⟨c, l⟩ s' _ hs hg hstep
    cases hstep with
    | access haccess => exact hs.next (hguard _ _ _ _ hg) haccess
    | switchTo _ haccess => exact hs.next (hguard _ _ _ _ hg) haccess
    | give _ _ _ haccess => exact hs.next (hguard _ _ _ _ hg) haccess
    | leave _ _ haccess => exact hs.next (hguard _ _ _ _ hg) haccess
    | _ => exact hs

theorem accesses_run (hrun : (stacked kind).RunOf ClearsUnheld h s) :
    (machine kind).RunOf Smp.ClearsUnheld (accesses h) s.state :=
  accesses_of hrun fun _ _ _ _ hclears => hclears

/-- Where the accesses move on, the flags cleared are those of tasks no CPU holds. -/
theorem clears_run (hrun : (stacked kind).RunOf MovesOn h s) :
    (stacked kind).RunOf ClearsUnheld h s := by
  refine hrun.upgrade ?_
  rintro h s ⟨c, l⟩ s' hrun _ _ hstep
  obtain ⟨htidy, hfilled⟩ := filled_run (accesses_of hrun fun _ _ _ _ hmoves => hmoves)
  cases hstep with
  | access haccess => exact htidy.clears (h := []) hfilled haccess
  | switchTo _ haccess => exact htidy.clears (h := []) hfilled haccess
  | give _ _ _ haccess => exact htidy.clears (h := []) hfilled haccess
  | leave _ _ haccess => exact htidy.clears (h := []) hfilled haccess
  | _ => trivial

theorem lodged_run (hrun : (stacked kind).RunOf ClearsUnheld h s) : Lodged kind s := by
  refine hrun.invariant (I := fun _ s => Lodged kind s) ?_ ?_
  · rintro s rfl
    exact .init
  · rintro h s ⟨c, l⟩ s' hrun hl _ hstep
    have hbase := accesses_run hrun
    exact (hl.step (tidy_run hbase) (own_run hbase) hstep).1

/-- CPU `c` is on its own coroutine stack, or on the stack of a thread or an init task that it
has. -/
theorem Lodged.on (hl : Lodged kind s) (htidy : Tidy kind s.state) (hon : s.state.pc c ≠ .off) :
    (∃ a ∈ s.stock kind c, s.sp c = .alloc a) ∨
      ∃ t, Held (view s.state) c t ∧ s.sp c = s.stackOf t ∧
        ∀ a, s.kstack t = some a → (kind t).isCoroutine = false := by
  have hlocal := hl.here c
  cases hhand : s.hand c with
  | taken a => exact .inl ⟨a, by simp [stock, lent_taken hhand], hlocal.taken a hhand⟩
  | recycled =>
      obtain ⟨-, a, ha, hsp⟩ := hlocal.recycled hhand
      exact .inl ⟨a, by simp [stock, ha], hsp⟩
  | empty =>
      have hsp := hlocal.empty hhand hon
      have hheld := held_frame (hl.kin c) hon
      generalize (s.state.pc c).frame (s.state.current c) = t at hsp hheld
      by_cases ht : ∃ a, s.kstack t = some a ∧ (kind t).isCoroutine = true
      · obtain ⟨a, ha, hcoroutine⟩ := ht
        have hu := hl.uses_of_held htidy hheld hcoroutine ha
        exact .inl ⟨a, by simp [stock, hu.lent, ha], by rw [hsp, stackOf, ha]⟩
      · refine .inr ⟨t, hheld, hsp, fun a ha => ?_⟩
        exact Bool.eq_false_of_not_eq_true fun hcoroutine => ht ⟨a, ha, hcoroutine⟩

/-- Along every run in which the flags that are cleared are those of tasks no CPU holds, no two
CPUs are on the same stack. -/
theorem stacks_apart (hrun : (stacked kind).RunOf ClearsUnheld h s) (hc : s.state.pc c ≠ .off)
    (hd : s.state.pc d ≠ .off) (hne : c ≠ d) : s.sp c ≠ s.sp d := by
  have hl := lodged_run hrun
  have htidy := tidy_run (accesses_run hrun)
  intro hsame
  have hhost : ∀ {e f : Cpu} {t : Task} {a : ℕ}, a ∈ s.stock kind e → s.sp e = .alloc a →
      s.sp f = s.stackOf t → (∀ b, s.kstack t = some b → (kind t).isCoroutine = false) →
      s.sp e ≠ s.sp f := by
    intro e f t a ha he hf ht hef
    rw [he, hf, stackOf] at hef
    split at hef
    next b hb =>
      obtain rfl := Stack.alloc.inj hef
      cases hl.unique (.cpu e) (.task t) a ha ⟨ht a hb, hb⟩
    next => cases hef
  rcases hl.on htidy hc with ⟨a, ha, hac⟩ | ⟨t, htheld, htc, ht⟩ <;>
    rcases hl.on htidy hd with ⟨b, hb, hbd⟩ | ⟨u, huheld, hud, hu⟩
  · rw [hac, hbd, Stack.alloc.injEq] at hsame
    subst hsame
    cases hl.unique (.cpu c) (.cpu d) a ha hb
    exact hne rfl
  · exact hhost ha hac hud hu hsame
  · exact hhost hb hbd htc ht hsame.symm
  · have htu : t = u := by
      rw [htc, hud, stackOf, stackOf] at hsame
      split at hsame <;> split at hsame
      next a ha _ b hb =>
        obtain rfl := Stack.alloc.inj hsame
        cases hl.unique (.task t) (.task u) a ⟨ht a ha, ha⟩ ⟨hu a hb, hb⟩
        rfl
      next => cases hsame
      next => cases hsame
      next => exact Stack.boot.inj hsame
    subst htu
    exact hne (htidy.hold.one c d t htheld huheld)

/-- The init tasks of two CPUs, the idle task of the first, and coroutines. -/
def coroutines : Task → Kind
  | 0 => .main
  | 1 => .idle
  | 2 => .bootIdle
  | _ => .coroutine

/-- Both CPUs go on to a coroutine: CPU 1 to 5, CPU 0 to 4. -/
def bothPoll : List Choice :=
  [.init 0 0 1, .initSecondary 1 2, .call 0 (.spawn 1 5 0), .call 0 (.spawn 0 4 0),
      .call 1 .yield] ++ goes 1 12 ++
    .call 0 .yield :: goes 0 2 ++ .go 0 1 none :: goes 0 10

theorem stacks_apart_bothPoll : ∃ h s, (stacked coroutines).RunOf ClearsUnheld h s ∧
    s.state.current 0 = 4 ∧ s.state.current 1 = 5 ∧ s.sp 0 ≠ s.sp 1 := by
  let r := (Stacked.playAll coroutines MovesOn bothPoll).get (by decide)
  have hrun : (stacked coroutines).RunOf ClearsUnheld r.1 r.2 :=
    clears_run (Stacked.playAll_run _ (Option.some_get _).symm)
  exact ⟨r.1, r.2, hrun, by decide, by decide,
    stacks_apart hrun (c := 0) (d := 1) (by decide) (by decide) (by decide)⟩

/-- Where a flag is cleared too early, two CPUs come to execute `main` on its stack. -/
theorem one_stack_for_both : ∃ h s, (stacked twoCpus).Run h s ∧ s.state.pc 0 ≠ .off ∧
    s.state.pc 1 ≠ .off ∧ s.sp 0 = s.sp 1 := by
  let r := (Stacked.playAll twoCpus (fun _ _ _ => True) (pickedEarly ++ goes 1 1)).get (by decide)
  exact ⟨r.1, r.2, Stacked.playAll_run _ (Option.some_get _).symm, by decide, by decide, by decide⟩

theorem Effect.length (heffect : Effect kind s c s' l) :
    (s'.stock kind c).length = (s.stock kind c).length + [(c, l)].count (c, .alloc) := by
  cases heffect with
  | keep hlabel hstock => simp [hstock, hlabel]
  | alloc hold hnew => simp [hold, hnew]
  | new hlabel hstock => simp [hstock, hlabel]

/-- Each CPU has the coroutine stacks it has allocated. -/
theorem stock_length (hrun : (stacked kind).RunOf ClearsUnheld h s) (c : Cpu) :
    (s.stock kind c).length = h.count (c, .alloc) := by
  refine hrun.invariant (I := fun h s => (s.stock kind c).length = h.count (c, .alloc)) ?_ ?_
  · rintro s rfl
    rfl
  · rintro h s ⟨d, l⟩ s' hrun hs _ hstep
    have hbase := accesses_run hrun
    have hl := lodged_run hrun
    have htidy := tidy_run hbase
    rw [← List.singleton_append, List.count_append, ← hs]
    by_cases hd : c = d
    · subst hd
      rw [(hl.step htidy (own_run hbase) hstep).2.length, Nat.add_comm]
    · rw [hl.stock_others htidy hstep hd]
      simp [Ne.symm hd]

/-- Coroutine 4 yields to a new one. -/
def pollsNext : List Choice :=
  bothPoll ++ [.call 0 (.spawn 0 6 0), .call 0 .yield] ++ goes 0 3 ++ .go 0 1 none :: goes 0 5

end Stacked

end Smp
