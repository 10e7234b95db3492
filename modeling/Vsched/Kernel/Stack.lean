import Vsched.Kernel.Control

/-!
# The stacks of the coroutines

Every stack that was allocated has one owner: a task, the pool or the local variable
of `coroutine_schedule`. When coroutines use the operations that return a future, a
single stack goes round among them and the pool.
-/

namespace Kernel

open Sched (BaseScheduler TaskState)

variable {σ : Type*} {B : BaseScheduler σ Task} {kind : ℕ → Kind} {s s' : State σ}

/-- Where a stack may be. -/
inductive Owner
  | kstack (t : Task)
  | pool
  /-- The local variable of `coroutine_schedule`. -/
  | loop
  deriving DecidableEq, Repr

def State.Owns (s : State σ) : Owner → ℕ → Prop
  | .kstack t, a => s.kstack t = some a
  | .pool, a => a ∈ s.pool
  | .loop, a => ∃ t, s.pc = .handOver t a

/-- Every stack that was allocated has exactly one owner. -/
structure Owned (kind : ℕ → Kind) (s : State σ) : Prop where
  unique : ∀ o o' a, s.Owns o a → s.Owns o' a → o = o'
  nodup : s.pool.Nodup
  bound : ∀ o a, s.Owns o a → a < s.allocated
  covered : ∀ a, a < s.allocated → ∃ o, s.Owns o a
  fresh : ∀ n, s.created (.user n) = false → kind n = .thread →
    s.kstack (.user n) = none ∨ s.pc = .loopTop ∧ s.view.current = .user n

namespace Owned

/-- The stack `a` has been given to `o`, and no other stack has moved. -/
def Moved (s s' : State σ) (a : ℕ) (o : Owner) : Prop :=
  ∀ x b, s'.Owns x b ↔ x = o ∧ b = a ∨ b ≠ a ∧ s.Owns x b

theorem move {a : ℕ} {o : Owner} (ho : Owned kind s) (hmoved : Moved s s' a o)
    (hnodup : s'.pool.Nodup)
    (halloc : (a < s.allocated ∧ s'.allocated = s.allocated) ∨
      (a = s.allocated ∧ s'.allocated = s.allocated + 1))
    (hfresh : ∀ n, s'.created (.user n) = false → kind n = .thread →
      s'.kstack (.user n) = none ∨ s'.pc = .loopTop ∧ s'.view.current = .user n) :
    Owned kind s' := by
  refine ⟨?_, hnodup, ?_, ?_, hfresh⟩
  · intro x y b hx hy
    rcases (hmoved x b).mp hx with ⟨rfl, rfl⟩ | ⟨hb, hx⟩
    · rcases (hmoved y b).mp hy with ⟨rfl, -⟩ | ⟨hb, -⟩
      · rfl
      · exact absurd rfl hb
    · rcases (hmoved y b).mp hy with ⟨-, hb'⟩ | ⟨-, hy⟩
      · exact absurd hb' hb
      · exact ho.unique x y b hx hy
  · intro x b hx
    rcases (hmoved x b).mp hx with ⟨-, rfl⟩ | ⟨-, hx⟩
    · omega
    · have := ho.bound x b hx
      omega
  · intro b hb
    by_cases hba : b = a
    · exact ⟨o, (hmoved o b).mpr (.inl ⟨rfl, hba⟩)⟩
    · obtain ⟨x, hx⟩ := ho.covered b (by omega)
      exact ⟨x, (hmoved x b).mpr (.inr ⟨hba, hx⟩)⟩

/-- No stack has moved. -/
theorem same (ho : Owned kind s) (hkstack : s'.kstack = s.kstack) (hpool : s'.pool = s.pool)
    (halloc : s'.allocated = s.allocated) (hpc : ∀ t a, s.pc ≠ .handOver t a)
    (hpc' : ∀ t a, s'.pc ≠ .handOver t a)
    (hfresh : ∀ n, s'.created (.user n) = false → kind n = .thread →
      s.kstack (.user n) = none) : Owned kind s' := by
  have howns : ∀ x b, s'.Owns x b ↔ s.Owns x b := by
    intro x b
    cases x with
    | kstack t => simp only [State.Owns, hkstack]
    | pool => simp only [State.Owns, hpool]
    | loop => simp [State.Owns, hpc, hpc']
  refine ⟨?_, hpool ▸ ho.nodup, ?_, ?_, ?_⟩
  · intro x y b hx hy
    exact ho.unique x y b ((howns x b).mp hx) ((howns y b).mp hy)
  · intro x b hx
    rw [halloc]
    exact ho.bound x b ((howns x b).mp hx)
  · intro b hb
    obtain ⟨x, hx⟩ := ho.covered b (by rwa [← halloc])
    exact ⟨x, (howns x b).mpr hx⟩
  · intro n hcreated hthread
    rw [hkstack]
    exact .inl (hfresh n hcreated hthread)

theorem init (scheduler : σ) : Owned kind (State.init scheduler) := by
  have howns : ∀ o a, (State.init scheduler).Owns o a ↔ o = .kstack .idle ∧ a = 0 := by
    intro o a
    cases o with
    | kstack t => cases t <;> simp [State.Owns, State.init, eq_comm]
    | pool => simp [State.Owns, State.init]
    | loop => simp [State.Owns, State.init]
  refine ⟨?_, List.nodup_nil, ?_, ?_, fun n _ _ => .inl (by simp [State.init])⟩
  · intro o o' a ho ho'
    rw [((howns o a).mp ho).1, ((howns o' a).mp ho').1]
  · intro o a ho
    rw [((howns o a).mp ho).2]
    exact Nat.one_pos
  · intro a ha
    have : a = 0 := by
      change a < 1 at ha
      omega
    exact ⟨.kstack .idle, (howns _ _).mpr ⟨rfl, this⟩⟩

/-- `s` is not in the hands of `coroutine_schedule`. -/
structure Still (kind : ℕ → Kind) (s : State σ) : Prop where
  owned : Owned kind s
  pc : ∀ t a, s.pc ≠ .handOver t a
  fresh : ∀ n, s.created (.user n) = false → kind n = .thread → s.kstack (.user n) = none

theorem still (ho : Owned kind s) (hpc : ∀ t a, s.pc ≠ .handOver t a) (htop : s.pc ≠ .loopTop) :
    Still kind s :=
  ⟨ho, hpc, fun n hcreated hthread =>
    (ho.fresh n hcreated hthread).resolve_right fun h => htop h.1⟩

namespace Still

theorem keeps (hs : Still kind s) (h : s.Keeps s') (hpc : ∀ t a, s'.pc ≠ .handOver t a) :
    Owned kind s' :=
  hs.owned.same h.kstack h.pool h.allocated hs.pc hpc fun n hcreated =>
    hs.fresh n (by rwa [← h.created])

theorem view (hs : Still kind s) (v : View σ) : Still kind { s with view := v } :=
  ⟨hs.owned.same rfl rfl rfl hs.pc hs.pc hs.fresh, hs.pc, hs.fresh⟩

theorem loadContext (hs : Still kind s) (h : s.loadContext = some s') : Owned kind s' := by
  rcases State.loadContext_eq h with ⟨k, -, rfl⟩ | ⟨-, rfl⟩
  · exact hs.keeps ⟨rfl, rfl, rfl, rfl, rfl, rfl, rfl⟩ (by simp)
  · exact hs.keeps ⟨rfl, rfl, rfl, rfl, rfl, rfl, rfl⟩ (by simp)

/-- A stack from the pool, or a new one, is given to a task that has none. -/
theorem setKstack {t : Task} (hs : Still kind s) (h : s.setKstack kind t = some s') :
    Still kind s' := by
  rcases State.setKstack_eq h with ⟨rfl, -⟩ | ⟨hnone, hcoroutine, a, pool, allocated, halloc, rfl⟩
  · exact hs
  have hfresh : ∀ n, s.created (.user n) = false → kind n = .thread →
      Function.update s.kstack t (some a) (.user n) = none := by
    intro n hcreated hthread
    have hn : .user n ≠ t := by
      rintro rfl
      simp [Task.isCoroutine, hthread] at hcoroutine
    rw [Function.update_of_ne hn]
    exact hs.fresh n hcreated hthread
  refine ⟨?_, hs.pc, hfresh⟩
  -- what is in the pool is no task's
  have hpooled : ∀ b, b ∈ s.pool → ∀ u, s.kstack u ≠ some b := by
    intro b hb u hu
    have := hs.owned.unique .pool (.kstack u) b hb hu
    cases this
  rcases halloc with ⟨hpool, rfl⟩ | ⟨hpool, rfl, rfl, rfl⟩
  · have hnodup := hs.owned.nodup
    rw [hpool, List.nodup_cons] at hnodup
    refine hs.owned.move (a := a) (o := .kstack t) ?_ hnodup.2 (.inl ⟨?_, rfl⟩)
      fun n hc ht => .inl (hfresh n hc ht)
    · intro x b
      cases x with
      | kstack u =>
          by_cases hu : u = t
          · subst hu
            simp [State.Owns, hnone, eq_comm]
          · have := hpooled a (by simp [hpool]) u
            simp only [State.Owns, Function.update_of_ne hu, Owner.kstack.injEq, hu, false_and,
              false_or]
            refine ⟨fun hb => ⟨?_, hb⟩, And.right⟩
            rintro rfl
            exact this hb
      | pool =>
          simp only [State.Owns, reduceCtorEq, false_and, false_or, hpool, List.mem_cons]
          refine ⟨fun hb => ⟨?_, .inr hb⟩, fun h => h.2.resolve_left h.1⟩
          rintro rfl
          exact hnodup.1 hb
      | loop => simp [State.Owns, hs.pc]
    · exact hs.owned.bound .pool a (by simp [State.Owns, hpool])
  · refine hs.owned.move (a := s.allocated) (o := .kstack t) ?_ List.nodup_nil (.inr ⟨rfl, rfl⟩)
      fun n hc ht => .inl (hfresh n hc ht)
    intro x b
    have hbound : ∀ y, s.Owns y b → b ≠ s.allocated := by
      intro y hy hb
      have := hs.owned.bound y b hy
      omega
    cases x with
    | kstack u =>
        by_cases hu : u = t
        · subst hu
          simp [State.Owns, hnone, eq_comm]
        · simp only [State.Owns, Function.update_of_ne hu, Owner.kstack.injEq, hu, false_and,
            false_or]
          exact ⟨fun hb => ⟨hbound (.kstack u) hb, hb⟩, And.right⟩
    | pool => simp [State.Owns, hpool]
    | loop => simp [State.Owns, hs.pc]

theorem reschedule {f : Form} {k : Kont} (hs : Still kind s)
    (h : s.reschedule kind B f k = some s') : Owned kind s' := by
  cases f with
  | thread =>
      obtain ⟨sch, next, -, ⟨-, rfl⟩ | ⟨-, s₁, hset, hload⟩⟩ := State.resched_eq h
      · exact hs.keeps ⟨rfl, rfl, rfl, rfl, rfl, rfl, rfl⟩ (by simp)
      · have hs₁ := (hs.view _).setKstack hset
        refine loadContext (s := s₁.switched next k) ⟨?_, hs₁.pc, hs₁.fresh⟩ hload
        exact hs₁.owned.same rfl rfl rfl hs₁.pc hs₁.pc hs₁.fresh
  | future =>
      refine hs.keeps (State.reschedFuture_keeps h) ?_
      obtain ⟨sch, next, -, ⟨-, hgo⟩ | ⟨-, rfl⟩⟩ := State.reschedFuture_eq h
      · obtain ⟨-, -, hpc | ⟨g, w, hpc⟩⟩ := State.goOn_quiet hgo <;> simp [hpc]
      · simp

theorem blockedResched {f : Form} {w : Wait} (hs : Still kind s)
    (h : s.blockedResched kind B f w = some s') : Owned kind s' := by
  obtain ⟨v, -, hresched⟩ := Option.bind_eq_some_iff.mp h
  exact reschedule (hs.view v) hresched

theorem exit {f : Form} {e : ℤ} (hs : Still kind s) (h : s.exit f e = some s') :
    Owned kind s' := by
  refine hs.keeps (State.exit_keeps h) ?_
  obtain ⟨-, -, ⟨-, -, rfl⟩ | ⟨-, rfl⟩⟩ := State.exit_eq h <;> simp

theorem goOn {k : Kont} (hs : Still kind s) (h : s.goOn k = some s') : Owned kind s' := by
  refine hs.keeps (State.goOn_keeps h) ?_
  obtain ⟨-, -, hpc | ⟨g, w, hpc⟩⟩ := State.goOn_quiet h <;> simp [hpc]

theorem releasePrev (hs : Still kind s) : Still kind s.releasePrev := by
  obtain ⟨-, hcreated, hkstack, hpool, hallocated, -, -, hpc⟩ := s.releasePrev_eq
  have hfresh : ∀ n, s.releasePrev.created (.user n) = false → kind n = .thread →
      s.kstack (.user n) = none := fun n hc => hs.fresh n (by rwa [← hcreated])
  refine ⟨hs.owned.same hkstack hpool hallocated hs.pc ?_ hfresh, ?_, ?_⟩
  · rw [hpc]
    exact hs.pc
  · rw [hpc]
    exact hs.pc
  · rw [hkstack]
    exact hfresh

theorem notifyRound {q : QueueId} {resched : Bool} {after : Option Form} (hs : Still kind s)
    (h : s.notifyRound kind B q resched after = some s') : Owned kind s' := by
  obtain ⟨⟨v, found⟩, -, hgo⟩ := Option.bind_eq_some_iff.mp h
  cases found with
  | true =>
      obtain rfl := Option.some.inj hgo
      exact (hs.view v).owned
  | false =>
      cases after with
      | none =>
          obtain rfl := Option.some.inj hgo
          exact hs.keeps ⟨rfl, rfl, rfl, rfl, rfl, rfl, rfl⟩ (by simp)
      | some f => exact reschedule (hs.view v) hgo

theorem poll (hs : Still kind s) (h : s.poll = some s') : Owned kind s' := by
  unfold State.poll at h
  split at h
  · exact hs.exit h
  · exact hs.goOn h

/-- The stack of a coroutine goes to the local variable. -/
theorem takeStack {t : Task} (hs : Still kind s) (h : s.takeStack B t = some s') :
    Owned kind s' := by
  obtain ⟨v, a, hstack, rfl, -⟩ := State.takeStack_eq h
  have hmine : ∀ x, s.Owns x a → x = .kstack t :=
    fun x hx => hs.owned.unique x (.kstack t) a hx hstack
  have hother : ∀ x b, x ≠ .kstack t → s.Owns x b → b ≠ a := by
    rintro x b hx hb rfl
    exact hx (hmine x hb)
  refine hs.owned.move (a := a) (o := .loop) ?_ hs.owned.nodup
    (.inl ⟨hs.owned.bound (.kstack t) a hstack, rfl⟩) ?_
  · intro x b
    cases x with
    | kstack u =>
        by_cases hu : u = t
        · subst hu
          simp only [State.Owns, Function.update_self, reduceCtorEq, false_and, false_or, hstack,
            Option.some.injEq, false_iff]
          exact fun h => h.1 h.2.symm
        · simp only [State.Owns, Function.update_of_ne hu, reduceCtorEq, false_and, false_or]
          exact ⟨fun hb => ⟨hother (.kstack u) b (by simpa using hu) hb, hb⟩, And.right⟩
    | pool =>
        simp only [State.Owns, reduceCtorEq, false_and, false_or]
        exact ⟨fun hb => ⟨hother .pool b (by simp) hb, hb⟩, And.right⟩
    | loop => simp [State.Owns, hs.pc, eq_comm]
  · intro n hcreated hthread
    by_cases hn : .user n = t
    · simp [hn]
    · simpa [hn] using hs.fresh n hcreated hthread

end Still

/-- The local variable gives its stack to the next task or to the pool. -/
theorem handOver {t : Task} {a : ℕ} (ho : Owned kind s) (hpc : s.pc = .handOver t a)
    (h : s.handOver t a = some s') : Owned kind s' := by
  have hloop : s.Owns .loop a := ⟨t, hpc⟩
  have hother : ∀ x b, x ≠ .loop → s.Owns x b → b ≠ a := by
    rintro x b hx hb rfl
    exact hx (ho.unique x .loop b hb hloop)
  have hlocal : ∀ b, s.Owns .loop b → b = a := by
    rintro b ⟨u, hu⟩
    rw [hpc, Pc.handOver.injEq] at hu
    exact hu.2.symm
  have hbound := ho.bound .loop a hloop
  have hfresh := (ho.fresh · · · |>.resolve_right fun h => by rw [hpc] at h; cases h.1)
  rcases State.handOver_eq h with ⟨hnone, -, -, rfl⟩ | ⟨-, hload⟩
  · refine ho.move (a := a) (o := .kstack s.view.current) ?_ ho.nodup (.inl ⟨hbound, rfl⟩) ?_
    · intro x b
      cases x with
      | kstack u =>
          by_cases hu : u = s.view.current
          · subst hu
            simp [State.Owns, hnone, eq_comm]
          · simp only [State.Owns, Function.update_of_ne hu, Owner.kstack.injEq, hu, false_and,
              false_or]
            exact ⟨fun hb => ⟨hother (.kstack u) b (by simp) hb, hb⟩, And.right⟩
      | pool =>
          simp only [State.Owns, reduceCtorEq, false_and, false_or]
          exact ⟨fun hb => ⟨hother .pool b (by simp) hb, hb⟩, And.right⟩
      | loop =>
          simp only [State.Owns, reduceCtorEq, exists_false, false_and, false_or, false_iff]
          exact fun h => h.1 (hlocal b h.2)
    · intro n hcreated hthread
      by_cases hn : .user n = s.view.current
      · exact .inr ⟨rfl, hn.symm⟩
      · simpa [hn] using .inl (hfresh n hcreated hthread)
  · have hpooled : a ∉ s.pool := fun ha => hother .pool a (by simp) ha rfl
    have hstill : Owned kind
        { s with pool := a :: s.pool, ctx := Function.update s.ctx t .dead, pc := .user } := by
      refine ho.move (a := a) (o := .pool) ?_ (List.nodup_cons.mpr ⟨hpooled, ho.nodup⟩)
        (.inl ⟨hbound, rfl⟩) fun n hc ht => .inl (hfresh n hc ht)
      intro x b
      cases x with
      | kstack u =>
          simp only [State.Owns, reduceCtorEq, false_and, false_or]
          exact ⟨fun hb => ⟨hother (.kstack u) b (by simp) hb, hb⟩, And.right⟩
      | pool =>
          simp only [State.Owns, List.mem_cons, true_and]
          exact ⟨fun hb => hb.imp id fun hb => ⟨fun heq => hpooled (heq ▸ hb), hb⟩,
            fun h => h.imp id And.right⟩
      | loop =>
          simp only [State.Owns, reduceCtorEq, exists_false, false_and, false_or, false_iff]
          exact fun h => h.1 (hlocal b h.2)
    have hs : Still kind
        { s with pool := a :: s.pool, ctx := Function.update s.ctx t .dead, pc := .user } :=
      hstill.still (by simp) (by simp)
    rcases State.loadContext_eq hload with ⟨k, -, rfl⟩ | ⟨-, rfl⟩
    · exact hs.keeps ⟨rfl, rfl, rfl, rfl, rfl, rfl, rfl⟩ (by simp)
    · exact hs.keeps ⟨rfl, rfl, rfl, rfl, rfl, rfl, rfl⟩ (by simp)

theorem new {n : ℕ} (hs : Still kind s) (hcreated : s.created (.user n) = false) :
    Owned kind (s.new kind n) := by
  unfold State.new
  cases hn : kind n with
  | thread =>
      have hnone := hs.fresh n hcreated hn
      refine hs.owned.move (a := s.allocated) (o := .kstack (.user n)) ?_ hs.owned.nodup
        (.inr ⟨rfl, rfl⟩) ?_
      · intro x b
        have hbound : ∀ y, s.Owns y b → b ≠ s.allocated := by
          intro y hy hb
          have := hs.owned.bound y b hy
          omega
        cases x with
        | kstack u =>
            by_cases hu : u = .user n
            · subst hu
              simp [State.Owns, State.setRefs, hnone, eq_comm]
            · simp only [State.Owns, State.setRefs, Function.update_of_ne hu, Owner.kstack.injEq,
                hu, false_and, false_or]
              exact ⟨fun hb => ⟨hbound (.kstack u) hb, hb⟩, And.right⟩
        | pool =>
            simp only [State.Owns, State.setRefs, reduceCtorEq, false_and, false_or]
            exact ⟨fun hb => ⟨hbound .pool hb, hb⟩, And.right⟩
        | loop => simp [State.Owns, State.setRefs, hs.pc]
      · intro m hm hthread
        by_cases hmn : m = n
        · subst hmn
          simp at hm
        · simpa [State.setRefs, hmn] using
            .inl (hs.fresh m (by simpa [hmn] using hm) hthread)
  | coroutine =>
      refine hs.owned.same rfl rfl rfl hs.pc hs.pc fun m hm hthread => hs.fresh m ?_ hthread
      have hmn : m ≠ n := by
        rintro rfl
        rw [hn] at hthread
        cases hthread
      simpa [hmn] using hm

theorem step {a : Act} (ho : Owned kind s) (he : s.Enabled kind a)
    (h : s.perform kind B a = some s') : Owned kind s' := by
  have hop : a.isOp = true → Still kind s := by
    intro hop
    obtain ⟨hpc, -⟩ := he.op hop
    exact ho.still (by simp [hpc]) (by simp [hpc])
  by_cases hplain : a.isPlain = true
  · have hs := hop (by cases a <;> first | rfl | cases hplain)
    obtain ⟨-, hpc, hpool, hkept⟩ := State.plain_eq hplain h
    by_cases hnew : ∃ n, a = .new n
    · obtain ⟨n, rfl⟩ := hnew
      obtain ⟨-, -, -, hcreated, -⟩ := he.op rfl
      obtain rfl := Option.some.inj h
      exact new hs hcreated
    · push Not at hnew
      obtain ⟨hcreated, hkstack, -, -, hallocated⟩ := hkept hnew
      refine ho.same hkstack hpool hallocated hs.pc (by rw [hpc]; exact hs.pc) ?_
      exact fun n hc => hs.fresh n (by rwa [← hcreated])
  cases a with
  | yield f =>
      obtain ⟨v, -, hresched⟩ := Option.bind_eq_some_iff.mp h
      exact ((hop rfl).view v).reschedule hresched
  | wait f w =>
      rcases State.wait_eq h with ⟨-, hblocked⟩ | ⟨-, rfl⟩
      · exact (hop rfl).blockedResched hblocked
      · exact (hop rfl).keeps ⟨rfl, rfl, rfl, rfl, rfl, rfl, rfl⟩ (by simp)
  | notifyAll q resched =>
      obtain rfl := Option.some.inj h
      exact (hop rfl).keeps ⟨rfl, rfl, rfl, rfl, rfl, rfl, rfl⟩ (by simp)
  | exit f e => exact (hop rfl).exit h
  | pending =>
      obtain rfl := Option.some.inj h
      exact (hop rfl).keeps ⟨rfl, rfl, rfl, rfl, rfl, rfl, rfl⟩ (by simp)
  | check b =>
      obtain ⟨f, w, hpc, -⟩ := he.check
      have hs := ho.still (by simp [hpc]) (by simp [hpc])
      simp only [State.perform, hpc] at h
      rcases State.checked_eq h with ⟨-, rfl⟩ | ⟨-, hblocked⟩
      · exact hs.keeps ⟨rfl, rfl, rfl, rfl, rfl, rfl, rfl⟩ (by simp)
      · exact hs.blockedResched hblocked
  | tick =>
      cases hpc : s.pc with
      | notifyAll q resched after =>
          simp only [State.perform, State.tick, hpc] at h
          exact (ho.still (by simp [hpc]) (by simp [hpc])).notifyRound h
      | resume k =>
          simp only [State.perform, State.tick, hpc] at h
          exact (ho.still (by simp [hpc]) (by simp [hpc])).releasePrev.goOn h
      | loopTop =>
          simp only [State.perform, State.tick, hpc] at h
          obtain ⟨hcoroutine, rfl⟩ := State.schedule_eq h
          -- the current task is a coroutine, so no thread has been given the stack
          obtain ⟨hview, hcreated, hkstack, hpool, hallocated, -, -, -⟩ := s.releasePrev_eq
          refine ho.same hkstack hpool hallocated (by simp [hpc]) (by simp) ?_
          intro n hn hthread
          refine (ho.fresh n (by rwa [← hcreated]) hthread).resolve_right ?_
          rintro ⟨-, hcurrent⟩
          rw [hview, (View.takePrevTask_eq s.view).1, hcurrent] at hcoroutine
          simp [Task.isCoroutine, hthread] at hcoroutine
      | poll =>
          simp only [State.perform, State.tick, hpc] at h
          exact (ho.still (by simp [hpc]) (by simp [hpc])).poll h
      | polled t =>
          simp only [State.perform, State.tick, hpc] at h
          exact (ho.still (by simp [hpc]) (by simp [hpc])).takeStack h
      | handOver t stack =>
          simp only [State.perform, State.tick, hpc] at h
          exact ho.handOver hpc h
      | _ => simp [State.perform, State.tick, hpc] at h
  | _ => exact absurd rfl hplain

end Owned

/-- A coroutine calls the operations that return a future. -/
def Async (kind : ℕ → Kind) (_ : List Act) (s : State σ) (a : Act) : Prop :=
  s.view.current.isCoroutine kind = true → a.form ≠ some .thread

/-- An operation is called in the form of the task. -/
theorem State.Enabled.form {a : Act} {g : List Act} (he : s.Enabled kind a)
    (hasync : Async kind g s a) (hop : a.isOp = true) : s.pc = .user ∧ ∀ f, a.form = some f →
      (f = .future ↔ s.view.current.isCoroutine kind = true) := by
  obtain ⟨hpc, -, hform, -⟩ := he.op hop
  refine ⟨hpc, fun f hf => ⟨?_, fun hcoroutine => ?_⟩⟩
  · rintro rfl
    exact hform hf
  · have := hasync hcoroutine
    rw [hf] at this
    cases f with
    | thread => exact absurd rfl this
    | future => rfl

/-- No coroutine is inside an operation for threads, nor was it switched out by one. -/
def State.InForm (kind : ℕ → Kind) (s : State σ) : Prop :=
  match s.pc with
  | .condition f _ => s.view.current.isCoroutine kind = true → f = .future
  | .notifyAll _ _ after => s.view.current.isCoroutine kind = true → after ≠ some .thread
  | .resume _ => s.view.current.isCoroutine kind = false
  | _ => True

/-- The stack that goes round is not in the pool when the coroutine `frame` runs on
it. -/
structure Round (kind : ℕ → Kind) (frame : Option Task) (s : State σ) : Prop where
  ctx : ∀ t k, t.isCoroutine kind = true → s.ctx t ≠ .resume k
  short : s.pool.length ≤ 1
  used : ∀ t, frame = some t → s.pool = []

/-- One stack at most goes round among the coroutines. -/
structure Single (kind : ℕ → Kind) (s : State σ) : Prop where
  round : Round kind (s.frame kind) s
  loop : ∀ t a, s.pc = .handOver t a → s.pool = []
  form : s.InForm kind

theorem Round.same {frame frame' : Option Task} (hr : Round kind frame s)
    (hctx : s'.ctx = s.ctx) (hpool : s'.pool = s.pool) (hframe : frame' = frame) :
    Round kind frame' s' := by
  subst hframe
  exact ⟨by rw [hctx]; exact hr.ctx, by rw [hpool]; exact hr.short, by rw [hpool]; exact hr.used⟩

theorem State.seat_eq_none (h : s.view.current.isCoroutine kind = false) : s.seat kind = none := by
  simp [State.seat, h]

/-- A coroutine that is not on the CPU has no stack. -/
theorem Round.kstack_none {frame : Option Task} {t : Task} (hr : Round kind frame s)
    (hs : Settled kind frame s) (ht : t.isCoroutine kind = true) (hframe : frame ≠ some t) :
    s.kstack t = none := by
  by_contra hsome
  obtain hseat | ⟨k, hk⟩ := hs.away t ht (Option.isSome_iff_ne_none.mpr hsome)
  · exact hframe hseat
  · exact hr.ctx t k ht hk

namespace Single

variable {k : Kont}

theorem loadContext (hr : Round kind (s.seat kind) s) (h : s.loadContext = some s') :
    Single kind s' := by
  rcases State.loadContext_eq h with ⟨k, hk, rfl⟩ | ⟨-, rfl⟩
  · refine ⟨hr.same rfl rfl rfl, by simp, ?_⟩
    change s.view.current.isCoroutine kind = false
    by_contra hcoroutine
    exact hr.ctx _ k (by simpa using hcoroutine) hk
  · exact ⟨hr.same rfl rfl rfl, by simp, trivial⟩

/-- A thread leaves the CPU: a coroutine that comes next takes the stack in the pool. -/
theorem resched (hr : Round kind (s.seat kind) s) (hs : Settled kind (s.seat kind) s)
    (hthread : s.view.current.isCoroutine kind = false)
    (h : s.resched kind B k = some s') : Single kind s' := by
  obtain ⟨sch, next, hpicks, hcase⟩ := State.resched_eq h
  have hseat := State.seat_eq_none hthread
  rw [hseat] at hr
  rcases hcase with ⟨rfl, rfl⟩ | ⟨hne, s₁, hset, hload⟩
  · exact ⟨hr.same rfl rfl hseat, by simp, hthread⟩
  · have hnone : next.isCoroutine kind = true → s.kstack next = none :=
      fun hnext => hr.kstack_none (hseat ▸ hs) hnext (by simp)
    refine loadContext ?_ hload
    have hold : ∀ c : Task → Ctx, (∀ t k, t.isCoroutine kind = true → c t ≠ .resume k) →
        ∀ t k', t.isCoroutine kind = true →
          Function.update c s.view.current (.resume k) t ≠ .resume k' := by
      intro c hc t k' ht
      have hcurrent : t ≠ s.view.current := by
        rintro rfl
        rw [hthread] at ht
        cases ht
      rw [Function.update_of_ne hcurrent]
      exact hc t k' ht
    rcases State.setKstack_eq hset with ⟨rfl, hstack⟩ | ⟨-, hnext, a, pool, n, halloc, rfl⟩
    · have hnext : next.isCoroutine kind = false := by
        by_contra hnext
        have hnext' : next.isCoroutine kind = true := by simpa using hnext
        obtain ⟨hinit, hidle⟩ := Task.isCoroutine_of_user hnext'
        rcases hstack (hnone hnext') with h' | h'
        · exact absurd h' (by simp [hinit])
        · exact absurd h' (by simp [hidle])
      refine ⟨hold s.ctx hr.ctx, hr.short, fun t ht => ?_⟩
      obtain ⟨hcurrent, ht⟩ := State.seat_eq_some ht
      have hcurrent' : t = next := hcurrent
      rw [hcurrent', hnext] at ht
      cases ht
    · have hempty : pool = [] := by
        have hshort := hr.short
        rcases halloc with ⟨hpool, -⟩ | ⟨-, rfl, -, -⟩
        · rw [hpool, List.length_cons] at hshort
          exact List.length_eq_zero_iff.mp (by omega)
        · rfl
      subst hempty
      refine ⟨hold _ ?_, Nat.zero_le _, fun _ _ => rfl⟩
      intro t k' ht
      by_cases hnt : t = next
      · simp [hnt]
      · simpa [hnt] using hr.ctx t k' ht

theorem goOn (hr : Round kind (s.seat kind) s)
    (hk : s.view.current.isCoroutine kind = true → ∀ f w, k = .blocked f w → f = .future)
    (h : s.goOn k = some s') : Single kind s' := by
  have hkeeps := State.goOn_keeps h
  obtain ⟨hquiet, -, -⟩ := State.goOn_quiet h
  have hframe : ∀ p, s'.pc = p → (∀ t, p ≠ .polled t) → (∀ t a, p ≠ .handOver t a) →
      s'.frame kind = s.seat kind := by
    intro p hp hpolled hhand
    unfold State.frame
    split
    · rename_i hpc
      exact absurd (hp.symm.trans hpc) (hpolled _)
    · rename_i hpc
      exact absurd (hp.symm.trans hpc) (hhand _ _)
    · simp only [State.seat, hquiet.current]
  cases k with
  | user =>
      obtain rfl := Option.some.inj h
      exact ⟨hr.same rfl rfl rfl, by simp, trivial⟩
  | blocked f w =>
      obtain rfl := Option.some.inj h
      cases hcond : w.cond with
      | none =>
          have hpc : (s.woken f w).pc = .user := by simp [State.woken, hcond]
          refine ⟨hr.same hkeeps.ctx hkeeps.pool (hframe _ hpc (by simp) (by simp)), by simp [hpc],
            ?_⟩
          simp only [State.InForm, hpc]
      | some b =>
          have hpc : (s.woken f w).pc = .condition f w := by simp [State.woken, hcond]
          refine ⟨hr.same hkeeps.ctx hkeeps.pool (hframe _ hpc (by simp) (by simp)), by simp [hpc],
            ?_⟩
          simp only [State.InForm, hpc, hquiet.current]
          exact fun hcoroutine => hk hcoroutine f w rfl
  | exiting e => cases h

theorem reschedFuture (hr : Round kind (s.seat kind) s)
    (hcoroutine : s.view.current.isCoroutine kind = true)
    (hk : ∀ f w, k = .blocked f w → f = .future) (h : s.reschedFuture B k = some s') :
    Single kind s' := by
  obtain ⟨sch, next, hpicks, hcase⟩ := State.reschedFuture_eq h
  have hempty : s.pool = [] := hr.used s.view.current (by simp [State.seat, hcoroutine])
  rcases hcase with ⟨-, hgo⟩ | ⟨-, rfl⟩
  · exact goOn (s := { s with view := s.view.picked sch next }) (hr.same rfl rfl rfl)
      (fun _ => hk) hgo
  · exact ⟨⟨hr.ctx, hr.short, fun _ _ => hempty⟩, by simp, trivial⟩

theorem reschedule {f : Form} (hr : Round kind (s.seat kind) s)
    (hs : Settled kind (s.seat kind) s)
    (hf : f = .future ↔ s.view.current.isCoroutine kind = true)
    (hk : ∀ g w, k = .blocked g w → g = f) (h : s.reschedule kind B f k = some s') :
    Single kind s' := by
  cases f with
  | thread =>
      refine resched hr hs ?_ h
      by_contra hcoroutine
      exact absurd (hf.mpr (by simpa using hcoroutine)) (by decide)
  | future => exact reschedFuture hr (hf.mp rfl) hk h

/-- Stopping the current task does not move a stack. -/
theorem stopped {v : View σ} {f : Form} (hr : Round kind (s.seat kind) s)
    (hs : Settled kind (s.seat kind) s) (hv : s.view.Stops v)
    (hf : f = .future ↔ s.view.current.isCoroutine kind = true)
    (hk : ∀ g w, k = .blocked g w → g = f)
    (h : State.reschedule { s with view := v } kind B f k = some s') : Single kind s' := by
  have hseat : State.seat kind { s with view := v } = s.seat kind := State.seat_view hv.toCalm
  refine reschedule (s := { s with view := v }) (hr.same rfl rfl hseat) ?_ ?_ hk h
  · rw [hseat]
    exact hs.view hv.toCalm
  · rw [hv.current]
    exact hf

theorem seated (h : Single kind s) (hpc : ∀ t, s.pc ≠ .polled t)
    (hpc' : ∀ t a, s.pc ≠ .handOver t a) : Round kind (s.seat kind) s := by
  have hr := h.round
  unfold State.frame at hr
  split at hr
  · exact absurd ‹_› (hpc _)
  · exact absurd ‹_› (hpc' _ _)
  · exact hr

theorem notifyRound {q : QueueId} {resched : Bool} {after : Option Form}
    (hsingle : Single kind s) (hc : Control kind s) (hpc : s.pc = .notifyAll q resched after)
    (h : s.notifyRound kind B q resched after = some s') : Single kind s' := by
  have hr := hsingle.seated (by simp [hpc]) (by simp [hpc])
  have hs := hc.seated (by simp [hpc]) (by simp [hpc])
  have hform := hsingle.form
  have hfits := hc.fits
  simp only [State.InForm, hpc] at hform
  simp only [State.Fits, hpc] at hfits
  obtain ⟨⟨v, found⟩, hv, hgo⟩ := Option.bind_eq_some_iff.mp h
  have hcalm := (View.notifyOne_quiet hv).toCalm
  have hseat : State.seat kind { s with view := v } = s.seat kind := State.seat_view hcalm
  cases found with
  | true =>
      obtain rfl := Option.some.inj hgo
      refine ⟨hr.same rfl rfl ?_, by simp [hpc], ?_⟩
      · simp only [State.frame, hpc]
        exact hseat
      · simp only [State.InForm, hpc, hcalm.current]
        exact hform
  | false =>
      cases after with
      | none =>
          obtain rfl := Option.some.inj hgo
          exact ⟨hr.same rfl rfl hseat, by simp, trivial⟩
      | some f =>
          refine reschedule (s := { s with view := v }) (hr.same rfl rfl hseat) ?_ ?_ (by simp) hgo
          · rw [hseat]
            exact hs.view hcalm
          · rw [hcalm.current]
            cases f with
            | thread => simpa using hform
            | future => simpa using hfits rfl

theorem takeStack {t : Task} (hsingle : Single kind s) (hpc : s.pc = .polled t)
    (h : s.takeStack B t = some s') : Single kind s' := by
  obtain ⟨v, a, -, rfl, -⟩ := State.takeStack_eq h
  have hr := hsingle.round
  simp only [State.frame, hpc] at hr
  have hempty := hr.used t rfl
  exact ⟨⟨hr.ctx, hr.short, fun _ _ => hempty⟩, fun _ _ _ => hempty, trivial⟩

theorem handOver {t : Task} {a : ℕ} (hsingle : Single kind s) (hc : Control kind s)
    (hpc : s.pc = .handOver t a) (h : s.handOver t a = some s') : Single kind s' := by
  have hr := hsingle.round
  have hs := hc.settled
  simp only [State.frame, hpc] at hr hs
  have hempty := hsingle.loop t a hpc
  rcases State.handOver_eq h with ⟨-, -, -, rfl⟩ | ⟨hstack, hload⟩
  · exact ⟨⟨hr.ctx, hr.short, fun _ _ => hempty⟩, by simp, trivial⟩
  · have hthread : s.view.current.isCoroutine kind = false := by
      by_contra hcoroutine
      have hcoroutine' : s.view.current.isCoroutine kind = true := by simpa using hcoroutine
      obtain ⟨hinit, hidle⟩ := Task.isCoroutine_of_user hcoroutine'
      rcases hstack (hr.kstack_none hs hcoroutine' (by simp)) with h' | h'
      · exact absurd h' (by simp [hinit])
      · exact absurd h' (by simp [hidle])
    refine loadContext (s := { s with
      pool := a :: s.pool, ctx := Function.update s.ctx t .dead }) ⟨?_, ?_, ?_⟩ hload
    · intro u k hu
      by_cases hut : u = t
      · simp [hut]
      · simpa [hut] using hr.ctx u k hu
    · simp [hempty]
    · intro u hu
      obtain ⟨rfl, hu⟩ := State.seat_eq_some hu
      rw [show s.view.current.isCoroutine kind = true from hu] at hthread
      cases hthread

theorem init (scheduler : σ) : Single kind (State.init scheduler) := by
  refine ⟨⟨?_, Nat.zero_le _, fun _ _ => rfl⟩, fun _ _ _ => rfl, trivial⟩
  intro t k ht
  cases t <;> simp [State.init, Task.isCoroutine] at ht ⊢

theorem plain {a : Act} (hsingle : Single kind s) (hpc : s.pc = .user) (ha : a.isPlain = true)
    (h : s.perform kind B a = some s') : Single kind s' := by
  obtain ⟨hquiet, hpc', hpool, hkept⟩ := State.plain_eq ha h
  have hr := hsingle.seated (by simp [hpc]) (by simp [hpc])
  have hframe : s'.frame kind = s.seat kind := by
    simp only [State.frame, hpc', hpc, State.seat, hquiet.current]
  refine ⟨?_, by simp [hpc', hpc], by simp only [State.InForm, hpc', hpc]⟩
  by_cases hnew : ∃ n, a = .new n
  · obtain ⟨n, rfl⟩ := hnew
    obtain rfl := Option.some.inj h
    refine ⟨?_, hpool ▸ hr.short, by rw [hframe, hpool]; exact hr.used⟩
    intro t k ht
    cases hn : kind n with
    | thread =>
        have hnt : t ≠ .user n := by
          rintro rfl
          simp [Task.isCoroutine, hn] at ht
        simpa [State.new, hn, State.setRefs, hnt] using hr.ctx t k ht
    | coroutine => simpa [State.new, hn, State.setRefs] using hr.ctx t k ht
  · push Not at hnew
    obtain ⟨-, -, hctx, -, -⟩ := hkept hnew
    exact hr.same hctx hpool hframe

theorem step {a : Act} {g : List Act} (hsingle : Single kind s) (hc : Control kind s)
    (hasync : Async kind g s a) (he : s.Enabled kind a) (h : s.perform kind B a = some s') :
    Single kind s' := by
  by_cases hplain : a.isPlain = true
  · obtain ⟨hpc, -⟩ := he.op (by cases a <;> first | rfl | cases hplain)
    exact hsingle.plain hpc hplain h
  have hop : a.isOp = true → s.pc = .user ∧ ∀ f, a.form = some f →
      (f = .future ↔ s.view.current.isCoroutine kind = true) := fun hop => he.form hasync hop
  cases a with
  | yield f =>
      obtain ⟨hpc, hform⟩ := hop rfl
      obtain ⟨v, hv, hresched⟩ := Option.bind_eq_some_iff.mp h
      exact stopped (hsingle.seated (by simp [hpc]) (by simp [hpc]))
        (hc.seated (by simp [hpc]) (by simp [hpc])) (View.yieldCurrent_stops hv) (hform f rfl)
        (by simp) hresched
  | wait f w =>
      obtain ⟨hpc, hform⟩ := hop rfl
      have hr := hsingle.seated (by simp [hpc]) (by simp [hpc])
      rcases State.wait_eq h with ⟨-, hblocked⟩ | ⟨-, rfl⟩
      · obtain ⟨v, hv, hresched⟩ := Option.bind_eq_some_iff.mp hblocked
        refine stopped hr (hc.seated (by simp [hpc]) (by simp [hpc])) (View.blockCurrent_stops hv)
          (hform f rfl) ?_ hresched
        rintro g w' hg
        cases hg
        rfl
      · exact ⟨hr.same rfl rfl rfl, by simp, (hform f rfl).mpr⟩
  | notifyAll q resched =>
      obtain ⟨hpc, -⟩ := hop rfl
      obtain rfl := Option.some.inj h
      exact ⟨(hsingle.seated (by simp [hpc]) (by simp [hpc])).same rfl rfl rfl, by simp,
        by simp [State.InForm]⟩
  | exit f e =>
      obtain ⟨hpc, hform⟩ := hop rfl
      have hr := hsingle.seated (by simp [hpc]) (by simp [hpc])
      obtain ⟨-, -, ⟨-, -, rfl⟩ | ⟨-, rfl⟩⟩ := State.exit_eq h
      · exact ⟨hr.same rfl rfl rfl, by simp, trivial⟩
      · refine ⟨hr.same rfl rfl rfl, by simp, ?_⟩
        intro hcoroutine hf
        have hfuture := (hform f rfl).mpr hcoroutine
        rw [Option.some.injEq, hfuture] at hf
        cases hf
  | pending =>
      obtain ⟨hpc, -⟩ := hop rfl
      obtain ⟨-, -, -, hcoroutine⟩ := he.op rfl
      obtain rfl := Option.some.inj h
      have hseat : s.seat kind = some s.view.current := by
        simp [State.seat, show s.view.current.isCoroutine kind = true from hcoroutine]
      exact ⟨(hsingle.seated (by simp [hpc]) (by simp [hpc])).same rfl rfl hseat.symm, by simp,
        trivial⟩
  | check b =>
      obtain ⟨f, w, hpc, -⟩ := he.check
      have hfits := hc.fits
      have hform := hsingle.form
      simp only [State.Fits, hpc] at hfits
      simp only [State.InForm, hpc] at hform
      have hr := hsingle.seated (by simp [hpc]) (by simp [hpc])
      simp only [State.perform, hpc] at h
      rcases State.checked_eq h with ⟨-, rfl⟩ | ⟨-, hblocked⟩
      · have hcalm :=
          ((View.cancelEvents_quiet s.view w.queue).trans (View.returned_quiet _ w)).toCalm
        exact ⟨hr.same rfl rfl (State.seat_view hcalm), by simp, trivial⟩
      · obtain ⟨v, hv, hresched⟩ := Option.bind_eq_some_iff.mp hblocked
        refine stopped hr (hc.seated (by simp [hpc]) (by simp [hpc])) (View.blockCurrent_stops hv)
          ⟨hfits, hform⟩ ?_ hresched
        rintro g w' hg
        cases hg
        rfl
  | tick =>
      cases hpc : s.pc with
      | notifyAll q resched after =>
          simp only [State.perform, State.tick, hpc] at h
          exact hsingle.notifyRound hc hpc h
      | resume k =>
          have hform := hsingle.form
          simp only [State.perform, State.tick, hpc] at h
          simp only [State.InForm, hpc] at hform
          obtain ⟨hview, -, -, hpool, -, hctx, -, -⟩ := s.releasePrev_eq
          have hcurrent : s.releasePrev.view.current = s.view.current := by
            rw [hview, (View.takePrevTask_eq s.view).1]
          refine goOn ((hsingle.seated (by simp [hpc]) (by simp [hpc])).same hctx hpool ?_) ?_ h
          · simp only [State.seat, hcurrent]
          · rw [hcurrent, hform]
            exact fun h => by cases h
      | loopTop =>
          simp only [State.perform, State.tick, hpc] at h
          obtain ⟨-, rfl⟩ := State.schedule_eq h
          obtain ⟨hview, -, -, hpool, -, hctx, -, -⟩ := s.releasePrev_eq
          refine ⟨(hsingle.seated (by simp [hpc]) (by simp [hpc])).same hctx hpool ?_, by simp,
            trivial⟩
          simp only [State.frame, State.seat, hview, (View.takePrevTask_eq s.view).1]
      | poll =>
          have hs := hc.seated (by simp [hpc]) (by simp [hpc])
          simp only [State.perform, State.tick, hpc] at h
          exact goOn (hsingle.seated (by simp [hpc]) (by simp [hpc]))
            (fun _ f w hf => hs.future_form _ f w hf) (State.poll_eq hs h)
      | polled t =>
          simp only [State.perform, State.tick, hpc] at h
          exact hsingle.takeStack hpc h
      | handOver t stack =>
          simp only [State.perform, State.tick, hpc] at h
          exact hsingle.handOver hc hpc h
      | _ => simp [State.perform, State.tick, hpc] at h
  | _ => exact absurd rfl hplain

theorem of_run {scheduler : σ} {h : List Act}
    (hrun : (machine kind B scheduler).RunOf (Async kind) h s) :
    Single kind s ∧ Control kind s ∧ Active s ∧ Owned kind s := by
  refine hrun.invariant
    (I := fun _ s => Single kind s ∧ Control kind s ∧ Active s ∧ Owned kind s) ?_ ?_
  · rintro s rfl
    exact ⟨init scheduler, Control.init scheduler, Active.init scheduler, Owned.init scheduler⟩
  · rintro h s a s' - ⟨hsingle, hc, ha, ho⟩ hasync ⟨he, hperform⟩
    exact ⟨hsingle.step hc hasync he hperform, hc.step ha he hperform, ha.step he hperform,
      ho.step he hperform⟩

/-- The coroutines that hold a stack. -/
theorem holders (hsingle : Single kind s) (hc : Control kind s) {t : Task}
    (ht : t.isCoroutine kind = true) (hsome : (s.kstack t).isSome) : s.frame kind = some t := by
  by_contra hframe
  rw [hsingle.round.kstack_none hc.settled ht hframe] at hsome
  cases hsome

end Single

/-- The number of stacks in the local variable of `coroutine_schedule`. -/
def State.looped (s : State σ) : ℕ :=
  match s.pc with
  | .handOver _ _ => 1
  | _ => 0

/-- The stacks of the coroutines are linear: what `coroutine_schedule` polls, and what
its `expect` takes the stack from, has one; a coroutine that is off the CPU has none;
every stack has exactly one owner; and the pool, the coroutines and the local variable
together hold one stack at most. -/
structure State.StacksLinear (kind : ℕ → Kind) (s : State σ) : Prop where
  polls : s.pc = .poll → (s.kstack s.view.current).isSome
  takes : ∀ t, s.pc = .polled t → (s.kstack t).isSome
  away : (∀ t, s.pc ≠ .polled t) → ∀ t, t.isCoroutine kind = true → t ≠ s.view.current →
    s.kstack t = none
  owner : ∀ a, a < s.allocated → ∃! o, s.Owns o a
  bound : ∀ o a, s.Owns o a → a < s.allocated
  nodup : s.pool.Nodup
  single : ∀ C : Finset Task, (∀ t ∈ C, t.isCoroutine kind = true) →
    s.pool.length + (C.filter fun t => (s.kstack t).isSome).card + s.looped ≤ 1

theorem Single.pool_empty (hsingle : Single kind s) (hlooped : s.looped = 1) :
    s.pool = [] ∧ s.frame kind = none := by
  unfold State.looped at hlooped
  split at hlooped
  · rename_i t a hpc
    exact ⟨hsingle.loop t a hpc, by simp [State.frame, hpc]⟩
  · cases hlooped

theorem State.looped_le (s : State σ) : s.looped ≤ 1 := by
  unfold State.looped
  split <;> omega

/-- In every run in which coroutines call the operations that return a future, under
every scheduler, the stacks of the coroutines are linear. -/
theorem stack_linear {scheduler : σ} {h : List Act}
    (hrun : (machine kind B scheduler).RunOf (Async kind) h s) : s.StacksLinear kind := by
  obtain ⟨hsingle, hc, -, ho⟩ := Single.of_run hrun
  refine ⟨?_, ?_, ?_, ?_, ho.bound, ho.nodup, ?_⟩
  · intro hpc
    have hfits := hc.fits
    simp only [State.Fits, hpc] at hfits
    exact (hc.seated (by simp [hpc]) (by simp [hpc])).held _ (by simp [State.seat, hfits])
  · intro t hpc
    have hs := hc.settled
    simp only [State.frame, hpc] at hs
    exact hs.held t rfl
  · intro hpolled t ht hne
    refine hsingle.round.kstack_none hc.settled ht ?_
    unfold State.frame
    split
    · exact absurd ‹_› (hpolled _)
    · simp
    · exact fun hseat => hne (State.seat_eq_some hseat).1
  · intro a ha
    obtain ⟨o, hown⟩ := ho.covered a ha
    exact ⟨o, hown, fun o' ho' => ho.unique o' o a ho' hown⟩
  · intro C hC
    have hone : ∀ t ∈ C.filter fun t => (s.kstack t).isSome, s.frame kind = some t := by
      intro t ht
      obtain ⟨htC, hsome⟩ := Finset.mem_filter.mp ht
      exact hsingle.holders hc (hC t htC) hsome
    have hcard : (C.filter fun t => (s.kstack t).isSome).card ≤ 1 := by
      refine Finset.card_le_one.mpr fun t ht u hu => ?_
      exact Option.some.inj ((hone t ht).symm.trans (hone u hu))
    have hlooped := s.looped_le
    by_cases hloop : s.looped = 1
    · -- the stack is in the local variable
      obtain ⟨hempty, hframe⟩ := hsingle.pool_empty hloop
      have hnone : (C.filter fun t => (s.kstack t).isSome) = ∅ := by
        refine Finset.eq_empty_of_forall_notMem fun t ht => ?_
        have := hone t ht
        rw [hframe] at this
        cases this
      rw [hempty, hnone, hloop]
      exact le_refl _
    · have hshort := hsingle.round.short
      by_cases hheld : (C.filter fun t => (s.kstack t).isSome).card = 0
      · omega
      · obtain ⟨t, ht⟩ := Finset.card_pos.mp (Nat.pos_of_ne_zero hheld)
        rw [hsingle.round.used t (hone t ht), List.length_nil]
        omega

/-- The even tasks are threads, the odd ones coroutines. -/
def parity (n : ℕ) : Kind := if n % 2 = 1 then .coroutine else .thread

instance (kind : ℕ → Kind) (h : List Act) (s : State σ) (a : Act) : Decidable (Async kind h s a) :=
  inferInstanceAs (Decidable (_ → _))

/-- A coroutine has yielded to another one, and its stack is to be taken. -/
theorem stack_linear_two : ∃ (h : List Act) (s : State (Sched.Fifo Task)),
    (machine parity (Sched.fifo 4) ⟨[]⟩).RunOf (Async parity) h s ∧ s.pc = .polled (.user 1) ∧
      s.view.current = .user 3 ∧ s.StacksLinear parity := by
  let r := (playAll parity (Sched.fifo 4) ⟨[]⟩ (Async parity)
    [.new 1, .new 3, .spawn 1, .spawn 3, .yield .thread, .tick, .tick, .yield .future]).get
    (by decide)
  have hrun : (machine parity (Sched.fifo 4) ⟨[]⟩).RunOf (Async parity) r.1 r.2 :=
    playAll_run (Option.some_get _).symm
  have hpc : r.2.pc = .polled (.user 1) := by decide
  have hcurrent : r.2.view.current = .user 3 := by decide
  generalize r.1 = h, r.2 = s at hrun hpc hcurrent
  exact ⟨h, s, hrun, hpc, hcurrent, stack_linear hrun⟩

end Kernel
