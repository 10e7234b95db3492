import Vsched.Sched.Cpu

/-!
# How long a queued task waits

A task that has been ticked keeps what is left of its slice while it is put in front, and
gets a whole slice only with a place at the end of the queue. So as long as a task waits,
the ticks another one has had and what is left of its slice are at most one slice, until
that one is queued behind it, where it stays.
-/

namespace Sched

namespace RR

variable {T : Type*} [DecidableEq T] {cap slice : ℕ} {s : RR T} {l : List T} {t u : T}

omit [DecidableEq T] in
/-- A push adds its task while the deque has room. -/
theorem push_rests (h : Deque.Rests cap l s.readyQueue) (e : Deque.End) (t : T) :
    ∃ m, s.push cap (.push e t) = some { s with readyQueue := m } ∧
      Deque.Rests cap (if l.length + 1 < cap then (Deque.Call.push e t).apply l else l) m := by
  split_ifs with hroom
  · obtain ⟨m, honce, hrest⟩ := h.once_push e t hroom
    exact ⟨m, by simp [RR.push, honce], hrest⟩
  · have hlen := h.layout.length_lt
    have hfull := h.once_push_full e t (by omega)
    exact ⟨s.readyQueue, by simp [RR.push, hfull], h⟩

omit [DecidableEq T] in
theorem addTask_rests (h : Deque.Rests cap l s.readyQueue) (hroom : l.length + 1 < cap) (t : T) :
    ∃ m, s.addTask cap t = some { s with readyQueue := m } ∧ Deque.Rests cap (l ++ [t]) m := by
  obtain ⟨m, honce, hrest⟩ := h.once_push .back t hroom
  exact ⟨m, by simp [RR.addTask, RR.push, Deque.pushBack, honce], hrest⟩

omit [DecidableEq T] in
theorem pickNextTask_rests (h : Deque.Rests cap l s.readyQueue) :
    ∃ m, s.pickNextTask cap = some ({ s with readyQueue := m }, l.head?) ∧
      Deque.Rests cap l.tail m := by
  cases l with
  | nil =>
      refine ⟨s.readyQueue, ?_, h⟩
      simp [RR.pickNextTask, Deque.popFront, popped, h.once_pop_empty .front]
  | cons t l =>
      obtain ⟨m, honce, hrest⟩ := h.once_pop (e := .front) (x := t) rfl
      exact ⟨m, by simp [RR.pickNextTask, Deque.popFront, popped, honce], hrest⟩

/-- A task with some of its slice left goes to the front if it is preempted. -/
theorem putPrevTask_front (h : Deque.Rests cap l s.readyQueue) (hroom : l.length + 1 < cap)
    (hleft : 0 < s.timeSlice t) :
    ∃ m, s.putPrevTask slice cap t true = some { s with readyQueue := m } ∧
      Deque.Rests cap (t :: l) m := by
  obtain ⟨m, honce, hrest⟩ := h.once_push .front t hroom
  exact ⟨m, by simp [RR.putPrevTask, RR.push, Deque.pushFront, hleft, honce], hrest⟩

/-- Otherwise it goes to the end, with a new slice. -/
theorem putPrevTask_back (h : Deque.Rests cap l s.readyQueue) (hroom : l.length + 1 < cap)
    {preempt : Bool} (hno : ¬ (0 < s.timeSlice t ∧ preempt = true)) :
    ∃ m, s.putPrevTask slice cap t preempt =
        some ⟨m, Function.update s.timeSlice t (wrap slice)⟩ ∧
      Deque.Rests cap (l ++ [t]) m := by
  obtain ⟨m, honce, hrest⟩ := h.once_push .back t hroom
  refine ⟨m, ?_, hrest⟩
  rw [RR.putPrevTask, if_neg hno]
  simp [RR.push, Deque.pushBack, honce]

/-- What putting a task back does. -/
theorem putPrevTask_cases (h : Deque.Rests cap l s.readyQueue) (hroom : l.length + 1 < cap)
    {preempt : Bool} {s' : RR T} (hput : s.putPrevTask slice cap t preempt = some s') :
    (Deque.Rests cap (t :: l) s'.readyQueue ∧ s'.timeSlice = s.timeSlice ∧ 0 < s.timeSlice t) ∨
      Deque.Rests cap (l ++ [t]) s'.readyQueue ∧
        s'.timeSlice = Function.update s.timeSlice t (wrap slice) := by
  by_cases hfront : 0 < s.timeSlice t ∧ preempt = true
  · obtain ⟨hleft, rfl⟩ := hfront
    obtain ⟨m, hput', hrest⟩ := putPrevTask_front h hroom hleft
    cases hput.symm.trans hput'
    exact .inl ⟨hrest, rfl, hleft⟩
  · obtain ⟨m, hput', hrest⟩ := putPrevTask_back h hroom hfront
    cases hput.symm.trans hput'
    exact .inr ⟨hrest, rfl⟩

/-- The ticks left of the slice of a task, which counts down from `slice` in 64 bits. -/
def left (s : RR T) (t : T) : ℕ := (s.timeSlice t % 2 ^ 64).toNat

theorem wrap_emod (x : ℤ) : wrap x % 2 ^ 64 = x % 2 ^ 64 :=
  Int.bmod_emod

omit [DecidableEq T] in
theorem left_whole (h : s.timeSlice t = wrap slice) (hslice : slice < 2 ^ 64) :
    s.left t = slice := by
  rw [left, h, wrap_emod]
  omega

omit [DecidableEq T] in
theorem left_pos (hrange : wrap (s.timeSlice t) = s.timeSlice t) (h : 0 < s.timeSlice t) :
    1 ≤ s.left t := by
  have hlt := Int.bmod_lt (x := s.timeSlice t) (m := 2 ^ 64) (by norm_num)
  change wrap (s.timeSlice t) < _ at hlt
  rw [hrange] at hlt
  rw [left]
  omega

omit [DecidableEq T] in
theorem left_congr {s s' : RR T} (h : s'.timeSlice t = s.timeSlice t) : s'.left t = s.left t := by
  rw [left, left, h]

theorem left_taskTick (h : 1 ≤ s.left t) : s.left t = (s.taskTick t).1.left t + 1 := by
  have htick : (s.taskTick t).1.timeSlice t = wrap (s.timeSlice t - 1) := by
    simp [RR.taskTick]
  rw [left] at h
  rw [left, left, htick, wrap_emod]
  omega

/-- A tick that does not ask for a reschedule leaves some of the slice. -/
theorem left_taskTick_pos (hrange : wrap (s.timeSlice t) = s.timeSlice t)
    (h : (s.taskTick t).2 = false) : 1 ≤ (s.taskTick t).1.left t := by
  have hmore : 1 < s.timeSlice t := by simpa [RR.taskTick] using h
  have hlt := Int.bmod_lt (x := s.timeSlice t) (m := 2 ^ 64) (by norm_num)
  change wrap (s.timeSlice t) < _ at hlt
  rw [hrange] at hlt
  have htick : (s.taskTick t).1.timeSlice t = wrap (s.timeSlice t - 1) := by
    simp [RR.taskTick]
  rw [left, htick, wrap_emod]
  omega

/-- The actions: new tasks are added, tasks that are neither queued nor current are woken,
and a task is not ticked any more once a tick has asked for a reschedule. -/
def Sharing (cap : ℕ) (ts : Finset T) (h : List (Cpu.Act T)) (c : Cpu (RR T) T) :
    Cpu.Act T → Prop
  | .addTask task => task ∈ ts ∧ ∀ a ∈ h, a.task ≠ some task
  | .taskTick _ => c.due = false
  | .wake task _ => task ∈ ts ∧ task ∉ c.scheduler.queue cap
  | _ => True

/-- A round-robin scheduler without tasks, for tasks with whole slices. -/
def StartsWhole (slice : ℕ) (s : RR T) : Prop :=
  s.readyQueue = .new ∧ ∀ t, s.timeSlice t = wrap slice

/-- The tasks of `l` are queued; a task that may be ticked has some of its slice left. -/
structure Sound (cap slice : ℕ) (ts : Finset T) (h : List (Cpu.Act T)) (l : List T)
    (c : Cpu (RR T) T) : Prop where
  rests : Deque.Rests cap l c.scheduler.readyQueue
  nodup : l.Nodup
  known : ∀ t ∈ l, t ∈ ts
  current : ∀ t, c.current = some t → t ∉ l ∧ t ∈ ts
  within : ∀ t, c.scheduler.left t ≤ slice
  range : ∀ t, wrap (c.scheduler.timeSlice t) = c.scheduler.timeSlice t
  live : ∀ t ∈ l, 1 ≤ c.scheduler.left t
  running : ∀ t, c.current = some t → c.due = false → 1 ≤ c.scheduler.left t
  fresh : ∀ t, (∀ a ∈ h, a.task ≠ some t) →
    c.scheduler.timeSlice t = wrap slice ∧ t ∉ l ∧ c.current ≠ some t

/-- What an action does to the queue and the slices. -/
inductive Moved (a : Cpu.Act T) (l l' : List T) (s s' : RR T) : Prop
  | same (hqueue : l' = l) (hleft : ∀ u, s'.left u = s.left u) (ha : ∀ u, a ≠ .taskTick u)
  | front (t : T) (hqueue : l' = t :: l) (hleft : ∀ u, s'.left u = s.left u)
      (ha : ∀ u, a ≠ .taskTick u)
  | back (t : T) (hqueue : l' = l ++ [t]) (hleft : ∀ u, u ≠ t → s'.left u = s.left u)
      (ha : ∀ u, a ≠ .taskTick u)
  | pick (t : T) (hqueue : l = t :: l') (hleft : ∀ u, s'.left u = s.left u)
      (ha : a = .pickNextTask (some t))
  | tick (t : T) (hqueue : l' = l) (hleft : ∀ u, u ≠ t → s'.left u = s.left u)
      (ha : a = .taskTick t) (hout : t ∉ l) (hone : s.left t = s'.left t + 1)

/-- Since the actions `g` the task `x` waits: another task has had no more ticks than a
slice has, and none that are left to it unless it is queued behind `x`. -/
def Waits (slice : ℕ) (x : T) (g : List (Cpu.Act T)) (l : List T) (s : RR T) : Prop :=
  ∃ l₁ l₂, l = l₁ ++ x :: l₂ ∧ ∀ y, y ≠ x → g.count (.taskTick y) ≤ slice ∧
    (y ∉ l₂ → g.count (.taskTick y) + s.left y ≤ slice)

section Waits

variable {a : Cpu.Act T} {l' : List T} {s' : RR T} {g : List (Cpu.Act T)} {x : T}

theorem Moved.waits (hm : Moved a l l' s s') (hw : Waits slice x g l s)
    (ha : a ≠ .pickNextTask (some x)) : Waits slice x (a :: g) l' s' := by
  obtain ⟨l₁, l₂, rfl, hbound⟩ := hw
  have hcount : (∀ u, a ≠ .taskTick u) → ∀ y, (a :: g).count (.taskTick y) =
      g.count (.taskTick y) := fun hno y => List.count_cons_of_ne (hno y)
  cases hm with
  | same hqueue hleft hno =>
      subst hqueue
      refine ⟨l₁, l₂, rfl, ?_⟩
      intro y hy
      rw [hcount hno, hleft]
      exact hbound y hy
  | front t hqueue hleft hno =>
      subst hqueue
      refine ⟨t :: l₁, l₂, rfl, ?_⟩
      intro y hy
      rw [hcount hno, hleft]
      exact hbound y hy
  | back t hqueue hleft hno =>
      subst hqueue
      refine ⟨l₁, l₂ ++ [t], by simp, ?_⟩
      intro y hy
      rw [hcount hno]
      refine ⟨(hbound y hy).1, ?_⟩
      intro hout
      rw [List.mem_append, List.mem_singleton, not_or] at hout
      rw [hleft y hout.2]
      exact (hbound y hy).2 hout.1
  | pick t hqueue hleft hpick =>
      subst hpick
      cases l₁ with
      | nil =>
          obtain ⟨rfl, -⟩ := List.cons.inj hqueue
          exact absurd rfl ha
      | cons u l₁ =>
          obtain ⟨rfl, rfl⟩ := List.cons.inj hqueue
          refine ⟨l₁, l₂, rfl, ?_⟩
          intro y hy
          rw [List.count_cons_of_ne (by simp), hleft]
          exact hbound y hy
  | tick t hqueue hleft htick hout hone =>
      subst hqueue htick
      refine ⟨l₁, l₂, rfl, ?_⟩
      intro y hy
      obtain ⟨hle, hahead⟩ := hbound y hy
      by_cases hyt : y = t
      · subst hyt
        have hlast := hahead fun hmem =>
          hout (List.mem_append_right l₁ (List.mem_cons_of_mem _ hmem))
        rw [List.count_cons_self]
        constructor
        · omega
        · intro _
          omega
      · rw [List.count_cons_of_ne (by simpa using fun heq => hyt heq.symm), hleft y hyt]
        exact ⟨hle, hahead⟩

end Waits

namespace Sound

variable {ts : Finset T} {h : List (Cpu.Act T)} {c c' : Cpu (RR T) T} {a : Cpu.Act T}

/-- There is room for a task that is not queued. -/
theorem room (hs : Sound cap slice ts h l c) (hcard : ts.card < cap) (ht : t ∈ ts)
    (hout : t ∉ l) : l.length + 1 < cap := by
  have hsub : l.toFinset ⊆ ts.erase t := by
    intro u hu
    rw [List.mem_toFinset] at hu
    refine Finset.mem_erase.mpr ⟨?_, hs.known u hu⟩
    rintro rfl
    exact hout hu
  have hlt : (ts.erase t).card < ts.card := Finset.card_erase_lt_of_mem ht
  have hle := Finset.card_le_card hsub
  rw [List.toFinset_card_of_nodup hs.nodup] at hle
  omega

omit [DecidableEq T] in
theorem fresh_cons (hs : Sound cap slice ts h l c) (hno : ∀ b ∈ a :: h, b.task ≠ some t) :
    c.scheduler.timeSlice t = wrap slice ∧ t ∉ l ∧ c.current ≠ some t ∧ a.task ≠ some t := by
  obtain ⟨hwhole, hout, hcur⟩ := hs.fresh t fun b hb => hno b (List.mem_cons_of_mem _ hb)
  exact ⟨hwhole, hout, hcur, hno a List.mem_cons_self⟩

/-- A task that is not queued goes to the end of the queue with a whole slice, by an action
that is about it. -/
theorem atBack (hs : Sound cap slice ts h l c) (hslice : 1 ≤ slice) (hsmall : slice < 2 ^ 64)
    (ht : t ∈ ts) (hout : t ∉ l) {s' : RR T} (hrest : Deque.Rests cap (l ++ [t]) s'.readyQueue)
    (hreset : s'.timeSlice = Function.update c.scheduler.timeSlice t (wrap slice))
    {current : Option T} {due : Bool}
    (hcur : ∀ u, current = some u → u ≠ t ∧ c.current = some u ∧ due = c.due)
    (ha : a.task = some t) (htick : ∀ u, a ≠ .taskTick u) :
    ∃ l', Sound cap slice ts (a :: h) l' ⟨s', current, due⟩ ∧ Moved a l l' c.scheduler s' ∧
      t ∈ l' := by
  have hself : s'.timeSlice t = wrap slice := by rw [hreset, Function.update_self]
  have hother : ∀ u, u ≠ t → s'.timeSlice u = c.scheduler.timeSlice u := by
    intro u hu
    rw [hreset, Function.update_of_ne hu]
  have hleft : ∀ u, u ≠ t → s'.left u = c.scheduler.left u :=
    fun u hu => left_congr (hother u hu)
  have hwhole : s'.left t = slice := left_whole hself hsmall
  have hmem : ∀ u, u ∈ l ++ [t] ↔ u ∈ l ∨ u = t := by simp
  refine ⟨l ++ [t], ⟨hrest, ?_, ?_, ?_, ?_, ?_, ?_, ?_, ?_⟩, .back t rfl hleft htick, by simp⟩
  · exact (List.perm_append_singleton t l).nodup_iff.mpr (List.nodup_cons.mpr ⟨hout, hs.nodup⟩)
  · intro u hu
    rcases (hmem u).mp hu with hu | rfl
    · exact hs.known u hu
    · exact ht
  · intro u hu
    obtain ⟨hut, hcu, -⟩ := hcur u hu
    obtain ⟨hul, huts⟩ := hs.current u hcu
    exact ⟨fun hu => ((hmem u).mp hu).elim hul hut, huts⟩
  · intro u
    by_cases hu : u = t
    · rw [hu]
      exact hwhole.le
    · exact (hleft u hu).le.trans (hs.within u)
  · intro u
    by_cases hu : u = t
    · subst hu
      dsimp only
      rw [hself]
      exact Int.bmod_bmod
    · dsimp only
      rw [hother u hu]
      exact hs.range u
  · intro u hu
    dsimp only
    by_cases hut : u = t
    · rw [hut, hwhole]
      exact hslice
    · rw [hleft u hut]
      exact hs.live u (((hmem u).mp hu).resolve_right hut)
  · intro u hu hdue
    obtain ⟨hut, hcu, hdueu⟩ := hcur u hu
    dsimp only
    rw [hleft u hut]
    exact hs.running u hcu (hdueu.symm.trans hdue)
  · intro u hno
    obtain ⟨hwholeu, hul, hcu, hau⟩ := hs.fresh_cons hno
    have hut : u ≠ t := fun heq => hau (heq ▸ ha)
    exact ⟨(hother u hut).trans hwholeu, fun hu => ((hmem u).mp hu).elim hul hut,
      fun hu => hcu (hcur u hu).2.1⟩

omit [DecidableEq T] in
/-- A task that is preempted with some of its slice left goes to the front. -/
theorem atFront (hs : Sound cap slice ts h l c) (ht : t ∈ ts) (hout : t ∉ l) {s' : RR T}
    (hrest : Deque.Rests cap (t :: l) s'.readyQueue)
    (hsame : s'.timeSlice = c.scheduler.timeSlice) (hmore : 0 < c.scheduler.timeSlice t)
    {current : Option T} {due : Bool}
    (hcur : ∀ u, current = some u → u ≠ t ∧ c.current = some u ∧ due = c.due)
    (ha : a.task = some t) (htick : ∀ u, a ≠ .taskTick u) :
    ∃ l', Sound cap slice ts (a :: h) l' ⟨s', current, due⟩ ∧ Moved a l l' c.scheduler s' ∧
      t ∈ l' := by
  have hleft : ∀ u, s'.left u = c.scheduler.left u := fun u => left_congr (by rw [hsame])
  refine ⟨t :: l, ⟨hrest, List.nodup_cons.mpr ⟨hout, hs.nodup⟩, ?_, ?_, ?_, ?_, ?_, ?_, ?_⟩,
    .front t rfl hleft htick, List.mem_cons_self⟩
  · intro u hu
    rcases List.mem_cons.mp hu with rfl | hu
    · exact ht
    · exact hs.known u hu
  · intro u hu
    obtain ⟨hut, hcu, -⟩ := hcur u hu
    obtain ⟨hul, huts⟩ := hs.current u hcu
    exact ⟨fun hmem => (List.mem_cons.mp hmem).elim hut hul, huts⟩
  · exact fun u => (hleft u).le.trans (hs.within u)
  · intro u
    dsimp only
    rw [hsame]
    exact hs.range u
  · intro u hu
    dsimp only
    rw [hleft]
    rcases List.mem_cons.mp hu with rfl | hu
    · exact left_pos (hs.range u) hmore
    · exact hs.live u hu
  · intro u hu hdue
    obtain ⟨-, hcu, hdueu⟩ := hcur u hu
    dsimp only
    rw [hleft]
    exact hs.running u hcu (hdueu.symm.trans hdue)
  · intro u hno
    obtain ⟨hwhole, hul, hcu, hau⟩ := hs.fresh_cons hno
    have hut : u ≠ t := fun heq => hau (heq ▸ ha)
    dsimp only
    rw [hsame]
    exact ⟨hwhole, fun hmem => (List.mem_cons.mp hmem).elim hut hul,
      fun hu => hcu (hcur u hu).2.1⟩

theorem putBack (hs : Sound cap slice ts h l c) (hslice : 1 ≤ slice) (hsmall : slice < 2 ^ 64)
    (hcard : ts.card < cap) (ht : t ∈ ts) (hout : t ∉ l) {preempt : Bool} {s' : RR T}
    (hput : c.scheduler.putPrevTask slice cap t preempt = some s') {o : Option T}
    {due : Bool} (hcur : ∀ u, o = some u → u ≠ t ∧ c.current = some u ∧ due = c.due)
    (ha : a.task = some t) (htick : ∀ u, a ≠ .taskTick u) :
    ∃ l', Sound cap slice ts (a :: h) l' ⟨s', o, due⟩ ∧ Moved a l l' c.scheduler s' ∧
      t ∈ l' := by
  rcases putPrevTask_cases hs.rests (hs.room hcard ht hout) hput with
    ⟨hrest, hsame, hmore⟩ | ⟨hrest, hreset⟩
  · exact hs.atFront ht hout hrest hsame hmore hcur ha htick
  · exact hs.atBack hslice hsmall ht hout hrest hreset hcur ha htick

/-- A new task has a whole slice. -/
theorem addTask (hs : Sound cap slice ts h l c) (hslice : 1 ≤ slice) (hsmall : slice < 2 ^ 64)
    (hcard : ts.card < cap) (ht : t ∈ ts) (hnew : ∀ a ∈ h, a.task ≠ some t) {s' : RR T}
    (hadd : c.scheduler.addTask cap t = some s') :
    ∃ l', Sound cap slice ts (.addTask t :: h) l' { c with scheduler := s' } ∧
      Moved (.addTask t) l l' c.scheduler s' ∧ t ∈ l' := by
  obtain ⟨hwhole, hout, hcu⟩ := hs.fresh t hnew
  obtain ⟨m, hadd', hrest⟩ := addTask_rests hs.rests (hs.room hcard ht hout) t
  cases hadd.symm.trans hadd'
  refine hs.atBack hslice hsmall ht hout hrest ?_ ?_ rfl fun u heq => by cases heq
  · rw [← hwhole, Function.update_eq_self]
  · exact fun u hu => ⟨fun heq => hcu (heq ▸ hu), hu, rfl⟩

theorem taskTick (hs : Sound cap slice ts h l c) (hcur : c.current = some t)
    (hdue : c.due = false) :
    Sound cap slice ts (.taskTick t :: h) l
        ⟨(c.scheduler.taskTick t).1, some t, (c.scheduler.taskTick t).2⟩ ∧
      Moved (.taskTick t) l l c.scheduler (c.scheduler.taskTick t).1 := by
  obtain ⟨hout, ht⟩ := hs.current t hcur
  have hone := left_taskTick (hs.running t hcur hdue)
  have hother : ∀ u, u ≠ t →
      (c.scheduler.taskTick t).1.timeSlice u = c.scheduler.timeSlice u := by
    intro u hu
    simp [RR.taskTick, Function.update_of_ne hu]
  have hleft : ∀ u, u ≠ t → (c.scheduler.taskTick t).1.left u = c.scheduler.left u :=
    fun u hu => left_congr (hother u hu)
  refine ⟨⟨hs.rests, hs.nodup, hs.known, ?_, ?_, ?_, ?_, ?_, ?_⟩, .tick t rfl hleft rfl hout hone⟩
  · intro u hu
    cases hu
    exact ⟨hout, ht⟩
  · intro u
    by_cases hu : u = t
    · subst hu
      have := hs.within u
      dsimp only
      omega
    · exact (hleft u hu).le.trans (hs.within u)
  · intro u
    by_cases hu : u = t
    · subst hu
      simp only [RR.taskTick, Function.update_self]
      exact Int.bmod_bmod
    · dsimp only
      rw [hother u hu]
      exact hs.range u
  · intro u hu
    have hut : u ≠ t := fun heq => hout (heq ▸ hu)
    dsimp only
    rw [hleft u hut]
    exact hs.live u hu
  · intro u hu hresched
    cases hu
    exact left_taskTick_pos (hs.range t) hresched
  · intro u hno
    obtain ⟨hwhole, hul, hcu, -⟩ := hs.fresh_cons hno
    have hut : u ≠ t := fun heq => hcu (heq ▸ hcur)
    exact ⟨(hother u hut).trans hwhole, hul, fun heq => hut (Option.some.inj heq).symm⟩

omit [DecidableEq T] in
/-- An action that leaves the slices as they are and at most takes tasks off the head of the
queue. -/
theorem settle (hs : Sound cap slice ts h l c) {l' : List T} {m : Deque.Mem T}
    {current : Option T} {due : Bool} (hrest : Deque.Rests cap l' m) (hqueue : l' <:+ l)
    (hcur : ∀ u, current = some u → u ∉ l' ∧ u ∈ ts ∧ (due = false → 1 ≤ c.scheduler.left u) ∧
      (a.task = some u ∨ c.current = some u)) :
    Sound cap slice ts (a :: h) l' ⟨{ c.scheduler with readyQueue := m }, current, due⟩ where
  rests := hrest
  nodup := hs.nodup.sublist hqueue.sublist
  known := fun u hu => hs.known u (hqueue.subset hu)
  current := fun u hu => ⟨(hcur u hu).1, (hcur u hu).2.1⟩
  within := hs.within
  range := hs.range
  live := fun u hu => hs.live u (hqueue.subset hu)
  running := fun u hu hdue => (hcur u hu).2.2.1 hdue
  fresh := by
    intro u hno
    obtain ⟨hwhole, hul, hcu, hau⟩ := hs.fresh_cons hno
    exact ⟨hwhole, fun hmem => hul (hqueue.subset hmem), fun hu => (hcur u hu).2.2.2.elim hau hcu⟩

theorem step (hs : Sound cap slice ts h l c) (hslice : 1 ≤ slice) (hsmall : slice < 2 ^ 64)
    (hcard : ts.card < cap) (hguard : Sharing cap ts h c a)
    (hstep : a.apply (rr slice cap) c = some c') :
    ∃ l', Sound cap slice ts (a :: h) l' c' ∧ Moved a l l' c.scheduler c'.scheduler ∧
      ∀ t, a.enters = some t → t ∈ l' := by
  cases a with
  | addTask t =>
      obtain ⟨ht, hnew⟩ := hguard
      obtain ⟨s', hadd, rfl⟩ := Cpu.addTask_eq hstep
      obtain ⟨l', hs', hm, hmem⟩ := hs.addTask hslice hsmall hcard ht hnew hadd
      exact ⟨l', hs', hm, fun u hu => Option.some.inj hu ▸ hmem⟩
  | pickNextTask picked =>
      obtain ⟨hnone, s', hpick, rfl⟩ := Cpu.pickNextTask_eq hstep
      obtain ⟨m, hpick', hrest⟩ := pickNextTask_rests hs.rests
      obtain ⟨rfl, rfl⟩ := Prod.mk.inj (Option.some.inj (hpick.symm.trans hpick'))
      refine ⟨l.tail, hs.settle hrest (List.tail_suffix l) ?_, ?_, fun t ht => by cases ht⟩
      · intro u hu
        obtain ⟨l', rfl⟩ : ∃ l', l = u :: l' := by
          cases l with
          | nil => cases hu
          | cons w l => exact ⟨l, by rw [List.head?_cons, Option.some.injEq] at hu; rw [hu]⟩
        exact ⟨(List.nodup_cons.mp hs.nodup).1, hs.known u List.mem_cons_self,
          fun _ => hs.live u List.mem_cons_self, .inl hu⟩
      · cases l with
        | nil => exact .same rfl (fun _ => rfl) fun u heq => by cases heq
        | cons t l => exact .pick t rfl (fun _ => rfl) rfl
  | putPrevTask t preempt =>
      obtain ⟨hcur, s', hput, rfl⟩ := Cpu.putPrevTask_eq hstep
      obtain ⟨hout, ht⟩ := hs.current t hcur
      obtain ⟨l', hs', hm, hmem⟩ := hs.putBack (a := .putPrevTask t preempt) (o := none)
        hslice hsmall hcard ht hout hput (fun u hu => by cases hu) rfl
        fun u heq => by cases heq
      exact ⟨l', hs', hm, fun u hu => Option.some.inj hu ▸ hmem⟩
  | taskTick t =>
      obtain ⟨hcur, s', resched, htick, rfl⟩ := Cpu.taskTick_eq hstep
      obtain ⟨rfl, rfl⟩ := Prod.mk.inj (Option.some.inj htick)
      obtain ⟨hs', hm⟩ := hs.taskTick hcur hguard
      exact ⟨l, hs', hm, fun u hu => by cases hu⟩
  | setPriority t prio =>
      obtain ⟨hcur, s', done, hset, rfl⟩ := Cpu.setPriority_eq hstep
      obtain ⟨rfl, rfl⟩ := Prod.mk.inj (Option.some.inj hset)
      refine ⟨l, hs.settle hs.rests (List.suffix_refl l) ?_, ?_, fun u hu => by cases hu⟩
      · intro u hu
        obtain ⟨hout, hts⟩ := hs.current u hu
        exact ⟨hout, hts, hs.running u hu, .inr hu⟩
      · exact .same rfl (fun _ => rfl) fun u heq => by cases heq
  | leave t =>
      obtain ⟨hcur, rfl⟩ := Cpu.leave_eq hstep
      refine ⟨l, hs.settle hs.rests (List.suffix_refl l) (fun u hu => by cases hu), ?_,
        fun u hu => by cases hu⟩
      exact .same rfl (fun _ => rfl) fun u heq => by cases heq
  | wake t preempt =>
      obtain ⟨ht, hout⟩ := hguard
      obtain ⟨hcur, s', hput, rfl⟩ := Cpu.wake_eq hstep
      rw [RR.queue, hs.rests.items] at hout
      obtain ⟨l', hs', hm, hmem⟩ := hs.putBack (a := .wake t preempt) hslice hsmall hcard ht hout
        hput (fun u hu => ⟨fun heq => hcur (heq ▸ hu), hu, rfl⟩) rfl fun u heq => by cases heq
      exact ⟨l', hs', hm, fun u hu => Option.some.inj hu ▸ hmem⟩

/-- No other task has had a tick when the task starts to wait. -/
theorem waits (hs : Sound cap slice ts h l c) (ht : t ∈ l) :
    Waits slice t [] l c.scheduler := by
  obtain ⟨l₁, l₂, rfl⟩ := List.append_of_mem ht
  refine ⟨l₁, l₂, rfl, ?_⟩
  intro y _
  rw [List.count_nil]
  exact ⟨Nat.zero_le _, fun _ => by rw [Nat.zero_add]; exact hs.within y⟩

end Sound

section Runs

variable {ts : Finset T} {c : Cpu (RR T) T}

theorem sound_run (hslice : 1 ≤ slice) (hsmall : slice < 2 ^ 64) (hcard : ts.card < cap)
    {h : List (Cpu.Act T)}
    (hrun : (Cpu.machine (rr slice cap) (StartsWhole slice)).RunOf (Sharing cap ts) h c) :
    ∃ l, Sound cap slice ts h l c := by
  refine hrun.invariant (I := fun h c => ∃ l, Sound cap slice ts h l c) ?_ ?_
  · rintro ⟨s, current, due⟩ ⟨⟨hnew, hwhole⟩, rfl, rfl⟩
    refine ⟨[], ?_, List.nodup_nil, fun t ht => (List.not_mem_nil ht).elim,
      fun t ht => (Option.some_ne_none t ht.symm).elim, ?_, ?_,
      fun t ht => (List.not_mem_nil ht).elim, fun t ht => (Option.some_ne_none t ht.symm).elim, ?_⟩
    · dsimp only at hnew ⊢
      rw [hnew]
      exact Deque.Inv.init (by omega)
    · exact fun t => (left_whole (hwhole t) hsmall).le
    · intro t
      dsimp only at hwhole ⊢
      rw [hwhole t]
      exact Int.bmod_bmod
    · exact fun t _ => ⟨hwhole t, List.not_mem_nil, fun ht => Option.some_ne_none t ht.symm⟩
  · rintro h c a c' - ⟨l, hs⟩ hguard hstep
    obtain ⟨l', hs', -⟩ := hs.step hslice hsmall hcard hguard hstep
    exact ⟨l', hs'⟩

/-- From the moment a task enters the ready queue until it is picked, every other task gets
at most as many ticks as a slice has. -/
theorem wait_bounded (hslice : 1 ≤ slice) (hsmall : slice < 2 ^ 64) (hcard : ts.card < cap)
    {h₁ h₂ : List (Cpu.Act T)} {e : Cpu.Act T}
    (hrun : (Cpu.machine (rr slice cap) (StartsWhole slice)).RunOf (Sharing cap ts)
      (h₂ ++ e :: h₁) c) {x : T} (he : e.enters = some x)
    (hwaits : .pickNextTask (some x) ∉ h₂) :
    ∀ y, y ≠ x → h₂.count (.taskTick y) ≤ slice := by
  have hinv : ∃ l, Sound cap slice ts (h₂ ++ e :: h₁) l c ∧ Waits slice x h₂ l c.scheduler := by
    induction h₂ generalizing c with
    | nil =>
        cases hrun with
        | next hprev hguard hstep =>
            obtain ⟨l, hs⟩ := sound_run hslice hsmall hcard hprev
            obtain ⟨l', hs', -, hmem⟩ := hs.step hslice hsmall hcard hguard hstep
            exact ⟨l', hs', hs'.waits (hmem x he)⟩
    | cons a h₂ ih =>
        rw [List.mem_cons, not_or] at hwaits
        cases hrun with
        | next hprev hguard hstep =>
            obtain ⟨l, hs, hw⟩ := ih hprev hwaits.2
            obtain ⟨l', hs', hm, -⟩ := hs.step hslice hsmall hcard hguard hstep
            exact ⟨l', hs', hm.waits hw fun heq => hwaits.1 heq.symm⟩
  obtain ⟨l, -, l₁, l₂, -, hbound⟩ := hinv
  exact fun y hy => (hbound y hy).1

end Runs

instance (cap : ℕ) (ts : Finset T) (h : List (Cpu.Act T)) (c : Cpu (RR T) T) :
    ∀ a, Decidable (Sharing cap ts h c a)
  | .addTask task => inferInstanceAs (Decidable (task ∈ ts ∧ ∀ a ∈ h, a.task ≠ some task))
  | .taskTick _ => inferInstanceAs (Decidable (c.due = false))
  | .wake task _ => inferInstanceAs (Decidable (task ∈ ts ∧ task ∉ c.scheduler.queue cap))
  | .pickNextTask _ => .isTrue trivial
  | .putPrevTask _ _ => .isTrue trivial
  | .setPriority _ _ => .isTrue trivial
  | .leave _ => .isTrue trivial

/-- While task 8 waits, task 7 has the two ticks of its slice, preempted in between. -/
theorem wait_bounded_two : ∃ h₂ : List (Cpu.Act ℕ), h₂.count (.taskTick 7) ≤ 2 ∧
    .taskTick 7 ∈ h₂ := by
  let as : List (Cpu.Act ℕ) := [.addTask 7, .addTask 8, .pickNextTask (some 7), .taskTick 7,
    .putPrevTask 7 true, .pickNextTask (some 7), .taskTick 7]
  let s₀ : RR ℕ := ⟨.new, fun _ => 2⟩
  let played := Labelled.play (Cpu.perform (rr 2 4)) (Sharing 4 {7, 8}) as [] ⟨s₀, none, false⟩
  let r := played.get (by decide)
  have hplay : played = some r := (Option.some_get (by decide : played.isSome)).symm
  have hs₀ : StartsWhole 2 s₀ := ⟨rfl, fun _ => rfl⟩
  have hrun := Cpu.run_play hs₀ hplay
  have hh : r.1 = [.taskTick 7, .pickNextTask (some 7), .putPrevTask 7 true, .taskTick 7,
    .pickNextTask (some 7)] ++ .addTask 8 :: [.addTask 7] := by decide
  rw [hh] at hrun
  exact ⟨_, wait_bounded (by decide) (by norm_num) (by decide) hrun rfl (by decide) 7 (by decide),
    by decide⟩

end RR

end Sched
