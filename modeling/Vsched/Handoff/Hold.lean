import Vsched.Handoff.Place

/-!
# A task is held by at most one CPU

A CPU holds a task from the moment it claims it until a resume point of the
same CPU has taken it out of the slot `prev_task`. While `on_cpu` is cleared
for tasks only that no CPU holds any more, the flag covers every holder, so the
CPU that wakes a task and waits for the flag queues it when nobody holds it.
-/

namespace Handoff

variable {κ τ : Type*}

/-- CPU `c` runs `t`, is about to run it, or has not finished leaving it. -/
def Held (k : Core κ τ) (c : κ) (t : τ) : Prop :=
  k.role c ≠ .off ∧ (k.current c = t ∨ k.prev c = some t ∨ k.role c = .claimed t)

/-- What a resume point of `c` takes is held by no CPU afterwards. -/
def ClearOk (k : Core κ τ) (c : κ) (x : Option τ) : Prop :=
  ∀ y, x = some y → ∀ d, k.role d ≠ .off →
    k.current d ≠ y ∧ k.role d ≠ .claimed y ∧ (d ≠ c → k.prev d ≠ some y)

/-- Holders are unique and covered by `on_cpu`. -/
structure Hold (k : Core κ τ) : Prop where
  on : ∀ c t, Held k c t → k.onCpu t = true
  one : ∀ c d t, Held k c t → Held k d t → c = d
  near : ∀ t p d, At k t p → (∀ e, p ≠ .waking e) → Held k d t → d = p.cpu
  passed : ∀ c b u d, k.role c = .work b (.passed u) → ¬ Held k d u
  idle : ∀ c d, k.role c ≠ .off → Held k d (k.idle c) → d = c
  made : ∀ d t, Held k d t → k.created t = true
  seated : ∀ t, k.created t = true → k.state t = .running →
    ∃ c, At k t (.seat c) ∨ At k t (.started c)

variable {isIdle : τ → Bool} {k k' : Core κ τ} {c : κ}

theorem held_congr {d : κ} {t : τ} {j : Core κ τ} (hrole : j.role d = k.role d)
    (hcurrent : j.current d = k.current d) (hprev : j.prev d = k.prev d) :
    Held j d t ↔ Held k d t := by
  simp only [Held, hrole, hcurrent, hprev]

/-- The moves of CPU `c` after which it holds nothing new. -/
theorem Hold.moveAt (hk : Hold k)
    (hframe : ∀ d, d ≠ c → k'.role d = k.role d ∧ k'.current d = k.current d ∧
      k'.ready d = k.ready d ∧ k'.prev d = k.prev d)
    (hheld : ∀ t, Held k' c t → Held k c t)
    (hon : ∀ d t, Held k' d t → k'.onCpu t = k.onCpu t)
    (hlocal : ∀ t p, p.cpu = c → (∀ e, p ≠ .waking e) → At k' t p →
      At k t p ∨ ∀ d, Held k d t → d = c)
    (hpassed : ∀ b u, k'.role c = .work b (.passed u) → ∀ d, ¬ Held k d u)
    (hcreated : k'.created = k.created) (hidle : k'.idle = k.idle)
    (hoff : k'.role c ≠ .off ∧ k.role c ≠ .off)
    (hseated : ∀ t, k.created t = true → k'.state t = .running →
      At k' t (.seat c) ∨ At k' t (.started c) ∨
        k.state t = .running ∧ ¬ At k t (.seat c) ∧ ¬ At k t (.started c)) : Hold k' := by
  have hsub : ∀ d t, Held k' d t → Held k d t := by
    intro d t hd
    by_cases hdc : d = c
    · subst hdc
      exact hheld t hd
    · obtain ⟨hrole, hcurrent, -, hprev⟩ := hframe d hdc
      rwa [held_congr hrole hcurrent hprev] at hd
  have hoff' : ∀ d, k'.role d ≠ .off → k.role d ≠ .off := by
    intro d hd
    by_cases hdc : d = c
    · subst hdc
      exact hoff.2
    · rwa [(hframe d hdc).1] at hd
  constructor
  · intro d t hd
    rw [hon d t hd]
    exact hk.on d t (hsub d t hd)
  · intro d e t hd he
    exact hk.one d e t (hsub d t hd) (hsub e t he)
  · intro t p d hp hnw hd
    have hd := hsub d t hd
    by_cases hpc : p.cpu = c
    · rcases hlocal t p hpc hnw hp with hp | hall
      · exact hk.near t p d hp hnw hd
      · rw [hpc]
        exact hall d hd
    · obtain ⟨hrole, hcurrent, hready, -⟩ := hframe _ hpc
      rw [at_congr hrole hcurrent hready] at hp
      exact hk.near t p d hp hnw hd
  · intro d b u e hd he
    have he := hsub e u he
    by_cases hdc : d = c
    · subst hdc
      exact hpassed b u hd e he
    · rw [(hframe d hdc).1] at hd
      exact hk.passed d b u e hd he
  · intro d e hd he
    rw [hidle] at he
    exact hk.idle d e (hoff' d hd) (hsub e _ he)
  · intro d t hd
    rw [hcreated]
    exact hk.made d t (hsub d t hd)
  · intro t ht hrun
    rw [hcreated] at ht
    rcases hseated t ht hrun with h | h | ⟨hold, hns, hnst⟩
    · exact ⟨c, .inl h⟩
    · exact ⟨c, .inr h⟩
    · obtain ⟨d, hd⟩ := hk.seated t ht hold
      have hdc : d ≠ c := by
        rintro rfl
        rcases hd with hd | hd
        · exact hns hd
        · exact hnst hd
      obtain ⟨hrole, hcurrent, hready, -⟩ := hframe d hdc
      refine ⟨d, hd.imp ?_ ?_⟩
      · exact (at_congr (p := .seat d) hrole hcurrent hready).mpr
      · exact (at_congr (p := .started d) hrole hcurrent hready).mpr

/-- A CPU whose current and previous task are the same holds nothing new, unless it
has just claimed a task. -/
theorem Held.of_same {t : τ} (hd : Held k' c t) (hon : k.role c ≠ .off)
    (hrole : ∀ n, k'.role c ≠ .claimed n) (hcurrent : k'.current c = k.current c)
    (hprev : k'.prev c = k.prev c) : Held k c t := by
  obtain ⟨-, h | h | h⟩ := hd
  · exact ⟨hon, .inl (hcurrent ▸ h)⟩
  · exact ⟨hon, .inr (.inl (hprev ▸ h))⟩
  · exact absurd h (hrole t)

theorem not_started_of_work {b : Bool} {w : Wake τ} {t : τ} (hrole : k.role c = .work b w) :
    ¬ At k t (.started c) := by
  rintro (h | h) <;> rw [hrole] at h <;> cases h

variable [DecidableEq κ] [DecidableEq τ]

/-- The current task yields, blocks or exits: `c` holds what it held. -/
theorem Hold.unseat {st : TaskState} {r : Role τ} (hk : Hold k)
    (hrole : k.role c = .work true .none) (hr : r = .work false .none ∨ r = .yielding)
    (hst : st ≠ .running) : Hold ((k.setState (k.current c) st).setRole c r) := by
  have hseat : At k (k.current c) (.seat c) := ⟨⟨_, hrole⟩, rfl⟩
  refine hk.moveAt (c := c) ?_ ?_ (fun _ _ _ => rfl) ?_ ?_ rfl rfl ?_ ?_
  · intro d hd
    simp [hd]
  · intro t ht
    refine ht.of_same (by simp [hrole]) ?_ rfl rfl
    rcases hr with rfl | rfl <;> simp
  · intro t p hpc hnw hp
    rcases hr with rfl | rfl
    · rcases at_work hp hpc (Function.update_self _ _ _) with ⟨-, hfalse, -⟩ | ⟨-, hw⟩ | ⟨rfl, ht⟩
      · cases hfalse
      · cases hw
      · exact .inl ht
    · rcases at_yielding hp hpc (Function.update_self _ _ _) with ⟨rfl, rfl⟩ | ⟨rfl, ht⟩
      · exact .inr fun d hd => hk.near _ (.seat c) d hseat (by simp) hd
      · exact .inl ht
  · intro b u h
    rcases hr with rfl | rfl <;> simp at h
  · rcases hr with rfl | rfl <;> simp [hrole]
  · intro t _ hrun
    by_cases htc : t = k.current c
    · subst htc
      simp at hrun
      exact absurd hrun hst
    · refine .inr (.inr ⟨by simpa [htc] using hrun, ?_, not_started_of_work hrole⟩)
      rintro ⟨-, rfl⟩
      exact htc rfl

theorem Hold.yieldFail (hk : Hold k) (hrole : k.role c = .work true .none)
    (hst : k.state (k.current c) ≠ .running) : Hold (k.setRole c (.work false .none)) := by
  have hsame : k.setState (k.current c) (k.state (k.current c)) = k := by
    simp [Core.setState]
  have h := hk.unseat hrole (.inl rfl) hst
  rwa [hsame] at h

/-- A task held by no other CPU is put into the queue of `c`. -/
theorem Hold.queue {a : τ} {seated : Bool} {l l' : List τ} (hk : Hold k)
    (hrole : k.role c = .yielding ∧ seated = false ∨ ∃ w, k.role c = .work seated w)
    (ha : ∀ d, Held k d a → d = c) (hready : k.ready c = l ++ l') :
    Hold ((k.setReady c (l ++ a :: l')).setRole c (.work seated .none)) := by
  have hon : k.role c ≠ .off := by rcases hrole with ⟨h, -⟩ | ⟨w, h⟩ <;> simp [h]
  have hns : ∀ t, ¬ At k t (.started c) := by
    rintro t (h | h) <;> rcases hrole with ⟨h', -⟩ | ⟨w, h'⟩ <;> rw [h'] at h <;> cases h
  refine hk.moveAt (c := c) ?_ ?_ (fun _ _ _ => rfl) ?_ ?_ rfl rfl ?_ ?_
  · intro d hd
    simp [hd]
  · intro t ht
    exact ht.of_same hon (by simp) rfl rfl
  · intro t p hpc hnw hp
    rcases at_work hp hpc (Function.update_self _ _ _) with ⟨rfl, rfl, rfl⟩ | ⟨-, hw⟩ | ⟨rfl, ht⟩
    · rcases hrole with ⟨-, hfalse⟩ | ⟨w, hw⟩
      · cases hfalse
      · exact .inl ⟨⟨w, hw⟩, rfl⟩
    · cases hw
    · by_cases hta : t = a
      · subst hta
        exact .inr ha
      · exact .inl (by simpa [At, hready, hta] using ht)
  · intro b u h
    simp at h
  · exact ⟨by simp, hon⟩
  · intro t _ hrun
    by_cases hseat : At k t (.seat c)
    · obtain ⟨⟨w, hw⟩, hcur⟩ := hseat
      rcases hrole with ⟨h, -⟩ | ⟨w', h⟩ <;> rw [h] at hw <;> cases hw
      exact .inl ⟨⟨.none, by simp⟩, hcur⟩
    · exact .inr (.inr ⟨hrun, hseat, hns t⟩)

theorem Hold.wake {seated : Bool} {u : τ} (hk : Hold k)
    (hrole : k.role c = .work seated .none) (hblocked : k.state u = .blocked) :
    Hold ((k.setState u .ready).setRole c (.work seated (.spinning u))) := by
  refine hk.moveAt (c := c) ?_ ?_ (fun _ _ _ => rfl) ?_ ?_ rfl rfl ?_ ?_
  · intro d hd
    simp [hd]
  · intro t ht
    exact ht.of_same (by simp [hrole]) (by simp) rfl rfl
  · intro t p hpc hnw hp
    rcases at_work hp hpc (Function.update_self _ _ _) with ⟨rfl, rfl, rfl⟩ | ⟨rfl, -⟩ | ⟨rfl, ht⟩
    · exact .inl ⟨⟨_, hrole⟩, rfl⟩
    · exact absurd rfl (hnw c)
    · exact .inl ht
  · intro b v h
    simp at h
  · simp [hrole]
  · intro t _ hrun
    have htu : t ≠ u := by
      rintro rfl
      simp at hrun
    by_cases hseat : At k t (.seat c)
    · obtain ⟨⟨w, hw⟩, hcur⟩ := hseat
      rw [hrole] at hw
      cases hw
      exact .inl ⟨⟨.spinning u, by simp⟩, hcur⟩
    · exact .inr (.inr ⟨by simpa [htu] using hrun, hseat, not_started_of_work hrole⟩)

omit [DecidableEq κ] in
theorem Hold.wakeIdle {u : τ} (hk : Hold k) (hblocked : k.state u = .blocked) :
    Hold (k.setState u .ready) where
  on := hk.on
  one := hk.one
  near := fun t p d hp => hk.near t p d (by cases p <;> exact hp)
  passed := hk.passed
  idle := hk.idle
  made := hk.made
  seated := by
    intro t ht hrun
    have htu : t ≠ u := by
      rintro rfl
      simp at hrun
    exact hk.seated t ht (by simpa [htu] using hrun)

omit [DecidableEq τ] in
/-- A task whose flag is clear is held by nobody. -/
theorem Hold.pass {seated : Bool} {u : τ} (hk : Hold k)
    (hrole : k.role c = .work seated (.spinning u)) (hclear : k.onCpu u = false) :
    Hold (k.setRole c (.work seated (.passed u))) := by
  refine hk.moveAt (c := c) ?_ ?_ (fun _ _ _ => rfl) ?_ ?_ rfl rfl ?_ ?_
  · intro d hd
    simp [hd]
  · intro t ht
    exact ht.of_same (by simp [hrole]) (by simp) rfl rfl
  · intro t p hpc hnw hp
    rcases at_work hp hpc (Function.update_self _ _ _) with ⟨rfl, rfl, rfl⟩ | ⟨rfl, -⟩ | ⟨rfl, ht⟩
    · exact .inl ⟨⟨_, hrole⟩, rfl⟩
    · exact absurd rfl (hnw c)
    · exact .inl ht
  · intro b v h d hd
    simp only [Core.setRole_role, Function.update_self, Role.work.injEq, Wake.passed.injEq] at h
    obtain ⟨-, rfl⟩ := h
    rw [hk.on d u hd] at hclear
    cases hclear
  · simp [hrole]
  · intro t _ hrun
    by_cases hseat : At k t (.seat c)
    · obtain ⟨⟨w, hw⟩, hcur⟩ := hseat
      rw [hrole] at hw
      cases hw
      exact .inl ⟨⟨.passed u, by simp⟩, hcur⟩
    · exact .inr (.inr ⟨hrun, hseat, not_started_of_work hrole⟩)

omit [DecidableEq τ] in
/-- The chosen task was in the queue of `c` or is its idle task. -/
theorem Hold.choose {n : τ} {l : List τ} (hk : Hold k)
    (hrole : k.role c = .work false .none) (hn : ∀ d, Held k d n → d = c)
    (hl : ∀ t, t ∈ l → t ∈ k.ready c) :
    Hold ((k.setReady c l).setRole c (.chosen n)) := by
  refine hk.moveAt (c := c) ?_ ?_ (fun _ _ _ => rfl) ?_ ?_ rfl rfl ?_ ?_
  · intro d hd
    simp [hd]
  · intro t ht
    exact ht.of_same (by simp [hrole]) (by simp) rfl rfl
  · intro t p hpc hnw hp
    rcases at_chosen hp hpc (Function.update_self _ _ _) with ⟨rfl, rfl⟩ | ⟨rfl, ht⟩
    · exact .inr hn
    · exact .inl (hl t (by simpa using ht))
  · intro b u h
    simp at h
  · simp [hrole]
  · intro t _ hrun
    refine .inr (.inr ⟨hrun, ?_, not_started_of_work hrole⟩)
    rintro ⟨⟨w, hw⟩, -⟩
    rw [hrole] at hw
    cases hw

theorem Hold.start {n : τ} (hk : Hold k) (hrole : k.role c = .chosen n) :
    Hold ((k.setState n .running).setRole c
      (if n = k.current c then .work true .none else .starting n)) := by
  have hchosen : At k n (.chosen c) := hrole
  have hn : ∀ d, Held k d n → d = c := fun d hd => hk.near _ _ d hchosen (by simp) hd
  refine hk.moveAt (c := c) ?_ ?_ (fun _ _ _ => rfl) ?_ ?_ rfl rfl ?_ ?_
  · intro d hd
    simp [hd]
  · intro t ht
    refine ht.of_same (by simp [hrole]) ?_ rfl rfl
    intro m
    split <;> simp_all
  · intro t p hpc hnw hp
    by_cases hcur : n = k.current c
    · rw [if_pos hcur] at hp
      rcases at_work hp hpc (Function.update_self _ _ _) with ⟨rfl, -, rfl⟩ | ⟨rfl, hw⟩ | ⟨rfl, ht⟩
      · exact .inr (hcur ▸ hn)
      · cases hw
      · exact .inl ht
    · rw [if_neg hcur] at hp
      rcases at_started hp hpc (.inl (Function.update_self _ _ _)) with ⟨rfl, rfl⟩ | ⟨rfl, ht⟩
      · exact .inr hn
      · exact .inl ht
  · intro b u h
    split at h <;> simp at h
  · constructor
    · split <;> simp
    · simp [hrole]
  · intro t _ hrun
    by_cases htn : t = n
    · subst htn
      by_cases hcur : t = k.current c
      · exact .inl ⟨⟨.none, by simp [← hcur]⟩, hcur.symm⟩
      · exact .inr (.inl (.inl (by simp [hcur])))
    · refine .inr (.inr ⟨by simpa [htn] using hrun, ?_, ?_⟩)
      · rintro ⟨⟨w, hw⟩, -⟩
        rw [hrole] at hw
        cases hw
      · rintro (h | h) <;> rw [hrole] at h <;> cases h

/-- Claiming the started task makes `c` its only holder. -/
theorem Hold.claim {n : τ} (hk : Hold k) (hp : Placed isIdle (fun _ => True) k)
    (hrole : k.role c = .starting n) :
    Hold ((k.setOnCpu n true).setRole c (.claimed n)) := by
  have hon : k.role c ≠ .off := by simp [hrole]
  have hstarted : At k n (.started c) := .inl hrole
  have hn : ∀ d, Held k d n → d = c := fun d hd => hk.near _ _ d hstarted (by simp) hd
  have hat : ∀ t p, At ((k.setOnCpu n true).setRole c (.claimed n)) t p → At k t p := by
    intro t p hp
    by_cases hpc : p.cpu = c
    · rcases at_started hp hpc (.inr (Function.update_self _ _ _)) with ⟨rfl, rfl⟩ | ⟨rfl, ht⟩
      · exact hstarted
      · exact ht
    · rwa [at_congr (j := (k.setOnCpu n true).setRole c _) (Function.update_of_ne hpc _ _)
        rfl rfl] at hp
  have hsub : ∀ d t, Held ((k.setOnCpu n true).setRole c (.claimed n)) d t →
      Held k d t ∨ d = c ∧ t = n := by
    intro d t hd
    by_cases hdc : d = c
    · subst hdc
      obtain ⟨-, h | h | h⟩ := hd
      · exact .inl ⟨hon, .inl h⟩
      · exact .inl ⟨hon, .inr (.inl h)⟩
      · refine .inr ⟨rfl, ?_⟩
        simpa using h.symm
    · rw [held_congr (j := (k.setOnCpu n true).setRole c _) (Function.update_of_ne hdc _ _)
        rfl rfl] at hd
      exact .inl hd
  constructor
  · intro d t hd
    by_cases htn : t = n
    · simp [htn]
    · rcases hsub d t hd with hd | ⟨-, hd⟩
      · simpa [htn] using hk.on d t hd
      · exact absurd hd htn
  · intro d e t hd he
    rcases hsub d t hd with hd' | ⟨hdc, rfl⟩ <;> rcases hsub e t he with he' | ⟨hec, hen⟩
    · exact hk.one d e t hd' he'
    · rw [hec]
      exact hn d (hen ▸ hd')
    · rw [hdc]
      exact (hn e he').symm
    · rw [hdc, hec]
  · intro t p d hat' hnw hd
    rcases hsub d t hd with hd | ⟨rfl, rfl⟩
    · exact hk.near t p d (hat t p hat') hnw hd
    · rw [hp.unique t p (.started d) trivial (hat t p hat') hstarted]
      rfl
  · intro d b u e hd he
    have hdc : d ≠ c := by
      rintro rfl
      simp at hd
    simp only [Core.setRole_role, Core.setOnCpu_role, Function.update_of_ne hdc] at hd
    rcases hsub e u he with he | ⟨rfl, rfl⟩
    · exact hk.passed d b u e hd he
    · have h := hp.unique u (.waking d) (.started e) trivial (by rw [At, hd]; rfl) hstarted
      cases h
  · intro d e hd he
    have hd' : k.role d ≠ .off := by
      by_cases hdc : d = c
      · rw [hdc]
        exact hon
      · simpa [hdc] using hd
    rcases hsub e _ he with he' | ⟨rfl, hen⟩
    · exact hk.idle d e hd' he'
    · have hidle : k.idle d = n := hen
      rcases hp.idle d (.started e) hd' (hidle ▸ hstarted) with h | h | h <;> cases h
      rfl
  · intro d t hd
    rcases hsub d t hd with hd | ⟨-, rfl⟩
    · exact hk.made d t hd
    · exact hp.made t _ trivial hstarted
  · intro t ht hrun
    obtain ⟨d, hd⟩ := hk.seated t ht hrun
    refine ⟨d, ?_⟩
    by_cases hdc : d = c
    · subst hdc
      rcases hd with ⟨⟨w, hw⟩, -⟩ | h | h <;> rw [hrole] at *
      · cases hw
      · cases h
        exact .inr (.inr (by simp))
      · cases h
    · exact hd.imp
        (at_congr (p := .seat d) (j := (k.setOnCpu n true).setRole c _)
          (Function.update_of_ne hdc _ _) rfl rfl).mpr
        (at_congr (p := .started d) (j := (k.setOnCpu n true).setRole c _)
          (Function.update_of_ne hdc _ _) rfl rfl).mpr

/-- The claimed task becomes the current one and the old one the previous one. -/
theorem Hold.switch {n : τ} (hk : Hold k) (hrole : k.role c = .claimed n) :
    Hold (((k.setPrev c (some (k.current c))).setCurrent c n).setRole c
      (.work true .none)) := by
  have hon : k.role c ≠ .off := by simp [hrole]
  have hstarted : At k n (.started c) := .inr hrole
  refine hk.moveAt (c := c) ?_ ?_ (fun _ _ _ => rfl) ?_ ?_ rfl rfl ?_ ?_
  · intro d hd
    simp [hd]
  · rintro t ⟨-, h | h | h⟩
    · obtain rfl : n = t := by simpa using h
      exact ⟨hon, .inr (.inr hrole)⟩
    · obtain rfl : k.current c = t := by simpa using h
      exact ⟨hon, .inl rfl⟩
    · simp at h
  · intro t p hpc hnw hp
    rcases at_work hp hpc (Function.update_self _ _ _) with ⟨rfl, -, rfl⟩ | ⟨-, hw⟩ | ⟨rfl, ht⟩
    · refine .inr fun d hd => hk.near n _ d hstarted (by simp) ?_
      simpa using hd
    · cases hw
    · exact .inl ht
  · intro b u h
    simp at h
  · simp [hrole]
  · intro t _ hrun
    by_cases htn : t = n
    · exact .inl ⟨⟨.none, by simp⟩, by simp [htn]⟩
    · refine .inr (.inr ⟨hrun, ?_, ?_⟩)
      · rintro ⟨⟨w, hw⟩, -⟩
        rw [hrole] at hw
        cases hw
      · rintro (h | h) <;> rw [hrole] at h <;> cases h
        exact htn rfl

/-- Clearing the flag of a task that nobody holds afterwards. -/
theorem Hold.clear {x : Option τ} (hk : Hold k) (hx : ClearOk k c x) :
    Hold ((k.clearOnCpu x).setPrev c none) := by
  have hat : ∀ t p, At ((k.clearOnCpu x).setPrev c none) t p ↔ At k t p := by
    intro t p
    cases x <;> exact at_congr rfl rfl rfl
  have hsame : ((k.clearOnCpu x).setPrev c none).role = k.role ∧
      ((k.clearOnCpu x).setPrev c none).current = k.current ∧
      ((k.clearOnCpu x).setPrev c none).prev = Function.update k.prev c none ∧
      ((k.clearOnCpu x).setPrev c none).idle = k.idle ∧
      ((k.clearOnCpu x).setPrev c none).state = k.state ∧
      ((k.clearOnCpu x).setPrev c none).created = k.created := by
    cases x <;> exact ⟨rfl, rfl, rfl, rfl, rfl, rfl⟩
  obtain ⟨hrole, hcurrent, hprev, hidle, hstate, hcreated⟩ := hsame
  have hsub : ∀ d t, Held ((k.clearOnCpu x).setPrev c none) d t → Held k d t ∧ x ≠ some t := by
    rintro d t ⟨hd, h⟩
    rw [hrole] at hd
    rw [hrole, hcurrent, hprev] at h
    have hprev' : Function.update k.prev c none d = some t → d ≠ c ∧ k.prev d = some t := by
      intro h
      by_cases hdc : d = c
      · simp [hdc] at h
      · exact ⟨hdc, by simpa [hdc] using h⟩
    refine ⟨⟨hd, h.imp_right (Or.imp_left fun h => (hprev' h).2)⟩, ?_⟩
    rintro rfl
    obtain ⟨h₁, h₂, h₃⟩ := hx t rfl d hd
    rcases h with h | h | h
    · exact h₁ h
    · exact h₃ (hprev' h).1 (hprev' h).2
    · exact h₂ h
  constructor
  · intro d t hd
    obtain ⟨hd, hne⟩ := hsub d t hd
    have hon := hk.on d t hd
    cases x with
    | none => exact hon
    | some y =>
        have hty : t ≠ y := by
          rintro rfl
          exact hne rfl
        simpa [Core.clearOnCpu, hty] using hon
  · intro d e t hd he
    exact hk.one d e t (hsub d t hd).1 (hsub e t he).1
  · intro t p d hp hnw hd
    exact hk.near t p d ((hat t p).mp hp) hnw (hsub d t hd).1
  · intro d b u e hd he
    rw [hrole] at hd
    exact hk.passed d b u e hd (hsub e u he).1
  · intro d e hd he
    rw [hrole] at hd
    rw [hidle] at he
    exact hk.idle d e hd (hsub e _ he).1
  · intro d t hd
    rw [hcreated]
    exact hk.made d t (hsub d t hd).1
  · intro t ht hrun
    rw [hcreated] at ht
    rw [hstate] at hrun
    obtain ⟨d, hd⟩ := hk.seated t ht hrun
    exact ⟨d, hd.imp (hat t _).mpr (hat t _).mpr⟩

theorem Hold.boot {m i : τ} (hk : Hold k) (hp : Placed isIdle (fun _ => True) k)
    (hoff : k.role c = .off) (hm : k.created m = false) (hi : k.created i = false) :
    Hold (k.boot c m i) := by
  have hold : ∀ t, k.created t = true → t ≠ m ∧ t ≠ i := by
    intro t ht
    constructor <;> rintro rfl <;> simp_all
  have hsub : ∀ d t, Held (k.boot c m i) d t → (d = c ∧ t = m) ∨ (d ≠ c ∧ Held k d t) := by
    intro d t hd
    by_cases hdc : d = c
    · subst hdc
      refine .inl ⟨rfl, ?_⟩
      obtain ⟨-, h | h | h⟩ := hd <;> simp at h <;> exact h.symm
    · rw [held_congr (Function.update_of_ne hdc _ _)
        (Function.update_of_ne hdc _ _) (Function.update_of_ne hdc _ _)] at hd
      exact .inr ⟨hdc, hd⟩
  constructor
  · intro d t hd
    rcases hsub d t hd with ⟨-, rfl⟩ | ⟨-, hd⟩
    · simp
    · have hne := hold t (hk.made d t hd)
      simpa [hne.1, hne.2] using hk.on d t hd
  · intro d e t hd he
    rcases hsub d t hd with ⟨hdc, rfl⟩ | ⟨-, hd'⟩ <;>
      rcases hsub e t he with ⟨hec, hem⟩ | ⟨-, he'⟩
    · rw [hdc, hec]
    · exact absurd rfl (hold _ (hk.made e _ he')).1
    · exact absurd hem (hold _ (hk.made d _ hd')).1
    · exact hk.one d e t hd' he'
  · intro t p d hat hnw hd
    rcases at_boot hat with ⟨rfl, rfl⟩ | ⟨hat', -⟩ <;>
      rcases hsub d t hd with ⟨hdc, hdm⟩ | ⟨-, hd'⟩
    · exact hdc
    · exact absurd rfl (hold _ (hk.made d _ hd')).1
    · exact absurd hdm (hold _ (hp.made t p trivial hat')).1
    · exact hk.near t p d hat' hnw hd'
  · intro d b u e hd he
    have hdc : d ≠ c := by
      rintro rfl
      simp at hd
    simp only [Core.boot_role, Function.update_of_ne hdc] at hd
    rcases hsub e u he with ⟨-, rfl⟩ | ⟨-, he⟩
    · have hat : At k u (.waking d) := by rw [At, hd]; rfl
      exact (hold u (hp.made u _ trivial hat)).1 rfl
    · exact hk.passed d b u e hd he
  · intro d e hd he
    by_cases hdc : d = c
    · subst hdc
      simp only [Core.boot_idle, Function.update_self] at he
      rcases hsub e i he with ⟨rfl, -⟩ | ⟨-, he⟩
      · rfl
      · exact absurd rfl (hold i (hk.made e i he)).2
    · simp only [Core.boot_role, Core.boot_idle, Function.update_of_ne hdc] at hd he
      rcases hsub e _ he with ⟨-, hem⟩ | ⟨-, he⟩
      · exact absurd hem (hold _ (hp.idleMade d hd).1).1
      · exact hk.idle d e hd he
  · intro d t hd
    rcases hsub d t hd with ⟨-, rfl⟩ | ⟨-, hd⟩
    · simp
    · have hmade := hk.made d t hd
      have hne := hold t hmade
      simpa [hne.1, hne.2] using hmade
  · intro t ht hrun
    by_cases htm : t = m
    · exact ⟨c, .inl ⟨⟨.none, by simp⟩, by simp [htm]⟩⟩
    · by_cases hti : t = i
      · subst hti
        simp [htm] at hrun
      · simp only [Core.boot_created, Core.boot_state, Function.update_of_ne htm,
          Function.update_of_ne hti] at ht hrun
        obtain ⟨d, hd⟩ := hk.seated t ht hrun
        have hdc : d ≠ c := by
          rintro rfl
          rcases hd with ⟨⟨w, hw⟩, -⟩ | h | h <;> simp_all
        refine ⟨d, hd.imp ?_ ?_⟩
        · exact (at_congr (p := .seat d) (Function.update_of_ne hdc _ _)
            (Function.update_of_ne hdc _ _) (Function.update_of_ne hdc _ _)).mpr
        · exact (at_congr (p := .started d) (Function.update_of_ne hdc _ _)
            (Function.update_of_ne hdc _ _) (Function.update_of_ne hdc _ _)).mpr

theorem Hold.spawn {d : κ} {t : τ} {l l' : List τ} (hk : Hold k)
    (hnew : k.created t = false) (hready : k.ready d = l ++ l') :
    Hold ((k.create t).setReady d (l ++ t :: l')) := by
  have hne : ∀ e u, Held k e u → u ≠ t := by
    rintro e u he rfl
    rw [hk.made e u he] at hnew
    cases hnew
  constructor
  · intro e u he
    simpa [hne e u he] using hk.on e u he
  · exact hk.one
  · intro u p e hp hnw he
    by_cases hpd : p = .ready d
    · subst hpd
      have hmem : u ∈ k.ready d := by simpa [At, hready, hne e u he] using hp
      exact hk.near u (.ready d) e hmem hnw he
    · refine hk.near u p e ?_ hnw he
      cases p with
      | ready f =>
          have hfd : f ≠ d := by
            rintro rfl
            exact hpd rfl
          simpa [At, hfd] using hp
      | _ => exact hp
  · exact hk.passed
  · exact hk.idle
  · intro e u he
    simpa [hne e u he] using hk.made e u he
  · intro u hu hrun
    have hut : u ≠ t := by
      rintro rfl
      simp at hrun
    simp only [Core.setReady_created, Core.create_created, Core.setReady_state,
      Core.create_state, Function.update_of_ne hut] at hu hrun
    exact hk.seated u hu hrun

/-- Holders stay unique and covered while no flag is cleared under one. -/
theorem Hold.step {m : Move τ} (hk : Hold k) (hp : Placed isIdle (fun _ => True) k)
    (hstep : Step isIdle k c m k') (hclear : ∀ x, m = .clear x → ClearOk k c x)
    (hreblock : ∀ u, m ≠ .reblock u) : Hold k' := by
  cases hstep with
  | stay => exact hk
  | boot hoff hm hi _ => exact hk.boot hp hoff hm hi
  | spawn hnew _ hready => exact hk.spawn hnew hready
  | yield hrole _ _ => exact hk.unseat hrole (.inr rfl) (by simp)
  | yieldIdle hrole _ _ => exact hk.unseat hrole (.inl rfl) (by simp)
  | yieldFail hrole hst => exact hk.yieldFail hrole hst
  | requeue hrole hready =>
      refine hk.queue (.inl ⟨hrole, rfl⟩) ?_ hready
      intro d hd
      exact hk.near _ (.yielding c) d ⟨hrole, rfl⟩ (by simp) hd
  | leave hrole _ hst =>
      refine hk.unseat hrole (.inl rfl) ?_
      rcases hst with rfl | rfl <;> simp
  | wake hrole hblocked => exact hk.wake hrole hblocked
  | wakeIdle _ hblocked _ => exact hk.wakeIdle hblocked
  | pass hrole hoff => exact hk.pass hrole hoff
  | enqueue hrole hready =>
      exact hk.queue (.inr ⟨_, hrole⟩) (fun d hd => absurd hd (hk.passed _ _ _ d hrole)) hready
  | @pick n l l' hrole hready =>
      refine hk.choose hrole ?_ ?_
      · intro d hd
        exact hk.near n (.ready c) d (by rw [At, hready]; simp) (by simp) hd
      · intro t ht
        rw [hready]
        simp only [List.mem_append, List.mem_cons] at ht ⊢
        tauto
  | pickIdle hrole _ =>
      have h := hk.choose (l := k.ready c) hrole (fun d hd => hk.idle c d (by simp [hrole]) hd)
        (fun _ ht => ht)
      rwa [show k.setReady c (k.ready c) = k by simp [Core.setReady]] at h
  | start hrole => exact hk.start hrole
  | claim hrole => exact hk.claim hp hrole
  | switch hrole => exact hk.switch hrole
  | clear _ _ => exact hk.clear (hclear _ rfl)
  | reblock _ _ _ => exact absurd rfl (hreblock _)

end Handoff
