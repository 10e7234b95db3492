import Vsched.Handoff.Place

/-!
# Which CPU a task is bound to

A task is bound to a CPU while the CPU runs it, falls back on it or may bring it to run.
Only starting a CPU, spawning and waking bind a task to a CPU it was not bound to.
-/

namespace Handoff

variable {κ τ : Type*} {isIdle : τ → Bool} {k k' : Core κ τ} {c d : κ} {t : τ} {m : Move τ}

/-- The task is current on the CPU, its idle task, or at one of its places. -/
def Bound (k : Core κ τ) (t : τ) (c : κ) : Prop :=
  k.role c ≠ .off ∧ (k.current c = t ∨ k.idle c = t ∨ ∃ p, p.cpu = c ∧ At k t p)

/-- What a move may newly bind to a CPU. -/
inductive Binds (k k' : Core κ τ) (c : κ) (t : τ) (d : κ) : Move τ → Prop
  | boot : d = c → t = k'.current c ∨ t = k'.idle c → Binds k k' c t d .boot
  | spawn : k.created t = false → k'.created t = true →
      (∀ e, t ∈ k'.ready e → e = d ∨ t ∈ k.ready e) → Binds k k' c t d .spawn
  | wake : d = c → k.state t = .blocked → k'.state t = .ready → Binds k k' c t d .wake

/-- A CPU that a move leaves alone. -/
theorem Bound.same (h : Bound k' t d) (hrole : k'.role d = k.role d)
    (hcurrent : k'.current d = k.current d) (hidle : k'.idle d = k.idle d)
    (hready : k'.ready d = k.ready d) : Bound k t d := by
  obtain ⟨hon, hcases⟩ := h
  rw [hrole] at hon
  rw [hcurrent, hidle] at hcases
  refine ⟨hon, hcases.imp_right (Or.imp_right ?_)⟩
  rintro ⟨p, rfl, hp⟩
  exact ⟨p, rfl, (at_congr hrole hcurrent hready).mp hp⟩

/-- The tasks bound to a CPU that executes for its current task. -/
theorem Bound.work {seated : Bool} {w : Wake τ} (h : Bound k t c)
    (hrole : k.role c = .work seated w) :
    k.current c = t ∨ k.idle c = t ∨ (Role.work seated w).waking = some t ∨ t ∈ k.ready c := by
  obtain ⟨-, hcurrent | hidle | ⟨p, hpc, hp⟩⟩ := h
  · exact .inl hcurrent
  · exact .inr (.inl hidle)
  · rcases at_work hp hpc hrole with ⟨-, -, rfl⟩ | ⟨-, hwaking⟩ | ⟨-, hready⟩
    · exact .inl rfl
    · exact .inr (.inr (.inl hwaking))
    · exact .inr (.inr (.inr hready))

theorem Bound.of_current (hon : k.role c ≠ .off) : Bound k (k.current c) c :=
  ⟨hon, .inl rfl⟩

theorem Bound.of_idle (hon : k.role c ≠ .off) : Bound k (k.idle c) c :=
  ⟨hon, .inr (.inl rfl)⟩

theorem Bound.of_at {p : Place κ} (hon : k.role p.cpu ≠ .off) (hp : At k t p) : Bound k t p.cpu :=
  ⟨hon, .inr (.inr ⟨p, rfl, hp⟩)⟩

theorem Bound.of_ready (hon : k.role c ≠ .off) (ht : t ∈ k.ready c) : Bound k t c :=
  .of_at (p := .ready c) hon ht

/-- The CPU executes for its current task, wakes none and has the tasks it had. -/
theorem Bound.keep {seated : Bool} (h : Bound k' t c) (hrole : k'.role c = .work seated .none)
    (hon : k.role c ≠ .off) (hcurrent : k'.current c = k.current c) (hidle : k'.idle c = k.idle c)
    (hready : k'.ready c = k.ready c) : Bound k t c := by
  rcases h.work hrole with h | h | h | h
  · exact ⟨hon, .inl (hcurrent ▸ h)⟩
  · exact ⟨hon, .inr (.inl (hidle ▸ h))⟩
  · cases h
  · exact .of_ready hon (hready ▸ h)

variable [DecidableEq κ] [DecidableEq τ]

/-- A move of `c` leaves the other CPUs alone, unless it spawns a task on one. -/
theorem Step.others (hstep : Step isIdle k c m k') (hm : m ≠ .spawn) (hd : d ≠ c) :
    k'.role d = k.role d ∧ k'.current d = k.current d ∧ k'.idle d = k.idle d ∧
      k'.ready d = k.ready d := by
  cases hstep with
  | spawn => exact absurd rfl hm
  | @clear x _ _ => cases x <;> simp [Core.clearOnCpu]
  | _ => simp [hd]

theorem Step.boot_off (hstep : Step isIdle k c .boot k') : k.role c = .off := by
  cases hstep
  assumption

/-- Every move of a CPU leaves a task bound where it was, unless it binds the task anew. -/
theorem Step.bound (hstep : Step isIdle k c m k') (h : Bound k' t d) :
    Bound k t d ∨ Binds k k' c t d m := by
  by_cases hm : m = .spawn
  · cases hstep with
    | @spawn e u l l' hnew _ hready =>
        obtain ⟨hon, hcurrent | hidle | ⟨p, rfl, hp⟩⟩ := h
        · exact .inl ⟨hon, .inl hcurrent⟩
        · exact .inl ⟨hon, .inr (.inl hidle)⟩
        by_cases hqueued : p = .ready e ∧ t = u
        · obtain ⟨rfl, rfl⟩ := hqueued
          refine .inr (.spawn hnew (by simp) fun e' he' => ?_)
          by_cases hee : e' = e
          · exact .inl hee
          · exact .inr (by simpa [hee] using he')
        left
        have hat : At k t p := by
          cases p with
          | ready d =>
              by_cases hde : d = e
              · subst hde
                have hne : t ≠ u := fun htu => hqueued ⟨rfl, htu⟩
                have hmem : t ∈ l ++ u :: l' := by simpa [At] using hp
                show t ∈ k.ready d
                rw [hready]
                simpa [hne] using hmem
              · simpa [At, hde] using hp
          | _ => exact hp
        exact .of_at hon hat
    | _ => cases hm
  by_cases hd : d = c
  · subst hd
    cases hstep with
    | stay => exact .inl h
    | boot =>
        rcases h.work (Function.update_self ..) with hcurrent | hidle | hwaking | hmem
        · exact .inr (.boot rfl (.inl hcurrent.symm))
        · exact .inr (.boot rfl (.inr hidle.symm))
        · cases hwaking
        · simp at hmem
    | spawn => exact absurd rfl hm
    | yield hrole =>
        left
        have hon : k.role d ≠ .off := by simp [hrole]
        obtain ⟨-, hcurrent | hidle | ⟨p, hpc, hp⟩⟩ := h
        · exact ⟨hon, .inl hcurrent⟩
        · exact ⟨hon, .inr (.inl hidle)⟩
        · rcases at_yielding hp hpc (Function.update_self ..) with ⟨-, rfl⟩ | ⟨-, hmem⟩
          · exact .of_current hon
          · exact .of_ready hon hmem
    | yieldIdle hrole => exact .inl (h.keep (Function.update_self ..) (by simp [hrole]) rfl rfl rfl)
    | yieldFail hrole => exact .inl (h.keep (Function.update_self ..) (by simp [hrole]) rfl rfl rfl)
    | @requeue l l' hrole hready =>
        left
        have hon : k.role d ≠ .off := by simp [hrole]
        rcases h.work (Function.update_self ..) with hcurrent | hidle | hwaking | hmem
        · exact ⟨hon, .inl hcurrent⟩
        · exact ⟨hon, .inr (.inl hidle)⟩
        · cases hwaking
        · have hmem' : t = k.current d ∨ t ∈ k.ready d := by
            rw [hready]
            simpa [or_left_comm] using hmem
          rcases hmem' with rfl | hmem'
          · exact .of_current hon
          · exact .of_ready hon hmem'
    | leave hrole => exact .inl (h.keep (Function.update_self ..) (by simp [hrole]) rfl rfl rfl)
    | @wake seated u hrole hblocked =>
        have hon : k.role d ≠ .off := by simp [hrole]
        rcases h.work (Function.update_self ..) with hcurrent | hidle | hwaking | hmem
        · exact .inl ⟨hon, .inl hcurrent⟩
        · exact .inl ⟨hon, .inr (.inl hidle)⟩
        · obtain rfl : u = t := Option.some.inj hwaking
          exact .inr (.wake rfl hblocked (by simp))
        · exact .inl (.of_ready hon hmem)
    | wakeIdle hrole => exact .inl (h.keep hrole (by simp [hrole]) rfl rfl rfl)
    | @pass seated u hrole =>
        left
        have hon : k.role d ≠ .off := by simp [hrole]
        rcases h.work (Function.update_self ..) with hcurrent | hidle | hwaking | hmem
        · exact ⟨hon, .inl hcurrent⟩
        · exact ⟨hon, .inr (.inl hidle)⟩
        · refine .of_at (p := .waking d) hon ?_
          rw [At, hrole]
          exact hwaking
        · exact .of_ready hon hmem
    | @enqueue seated u l l' hrole hready =>
        left
        have hon : k.role d ≠ .off := by simp [hrole]
        rcases h.work (Function.update_self ..) with hcurrent | hidle | hwaking | hmem
        · exact ⟨hon, .inl hcurrent⟩
        · exact ⟨hon, .inr (.inl hidle)⟩
        · cases hwaking
        · have hmem' : t = u ∨ t ∈ k.ready d := by
            rw [hready]
            simpa [or_left_comm] using hmem
          rcases hmem' with rfl | hmem'
          · refine .of_at (p := .waking d) hon ?_
            rw [At, hrole]
            rfl
          · exact .of_ready hon hmem'
    | @pick n l l' hrole hready =>
        left
        have hon : k.role d ≠ .off := by simp [hrole]
        obtain ⟨-, hcurrent | hidle | ⟨p, hpc, hp⟩⟩ := h
        · exact ⟨hon, .inl hcurrent⟩
        · exact ⟨hon, .inr (.inl hidle)⟩
        · have hmem : t ∈ k.ready d := by
            rw [hready]
            rcases at_chosen hp hpc (Function.update_self ..) with ⟨-, rfl⟩ | ⟨-, hmem⟩
            · simp
            · have hmem' : t ∈ l ∨ t ∈ l' := by simpa using hmem
              simp only [List.mem_append, List.mem_cons]
              exact hmem'.imp_right .inr
          exact .of_ready hon hmem
    | pickIdle hrole hready =>
        left
        have hon : k.role d ≠ .off := by simp [hrole]
        obtain ⟨-, hcurrent | hidle | ⟨p, hpc, hp⟩⟩ := h
        · exact ⟨hon, .inl hcurrent⟩
        · exact ⟨hon, .inr (.inl hidle)⟩
        · rcases at_chosen hp hpc (Function.update_self ..) with ⟨-, rfl⟩ | ⟨-, hmem⟩
          · exact .of_idle hon
          · exact .of_ready hon hmem
    | @start n hrole =>
        left
        have hon : k.role d ≠ .off := by simp [hrole]
        have hchosen : Bound k n d := .of_at (p := .chosen d) hon hrole
        obtain ⟨-, hcurrent | hidle | ⟨p, hpc, hp⟩⟩ := h
        · exact ⟨hon, .inl hcurrent⟩
        · exact ⟨hon, .inr (.inl hidle)⟩
        · by_cases hn : n = k.current d
          · rcases at_work (b := true) (w := .none) hp hpc (by simp [hn]) with
              ⟨-, -, rfl⟩ | ⟨-, hwaking⟩ | ⟨-, hmem⟩
            · exact .of_current hon
            · cases hwaking
            · exact .of_ready hon hmem
          · rcases at_started (n := n) hp hpc (by simp [hn]) with ⟨-, rfl⟩ | ⟨-, hmem⟩
            · exact hchosen
            · exact .of_ready hon hmem
    | @claim n hrole =>
        left
        have hon : k.role d ≠ .off := by simp [hrole]
        obtain ⟨-, hcurrent | hidle | ⟨p, hpc, hp⟩⟩ := h
        · exact ⟨hon, .inl hcurrent⟩
        · exact ⟨hon, .inr (.inl hidle)⟩
        · rcases at_started (n := n) hp hpc (by simp) with ⟨-, rfl⟩ | ⟨-, hmem⟩
          · exact .of_at (p := .started d) hon (.inl hrole)
          · exact .of_ready hon hmem
    | @switch n hrole =>
        left
        have hon : k.role d ≠ .off := by simp [hrole]
        have hclaimed : Bound k n d := .of_at (p := .started d) hon (.inr hrole)
        rcases h.work (Function.update_self ..) with hcurrent | hidle | hwaking | hmem
        · obtain rfl : n = t := by simpa using hcurrent
          exact hclaimed
        · exact ⟨hon, .inr (.inl hidle)⟩
        · cases hwaking
        · exact .of_ready hon hmem
    | @clear x hrole _ =>
        have hon : k.role d ≠ .off := by simp [hrole]
        cases x with
        | none => exact .inl (h.keep hrole hon rfl rfl rfl)
        | some x => exact .inl (h.keep hrole hon rfl rfl rfl)
    | reblock hrole => exact .inl (h.keep (Function.update_self ..) (by simp [hrole]) rfl rfl rfl)
  · obtain ⟨hrole, hcurrent, hidle, hready⟩ := hstep.others hm hd
    exact .inl (h.same hrole hcurrent hidle hready)

/-- The tasks that are bound to a CPU or blocked have been created. -/
structure Made (k : Core κ τ) : Prop where
  bound : ∀ t d, Bound k t d → k.created t = true
  blocked : ∀ t, k.state t = .blocked → k.created t = true

omit [DecidableEq κ] [DecidableEq τ] in
theorem Made.seated {w : Wake τ} (h : Made k) (hrole : k.role c = .work true w) :
    k.created (k.current c) = true :=
  h.bound _ c (.of_current (by simp [hrole]))

theorem Step.created (hstep : Step isIdle k c m k') (ht : k.created t = true) :
    k'.created t = true := by
  cases hstep with
  | @boot a i =>
      show Function.update (Function.update k.created i true) a true t = true
      simp only [Function.update_apply]
      split_ifs
      · rfl
      · rfl
      · exact ht
  | @spawn e u l l' =>
      show Function.update k.created u true t = true
      by_cases htu : t = u <;> simp [htu, ht]
  | @clear x _ _ => cases x <;> exact ht
  | _ => exact ht

/-- A task becomes blocked when it leaves its seat, or behind its back. -/
theorem Step.blocks (hstep : Step isIdle k c m k') (ht : k'.state t = .blocked) :
    k.state t = .blocked ∨ (∃ w, k.role c = .work true w ∧ t = k.current c) ∨
      m = .reblock t := by
  have hset : ∀ (f : τ → TaskState) (u : τ) (st : TaskState), st ≠ .blocked →
      Function.update f u st t = .blocked → f t = .blocked := by
    intro f u st hst hupdate
    by_cases htu : t = u
    · subst htu
      exact absurd (by simpa using hupdate) hst
    · simpa [htu] using hupdate
  cases hstep with
  | boot =>
      have hrest := hset _ _ _ (by decide) ht
      exact .inl (hset _ _ _ (by decide) hrest)
  | spawn => exact .inl (hset _ _ _ (by decide) ht)
  | yield => exact .inl (hset _ _ _ (by decide) ht)
  | yieldIdle => exact .inl (hset _ _ _ (by decide) ht)
  | wake => exact .inl (hset _ _ _ (by decide) ht)
  | wakeIdle => exact .inl (hset _ _ _ (by decide) ht)
  | start => exact .inl (hset _ _ _ (by decide) ht)
  | @leave st hrole _ hst =>
      by_cases hcurrent : t = k.current c
      · exact .inr (.inl ⟨_, hrole, hcurrent⟩)
      · exact .inl (by simpa [hcurrent] using ht)
  | @reblock u hrole _ _ =>
      by_cases htu : t = u
      · exact .inr (.inr (by rw [htu]))
      · exact .inl (by simpa [htu] using ht)
  | @clear x _ _ => cases x <;> exact .inl ht
  | _ => exact .inl ht

theorem Step.made (hstep : Step isIdle k c m k') (h : Made k)
    (hreblock : ∀ u, m = .reblock u → k.created u = true) : Made k' where
  bound := by
    intro t d hbound
    rcases hstep.bound hbound with hold | hnew
    · exact hstep.created (h.bound t d hold)
    · cases hnew with
      | boot _ hcases =>
          cases hstep with
          | @boot a i =>
              rcases hcases with rfl | rfl
              · simp
              · by_cases hia : i = a <;> simp [hia]
      | spawn _ hmade => exact hmade
      | wake _ hblocked => exact hstep.created (h.blocked t hblocked)
  blocked := by
    intro t ht
    refine hstep.created ?_
    rcases hstep.blocks ht with hold | ⟨w, hrole, rfl⟩ | hm
    · exact h.blocked t hold
    · exact h.seated hrole
    · exact hreblock t hm

end Handoff
