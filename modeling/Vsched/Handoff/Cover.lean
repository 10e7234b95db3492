import Vsched.Handoff.Hold

/-!
# A flag that is set has a holder

`on_cpu` covers every CPU that holds a task; here is the converse, that a task whose
flag is set is held by some CPU, so that somebody is left to clear it. It rests on
the slot: what it holds when the next task is switched to must be the current task.
-/

namespace Handoff

variable {κ τ : Type*} {isIdle : τ → Bool} {k k' : Core κ τ} {c d : κ} {t : τ} {m : Move τ}

/-- Set flags have a holder, and what a CPU has chosen is ready. -/
structure Cover (k : Core κ τ) : Prop where
  on : ∀ t, k.onCpu t = true → ∃ c, Held k c t
  chosen : ∀ c n, k.role c = .chosen n → k.state n = .ready

variable [DecidableEq κ] [DecidableEq τ]

omit [DecidableEq τ] in
/-- A CPU that changes neither its task nor its slot holds what it has held. -/
theorem Held.setRole {r : Role τ} (hd : Held k d t) (hr : r ≠ .off)
    (hclaimed : ∀ n, k.role c ≠ .claimed n) : Held (k.setRole c r) d t := by
  obtain ⟨hon, hheld⟩ := hd
  by_cases hdc : d = c
  · subst hdc
    refine ⟨by simpa using hr, ?_⟩
    rcases hheld with hcurrent | hprev | hrole
    · exact .inl hcurrent
    · exact .inr (.inl hprev)
    · exact absurd hrole (hclaimed t)
  · simpa [Held, hdc] using And.intro hon hheld

omit [DecidableEq τ] in
theorem Cover.keep {r : Role τ} {j : Core κ τ} (hk : Cover k) (hrole : j.role = k.role)
    (hcurrent : j.current = k.current) (hprev : j.prev = k.prev) (hon : j.onCpu = k.onCpu)
    (hr : r ≠ .off) (hclaimed : ∀ n, k.role c ≠ .claimed n)
    (hready : ∀ n, r = .chosen n → j.state n = .ready)
    (hstate : ∀ d n, d ≠ c → k.role d = .chosen n → j.state n = .ready) :
    Cover (j.setRole c r) := by
  constructor
  · intro t ht
    obtain ⟨d, hd⟩ := hk.on t (by rwa [← hon])
    have hj : Held j d t :=
      (held_congr (congrFun hrole d) (congrFun hcurrent d) (congrFun hprev d)).mpr hd
    exact ⟨d, hj.setRole hr fun n => by rw [hrole]; exact hclaimed n⟩
  · intro d n hd
    by_cases hdc : d = c
    · subst hdc
      exact hready n (by simpa using hd)
    · refine hstate d n hdc ?_
      simpa [hdc, hrole] using hd

omit [DecidableEq κ] in
/-- What another CPU has chosen is not what CPU `c` has in its hands. -/
theorem Placed.chosen_apart {p : Place κ} {n : τ} (hp : Placed isIdle (fun _ => True) k)
    (hd : k.role d = .chosen n) (ht : At k t p) (hpd : p ≠ .chosen d) : n ≠ t := by
  rintro rfl
  exact hpd (hp.unique n p (.chosen d) trivial ht hd)

theorem Cover.boot {i b : τ} (hk : Cover k) (hp : Placed isIdle (fun _ => True) k)
    (hoff : k.role c = .off) (hb : k.created b = false) (hi : k.created i = false) :
    Cover (k.boot c b i) := by
  have hrole : ∀ d, d ≠ c → (k.boot c b i).role d = k.role d := fun d hd => by simp [hd]
  constructor
  · intro t ht
    by_cases htb : t = b
    · subst htb
      exact ⟨c, by simp, .inl (by simp)⟩
    · have hon : k.onCpu t = true := by
        by_cases hti : t = i
        · subst hti
          simp [htb] at ht
        · simpa [htb, hti] using ht
      obtain ⟨d, hd, hheld⟩ := hk.on t hon
      have hdc : d ≠ c := by
        rintro rfl
        exact hd hoff
      exact ⟨d, by simpa [Held, hdc] using And.intro hd hheld⟩
  · intro d n hd
    by_cases hdc : d = c
    · simp [hdc] at hd
    · rw [hrole d hdc] at hd
      have hmade : k.created n = true := hp.made n (.chosen d) trivial hd
      have hnb : n ≠ b := by
        rintro rfl
        simp [hb] at hmade
      have hni : n ≠ i := by
        rintro rfl
        simp [hi] at hmade
      simpa [hnb, hni] using hk.chosen d n hd

/-- A move that changes the state of `u`, which is not what another CPU has chosen. -/
theorem Cover.setState {u : τ} {st : TaskState} {r : Role τ} (hk : Cover k)
    (hr : r ≠ .off) (hclaimed : ∀ n, k.role c ≠ .claimed n) (hchosen : ∀ n, r ≠ .chosen n)
    (hu : ∀ d n, d ≠ c → k.role d = .chosen n → n ≠ u ∨ st = .ready) :
    Cover ((k.setState u st).setRole c r) := by
  refine hk.keep rfl rfl rfl rfl hr hclaimed (fun n hn => absurd hn (hchosen n)) ?_
  intro d n hdc hd
  by_cases hnu : n = u
  · subst hnu
    simpa using (hu d n hdc hd).resolve_left (fun hne => hne rfl)
  · simpa [hnu] using hk.chosen d n hd

omit [DecidableEq τ] in
/-- A move that changes no state. -/
theorem Cover.setRole {r : Role τ} (hk : Cover k) (hr : r ≠ .off)
    (hclaimed : ∀ n, k.role c ≠ .claimed n) (hready : ∀ n, r = .chosen n → k.state n = .ready) :
    Cover (k.setRole c r) :=
  hk.keep rfl rfl rfl rfl hr hclaimed hready fun d n _ hd => hk.chosen d n hd

omit [DecidableEq τ] in
theorem Cover.setReady {l : List τ} (hk : Cover k) : Cover (k.setReady d l) := ⟨hk.on, hk.chosen⟩

omit [DecidableEq κ] in
/-- The idle task of a CPU that has given its task up is ready. -/
theorem idle_ready (hp : Placed isIdle (fun _ => True) k) (hhold : Hold k)
    (hrole : k.role c = .work false .none) : k.state (k.idle c) = .ready := by
  have hon : k.role c ≠ .off := by simp [hrole]
  rcases hp.idleState c hon with hrun | hready
  · obtain ⟨d, hseat⟩ := hhold.seated _ (hp.idleMade c hon).1 hrun
    exfalso
    rcases hseat with hseat | hseat
    · rcases hp.idle c _ hon hseat with h | h | h <;> cases h
      obtain ⟨⟨w, hw⟩, -⟩ := hseat
      rw [hrole] at hw
      cases hw
    · rcases hp.idle c _ hon hseat with h | h | h <;> cases h
      exact not_started_of_work hrole hseat
  · exact hready

theorem Cover.step (hk : Cover k) (hp : Placed isIdle (fun _ => True) k) (hhold : Hold k)
    (hstep : Step isIdle k c m k') (hreblock : ∀ u, m ≠ .reblock u)
    (hslot : ∀ n y, k.role c = .claimed n → k.prev c = some y → y = k.current c) : Cover k' := by
  cases hstep with
  | stay => exact hk
  | boot hoff hm hi _ => exact hk.boot hp hoff hm hi
  | @spawn d t l l' hnew _ _ =>
      constructor
      · intro u hu
        have hne : u ≠ t := by
          rintro rfl
          simp at hu
        exact hk.on u (by simpa [hne] using hu)
      · intro e n he
        by_cases hnt : n = t
        · simp [hnt]
        · simpa [hnt] using hk.chosen e n he
  | yield hrole _ _ =>
      exact hk.setState (by simp) (by simp [hrole]) (by simp) (fun _ _ _ _ => .inr rfl)
  | yieldIdle hrole _ _ =>
      exact hk.setState (by simp) (by simp [hrole]) (by simp) (fun _ _ _ _ => .inr rfl)
  | yieldFail hrole _ => exact hk.setRole (by simp) (by simp [hrole]) (by simp)
  | requeue hrole _ => exact hk.setReady.setRole (by simp) (by simp [hrole]) (by simp)
  | leave hrole _ _ =>
      refine hk.setState (by simp) (by simp [hrole]) (by simp) fun d n hdc hd => .inl ?_
      have hseat : At k (k.current c) (.seat c) := ⟨⟨_, hrole⟩, rfl⟩
      exact hp.chosen_apart hd hseat (by simp)
  | wake hrole _ =>
      exact hk.setState (by simp) (by simp [hrole]) (by simp) (fun _ _ _ _ => .inr rfl)
  | @wakeIdle seated u hrole hblocked hu =>
      refine ⟨hk.on, fun d n hd => ?_⟩
      by_cases hnu : n = u
      · simp [hnu]
      · simpa [hnu] using hk.chosen d n hd
  | pass hrole _ => exact hk.setRole (by simp) (by simp [hrole]) (by simp)
  | enqueue hrole _ => exact hk.setReady.setRole (by simp) (by simp [hrole]) (by simp)
  | @pick n l l' hrole hready =>
      refine hk.setReady.setRole (by simp) (by simp [hrole]) ?_
      rintro x hx
      cases hx
      exact hp.fits n (.ready c) trivial (by rw [At, hready]; simp)
  | pickIdle hrole _ =>
      refine hk.setRole (by simp) (by simp [hrole]) ?_
      rintro x hx
      cases hx
      exact idle_ready hp hhold hrole
  | @start n hrole =>
      refine hk.setState ?_ (by simp [hrole]) ?_ fun d x hdc hd => .inl ?_
      · split <;> simp
      · intro x
        split <;> simp
      · exact hp.chosen_apart hd (p := .chosen c) hrole (by simpa using Ne.symm hdc)
  | @claim n hrole =>
      constructor
      · intro t ht
        by_cases htn : t = n
        · subst htn
          exact ⟨c, by simp, .inr (.inr (by simp))⟩
        · obtain ⟨d, hd⟩ := hk.on t (by simpa [htn] using ht)
          have hheld : Held (k.setOnCpu n true) d t := hd
          exact ⟨d, hheld.setRole (by simp) (by simp [hrole])⟩
      · intro d x hd
        by_cases hdc : d = c
        · simp [hdc] at hd
        · exact hk.chosen d x (by simpa [hdc] using hd)
  | @switch n hrole =>
      constructor
      · intro t ht
        obtain ⟨d, hon, hd⟩ := hk.on t ht
        by_cases hdc : d = c
        · subst hdc
          refine ⟨d, by simp, ?_⟩
          rcases hd with hcurrent | hprev | hclaimed
          · exact .inr (.inl (by simp [hcurrent]))
          · exact .inr (.inl (by simp [hslot n t hrole hprev]))
          · rw [hrole] at hclaimed
            cases hclaimed
            exact .inl (by simp)
        · exact ⟨d, by simpa [Held, hdc] using And.intro hon hd⟩
      · intro d x hd
        by_cases hdc : d = c
        · simp [hdc] at hd
        · exact hk.chosen d x (by simpa [hdc] using hd)
  | @clear x hrole hx =>
      constructor
      · intro t ht
        have hon : k.onCpu t = true ∧ x ≠ some t := by
          cases x with
          | none => exact ⟨ht, by simp⟩
          | some y =>
              have hty : t ≠ y := by
                rintro rfl
                simp [Core.clearOnCpu] at ht
              exact ⟨by simpa [Core.clearOnCpu, hty] using ht, by simpa using Ne.symm hty⟩
        obtain ⟨d, hd, hheld⟩ := hk.on t hon.1
        refine ⟨d, by cases x <;> exact hd, ?_⟩
        rcases hheld with hcurrent | hprev | hclaimed
        · exact .inl (by cases x <;> exact hcurrent)
        · have hdc : d ≠ c := by
            rintro rfl
            exact hon.2 (hx t hprev)
          exact .inr (.inl (by cases x <;> simpa [hdc, Core.clearOnCpu] using hprev))
        · exact .inr (.inr (by cases x <;> exact hclaimed))
      · intro d n hd
        cases x <;> exact hk.chosen d n hd
  | reblock _ _ _ => exact absurd rfl (hreblock _)

end Handoff
