import Vsched.Handoff.Hold

/-!
# No runnable task is nowhere

A task is in at most one place; here is the converse for the tasks that may run. Each
move that takes a task from its place brings it to another one, blocks it or ends it,
and a CPU that starts has an empty queue.
-/

namespace Handoff

variable {κ τ : Type*} {isIdle : τ → Bool} {k k' : Core κ τ} {c : κ} {m : Move τ}

def TaskState.Runnable (st : TaskState) : Prop := st = .running ∨ st = .ready

/-- Every task that may run is somewhere, but for the idle tasks. -/
def Total (isIdle : τ → Bool) (k : Core κ τ) : Prop :=
  ∀ t, k.created t = true → isIdle t = false → (k.state t).Runnable → ∃ p, At k t p

/-- The moves of CPU `c` that leave every task somewhere which has been at a place of `c`. -/
theorem Total.moveAt (hk : Total isIdle k)
    (hframe : ∀ d, d ≠ c → k'.role d = k.role d ∧ k'.current d = k.current d ∧
      k'.ready d = k.ready d)
    (hold : ∀ t, k'.created t = true → isIdle t = false → (k'.state t).Runnable →
      (∃ p, At k' t p) ∨ k.created t = true ∧ (k.state t).Runnable)
    (hlocal : ∀ t p, p.cpu = c → At k t p → isIdle t = false → (k'.state t).Runnable →
      ∃ q, At k' t q) : Total isIdle k' := by
  intro t hmade hidle hrun
  rcases hold t hmade hidle hrun with hplace | ⟨hmade, hwas⟩
  · exact hplace
  · obtain ⟨p, hp⟩ := hk t hmade hidle hwas
    by_cases hpc : p.cpu = c
    · exact hlocal t p hpc hp hidle hrun
    · obtain ⟨hrole, hcurrent, hready⟩ := hframe _ hpc
      exact ⟨p, (at_congr hrole hcurrent hready).mpr hp⟩

variable [DecidableEq κ] [DecidableEq τ]

/-- A move that changes the place of its CPU and the state of one task. -/
theorem Total.setState {u : τ} {st : TaskState} {r : Role τ} (hk : Total isIdle k)
    (hu : st.Runnable → isIdle u = false → (k.state u).Runnable ∨
      ∃ p, At ((k.setState u st).setRole c r) u p)
    (hlocal : ∀ t p, p.cpu = c → At k t p → isIdle t = false →
      ((Function.update k.state u st) t).Runnable →
      ∃ q, At ((k.setState u st).setRole c r) t q) :
    Total isIdle ((k.setState u st).setRole c r) := by
  refine hk.moveAt (c := c) (fun d hd => by simp [hd]) ?_ hlocal
  intro t hmade hidle hrun
  by_cases htu : t = u
  · subst htu
    simp only [Core.setRole_state, Core.setState_state, Function.update_self] at hrun
    exact (hu hrun hidle).symm.imp_right fun hwas => ⟨hmade, hwas⟩
  · simp only [Core.setRole_state, Core.setState_state, Function.update_of_ne htu] at hrun
    exact .inr ⟨hmade, hrun⟩

omit [DecidableEq κ] [DecidableEq τ] in
/-- A move that changes no state and no task. -/
theorem Total.sameState (hk : Total isIdle k) (hstate : k'.state = k.state)
    (hcreated : k'.created = k.created)
    (hframe : ∀ d, d ≠ c → k'.role d = k.role d ∧ k'.current d = k.current d ∧
      k'.ready d = k.ready d)
    (hlocal : ∀ t p, p.cpu = c → At k t p → isIdle t = false → ∃ q, At k' t q) :
    Total isIdle k' := by
  refine hk.moveAt hframe ?_ fun t p hpc hp hidle _ => hlocal t p hpc hp hidle
  intro t hmade _ hrun
  rw [hcreated] at hmade
  rw [hstate] at hrun
  exact .inr ⟨hmade, hrun⟩

theorem Total.boot {i b : τ} (hk : Total isIdle k) (hoff : k.role c = .off)
    (hi : isIdle i = true) (hempty : k.ready c = []) : Total isIdle (k.boot c b i) := by
  refine hk.moveAt (c := c) (fun d hd => by simp [hd]) ?_ ?_
  · intro t hmade hidle hrun
    by_cases htb : t = b
    · subst htb
      exact .inl ⟨.seat c, ⟨.none, by simp⟩, by simp⟩
    · have hti : t ≠ i := by
        rintro rfl
        rw [hi] at hidle
        cases hidle
      simp only [Core.boot_created, Core.boot_state, Function.update_of_ne htb,
        Function.update_of_ne hti] at hmade hrun
      exact .inr ⟨hmade, hrun⟩
  · intro t p hpc ht _ _
    subst hpc
    cases p <;> simp_all [At, Place.cpu, Role.waking]

theorem Total.spawn {d : κ} {u : τ} {l l' : List τ} (hk : Total isIdle k)
    (hready : k.ready d = l ++ l') : Total isIdle ((k.create u).setReady d (l ++ u :: l')) := by
  intro t hmade hidle hrun
  by_cases htu : t = u
  · subst htu
    exact ⟨.ready d, by simp [At]⟩
  · simp only [Core.setReady_created, Core.create_created, Core.setReady_state,
      Core.create_state, Function.update_of_ne htu] at hmade hrun
    obtain ⟨p, hplace⟩ := hk t hmade hidle hrun
    refine ⟨p, ?_⟩
    cases p with
    | ready e =>
        by_cases hed : e = d
        · subst hed
          rw [At, hready] at hplace
          simp only [At, Core.setReady_ready, Function.update_self, List.mem_append,
            List.mem_cons] at hplace ⊢
          tauto
        · simpa [At, hed] using hplace
    | _ => exact hplace

theorem Total.step (hk : Total isIdle k) (hp : Placed isIdle (fun _ => True) k)
    (hstep : Step isIdle k c m k') (hreblock : ∀ u, m ≠ .reblock u)
    (hempty : k.role c = .off → k.ready c = []) : Total isIdle k' := by
  cases hstep with
  | stay => exact hk
  | boot hoff _ _ hidle => exact hk.boot hoff hidle (hempty hoff)
  | spawn _ _ hready => exact hk.spawn hready
  | yield hrole hidle hrun =>
      refine hk.setState (fun _ _ => .inl (.inl hrun)) ?_
      intro t p hpc ht _ _
      rcases at_work ht hpc hrole with ⟨-, -, rfl⟩ | ⟨-, hw⟩ | ⟨-, hq⟩
      · exact ⟨.yielding c, by simp [At]⟩
      · cases hw
      · exact ⟨.ready c, hq⟩
  | yieldIdle hrole hidle hrun =>
      refine hk.setState (fun _ _ => .inl (.inl hrun)) ?_
      intro t p hpc ht hother _
      rcases at_work ht hpc hrole with ⟨-, -, rfl⟩ | ⟨-, hw⟩ | ⟨-, hq⟩
      · rw [hidle] at hother
        cases hother
      · cases hw
      · exact ⟨.ready c, hq⟩
  | yieldFail hrole hrun =>
      have hseat : At k (k.current c) (.seat c) := ⟨⟨_, hrole⟩, rfl⟩
      exact absurd (hp.fits _ (.seat c) trivial hseat) hrun
  | @requeue l l' hrole hready =>
      refine hk.sameState (c := c) rfl rfl (fun d hd => by simp [hd]) ?_
      intro t p hpc ht _
      refine ⟨.ready c, ?_⟩
      rcases at_yielding ht hpc hrole with ⟨-, rfl⟩ | ⟨-, hq⟩
      · simp [At]
      · rw [hready] at hq
        simp only [At, Core.setRole_ready, Core.setReady_ready, Function.update_self,
          List.mem_append, List.mem_cons] at hq ⊢
        tauto
  | leave hrole hidle hst =>
      refine hk.setState ?_ ?_
      · rintro (rfl | rfl) _ <;> simp at hst
      · intro t p hpc ht _ hrun
        rcases at_work ht hpc hrole with ⟨-, -, rfl⟩ | ⟨-, hw⟩ | ⟨-, hq⟩
        · rw [Function.update_self] at hrun
          rcases hrun with rfl | rfl <;> simp at hst
        · cases hw
        · exact ⟨.ready c, hq⟩
  | @wake seated u hrole hblocked =>
      refine hk.setState (fun _ _ => .inr ⟨.waking c, by simp [At, Role.waking]⟩) ?_
      intro t p hpc ht _ _
      rcases at_work ht hpc hrole with ⟨-, rfl, rfl⟩ | ⟨-, hw⟩ | ⟨-, hq⟩
      · exact ⟨.seat c, ⟨.spinning u, by simp⟩, rfl⟩
      · cases hw
      · exact ⟨.ready c, hq⟩
  | @wakeIdle seated u hrole hblocked hu =>
      intro t hmade hidle hrun
      have htu : t ≠ u := by
        rintro rfl
        rw [hu] at hidle
        cases hidle
      exact hk t hmade hidle (by simpa [htu] using hrun)
  | @pass seated u hrole hoff =>
      refine hk.sameState (c := c) rfl rfl (fun d hd => by simp [hd]) ?_
      intro t p hpc ht _
      rcases at_work ht hpc hrole with ⟨-, rfl, rfl⟩ | ⟨-, hw⟩ | ⟨-, hq⟩
      · exact ⟨.seat c, ⟨.passed u, by simp⟩, rfl⟩
      · exact ⟨.waking c, by simpa [At, Role.waking] using hw⟩
      · exact ⟨.ready c, hq⟩
  | @enqueue seated u l l' hrole hready =>
      refine hk.sameState (c := c) rfl rfl (fun d hd => by simp [hd]) ?_
      intro t p hpc ht _
      rcases at_work ht hpc hrole with ⟨-, rfl, rfl⟩ | ⟨-, hw⟩ | ⟨-, hq⟩
      · exact ⟨.seat c, ⟨.none, by simp⟩, rfl⟩
      · cases hw
        exact ⟨.ready c, by simp [At]⟩
      · refine ⟨.ready c, ?_⟩
        rw [hready] at hq
        simp only [At, Core.setRole_ready, Core.setReady_ready, Function.update_self,
          List.mem_append, List.mem_cons] at hq ⊢
        tauto
  | @pick n l l' hrole hready =>
      refine hk.sameState (c := c) rfl rfl (fun d hd => by simp [hd]) ?_
      intro t p hpc ht _
      rcases at_work ht hpc hrole with ⟨-, hfalse, -⟩ | ⟨-, hw⟩ | ⟨-, hq⟩
      · cases hfalse
      · cases hw
      · by_cases htn : t = n
        · subst htn
          exact ⟨.chosen c, by simp [At]⟩
        · refine ⟨.ready c, ?_⟩
          rw [hready] at hq
          simpa [At, htn] using hq
  | pickIdle hrole hready =>
      refine hk.sameState (c := c) rfl rfl (fun d hd => by simp [hd]) ?_
      intro t p hpc ht _
      rcases at_work ht hpc hrole with ⟨-, hfalse, -⟩ | ⟨-, hw⟩ | ⟨-, hq⟩
      · cases hfalse
      · cases hw
      · exact ⟨.ready c, hq⟩
  | @start n hrole =>
      have hplace : ∃ p, At ((k.setState n .running).setRole c
          (if n = k.current c then .work true .none else .starting n)) n p := by
        split
        case isTrue hn => exact ⟨.seat c, ⟨.none, by simp⟩, by simpa using hn.symm⟩
        case isFalse => exact ⟨.started c, .inl (by simp)⟩
      refine hk.setState (fun _ _ => .inr hplace) ?_
      intro t p hpc ht _ _
      rcases at_chosen ht hpc hrole with ⟨-, rfl⟩ | ⟨-, hq⟩
      · exact hplace
      · exact ⟨.ready c, hq⟩
  | claim hrole =>
      refine hk.sameState (c := c) rfl rfl (fun d hd => by simp [hd]) ?_
      intro t p hpc ht _
      rcases at_started ht hpc (.inl hrole) with ⟨-, rfl⟩ | ⟨-, hq⟩
      · exact ⟨.started c, .inr (by simp)⟩
      · exact ⟨.ready c, hq⟩
  | switch hrole =>
      refine hk.sameState (c := c) rfl rfl (fun d hd => by simp [hd]) ?_
      intro t p hpc ht _
      rcases at_started ht hpc (.inr hrole) with ⟨-, rfl⟩ | ⟨-, hq⟩
      · exact ⟨.seat c, ⟨.none, by simp⟩, by simp⟩
      · exact ⟨.ready c, hq⟩
  | @clear x hrole hx =>
      intro t hmade hidle hrun
      obtain ⟨p, hplace⟩ := hk t (by cases x <;> exact hmade) hidle (by cases x <;> exact hrun)
      exact ⟨p, by cases x <;> exact (at_congr rfl rfl rfl).mpr hplace⟩
  | reblock _ _ _ => exact absurd rfl (hreblock _)

end Handoff
