import Vsched.Deque.Invariant

/-!
# A full deque and an empty one

`head == tail` stands for the empty deque, so a push must not move its index
onto the other one. The test that is to prevent this reads both indices before
the slot is claimed, and the compare-and-swap on the index checks the own end
only: a push at the other end may have filled the ring in between. Along the
runs in which no push moves its index that way the ring always keeps a free
slot, and a call that runs alone returns.
-/

namespace Deque

variable {α : Type*} {cap : ℕ}

/-- A push moves its index to a value that still differs from the other index. -/
def roomy (cap : ℕ) (_ : History α) (s : State α) : ℕ × Event α → Prop
  | (_, .moved (.push e _) _) => pushIndex cap e (s.mem.index e) ≠ s.mem.index e.other
  | _ => True

instance (cap : ℕ) (h : History α) (s : State α) (a : ℕ × Event α) :
    Decidable (roomy cap h s a) :=
  match a with
  | (_, .moved (.push _ _) _) => inferInstanceAs (Decidable (_ ≠ _))
  | (_, .moved (.pop _) _) => .isTrue trivial
  | (_, .call _) => .isTrue trivial
  | (_, .ret _) => .isTrue trivial
  | (_, .silent) => .isTrue trivial

theorem tick_moved {m : Mem α} {weak : Bool} {p : Pc α} {c : Call α} {i : ℕ}
    (h : (tick cap m weak p).2.2 = .moved c i) :
    ∃ near, p = .move c near ∧ m.index c.side = near ∧ weak = false ∧
      i = c.slot cap near ∧
      (tick cap m weak p).1 = m.setIndex c.side (c.newIndex cap near) := by
  cases p with
  | move c' near =>
      by_cases hcas : m.index c'.side = near ∧ weak = false
      · simp only [tick, if_pos hcas] at h ⊢
        cases h
        exact ⟨near, rfl, hcas.1, hcas.2, rfl, rfl⟩
      · simp only [tick, if_neg hcas] at h
        cases h
  | reload c' near far =>
      exfalso
      revert h
      simp only [tick]
      split
      · intro h
        cases h
      · cases c' <;> dsimp only <;> split <;> intro h <;> cases h
  | claim c' near =>
      exfalso
      revert h
      simp only [tick]
      split
      · intro h
        cases h
      · cases c' <;> dsimp only
        · intro h
          cases h
        · split <;> intro h <;> cases h
  | _ => cases h

/-- Only a successful compare-and-swap on an index changes the indices. -/
theorem tick_index {m : Mem α} {weak : Bool} {p : Pc α} (e : End)
    (h : ∀ c i, (tick cap m weak p).2.2 ≠ .moved c i) :
    (tick cap m weak p).1.index e = m.index e := by
  cases p with
  | move c near =>
      by_cases hcas : m.index c.side = near ∧ weak = false
      · simp only [tick, if_pos hcas] at h
        exact absurd rfl (h _ _)
      · simp only [tick, if_neg hcas]
  | reload c near far =>
      simp only [tick]
      split
      · rfl
      · cases c <;> dsimp only <;> split <;> rfl
  | claim c near =>
      simp only [tick]
      split
      · cases e <;> rfl
      · cases c <;> dsimp only
        split <;> rfl
  | release c i => cases e <;> rfl
  | write x i => cases e <;> rfl
  | publish i => cases e <;> rfl
  | vacate i d => cases e <;> rfl
  | _ => rfl

theorem contents_of_not_moved {t : ℕ} {ev : Event α} {h : History α}
    (hev : ∀ c i, ev ≠ .moved c i) : contents ((t, ev) :: h) = contents h := by
  cases ev with
  | moved c i => exact absurd rfl (hev c i)
  | _ => rfl

theorem committed_of_not_moved {t : ℕ} {ev : Event α} {h : History α}
    (hev : ∀ c i, ev ≠ .moved c i) (i : ℕ) : committed ((t, ev) :: h) i = committed h i := by
  cases ev with
  | moved c j => exact absurd rfl (hev c j)
  | _ => rfl

/-- A pop in front of its compare-and-swap stands at the end of a list that is
not empty. -/
theorem Inv.pop_ne_nil {l : List α} {s : State α} {t : ℕ} {e : End} (hinv : Inv cap l s)
    (hpc : s.pc t = .move (.pop e) (s.mem.index e)) : l ≠ [] := by
  have hheld : (s.pc t).held cap =
      some ((Call.pop e : Call α).slot cap (s.mem.index e), .peek) := by rw [hpc]; rfl
  obtain ⟨-, x, hw, -⟩ := (hinv.claimed t _ _ hheld).2.of_peek
  rintro rfl
  simp at hw

/-- A roomy move of a push leaves the list room for its item. -/
theorem Inv.room {l : List α} {s : State α} {t : ℕ} {ev : Event α} {h : History α}
    {e : End} {x : α} {i : ℕ} (hinv : Inv cap l s) (hroomy : roomy cap h s (t, ev))
    (hev : ev = .moved (.push e x) i) : l.length + 1 < cap := by
  subst hev
  have hne : pushIndex cap e (s.mem.index e) ≠ s.mem.index e.other := hroomy
  rw [Ne, hinv.layout.push_full_iff] at hne
  have hlen := hinv.layout.length_lt
  omega

theorem Inv.step {l : List α} {s s' : State α} {a : ℕ × Event α} {h : History α}
    (hinv : Inv cap l s) (hroomy : roomy cap h s a) (hstep : Step cap s a s') :
    Inv cap (a.2.apply l) s' := by
  cases hstep with
  | @call t c hidle => exact hinv.stay trivial (by rw [hidle]; rfl) rfl
  | @tick t weak _ =>
      refine hinv.tick weak ?_
      intro e x hpc hweak
      have hev : (Deque.tick cap s.mem weak (s.pc t)).2.2 =
          .moved (.push e x) ((Call.push e x).slot cap (s.mem.index e)) := by
        simp only [hpc, hweak, Deque.tick]
        rw [if_pos ⟨rfl, trivial⟩]
      exact hinv.room hroomy hev

/-- The list of committed items is laid out on the ring along every roomy run. -/
theorem roomy_inv {h : History α} {s : State α} (hcap : 0 < cap)
    (hrun : (machine α cap).RunOf (roomy cap) h s) : Inv cap (contents h) s := by
  refine hrun.invariant (I := fun h s => Inv cap (contents h) s) ?_ ?_
  · rintro s rfl
    exact Inv.init hcap
  · intro h s a s' _ hinv hroomy hstep
    exact hinv.step hroomy hstep

/-- A slot holds a committed item exactly where the list is laid out. -/
theorem roomy_committed {h : History α} {s : State α} (hcap : 0 < cap)
    (hrun : (machine α cap).RunOf (roomy cap) h s) :
    ∀ i, i < cap → committed h i = (Ring.window cap s.mem.head (contents h) i).isSome := by
  refine hrun.invariant
    (I := fun h s => ∀ i, i < cap →
      committed h i = (Ring.window cap s.mem.head (contents h) i).isSome) ?_ ?_
  · rintro s rfl i -
    simp [committed, contents, Ring.window_nil]
  · intro h s a s' hprev hold hroomy hstep i hi
    have hinv := roomy_inv hcap hprev
    cases hstep with
    | call _ => exact hold i hi
    | @tick t weak _ =>
        by_cases hmoved : ∃ c j, (Deque.tick cap s.mem weak (s.pc t)).2.2 = .moved c j
        · obtain ⟨c, j, hev⟩ := hmoved
          obtain ⟨near, hpc, rfl, hweak, rfl, hmem⟩ := tick_moved hev
          rw [hev, hmem]
          cases c with
          | push e x =>
              obtain ⟨-, hwin⟩ := hinv.layout.push e x (hinv.room hroomy hev)
              have hwin := hwin i hi
              simp only [committed, contents, Event.apply, Call.side, Call.newIndex] at hwin ⊢
              rw [hwin, hold i hi]
              by_cases hi' : i = (Call.push e x).slot cap (s.mem.index e) <;> simp [hi']
          | pop e =>
              obtain ⟨-, hwin⟩ := hinv.layout.pop e (hinv.pop_ne_nil hpc)
              have hwin := hwin i hi
              simp only [committed, contents, Event.apply, Call.side, Call.newIndex] at hwin ⊢
              rw [hwin, hold i hi]
              by_cases hi' : i = (Call.pop e : Call α).slot cap (s.mem.index e) <;> simp [hi']
        · have hev : ∀ c j, (Deque.tick cap s.mem weak (s.pc t)).2.2 ≠ .moved c j :=
            fun c j hcj => hmoved ⟨c, j, hcj⟩
          rw [committed_of_not_moved hev, contents_of_not_moved hev, hold i hi]
          have hhead : (Deque.tick cap s.mem weak (s.pc t)).1.head = s.mem.head :=
            tick_index .front hev
          rw [hhead]

/-- The accesses of a call that runs alone, no compare-and-swap failing
spuriously. -/
def solo (cap : ℕ) (r : Mem α × Pc α) : Mem α × Pc α :=
  ((tick cap r.1 false r.2).1, (tick cap r.1 false r.2).2.1)

/-- A call that runs alone from here on returns. -/
def Returns (cap : ℕ) (m : Mem α) (p : Pc α) : Prop :=
  ∃ n, ((solo cap)^[n] (m, p)).2 = .idle

theorem Returns.idle (m : Mem α) : Returns cap m .idle := ⟨0, rfl⟩

theorem Returns.step {m : Mem α} {p : Pc α}
    (h : Returns cap (tick cap m false p).1 (tick cap m false p).2.1) : Returns cap m p := by
  obtain ⟨n, hn⟩ := h
  exact ⟨n + 1, hn⟩

theorem Returns.write (m : Mem α) (x : α) (i : ℕ) : Returns cap m (.write x i) :=
  ⟨2, rfl⟩

theorem Returns.read (m : Mem α) (i : ℕ) : Returns cap m (.read i) :=
  ⟨2, rfl⟩

/-- No thread but `t` holds a slot. -/
def Alone (cap : ℕ) (s : State α) (t : ℕ) : Prop :=
  ∀ u, u ≠ t → (s.pc u).held cap = none

/-- While nobody holds a slot, the slot a call loads is in the state it expects
unless the deque is full for a push or empty for a pop. -/
theorem Inv.slot_expected {l : List α} {s : State α} {c : Call α} (hinv : Inv cap l s)
    (hfree : ∀ u, (s.pc u).held cap = none)
    (hne : ∀ e, c = .pop e → s.mem.head ≠ s.mem.tail) :
    s.mem.state (c.slot cap (s.mem.index c.side)) = c.expected := by
  have hslot := hinv.unclaimed _ (c.slot_lt (hinv.layout.index_lt c.side))
    (fun u k hk => by rw [hfree u] at hk; cases hk)
  cases c with
  | push e x =>
      rw [Call.side, hinv.layout.window_push e x] at hslot
      exact hslot.state_empty
  | pop e =>
      have hl : l ≠ [] := fun hl => hne e rfl (hinv.layout.head_eq_tail_iff.mpr hl)
      have hsome : ∃ x, Ring.window cap s.mem.head l
          ((Call.pop e : Call α).slot cap (s.mem.index e)) = some x := by
        rw [hinv.layout.window_pop e]
        cases e with
        | front => exact ⟨_, List.head?_eq_some_head hl⟩
        | back => exact ⟨_, List.getLast?_eq_some_getLast hl⟩
      obtain ⟨x, hx⟩ := hsome
      rw [Call.side, hx] at hslot
      exact hslot.state_ready

theorem Returns.load {m : Mem α} {c : Call α}
    (h : Returns cap m (.reload c (m.index c.side) (m.index c.side.other))) :
    Returns cap m (.load c) := by
  apply Returns.step
  apply Returns.step
  exact h

/-- A call that moves its index successfully returns. -/
theorem Returns.move {m : Mem α} {c : Call α} {near : ℕ} (h : m.index c.side = near) :
    Returns cap m (.move c near) := by
  apply Returns.step
  simp only [tick]
  rw [if_pos ⟨h, trivial⟩]
  cases c with
  | push e x => exact Returns.write _ x _
  | pop e => exact Returns.read _ _

/-- A call whose slot is in the expected state returns. -/
theorem Returns.claim {m : Mem α} {c : Call α} {near : ℕ} (h : m.index c.side = near)
    (hst : m.state (c.slot cap near) = c.expected) : Returns cap m (.claim c near) := by
  apply Returns.step
  simp only [tick]
  rw [if_pos ⟨hst, trivial⟩]
  apply Returns.move
  rw [← h]
  cases c.side <;> rfl

theorem Alone.update {s : State α} {t : ℕ} (halone : Alone cap s t) (m : Mem α) (p : Pc α) :
    Alone cap ⟨m, Function.update s.pc t p⟩ t := by
  intro u hu
  simp only [Function.update_of_ne hu]
  exact halone u hu

section Alone

variable {l : List α} {s : State α} {t : ℕ} {c : Call α} {near i : ℕ}

/-- A call that starts while nobody else holds a slot returns. -/
theorem Inv.returns_load (c : Call α) (hinv : Inv cap l s) (halone : Alone cap s t)
    (hnone : (s.pc t).held cap = none) : Returns cap s.mem (.load c) := by
  have hfree : ∀ u, (s.pc u).held cap = none := by
    intro u
    by_cases hu : u = t
    · rw [hu, hnone]
    · exact halone u hu
  apply Returns.load
  cases c with
  | push e x =>
      change Returns cap s.mem (.reload (.push e x) (s.mem.index e) (s.mem.index e.other))
      apply Returns.step
      simp only [Deque.tick, Call.side, ne_eq, not_true_eq_false, if_false]
      by_cases hfull : pushIndex cap e (s.mem.index e) = s.mem.index e.other
      · simp only [if_pos hfull]
        exact Returns.idle _
      · simp only [if_neg hfull]
        refine Returns.claim rfl (hinv.slot_expected hfree ?_)
        intro e' he'
        cases he'
  | pop e =>
      change Returns cap s.mem (.reload (.pop e) (s.mem.index e) (s.mem.index e.other))
      apply Returns.step
      simp only [Deque.tick, Call.side, ne_eq, not_true_eq_false, if_false]
      by_cases hempty : s.mem.index e = s.mem.index e.other
      · simp only [if_pos hempty]
        exact Returns.idle _
      · simp only [if_neg hempty]
        refine Returns.claim rfl (hinv.slot_expected hfree ?_)
        intro e' _
        cases e with
        | front => exact hempty
        | back => exact fun h => hempty h.symm

theorem Inv.returns_release (hinv : Inv cap l s) (halone : Alone cap s t)
    (hpc : s.pc t = .release c i) : Returns cap s.mem (.release c i) := by
  apply Returns.step
  refine (hinv.release_slot hpc).returns_load c (halone.update _ _) ?_
  simp only [Function.update_self]
  rfl

theorem Inv.returns_move (hinv : Inv cap l s) (halone : Alone cap s t)
    (hpc : s.pc t = .move c near) : Returns cap s.mem (.move c near) := by
  by_cases hcas : s.mem.index c.side = near
  · exact Returns.move hcas
  · -- the failing compare-and-swap leaves the state a spurious failure would leave
    have hinv' := hinv.tick (t := t) true (fun _ _ _ hweak => by cases hweak)
    simp only [hpc, Deque.tick, Bool.true_eq_false, and_false, if_false] at hinv'
    apply Returns.step
    simp only [Deque.tick, hcas, false_and, if_false]
    exact hinv'.returns_release (halone.update _ _) (by simp only [Function.update_self])

theorem Inv.returns_claim (hinv : Inv cap l s) (halone : Alone cap s t)
    (hpc : s.pc t = .claim c near) : Returns cap s.mem (.claim c near) := by
  have hnone : (s.pc t).held cap = none := by rw [hpc]; rfl
  have hnear : near < cap := by
    have hbound := hinv.bounded t
    rwa [hpc] at hbound
  apply Returns.step
  simp only [Deque.tick]
  split
  case isTrue hst =>
    exact (hinv.claim_slot hnear hnone hst.1).returns_move (halone.update _ _)
      (by simp only [Function.update_self])
  case isFalse =>
    cases c with
    | push e x => exact hinv.returns_load _ halone hnone
    | pop e =>
        dsimp only
        split
        · exact Returns.idle _
        · exact hinv.returns_load _ halone hnone

theorem Inv.returns_reload {far : ℕ} (hinv : Inv cap l s) (halone : Alone cap s t)
    (hpc : s.pc t = .reload c near far) : Returns cap s.mem (.reload c near far) := by
  have hnone : (s.pc t).held cap = none := by rw [hpc]; rfl
  have hnear : near < cap := by
    have hbound := hinv.bounded t
    rwa [hpc] at hbound
  have hclaim : ∀ c : Call α, Returns cap s.mem (.claim c near) := by
    intro c
    refine Inv.returns_claim (s := ⟨s.mem, Function.update s.pc t (.claim c near)⟩)
      (hinv.stay hnear hnone rfl) (halone.update _ _) ?_
    simp only [Function.update_self]
  apply Returns.step
  simp only [Deque.tick]
  split
  · exact hinv.returns_load _ halone hnone
  · cases c with
    | push e x =>
        dsimp only
        split
        · exact Returns.idle _
        · exact hclaim _
    | pop e =>
        dsimp only
        split
        · exact Returns.idle _
        · exact hclaim _

/-- A call that stands anywhere returns once it runs alone. -/
theorem Inv.returns (hinv : Inv cap l s) (halone : Alone cap s t) :
    Returns cap s.mem (s.pc t) := by
  cases hpc : s.pc t with
  | idle => exact Returns.idle _
  | load c => exact hinv.returns_load c halone (by rw [hpc]; rfl)
  | loadOther c near =>
      have hnear : near < cap := by
        have hbound := hinv.bounded t
        rwa [hpc] at hbound
      apply Returns.step
      refine Inv.returns_reload (s := ⟨s.mem,
        Function.update s.pc t (.reload c near (s.mem.index c.side.other))⟩)
        (hinv.stay hnear (by rw [hpc]; rfl) rfl) (halone.update _ _) ?_
      simp only [Function.update_self]
  | reload c near far => exact hinv.returns_reload halone hpc
  | claim c near => exact hinv.returns_claim halone hpc
  | move c near => exact hinv.returns_move halone hpc
  | release c i => exact hinv.returns_release halone hpc
  | write x i => exact Returns.write _ _ _
  | publish i => exact ⟨1, rfl⟩
  | read i => exact Returns.read _ _
  | vacate i d => exact ⟨1, rfl⟩

end Alone

theorem Step.of_moved {s s' : State α} {t i : ℕ} {c : Call α}
    (hstep : Step cap s (t, .moved c i) s') :
    ∃ weak, (Deque.tick cap s.mem weak (s.pc t)).2.2 = .moved c i ∧
      s' = ⟨(Deque.tick cap s.mem weak (s.pc t)).1,
        Function.update s.pc t (Deque.tick cap s.mem weak (s.pc t)).2.1⟩ := by
  generalize hev : Event.moved c i = ev at hstep
  cases hstep with
  | call _ => cases hev
  | tick weak _ => exact ⟨weak, rfl, rfl⟩

/-- A push that moves its index onto the other one makes a deque with a
committed item look empty. -/
theorem not_roomy_step {h : History α} {s s' : State α} {a : ℕ × Event α}
    (hnot : ¬ roomy cap h s a) (hstep : Step cap s a s') :
    s'.mem.head = s'.mem.tail ∧ ∃ i, committed (a :: h) i = true := by
  obtain ⟨t, ev⟩ := a
  cases ev with
  | moved c i =>
      cases c with
      | pop e => exact absurd trivial hnot
      | push e x =>
          have hfull : pushIndex cap e (s.mem.index e) = s.mem.index e.other := not_not.mp hnot
          refine ⟨?_, i, by simp [committed]⟩
          obtain ⟨weak, hev, rfl⟩ := hstep.of_moved
          obtain ⟨near, -, rfl, -, -, hmem⟩ := tick_moved hev
          simp only [hmem]
          cases e with
          | front => exact hfull
          | back => exact hfull.symm
  | _ => exact absurd trivial hnot

/-- Along every run in which each push still finds room when it moves its index,
equal indices mean that no slot holds a committed item, one slot stays free, and
a call returns if it runs while no other thread holds a slot. -/
theorem full_not_empty {h : History α} {s : State α} (hcap : 2 ≤ cap)
    (hrun : (machine α cap).RunOf (roomy cap) h s) :
    (s.mem.head = s.mem.tail → ∀ i, i < cap → committed h i = false) ∧
      ((Finset.range cap).filter fun i => committed h i = true).card ≤ cap - 1 ∧
      ∀ t, Alone cap s t → Returns cap s.mem (s.pc t) ∧
        (s.pc t = .idle → ∀ c, Returns cap s.mem (.load c)) := by
  have hpos : 0 < cap := by omega
  have hinv := roomy_inv hpos hrun
  have hcom := roomy_committed hpos hrun
  have htail : s.mem.tail < cap := hinv.layout.index_lt .back
  refine ⟨?_, ?_, ?_⟩
  · intro heq i hi
    rw [hcom i hi, hinv.layout.head_eq_tail_iff.mp heq, Ring.window_nil]
    rfl
  · -- the slot behind the last element is free
    have hend : committed h s.mem.tail = false := by
      rw [hcom _ htail, hinv.layout.tail_eq,
        Ring.window_end hinv.layout.head_lt hinv.layout.length_lt]
      rfl
    have hsub : (Finset.range cap).filter (fun i => committed h i = true) ⊆
        (Finset.range cap).erase s.mem.tail := by
      intro i hi
      rw [Finset.mem_filter] at hi
      rw [Finset.mem_erase]
      refine ⟨?_, hi.1⟩
      rintro rfl
      rw [hend] at hi
      exact absurd hi.2 (by decide)
    calc ((Finset.range cap).filter fun i => committed h i = true).card
        ≤ ((Finset.range cap).erase s.mem.tail).card := Finset.card_le_card hsub
      _ = cap - 1 := by
        rw [Finset.card_erase_of_mem (Finset.mem_range.mpr htail), Finset.card_range]
  · intro t halone
    refine ⟨hinv.returns halone, ?_⟩
    intro hidle c
    exact hinv.returns_load c halone (by rw [hidle]; rfl)

/-- A push that finds a ready slot behind indices that leave it room tries for
ever. -/
theorem not_returns_push {m : Mem α} {e : End} {x : α}
    (hroom : pushIndex cap e (m.index e) ≠ m.index e.other)
    (hst : m.state ((Call.push e x).slot cap (m.index e)) ≠ .empty) :
    ¬ Returns cap m (.load (.push e x)) := by
  -- the four accesses of one attempt
  let attempt : List (Pc α) := [.load (.push e x), .loadOther (.push e x) (m.index e),
    .reload (.push e x) (m.index e) (m.index e.other), .claim (.push e x) (m.index e)]
  have hloop : ∀ n, ∃ p ∈ attempt, (solo cap)^[n] (m, .load (.push e x)) = (m, p) := by
    intro n
    induction n with
    | zero => exact ⟨_, List.mem_cons_self, rfl⟩
    | succ n ih =>
        obtain ⟨p, hp, hn⟩ := ih
        rw [Function.iterate_succ_apply', hn]
        simp only [attempt, List.mem_cons, List.not_mem_nil, or_false] at hp
        rcases hp with rfl | rfl | rfl | rfl
        · exact ⟨_, List.mem_cons_of_mem _ List.mem_cons_self, rfl⟩
        · exact ⟨_, List.mem_cons_of_mem _ (List.mem_cons_of_mem _ List.mem_cons_self), rfl⟩
        · refine ⟨.claim (.push e x) (m.index e), by simp [attempt], ?_⟩
          simp [solo, tick, Call.side, hroom]
        · refine ⟨.load (.push e x), by simp [attempt], ?_⟩
          simp [solo, tick, Call.expected, hst]
  rintro ⟨n, hn⟩
  obtain ⟨p, hp, heq⟩ := hloop n
  rw [heq] at hn
  subst hn
  simp [attempt] at hp

/-- One push at each end, interleaved so that both test an empty deque. -/
def bothEnds : List (Choice ℕ) :=
  [.invoke 0 (pushFront 10), .invoke 1 (pushBack 20)] ++
    goes 0 4 ++ goes 1 4 ++ goes 0 3 ++ goes 1 3

theorem alone_bothEnds {cap : ℕ} {s : State ℕ} (hidle : s.pc 1 = .idle)
    (hrest : ∀ u, s.pc (u + 2) = .idle) : Alone cap s 0 := by
  intro u hu
  match u, hu with
  | 1, _ => rw [hidle]; rfl
  | u + 2, _ => rw [hrest]; rfl

/-- On a deque of three slots both pushes find room when they move their index, and one more
push returns. -/
theorem full_not_empty_bothEnds : ∃ (h : History ℕ) (s : State ℕ),
    (machine ℕ 3).RunOf (roomy 3) h s ∧ committed h 0 = true ∧ committed h 2 = true ∧
    ((Finset.range 3).filter fun i => committed h i = true).card ≤ 2 ∧
    Returns 3 s.mem (.load (pushFront 30)) := by
  let r := (playAll 3 (roomy 3) bothEnds).get (by decide)
  have hrun : (machine ℕ 3).RunOf (roomy 3) r.1 r.2 := playAll_run (Option.some_get _).symm
  obtain ⟨-, hcard, halone⟩ := full_not_empty (by decide) hrun
  exact ⟨r.1, r.2, hrun, by decide, by decide, hcard,
    (halone 0 (alone_bothEnds rfl fun _ => rfl)).2 rfl _⟩

/-- Both pushes succeed and fill the two slots; the indices are equal again, and
a push that then runs alone never returns. -/
theorem full_looks_empty : ∃ (h : History ℕ) (s : State ℕ), (machine ℕ 2).Run h s ∧
    s.mem.head = s.mem.tail ∧ committed h 0 = true ∧ committed h 1 = true ∧
    Alone 2 s 0 ∧ ¬ Returns 2 s.mem (.load (pushFront 30)) := by
  let r := (playAll 2 (fun _ _ _ => True) bothEnds).get (by decide)
  refine ⟨r.1, r.2, playAll_run (Option.some_get _).symm, by decide, by decide, by decide,
    alone_bothEnds rfl fun _ => rfl, not_returns_push (by decide) (by decide)⟩

end Deque
