import Vsched.Deque.Capacity

/-!
# The deque refines a double-ended list

As long as the list of committed items and the pushes that are still to move
their index fit the ring together, no push can fill it behind the back of
another one. Such a run is roomy, so the ring shows the list of the successful
moves in every state, and what each call returns is what the list did at its
move.
-/

namespace Deque

variable {α : Type*} {cap : ℕ}

/-- A push that has not moved its index yet. -/
def Pc.pushing : Pc α → Bool
  | .load (.push _ _) => true
  | .loadOther (.push _ _) _ => true
  | .reload (.push _ _) _ _ => true
  | .claim (.push _ _) _ => true
  | .move (.push _ _) _ => true
  | .release (.push _ _) _ => true
  | _ => false

/-- The committed items and the pushes in flight fit the ring, one slot staying
free. -/
def Headroom (cap : ℕ) (h : History α) (s : State α) : Prop :=
  ∀ F : Finset ℕ, (∀ t ∈ F, (s.pc t).pushing = true) → (contents h).length + F.card < cap

/-- Slot `i` shows `x`: its item, or the one a push is about to write. -/
def Shows (s : State α) (i : ℕ) (x : α) : Prop :=
  (∃ t, s.pc t = .write x i) ∨
    (∀ t y, s.pc t ≠ .write y i) ∧ s.mem.data i = some x

/-- The call a thread entered last. -/
def current : History α → ℕ → Option (Call α)
  | [], _ => none
  | (u, .call c) :: h, t => if u = t then some c else current h t
  | _ :: h, t => current h t

/-- The calls a thread has moved an index for since it entered its last call. -/
def applied : History α → ℕ → List (Call α)
  | [], _ => []
  | (u, .call _) :: h, t => if u = t then [] else applied h t
  | (u, .moved c _) :: h, t => if u = t then c :: applied h t else applied h t
  | _ :: h, t => applied h t

/-- The item the list gave up at the last move of a pop of a thread. -/
def gaveUp : History α → ℕ → Option α
  | [], _ => none
  | (u, .moved (.pop e) _) :: h, t => if u = t then e.item (contents h) else gaveUp h t
  | _ :: h, t => gaveUp h t

/-- A call returns what the list did at its move: a push that succeeds was
applied once and one that fails was not, a pop returns the item given up. -/
def Settled (h : History α) (t : ℕ) : Ret α → Prop
  | .pushOk => ∃ e x, current h t = some (.push e x) ∧ applied h t = [.push e x]
  | .pushErr x => ∃ e, current h t = some (.push e x) ∧ applied h t = []
  | .popSome d => ∃ e x, current h t = some (.pop e) ∧ applied h t = [.pop e] ∧
      gaveUp h t = some x ∧ d = some x
  | .popNone => ∃ e, current h t = some (.pop e) ∧ applied h t = []

/-- What a thread in a call has done so far. -/
def Linked (h : History α) (t : ℕ) (m : Mem α) : Pc α → Prop
  | .idle => True
  | .load c => current h t = some c ∧ applied h t = []
  | .loadOther c _ => current h t = some c ∧ applied h t = []
  | .reload c _ _ => current h t = some c ∧ applied h t = []
  | .claim c _ => current h t = some c ∧ applied h t = []
  | .move c _ => current h t = some c ∧ applied h t = []
  | .release c _ => current h t = some c ∧ applied h t = []
  | .write x _ => ∃ e, current h t = some (.push e x) ∧ applied h t = [.push e x]
  | .publish _ => ∃ e x, current h t = some (.push e x) ∧ applied h t = [.push e x]
  | .read i => ∃ e x, current h t = some (.pop e) ∧ applied h t = [.pop e] ∧
      gaveUp h t = some x ∧ m.data i = some x
  | .vacate _ d => ∃ e x, current h t = some (.pop e) ∧ applied h t = [.pop e] ∧
      gaveUp h t = some x ∧ d = some x

section Other

variable {h : History α} {t u : ℕ} {ev : Event α}

theorem current_other (hu : u ≠ t) : current ((u, ev) :: h) t = current h t := by
  cases ev with
  | call c => simp [current, hu]
  | _ => rfl

theorem applied_other (hu : u ≠ t) : applied ((u, ev) :: h) t = applied h t := by
  cases ev with
  | call c => simp [applied, hu]
  | moved c i => simp [applied, hu]
  | _ => rfl

theorem gaveUp_other (hu : u ≠ t) : gaveUp ((u, ev) :: h) t = gaveUp h t := by
  cases ev with
  | moved c i =>
      cases c with
      | push e x => rfl
      | pop e => simp [gaveUp, hu]
  | _ => rfl

/-- A step of another thread leaves what a thread has done as it is, as long as
it does not write the slot the thread is about to read. -/
theorem Linked.other {m m' : Mem α} {p : Pc α} (hu : u ≠ t) (hlink : Linked h t m p)
    (hdata : ∀ i, p = .read i → m'.data i = m.data i) :
    Linked ((u, ev) :: h) t m' p := by
  cases p <;>
    simp only [Linked, current_other hu, applied_other hu, gaveUp_other hu] at hlink ⊢ <;>
    first | exact hlink | skip
  rw [hdata _ rfl]
  exact hlink

/-- A step that shows nothing to an observer leaves what its thread has done. -/
theorem Linked.silent {m : Mem α} {p : Pc α} (hlink : Linked h t m p) :
    Linked ((u, .silent) :: h) t m p := by
  cases p <;> exact hlink

end Other

/-- Only a push in front of its write changes the data of a slot. -/
theorem tick_data {m : Mem α} {weak : Bool} {p : Pc α} {i : ℕ}
    (h : ∀ x, p ≠ .write x i) : (tick cap m weak p).1.data i = m.data i := by
  cases p with
  | write x j =>
      have hij : i ≠ j := by
        rintro rfl
        exact h x rfl
      exact Function.update_of_ne hij _ _
  | move c near =>
      simp only [tick]
      split
      · rw [(m.setIndex_slots _ _).2]
      · rfl
  | reload c near far =>
      simp only [tick]
      split
      · rfl
      · cases c <;> dsimp only <;> split <;> rfl
  | claim c near =>
      simp only [tick]
      split
      · rfl
      · cases c <;> dsimp only
        split <;> rfl
  | _ => rfl

/-- The item a pop is about to take is the one at its end of the list. -/
theorem Inv.pop_item {l : List α} {s : State α} {t : ℕ} {e : End} (hinv : Inv cap l s)
    (hpc : s.pc t = .move (.pop e) (s.mem.index e)) :
    ∃ x, e.item l = some x ∧
      s.mem.data ((Call.pop e : Call α).slot cap (s.mem.index e)) = some x := by
  have hheld : (s.pc t).held cap =
      some ((Call.pop e : Call α).slot cap (s.mem.index e), .peek) := by rw [hpc]; rfl
  obtain ⟨-, x, hw, hd⟩ := (hinv.claimed t _ _ hheld).2.of_peek
  exact ⟨x, by rw [← hinv.layout.window_pop e, hw], hd⟩

/-- An access of a thread keeps its account, and what it returns is settled. -/
theorem Linked.tick {h : History α} {s : State α} {t : ℕ} (weak : Bool)
    (hinv : Inv cap (contents h) s) (hlink : Linked h t s.mem (s.pc t)) :
    Linked ((t, (tick cap s.mem weak (s.pc t)).2.2) :: h) t
        (Deque.tick cap s.mem weak (s.pc t)).1 (Deque.tick cap s.mem weak (s.pc t)).2.1 ∧
      ∀ r, (Deque.tick cap s.mem weak (s.pc t)).2.2 = .ret r → Settled h t r := by
  cases hpc : s.pc t with
  | idle => exact ⟨trivial, fun r hr => by cases hr⟩
  | load c =>
      rw [hpc] at hlink
      exact ⟨hlink, fun r hr => by cases hr⟩
  | loadOther c near =>
      rw [hpc] at hlink
      exact ⟨hlink, fun r hr => by cases hr⟩
  | reload c near far =>
      rw [hpc] at hlink
      simp only [Deque.tick]
      split
      · exact ⟨hlink, fun r hr => by cases hr⟩
      · cases c with
        | push e x =>
            dsimp only
            split
            · refine ⟨trivial, ?_⟩
              intro r hr
              cases hr
              exact ⟨e, hlink⟩
            · exact ⟨hlink, fun r hr => by cases hr⟩
        | pop e =>
            dsimp only
            split
            · refine ⟨trivial, ?_⟩
              intro r hr
              cases hr
              exact ⟨e, hlink⟩
            · exact ⟨hlink, fun r hr => by cases hr⟩
  | claim c near =>
      rw [hpc] at hlink
      simp only [Deque.tick]
      split
      · exact ⟨hlink, fun r hr => by cases hr⟩
      · cases c with
        | push e x => exact ⟨hlink, fun r hr => by cases hr⟩
        | pop e =>
            dsimp only
            split
            · refine ⟨trivial, ?_⟩
              intro r hr
              cases hr
              exact ⟨e, hlink⟩
            · exact ⟨hlink, fun r hr => by cases hr⟩
  | move c near =>
      rw [hpc] at hlink
      simp only [Deque.tick]
      split
      case isFalse => exact ⟨hlink, fun r hr => by cases hr⟩
      case isTrue hcas =>
        obtain ⟨rfl, -⟩ := hcas
        refine ⟨?_, fun r hr => by cases hr⟩
        obtain ⟨hcur, happ⟩ := hlink
        cases c with
        | push e x => exact ⟨e, hcur, by simp [applied, happ]⟩
        | pop e =>
            obtain ⟨x, hitem, hdata⟩ := hinv.pop_item hpc
            refine ⟨e, x, hcur, by simp [applied, happ], ?_, ?_⟩
            · simpa [gaveUp] using hitem
            · rw [(s.mem.setIndex_slots _ _).2]
              exact hdata
  | release c i =>
      rw [hpc] at hlink
      exact ⟨hlink, fun r hr => by cases hr⟩
  | write x i =>
      rw [hpc] at hlink
      obtain ⟨e, hcur, happ⟩ := hlink
      exact ⟨⟨e, x, hcur, happ⟩, fun r hr => by cases hr⟩
  | publish i =>
      rw [hpc] at hlink
      refine ⟨trivial, ?_⟩
      intro r hr
      cases hr
      exact hlink
  | read i =>
      rw [hpc] at hlink
      exact ⟨hlink, fun r hr => by cases hr⟩
  | vacate i d =>
      rw [hpc] at hlink
      refine ⟨trivial, ?_⟩
      intro r hr
      cases hr
      exact hlink

/-- A run with headroom is roomy. -/
theorem headroom_roomy {h : History α} {s : State α} (hcap : 0 < cap)
    (hrun : (machine α cap).RunOf (fun h s _ => Headroom cap h s) h s) :
    (machine α cap).RunOf (roomy cap) h s := by
  refine hrun.upgrade ?_
  rintro h s ⟨t, ev⟩ s' - hroomy hhead hstep
  cases ev with
  | moved c i =>
      cases c with
      | pop e => trivial
      | push e x =>
          have hinv := roomy_inv hcap hroomy
          obtain ⟨weak, hev, -⟩ := hstep.of_moved
          obtain ⟨near, hpc, -⟩ := tick_moved hev
          have hone := hhead {t} (by
            intro u hu
            rw [Finset.mem_singleton.mp hu, hpc]
            rfl)
          rw [Finset.card_singleton] at hone
          change pushIndex cap e (s.mem.index e) ≠ s.mem.index e.other
          rw [Ne, hinv.layout.push_full_iff]
          omega
  | _ => trivial

theorem settled_cons {h : History α} {t : ℕ} {ev : Event α}
    (hset : ∀ h₁ t r h₂, h = h₁ ++ (t, .ret r) :: h₂ → Settled h₂ t r)
    (hret : ∀ r, ev = .ret r → Settled h t r) :
    ∀ h₁ u r h₂, (t, ev) :: h = h₁ ++ (u, .ret r) :: h₂ → Settled h₂ u r := by
  intro h₁ u r h₂ heq
  cases h₁ with
  | nil =>
      simp only [List.nil_append, List.cons.injEq, Prod.mk.injEq] at heq
      obtain ⟨⟨rfl, hev⟩, rfl⟩ := heq
      exact hret r hev
  | cons a h₁ =>
      simp only [List.cons_append, List.cons.injEq] at heq
      exact hset h₁ u r h₂ heq.2

/-- Every thread's account is kept along a roomy run, and every return in its
history is settled. -/
theorem roomy_linked {h : History α} {s : State α} (hcap : 0 < cap)
    (hrun : (machine α cap).RunOf (roomy cap) h s) :
    (∀ t, Linked h t s.mem (s.pc t)) ∧
      ∀ h₁ t r h₂, h = h₁ ++ (t, .ret r) :: h₂ → Settled h₂ t r := by
  refine hrun.invariant (I := fun h s => (∀ t, Linked h t s.mem (s.pc t)) ∧
    ∀ h₁ t r h₂, h = h₁ ++ (t, .ret r) :: h₂ → Settled h₂ t r) ?_ ?_
  · rintro s rfl
    refine ⟨fun _ => trivial, ?_⟩
    intro h₁ t r h₂ heq
    simp at heq
  · rintro h s a s' hprev ⟨hlink, hset⟩ - hstep
    have hinv := roomy_inv hcap hprev
    cases hstep with
    | @call t c hidle =>
        constructor
        · intro u
          by_cases hu : u = t
          · subst hu
            simp [Linked, current, applied]
          · simp only [Function.update_of_ne hu]
            exact (hlink u).other (Ne.symm hu) (fun _ _ => rfl)
        · exact settled_cons hset (fun r hr => by cases hr)
    | @tick t weak _ =>
        obtain ⟨hself, hret⟩ := (hlink t).tick weak hinv
        constructor
        · intro u
          by_cases hu : u = t
          · subst hu
            simpa only [Function.update_self] using hself
          · simp only [Function.update_of_ne hu]
            refine (hlink u).other (Ne.symm hu) ?_
            intro i hread
            refine tick_data ?_
            intro x hwrite
            -- the two threads would hold one slot
            exact hu (hinv.exclusive u t i .drain (.fill x) (by rw [hread]; rfl)
              (by rw [hwrite]; rfl))
        · exact settled_cons hset hret

theorem Pc.held_fill {p : Pc α} {i : ℕ} {x : α} (h : p.held cap = some (i, .fill x)) :
    p = .write x i := by
  cases p with
  | move c near => cases c <;> cases h
  | release c j => cases c <;> cases h
  | write y j =>
      cases h
      rfl
  | _ => cases h

/-- What is written into a slot is the list's element there. -/
theorem Inv.write_item {l : List α} {s : State α} {t i : ℕ} {x : α} (hinv : Inv cap l s)
    (hpc : s.pc t = .write x i) : Ring.window cap s.mem.head l i = some x :=
  (hinv.claimed t i (.fill x) (by rw [hpc]; rfl)).2.of_fill.2

/-- A slot of the list that nobody is about to write holds its element. -/
theorem Inv.data_item {l : List α} {s : State α} {i : ℕ} {x : α} (hinv : Inv cap l s)
    (hi : i < cap) (hwin : Ring.window cap s.mem.head l i = some x)
    (hno : ∀ t y, s.pc t ≠ .write y i) : s.mem.data i = some x := by
  by_cases hheld : ∃ t k, (s.pc t).held cap = some (i, k)
  · obtain ⟨t, k, hk⟩ := hheld
    obtain ⟨-, hfits⟩ := hinv.claimed t i k hk
    rw [hwin] at hfits
    generalize s.mem.data i = d, s.mem.state i = st at hfits ⊢
    cases hfits with
    | fill => exact absurd (Pc.held_fill hk) (hno t x)
    | filled => rfl
    | peek => rfl
  · push Not at hheld
    have hfree := hinv.unclaimed i hi hheld
    rw [hwin] at hfree
    generalize s.mem.data i = d, s.mem.state i = st at hfree ⊢
    cases hfree
    rfl

/-- The slot of the element number `k` shows that element and no other item. -/
theorem Inv.shows {l : List α} {s : State α} (hinv : Inv cap l s) {k : ℕ}
    (hk : k < l.length) (x : α) :
    Shows s ((s.mem.head + k) % cap) x ↔ l[k]? = some x := by
  have hhead := hinv.layout.head_lt
  have hlen := hinv.layout.length_lt
  rw [← Ring.advance_eq_mod hhead (by omega)]
  have hi : Ring.advance cap s.mem.head k < cap := Ring.advance_lt hhead (by omega)
  have hwin : Ring.window cap s.mem.head l (Ring.advance cap s.mem.head k) = l[k]? :=
    Ring.window_advance hhead (by omega)
  generalize Ring.advance cap s.mem.head k = i at hi hwin ⊢
  rw [List.getElem?_eq_getElem hk] at hwin ⊢
  constructor
  · rintro (⟨t, hwrite⟩ | ⟨hno, hdata⟩)
    · rw [← hwin, hinv.write_item hwrite]
    · rw [← hdata, hinv.data_item hi hwin hno]
  · intro hx
    by_cases hwrite : ∃ t y, s.pc t = .write y i
    · obtain ⟨t, y, hy⟩ := hwrite
      have hxy : some y = some x := by rw [← hinv.write_item hy, hwin, hx]
      cases hxy
      exact .inl ⟨t, hy⟩
    · push Not at hwrite
      exact .inr ⟨hwrite, by rw [hinv.data_item hi hwin hwrite, hx]⟩

/-- Along every run with headroom the slots from `head` up to `tail` show the list
of the successful moves, and every call returns what that list did at its move. -/
theorem refines_list {h : History α} {s : State α}
    (hrun : (machine α cap).RunOf (fun h s _ => Headroom cap h s) h s)
    (hend : Headroom cap h s) :
    s.mem.tail = (s.mem.head + (contents h).length) % cap ∧ (contents h).length < cap ∧
      (∀ k x, k < (contents h).length →
        (Shows s ((s.mem.head + k) % cap) x ↔ (contents h)[k]? = some x)) ∧
      ∀ h₁ t r h₂, h = h₁ ++ (t, .ret r) :: h₂ → Settled h₂ t r := by
  have hcap : 0 < cap := by
    have hzero := hend ∅ (by simp)
    omega
  have hroomy := headroom_roomy hcap hrun
  have hinv := roomy_inv hcap hroomy
  have hlen := hinv.layout.length_lt
  refine ⟨?_, hlen, ?_, (roomy_linked hcap hroomy).2⟩
  · rw [hinv.layout.tail_eq, Ring.advance_eq_mod hinv.layout.head_lt (Nat.le_of_lt hlen)]
  · intro k x hk
    exact hinv.shows hk x

/-- The threads below `n` alone take steps, and the list leaves each of them a slot. -/
def few (cap n : ℕ) (h : History α) (_ : State α) (a : ℕ × Event α) : Prop :=
  a.1 < n ∧ (contents h).length + n < cap

instance (cap n : ℕ) (h : History α) (s : State α) (a : ℕ × Event α) :
    Decidable (few cap n h s a) :=
  inferInstanceAs (Decidable (_ ∧ _))

theorem few_idle {n : ℕ} {h : History α} {s : State α}
    (hrun : (machine α cap).RunOf (few cap n) h s) : ∀ t, n ≤ t → s.pc t = .idle := by
  refine hrun.invariant (I := fun _ s => ∀ t, n ≤ t → s.pc t = .idle) ?_ ?_
  · rintro s rfl t -
    rfl
  · rintro h s a s' - hidle hfew hstep t ht
    have hne : t ≠ a.1 := by
      have := hfew.1
      omega
    cases hstep <;> simpa only [Function.update_of_ne hne] using hidle t ht

theorem headroom_of_few {n : ℕ} {h : History α} {s : State α}
    (hidle : ∀ t, n ≤ t → s.pc t = .idle) (hlen : (contents h).length + n < cap) :
    Headroom cap h s := by
  intro F hF
  have hsub : F ⊆ Finset.range n := by
    intro t ht
    rw [Finset.mem_range]
    by_contra hnt
    have hpush := hF t ht
    rw [hidle t (by omega)] at hpush
    cases hpush
  have hcard := Finset.card_le_card hsub
  rw [Finset.card_range] at hcard
  omega

/-- Thread `0` pushes while thread `1` pops, and thread `2`, which pushes at the front, finds
its index moved by the pop and tries again. -/
def crossing : List (Choice ℕ) :=
  .invoke 0 (pushBack 10) :: goes 0 7 ++ .invoke 1 popFront :: goes 1 3 ++
    .invoke 0 (pushBack 20) :: goes 0 7 ++ .invoke 2 (pushFront 5) :: goes 2 4 ++
    goes 1 2 ++ [.access 2 false] ++ goes 1 2 ++ goes 2 8

/-- Three calls that overlap on a deque of eight slots are such a run. -/
theorem refines_list_crossing : ∃ (h h₁ : History ℕ) (s : State ℕ) (h₂ : History ℕ),
    h = h₁ ++ (1, .ret (.popSome (some 10))) :: h₂ ∧ Settled h₂ 1 (.popSome (some 10)) ∧
    contents h = [5, 20] ∧ s.mem.tail = (s.mem.head + (contents h).length) % 8 ∧
    Shows s ((s.mem.head + 1) % 8) 20 := by
  let r := (playAll 8 (few 8 3) crossing).get (by decide)
  have hrun : (machine ℕ 8).RunOf (few 8 3) r.1 r.2 := playAll_run (Option.some_get _).symm
  have hhead : (machine ℕ 8).RunOf (fun h s _ => Headroom 8 h s) r.1 r.2 :=
    hrun.upgrade fun h s a s' hprev _ hfew _ => headroom_of_few (few_idle hprev) hfew.2
  have hcontents : contents r.1 = [5, 20] := by decide
  obtain ⟨htail, -, hshows, hsettled⟩ :=
    refines_list hhead (headroom_of_few (few_idle hrun) (by rw [hcontents]; decide))
  have hcons : r.1 = r.1.take 8 ++ (1, .ret (.popSome (some 10))) :: r.1.drop 9 := by decide
  refine ⟨r.1, r.1.take 8, r.2, r.1.drop 9, hcons, hsettled _ _ _ _ hcons, hcontents, htail, ?_⟩
  exact (hshows 1 20 (by rw [hcontents]; decide)).mpr (by rw [hcontents]; rfl)

end Deque
