import Vsched.Foundation.Ring
import Vsched.Deque.Machine

/-!
# The slots of the deque and the list it stands for

The invariant lays the list of committed items out on the ring from `head` on.
A slot nobody has claimed is empty outside the list and ready inside it. A
claimed slot belongs to one thread, and what that thread stands in front of
says whether the slot is inside the list and whether its item has been written.
A push that moves its index while the list leaves no slot but one free breaks
this, so the invariant is kept by every step but such a move.
-/

namespace Deque

variable {α : Type*} {cap : ℕ}

/-- What a thread does with the slot it has claimed. -/
inductive Claim (α : Type*)
  /-- A push that has not moved its index yet. -/
  | reserve
  /-- A push that has moved its index and is about to write. -/
  | fill (item : α)
  /-- A push that has written its item. -/
  | filled
  /-- A pop that has not moved its index yet. -/
  | peek
  /-- A pop that has moved its index and is about to read. -/
  | drain
  /-- A pop that has read its item. -/
  | drained

def Call.hold : Call α → Claim α
  | .push _ _ => .reserve
  | .pop _ => .peek

/-- The slot a thread has claimed and what it does with it. -/
def Pc.held (cap : ℕ) : Pc α → Option (ℕ × Claim α)
  | .move c near => some (c.slot cap near, c.hold)
  | .release c i => some (i, c.hold)
  | .write item i => some (i, .fill item)
  | .publish i => some (i, .filled)
  | .read i => some (i, .drain)
  | .vacate i _ => some (i, .drained)
  | _ => none

/-- The indices a thread has loaded are slots of the ring. -/
def Pc.Bounded (cap : ℕ) : Pc α → Prop
  | .loadOther _ near => near < cap
  | .reload _ near _ => near < cap
  | .claim _ near => near < cap
  | .move _ near => near < cap
  | _ => True

/-- A claimed slot: its state byte, the list's element there and its data. -/
inductive Claim.Fits : Claim α → SlotState → Option α → Option α → Prop
  | reserve {d : Option α} : Fits .reserve .writing none d
  | fill {x : α} {d : Option α} : Fits (.fill x) .writing (some x) d
  | filled {x : α} : Fits .filled .writing (some x) (some x)
  | peek {x : α} : Fits .peek .reading (some x) (some x)
  | drain {d : Option α} : Fits .drain .reading none d
  | drained {d : Option α} : Fits .drained .reading none d

namespace Claim.Fits

variable {x : α} {st : SlotState} {w d : Option α}

theorem of_reserve (h : Fits .reserve st w d) : st = .writing ∧ w = none := by
  cases h
  exact ⟨rfl, rfl⟩

theorem of_fill (h : Fits (.fill x) st w d) : st = .writing ∧ w = some x := by
  cases h
  exact ⟨rfl, rfl⟩

theorem of_filled (h : Fits .filled st w d) : ∃ y, w = some y ∧ d = some y := by
  cases h
  exact ⟨_, rfl, rfl⟩

theorem of_peek (h : Fits .peek st w d) :
    st = .reading ∧ ∃ y, w = some y ∧ d = some y := by
  cases h
  exact ⟨rfl, _, rfl, rfl⟩

theorem of_drain (h : Fits .drain st w d) : st = .reading ∧ w = none := by
  cases h
  exact ⟨rfl, rfl⟩

theorem of_drained (h : Fits .drained st w d) : w = none := by
  cases h
  rfl

end Claim.Fits

theorem Claim.Fits.state {k : Claim α} {st : SlotState} {w d : Option α}
    (hfits : k.Fits st w d) : st = .writing ∨ st = .reading := by
  cases hfits <;> simp

/-- A slot nobody has claimed. -/
inductive Free : SlotState → Option α → Option α → Prop
  | empty {d : Option α} : Free .empty none d
  | ready {x : α} : Free .ready (some x) (some x)

theorem Free.of_empty {w d : Option α} (h : Free .empty w d) : w = none := by
  cases h
  rfl

theorem Free.of_ready {w d : Option α} (h : Free .ready w d) :
    ∃ y, w = some y ∧ d = some y := by
  cases h
  exact ⟨_, rfl, rfl⟩

theorem Free.state_empty {st : SlotState} {d : Option α} (h : Free st none d) :
    st = .empty := by
  cases h
  rfl

theorem Free.state_ready {st : SlotState} {x : α} {d : Option α} (h : Free st (some x) d) :
    st = .ready := by
  cases h
  rfl

theorem Mem.setIndex_slots (m : Mem α) (e : End) (i : ℕ) :
    (m.setIndex e i).state = m.state ∧ (m.setIndex e i).data = m.data := by
  cases e <;> exact ⟨rfl, rfl⟩

/-- The indices of the deque are the ends of the list. -/
structure Layout (cap : ℕ) (l : List α) (m : Mem α) : Prop where
  head_lt : m.head < cap
  length_lt : l.length < cap
  tail_eq : m.tail = Ring.advance cap m.head l.length

/-- The invariant: `l` is the list of committed items. -/
structure Inv (cap : ℕ) (l : List α) (s : State α) : Prop where
  layout : Layout cap l s.mem
  bounded : ∀ t, (s.pc t).Bounded cap
  claimed : ∀ t i k, (s.pc t).held cap = some (i, k) →
    i < cap ∧ k.Fits (s.mem.state i) (Ring.window cap s.mem.head l i) (s.mem.data i)
  unclaimed : ∀ i, i < cap → (∀ t k, (s.pc t).held cap ≠ some (i, k)) →
    Free (s.mem.state i) (Ring.window cap s.mem.head l i) (s.mem.data i)
  exclusive : ∀ t u i k k', (s.pc t).held cap = some (i, k) →
    (s.pc u).held cap = some (i, k') → t = u

theorem Layout.setState {l : List α} {m : Mem α} {i : ℕ} {st : SlotState}
    (hlay : Layout cap l m) : Layout cap l (m.setState i st) :=
  ⟨hlay.head_lt, hlay.length_lt, hlay.tail_eq⟩

theorem Layout.index_lt {l : List α} {m : Mem α} (hlay : Layout cap l m) (e : End) :
    m.index e < cap := by
  cases e with
  | front => exact hlay.head_lt
  | back =>
      rw [Mem.index, hlay.tail_eq]
      exact Ring.advance_lt hlay.head_lt (Nat.le_of_lt hlay.length_lt)

theorem pushIndex_front (cap i : ℕ) : pushIndex cap .front i = Ring.prev cap i := rfl

theorem pushIndex_back (cap i : ℕ) : pushIndex cap .back i = Ring.next cap i := rfl

theorem popIndex_back (cap i : ℕ) : popIndex cap .back i = Ring.prev cap i := rfl

theorem Call.slot_lt {near : ℕ} (c : Call α) (hnear : near < cap) :
    c.slot cap near < cap := by
  rcases c with ⟨e, x⟩ | e <;> cases e
  · exact Ring.prev_lt hnear
  · exact hnear
  · exact hnear
  · exact Ring.prev_lt hnear

/-- A push finds the deque full exactly when the list leaves one slot free. -/
theorem Layout.push_full_iff {l : List α} {m : Mem α} (hlay : Layout cap l m) (e : End) :
    pushIndex cap e (m.index e) = m.index e.other ↔ l.length + 1 = cap := by
  cases e with
  | front =>
      rw [pushIndex_front]
      simp only [Mem.index, End.other]
      rw [hlay.tail_eq]
      exact Ring.prev_eq_advance_iff hlay.head_lt hlay.length_lt
  | back =>
      rw [pushIndex_back]
      simp only [Mem.index, End.other]
      rw [hlay.tail_eq, Ring.next_advance hlay.head_lt hlay.length_lt]
      exact Ring.advance_succ_eq_head_iff

/-- The two indices agree exactly when the list is empty. -/
theorem Layout.head_eq_tail_iff {l : List α} {m : Mem α} (hlay : Layout cap l m) :
    m.head = m.tail ↔ l = [] := by
  rw [hlay.tail_eq, eq_comm, Ring.advance_eq_head_iff hlay.head_lt hlay.length_lt,
    List.length_eq_zero_iff]

/-- A slot that a push claims lies outside the list. -/
theorem Layout.window_push {l : List α} {m : Mem α} (hlay : Layout cap l m) (e : End)
    (x : α) :
    Ring.window cap m.head l ((Call.push e x).slot cap (m.index e)) = none := by
  cases e with
  | front => exact Ring.window_prev hlay.head_lt hlay.length_lt
  | back =>
      simp only [Call.slot, Mem.index]
      rw [hlay.tail_eq]
      exact Ring.window_end hlay.head_lt hlay.length_lt

/-- A slot that a pop claims holds the element at its end of the list. -/
theorem Layout.window_pop {l : List α} {m : Mem α} (hlay : Layout cap l m) (e : End) :
    Ring.window cap m.head l ((Call.pop e : Call α).slot cap (m.index e)) = e.item l := by
  cases e with
  | front => exact Ring.window_head hlay.head_lt
  | back =>
      simp only [Call.slot, Mem.index, popIndex_back]
      rw [hlay.tail_eq]
      rcases Nat.eq_zero_or_pos l.length with hzero | hpos
      · rw [List.length_eq_zero_iff.mp hzero]
        rfl
      · exact Ring.window_last hlay.head_lt hpos (Nat.le_of_lt hlay.length_lt)

/-- Moving the index of a push lays the pushed item out in the claimed slot. -/
theorem Layout.push {l : List α} {m : Mem α} (hlay : Layout cap l m) (e : End) (x : α)
    (hroom : l.length + 1 < cap) :
    let m' := m.setIndex e (pushIndex cap e (m.index e))
    Layout cap ((Call.push e x).apply l) m' ∧
      ∀ i, i < cap → Ring.window cap m'.head ((Call.push e x).apply l) i =
        if i = (Call.push e x).slot cap (m.index e) then some x
        else Ring.window cap m.head l i := by
  have hh := hlay.head_lt
  cases e with
  | front =>
      refine ⟨⟨Ring.prev_lt hh, by simpa [Call.apply] using hroom, ?_⟩, ?_⟩
      · change m.tail = _
        rw [hlay.tail_eq]
        exact (Ring.advance_prev hlay.length_lt).symm
      · intro i hi
        exact Ring.window_cons hi hh
  | back =>
      refine ⟨⟨hh, by simpa [Call.apply] using hroom, ?_⟩, ?_⟩
      · change pushIndex cap .back m.tail = _
        rw [pushIndex_back, hlay.tail_eq, Ring.next_advance hh hlay.length_lt]
        simp [Call.apply, Mem.setIndex]
      · intro i hi
        simp only [Call.slot, Mem.index, hlay.tail_eq]
        exact Ring.window_append hi hh hlay.length_lt

/-- Moving the index of a pop takes the claimed slot out of the list. -/
theorem Layout.pop {l : List α} {m : Mem α} (hlay : Layout cap l m) (e : End)
    (hne : l ≠ []) :
    let m' := m.setIndex e (popIndex cap e (m.index e))
    Layout cap ((Call.pop e : Call α).apply l) m' ∧
      ∀ i, i < cap → Ring.window cap m'.head ((Call.pop e : Call α).apply l) i =
        if i = (Call.pop e : Call α).slot cap (m.index e) then none
        else Ring.window cap m.head l i := by
  have hh := hlay.head_lt
  have hlen := hlay.length_lt
  obtain ⟨n, hn⟩ : ∃ n, l.length = n + 1 :=
    ⟨l.length - 1, by have := List.length_pos_iff.mpr hne; omega⟩
  cases e with
  | front =>
      refine ⟨⟨Ring.next_lt hh, by simp only [Call.apply, List.length_tail]; omega, ?_⟩, ?_⟩
      · change m.tail = Ring.advance cap (Ring.next cap m.head) l.tail.length
        rw [List.length_tail, hlay.tail_eq, hn, Nat.add_sub_cancel,
          Ring.advance_next hh (by omega)]
      · intro i hi
        exact Ring.window_tail hi hh (Nat.le_of_lt hlen)
  | back =>
      refine ⟨⟨hh, by simp only [Call.apply, List.length_dropLast]; omega, ?_⟩, ?_⟩
      · change Ring.prev cap m.tail = Ring.advance cap m.head l.dropLast.length
        rw [List.length_dropLast, hlay.tail_eq, hn, Nat.add_sub_cancel,
          Ring.prev_advance hh (by omega)]
      · intro i hi
        simp only [Call.slot, Mem.index, hlay.tail_eq]
        exact Ring.window_dropLast hi hh (Nat.le_of_lt hlen)

theorem Inv.init (hcap : 0 < cap) : Inv cap [] (State.init : State α) where
  layout := ⟨hcap, hcap, (Ring.advance_zero hcap).symm⟩
  bounded := fun _ => trivial
  claimed := by
    intro t i k hk
    simp [State.init, Pc.held] at hk
  unclaimed := fun _ _ _ => .empty
  exclusive := by
    intro t u i k k' hk
    simp [State.init, Pc.held] at hk

/-- A step of thread `t` that touches no slot but `i` keeps the invariant if the
slot `i` is again in order: claimed by `t` alone, or claimed by nobody. -/
theorem Inv.update {l l' : List α} {s : State α} {m' : Mem α} {t i : ℕ} {p : Pc α}
    (hinv : Inv cap l s) (hlay : Layout cap l' m') (hbound : p.Bounded cap)
    (hold : ∀ j k, (s.pc t).held cap = some (j, k) → j = i)
    (hother : ∀ u k, u ≠ t → (s.pc u).held cap ≠ some (i, k))
    (hframe : ∀ j, j < cap → j ≠ i → m'.state j = s.mem.state j ∧
      m'.data j = s.mem.data j ∧
      Ring.window cap m'.head l' j = Ring.window cap s.mem.head l j)
    (hnew : ∀ j k, p.held cap = some (j, k) →
      j = i ∧ i < cap ∧
        k.Fits (m'.state i) (Ring.window cap m'.head l' i) (m'.data i))
    (hfree : i < cap → p.held cap = none →
      Free (m'.state i) (Ring.window cap m'.head l' i) (m'.data i)) :
    Inv cap l' ⟨m', Function.update s.pc t p⟩ where
  layout := hlay
  bounded := by
    intro u
    by_cases hu : u = t
    · subst hu
      simpa using hbound
    · simpa [hu] using hinv.bounded u
  claimed := by
    intro u j k hk
    by_cases hu : u = t
    · subst hu
      simp only [Function.update_self] at hk
      obtain ⟨rfl, hi, hfits⟩ := hnew j k hk
      exact ⟨hi, hfits⟩
    · simp only [Function.update_of_ne hu] at hk
      have hji : j ≠ i := by
        rintro rfl
        exact hother u k hu hk
      obtain ⟨hj, hfits⟩ := hinv.claimed u j k hk
      obtain ⟨hst, hda, hwi⟩ := hframe j hj hji
      refine ⟨hj, ?_⟩
      simpa only [hst, hda, hwi] using hfits
  unclaimed := by
    intro j hj hnone
    by_cases hji : j = i
    · subst hji
      refine hfree hj ?_
      cases hp : p.held cap with
      | none => rfl
      | some jk =>
          obtain ⟨j', k⟩ := jk
          obtain ⟨rfl, -, -⟩ := hnew j' k hp
          exact absurd (by simpa using hp) (hnone t k)
    · obtain ⟨hst, hda, hwi⟩ := hframe j hj hji
      have hold' : ∀ u k, (s.pc u).held cap ≠ some (j, k) := by
        intro u k hk
        by_cases hu : u = t
        · subst hu
          exact hji (hold j k hk)
        · exact hnone u k (by simpa [hu] using hk)
      simpa only [hst, hda, hwi] using hinv.unclaimed j hj hold'
  exclusive := by
    intro u v j k k' hu hv
    by_cases hut : u = t <;> by_cases hvt : v = t
    · rw [hut, hvt]
    · subst hut
      simp only [Function.update_self, Function.update_of_ne hvt] at hu hv
      obtain ⟨rfl, -, -⟩ := hnew j k hu
      exact absurd hv (hother v k' hvt)
    · subst hvt
      simp only [Function.update_self, Function.update_of_ne hut] at hu hv
      obtain ⟨rfl, -, -⟩ := hnew j k' hv
      exact absurd hu (hother u k hut)
    · simp only [Function.update_of_ne hut, Function.update_of_ne hvt] at hu hv
      exact hinv.exclusive u v j k k' hu hv

/-- A step that touches no slot and holds none keeps the invariant. -/
theorem Inv.stay {l : List α} {s : State α} {t : ℕ} {p : Pc α} (hinv : Inv cap l s)
    (hbound : p.Bounded cap) (hold : (s.pc t).held cap = none)
    (hnew : p.held cap = none) : Inv cap l ⟨s.mem, Function.update s.pc t p⟩ where
  layout := hinv.layout
  bounded := by
    intro u
    by_cases hu : u = t
    · subst hu
      simpa using hbound
    · simpa [hu] using hinv.bounded u
  claimed := by
    intro u j k hk
    by_cases hu : u = t
    · subst hu
      simp [hnew] at hk
    · exact hinv.claimed u j k (by simpa [hu] using hk)
  unclaimed := by
    intro j hj hnone
    refine hinv.unclaimed j hj ?_
    intro u k hk
    by_cases hu : u = t
    · subst hu
      simp [hold] at hk
    · exact hnone u k (by simpa [hu] using hk)
  exclusive := by
    intro u v j k k' hu hv
    have hut : u ≠ t := by
      rintro rfl
      simp [hnew] at hu
    have hvt : v ≠ t := by
      rintro rfl
      simp [hnew] at hv
    exact hinv.exclusive u v j k k' (by simpa [hut] using hu) (by simpa [hvt] using hv)

/-- A slot in a state that no claim leaves it in is claimed by nobody. -/
theorem Inv.not_claimed {l : List α} {s : State α} {i : ℕ} (hinv : Inv cap l s)
    (hw : s.mem.state i ≠ .writing) (hr : s.mem.state i ≠ .reading) :
    ∀ t k, (s.pc t).held cap ≠ some (i, k) := by
  intro t k hk
  rcases (hinv.claimed t i k hk).2.state with h | h
  · exact hw h
  · exact hr h

theorem Inv.others {l : List α} {s : State α} {t i : ℕ} {k : Claim α}
    (hinv : Inv cap l s) (hk : (s.pc t).held cap = some (i, k)) :
    ∀ u k', u ≠ t → (s.pc u).held cap ≠ some (i, k') :=
  fun u _ hu hk' => hu (hinv.exclusive u t i _ k hk' hk)

theorem Inv.holds_only {l : List α} {s : State α} {t i : ℕ} {k : Claim α}
    (_hinv : Inv cap l s) (hk : (s.pc t).held cap = some (i, k)) :
    ∀ j k', (s.pc t).held cap = some (j, k') → j = i := by
  intro j k' hk'
  rw [hk] at hk'
  simp only [Option.some.injEq, Prod.mk.injEq] at hk'
  exact hk'.1.symm

/-- A step that changes only the state byte and the data of the slot `i` that
its thread holds, and no index. -/
theorem Inv.local {l : List α} {s : State α} {m' : Mem α} {t i : ℕ} {k : Claim α}
    {p : Pc α} (hinv : Inv cap l s) (hk : (s.pc t).held cap = some (i, k))
    (hhead : m'.head = s.mem.head) (htail : m'.tail = s.mem.tail)
    (hstate : ∀ j, j ≠ i → m'.state j = s.mem.state j)
    (hdata : ∀ j, j ≠ i → m'.data j = s.mem.data j) (hbound : p.Bounded cap)
    (hnew : ∀ j k', p.held cap = some (j, k') → j = i ∧
      k'.Fits (m'.state i) (Ring.window cap s.mem.head l i) (m'.data i))
    (hfree : p.held cap = none →
      Free (m'.state i) (Ring.window cap s.mem.head l i) (m'.data i)) :
    Inv cap l ⟨m', Function.update s.pc t p⟩ := by
  obtain ⟨hi, -⟩ := hinv.claimed t i k hk
  refine hinv.update (i := i) ?_ hbound (hinv.holds_only hk) (hinv.others hk) ?_ ?_ ?_
  · refine ⟨hhead ▸ hinv.layout.head_lt, hinv.layout.length_lt, ?_⟩
    rw [htail, hhead, hinv.layout.tail_eq]
  · intro j _ hji
    exact ⟨hstate j hji, hdata j hji, by rw [hhead]⟩
  · intro j k' hk'
    rw [hhead]
    exact ⟨(hnew j k' hk').1, hi, (hnew j k' hk').2⟩
  · intro _ hnone
    rw [hhead]
    exact hfree hnone

/-- Claiming a slot in the state the call expects. -/
theorem Inv.claim_slot {l : List α} {s : State α} {t near : ℕ} {c : Call α}
    (hinv : Inv cap l s) (hnear : near < cap) (hnone : (s.pc t).held cap = none)
    (hst : s.mem.state (c.slot cap near) = c.expected) :
    Inv cap l ⟨s.mem.setState (c.slot cap near) c.claimed,
      Function.update s.pc t (.move c near)⟩ := by
  have hi := c.slot_lt hnear
  have hfree : ∀ u k, (s.pc u).held cap ≠ some (c.slot cap near, k) := by
    apply hinv.not_claimed <;> rw [hst] <;> cases c <;> simp [Call.expected]
  have hcell := hinv.unclaimed _ hi hfree
  rw [hst] at hcell
  refine hinv.update (i := c.slot cap near) hinv.layout.setState hnear ?_
    (fun u k _ => hfree u k) ?_ ?_ (fun _ hk => by cases hk)
  · intro j k hk
    rw [hnone] at hk
    cases hk
  · intro j _ hj
    exact ⟨Function.update_of_ne hj _ _, rfl, rfl⟩
  · intro j k hk
    simp only [Pc.held, Option.some.injEq, Prod.mk.injEq] at hk
    obtain ⟨rfl, rfl⟩ := hk
    refine ⟨rfl, hi, ?_⟩
    simp only [Mem.setState, Function.update_self]
    cases c with
    | push e x =>
        rw [hcell.of_empty]
        exact .reserve
    | pop e =>
        obtain ⟨x, hw, hd⟩ := hcell.of_ready
        rw [hw, hd]
        exact .peek

/-- Moving the index of a push: the item it is about to write joins the list. -/
theorem Inv.moved_push {l : List α} {s : State α} {t : ℕ} {e : End} {x : α}
    (hinv : Inv cap l s) (hpc : s.pc t = .move (.push e x) (s.mem.index e))
    (hroom : l.length + 1 < cap) :
    Inv cap ((Call.push e x).apply l)
      ⟨s.mem.setIndex e (pushIndex cap e (s.mem.index e)),
        Function.update s.pc t (.write x ((Call.push e x).slot cap (s.mem.index e)))⟩ := by
  have hheld : (s.pc t).held cap =
      some ((Call.push e x).slot cap (s.mem.index e), .reserve) := by rw [hpc]; rfl
  obtain ⟨hi, hfits⟩ := hinv.claimed t _ _ hheld
  obtain ⟨hlay, hwin⟩ := hinv.layout.push e x hroom
  obtain ⟨hst, hda⟩ := s.mem.setIndex_slots e (pushIndex cap e (s.mem.index e))
  refine hinv.update hlay trivial (hinv.holds_only hheld) (hinv.others hheld) ?_ ?_
    (fun _ hk => by cases hk)
  · intro j hj hji
    exact ⟨congrFun hst j, congrFun hda j, by rw [hwin j hj, if_neg hji]⟩
  · intro j k hk
    simp only [Pc.held, Option.some.injEq, Prod.mk.injEq] at hk
    obtain ⟨rfl, rfl⟩ := hk
    refine ⟨rfl, hi, ?_⟩
    rw [hwin _ hi, if_pos rfl, hst, hfits.of_reserve.1]
    exact .fill

/-- Moving the index of a pop: the element at its end leaves the list, and the
slot still holds it. -/
theorem Inv.moved_pop {l : List α} {s : State α} {t : ℕ} {e : End}
    (hinv : Inv cap l s) (hpc : s.pc t = .move (.pop e) (s.mem.index e)) :
    Inv cap ((Call.pop e : Call α).apply l)
      ⟨s.mem.setIndex e (popIndex cap e (s.mem.index e)),
        Function.update s.pc t (.read ((Call.pop e : Call α).slot cap (s.mem.index e)))⟩ := by
  have hheld : (s.pc t).held cap =
      some ((Call.pop e : Call α).slot cap (s.mem.index e), .peek) := by rw [hpc]; rfl
  obtain ⟨hi, hfits⟩ := hinv.claimed t _ _ hheld
  obtain ⟨hread, x, hw, -⟩ := hfits.of_peek
  have hne : l ≠ [] := by
    rintro rfl
    simp at hw
  obtain ⟨hlay, hwin⟩ := hinv.layout.pop e hne
  obtain ⟨hst, hda⟩ := s.mem.setIndex_slots e (popIndex cap e (s.mem.index e))
  refine hinv.update hlay trivial (hinv.holds_only hheld) (hinv.others hheld) ?_ ?_
    (fun _ hk => by cases hk)
  · intro j hj hji
    exact ⟨congrFun hst j, congrFun hda j, by rw [hwin j hj, if_neg hji]⟩
  · intro j k hk
    simp only [Pc.held, Option.some.injEq, Prod.mk.injEq] at hk
    obtain ⟨rfl, rfl⟩ := hk
    refine ⟨rfl, hi, ?_⟩
    rw [hwin _ hi, if_pos rfl, hst, hread]
    exact .drain

/-- Giving a slot back: the list has not changed, so the slot is as it was
before it was claimed. -/
theorem Inv.release_slot {l : List α} {s : State α} {t i : ℕ} {c : Call α}
    (hinv : Inv cap l s) (hpc : s.pc t = .release c i) :
    Inv cap l ⟨s.mem.setState i c.expected, Function.update s.pc t (.load c)⟩ := by
  have hheld : (s.pc t).held cap = some (i, c.hold) := by rw [hpc]; rfl
  obtain ⟨-, hfits⟩ := hinv.claimed t _ _ hheld
  refine hinv.local hheld rfl rfl (fun j hj => Function.update_of_ne hj _ _)
    (fun _ _ => rfl) trivial (fun j k hk => by cases hk) ?_
  intro _
  simp only [Mem.setState, Function.update_self]
  cases c with
  | push e x =>
      rw [hfits.of_reserve.2]
      exact .empty
  | pop e =>
      obtain ⟨-, x, hw, hd⟩ := hfits.of_peek
      rw [hw, hd]
      exact .ready

theorem Inv.write_slot {l : List α} {s : State α} {t i : ℕ} {x : α}
    (hinv : Inv cap l s) (hpc : s.pc t = .write x i) :
    Inv cap l ⟨s.mem.setData i x, Function.update s.pc t (.publish i)⟩ := by
  have hheld : (s.pc t).held cap = some (i, .fill x) := by rw [hpc]; rfl
  obtain ⟨-, hfits⟩ := hinv.claimed t _ _ hheld
  refine hinv.local hheld rfl rfl (fun _ _ => rfl)
    (fun j hj => Function.update_of_ne hj _ _) trivial ?_ (fun hk => by cases hk)
  intro j k hk
  simp only [Pc.held, Option.some.injEq, Prod.mk.injEq] at hk
  obtain ⟨rfl, rfl⟩ := hk
  refine ⟨rfl, ?_⟩
  simp only [Mem.setData, Function.update_self]
  rw [hfits.of_fill.1, hfits.of_fill.2]
  exact .filled

theorem Inv.publish_slot {l : List α} {s : State α} {t i : ℕ}
    (hinv : Inv cap l s) (hpc : s.pc t = .publish i) :
    Inv cap l ⟨s.mem.setState i .ready, Function.update s.pc t .idle⟩ := by
  have hheld : (s.pc t).held cap = some (i, .filled) := by rw [hpc]; rfl
  obtain ⟨-, hfits⟩ := hinv.claimed t _ _ hheld
  refine hinv.local hheld rfl rfl (fun j hj => Function.update_of_ne hj _ _)
    (fun _ _ => rfl) trivial (fun j k hk => by cases hk) ?_
  intro _
  obtain ⟨x, hw, hd⟩ := hfits.of_filled
  simp only [Mem.setState, Function.update_self]
  rw [hw, hd]
  exact .ready

theorem Inv.read_slot {l : List α} {s : State α} {t i : ℕ} {d : Option α}
    (hinv : Inv cap l s) (hpc : s.pc t = .read i) :
    Inv cap l ⟨s.mem, Function.update s.pc t (.vacate i d)⟩ := by
  have hheld : (s.pc t).held cap = some (i, .drain) := by rw [hpc]; rfl
  obtain ⟨-, hfits⟩ := hinv.claimed t _ _ hheld
  refine hinv.local hheld rfl rfl (fun _ _ => rfl) (fun _ _ => rfl) trivial ?_
    (fun hk => by cases hk)
  intro j k hk
  simp only [Pc.held, Option.some.injEq, Prod.mk.injEq] at hk
  obtain ⟨rfl, rfl⟩ := hk
  refine ⟨rfl, ?_⟩
  rw [hfits.of_drain.1, hfits.of_drain.2]
  exact .drained

theorem Inv.vacate_slot {l : List α} {s : State α} {t i : ℕ} {d : Option α}
    (hinv : Inv cap l s) (hpc : s.pc t = .vacate i d) :
    Inv cap l ⟨s.mem.setState i .empty, Function.update s.pc t .idle⟩ := by
  have hheld : (s.pc t).held cap = some (i, .drained) := by rw [hpc]; rfl
  obtain ⟨-, hfits⟩ := hinv.claimed t _ _ hheld
  refine hinv.local hheld rfl rfl (fun j hj => Function.update_of_ne hj _ _)
    (fun _ _ => rfl) trivial (fun j k hk => by cases hk) ?_
  intro _
  simp only [Mem.setState, Function.update_self]
  rw [hfits.of_drained]
  exact .empty

/-- Every access keeps the invariant, a push moving its index only while the
list leaves two slots free. -/
theorem Inv.tick {l : List α} {s : State α} {t : ℕ} (weak : Bool) (hinv : Inv cap l s)
    (hroom : ∀ e x, s.pc t = .move (.push e x) (s.mem.index e) → weak = false →
      l.length + 1 < cap) :
    Inv cap ((tick cap s.mem weak (s.pc t)).2.2.apply l)
      ⟨(Deque.tick cap s.mem weak (s.pc t)).1,
        Function.update s.pc t (Deque.tick cap s.mem weak (s.pc t)).2.1⟩ := by
  have hbound := hinv.bounded t
  cases hpc : s.pc t with
  | idle => exact hinv.stay trivial (by rw [hpc]; rfl) rfl
  | load c => exact hinv.stay (hinv.layout.index_lt _) (by rw [hpc]; rfl) rfl
  | loadOther c near =>
      rw [hpc] at hbound
      exact hinv.stay hbound (by rw [hpc]; rfl) rfl
  | reload c near far =>
      rw [hpc] at hbound
      have hnone : (s.pc t).held cap = none := by rw [hpc]; rfl
      simp only [Deque.tick]
      split
      · exact hinv.stay trivial hnone rfl
      · cases c with
        | push e x =>
            dsimp only
            split
            · exact hinv.stay trivial hnone rfl
            · exact hinv.stay hbound hnone rfl
        | pop e =>
            dsimp only
            split
            · exact hinv.stay trivial hnone rfl
            · exact hinv.stay hbound hnone rfl
  | claim c near =>
      rw [hpc] at hbound
      have hnone : (s.pc t).held cap = none := by rw [hpc]; rfl
      simp only [Deque.tick]
      split
      case isTrue h => exact hinv.claim_slot hbound hnone h.1
      case isFalse =>
        cases c with
        | push e x => exact hinv.stay trivial hnone rfl
        | pop e =>
            dsimp only
            split <;> exact hinv.stay trivial hnone rfl
  | move c near =>
      simp only [Deque.tick]
      split
      case isTrue h =>
        obtain ⟨rfl, hweak⟩ := h
        cases c with
        | push e x => exact hinv.moved_push hpc (hroom e x hpc hweak)
        | pop e => exact hinv.moved_pop hpc
      case isFalse =>
        have hheld : (s.pc t).held cap = some (c.slot cap near, c.hold) := by rw [hpc]; rfl
        refine hinv.local hheld rfl rfl (fun _ _ => rfl) (fun _ _ => rfl) trivial ?_
          (fun hk => by cases hk)
        intro j k hk
        simp only [Pc.held, Option.some.injEq, Prod.mk.injEq] at hk
        obtain ⟨rfl, rfl⟩ := hk
        exact ⟨rfl, (hinv.claimed t _ _ hheld).2⟩
  | release c i => exact hinv.release_slot hpc
  | write x i => exact hinv.write_slot hpc
  | publish i => exact hinv.publish_slot hpc
  | read i => exact hinv.read_slot hpc
  | vacate i d => exact hinv.vacate_slot hpc

end Deque
