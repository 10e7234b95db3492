import Vsched.Deque.Refinement

/-!
# Why a call on the deque fails

A push fails on a pair of indices that reads as full, a pop on one that reads as
empty or on a slot that is empty. The pair is loaded at two instants, and it
was the pair of the second one only if the call's own index stood then where it
stood before and after; the slot may have been emptied by a pop that left other
items behind. Along the runs in which neither goes wrong every failure has its
reason.
-/

namespace Deque

variable {α : Type*} {cap : ℕ}

/-- The index of an end after the moves of a history. -/
def indexAt (cap : ℕ) : History α → End → ℕ
  | [], _ => 0
  | (_, .moved c _) :: h, e =>
      if c.side = e then c.newIndex cap (indexAt cap h e) else indexAt cap h e
  | _ :: h, e => indexAt cap h e

/-- The history up to the last step of a thread. -/
def upTo (t : ℕ) (h : History α) : History α :=
  h.dropWhile fun a => a.1 ≠ t

/-- The list in front of the last pop that moved its index over slot `i`. -/
def taken : History α → ℕ → List α
  | [], _ => []
  | (_, .moved (.pop _) j) :: h, i => if i = j then contents h else taken h i
  | _ :: h, i => taken h i

/-- A call whose two indices are about to read as full or empty had its own index
where it is at the moment it loaded the other one; a pop that is about to find
its slot empty stands at its end still, or the slot's item was the last one. -/
def Sound (cap : ℕ) (h : History α) (s : State α) (a : ℕ × Event α) : Prop :=
  match s.pc a.1 with
  | .reload (.push e _) near far =>
      s.mem.index e = near → pushIndex cap e near = far → indexAt cap (upTo a.1 h) e = near
  | .reload (.pop e) near far =>
      s.mem.index e = near → near = far → indexAt cap (upTo a.1 h) e = near
  | .claim (.pop e) near =>
      s.mem.state ((Call.pop e : Call α).slot cap near) = .empty → s.mem.index e ≠ near →
        (taken h ((Call.pop e : Call α).slot cap near)).length = 1
  | _ => True

instance (cap : ℕ) (h : History α) (s : State α) (a : ℕ × Event α) :
    Decidable (Sound cap h s a) :=
  match hpc : s.pc a.1 with
  | .reload (.push e x) near far =>
      decidable_of_iff (s.mem.index e = near → pushIndex cap e near = far →
        indexAt cap (upTo a.1 h) e = near) (by simp only [Sound, hpc])
  | .reload (.pop e) near far =>
      decidable_of_iff (s.mem.index e = near → near = far →
        indexAt cap (upTo a.1 h) e = near) (by simp only [Sound, hpc])
  | .claim (.pop e) near =>
      decidable_of_iff (s.mem.state ((Call.pop e : Call α).slot cap near) = .empty →
        s.mem.index e ≠ near →
          (taken h ((Call.pop e : Call α).slot cap near)).length = 1)
        (by simp only [Sound, hpc])
  | .claim (.push e x) near => .isTrue (by simp only [Sound, hpc])
  | .idle => .isTrue (by simp only [Sound, hpc])
  | .load c => .isTrue (by simp only [Sound, hpc])
  | .loadOther c near => .isTrue (by simp only [Sound, hpc])
  | .move c near => .isTrue (by simp only [Sound, hpc])
  | .release c i => .isTrue (by simp only [Sound, hpc])
  | .write x i => .isTrue (by simp only [Sound, hpc])
  | .publish i => .isTrue (by simp only [Sound, hpc])
  | .read i => .isTrue (by simp only [Sound, hpc])
  | .vacate i d => .isTrue (by simp only [Sound, hpc])

/-- Thread `t` enters a call. -/
def Enters (t : ℕ) : ℕ × Event α → Prop
  | (u, .call _) => u = t
  | _ => False

instance (t : ℕ) : DecidablePred (Enters t : ℕ × Event α → Prop)
  | (u, .call _) => inferInstanceAs (Decidable (u = t))
  | (_, .moved _ _) => .isFalse id
  | (_, .ret _) => .isFalse id
  | (_, .silent) => .isFalse id

/-- `P` held at some instant since thread `t` entered its last call. -/
def Meanwhile (t : ℕ) (P : History α → Prop) : History α → Prop :=
  Labelled.Since (Enters t) P

instance (t : ℕ) (P : History α → Prop) [DecidablePred P] :
    DecidablePred (Meanwhile t P) :=
  inferInstanceAs (DecidablePred (Labelled.Since (Enters t) P))

/-- No committed item is in the deque. -/
def Drained (h : History α) : Prop := contents h = []

instance [DecidableEq α] : DecidablePred (Drained : History α → Prop) :=
  fun h => inferInstanceAs (Decidable (contents h = []))

/-- A pop has just moved its index over slot `i`. -/
def Takes (i : ℕ) : History α → Prop
  | (_, .moved (.pop _) j) :: _ => i = j
  | _ => False

/-- The indices of a history are the ends of its list. -/
structure Laid (cap : ℕ) (h : History α) : Prop where
  head_lt : indexAt cap h .front < cap
  length_lt : (contents h).length < cap
  tail_eq : indexAt cap h .back = Ring.advance cap (indexAt cap h .front) (contents h).length

section UpTo

variable {h : History α} {t u : ℕ} {ev : Event α} {P : History α → Prop}

theorem upTo_self : upTo t ((t, ev) :: h) = (t, ev) :: h := by
  simp [upTo]

theorem upTo_other (hu : u ≠ t) : upTo t ((u, ev) :: h) = upTo t h := by
  simp [upTo, hu]

theorem upTo_suffix : upTo t h <:+ h :=
  List.dropWhile_suffix _

theorem not_enters_other (hu : u ≠ t) : ¬ Enters t (u, ev) := by
  cases ev with
  | call c => exact hu
  | _ => exact id

theorem Meanwhile.of_upTo (hp : P (upTo t h)) : Meanwhile t P h := by
  induction h with
  | nil => exact hp
  | cons a h ih =>
      obtain ⟨u, ev⟩ := a
      by_cases hu : u = t
      · subst hu
        rw [upTo_self] at hp
        exact .now hp
      · rw [upTo_other hu] at hp
        exact (ih hp).later (not_enters_other hu)

end UpTo

/-- A slot whose item was the last one when it was taken has seen the deque
empty. -/
theorem Meanwhile.drained {h : History α} {t i : ℕ} (htakes : Meanwhile t (Takes i) h)
    (hlast : (taken h i).length = 1) : Meanwhile t Drained h := by
  induction h with
  | nil => exact htakes.elim
  | cons a h ih =>
      by_cases hnow : Takes i (a :: h)
      · obtain ⟨u, ev⟩ := a
        refine .now ?_
        cases ev with
        | moved c j =>
            cases c with
            | push e x => exact hnow.elim
            | pop e =>
                have hij : i = j := hnow
                simp only [taken, if_pos hij] at hlast
                obtain ⟨x, hx⟩ := List.length_eq_one_iff.mp hlast
                cases e <;> simp [Drained, contents, Event.apply, Call.apply, hx]
        | _ => exact hnow.elim
      · obtain ⟨hstart, hrest⟩ := htakes.resolve_left hnow
        refine .later (ih hrest ?_) hstart
        obtain ⟨u, ev⟩ := a
        cases ev with
        | moved c j =>
            cases c with
            | push e x => exact hlast
            | pop e =>
                have hij : i ≠ j := hnow
                simpa only [taken, if_neg hij] using hlast
        | _ => exact hlast

/-- What a thread in a call knows of the instants since it entered it. -/
def Account (cap : ℕ) (h : History α) (t : ℕ) : Pc α → Prop
  | .reload (.push e _) _ far =>
      far = indexAt cap (upTo t h) e.other ∧ (contents (upTo t h)).length + 1 < cap
  | .reload (.pop e) _ far => far = indexAt cap (upTo t h) e.other
  | .claim (.pop e) near =>
      Meanwhile t Drained h ∨
        committed h ((Call.pop e : Call α).slot cap near) = true ∨
        Meanwhile t (Takes ((Call.pop e : Call α).slot cap near)) h
  | _ => True

/-- A call had a reason for what it returns. -/
def Justified (h : History α) (t : ℕ) : Ret α → Prop
  | .pushErr _ => False
  | .popNone => Meanwhile t Drained h
  | _ => True

/-- A slot stays committed unless a pop takes it. -/
theorem committed_cons {h : History α} {a : ℕ × Event α} {i : ℕ}
    (hcom : committed h i = true) : committed (a :: h) i = true ∨ Takes i (a :: h) := by
  obtain ⟨u, ev⟩ := a
  cases ev with
  | moved c j =>
      cases c with
      | push e x => exact .inl (by simp [committed, hcom])
      | pop e =>
          by_cases hij : i = j
          · exact .inr hij
          · exact .inl (by simp [committed, hcom, hij])
  | _ => exact .inl hcom

/-- A step of another thread leaves the account of a thread. -/
theorem Account.other {h : History α} {t u : ℕ} {ev : Event α} {p : Pc α} (hu : u ≠ t)
    (hacc : Account cap h t p) : Account cap ((u, ev) :: h) t p := by
  have hstart : ¬ Enters t (u, ev) := not_enters_other hu
  cases p with
  | reload c near far =>
      cases c <;> simpa only [Account, upTo_other hu] using hacc
  | claim c near =>
      cases c with
      | push e x => trivial
      | pop e =>
          rcases hacc with hdrained | hcom | htakes
          · exact .inl (hdrained.later hstart)
          · rcases committed_cons (a := (u, ev)) hcom with hcom | hnow
            · exact .inr (.inl hcom)
            · exact .inr (.inr (.now hnow))
          · exact .inr (.inr (htakes.later hstart))
  | _ => trivial

theorem Laid.drained_iff {h : History α} (hlaid : Laid cap h) (e : End) :
    indexAt cap h e = indexAt cap h e.other ↔ Drained h := by
  have hends : indexAt cap h .front = indexAt cap h .back ↔ Drained h := by
    rw [hlaid.tail_eq, eq_comm, Ring.advance_eq_head_iff hlaid.head_lt hlaid.length_lt,
      List.length_eq_zero_iff, Drained]
  cases e with
  | front => exact hends
  | back => rw [← hends]; exact eq_comm

theorem Laid.full_iff {h : History α} (hlaid : Laid cap h) (e : End) :
    pushIndex cap e (indexAt cap h e) = indexAt cap h e.other ↔
      (contents h).length + 1 = cap := by
  cases e with
  | front =>
      rw [pushIndex_front, End.other, hlaid.tail_eq]
      exact Ring.prev_eq_advance_iff hlaid.head_lt hlaid.length_lt
  | back =>
      rw [pushIndex_back, End.other, hlaid.tail_eq,
        Ring.next_advance hlaid.head_lt hlaid.length_lt]
      exact Ring.advance_succ_eq_head_iff

/-- An empty slot at the end a pop stands at means an empty list. -/
theorem Inv.drained {l : List α} {s : State α} {e : End} (hinv : Inv cap l s)
    (hst : s.mem.state ((Call.pop e : Call α).slot cap (s.mem.index e)) = .empty) : l = [] := by
  have hfree := hinv.unclaimed _ (Call.slot_lt _ (hinv.layout.index_lt e))
    (hinv.not_claimed (by rw [hst]; decide) (by rw [hst]; decide))
  rw [hst, hinv.layout.window_pop e] at hfree
  have hnone := hfree.of_empty
  cases e with
  | front => exact List.head?_eq_none_iff.mp hnone
  | back => exact List.getLast?_eq_none_iff.mp hnone

/-- A committed slot is not empty. -/
theorem Inv.committed_state {h : History α} {s : State α} {i : ℕ}
    (hinv : Inv cap (contents h) s) (hi : i < cap)
    (hcom : (Ring.window cap s.mem.head (contents h) i).isSome = true) :
    s.mem.state i ≠ .empty := by
  intro hst
  have hfree := hinv.unclaimed i hi
    (hinv.not_claimed (by rw [hst]; decide) (by rw [hst]; decide))
  rw [hst] at hfree
  rw [hfree.of_empty] at hcom
  cases hcom

/-- What a thread knows after a step of its own, and the reason for what that step
returns. -/
theorem Account.tick {h : History α} {s : State α} {t : ℕ} (weak : Bool)
    (hinv : Inv cap (contents h) s) (hidx : ∀ e, indexAt cap h e = s.mem.index e)
    (hlaid : ∀ g, g <:+ h → Laid cap g)
    (hcom : ∀ i, i < cap →
      committed h i = (Ring.window cap s.mem.head (contents h) i).isSome)
    (hhead : Headroom cap h s)
    (hsound : Sound cap h s (t, (tick cap s.mem weak (s.pc t)).2.2))
    (hacc : Account cap h t (s.pc t)) :
    Account cap ((t, (Deque.tick cap s.mem weak (s.pc t)).2.2) :: h) t
        (Deque.tick cap s.mem weak (s.pc t)).2.1 ∧
      ∀ r, (Deque.tick cap s.mem weak (s.pc t)).2.2 = .ret r → Justified h t r := by
  cases hpc : s.pc t with
  | idle => exact ⟨trivial, fun r hr => by cases hr⟩
  | load c => exact ⟨by cases c <;> trivial, fun r hr => by cases hr⟩
  | loadOther c near =>
      refine ⟨?_, fun r hr => by cases hr⟩
      cases c with
      | push e x =>
          have hone := hhead {t} (by
            intro u hu
            rw [Finset.mem_singleton.mp hu, hpc]
            rfl)
          rw [Finset.card_singleton] at hone
          simp only [Deque.tick, Account, upTo_self]
          exact ⟨(hidx e.other).symm, hone⟩
      | pop e =>
          simp only [Deque.tick, Account, upTo_self]
          exact (hidx e.other).symm
  | reload c near far =>
      have hlast := hlaid _ (upTo_suffix (t := t))
      rw [hpc] at hacc
      simp only [Sound, hpc] at hsound
      simp only [Deque.tick]
      split
      case isTrue => exact ⟨by cases c <;> trivial, fun r hr => by cases hr⟩
      case isFalse hnear =>
        have hnear : s.mem.index c.side = near := not_not.mp hnear
        cases c with
        | push e x =>
            dsimp only
            split
            case isTrue hfull =>
              -- the pair was the pair of the load of the other index
              have howned := hsound hnear hfull
              obtain ⟨hfar, hroom⟩ := hacc
              have := (hlast.full_iff e).mp (by rw [howned, hfull, hfar])
              omega
            case isFalse => exact ⟨trivial, fun r hr => by cases hr⟩
        | pop e =>
            have hfar : far = indexAt cap (upTo t h) e.other := hacc
            dsimp only
            split
            case isTrue hempty =>
              have howned := hsound hnear hempty
              refine ⟨trivial, ?_⟩
              intro r hr
              cases hr
              refine Meanwhile.of_upTo ((hlast.drained_iff e).mp ?_)
              rw [howned, hempty, hfar]
            case isFalse =>
              refine ⟨?_, fun r hr => by cases hr⟩
              by_cases hnil : contents h = []
              · exact .inl (.now hnil)
              · -- the slot at this end holds an element of the list
                refine .inr (.inl ?_)
                have hslot := Call.slot_lt (.pop e : Call α) (hinv.layout.index_lt e)
                have hnear : s.mem.index e = near := hnear
                change committed h _ = true
                rw [← hnear, hcom _ hslot, hinv.layout.window_pop e]
                cases e with
                | front => simpa [End.item] using hnil
                | back => simpa [End.item] using hnil
  | claim c near =>
      have hbound := hinv.bounded t
      rw [hpc] at hacc hbound
      simp only [Sound, hpc] at hsound
      simp only [Deque.tick]
      split
      case isTrue => exact ⟨trivial, fun r hr => by cases hr⟩
      case isFalse =>
        cases c with
        | push e x => exact ⟨trivial, fun r hr => by cases hr⟩
        | pop e =>
            dsimp only
            split
            case isFalse => exact ⟨trivial, fun r hr => by cases hr⟩
            case isTrue hempty =>
              refine ⟨trivial, ?_⟩
              intro r hr
              cases hr
              have hslot := Call.slot_lt (.pop e : Call α) hbound
              rcases hacc with hdrained | hin | htakes
              · exact hdrained
              · rw [hcom _ hslot] at hin
                exact absurd hempty (hinv.committed_state hslot hin)
              · by_cases hnear : s.mem.index e = near
                · refine Labelled.Since.now ?_
                  exact hinv.drained (by rw [hnear]; exact hempty)
                · exact htakes.drained (hsound hempty hnear)
  | move c near =>
      simp only [Deque.tick]
      split
      · exact ⟨by cases c <;> trivial, fun r hr => by cases hr⟩
      · exact ⟨trivial, fun r hr => by cases hr⟩
  | release c i => exact ⟨by cases c <;> trivial, fun r hr => by cases hr⟩
  | write x i => exact ⟨trivial, fun r hr => by cases hr⟩
  | publish i =>
      refine ⟨trivial, ?_⟩
      intro r hr
      cases hr
      trivial
  | read i => exact ⟨trivial, fun r hr => by cases hr⟩
  | vacate i d =>
      refine ⟨trivial, ?_⟩
      intro r hr
      cases hr
      trivial

/-- The indices are where the moves of the history have put them. -/
theorem index_run {G : History α → State α → ℕ × Event α → Prop} {h : History α} {s : State α}
    (hrun : (machine α cap).RunOf G h s) : ∀ e, indexAt cap h e = s.mem.index e := by
  refine hrun.invariant (I := fun h s => ∀ e, indexAt cap h e = s.mem.index e) ?_ ?_
  · rintro s rfl e
    cases e <;> rfl
  · intro h s a s' _ hold _ hstep e
    cases hstep with
    | call _ => exact hold e
    | @tick t weak _ =>
        by_cases hmoved : ∃ c j, (Deque.tick cap s.mem weak (s.pc t)).2.2 = .moved c j
        · obtain ⟨c, j, hev⟩ := hmoved
          obtain ⟨near, -, rfl, -, -, hmem⟩ := tick_moved hev
          rw [hev, hmem]
          simp only [indexAt, hold]
          by_cases he : c.side = e
          · subst he
            rw [if_pos rfl]
            cases c.side <;> rfl
          · rw [if_neg he]
            revert he
            cases c.side <;> cases e <;> simp [Mem.setIndex, Mem.index]
        · have hev : ∀ c j, (Deque.tick cap s.mem weak (s.pc t)).2.2 ≠ .moved c j :=
            fun c j hcj => hmoved ⟨c, j, hcj⟩
          rw [tick_index e hev, ← hold e]
          generalize (Deque.tick cap s.mem weak (s.pc t)).2.2 = ev at hev
          cases ev with
          | moved c j => exact absurd rfl (hev c j)
          | _ => rfl

/-- The indices and the list fit together at every instant of a roomy run. -/
theorem roomy_laid {h g : History α} {s : State α} (hcap : 0 < cap)
    (hrun : (machine α cap).RunOf (roomy cap) h s) (hg : g <:+ h) : Laid cap g := by
  obtain ⟨s', hprev⟩ := hrun.suffix hg
  have hlay := (roomy_inv hcap hprev).layout
  have hidx := index_run hprev
  refine ⟨?_, hlay.length_lt, ?_⟩
  · rw [hidx .front]
    exact hlay.head_lt
  · rw [hidx .back, hidx .front]
    exact hlay.tail_eq

/-- Along a run with headroom whose failing calls judge soundly every return is
justified. -/
theorem sound_account {h : History α} {s : State α} (hcap : 0 < cap)
    (hrun : (machine α cap).RunOf (fun h s a => Headroom cap h s ∧ Sound cap h s a) h s) :
    (∀ t, Account cap h t (s.pc t)) ∧
      ∀ h₁ t r h₂, h = h₁ ++ (t, .ret r) :: h₂ → Justified h₂ t r := by
  refine hrun.invariant (I := fun h s => (∀ t, Account cap h t (s.pc t)) ∧
    ∀ h₁ t r h₂, h = h₁ ++ (t, .ret r) :: h₂ → Justified h₂ t r) ?_ ?_
  · rintro s rfl
    refine ⟨fun _ => trivial, ?_⟩
    intro h₁ t r h₂ heq
    simp at heq
  · rintro h s a s' hprev ⟨hacc, hjust⟩ ⟨hhead, hsound⟩ hstep
    have hroomy := headroom_roomy hcap (hprev.mono fun _ _ _ hg => hg.1)
    cases hstep with
    | @call t c hidle =>
        constructor
        · intro u
          by_cases hu : u = t
          · subst hu
            simp only [Function.update_self]
            cases c <;> trivial
          · simp only [Function.update_of_ne hu]
            exact (hacc u).other (Ne.symm hu)
        · intro h₁ u r h₂ heq
          cases h₁ with
          | nil => cases heq
          | cons b h₁ =>
              simp only [List.cons_append, List.cons.injEq] at heq
              exact hjust h₁ u r h₂ heq.2
    | @tick t weak _ =>
        obtain ⟨hself, hret⟩ := (hacc t).tick weak (roomy_inv hcap hroomy) (index_run hroomy)
          (fun g hg => roomy_laid hcap hroomy hg) (roomy_committed hcap hroomy) hhead hsound
        constructor
        · intro u
          by_cases hu : u = t
          · subst hu
            simpa only [Function.update_self] using hself
          · simp only [Function.update_of_ne hu]
            exact (hacc u).other (Ne.symm hu)
        · intro h₁ u r h₂ heq
          cases h₁ with
          | nil =>
              simp only [List.nil_append, List.cons.injEq, Prod.mk.injEq] at heq
              obtain ⟨⟨rfl, hev⟩, rfl⟩ := heq
              exact hret r hev
          | cons b h₁ =>
              simp only [List.cons_append, List.cons.injEq] at heq
              exact hjust h₁ u r h₂ heq.2

/-- Along every run in which the committed items and the pushes in flight fit the
ring, and each call that is about to fail judges from a pair of indices that
existed or after the last item was taken, a pop that returns nothing saw the
deque empty meanwhile and no push fails. -/
theorem failure_has_reason {h : History α} {s : State α} (hcap : 3 ≤ cap)
    (hrun : (machine α cap).RunOf (fun h s a => Headroom cap h s ∧ Sound cap h s a) h s) :
    (∀ h₁ t h₂, h = h₁ ++ (t, .ret .popNone) :: h₂ → Meanwhile t Drained h₂) ∧
      ∀ t x, (t, .ret (.pushErr x)) ∉ h := by
  have hjust := (sound_account (by omega) hrun).2
  constructor
  · intro h₁ t h₂ heq
    exact hjust h₁ t .popNone h₂ heq
  · intro t x hmem
    obtain ⟨h₁, h₂, heq⟩ := List.append_of_mem hmem
    exact hjust h₁ t (.pushErr x) h₂ heq

/-- Thread `1` begins a pop, thread `2` takes the only item, and thread `1` finds its index
moved and then nothing to take, while thread `0` is about to push another item. -/
def latePop : List (Choice ℕ) :=
  .invoke 0 (pushBack 10) :: goes 0 7 ++ .invoke 1 popFront :: goes 1 2 ++
    .invoke 2 popFront :: goes 2 7 ++ .invoke 0 (pushBack 20) :: goes 0 4 ++
    goes 1 4 ++ goes 0 3

/-- Such a run of three threads. -/
theorem failure_has_reason_late : ∃ (h h₁ : History ℕ) (s : State ℕ) (h₂ : History ℕ),
    (machine ℕ 8).RunOf (fun h s a => Headroom 8 h s ∧ Sound 8 h s a) h s ∧
    h = h₁ ++ (1, .ret .popNone) :: h₂ ∧ Meanwhile 1 Drained h₂ ∧
    (0, .ret (.pushErr 20)) ∉ h ∧ contents h = [20] := by
  let r := (playAll 8 (fun (h : History ℕ) s a => few 8 3 h s a ∧ Sound 8 h s a)
    latePop).get (by decide)
  have hrun : (machine ℕ 8).RunOf (fun h s a => few 8 3 h s a ∧ Sound 8 h s a) r.1 r.2 :=
    playAll_run (Option.some_get _).symm
  have hsound : (machine ℕ 8).RunOf (fun h s a => Headroom 8 h s ∧ Sound 8 h s a) r.1 r.2 :=
    hrun.upgrade fun h s a s' hprev _ hg _ =>
      ⟨headroom_of_few (few_idle (hprev.mono fun _ _ _ hg => hg.1)) hg.1.2, hg.2⟩
  have hcons : r.1 = r.1.take 3 ++ (1, .ret .popNone) :: r.1.drop 4 := by decide
  obtain ⟨hnone, herr⟩ := failure_has_reason (by decide) hsound
  exact ⟨r.1, r.1.take 3, r.2, r.1.drop 4, hsound, hcons, hnone _ 1 _ hcons, herr 0 20, by decide⟩

/-- Thread `1` judges from two elements, and thread `0` takes the first of them. -/
def twoPops : List (Choice ℕ) :=
  .invoke 0 (pushBack 10) :: goes 0 7 ++ .invoke 0 (pushBack 20) :: goes 0 7 ++
    .invoke 1 popFront :: goes 1 3 ++ .invoke 0 popFront :: goes 0 7 ++ [.access 1 false]

/-- The second pop returns nothing although the deque is never empty meanwhile. -/
theorem pop_misses : ∃ (h : History ℕ) (s : State ℕ) (h₂ : History ℕ),
    (machine ℕ 5).RunOf (fun h s _ => Headroom 5 h s) h s ∧
    h = (1, .ret .popNone) :: h₂ ∧ ¬ Meanwhile 1 Drained h₂ := by
  let r := (playAll 5 (few 5 2) twoPops).get (by decide)
  have hrun : (machine ℕ 5).RunOf (few 5 2) r.1 r.2 := playAll_run (Option.some_get _).symm
  exact ⟨r.1, r.2, r.1.tail, hrun.upgrade fun h s a s' hprev _ hfew _ =>
    headroom_of_few (few_idle hprev) hfew.2, by decide, by decide⟩

end Deque
