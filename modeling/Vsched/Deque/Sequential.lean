import Vsched.Foundation.Slots
import Vsched.Deque.Refinement

/-!
# The deque used one call at a time

A call that runs alone, with no compare-and-swap failing spuriously, needs one
pass of its loop: nothing moves between its loads, and the slot it claims is in
the state it expects. Between calls the deque is a list of at most
`CAPACITY - 1` elements laid out on the ring, so a sequence of calls returns
what the same calls return on that list.
-/

namespace Deque

variable {α : Type*} {cap : ℕ}

/-- One pass of the loop of a call that runs alone; `none` if the call goes round
its loop again, or has not returned after `n` accesses. -/
def pass (cap : ℕ) : ℕ → Mem α → Pc α → Option (Mem α × Ret α)
  | 0, _, _ => none
  | n + 1, m, p =>
      match tick cap m false p with
      | (m', _, .ret r) => some (m', r)
      | (_, .load _, _) => none
      | (m', p', _) => pass cap n m' p'

/-- A call that runs alone: three loads, the two compare-and-swaps, the access to
the item and the one that releases the slot. -/
def once (cap : ℕ) (m : Mem α) (c : Call α) : Option (Mem α × Ret α) :=
  pass cap 7 m (.load c)

namespace Mem

/-- One pass of the loop that `len` and `is_empty` read the two indices in. -/
def snapshot (m : Mem α) : Option (ℕ × ℕ) :=
  let head := m.head
  let tail := m.tail
  let head_ := m.head
  if head_ = head then some (head, tail) else none

def len (cap : ℕ) (m : Mem α) : Option ℕ :=
  m.snapshot.map fun (head, tail) =>
    if tail ≥ head then tail - head else cap - head + tail

def isEmpty (m : Mem α) : Option Bool :=
  m.snapshot.map fun (head, tail) => head == tail

/-- The items in the slots from `head` up to `tail`. -/
def items (cap : ℕ) (m : Mem α) : List α :=
  Slots.contents ((m.len cap).getD 0) fun k => m.data ((m.head + k) % cap)

end Mem

/-- What a user of the deque may do. -/
inductive Op (α : Type*)
  | call (c : Call α)
  | len
  | isEmpty
  deriving DecidableEq, Repr

inductive Res (α : Type*)
  | ret (r : Ret α)
  | len (n : ℕ)
  | isEmpty (b : Bool)
  deriving DecidableEq, Repr

def Op.run (cap : ℕ) (m : Mem α) : Op α → Option (Mem α × Res α)
  | .call c => (once cap m c).map fun (m', r) => (m', .ret r)
  | .len => (m.len cap).map fun n => (m, .len n)
  | .isEmpty => m.isEmpty.map fun b => (m, .isEmpty b)

/-- Operations one after another, with their results. -/
def runOps (cap : ℕ) : List (Op α) → Mem α → Option (Mem α × List (Res α))
  | [], m => some (m, [])
  | o :: os, m => do
      let (m', r) ← o.run cap m
      let (m'', rs) ← runOps cap os m'
      pure (m'', r :: rs)

/-- The operations on a list of at most `room` elements. -/
def Op.onList (room : ℕ) (l : List α) : Op α → List α × Res α
  | .call (.push e x) =>
      if l.length < room then ((Call.push e x).apply l, .ret .pushOk)
      else (l, .ret (.pushErr x))
  | .call (.pop e) =>
      match e.item l with
      | some x => ((Call.pop e).apply l, .ret (.popSome (some x)))
      | none => (l, .ret .popNone)
  | .len => (l, .len l.length)
  | .isEmpty => (l, .isEmpty l.isEmpty)

def listOps (room : ℕ) : List (Op α) → List α → List α × List (Res α)
  | [], l => (l, [])
  | o :: os, l =>
      let (l', r) := o.onList room l
      let (l'', rs) := listOps room os l'
      (l'', r :: rs)

/-- No call is in progress and the deque holds the list `l`. -/
def Rests (cap : ℕ) (l : List α) (m : Mem α) : Prop :=
  Inv cap l ⟨m, fun _ => .idle⟩

theorem Mem.setState_index (m : Mem α) (i : ℕ) (st : SlotState) (e : End) :
    (m.setState i st).index e = m.index e := by
  cases e <;> rfl

theorem Rests.of_update {l : List α} {m : Mem α} {pc : ℕ → Pc α}
    (hinv : Inv cap l ⟨m, pc⟩) (hpc : pc = fun _ => .idle) : Rests cap l m := by
  subst hpc
  exact hinv

/-- Thread `0` is back where it was. -/
theorem update_idle (p q r : Pc α) :
    Function.update (Function.update (Function.update (Function.update
      (fun _ => Pc.idle) 0 p) 0 q) 0 r) 0 .idle = fun _ : ℕ => Pc.idle := by
  simp only [Function.update_idem]
  exact Function.update_eq_self 0 _

section Rests

variable {l : List α} {m : Mem α}

theorem Rests.layout (h : Rests cap l m) : Layout cap l m := Inv.layout h

theorem Rests.slot_expected (h : Rests cap l m) (c : Call α)
    (hne : ∀ e, c = .pop e → m.head ≠ m.tail) :
    m.state (c.slot cap (m.index c.side)) = c.expected :=
  Inv.slot_expected h (fun _ => rfl) hne

/-- A push on a list that leaves two slots free adds its item. -/
theorem Rests.once_push (h : Rests cap l m) (e : End) (x : α) (hroom : l.length + 1 < cap) :
    ∃ m', once cap m (.push e x) = some (m', .pushOk) ∧
      Rests cap ((Call.push e x).apply l) m' := by
  have hlay := h.layout
  have hroomy : ¬ pushIndex cap e (m.index e) = m.index e.other := by
    rw [hlay.push_full_iff]
    omega
  have hslot : m.state ((Call.push e x).slot cap (m.index e)) = .empty :=
    h.slot_expected (.push e x) (fun e he => by cases he)
  generalize hi : (Call.push e x).slot cap (m.index e) = i at hslot
  refine ⟨(((m.setState i .writing).setIndex e (pushIndex cap e (m.index e))).setData i
    x).setState i .ready, ?_, ?_⟩
  · simp [once, pass, tick, Call.side, Call.expected, Call.claimed, Call.newIndex, hroomy,
      hi, hslot, Mem.setState_index]
  · have hclaim := Inv.claim_slot (t := 0) h (c := .push e x) (hlay.index_lt e) rfl
      (by rw [hi]; exact hslot)
    simp only [hi, Call.claimed] at hclaim
    have hmove := hclaim.moved_push (t := 0) (e := e) (x := x)
      (by simp [Mem.setState_index]) hroom
    simp only [Mem.setState_index, hi] at hmove
    have hwrite := hmove.write_slot (t := 0) (i := i) (x := x) (by simp)
    have hpublish := hwrite.publish_slot (t := 0) (i := i) (by simp)
    exact .of_update hpublish (update_idle _ _ _)

/-- A push on a list that fills the ring changes nothing. -/
theorem Rests.once_push_full (h : Rests cap l m) (e : End) (x : α)
    (hfull : l.length + 1 = cap) : once cap m (.push e x) = some (m, .pushErr x) := by
  have hidx := (h.layout.push_full_iff e).mpr hfull
  simp [once, pass, tick, Call.side, hidx]

/-- The two ends agree exactly when there is nothing to pop. -/
theorem Rests.ends_eq_iff (h : Rests cap l m) (e : End) :
    m.index e = m.index e.other ↔ l = [] := by
  rw [← h.layout.head_eq_tail_iff]
  cases e with
  | front => exact Iff.rfl
  | back => exact eq_comm

theorem Rests.once_pop (h : Rests cap l m) (e : End) {x : α} (hx : e.item l = some x) :
    ∃ m', once cap m (.pop e) = some (m', .popSome (some x)) ∧
      Rests cap ((Call.pop e : Call α).apply l) m' := by
  have hlay := h.layout
  have hne : l ≠ [] := by
    rintro rfl
    cases e <;> cases hx
  have hends : ¬ m.index e = m.index e.other := fun heq => hne ((h.ends_eq_iff e).mp heq)
  have hslot : m.state ((Call.pop e : Call α).slot cap (m.index e)) = .ready :=
    h.slot_expected (.pop e) (fun _ _ heq => hne (hlay.head_eq_tail_iff.mp heq))
  have hwin : Ring.window cap m.head l ((Call.pop e : Call α).slot cap (m.index e)) =
      some x := by rw [hlay.window_pop e, hx]
  have hdata : m.data ((Call.pop e : Call α).slot cap (m.index e)) = some x :=
    Inv.data_item h (Call.slot_lt _ (hlay.index_lt e)) hwin (fun _ _ hw => by cases hw)
  generalize hi : (Call.pop e : Call α).slot cap (m.index e) = i at hslot hdata
  have hread : ((m.setState i .reading).setIndex e (popIndex cap e (m.index e))).data i =
      some x := by rw [(Mem.setIndex_slots _ _ _).2]; exact hdata
  refine ⟨((m.setState i .reading).setIndex e (popIndex cap e (m.index e))).setState i
    .empty, ?_, ?_⟩
  · simp [once, pass, tick, Call.side, Call.expected, Call.claimed, Call.newIndex, hends,
      hi, hslot, hread, Mem.setState_index]
  · have hclaim := Inv.claim_slot (t := 0) h (c := .pop e) (hlay.index_lt e) rfl
      (by rw [hi]; exact hslot)
    simp only [hi, Call.claimed] at hclaim
    have hmove := hclaim.moved_pop (t := 0) (e := e) (by simp [Mem.setState_index])
    simp only [Mem.setState_index, hi] at hmove
    have hread := hmove.read_slot (t := 0) (i := i) (d := some x) (by simp)
    have hvacate := hread.vacate_slot (t := 0) (i := i) (d := some x) (by simp)
    exact .of_update hvacate (update_idle _ _ _)

theorem Rests.once_pop_empty (h : Rests cap [] m) (e : End) :
    once cap m (.pop e : Call α) = some (m, .popNone) := by
  have hends := (h.ends_eq_iff e).mpr rfl
  simp [once, pass, tick, Call.side, hends]

theorem Rests.len (h : Rests cap l m) : m.len cap = some l.length := by
  have hhead := h.layout.head_lt
  have hlen := h.layout.length_lt
  simp only [Mem.len, Mem.snapshot, if_true, Option.map_some, h.layout.tail_eq,
    Ring.advance, Option.some.injEq]
  split_ifs <;> omega

theorem Rests.isEmpty (h : Rests cap l m) : m.isEmpty = some l.isEmpty := by
  simp only [Mem.isEmpty, Mem.snapshot, if_true, Option.map_some, Option.some.injEq]
  rw [Bool.eq_iff_iff, beq_iff_eq, h.layout.head_eq_tail_iff, List.isEmpty_iff]

/-- An operation returns what it returns on the list, and leaves the deque holding
the list it leaves. -/
theorem Rests.run (h : Rests cap l m) (o : Op α) :
    ∃ m', o.run cap m = some (m', (o.onList (cap - 1) l).2) ∧
      Rests cap (o.onList (cap - 1) l).1 m' := by
  have hlen := h.layout.length_lt
  cases o with
  | call c =>
      cases c with
      | push e x =>
          by_cases hroom : l.length < cap - 1
          · obtain ⟨m', honce, hrest⟩ := h.once_push e x (by omega)
            refine ⟨m', ?_, ?_⟩
            · simp [Op.run, Op.onList, honce, hroom]
            · simpa [Op.onList, hroom] using hrest
          · refine ⟨m, ?_, ?_⟩
            · simp [Op.run, Op.onList, h.once_push_full e x (by omega), hroom]
            · simpa [Op.onList, hroom] using h
      | pop e =>
          cases hx : e.item l with
          | some x =>
              obtain ⟨m', honce, hrest⟩ := h.once_pop e hx
              refine ⟨m', ?_, ?_⟩
              · simp [Op.run, Op.onList, honce, hx]
              · simpa [Op.onList, hx] using hrest
          | none =>
              have hnil : l = [] := by
                cases e with
                | front => exact List.head?_eq_none_iff.mp hx
                | back => exact List.getLast?_eq_none_iff.mp hx
              subst hnil
              refine ⟨m, ?_, ?_⟩
              · simp [Op.run, Op.onList, h.once_pop_empty e, hx]
              · simpa [Op.onList, hx] using h
  | len => exact ⟨m, by simp [Op.run, Op.onList, h.len], h⟩
  | isEmpty => exact ⟨m, by simp [Op.run, Op.onList, h.isEmpty], h⟩

theorem Rests.runOps (h : Rests cap l m) (os : List (Op α)) :
    ∃ m', runOps cap os m = some (m', (listOps (cap - 1) os l).2) ∧
      Rests cap (listOps (cap - 1) os l).1 m' := by
  induction os generalizing l m with
  | nil => exact ⟨m, rfl, h⟩
  | cons o os ih =>
      obtain ⟨m₁, hrun, hrest⟩ := h.run o
      obtain ⟨m₂, hruns, hrests⟩ := ih hrest
      refine ⟨m₂, ?_, hrests⟩
      simp [Deque.runOps, hrun, hruns, listOps]

/-- A slot is ready inside the list and empty outside it. -/
theorem Rests.state (h : Rests cap l m) {i : ℕ} (hi : i < cap) :
    m.state i = if ∃ k < l.length, i = (m.head + k) % cap then .ready else .empty := by
  have hhead := h.layout.head_lt
  have hlen := h.layout.length_lt
  have hfree : Free (m.state i) (Ring.window cap m.head l i) (m.data i) :=
    Inv.unclaimed h i hi (fun _ _ hk => by cases hk)
  have hin : (∃ k < l.length, i = (m.head + k) % cap) ↔ Ring.offset cap m.head i < l.length := by
    constructor
    · rintro ⟨k, hk, rfl⟩
      rw [← Ring.advance_eq_mod hhead (by omega), Ring.offset_advance hhead (by omega)]
      exact hk
    · intro hoff
      refine ⟨_, hoff, ?_⟩
      rw [← Ring.advance_eq_mod hhead (by omega), Ring.advance_offset hi hhead]
  by_cases hoff : Ring.offset cap m.head i < l.length
  · rw [if_pos (hin.mpr hoff)]
    rw [Ring.window, List.getElem?_eq_getElem hoff] at hfree
    exact hfree.state_ready
  · rw [if_neg (fun hex => hoff (hin.mp hex))]
    rw [Ring.window, List.getElem?_eq_none (Nat.le_of_not_lt hoff)] at hfree
    exact hfree.state_empty

/-- The slots from `head` up to `tail` hold the list. -/
theorem Rests.items (h : Rests cap l m) : m.items cap = l := by
  have hhead := h.layout.head_lt
  have hlen := h.layout.length_lt
  have hdata : ∀ k, k < l.length → m.data ((m.head + k) % cap) = l[k]? := by
    intro k hk
    have hwin : Ring.window cap m.head l (Ring.advance cap m.head k) = l[k]? :=
      Ring.window_advance hhead (by omega)
    rw [← Ring.advance_eq_mod hhead (by omega), List.getElem?_eq_getElem hk]
    rw [List.getElem?_eq_getElem hk] at hwin
    exact Inv.data_item h (Ring.advance_lt hhead (by omega)) hwin (fun _ _ hw => by cases hw)
  rw [Mem.items, h.len, Option.getD_some]
  rw [Slots.contents_congr hdata, Slots.contents_list]

end Rests

/-- A sequence of operations, each running alone, returns what it returns on a list
of at most `CAPACITY - 1` elements, every call in one pass of its loop; the slots
from `head` up to `tail` are then ready and all others empty. -/
theorem bounded_list (hcap : 1 ≤ cap) (os : List (Op α)) :
    ∃ m : Mem α, runOps cap os Mem.new = some (m, (listOps (cap - 1) os []).2) ∧
      m.head < cap ∧ m.tail = (m.head + (listOps (cap - 1) os []).1.length) % cap ∧
      ∀ i, i < cap → m.state i =
        if ∃ k < (listOps (cap - 1) os []).1.length, i = (m.head + k) % cap then .ready
        else .empty := by
  have hnew : Rests cap [] (Mem.new : Mem α) := Inv.init (by omega)
  obtain ⟨m, hrun, hrest⟩ := hnew.runOps os
  refine ⟨m, hrun, hrest.layout.head_lt, ?_, fun i hi => hrest.state hi⟩
  rw [hrest.layout.tail_eq,
    Ring.advance_eq_mod hrest.layout.head_lt (Nat.le_of_lt hrest.layout.length_lt)]

/-- A deque of three slots takes two elements and refuses the third. -/
theorem bounded_list_three : ∃ m : Mem ℕ,
    runOps 3 [.call (pushBack 1), .call (pushBack 2), .call (pushBack 3), .call popFront, .len]
        Mem.new =
      some (m, [.ret .pushOk, .ret .pushOk, .ret (.pushErr 3), .ret (.popSome (some 1)),
        .len 1]) := by
  obtain ⟨m, hrun, -⟩ := bounded_list (show 1 ≤ 3 by decide)
    [.call (pushBack 1), .call (pushBack 2), .call (pushBack 3), .call popFront, .len]
  exact ⟨m, hrun⟩

end Deque
