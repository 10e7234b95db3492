import Mathlib.Tactic
import Vsched.Foundation.Labelled

/-!
# The lock-free deque as a machine of atomic steps

`LockFreeDeque` is a ring of `CAPACITY` slots, each with a state byte, and two
indices, `head` and `tail`. The four calls share one shape: load the index of
the call's own end, load the other one, load the own one again, claim a slot by
a compare-and-swap on its state, move the own index by a second
compare-and-swap, then use the slot and release it. `tick` is one atomic access
of one call, and the machine interleaves the ticks of any number of threads.
Both compare-and-swaps are `compare_exchange_weak`, so a tick takes a flag that
lets them fail although the value compared is the expected one.
-/

namespace Deque

/-- The state byte of a slot: `SLOT_EMPTY`, `SLOT_WRITING`, `SLOT_READY` and
`SLOT_READING`. -/
inductive SlotState
  | empty
  | writing
  | ready
  | reading
  deriving DecidableEq, Repr

/-- The end of the deque a call works at. -/
inductive End
  | front
  | back
  deriving DecidableEq, Repr

def End.other : End → End
  | .front => .back
  | .back => .front

/-- The shared memory of a `LockFreeDeque`. Slots are read at indices below
`CAPACITY` only; `none` is the uninitialised `MaybeUninit`. -/
structure Mem (α : Type*) where
  state : ℕ → SlotState
  data : ℕ → Option α
  head : ℕ
  tail : ℕ

namespace Mem

variable {α : Type*}

/-- `LockFreeDeque::new`. -/
def new : Mem α where
  state := fun _ => .empty
  data := fun _ => none
  head := 0
  tail := 0

/-- The index of an end: `head` for the front, `tail` for the back. -/
def index (m : Mem α) : End → ℕ
  | .front => m.head
  | .back => m.tail

def setIndex (m : Mem α) (e : End) (i : ℕ) : Mem α :=
  match e with
  | .front => { m with head := i }
  | .back => { m with tail := i }

def setState (m : Mem α) (i : ℕ) (st : SlotState) : Mem α :=
  { m with state := Function.update m.state i st }

def setData (m : Mem α) (i : ℕ) (x : α) : Mem α :=
  { m with data := Function.update m.data i (some x) }

end Mem

/-- The four calls: a push carries the item it is to add. -/
inductive Call (α : Type*)
  | push (e : End) (item : α)
  | pop (e : End)
  deriving DecidableEq, Repr

def pushFront {α : Type*} (item : α) : Call α := .push .front item

def pushBack {α : Type*} (item : α) : Call α := .push .back item

def popFront {α : Type*} : Call α := .pop .front

def popBack {α : Type*} : Call α := .pop .back

/-- The index a push moves its end to: `new_head`, `new_tail`. -/
def pushIndex (cap : ℕ) : End → ℕ → ℕ
  | .front, head => if head = 0 then cap - 1 else head - 1
  | .back, tail => (tail + 1) % cap

/-- The index a pop moves its end to: `new_head`, `last_pos`. -/
def popIndex (cap : ℕ) : End → ℕ → ℕ
  | .front, head => (head + 1) % cap
  | .back, tail => if tail = 0 then cap - 1 else tail - 1

namespace Call

variable {α : Type*}

/-- The end whose index the call loads first and moves. -/
def side : Call α → End
  | .push e _ => e
  | .pop e => e

def newIndex (cap : ℕ) : Call α → ℕ → ℕ
  | .push e _ => pushIndex cap e
  | .pop e => popIndex cap e

/-- The slot the call claims, from the index it has loaded: `push_front` and
`pop_back` use the slot they move to, `push_back` and `pop_front` the slot they
move from. -/
def slot (cap : ℕ) : Call α → ℕ → ℕ
  | .push .front _, head => pushIndex cap .front head
  | .push .back _, tail => tail
  | .pop .front, head => head
  | .pop .back, tail => popIndex cap .back tail

/-- The state a slot is in when the call may claim it. -/
def expected : Call α → SlotState
  | .push _ _ => .empty
  | .pop _ => .ready

/-- The state of a slot the call has claimed. -/
def claimed : Call α → SlotState
  | .push _ _ => .writing
  | .pop _ => .reading

end Call

/-- What a call returns. The item of a pop is `none` where the slot it read was
never written. -/
inductive Ret (α : Type*)
  | pushOk
  | pushErr (item : α)
  | popSome (item : Option α)
  | popNone
  deriving DecidableEq, Repr

/-- Where a thread stands: outside any call, or in front of the next atomic
access of its call. -/
inductive Pc (α : Type*)
  | idle
  /-- Loads the index of its own end. -/
  | load (c : Call α)
  /-- Loads the other index, having read `near`. -/
  | loadOther (c : Call α) (near : ℕ)
  /-- Loads its own index again and tests for full or empty. -/
  | reload (c : Call α) (near far : ℕ)
  /-- Claims its slot. -/
  | claim (c : Call α) (near : ℕ)
  /-- Moves its index, holding the slot. -/
  | move (c : Call α) (near : ℕ)
  /-- Gives the slot back, the index having moved meanwhile. -/
  | release (c : Call α) (i : ℕ)
  /-- Writes the pushed item into slot `i`. -/
  | write (item : α) (i : ℕ)
  /-- Marks slot `i` as ready. -/
  | publish (i : ℕ)
  /-- Reads the item out of slot `i`. -/
  | read (i : ℕ)
  /-- Marks slot `i` as empty. -/
  | vacate (i : ℕ) (item : Option α)
  deriving DecidableEq, Repr

/-- What a step shows to an observer. -/
inductive Event (α : Type*)
  | call (c : Call α)
  /-- The compare-and-swap on the index succeeded for a call that holds slot `i`. -/
  | moved (c : Call α) (i : ℕ)
  | ret (r : Ret α)
  | silent
  deriving DecidableEq, Repr

variable {α : Type*}

/-- One atomic access of a call. `weak` makes a compare-and-swap fail
spuriously. -/
def tick (cap : ℕ) (m : Mem α) (weak : Bool) : Pc α → Mem α × Pc α × Event α
  | .idle => (m, .idle, .silent)
  | .load c => (m, .loadOther c (m.index c.side), .silent)
  | .loadOther c near => (m, .reload c near (m.index c.side.other), .silent)
  | .reload c near far =>
      if m.index c.side ≠ near then (m, .load c, .silent)
      else match c with
        | .push e item =>
            if pushIndex cap e near = far then (m, .idle, .ret (.pushErr item))
            else (m, .claim (.push e item) near, .silent)
        | .pop e =>
            if near = far then (m, .idle, .ret .popNone)
            else (m, .claim (.pop e) near, .silent)
  | .claim c near =>
      if m.state (c.slot cap near) = c.expected ∧ weak = false then
        (m.setState (c.slot cap near) c.claimed, .move c near, .silent)
      else match c with
        | .push e item => (m, .load (.push e item), .silent)
        | .pop e =>
            -- an empty slot is taken as an empty deque
            if m.state ((Call.pop e : Call α).slot cap near) = .empty then
              (m, .idle, .ret .popNone)
            else (m, .load (.pop e), .silent)
  | .move c near =>
      if m.index c.side = near ∧ weak = false then
        (m.setIndex c.side (c.newIndex cap near),
          match c with
          | .push _ item => .write item (c.slot cap near)
          | .pop _ => .read (c.slot cap near),
          .moved c (c.slot cap near))
      else (m, .release c (c.slot cap near), .silent)
  | .release c i => (m.setState i c.expected, .load c, .silent)
  | .write item i => (m.setData i item, .publish i, .silent)
  | .publish i => (m.setState i .ready, .idle, .ret .pushOk)
  | .read i => (m, .vacate i (m.data i), .silent)
  | .vacate i item => (m.setState i .empty, .idle, .ret (.popSome item))

/-- A deque shared by threads numbered by `ℕ`. -/
structure State (α : Type*) where
  mem : Mem α
  pc : ℕ → Pc α

/-- No thread is in a call and the deque is new. -/
def State.init : State α := ⟨Mem.new, fun _ => .idle⟩

/-- A thread enters a call, or makes the next atomic access of the call it is
in. -/
inductive Step (cap : ℕ) : State α → ℕ × Event α → State α → Prop
  | call {s : State α} {t : ℕ} {c : Call α} :
      s.pc t = .idle →
      Step cap s (t, .call c) ⟨s.mem, Function.update s.pc t (.load c)⟩
  | tick {s : State α} {t : ℕ} (weak : Bool) :
      s.pc t ≠ .idle →
      Step cap s (t, (tick cap s.mem weak (s.pc t)).2.2)
        ⟨(tick cap s.mem weak (s.pc t)).1,
          Function.update s.pc t (tick cap s.mem weak (s.pc t)).2.1⟩

/-- The deque of capacity `cap` under every interleaving. -/
def machine (α : Type*) (cap : ℕ) : Labelled.System (State α) (ℕ × Event α) where
  start := fun s => s = State.init
  step := Step cap

/-- What a scheduler of threads may choose next. -/
inductive Choice (α : Type*)
  | invoke (t : ℕ) (c : Call α)
  | access (t : ℕ) (weak : Bool)

/-- The next `n` accesses of thread `t`, none of which fails spuriously. -/
def goes (t n : ℕ) : List (Choice ℕ) :=
  List.replicate n (.access t false)

/-- The step a choice leads to. -/
def perform (cap : ℕ) (s : State α) : Choice α → Option ((ℕ × Event α) × State α)
  | .invoke t c =>
      match s.pc t with
      | .idle => some ((t, .call c), ⟨s.mem, Function.update s.pc t (.load c)⟩)
      | _ => none
  | .access t weak =>
      match s.pc t with
      | .idle => none
      | p =>
          let r := tick cap s.mem weak p
          some ((t, r.2.2), ⟨r.1, Function.update s.pc t r.2.1⟩)

theorem perform_step {cap : ℕ} {s s' : State α} {k : Choice α} {a : ℕ × Event α}
    (h : perform cap s k = some (a, s')) : Step cap s a s' := by
  cases k with
  | invoke t c =>
      cases hpc : s.pc t <;> simp only [perform, hpc] at h <;> cases h
      exact .call hpc
  | access t weak =>
      have hbusy : s.pc t ≠ .idle := by
        intro hidle
        simp [perform, hidle] at h
      have hstep : Step cap s _ _ := .tick weak hbusy
      cases hpc : s.pc t <;> simp only [perform, hpc] at h <;> cases h <;>
        simpa only [hpc] using hstep

/-- A history of the machine, newest label first. -/
abbrev History (α : Type*) := List (ℕ × Event α)

/-- The run that a list of choices leads to, if its steps meet the guard. -/
def playAll (cap : ℕ) (G : History α → State α → ℕ × Event α → Prop)
    [∀ h s a, Decidable (G h s a)] (ks : List (Choice α)) : Option (History α × State α) :=
  Labelled.play (perform cap) G ks [] State.init

theorem playAll_run {cap : ℕ} {G : History α → State α → ℕ × Event α → Prop}
    [∀ h s a, Decidable (G h s a)] {ks : List (Choice α)} {r : History α × State α}
    (h : playAll cap G ks = some r) : (machine α cap).RunOf G r.1 r.2 :=
  .play (fun _ _ _ _ => perform_step) (.start rfl) h

/-- The element at an end of a list. -/
def End.item : End → List α → Option α
  | .front, l => l.head?
  | .back, l => l.getLast?

/-- What a successful move does to the list the deque stands for. -/
def Call.apply : Call α → List α → List α
  | .push .front x, l => x :: l
  | .push .back x, l => l ++ [x]
  | .pop .front, l => l.tail
  | .pop .back, l => l.dropLast

def Event.apply : Event α → List α → List α
  | .moved c _, l => c.apply l
  | _, l => l

/-- The list obtained by applying the successful moves of a history in their
order. -/
def contents : History α → List α
  | [] => []
  | (_, e) :: h => e.apply (contents h)

/-- Slot `i` holds a committed item: the last move over it was a push. -/
def committed : History α → ℕ → Bool
  | [], _ => false
  | (_, .moved (.push _ _) j) :: h, i => i == j || committed h i
  | (_, .moved (.pop _) j) :: h, i => i != j && committed h i
  | _ :: h, i => committed h i

end Deque
