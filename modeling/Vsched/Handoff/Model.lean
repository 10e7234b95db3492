import Mathlib.Tactic

/-!
# Handing tasks from one CPU to another

What scheduling does to a task, and nothing else: its state, its `on_cpu` flag,
the ready queues, and the current and previous task of each CPU. Everything a
CPU executes between two of these moves is hidden behind its role. A task's
*places* are the CPUs and queues that may bring it to run next; the rules of
this model are meant to keep a task in at most one place.
-/

namespace Handoff

/-- `TaskState`. -/
inductive TaskState
  | running
  | ready
  | blocked
  | exited
  deriving DecidableEq, Repr

/-- A task that a CPU is waking: its state is `Ready` already, but it is in no
ready queue yet. -/
inductive Wake (τ : Type*)
  | none
  /-- Waits until the task is on no CPU. -/
  | spinning (u : τ)
  | passed (u : τ)
  deriving DecidableEq, Repr

/-- What a CPU does, as far as scheduling is concerned. -/
inductive Role (τ : Type*)
  | off
  /-- Executes for its current task. The task is `seated` until it has yielded,
  blocked or exited. -/
  | work (seated : Bool) (w : Wake τ)
  /-- The current task is `Ready` again and goes back to the queue. -/
  | yielding
  | chosen (n : τ)
  | starting (n : τ)
  | claimed (n : τ)
  deriving DecidableEq, Repr

structure Core (κ τ : Type*) where
  state : τ → TaskState
  onCpu : τ → Bool
  current : κ → τ
  idle : κ → τ
  /-- The slot `prev_task`; `none` is the uninitialised one. -/
  prev : κ → Option τ
  ready : κ → List τ
  role : κ → Role τ
  created : τ → Bool

/-- The hand-off moves. -/
inductive Move (τ : Type*)
  | stay
  | boot
  | spawn
  | yield
  | requeue
  | leave (st : TaskState)
  | wake
  | pass
  | enqueue
  | pick
  | start
  | claim
  | switch
  | clear (x : Option τ)
  | reblock (u : τ)

variable {κ τ : Type*} [DecidableEq κ] [DecidableEq τ]

namespace Core

@[simps -fullyApplied]
def setState (k : Core κ τ) (t : τ) (st : TaskState) : Core κ τ :=
  { k with state := Function.update k.state t st }

@[simps -fullyApplied]
def setOnCpu (k : Core κ τ) (t : τ) (b : Bool) : Core κ τ :=
  { k with onCpu := Function.update k.onCpu t b }

@[simps -fullyApplied]
def setCurrent (k : Core κ τ) (c : κ) (t : τ) : Core κ τ :=
  { k with current := Function.update k.current c t }

@[simps -fullyApplied]
def setPrev (k : Core κ τ) (c : κ) (x : Option τ) : Core κ τ :=
  { k with prev := Function.update k.prev c x }

@[simps -fullyApplied]
def setReady (k : Core κ τ) (c : κ) (l : List τ) : Core κ τ :=
  { k with ready := Function.update k.ready c l }

@[simps -fullyApplied]
def setRole (k : Core κ τ) (c : κ) (r : Role τ) : Core κ τ :=
  { k with role := Function.update k.role c r }

/-- CPU `c` starts with the boot task `m` and the idle task `i`, which may be
one task. -/
@[simps -fullyApplied]
def boot (k : Core κ τ) (c : κ) (m i : τ) : Core κ τ where
  state := Function.update (Function.update k.state i .ready) m .running
  onCpu := Function.update (Function.update k.onCpu i false) m true
  current := Function.update k.current c m
  idle := Function.update k.idle c i
  prev := Function.update k.prev c (some m)
  ready := Function.update k.ready c []
  role := Function.update k.role c (.work true .none)
  created := Function.update (Function.update k.created i true) m true

/-- A new task. -/
@[simps -fullyApplied]
def create (k : Core κ τ) (t : τ) : Core κ τ :=
  { k with
    state := Function.update k.state t .ready
    onCpu := Function.update k.onCpu t false
    created := Function.update k.created t true }

/-- Clears the flag of the task a resume point has taken, if there is one. -/
def clearOnCpu (k : Core κ τ) : Option τ → Core κ τ
  | none => k
  | some x => k.setOnCpu x false

end Core

/-- The moves of CPU `c`. Which tasks are idle tasks is fixed. -/
inductive Step (isIdle : τ → Bool) : Core κ τ → κ → Move τ → Core κ τ → Prop
  /-- What does not concern the hand-off. -/
  | stay {k : Core κ τ} {c : κ} : Step isIdle k c .stay k
  | boot {k : Core κ τ} {c : κ} {m i : τ} :
      k.role c = .off → k.created m = false → k.created i = false → isIdle i = true →
      Step isIdle k c .boot (k.boot c m i)
  | spawn {k : Core κ τ} {c d : κ} {t : τ} {l l' : List τ} :
      k.created t = false → isIdle t = false → k.ready d = l ++ l' →
      Step isIdle k c .spawn ((k.create t).setReady d (l ++ t :: l'))
  | yield {k : Core κ τ} {c : κ} :
      k.role c = .work true .none → isIdle (k.current c) = false →
      k.state (k.current c) = .running →
      Step isIdle k c .yield ((k.setState (k.current c) .ready).setRole c .yielding)
  | yieldIdle {k : Core κ τ} {c : κ} :
      k.role c = .work true .none → isIdle (k.current c) = true →
      k.state (k.current c) = .running →
      Step isIdle k c .yield
        ((k.setState (k.current c) .ready).setRole c (.work false .none))
  /-- A yield that finds its task no longer `Running`. -/
  | yieldFail {k : Core κ τ} {c : κ} :
      k.role c = .work true .none → k.state (k.current c) ≠ .running →
      Step isIdle k c .yield (k.setRole c (.work false .none))
  | requeue {k : Core κ τ} {c : κ} {l l' : List τ} :
      k.role c = .yielding → k.ready c = l ++ l' →
      Step isIdle k c .requeue
        ((k.setReady c (l ++ k.current c :: l')).setRole c (.work false .none))
  /-- The current task blocks or exits. -/
  | leave {k : Core κ τ} {c : κ} {st : TaskState} :
      k.role c = .work true .none → isIdle (k.current c) = false →
      st = .blocked ∨ st = .exited →
      Step isIdle k c (.leave st)
        ((k.setState (k.current c) st).setRole c (.work false .none))
  | wake {k : Core κ τ} {c : κ} {seated : Bool} {u : τ} :
      k.role c = .work seated .none → k.state u = .blocked →
      Step isIdle k c .wake
        ((k.setState u .ready).setRole c (.work seated (.spinning u)))
  /-- An idle task is not put into a queue. -/
  | wakeIdle {k : Core κ τ} {c : κ} {seated : Bool} {u : τ} :
      k.role c = .work seated .none → k.state u = .blocked → isIdle u = true →
      Step isIdle k c .wake (k.setState u .ready)
  | pass {k : Core κ τ} {c : κ} {seated : Bool} {u : τ} :
      k.role c = .work seated (.spinning u) → k.onCpu u = false →
      Step isIdle k c .pass (k.setRole c (.work seated (.passed u)))
  | enqueue {k : Core κ τ} {c : κ} {seated : Bool} {u : τ} {l l' : List τ} :
      k.role c = .work seated (.passed u) → k.ready c = l ++ l' →
      Step isIdle k c .enqueue
        ((k.setReady c (l ++ u :: l')).setRole c (.work seated .none))
  | pick {k : Core κ τ} {c : κ} {n : τ} {l l' : List τ} :
      k.role c = .work false .none → k.ready c = l ++ n :: l' →
      Step isIdle k c .pick ((k.setReady c (l ++ l')).setRole c (.chosen n))
  | pickIdle {k : Core κ τ} {c : κ} :
      k.role c = .work false .none → k.ready c = [] →
      Step isIdle k c .pick (k.setRole c (.chosen (k.idle c)))
  | start {k : Core κ τ} {c : κ} {n : τ} :
      k.role c = .chosen n →
      Step isIdle k c .start ((k.setState n .running).setRole c
        (if n = k.current c then .work true .none else .starting n))
  | claim {k : Core κ τ} {c : κ} {n : τ} :
      k.role c = .starting n →
      Step isIdle k c .claim ((k.setOnCpu n true).setRole c (.claimed n))
  | switch {k : Core κ τ} {c : κ} {n : τ} :
      k.role c = .claimed n →
      Step isIdle k c .switch
        (((k.setPrev c (some (k.current c))).setCurrent c n).setRole c
          (.work true .none))
  /-- A resume point empties the slot; what it finds in an empty slot is
  arbitrary. -/
  | clear {k : Core κ τ} {c : κ} {x : Option τ} :
      k.role c = .work true .none → (∀ y, k.prev c = some y → x = some y) →
      Step isIdle k c (.clear x) ((k.clearOnCpu x).setPrev c none)
  /-- A task that has left the CPU is marked as blocked. -/
  | reblock {k : Core κ τ} {c : κ} {u : τ} :
      k.role c = .work true .none → u ≠ k.current c → isIdle u = false →
      Step isIdle k c (.reblock u)
        ((k.setState u .blocked).setRole c (.work false .none))

/-- The places of a task. -/
inductive Place (κ : Type*)
  | seat (c : κ)
  | yielding (c : κ)
  | chosen (c : κ)
  | started (c : κ)
  | waking (c : κ)
  | ready (c : κ)
  deriving DecidableEq, Repr

def Role.waking : Role τ → Option τ
  | .work _ (.spinning u) => some u
  | .work _ (.passed u) => some u
  | _ => none

/-- Task `t` is at a place. -/
def At (k : Core κ τ) (t : τ) : Place κ → Prop
  | .seat c => (∃ w, k.role c = .work true w) ∧ k.current c = t
  | .yielding c => k.role c = .yielding ∧ k.current c = t
  | .chosen c => k.role c = .chosen t
  | .started c => k.role c = .starting t ∨ k.role c = .claimed t
  | .waking c => (k.role c).waking = some t
  | .ready c => t ∈ k.ready c

/-- The states a task may be in at a place. -/
def Place.Allows (st : TaskState) : Place κ → Prop
  | .seat _ => st = .running
  | .yielding _ => st = .ready
  | .chosen _ => st = .running ∨ st = .ready
  | .started _ => st = .running
  | .waking _ => st = .ready
  | .ready _ => st = .ready

def Place.cpu : Place κ → κ
  | .seat c => c
  | .yielding c => c
  | .chosen c => c
  | .started c => c
  | .waking c => c
  | .ready c => c

/-- The tasks of `P` are each in at most one place, once, and in a state that
belongs to it. -/
structure Placed (isIdle : τ → Bool) (P : τ → Prop) (k : Core κ τ) : Prop where
  unique : ∀ t p q, P t → At k t p → At k t q → p = q
  once : ∀ t c, P t → (k.ready c).count t ≤ 1
  fits : ∀ t p, P t → At k t p → p.Allows (k.state t)
  /-- The idle task of a CPU is at no place of another one and in no queue. -/
  idle : ∀ c p, k.role c ≠ .off → At k (k.idle c) p →
    p = .seat c ∨ p = .chosen c ∨ p = .started c
  idleState : ∀ c, k.role c ≠ .off →
    k.state (k.idle c) = .running ∨ k.state (k.idle c) = .ready
  made : ∀ t p, P t → At k t p → k.created t = true
  fresh : ∀ t, P t → k.state t = .blocked → k.created t = true
  idleMade : ∀ c, k.role c ≠ .off →
    k.created (k.idle c) = true ∧ isIdle (k.idle c) = true
  idleOwn : ∀ c d, k.role c ≠ .off → k.role d ≠ .off → k.idle c = k.idle d → c = d

end Handoff
