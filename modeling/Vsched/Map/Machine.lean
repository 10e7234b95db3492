import Vsched.Foundation.Labelled
import Vsched.Map.Memory

/-!
# The lock-free map as a machine of atomic steps

`insert`, `pop_first` and `clear` of any number of threads, interleaved at every
access to a slot's word or entry and to the two counters. `insert` looks for its
key in the slots in turn, locks the slot it finds and overwrites the entry; if
it finds none it claims an empty slot. `pop_first` copies the valid entries, locks
the slot of the least one and takes the entry out if it is still the one it has
copied. `clear` locks and empties one slot after another.
-/

namespace BTreeMap

/-- The calls that change the map. -/
inductive Call (K V : Type*)
  | insert (key : K) (value : V)
  | popFirst
  | clear
  deriving DecidableEq, Repr

inductive Ret (K V : Type*)
  | inserted (key : K) (value : V) (r : Option (Option V))
  | popped (r : Option (K × V))
  | cleared
  deriving DecidableEq, Repr

/-- An `insert` in progress, with the attempts it has left. -/
structure Ins (K V : Type*) where
  key : K
  value : V
  insertVersion : ℕ
  retries : ℕ
  deriving DecidableEq, Repr

namespace Ins

variable {K V : Type*}

def slotVersion (x : Ins K V) : ℕ := x.insertVersion % u32

/-- The entry an `insert` writes. -/
def entry (x : Ins K V) : Entry K V := ⟨x.key, x.value, x.insertVersion, x.slotVersion⟩

end Ins

/-- What a thread locks a slot for: to update the entry it found there under its
key, to pop a candidate with so many attempts left, or to clear it. -/
inductive Job (K V : Type*)
  | update (x : Ins K V) (i version : ℕ)
  | pop (retries : ℕ) (c : Candidate K V)
  | clear (i version : ℕ)
  deriving DecidableEq, Repr

namespace Job

variable {K V : Type*}

def slot : Job K V → ℕ
  | .update _ i _ => i
  | .pop _ c => c.index
  | .clear i _ => i

/-- The version the locked slot is to have. -/
def version : Job K V → ℕ
  | .update _ _ version => version
  | .pop _ c => c.slotVersion
  | .clear _ version => version

end Job

/-- Who empties a slot: a `pop_first` with the pair it returns, or `clear`. -/
inductive Exit (K V : Type*)
  | pop (p : K × V)
  | clear (i : ℕ)
  deriving DecidableEq, Repr

/-- Where a thread stands: outside any call, or in front of the next access of its
call. -/
inductive Pc (K V : Type*)
  | idle
  | enter (c : Call K V)
  /-- Phase 1 loads the word of slot `i`. -/
  | look (x : Ins K V) (i : ℕ)
  /-- Phase 1 reads the entry of slot `i`. -/
  | peek (x : Ins K V) (i version : ℕ)
  /-- `try_lock_for_delete` loads the word. -/
  | lock (j : Job K V)
  /-- `try_lock_for_delete` compares and swaps the word. -/
  | cas (j : Job K V) (current : Word)
  /-- Reads the old value under the lock. -/
  | fetch (x : Ins K V) (i : ℕ)
  | rewrite (x : Ins K V) (i : ℕ) (oldValue : V)
  /-- `mark_valid` after an update. -/
  | republish (x : Ins K V) (i : ℕ) (oldValue : V)
  /-- Returns the old value. -/
  | updated (x : Ins K V) (oldValue : V)
  /-- Phase 2 claims slot `i`. -/
  | claim (x : Ins K V) (i : ℕ)
  | write (x : Ins K V) (i : ℕ)
  /-- `mark_valid` after phase 2. -/
  | publish (x : Ins K V) (i : ℕ)
  /-- `len.fetch_add`. -/
  | count (x : Ins K V)
  /-- The scan of `pop_first` loads the word of slot `i`. -/
  | scan (retries i : ℕ) (cs : List (Candidate K V))
  /-- Reads the entry's version. -/
  | check (retries i version : ℕ) (cs : List (Candidate K V))
  /-- Loads the word again. -/
  | recheck (retries i version : ℕ) (cs : List (Candidate K V))
  /-- Copies the entry. -/
  | copy (retries i version : ℕ) (cs : List (Candidate K V))
  /-- Reads the entry under the lock. -/
  | verify (retries : ℕ) (c : Candidate K V)
  /-- `mark_valid` with the version that was locked. -/
  | restore (j : Job K V) (lockedVersion : ℕ)
  /-- `mark_empty`. -/
  | vacate (i : ℕ) (x : Exit K V)
  /-- `len.fetch_sub`. -/
  | uncount (x : Exit K V)
  /-- `clear` loads the word of slot `i`. -/
  | sweep (i : ℕ)
  deriving DecidableEq, Repr

/-- What a step shows to an observer. -/
inductive Event (K V : Type*)
  | call (c : Call K V)
  /-- Slot `i` becomes valid with a new entry. -/
  | stored (i : ℕ) (p : K × V)
  /-- Slot `i` is locked for good: its entry will be taken out. -/
  | took (i : ℕ)
  /-- Slot `i`, which held `p`, becomes empty. -/
  | freed (i : ℕ) (p : Option (K × V))
  | ret (r : Ret K V)
  | silent
  deriving DecidableEq, Repr

section Control

variable {K V : Type*} [LinearOrder K]

/-- Phase 1 goes on behind slot `i`. -/
def lookNext (cap : ℕ) (x : Ins K V) (i : ℕ) : Pc K V :=
  if i + 1 < cap then .look x (i + 1) else .claim x 0

/-- The next attempt of `insert`. -/
def insertRetry (x : Ins K V) : Pc K V × Event K V :=
  match x.retries with
  | 0 => (.idle, .ret (.inserted x.key x.value none))
  | retries + 1 => (.look { x with retries := retries } 0, .silent)

/-- Phase 2 goes on behind slot `i`. -/
def claimNext (cap : ℕ) (x : Ins K V) (i : ℕ) : Pc K V × Event K V :=
  if i + 1 < cap then (.claim x (i + 1), .silent) else insertRetry x

/-- The scan of `pop_first` goes on at slot `i`, or it is over. -/
def scanFrom (cap retries i : ℕ) (cs : List (Candidate K V)) : Pc K V × Event K V :=
  if i < cap then (.scan retries i cs, .silent)
  else match Candidate.findMin cs with
    | none => (.idle, .ret (.popped none))
    | some c => (.lock (.pop retries c), .silent)

/-- The next attempt of `pop_first`. -/
def popRetry (cap : ℕ) : ℕ → Pc K V × Event K V
  | 0 => (.idle, .ret (.popped none))
  | retries + 1 => scanFrom cap retries 0 []

def sweepFrom (cap i : ℕ) : Pc K V × Event K V :=
  if i < cap then (.sweep i, .silent) else (.idle, .ret .cleared)

/-- `try_lock_for_delete` has returned `None`. -/
def Job.refused (cap : ℕ) : Job K V → Pc K V × Event K V
  | .update x i _ => (lookNext cap x i, .silent)
  | .pop retries _ => popRetry cap retries
  | .clear i _ => sweepFrom cap (i + 1)

/-- The slot has been given back. -/
def Job.restored (cap : ℕ) : Job K V → Pc K V × Event K V
  -- the `break` of phase 1 leads to phase 2 of the same attempt
  | .update x _ _ => (.claim x 0, .silent)
  | .pop retries _ => popRetry cap retries
  | .clear i _ => sweepFrom cap (i + 1)

/-- The slot is locked with the version `lockedVersion`. -/
def Job.locked (j : Job K V) (lockedVersion : ℕ) : Pc K V :=
  if lockedVersion = j.version then
    match j with
    | .update x i _ => .fetch x i
    | .pop retries c => .verify retries c
    | .clear i _ => .vacate i (.clear i)
  else .restore j lockedVersion

/-- The candidate is the entry, as far as `pop_first` compares them. -/
def Candidate.Matches (c : Candidate K V) (e : Entry K V) : Prop :=
  e.key = c.key ∧ e.insertVersion = c.insertVersion ∧ e.slotVersion = c.slotVersion

instance (c : Candidate K V) (e : Entry K V) : Decidable (c.Matches e) :=
  inferInstanceAs (Decidable (_ ∧ _ ∧ _))

/-- The entry of a slot locked with the version `lockedVersion` will be taken out. -/
def Job.takes (j : Job K V) (lockedVersion : ℕ) (e : Option (Entry K V)) : Prop :=
  lockedVersion = j.version ∧
    match j, e with
    | .pop _ c, some e => c.Matches e
    | .clear _ _, some _ => True
    | _, _ => False

instance (j : Job K V) (lockedVersion : ℕ) (e : Option (Entry K V)) :
    Decidable (j.takes lockedVersion e) :=
  match j, e with
  | .pop _ c, some e => inferInstanceAs (Decidable (_ ∧ c.Matches e))
  | .clear _ _, some _ => inferInstanceAs (Decidable (_ ∧ True))
  | .update _ _ _, _ => inferInstanceAs (Decidable (_ ∧ False))
  | .pop _ _, none => inferInstanceAs (Decidable (_ ∧ False))
  | .clear _ _, none => inferInstanceAs (Decidable (_ ∧ False))

/-- One access of a call. -/
def tick (cap : ℕ) (m : Mem K V) : Pc K V → Mem K V × Pc K V × Event K V
  | .idle => (m, .idle, .silent)
  | .enter (.insert key value) =>
      ({ m with globalVersion := (m.globalVersion + 1) % usize },
        insertRetry ⟨key, value, m.globalVersion, cap⟩)
  | .enter .popFirst => (m, popRetry cap 16)
  | .enter .clear => (m, sweepFrom cap 0)
  | .look x i =>
      match m.getVersionIfValid i with
      | some version => (m, .peek x i version, .silent)
      | none => (m, lookNext cap x i, .silent)
  | .peek x i version =>
      match m.entry i with
      | some e =>
          if e.key = x.key ∧ e.slotVersion = version then
            (m, .lock (.update x i version), .silent)
          else (m, lookNext cap x i, .silent)
      | none => (m, lookNext cap x i, .silent)
  | .lock j =>
      if (m.word j.slot).state = .valid then (m, .cas j (m.word j.slot), .silent)
      else (m, j.refused cap)
  | .cas j current =>
      if m.word j.slot = current then
        (m.setWord j.slot ⟨current.version, .deleting⟩, j.locked current.version,
          if j.takes current.version (m.entry j.slot) then .took j.slot else .silent)
      else (m, j.refused cap)
  | .fetch x i =>
      match m.entry i with
      | some e => (m, .rewrite x i e.value, .silent)
      | none => (m, .fetch x i, .silent)
  | .rewrite x i oldValue => (m.setEntry i x.entry, .republish x i oldValue, .silent)
  | .republish x i oldValue =>
      (m.markValid i x.slotVersion, .updated x oldValue, .stored i (x.key, x.value))
  | .updated x oldValue =>
      (m, .idle, .ret (.inserted x.key x.value (some (some oldValue))))
  | .claim x i =>
      if m.word i = .free then
        (m.setWord i ⟨x.slotVersion, .writing⟩, .write x i, .silent)
      else (m, claimNext cap x i)
  | .write x i => (m.setEntry i x.entry, .publish x i, .silent)
  | .publish x i => (m.markValid i x.slotVersion, .count x, .stored i (x.key, x.value))
  | .count x => (m.incLen, .idle, .ret (.inserted x.key x.value (some none)))
  | .scan retries i cs =>
      match m.getVersionIfValid i with
      | some version => (m, .check retries i version cs, .silent)
      | none => (m, scanFrom cap retries (i + 1) cs)
  | .check retries i version cs =>
      match m.entry i with
      | some e =>
          if e.slotVersion = version then (m, .recheck retries i version cs, .silent)
          else (m, scanFrom cap retries (i + 1) cs)
      | none => (m, scanFrom cap retries (i + 1) cs)
  | .recheck retries i version cs =>
      if m.getVersionIfValid i = some version then (m, .copy retries i version cs, .silent)
      else (m, scanFrom cap retries (i + 1) cs)
  | .copy retries i version cs =>
      match m.entry i with
      | some e =>
          (m, scanFrom cap retries (i + 1)
            (cs ++ [⟨e.key, e.value, e.insertVersion, i, version⟩]))
      | none => (m, scanFrom cap retries (i + 1) cs)
  | .verify retries c =>
      match m.entry c.index with
      | some e =>
          if c.Matches e then (m, .vacate c.index (.pop (e.key, e.value)), .silent)
          else (m, .restore (.pop retries c) c.slotVersion, .silent)
      | none => (m, .restore (.pop retries c) c.slotVersion, .silent)
  | .restore j lockedVersion => (m.markValid j.slot lockedVersion, j.restored cap)
  | .vacate i x => (m.markEmpty i, .uncount x, .freed i ((m.entry i).map Entry.pair))
  | .uncount (.pop p) => (m.decLen, .idle, .ret (.popped (some p)))
  | .uncount (.clear i) => (m.decLen, sweepFrom cap (i + 1))
  | .sweep i =>
      match m.getVersionIfValid i with
      | some version => (m, .lock (.clear i version), .silent)
      | none => (m, sweepFrom cap (i + 1))

end Control

/-- A map shared by threads numbered by `ℕ`. -/
structure State (K V : Type*) where
  mem : Mem K V
  pc : ℕ → Pc K V

/-- No thread is in a call and the map is new. -/
def State.init {K V : Type*} : State K V := ⟨Mem.new, fun _ => .idle⟩

section Machine

variable {K V : Type*} [LinearOrder K]

/-- A thread enters a call, or makes the next access of the call it is in. -/
inductive Step (cap : ℕ) : State K V → ℕ × Event K V → State K V → Prop
  | call {s : State K V} {t : ℕ} {c : Call K V} :
      s.pc t = .idle →
      Step cap s (t, .call c) ⟨s.mem, Function.update s.pc t (.enter c)⟩
  | tick {s : State K V} {t : ℕ} :
      s.pc t ≠ .idle →
      Step cap s (t, (tick cap s.mem (s.pc t)).2.2)
        ⟨(tick cap s.mem (s.pc t)).1, Function.update s.pc t (tick cap s.mem (s.pc t)).2.1⟩

/-- The map of capacity `cap` under every interleaving. -/
def machine (K V : Type*) [LinearOrder K] (cap : ℕ) :
    Labelled.System (State K V) (ℕ × Event K V) where
  start := fun s => s = State.init
  step := Step cap

/-- What a scheduler of threads may choose next. -/
inductive Choice (K V : Type*)
  | invoke (t : ℕ) (c : Call K V)
  | access (t : ℕ)

/-- The next `n` accesses of thread `t`. -/
def goes (t n : ℕ) : List (Choice ℕ ℕ) :=
  List.replicate n (.access t)

/-- The step a choice leads to. -/
def perform (cap : ℕ) (s : State K V) :
    Choice K V → Option ((ℕ × Event K V) × State K V)
  | .invoke t c =>
      match s.pc t with
      | .idle => some ((t, .call c), ⟨s.mem, Function.update s.pc t (.enter c)⟩)
      | _ => none
  | .access t =>
      match s.pc t with
      | .idle => none
      | p =>
          let r := tick cap s.mem p
          some ((t, r.2.2), ⟨r.1, Function.update s.pc t r.2.1⟩)

theorem perform_step {cap : ℕ} {s s' : State K V} {k : Choice K V} {a : ℕ × Event K V}
    (h : perform cap s k = some (a, s')) : Step cap s a s' := by
  cases k with
  | invoke t c =>
      cases hpc : s.pc t <;> simp only [perform, hpc] at h <;> cases h
      exact .call hpc
  | access t =>
      have hbusy : s.pc t ≠ .idle := by
        intro hidle
        simp [perform, hidle] at h
      have hstep : Step cap s _ _ := .tick hbusy
      cases hpc : s.pc t <;> simp only [perform, hpc] at h <;> cases h <;>
        simpa only [hpc] using hstep

/-- A history of the machine, newest label first. -/
abbrev History (K V : Type*) := List (ℕ × Event K V)

/-- The run that a list of choices leads to, if its steps meet the guard. -/
def playAll (cap : ℕ) (G : History K V → State K V → ℕ × Event K V → Prop)
    [∀ h s a, Decidable (G h s a)] (ks : List (Choice K V)) :
    Option (History K V × State K V) :=
  Labelled.play (perform cap) G ks [] State.init

theorem playAll_run {cap : ℕ} {G : History K V → State K V → ℕ × Event K V → Prop}
    [∀ h s a, Decidable (G h s a)] {ks : List (Choice K V)} {r : History K V × State K V}
    (h : playAll cap G ks = some r) : (machine K V cap).RunOf G r.1 r.2 :=
  .play (fun _ _ _ _ => perform_step) (.start rfl) h

/-- A thread that has made no step is in no call. -/
theorem idle_of_untouched {cap t : ℕ} {G : History K V → State K V → ℕ × Event K V → Prop}
    {h : History K V} {s : State K V} (hrun : (machine K V cap).RunOf G h s)
    (hout : ∀ a ∈ h, a.1 ≠ t) : s.pc t = .idle := by
  induction hrun with
  | start hs =>
      cases hs
      rfl
  | next _ _ hstep ih =>
      have hprev := ih fun a ha => hout a (List.mem_cons_of_mem _ ha)
      have hne := hout _ List.mem_cons_self
      cases hstep with
      | call _ => simpa [hne.symm] using hprev
      | tick _ => simpa [hne.symm] using hprev

end Machine

/-- The pair a slot holds from the moment its word becomes valid until it becomes
empty. -/
def cells {K V : Type*} : History K V → ℕ → Option (K × V)
  | [], _ => none
  | (_, .stored j p) :: h, i => if i = j then some p else cells h i
  | (_, .freed j _) :: h, i => if i = j then none else cells h i
  | _ :: h, i => cells h i

/-- The pair a slot adds to the map: it is out of the map once its slot is locked
for good. -/
def live {K V : Type*} : History K V → ℕ → Option (K × V)
  | [], _ => none
  | (_, .stored j p) :: h, i => if i = j then some p else live h i
  | (_, .took j) :: h, i => if i = j then none else live h i
  | _ :: h, i => live h i

end BTreeMap
