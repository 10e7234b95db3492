import Mathlib.Tactic
import Vsched.Foundation.Slots

/-!
# The memory of the lock-free map

`LockFreeBTreeMap` keeps its entries in `CAPACITY` unordered slots. Next to each
slot stands an atomic word that packs the slot's state and the version of its
entry; a counter numbers the insertions and another one counts the entries. The
slots are locked through compare-and-swaps on their words, and the least entry
is found among candidates copied out of the slots.
-/

namespace BTreeMap

/-- The number of values of a `u32`. -/
def u32 : ℕ := 2 ^ 32

/-- The number of values of a `usize`. -/
def usize : ℕ := 2 ^ 64

/-- `STATE_EMPTY`, `STATE_WRITING`, `STATE_VALID` and `STATE_DELETING`. -/
inductive SlotState
  | empty
  | writing
  | valid
  | deleting
  deriving DecidableEq, Repr

def SlotState.code : SlotState → ℕ
  | .empty => 0
  | .writing => 1
  | .valid => 2
  | .deleting => 3

/-- What a slot's atomic word holds: the version in its upper 32 bits, the state in
its lower ones. -/
structure Word where
  version : ℕ
  state : SlotState
  deriving DecidableEq, Repr

/-- `state_and_version` as one number. -/
def Word.pack (w : Word) : ℕ := w.version <<< 32 ||| w.state.code

theorem SlotState.code_lt (st : SlotState) : st.code < 2 ^ 32 := by
  cases st <;> decide

theorem Word.pack_eq (w : Word) : w.pack = w.version * u32 + w.state.code := by
  rw [pack, ← Nat.shiftLeft_add_eq_or_of_lt w.state.code_lt, Nat.shiftLeft_eq, u32]

/-- Two words that are packed alike are one, so a compare-and-swap on the number
compares version and state. -/
theorem Word.pack_inj {v w : Word} : v.pack = w.pack ↔ v = w := by
  refine ⟨?_, fun h => h ▸ rfl⟩
  intro h
  rw [pack_eq, pack_eq, u32] at h
  have hv := v.state.code_lt
  have hw := w.state.code_lt
  have hver : v.version = w.version := by omega
  have hcode : v.state.code = w.state.code := by omega
  obtain ⟨version, st⟩ := v
  obtain ⟨version', st'⟩ := w
  cases st <;> cases st' <;> simp_all [SlotState.code]

/-- A word that fits its two halves fits a `usize`. -/
theorem Word.pack_lt {w : Word} (h : w.version < u32) : w.pack < usize := by
  have hcode := w.state.code_lt
  rw [pack_eq]
  simp only [u32, usize] at h ⊢
  omega

structure Entry (K V : Type*) where
  key : K
  value : V
  insertVersion : ℕ
  slotVersion : ℕ
  deriving DecidableEq, Repr

/-- The shared memory of a map. Slots are read at indices below `CAPACITY` only;
`none` is the uninitialised `MaybeUninit`. -/
structure Mem (K V : Type*) where
  word : ℕ → Word
  entry : ℕ → Option (Entry K V)
  len : ℕ
  globalVersion : ℕ

/-- A word of an empty slot. -/
def Word.free : Word := ⟨0, .empty⟩

namespace Mem

variable {K V : Type*}

/-- `LockFreeBTreeMap::new`. -/
def new : Mem K V where
  word := fun _ => .free
  entry := fun _ => none
  len := 0
  globalVersion := 1

def setWord (m : Mem K V) (i : ℕ) (w : Word) : Mem K V :=
  { m with word := Function.update m.word i w }

def setEntry (m : Mem K V) (i : ℕ) (e : Entry K V) : Mem K V :=
  { m with entry := Function.update m.entry i (some e) }

/-- `compare_exchange` on the word of slot `i`. -/
def compareExchange (m : Mem K V) (i : ℕ) (current desired : Word) : Option (Mem K V) :=
  if m.word i = current then some (m.setWord i desired) else none

def getVersionIfValid (m : Mem K V) (i : ℕ) : Option ℕ :=
  if (m.word i).state = .valid then some (m.word i).version else none

def isValid (m : Mem K V) (i : ℕ) : Bool :=
  (m.word i).state == .valid

def tryLockForWrite (m : Mem K V) (i newVersion : ℕ) : Option (Mem K V) :=
  m.compareExchange i .free ⟨newVersion, .writing⟩

/-- `try_lock_for_delete`, nothing happening between its load and its
compare-and-swap. -/
def tryLockForDelete (m : Mem K V) (i : ℕ) : Option (ℕ × Mem K V) :=
  let current := m.word i
  if current.state ≠ .valid then none
  else (m.compareExchange i current ⟨current.version, .deleting⟩).map
    fun m' => (current.version, m')

def markValid (m : Mem K V) (i version : ℕ) : Mem K V :=
  m.setWord i ⟨version, .valid⟩

def markEmpty (m : Mem K V) (i : ℕ) : Mem K V :=
  m.setWord i .free

/-- `len.fetch_add(1)`. -/
def incLen (m : Mem K V) : Mem K V :=
  { m with len := (m.len + 1) % usize }

/-- `len.fetch_sub(1)`. -/
def decLen (m : Mem K V) : Mem K V :=
  { m with len := (m.len + (usize - 1)) % usize }

end Mem

def Entry.pair {K V : Type*} (e : Entry K V) : K × V := (e.key, e.value)

namespace Mem

variable {K V : Type*}

/-- The entry a slot holds, if its word says that it is valid. -/
def held (m : Mem K V) (i : ℕ) : Option (Entry K V) :=
  if m.isValid i then m.entry i else none

/-- The pairs in the slots. -/
def pairs (cap : ℕ) (m : Mem K V) : List (K × V) :=
  (Slots.contents cap m.held).map Entry.pair

/-- Slot `i` holds the entry `e`. -/
def fill (m : Mem K V) (i : ℕ) (e : Entry K V) : Mem K V :=
  (m.setEntry i e).markValid i e.slotVersion

variable {m : Mem K V} {i : ℕ} {w : Word} {e : Entry K V}

theorem getVersionIfValid_eq_some {version : ℕ} :
    m.getVersionIfValid i = some version ↔ m.word i = ⟨version, .valid⟩ := by
  unfold getVersionIfValid
  obtain ⟨v, st⟩ := m.word i
  cases st <;> simp

theorem setWord_fill : ((m.setWord i w).setEntry i e).markValid i e.slotVersion = m.fill i e := by
  simp [fill, setWord, setEntry, markValid]

theorem setWord_markEmpty : (m.setWord i w).markEmpty i = m.markEmpty i := by
  simp [setWord, markEmpty]

theorem held_fill : (m.fill i e).held = Function.update m.held i (some e) := by
  funext j
  by_cases hj : j = i
  · subst hj
    simp [held, fill, isValid, setEntry, markValid, setWord]
  · simp [held, fill, isValid, setEntry, markValid, setWord, hj]

theorem held_markEmpty : (m.markEmpty i).held = Function.update m.held i none := by
  funext j
  by_cases hj : j = i
  · subst hj
    simp [held, isValid, markEmpty, setWord, Word.free]
  · simp [held, isValid, markEmpty, setWord, hj]

theorem decLen_slots (m : Mem K V) : m.decLen.word = m.word ∧ m.decLen.entry = m.entry := by
  unfold decLen
  exact ⟨rfl, rfl⟩

@[simp] theorem held_incLen : m.incLen.held = m.held := rfl

@[simp] theorem held_decLen : m.decLen.held = m.held := by
  funext j
  unfold held isValid decLen
  rfl

end Mem

/-- A copy of an entry, with the slot it was found in and the version that slot
had. -/
structure Candidate (K V : Type*) where
  key : K
  value : V
  insertVersion : ℕ
  index : ℕ
  slotVersion : ℕ
  deriving DecidableEq, Repr

namespace Candidate

variable {K V : Type*} [LinearOrder K] {c d : Candidate K V} {cs : List (Candidate K V)}

/-- The order of the closures of `first_key_value` and `pop_first`. -/
def cmp (a b : Candidate K V) : Ordering :=
  match compare a.key b.key with
  | .eq => compare a.insertVersion b.insertVersion
  | other => other

/-- The step of the loop of `find_min_by`. -/
def lesser (minCandidate candidate : Candidate K V) : Candidate K V :=
  if candidate.cmp minCandidate = .lt then candidate else minCandidate

/-- `find_min_by` over the candidates pushed so far. -/
def findMin : List (Candidate K V) → Option (Candidate K V)
  | [] => none
  | c :: cs => some (cs.foldl lesser c)

theorem lesser_le_left : (lesser c d).key ≤ c.key := by
  unfold lesser cmp
  split_ifs with h
  · cases hkey : compare d.key c.key with
    | lt => exact le_of_lt (compare_lt_iff_lt.mp hkey)
    | eq => exact le_of_eq (compare_eq_iff_eq.mp hkey)
    | gt => simp [hkey] at h
  · exact le_refl _

theorem lesser_le_right : (lesser c d).key ≤ d.key := by
  unfold lesser cmp
  split_ifs with h
  · exact le_refl _
  · by_contra hlt
    have hkey := compare_lt_iff_lt.mpr (not_le.mp hlt)
    simp [hkey] at h

theorem lesser_mem : lesser c d = c ∨ lesser c d = d := by
  unfold lesser
  split_ifs
  · exact .inr rfl
  · exact .inl rfl

theorem foldl_lesser : cs.foldl lesser c ∈ c :: cs ∧
    ∀ d ∈ c :: cs, (cs.foldl lesser c).key ≤ d.key := by
  induction cs generalizing c with
  | nil => simp
  | cons d cs ih =>
      obtain ⟨hmem, hle⟩ := ih (c := lesser c d)
      have hfirst := hle (lesser c d) List.mem_cons_self
      rw [List.foldl_cons]
      constructor
      · rcases List.mem_cons.mp hmem with heq | hmem
        · rw [heq]
          rcases lesser_mem (c := c) (d := d) with h | h <;> rw [h] <;> simp
        · simp [hmem]
      · intro e he
        rcases List.mem_cons.mp he with rfl | he
        · exact hfirst.trans lesser_le_left
        · rcases List.mem_cons.mp he with rfl | he
          · exact hfirst.trans lesser_le_right
          · exact hle e (List.mem_cons_of_mem _ he)

/-- The candidate found is one of the candidates, and none has a smaller key. -/
theorem findMin_some (h : findMin cs = some c) : c ∈ cs ∧ ∀ d ∈ cs, c.key ≤ d.key := by
  cases cs with
  | nil => cases h
  | cons d cs =>
      simp only [findMin, Option.some.injEq] at h
      subst h
      exact foldl_lesser

@[simp] theorem findMin_eq_none : findMin cs = none ↔ cs = [] := by
  cases cs <;> simp [findMin]

end Candidate

end BTreeMap
