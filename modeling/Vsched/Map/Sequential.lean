import Vsched.Foundation.OrderedMap
import Vsched.Map.Memory

/-!
# The map used one call at a time

When no other call is in progress every slot is free or holds an entry whose
version is the one of the slot's word, whatever numbers the versions have come
to. The pairs in the slots are those of an ordered map of at most `CAPACITY`
keys, and every call does to them and returns what it does on that map.
-/

namespace BTreeMap

variable {K V : Type*} [LinearOrder K] {cap : ℕ}

/-- Phase 1 of an attempt of `insert`, over the slots in turn: the old value if a
slot with the key was updated. -/
def phase1 (key : K) (value : V) (insertVersion : ℕ) :
    List ℕ → Mem K V → Mem K V × Option V
  | [], m => (m, none)
  | i :: is, m =>
      match m.getVersionIfValid i, m.entry i with
      | some version, some entry =>
          if entry.key = key ∧ entry.slotVersion = version then
            match m.tryLockForDelete i with
            | some (lockedVersion, m') =>
                if lockedVersion = version then
                  ((m'.setEntry i ⟨key, value, insertVersion, insertVersion % u32⟩).markValid i
                    (insertVersion % u32), some entry.value)
                else
                  -- the `break` leaves the slots that follow to phase 2
                  (m'.markValid i lockedVersion, none)
            | none => phase1 key value insertVersion is m
          else phase1 key value insertVersion is m
      | _, _ => phase1 key value insertVersion is m

/-- Phase 2: the first empty slot takes the entry. -/
def phase2 (key : K) (value : V) (insertVersion : ℕ) : List ℕ → Mem K V → Option (Mem K V)
  | [], _ => none
  | i :: is, m =>
      match m.tryLockForWrite i (insertVersion % u32) with
      | some m' =>
          some (((m'.setEntry i ⟨key, value, insertVersion, insertVersion % u32⟩).markValid i
            (insertVersion % u32)).incLen)
      | none => phase2 key value insertVersion is m

/-- The attempts of `insert`. -/
def attempts (cap : ℕ) (key : K) (value : V) (insertVersion : ℕ) :
    ℕ → Mem K V → Mem K V × Option (Option V)
  | 0, m => (m, none)
  | retries + 1, m =>
      match phase1 key value insertVersion (List.range cap) m with
      | (m', some oldValue) => (m', some (some oldValue))
      | (m', none) =>
          match phase2 key value insertVersion (List.range cap) m' with
          | some m'' => (m'', some none)
          | none => attempts cap key value insertVersion retries m'

namespace Mem

def insert (cap : ℕ) (m : Mem K V) (key : K) (value : V) : Mem K V × Option (Option V) :=
  attempts cap key value m.globalVersion cap
    { m with globalVersion := (m.globalVersion + 1) % usize }

/-- What the scans of `first_key_value`, `pop_first` and `for_each` make of slot
`i`. -/
def candidate (m : Mem K V) (i : ℕ) : Option (Candidate K V) :=
  match m.getVersionIfValid i, m.entry i with
  | some version, some entry =>
      if entry.slotVersion = version ∧ m.getVersionIfValid i = some version then
        some ⟨entry.key, entry.value, entry.insertVersion, i, version⟩
      else none
  | _, _ => none

/-- The candidates of one scan. There is room for `CAPACITY` of them, and the scan
finds at most one in a slot. -/
def candidates (cap : ℕ) (m : Mem K V) : List (Candidate K V) :=
  Slots.contents cap m.candidate

def firstKeyValue (cap : ℕ) (m : Mem K V) : Option (K × V) :=
  (Candidate.findMin (m.candidates cap)).map fun c => (c.key, c.value)

end Mem

/-- The attempts of `pop_first`. -/
def popAttempts (cap : ℕ) : ℕ → Mem K V → Mem K V × Option (K × V)
  | 0, m => (m, none)
  | retries + 1, m =>
      match Candidate.findMin (m.candidates cap) with
      | none => (m, none)
      | some c =>
          match m.tryLockForDelete c.index with
          | none => popAttempts cap retries m
          | some (lockedVersion, m') =>
              match m'.entry c.index with
              | none => popAttempts cap retries (m'.markValid c.index lockedVersion)
              | some entry =>
                  if lockedVersion = c.slotVersion ∧ entry.key = c.key ∧
                      entry.insertVersion = c.insertVersion ∧
                      entry.slotVersion = lockedVersion then
                    ((m'.markEmpty c.index).decLen, some (entry.key, entry.value))
                  else popAttempts cap retries (m'.markValid c.index lockedVersion)

/-- `MAX_RETRIES` of `pop_first`. -/
def maxRetries : ℕ := 16

namespace Mem

def popFirst (cap : ℕ) (m : Mem K V) : Mem K V × Option (K × V) :=
  popAttempts cap maxRetries m

def isEmpty (m : Mem K V) : Bool := m.len == 0

/-- `exact_len`, which counts the valid slots. -/
def exactLen (cap : ℕ) (m : Mem K V) : ℕ :=
  (List.range cap).countP m.isValid

/-- The pairs `for_each` calls its function on. -/
def forEach (cap : ℕ) (m : Mem K V) : List (K × V) :=
  (m.candidates cap).map fun c => (c.key, c.value)

/-- The body of the loop of `clear`. -/
def clearSlot (m : Mem K V) (i : ℕ) : Mem K V :=
  match m.getVersionIfValid i with
  | none => m
  | some version =>
      match m.tryLockForDelete i with
      | none => m
      | some (lockedVersion, m') =>
          if lockedVersion = version then (m'.markEmpty i).decLen
          else m'.markValid i lockedVersion

def clear (cap : ℕ) (m : Mem K V) : Mem K V :=
  (List.range cap).foldl clearSlot m

end Mem

/-- The calls of a map. -/
inductive Op (K V : Type*)
  | insert (key : K) (value : V)
  | firstKeyValue
  | popFirst
  | len
  | exactLen
  | isEmpty
  | forEach
  | clear
  deriving DecidableEq, Repr

inductive Res (K V : Type*)
  | inserted (r : Option (Option V))
  | pair (r : Option (K × V))
  | count (n : ℕ)
  | flag (b : Bool)
  | visited (l : List (K × V))
  | done
  deriving DecidableEq, Repr

def Op.run (cap : ℕ) (m : Mem K V) : Op K V → Mem K V × Res K V
  | .insert key value => ((m.insert cap key value).1, .inserted (m.insert cap key value).2)
  | .firstKeyValue => (m, .pair (m.firstKeyValue cap))
  | .popFirst => ((m.popFirst cap).1, .pair (m.popFirst cap).2)
  | .len => (m, .count m.len)
  | .exactLen => (m, .count (m.exactLen cap))
  | .isEmpty => (m, .flag m.isEmpty)
  | .forEach => (m, .visited (m.forEach cap))
  | .clear => (m.clear cap, .done)

/-- Calls one after another, with their results. -/
def runOps (cap : ℕ) : List (Op K V) → Mem K V → Mem K V × List (Res K V)
  | [], m => (m, [])
  | o :: os, m =>
      let (m', r) := o.run cap m
      let (m'', rs) := runOps cap os m'
      (m'', r :: rs)

/-- The calls on an ordered map of at most `room` keys. -/
def Op.onMap (room : ℕ) (l : List (K × V)) : Op K V → List (K × V) × Res K V
  | .insert key value =>
      match OrderedMap.find key l with
      | some old => (OrderedMap.put key value l, .inserted (some (some old)))
      | none =>
          if l.length < room then (OrderedMap.put key value l, .inserted (some none))
          else (l, .inserted none)
  | .firstKeyValue => (l, .pair l.head?)
  | .popFirst => (l.tail, .pair l.head?)
  | .len => (l, .count l.length)
  | .exactLen => (l, .count l.length)
  | .isEmpty => (l, .flag l.isEmpty)
  | .forEach => (l, .visited l)
  | .clear => ([], .done)

def mapOps (room : ℕ) : List (Op K V) → List (K × V) → List (K × V) × List (Res K V)
  | [], l => (l, [])
  | o :: os, l =>
      let (l', r) := o.onMap room l
      let (l'', rs) := mapOps room os l'
      (l'', r :: rs)

/-- Two results agree: they are equal, or both visit the same pairs, each as often
as the other. -/
def Res.Agrees : Res K V → Res K V → Prop
  | .visited a, .visited b => a.Perm b
  | r, r' => r = r'

omit [LinearOrder K] in
theorem Res.Agrees.refl (r : Res K V) : r.Agrees r := by
  cases r with
  | visited l => exact List.Perm.refl l
  | _ => rfl

/-- No call is in progress and the map holds the pairs of `l`. -/
structure Rests (cap : ℕ) (l : List (K × V)) (m : Mem K V) : Prop where
  slots : ∀ i, i < cap → m.word i = .free ∨
    ∃ e, m.entry i = some e ∧ m.word i = ⟨e.slotVersion, .valid⟩
  pairs : (m.pairs cap).Perm l
  sorted : OrderedMap.Sorted l
  len : m.len = l.length

theorem Rests.new : Rests cap [] (Mem.new : Mem K V) where
  slots := fun _ _ => .inl rfl
  pairs := by
    have hheld : (Mem.new : Mem K V).held = fun _ => none := rfl
    rw [Mem.pairs, hheld]
    simp [Slots.contents]
  sorted := List.Pairwise.nil
  len := rfl

/-- Slot `i` holds an entry with the key. -/
def Mem.holds (m : Mem K V) (key : K) (i : ℕ) : Bool :=
  (m.held i).any fun e => decide (e.key = key)

namespace Rests

variable {l : List (K × V)} {m : Mem K V} {i j : ℕ} {e : Entry K V} {key : K} {value : V}
  {insertVersion : ℕ} {is : List ℕ}

theorem word_held (h : Rests cap l m) (hi : i < cap) (he : m.held i = some e) :
    m.entry i = some e ∧ m.word i = ⟨e.slotVersion, .valid⟩ := by
  rcases h.slots i hi with hfree | ⟨e', hentry, hword⟩
  · simp [Mem.held, Mem.isValid, hfree, Word.free] at he
  · have hee : e' = e := by simpa [Mem.held, Mem.isValid, hword, hentry] using he
    subst hee
    exact ⟨hentry, hword⟩

theorem word_free (h : Rests cap l m) (hi : i < cap) (he : m.held i = none) :
    m.word i = .free := by
  rcases h.slots i hi with hfree | ⟨e', hentry, hword⟩
  · exact hfree
  · simp [Mem.held, Mem.isValid, hword, hentry] at he

theorem version (h : Rests cap l m) (hi : i < cap) :
    m.getVersionIfValid i = (m.held i).map Entry.slotVersion := by
  cases he : m.held i with
  | none => simp [Mem.getVersionIfValid, h.word_free hi he, Word.free]
  | some e => simp [Mem.getVersionIfValid, (h.word_held hi he).2]

theorem lock_delete (h : Rests cap l m) (hi : i < cap) (he : m.held i = some e) :
    m.tryLockForDelete i = some (e.slotVersion, m.setWord i ⟨e.slotVersion, .deleting⟩) := by
  simp [Mem.tryLockForDelete, Mem.compareExchange, (h.word_held hi he).2]

theorem lock_write (h : Rests cap l m) (hi : i < cap) (v : ℕ) :
    m.tryLockForWrite i v =
      if (m.held i).isNone then some (m.setWord i ⟨v, .writing⟩) else none := by
  cases he : m.held i with
  | none => simp [Mem.tryLockForWrite, Mem.compareExchange, h.word_free hi he]
  | some e =>
      simp [Mem.tryLockForWrite, Mem.compareExchange, (h.word_held hi he).2, Word.free]

/-- Phase 1 updates the first slot that holds the key. -/
theorem phase1 (h : Rests cap l m) (his : ∀ i ∈ is, i < cap) :
    phase1 key value insertVersion is m =
      match is.find? (m.holds key) with
      | none => (m, none)
      | some i => (m.fill i ⟨key, value, insertVersion, insertVersion % u32⟩,
          (m.held i).map Entry.value) := by
  induction is with
  | nil => rfl
  | cons i is ih =>
      have hi := his i List.mem_cons_self
      have hrest := ih fun j hj => his j (List.mem_cons_of_mem _ hj)
      cases he : m.held i with
      | none =>
          have hmiss : m.holds key i = false := by simp [Mem.holds, he]
          simp only [BTreeMap.phase1, h.version hi, he, Option.map_none, hrest,
            List.find?_cons, hmiss]
      | some e =>
          obtain ⟨hentry, -⟩ := h.word_held hi he
          by_cases hkey : e.key = key
          · have hhit : m.holds key i = true := by simp [Mem.holds, he, hkey]
            simp only [BTreeMap.phase1, h.version hi, he, Option.map_some, hentry, hkey,
              h.lock_delete hi he, List.find?_cons, hhit, and_self, if_true]
            rw [← Mem.setWord_fill]
          · have hmiss : m.holds key i = false := by simp [Mem.holds, he, hkey]
            simp only [BTreeMap.phase1, h.version hi, he, Option.map_some, hentry, hkey,
              false_and, if_false, hrest, List.find?_cons, hmiss]

/-- Phase 2 fills the first free slot. -/
theorem phase2 (h : Rests cap l m) (his : ∀ i ∈ is, i < cap) :
    phase2 key value insertVersion is m =
      (is.find? fun i => (m.held i).isNone).map fun i =>
        (m.fill i ⟨key, value, insertVersion, insertVersion % u32⟩).incLen := by
  induction is with
  | nil => rfl
  | cons i is ih =>
      have hi := his i List.mem_cons_self
      have hrest := ih fun j hj => his j (List.mem_cons_of_mem _ hj)
      cases he : (m.held i).isNone with
      | false =>
          simp only [BTreeMap.phase2, h.lock_write hi, he, Bool.false_eq_true, if_false, hrest,
            List.find?_cons]
      | true =>
          simp only [BTreeMap.phase2, h.lock_write hi, he, if_true, List.find?_cons,
            Option.map_some]
          rw [← Mem.setWord_fill]

theorem length_eq (h : Rests cap l m) : (Slots.contents cap m.held).length = l.length := by
  rw [← h.pairs.length_eq, Mem.pairs, List.length_map]

/-- The keys in the slots are all different. -/
theorem keys_nodup (h : Rests cap l m) :
    ((Slots.contents cap m.held).map Entry.key).Nodup := by
  have hkeys : (Slots.contents cap m.held).map Entry.key = (m.pairs cap).map Prod.fst := by
    rw [Mem.pairs, List.map_map]
    rfl
  rw [hkeys, (h.pairs.map Prod.fst).nodup_iff]
  exact h.sorted.keys_nodup

theorem mem_iff (h : Rests cap l m) {p : K × V} :
    p ∈ l ↔ ∃ i < cap, ∃ e, m.held i = some e ∧ e.pair = p := by
  rw [← h.pairs.mem_iff, Mem.pairs, List.mem_map]
  simp only [Slots.mem_contents]
  constructor
  · rintro ⟨e, ⟨i, hi, he⟩, hp⟩
    exact ⟨i, hi, e, he, hp⟩
  · rintro ⟨i, hi, e, he, hp⟩
    exact ⟨e, ⟨i, hi, he⟩, hp⟩

/-- A key of the map is found in the one slot that holds it. -/
theorem find_present (h : Rests cap l m) {old : V} (hfind : OrderedMap.find key l = some old) :
    ∃ i < cap, (List.range cap).find? (m.holds key) = some i ∧
      ∃ e, m.held i = some e ∧ e.key = key ∧ e.value = old := by
  obtain ⟨i, hi, e, he, hpair⟩ := h.mem_iff.mp (OrderedMap.find_mem hfind)
  obtain ⟨hkey, hvalue⟩ := Prod.mk.inj hpair
  have hhit : m.holds key i = true := by simp [Mem.holds, he, hkey]
  cases hslot : (List.range cap).find? (m.holds key) with
  | none =>
      rw [List.find?_eq_none] at hslot
      exact absurd hhit (hslot i (List.mem_range.mpr hi))
  | some j =>
      have hj : j < cap := List.mem_range.mp (List.mem_of_find?_eq_some hslot)
      obtain ⟨e', he', hkey'⟩ : ∃ e', m.held j = some e' ∧ e'.key = key := by
        simpa [Mem.holds, Option.any_eq_true] using List.find?_some hslot
      have hij : j = i := Slots.contents_inj h.keys_nodup hj hi he' he (by rw [hkey, hkey'])
      subst hij
      exact ⟨j, hj, rfl, e, he, hkey, hvalue⟩

theorem find_absent (h : Rests cap l m) (hfind : OrderedMap.find key l = none) :
    (List.range cap).find? (m.holds key) = none := by
  rw [List.find?_eq_none]
  intro i hi hhit
  obtain ⟨e, he, hkey⟩ : ∃ e, m.held i = some e ∧ e.key = key := by
    simpa [Mem.holds, Option.any_eq_true] using hhit
  have hmem := h.mem_iff.mpr ⟨i, List.mem_range.mp hi, e, he, rfl⟩
  exact OrderedMap.find_eq_none.mp hfind _ hmem hkey

/-- Refilling a slot with an entry of the key it held. -/
theorem replace (h : Rests cap l m) (hi : i < cap) (he : m.held i = some e)
    (hfind : OrderedMap.find e.key l = some e.value) (value : V) (insertVersion v : ℕ) :
    Rests cap (OrderedMap.put e.key value l)
      (m.fill i ⟨e.key, value, insertVersion, v⟩) where
  slots := by
    intro j hj
    by_cases hji : j = i
    · subst hji
      exact .inr ⟨_, Function.update_self _ _ _, Function.update_self _ _ _⟩
    · simpa [Mem.fill, Mem.setEntry, Mem.markValid, Mem.setWord, hji] using h.slots j hj
  pairs := by
    have hslots := (Slots.contents_refill (x := (⟨e.key, value, insertVersion, v⟩ : Entry K V))
      hi he).map Entry.pair
    have hput := OrderedMap.put_present (v := value) h.sorted hfind
    rw [Mem.pairs, Mem.held_fill]
    refine List.Perm.cons_inv (a := (e.key, e.value)) ?_
    calc List.Perm (e.pair :: (Slots.contents cap (Function.update m.held i
            (some ⟨e.key, value, insertVersion, v⟩))).map Entry.pair)
          ((e.key, value) :: m.pairs cap) := hslots
      List.Perm _ ((e.key, value) :: l) := h.pairs.cons _
      List.Perm _ ((e.key, e.value) :: OrderedMap.put e.key value l) := hput.symm
  sorted := h.sorted.put
  len := by
    have hput := (OrderedMap.put_present (v := value) h.sorted hfind).length_eq
    simp only [List.length_cons, Nat.add_right_cancel_iff] at hput
    rw [hput]
    exact h.len

theorem len_lt (h : Rests cap l m) (hcap : cap < usize) : m.len < usize := by
  have hle := Slots.contents_length_le (n := cap) (f := m.held)
  rw [h.length_eq, ← h.len] at hle
  omega

/-- Filling a free slot with an entry of a new key. -/
theorem add (h : Rests cap l m) (hcap : cap < usize) (hi : i < cap) (he : m.held i = none)
    (hfind : OrderedMap.find key l = none) (value : V) (insertVersion v : ℕ) :
    Rests cap (OrderedMap.put key value l)
      (m.fill i ⟨key, value, insertVersion, v⟩).incLen where
  slots := by
    intro j hj
    by_cases hji : j = i
    · subst hji
      exact .inr ⟨_, Function.update_self _ _ _, Function.update_self _ _ _⟩
    · simpa [Mem.incLen, Mem.fill, Mem.setEntry, Mem.markValid, Mem.setWord, hji] using
        h.slots j hj
  pairs := by
    have hslots := (Slots.contents_fill (x := (⟨key, value, insertVersion, v⟩ : Entry K V))
      hi he).map Entry.pair
    rw [Mem.pairs, Mem.held_incLen, Mem.held_fill]
    calc List.Perm _ ((key, value) :: m.pairs cap) := hslots
      List.Perm _ ((key, value) :: l) := h.pairs.cons _
      List.Perm _ (OrderedMap.put key value l) := (OrderedMap.put_absent hfind).symm
  sorted := h.sorted.put
  len := by
    have hlt : l.length < cap := by
      rw [← h.length_eq]
      exact Slots.contents_length_lt.mpr ⟨i, hi, he⟩
    rw [(OrderedMap.put_absent hfind).length_eq, List.length_cons, ← h.len]
    change (m.len + 1) % usize = m.len + 1
    rw [← h.len] at hlt
    exact Nat.mod_eq_of_lt (by omega)

/-- Giving out a number for an insertion does not touch the pairs. -/
theorem number (h : Rests cap l m) (n : ℕ) : Rests cap l { m with globalVersion := n } :=
  ⟨h.slots, h.pairs, h.sorted, h.len⟩

theorem attempts_none (h : Rests cap l m)
    (hmiss : (List.range cap).find? (m.holds key) = none)
    (hfull : ∀ i, i < cap → m.held i ≠ none) (n : ℕ) :
    attempts cap key value insertVersion n m = (m, none) := by
  have hrange : ∀ i ∈ List.range cap, i < cap := fun i hi => List.mem_range.mp hi
  have hnone : (List.range cap).find? (fun i => (m.held i).isNone) = none := by
    rw [List.find?_eq_none]
    intro i hi
    simpa using hfull i (List.mem_range.mp hi)
  induction n with
  | zero => rfl
  | succ n ih => simp only [attempts, h.phase1 hrange, hmiss, h.phase2 hrange, hnone,
      Option.map_none, ih]

/-- `insert` does and returns what it does on the map. -/
theorem insert (h : Rests cap l m) (hcap : cap < usize) (key : K) (value : V) :
    Res.inserted (m.insert cap key value).2 = ((Op.insert key value).onMap cap l).2 ∧
      Rests cap ((Op.insert key value).onMap cap l).1 (m.insert cap key value).1 := by
  have hrange : ∀ i ∈ List.range cap, i < cap := fun i hi => List.mem_range.mp hi
  have hnum := h.number ((m.globalVersion + 1) % usize)
  cases hfind : OrderedMap.find key l with
  | some old =>
      obtain ⟨i, hi, hslot, e, he, rfl, rfl⟩ := hnum.find_present hfind
      obtain ⟨n, rfl⟩ : ∃ n, cap = n + 1 := ⟨cap - 1, by omega⟩
      have hrep := hnum.replace hi he hfind value m.globalVersion (m.globalVersion % u32)
      simp only [Mem.insert, attempts, hnum.phase1 hrange, hslot, he, Option.map_some, Op.onMap,
        hfind, true_and]
      exact hrep
  | none =>
      have hmiss := hnum.find_absent hfind
      have hlen := h.length_eq
      by_cases hroom : l.length < cap
      · have hexists : ∃ i < cap, m.held i = none := by
          rw [← Slots.contents_length_lt, hlen]
          exact hroom
        obtain ⟨i₀, hi₀, hfree₀⟩ := hexists
        obtain ⟨n, rfl⟩ : ∃ n, cap = n + 1 := ⟨cap - 1, by omega⟩
        cases hslot : (List.range (n + 1)).find? (fun i =>
            (Mem.held { m with globalVersion := (m.globalVersion + 1) % usize } i).isNone) with
        | none =>
            rw [List.find?_eq_none] at hslot
            have hheld := hslot i₀ (List.mem_range.mpr hi₀)
            change ¬ (m.held i₀).isNone = true at hheld
            exact absurd (by rw [hfree₀]; rfl) hheld
        | some i =>
            have hi : i < n + 1 := List.mem_range.mp (List.mem_of_find?_eq_some hslot)
            have hfree := List.find?_some hslot
            have hadd := hnum.add hcap hi (by simpa using hfree) hfind value m.globalVersion
              (m.globalVersion % u32)
            simp only [Mem.insert, attempts, hnum.phase1 hrange, hmiss, hnum.phase2 hrange,
              hslot, Option.map_some, Op.onMap, hfind, if_pos hroom, true_and]
            exact hadd
      · have hfull : ∀ i, i < cap → m.held i ≠ none := by
          intro i hi hfree
          refine hroom ?_
          rw [← hlen]
          exact Slots.contents_length_lt.mpr ⟨i, hi, hfree⟩
        simp only [Mem.insert, hnum.attempts_none hmiss hfull, Op.onMap, hfind, if_neg hroom,
          true_and]
        exact hnum

/-- A scan copies the entries that the slots hold. -/
theorem candidate (h : Rests cap l m) (hi : i < cap) :
    m.candidate i = (m.held i).map fun e =>
      ⟨e.key, e.value, e.insertVersion, i, e.slotVersion⟩ := by
  cases he : m.held i with
  | none => simp [Mem.candidate, h.version hi, he]
  | some e => simp [Mem.candidate, h.version hi, he, (h.word_held hi he).1]

theorem candidates_map (h : Rests cap l m) :
    (m.candidates cap).map (fun c => (c.key, c.value)) = m.pairs cap := by
  rw [Mem.candidates, Mem.pairs, ← Slots.contents_map, ← Slots.contents_map]
  refine Slots.contents_congr ?_
  intro i hi
  rw [h.candidate hi, Option.map_map]
  rfl

/-- The least candidate is the entry at the head of the map. -/
theorem findMin (h : Rests cap l m) {c : Candidate K V}
    (hc : Candidate.findMin (m.candidates cap) = some c) :
    c.index < cap ∧ l.head? = some (c.key, c.value) ∧
      m.held c.index = some ⟨c.key, c.value, c.insertVersion, c.slotVersion⟩ := by
  obtain ⟨hmem, hle⟩ := Candidate.findMin_some hc
  obtain ⟨i, hi, hcand⟩ := Slots.mem_contents.mp hmem
  rw [h.candidate hi, Option.map_eq_some_iff] at hcand
  obtain ⟨e, he, rfl⟩ := hcand
  refine ⟨hi, h.sorted.head_eq ?_ ?_, he⟩
  · exact h.mem_iff.mpr ⟨i, hi, e, he, rfl⟩
  · intro q hq
    have hq' : q ∈ (m.candidates cap).map fun c => (c.key, c.value) := by
      rw [h.candidates_map]
      exact h.pairs.mem_iff.mpr hq
    obtain ⟨d, hd, rfl⟩ := List.mem_map.mp hq'
    exact hle d hd

theorem findMin_none (h : Rests cap l m)
    (hc : Candidate.findMin (m.candidates cap) = none) : l = [] := by
  rw [Candidate.findMin_eq_none] at hc
  have hpairs := h.candidates_map
  rw [hc, List.map_nil] at hpairs
  have hperm := h.pairs
  rw [← hpairs] at hperm
  exact List.nil_perm.mp hperm

theorem firstKeyValue (h : Rests cap l m) : m.firstKeyValue cap = l.head? := by
  unfold Mem.firstKeyValue
  cases hc : Candidate.findMin (m.candidates cap) with
  | none => rw [h.findMin_none hc]; rfl
  | some c => rw [(h.findMin hc).2.1]; rfl

/-- Emptying a slot takes its pair out of the map. -/
theorem remove {l' : List (K × V)} (h : Rests cap l m) (hcap : cap < usize) (hi : i < cap)
    (he : m.held i = some e) (hperm : l.Perm (e.pair :: l')) (hsort : OrderedMap.Sorted l') :
    Rests cap l' (m.markEmpty i).decLen where
  slots := by
    intro j hj
    by_cases hji : j = i
    · subst hji
      exact .inl (Function.update_self _ _ _)
    · simpa [Mem.decLen, Mem.markEmpty, Mem.setWord, hji] using h.slots j hj
  pairs := by
    have hslots := (Slots.contents_empty hi he).map Entry.pair
    rw [Mem.pairs, Mem.held_decLen, Mem.held_markEmpty]
    refine List.Perm.cons_inv (a := e.pair) ?_
    exact (hslots.symm.trans h.pairs).trans hperm
  sorted := hsort
  len := by
    have hlen := h.len
    rw [hperm.length_eq, List.length_cons] at hlen
    have hlt := h.len_lt hcap
    change (m.len + (usize - 1)) % usize = l'.length
    have hpos : m.len + (usize - 1) = l'.length + usize := by omega
    rw [hpos, Nat.add_mod_right]
    exact Nat.mod_eq_of_lt (by omega)

/-- `pop_first` succeeds at its first attempt. -/
theorem popAttempts (h : Rests cap l m) (hcap : cap < usize) (n : ℕ) :
    (popAttempts cap (n + 1) m).2 = l.head? ∧
      Rests cap l.tail (popAttempts cap (n + 1) m).1 := by
  cases hc : Candidate.findMin (m.candidates cap) with
  | none =>
      have hnil := h.findMin_none hc
      subst hnil
      simp only [BTreeMap.popAttempts, hc]
      exact ⟨rfl, h⟩
  | some c =>
      obtain ⟨hi, hhead, he⟩ := h.findMin hc
      obtain ⟨hentry, -⟩ := h.word_held hi he
      have hlock := h.lock_delete hi he
      obtain ⟨l', rfl⟩ : ∃ l', l = (c.key, c.value) :: l' := by
        cases l with
        | nil => cases hhead
        | cons p l' => exact ⟨l', by rw [← Option.some.inj hhead]⟩
      have hsame : (m.setWord c.index ⟨c.slotVersion, .deleting⟩).entry c.index =
          some ⟨c.key, c.value, c.insertVersion, c.slotVersion⟩ := hentry
      simp only [BTreeMap.popAttempts, hc, hlock, hsame, and_self, if_true, Mem.setWord_markEmpty]
      exact ⟨rfl, h.remove hcap hi he (List.Perm.refl _) h.sorted.tail⟩

theorem popFirst (h : Rests cap l m) (hcap : cap < usize) :
    (m.popFirst cap).2 = l.head? ∧ Rests cap l.tail (m.popFirst cap).1 :=
  h.popAttempts hcap 15

theorem exactLen (h : Rests cap l m) : m.exactLen cap = l.length := by
  have hvalid : ∀ i, i < cap → m.isValid i = (m.held i).isSome := by
    intro i hi
    rcases h.slots i hi with hfree | ⟨e, hentry, hword⟩
    · simp [Mem.isValid, Mem.held, hfree, Word.free]
    · simp [Mem.isValid, Mem.held, hentry, hword]
  rw [Mem.exactLen, Slots.countP_range hvalid, h.length_eq]

theorem isEmpty (h : Rests cap l m) : m.isEmpty = l.isEmpty := by
  rw [Mem.isEmpty, h.len]
  cases l <;> rfl

theorem forEach (h : Rests cap l m) : (m.forEach cap).Perm l := by
  rw [Mem.forEach, h.candidates_map]
  exact h.pairs

/-- Clearing slot `i` takes its pair out, if it holds one. -/
theorem clearSlot (h : Rests cap l m) (hcap : cap < usize) (hi : i < cap) :
    ∃ l', Rests cap l' (m.clearSlot i) ∧ (m.clearSlot i).held = Function.update m.held i none := by
  cases he : m.held i with
  | none =>
      have hsame : m.clearSlot i = m := by simp [Mem.clearSlot, h.version hi, he]
      rw [hsame]
      refine ⟨l, h, ?_⟩
      rw [← he, Function.update_eq_self]
  | some e =>
      have hstep : m.clearSlot i = (m.markEmpty i).decLen := by
        simp [Mem.clearSlot, h.version hi, he, h.lock_delete hi he, Mem.setWord_markEmpty]
      have hmem := h.mem_iff.mpr ⟨i, hi, e, he, rfl⟩
      obtain ⟨l₁, l₂, rfl⟩ := List.append_of_mem hmem
      rw [hstep]
      refine ⟨l₁ ++ l₂, h.remove hcap hi he List.perm_middle ?_, ?_⟩
      · exact h.sorted.sublist ((List.sublist_cons_self _ _).append_left _)
      · rw [Mem.held_decLen, Mem.held_markEmpty]

theorem clear (h : Rests cap l m) (hcap : cap < usize) : Rests cap [] (m.clear cap) := by
  have hloop : ∀ n, n ≤ cap → ∃ l', Rests cap l' ((List.range n).foldl Mem.clearSlot m) ∧
      ∀ i, i < n → ((List.range n).foldl Mem.clearSlot m).held i = none := by
    intro n
    induction n with
    | zero => exact fun _ => ⟨l, h, fun i hi => by omega⟩
    | succ n ih =>
        intro hn
        obtain ⟨l', hrest, hfree⟩ := ih (by omega)
        obtain ⟨l'', hrest', hheld⟩ := hrest.clearSlot hcap (show n < cap by omega)
        rw [List.range_succ, List.foldl_append]
        refine ⟨l'', hrest', ?_⟩
        intro i hi
        change (Mem.clearSlot _ n).held i = none
        rw [hheld]
        by_cases hin : i = n
        · rw [hin, Function.update_self]
        · rw [Function.update_of_ne hin]
          exact hfree i (by omega)
  obtain ⟨l', hrest, hfree⟩ := hloop cap (le_refl cap)
  have hnil : l' = [] := by
    rw [← List.length_eq_zero_iff, ← hrest.length_eq, List.length_eq_zero_iff,
      Slots.contents_congr hfree]
    simp [Slots.contents]
  rw [← hnil]
  exact hrest

/-- Every call returns what it returns on the map, and leaves the map it leaves. -/
theorem run (h : Rests cap l m) (hcap : cap < usize) (o : Op K V) :
    (o.run cap m).2.Agrees (o.onMap cap l).2 ∧ Rests cap (o.onMap cap l).1 (o.run cap m).1 := by
  cases o with
  | insert key value =>
      obtain ⟨hres, hrest⟩ := h.insert hcap key value
      refine ⟨?_, hrest⟩
      change (Res.inserted (m.insert cap key value).2).Agrees _
      rw [hres]
      exact Res.Agrees.refl _
  | firstKeyValue => exact ⟨congrArg Res.pair h.firstKeyValue, h⟩
  | popFirst =>
      obtain ⟨hres, hrest⟩ := h.popFirst hcap
      exact ⟨congrArg Res.pair hres, hrest⟩
  | len => exact ⟨congrArg Res.count h.len, h⟩
  | exactLen => exact ⟨congrArg Res.count h.exactLen, h⟩
  | isEmpty => exact ⟨congrArg Res.flag h.isEmpty, h⟩
  | forEach => exact ⟨h.forEach, h⟩
  | clear => exact ⟨rfl, h.clear hcap⟩

theorem runOps (h : Rests cap l m) (hcap : cap < usize) (os : List (Op K V)) :
    List.Forall₂ Res.Agrees (runOps cap os m).2 (mapOps cap os l).2 ∧
      Rests cap (mapOps cap os l).1 (runOps cap os m).1 := by
  induction os generalizing l m with
  | nil => exact ⟨.nil, h⟩
  | cons o os ih =>
      obtain ⟨hres, hrest⟩ := h.run hcap o
      obtain ⟨hress, hrests⟩ := ih hrest
      exact ⟨.cons hres hress, hrests⟩

end Rests

/-- Calls run one after another, however many, return what they return on an ordered
map of at most `CAPACITY` keys, and leave its pairs in the slots. -/
theorem ordered_map (hcap : cap < usize) (os : List (Op K V)) :
    List.Forall₂ Res.Agrees (runOps cap os Mem.new).2 (mapOps cap os []).2 ∧
      ((runOps cap os Mem.new).1.pairs cap).Perm (mapOps cap os []).1 ∧
      OrderedMap.Sorted (mapOps cap os ([] : List (K × V))).1 := by
  obtain ⟨hres, hrest⟩ := Rests.new.runOps hcap os
  exact ⟨hres, hrest.pairs, hrest.sorted⟩

/-- A map of three slots refuses a fourth key and still updates the ones it holds. -/
theorem ordered_map_three : List.Forall₂ Res.Agrees
    (runOps 3 [.insert 1 10, .insert 3 30, .insert 2 20, .insert 4 40, .insert 2 21, .forEach,
      .popFirst, .len] (Mem.new : Mem ℕ ℕ)).2
    [.inserted (some none), .inserted (some none), .inserted (some none), .inserted none,
      .inserted (some (some 20)), .visited [(1, 10), (2, 21), (3, 30)], .pair (some (1, 10)),
      .count 2] :=
  (ordered_map (by norm_num [usize]) _).1

end BTreeMap
