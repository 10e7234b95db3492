import Mathlib.Algebra.BigOperators.Intervals
import Vsched.Map.Invariant

/-!
# The length counter against the entries

Of all the accesses of a call a few matter for the account: an entry is put into a
slot, or taken out, and the counter follows each of these by one more access. All
others leave the account alone.
-/

namespace BTreeMap

variable {K V : Type*}

/-- The pair that a thread is about to store. -/
def Pc.pending : Pc K V → Option (K × V)
  | .enter (.insert key value) => some (key, value)
  | .look x _ => some x.entry.pair
  | .peek x _ _ => some x.entry.pair
  | .lock j => j.pending
  | .cas j _ => j.pending
  | .restore j _ => j.pending
  | .fetch x _ => some x.entry.pair
  | .rewrite x _ _ => some x.entry.pair
  | .republish x _ _ => some x.entry.pair
  | .claim x _ => some x.entry.pair
  | .write x _ => some x.entry.pair
  | .publish x _ => some x.entry.pair
  | _ => none

/-- By how much the counter will still be changed for what the thread has done. -/
def Pc.owes : Pc K V → ℤ
  | .count _ => 1
  | .uncount _ => -1
  | _ => 0

/-- An event within a call that neither puts an entry into a slot nor takes one out,
nor reports that this has been done. -/
def Event.Minor : Event K V → Prop
  | .call _ => False
  | .stored _ _ => False
  | .freed _ _ => False
  | .ret (.inserted _ _ (some none)) => False
  | .ret (.popped (some _)) => False
  | _ => True

/-- An access that leaves the account alone. -/
structure Minor (p : Pc K V) (r : Pc K V × Event K V) : Prop where
  event : r.2.Minor
  owes : p.owes = 0
  owes' : r.1.owes = 0
  kept : ∀ q, r.1.pending = some q → p.pending = some q
  failed : ∀ k v, r.2 = .ret (.inserted k v none) → p.pending = some (k, v) ∧ r.1.pending = none

theorem Minor.silent {p p' : Pc K V} (howes : p.owes = 0) (howes' : p'.owes = 0)
    (hpending : p'.pending = p.pending) : Minor p (p', .silent) where
  event := trivial
  owes := howes
  owes' := howes'
  kept := fun _ hq => hpending.symm.trans hq
  failed := fun _ _ ha => by cases ha

theorem Onward.minor {cap : ℕ} {p : Pc K V} {r : Pc K V × Event K V}
    (h : Onward cap p.pending r) (howes : p.owes = 0) : Minor p r := by
  generalize ho : p.pending = o at h
  cases h with
  | failed x =>
      refine ⟨trivial, howes, rfl, (fun _ hq => by cases hq), ?_⟩
      rintro k v ⟨⟩
      exact ⟨ho, rfl⟩
  | look x hi => exact .silent howes rfl ho.symm
  | claim x hi => exact .silent howes rfl ho.symm
  | nothing => exact ⟨trivial, howes, rfl, (fun _ hq => by cases hq), fun _ _ ha => by cases ha⟩
  | scan hi hcs => exact .silent howes rfl ho.symm
  | lock hc => exact .silent howes rfl ho.symm
  | cleared => exact ⟨trivial, howes, rfl, (fun _ hq => by cases hq), fun _ _ ha => by cases ha⟩
  | sweep hi => exact .silent howes rfl ho.symm

/-- What an access of a thread at `p` does to the account. -/
inductive Turn (cap : ℕ) (m : Mem K V) : Pc K V → Mem K V → Pc K V × Event K V → Prop
  | minor {p : Pc K V} {m' : Mem K V} {r : Pc K V × Event K V} (hlen : m'.len = m.len)
      (hminor : Minor p r) : Turn cap m p m' r
  | stored (x : Ins K V) (i : ℕ) :
      Turn cap m (.publish x i) (m.markValid i x.slotVersion)
        (.count x, .stored i x.entry.pair)
  | updated (x : Ins K V) (i : ℕ) (oldValue : V) :
      Turn cap m (.republish x i oldValue) (m.markValid i x.slotVersion)
        (.updated x oldValue, .stored i x.entry.pair)
  | counted (x : Ins K V) :
      Turn cap m (.count x) m.incLen (.idle, .ret (.inserted x.key x.value (some none)))
  | freed (i : ℕ) (x : Exit K V) :
      Turn cap m (.vacate i x) (m.markEmpty i)
        (.uncount x, .freed i ((m.entry i).map Entry.pair))
  | uncounted (p : K × V) :
      Turn cap m (.uncount (.pop p)) m.decLen (.idle, .ret (.popped (some p)))
  | cleared (i : ℕ) {r : Pc K V × Event K V} (honward : Onward cap none r) :
      Turn cap m (.uncount (.clear i)) m.decLen r

theorem Job.locked_pending {j : Job K V} {lockedVersion : ℕ} :
    (j.locked lockedVersion).pending = j.pending := by
  unfold locked
  cases j <;> split <;> rfl

theorem Job.locked_owes {j : Job K V} {lockedVersion : ℕ} : (j.locked lockedVersion).owes = 0 := by
  unfold locked
  cases j <;> split <;> rfl

section

variable {cap : ℕ} {m m' : Mem K V} {p : Pc K V}

theorem Turn.onward {r : Pc K V × Event K V} (hlen : m'.len = m.len)
    (h : Onward cap p.pending r) (howes : p.owes = 0) : Turn cap m p m' r :=
  .minor hlen (h.minor howes)

namespace Turn

variable {r : Pc K V × Event K V}

theorem not_call (h : Turn cap m p m' r) (c : Call K V) : r.2 ≠ .call c := by
  intro ha
  cases h with
  | minor _ hminor =>
      have hevent := hminor.event
      rw [ha] at hevent
      exact hevent
  | stored x i => cases ha
  | updated x i v => cases ha
  | counted x => cases ha
  | freed i x => cases ha
  | uncounted p => cases ha
  | cleared i honward => cases honward <;> cases ha

theorem kept (h : Turn cap m p m' r) {q : K × V} (hq : r.1.pending = some q) :
    p.pending = some q := by
  cases h with
  | minor _ hminor => exact hminor.kept q hq
  | stored x i => cases hq
  | updated x i v => cases hq
  | counted x => cases hq
  | freed i x => cases hq
  | uncounted p => cases hq
  | cleared i honward => exact (honward.minor (p := .idle) rfl).kept q hq

/-- A thread stores the pair it was about to store. -/
theorem stored_pending (h : Turn cap m p m' r) {i : ℕ} {q : K × V} (ha : r.2 = .stored i q) :
    p.pending = some q ∧ r.1.pending = none := by
  cases h with
  | minor _ hminor =>
      have hevent := hminor.event
      rw [ha] at hevent
      exact hevent.elim
  | stored x j =>
      cases ha
      exact ⟨rfl, rfl⟩
  | updated x j v =>
      cases ha
      exact ⟨rfl, rfl⟩
  | counted x => cases ha
  | freed j x => cases ha
  | uncounted p => cases ha
  | cleared j honward =>
      have hevent := (honward.minor (p := .idle) rfl).event
      rw [ha] at hevent
      exact hevent.elim

/-- A thread counts an entry right after it has stored it. -/
theorem count_stored (h : Turn cap m p m' r) {x : Ins K V} (hr : r.1 = .count x) :
    ∃ i, r.2 = .stored i x.entry.pair := by
  cases h with
  | minor _ hminor =>
      have howes := hminor.owes'
      rw [hr] at howes
      cases howes
  | stored x i =>
      cases hr
      exact ⟨i, rfl⟩
  | updated x i v => cases hr
  | counted x => cases hr
  | freed i x => cases hr
  | uncounted p => cases hr
  | cleared i honward =>
      have howes := (honward.minor (p := .idle) rfl).owes'
      rw [hr] at howes
      cases howes

/-- An `insert` that reports a new entry has counted it. -/
theorem inserted_count (h : Turn cap m p m' r) {k : K} {v : V}
    (ha : r.2 = .ret (.inserted k v (some none))) : ∃ x, p = .count x ∧ x.entry.pair = (k, v) := by
  cases h with
  | minor _ hminor =>
      have hevent := hminor.event
      rw [ha] at hevent
      exact hevent.elim
  | stored x i => cases ha
  | updated x i v => cases ha
  | counted x =>
      cases ha
      exact ⟨x, rfl, rfl⟩
  | freed i x => cases ha
  | uncounted p => cases ha
  | cleared i honward =>
      have hevent := (honward.minor (p := .idle) rfl).event
      rw [ha] at hevent
      exact hevent.elim

theorem failed_pending (h : Turn cap m p m' r) {k : K} {v : V}
    (ha : r.2 = .ret (.inserted k v none)) : p.pending = some (k, v) ∧ r.1.pending = none := by
  cases h with
  | minor _ hminor => exact hminor.failed k v ha
  | stored x i => cases ha
  | updated x i v => cases ha
  | counted x => cases ha
  | freed i x => cases ha
  | uncounted p => cases ha
  | cleared i honward => cases (((honward.minor (p := .idle) rfl).failed k v ha).1)

end Turn

theorem Mem.incLen_modEq (m : Mem K V) : (m.incLen.len : ℤ) ≡ m.len + 1 [ZMOD usize] := by
  rw [Mem.incLen, Int.natCast_mod, Nat.cast_add, Nat.cast_one]
  exact Int.mod_modEq _ _

theorem Mem.decLen_modEq (m : Mem K V) : (m.decLen.len : ℤ) ≡ m.len - 1 [ZMOD usize] := by
  have hpos : 1 ≤ usize := by
    norm_num [usize]
  rw [Mem.decLen, Int.natCast_mod, Nat.cast_add, Nat.cast_sub hpos, Nat.cast_one]
  calc ((m.len : ℤ) + (usize - 1)) % usize
      ≡ m.len + (usize - 1) [ZMOD usize] := Int.mod_modEq _ _
    _ = m.len - 1 + usize := by ring
    _ ≡ m.len - 1 [ZMOD usize] := Int.add_modEq_right

end

/-- The threads from `n` on have never made a call. -/
def State.Within (n : ℕ) (s : State K V) : Prop :=
  ∀ t, n ≤ t → s.pc t = .idle

/-- By how much the counter will still be changed. -/
def State.owed (n : ℕ) (s : State K V) : ℤ :=
  ∑ t ∈ Finset.range n, (s.pc t).owes

theorem State.owed_widen {s : State K V} {n n' : ℕ} (hwithin : s.Within n) (hle : n ≤ n') :
    s.owed n' = s.owed n := by
  refine (Finset.sum_subset (Finset.range_mono hle) ?_).symm
  intro t _ ht
  rw [hwithin t (by simpa using ht)]
  rfl

theorem State.owed_update {s : State K V} {m' : Mem K V} {n t : ℕ} {p : Pc K V} (ht : t < n) :
    State.owed n ⟨m', Function.update s.pc t p⟩ = s.owed n - (s.pc t).owes + p.owes := by
  have hmem : t ∈ Finset.range n := Finset.mem_range.mpr ht
  have hrest : ∀ u ∈ (Finset.range n).erase t,
      (Function.update s.pc t p u).owes = (s.pc u).owes := by
    intro u hu
    rw [Function.update_of_ne (Finset.ne_of_mem_erase hu)]
  have hpart : (Function.update s.pc t p t).owes = p.owes := by rw [Function.update_self]
  rw [State.owed, State.owed, ← Finset.add_sum_erase _ _ hmem, ← Finset.add_sum_erase _ _ hmem,
    Finset.sum_congr rfl hrest]
  simp only [hpart]
  ring

/-- How many slots hold a pair. -/
def filled (cap : ℕ) (h : History K V) : ℕ :=
  (Slots.contents cap (cells h)).length

theorem Event.Minor.cells {h : History K V} {t : ℕ} {a : Event K V} (ha : a.Minor) :
    cells ((t, a) :: h) = cells h := by
  cases a <;> first | rfl | exact ha.elim

variable [LinearOrder K] {cap : ℕ} {h : History K V} {s : State K V} {m : Mem K V} {p : Pc K V}
  {t : ℕ}

theorem tick_turn (hbound : p.Bounded cap) :
    Turn cap m p (tick cap m p).1 (tick cap m p).2 := by
  cases p with
  | idle => exact .minor rfl (.silent rfl rfl rfl)
  | enter c =>
      cases c with
      | insert key value => exact .onward rfl (insertFirst_onward key value _) rfl
      | popFirst => exact .onward rfl (popRetry_onward 16) rfl
      | clear => exact .onward rfl sweepFrom_onward rfl
  | look x i =>
      simp only [tick]
      split
      · exact .minor rfl (.silent rfl rfl rfl)
      · exact .onward rfl (lookNext_onward hbound) rfl
  | peek x i version =>
      simp only [tick]
      split
      · split
        · exact .minor rfl (.silent rfl rfl rfl)
        · exact .onward rfl (lookNext_onward hbound) rfl
      · exact .onward rfl (lookNext_onward hbound) rfl
  | lock j =>
      simp only [tick]
      split
      · exact .minor rfl (.silent rfl rfl rfl)
      · exact .onward rfl (j.refused_onward hbound) rfl
  | cas j current =>
      simp only [tick]
      split
      · refine .minor rfl ⟨?_, rfl, Job.locked_owes, ?_, ?_⟩
        · split <;> exact trivial
        · exact fun q hq => Job.locked_pending.symm.trans hq
        · intro k v ha
          split at ha <;> cases ha
      · exact .onward rfl (j.refused_onward hbound.1) rfl
  | fetch x i =>
      simp only [tick]
      split <;> exact .minor rfl (.silent rfl rfl rfl)
  | rewrite x i v => exact .minor rfl (.silent rfl rfl rfl)
  | republish x i v => exact .updated x i v
  | updated x v =>
      exact .minor rfl ⟨trivial, rfl, rfl, (fun _ hq => by cases hq), fun _ _ ha => by cases ha⟩
  | claim x i =>
      simp only [tick]
      split
      · exact .minor rfl (.silent rfl rfl rfl)
      · exact .onward rfl (claimNext_onward hbound) rfl
  | write x i => exact .minor rfl (.silent rfl rfl rfl)
  | publish x i => exact .stored x i
  | count x => exact .counted x
  | scan retries i cs =>
      simp only [tick]
      split
      · exact .minor rfl (.silent rfl rfl rfl)
      · exact .onward rfl (scanFrom_onward hbound.2) rfl
  | check retries i version cs =>
      simp only [tick]
      split
      · split
        · exact .minor rfl (.silent rfl rfl rfl)
        · exact .onward rfl (scanFrom_onward hbound.2) rfl
      · exact .onward rfl (scanFrom_onward hbound.2) rfl
  | recheck retries i version cs =>
      simp only [tick]
      split
      · exact .minor rfl (.silent rfl rfl rfl)
      · exact .onward rfl (scanFrom_onward hbound.2) rfl
  | copy retries i version cs =>
      simp only [tick]
      split
      · refine .onward rfl (scanFrom_onward ?_) rfl
        exact candidates_bounded hbound.2 hbound.1
      · exact .onward rfl (scanFrom_onward hbound.2) rfl
  | verify retries c =>
      simp only [tick]
      split
      · split <;> exact .minor rfl (.silent rfl rfl rfl)
      · exact .minor rfl (.silent rfl rfl rfl)
  | restore j lockedVersion => exact .onward rfl (j.restored_onward hbound) rfl
  | vacate i x => exact .freed i x
  | uncount x =>
      cases x with
      | pop p => exact .uncounted p
      | clear i => exact .cleared i sweepFrom_onward
  | sweep i =>
      simp only [tick]
      split
      · exact .minor rfl (.silent rfl rfl rfl)
      · exact .onward rfl sweepFrom_onward rfl

/-- An access changes the counter, what is owed to it and the entries alike. -/
theorem Inv.turn_balance {m' : Mem K V} {r : Pc K V × Event K V} (hinv : Inv cap h s)
    (hturn : Turn cap s.mem (s.pc t) m' r) :
    (m'.len : ℤ) + r.1.owes + filled cap h ≡
      s.mem.len + (s.pc t).owes + filled cap ((t, r.2) :: h) [ZMOD usize] := by
  generalize hpc : s.pc t = p at hturn
  cases hturn with
  | minor hlen hminor =>
      rw [hlen, hminor.owes, hminor.owes', filled, filled, hminor.event.cells]
  | stored x i =>
      have hheld : (s.pc t).held = some (i, .filled x.entry) := by rw [hpc]; rfl
      obtain ⟨hi, hfits⟩ := hinv.claimed t _ _ hheld
      have hfill := (Slots.contents_fill (x := x.entry.pair) hi hfits.of_filled.2.1).length_eq
      rw [List.length_cons] at hfill
      simp only [filled, cells_stored, hfill, Pc.owes, Mem.markValid, Mem.setWord]
      push_cast
      ring_nf
      rfl
  | updated x i v =>
      have hheld : (s.pc t).held = some (i, .changed x.entry) := by rw [hpc]; rfl
      obtain ⟨hi, hfits⟩ := hinv.claimed t _ _ hheld
      obtain ⟨-, q, hcell, -⟩ := hfits.of_changed
      have hfill := (Slots.contents_refill (x := x.entry.pair) hi hcell).length_eq
      rw [List.length_cons, List.length_cons, Nat.add_right_cancel_iff] at hfill
      simp only [filled, cells_stored, hfill, Pc.owes, Mem.markValid, Mem.setWord]
      rfl
  | counted x =>
      calc (s.mem.incLen.len : ℤ) + 0 + filled cap h
          ≡ s.mem.len + 1 + 0 + filled cap h [ZMOD usize] :=
            (s.mem.incLen_modEq.add_right 0).add_right _
        _ = s.mem.len + 1 + filled cap h := by ring
  | freed i x =>
      have hheld : (s.pc t).held = some (i, .drop x) := by rw [hpc]; rfl
      obtain ⟨hi, hfits⟩ := hinv.claimed t _ _ hheld
      obtain ⟨e, -, -, hcell, -⟩ := hfits.of_drop
      have hempty := (Slots.contents_empty hi hcell).length_eq
      rw [List.length_cons] at hempty
      simp only [filled, cells_freed, hempty, Pc.owes, Mem.markEmpty, Mem.setWord]
      push_cast
      ring_nf
      rfl
  | uncounted p =>
      calc (s.mem.decLen.len : ℤ) + 0 + filled cap h
          ≡ s.mem.len - 1 + 0 + filled cap h [ZMOD usize] :=
            (s.mem.decLen_modEq.add_right 0).add_right _
        _ = s.mem.len + -1 + filled cap h := by ring
  | cleared i honward =>
      have hminor : Minor .idle r := honward.minor rfl
      have hcells : filled cap ((t, r.2) :: h) = filled cap h := by
        rw [filled, filled, hminor.event.cells]
      rw [hminor.owes', hcells]
      calc (s.mem.decLen.len : ℤ) + 0 + filled cap h
          ≡ s.mem.len - 1 + 0 + filled cap h [ZMOD usize] :=
            (s.mem.decLen_modEq.add_right 0).add_right _
        _ = s.mem.len + -1 + filled cap h := by ring

/-- The counter and what is owed to it make up the number of filled slots. -/
structure Counted (cap n : ℕ) (h : History K V) (s : State K V) : Prop where
  within : s.Within n
  len_lt : s.mem.len < usize
  balance : (s.mem.len : ℤ) + s.owed n ≡ filled cap h [ZMOD usize]

omit [LinearOrder K] in
theorem Counted.widen {n n' : ℕ} (hcount : Counted cap n h s) (hle : n ≤ n') :
    Counted cap n' h s where
  within := fun t ht => hcount.within t (hle.trans ht)
  len_lt := hcount.len_lt
  balance := by
    rw [State.owed_widen hcount.within hle]
    exact hcount.balance

omit [LinearOrder K] in
theorem State.Within.update {m' : Mem K V} {n : ℕ} (hwithin : s.Within n) (ht : t < n) :
    State.Within n ⟨m', Function.update s.pc t p⟩ := by
  intro u hu
  have hne : u ≠ t := by omega
  simpa [hne] using hwithin u hu

omit [LinearOrder K] in
theorem Turn.len_lt {m' : Mem K V} {r : Pc K V × Event K V} (hturn : Turn cap m p m' r)
    (hlt : m.len < usize) : m'.len < usize := by
  have hpos : 0 < usize := by
    norm_num [usize]
  cases hturn with
  | minor hlen _ => rwa [hlen]
  | stored x i => exact hlt
  | updated x i v => exact hlt
  | counted x => exact Nat.mod_lt _ hpos
  | freed i x => exact hlt
  | uncounted p => exact Nat.mod_lt _ hpos
  | cleared i _ => exact Nat.mod_lt _ hpos

theorem Counted.tick {n : ℕ} (hcount : Counted cap n h s) (hinv : Inv cap h s) (ht : t < n) :
    Counted cap n ((t, (BTreeMap.tick cap s.mem (s.pc t)).2.2) :: h)
      ⟨(BTreeMap.tick cap s.mem (s.pc t)).1,
        Function.update s.pc t (BTreeMap.tick cap s.mem (s.pc t)).2.1⟩ := by
  have hturn := tick_turn (m := s.mem) (hinv.bounded t)
  generalize BTreeMap.tick cap s.mem (s.pc t) = r at hturn ⊢
  refine ⟨hcount.within.update ht, hturn.len_lt hcount.len_lt, ?_⟩
  rw [State.owed_update ht]
  have hbalance := (hinv.turn_balance hturn).add hcount.balance
  refine Int.ModEq.add_right_cancel' (s.mem.len + (s.pc t).owes + filled cap h) ?_
  calc (r.1.len : ℤ) + (s.owed n - (s.pc t).owes + r.2.1.owes) +
        (s.mem.len + (s.pc t).owes + filled cap h)
      = r.1.len + r.2.1.owes + filled cap h + (s.mem.len + s.owed n) := by ring
    _ ≡ s.mem.len + (s.pc t).owes + filled cap ((t, r.2.2) :: h) + filled cap h
        [ZMOD usize] := hbalance
    _ = filled cap ((t, r.2.2) :: h) + (s.mem.len + (s.pc t).owes + filled cap h) := by ring

/-- In every run the counter and what is owed to it make up the number of filled
slots. -/
theorem Counted.of_run {G : History K V → State K V → ℕ × Event K V → Prop}
    (hrun : (machine K V cap).RunOf G h s) : ∃ n, Counted cap n h s := by
  refine hrun.invariant (I := fun h s => ∃ n, Counted cap n h s) ?_ ?_
  · rintro _ rfl
    have hnil : filled cap ([] : History K V) = 0 :=
      Nat.eq_zero_of_le_zero (by simp [filled, Slots.contents, cells])
    refine ⟨0, fun _ _ => rfl, by norm_num [usize, State.init, Mem.new], ?_⟩
    rw [hnil]
    rfl
  · rintro h s a s' hprev ⟨n, hcount⟩ _ hstep
    have hinv := Inv.of_run hprev
    cases hstep with
    | @call t c hidle =>
        have hwide := hcount.widen (le_max_left n (t + 1))
        have ht : t < max n (t + 1) := by omega
        refine ⟨max n (t + 1), hwide.within.update ht, hwide.len_lt, ?_⟩
        rw [State.owed_update ht, hidle]
        have hsame : s.owed (max n (t + 1)) - (Pc.idle : Pc K V).owes + (Pc.enter c).owes =
            s.owed (max n (t + 1)) := by simp [Pc.owes]
        rw [hsame]
        exact hwide.balance
    | @tick t hbusy =>
        exact ⟨_, (hcount.widen (le_max_left n (t + 1))).tick hinv (by omega)⟩

end BTreeMap
