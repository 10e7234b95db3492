import Vsched.Map.Account
import Vsched.Map.Sequential

/-!
# When the length counter stays in range

An entry can be taken out before its `insert` has counted it, and a slot can be filled
again before the entry it held has been subtracted. As long as the counter is updated for
each slot in the order in which the slot has been filled and emptied, it counts every slot
once or not at all.
-/

namespace BTreeMap

variable {K V : Type*}

/-- The events that fill an empty slot or empty a slot. -/
def changes (h : History K V) (i : ℕ) : Event K V → Bool
  | .stored j _ => i = j && (cells h i).isNone
  | .freed j _ => i = j
  | _ => false

/-- The threads that still owe the counter the update for a change of slot `i`, the
oldest change first. A thread updates the counter in the step after the change. -/
def owing : History K V → ℕ → List ℕ
  | [], _ => []
  | (t, a) :: h, i => (owing h i).erase t ++ if changes h i a then [t] else []

/-- A thread updates the counter for a slot when no older change of this slot is owed. -/
def InOrder (cap : ℕ) (h : History K V) (_ : State K V) (a : ℕ × Event K V) : Prop :=
  ∀ i < cap, a.1 ∈ owing h i → (owing h i).head? = some a.1

instance (cap : ℕ) (h : History K V) (s : State K V) (a : ℕ × Event K V) :
    Decidable (InOrder cap h s a) :=
  inferInstanceAs (Decidable (∀ i < cap, _ → _))

/-- Starting from `c`, the updates lead to `b` and stay between zero and one. -/
def Settles (c : ℤ) : List ℤ → ℤ → Prop
  | [], b => (c = 0 ∨ c = 1) ∧ c = b
  | x :: xs, b => (c = 0 ∨ c = 1) ∧ Settles (c + x) xs b

namespace Settles

variable {c b b' x : ℤ} {xs : List ℤ}

theorem start (h : Settles c xs b) : c = 0 ∨ c = 1 := by
  cases xs <;> exact h.1

theorem last (h : Settles c xs b) : b = 0 ∨ b = 1 := by
  induction xs generalizing c with
  | nil => exact h.2 ▸ h.1
  | cons x xs ih => exact ih h.2

/-- The last update leads from zero to one or from one to zero. -/
theorem of_zero (h : Settles c xs 0) : c = 0 ∨ (-1 : ℤ) ∈ xs := by
  induction xs generalizing c with
  | nil => exact .inl h.2
  | cons x xs ih =>
      obtain ⟨hc, hrest⟩ := h
      rcases ih hrest with hnext | hmem
      · rcases hc with rfl | rfl
        · exact .inl rfl
        · right
          rw [show x = -1 by omega]
          exact List.mem_cons_self ..
      · exact .inr (List.mem_cons_of_mem _ hmem)

theorem append (h : Settles c xs b) (hb : b + x = b') (hb' : b' = 0 ∨ b' = 1) :
    Settles c (xs ++ [x]) b' := by
  induction xs generalizing c with
  | nil =>
      obtain ⟨hc, rfl⟩ := h
      exact ⟨hc, by rw [hb]; exact hb', hb⟩
  | cons y ys ih => exact ⟨h.1, ih h.2⟩

end Settles

variable {h : History K V} {s : State K V} {t u i j : ℕ} {a : Event K V}

/-- One event changes one slot. -/
theorem changes_unique (hi : changes h i a = true) (hj : changes h j a = true) : i = j := by
  cases a <;> simp_all [changes]

theorem owing_nodup (h : History K V) (i : ℕ) : (owing h i).Nodup := by
  induction h with
  | nil => exact List.nodup_nil
  | cons e h ih =>
      have herase := ih.erase e.1
      refine List.nodup_append.mpr ⟨herase, by split_ifs <;> simp, ?_⟩
      intro u hu w hw
      split_ifs at hw with hchanges
      · rw [List.mem_singleton.mp hw]
        exact (ih.mem_erase_iff.mp hu).1
      · cases hw

/-- A step settles what the thread owes; a change of slot `i` is owed from then on. -/
theorem mem_owing : u ∈ owing ((t, a) :: h) i ↔
    u ≠ t ∧ u ∈ owing h i ∨ u = t ∧ changes h i a = true := by
  simp only [owing, List.mem_append, (owing_nodup h i).mem_erase_iff]
  split_ifs with hchanges <;> simp [hchanges]

theorem owing_unique (hi : t ∈ owing h i) (hj : t ∈ owing h j) : i = j := by
  induction h with
  | nil => cases hi
  | cons e h ih =>
      rcases mem_owing.mp hi with ⟨hne, hi⟩ | ⟨he, hi⟩
      · rcases mem_owing.mp hj with ⟨-, hj⟩ | ⟨he, -⟩
        · exact ih hi hj
        · exact absurd he hne
      · rcases mem_owing.mp hj with ⟨hne, -⟩ | ⟨-, hj⟩
        · exact absurd he hne
        · exact changes_unique hi hj

/-- Whether slot `i` holds a pair, as a number. -/
def occupied (h : History K V) (i : ℕ) : ℤ := if (cells h i).isSome then 1 else 0

theorem occupied_range (h : History K V) (i : ℕ) : occupied h i = 0 ∨ occupied h i = 1 := by
  unfold occupied
  split_ifs <;> simp

/-- The slots that the counter has counted: `c i` is one if it has counted slot `i`. What is
still owed for a slot leads from `c i` to what the slot holds. -/
structure Paid (cap : ℕ) (h : History K V) (s : State K V) (c : ℕ → ℤ) : Prop where
  bound : ∀ t i, t ∈ owing h i → i < cap
  owes : ∀ t, (s.pc t).owes ≠ 0 ↔ ∃ i, t ∈ owing h i
  slots : ∀ i < cap, Settles (c i) ((owing h i).map fun t => (s.pc t).owes) (occupied h i)
  len_lt : s.mem.len < usize
  len : (s.mem.len : ℤ) ≡ ∑ i ∈ Finset.range cap, c i [ZMOD usize]

theorem Event.Minor.changes (ha : a.Minor) (i : ℕ) : changes h i a = false := by
  cases a <;> first | rfl | exact ha.elim

theorem Event.Minor.occupied (ha : a.Minor) (i : ℕ) :
    occupied ((t, a) :: h) i = occupied h i := by
  simp [BTreeMap.occupied, ha.cells]

theorem owes_update {l : List ℕ} {m' : Mem K V} {p : Pc K V} (ht : t ∉ l) :
    (l.map fun u => (State.pc ⟨m', Function.update s.pc t p⟩ u).owes) =
      l.map fun u => (s.pc u).owes := by
  refine List.map_congr_left fun u hu => ?_
  have hne : u ≠ t := fun he => ht (he ▸ hu)
  show (Function.update s.pc t p u).owes = (s.pc u).owes
  rw [Function.update_of_ne hne]

namespace Paid

variable {cap : ℕ} {c : ℕ → ℤ} {m' : Mem K V} {p : Pc K V}

theorem init : Paid cap [] (State.init : State K V) fun _ => 0 where
  bound := fun t i ht => (List.not_mem_nil ht).elim
  owes := fun t => by simp [State.init, Pc.owes, owing]
  slots := fun i _ => ⟨.inl rfl, rfl⟩
  len_lt := by norm_num [State.init, Mem.new, usize]
  len := by simp [State.init, Mem.new]

theorem not_owing (hpaid : Paid cap h s c) (howes : (s.pc t).owes = 0) (i : ℕ) :
    t ∉ owing h i := fun hmem => (hpaid.owes t).mpr ⟨i, hmem⟩ howes

/-- A step that changes no slot and owes nothing before or after it. -/
theorem quiet (hpaid : Paid cap h s c) (howes : (s.pc t).owes = 0) (howes' : p.owes = 0)
    (hlen : m'.len = s.mem.len) (hchanges : ∀ i, changes h i a = false)
    (hcells : ∀ i, occupied ((t, a) :: h) i = occupied h i) :
    Paid cap ((t, a) :: h) ⟨m', Function.update s.pc t p⟩ c := by
  have hsame : ∀ i, owing ((t, a) :: h) i = owing h i := by
    intro i
    simp [owing, hchanges, List.erase_of_not_mem (hpaid.not_owing howes i)]
  refine ⟨fun u i => ?_, fun u => ?_, fun i hi => ?_, ?_, ?_⟩
  · rw [hsame]
    exact hpaid.bound u i
  · simp only [hsame]
    by_cases hu : u = t
    · subst hu
      refine iff_of_false (by simpa using howes') ?_
      rintro ⟨i, hmem⟩
      exact hpaid.not_owing howes i hmem
    · simpa [hu] using hpaid.owes u
  · rw [hsame, owes_update (hpaid.not_owing howes i), hcells]
    exact hpaid.slots i hi
  · rw [hlen]
    exact hpaid.len_lt
  · rw [show State.mem ⟨m', _⟩ = m' from rfl, hlen]
    exact hpaid.len

/-- A thread fills or empties slot `i` and owes the update for it. -/
theorem change (hpaid : Paid cap h s c) (hi : i < cap) (howes : (s.pc t).owes = 0)
    (howes' : p.owes ≠ 0) (hlen : m'.len = s.mem.len)
    (hchanges : ∀ j, changes h j a = true ↔ j = i)
    (hcell : occupied h i + p.owes = occupied ((t, a) :: h) i)
    (hcells : ∀ j, j ≠ i → occupied ((t, a) :: h) j = occupied h j) :
    Paid cap ((t, a) :: h) ⟨m', Function.update s.pc t p⟩ c := by
  have hslot : owing ((t, a) :: h) i = owing h i ++ [t] := by
    simp [owing, (hchanges i).mpr rfl, List.erase_of_not_mem (hpaid.not_owing howes i)]
  have hothers : ∀ j, j ≠ i → owing ((t, a) :: h) j = owing h j := by
    intro j hj
    have hno : ¬ changes h j a = true := fun hyes => hj ((hchanges j).mp hyes)
    simp [owing, hno, List.erase_of_not_mem (hpaid.not_owing howes j)]
  have hmem : ∀ u j, u ∈ owing ((t, a) :: h) j ↔ u ∈ owing h j ∨ u = t ∧ j = i := by
    intro u j
    by_cases hj : j = i
    · subst hj
      simp [hslot]
    · simp [hothers j hj, hj]
  refine ⟨fun u j hu => ?_, fun u => ?_, fun j hj => ?_, ?_, ?_⟩
  · rcases (hmem u j).mp hu with hu | ⟨-, rfl⟩
    · exact hpaid.bound u j hu
    · exact hi
  · simp only [hmem]
    by_cases hu : u = t
    · subst hu
      exact iff_of_true (by simpa using howes') ⟨i, .inr ⟨rfl, rfl⟩⟩
    · simpa [hu] using hpaid.owes u
  · by_cases hji : j = i
    · subst hji
      rw [hslot, List.map_append, owes_update (hpaid.not_owing howes j)]
      simpa using (hpaid.slots j hj).append hcell (occupied_range _ _)
    · rw [hothers j hji, owes_update (hpaid.not_owing howes j), hcells j hji]
      exact hpaid.slots j hj
  · rw [hlen]
    exact hpaid.len_lt
  · rw [show State.mem ⟨m', _⟩ = m' from rfl, hlen]
    exact hpaid.len

/-- A thread makes the update that it owes for slot `i` first of all. -/
theorem pay {rest : List ℕ} (hpaid : Paid cap h s c) (hslot : owing h i = t :: rest)
    (howes' : p.owes = 0) (hlen_lt : m'.len < usize)
    (hlen : (m'.len : ℤ) ≡ s.mem.len + (s.pc t).owes [ZMOD usize])
    (hchanges : ∀ j, changes h j a = false)
    (hcells : ∀ j, occupied ((t, a) :: h) j = occupied h j) :
    Paid cap ((t, a) :: h) ⟨m', Function.update s.pc t p⟩
      (Function.update c i (c i + (s.pc t).owes)) := by
  have hin : t ∈ owing h i := by simp [hslot]
  have hi := hpaid.bound t i hin
  have hnot : t ∉ rest := by
    have hnodup := owing_nodup h i
    rw [hslot] at hnodup
    exact (List.nodup_cons.mp hnodup).1
  have hslot' : owing ((t, a) :: h) i = rest := by simp [owing, hchanges, hslot]
  have hfree : ∀ j, j ≠ i → t ∉ owing h j := fun j hj hmem => hj (owing_unique hmem hin)
  have hothers : ∀ j, j ≠ i → owing ((t, a) :: h) j = owing h j := by
    intro j hj
    simp [owing, hchanges, List.erase_of_not_mem (hfree j hj)]
  have hmem : ∀ u j, u ∈ owing ((t, a) :: h) j ↔ u ≠ t ∧ u ∈ owing h j := by
    intro u j
    rw [mem_owing, hchanges]
    simp
  refine ⟨fun u j hu => hpaid.bound u j ((hmem u j).mp hu).2, fun u => ?_, fun j hj => ?_,
    hlen_lt, ?_⟩
  · simp only [hmem]
    by_cases hu : u = t
    · subst hu
      refine iff_of_false (by simpa using howes') ?_
      rintro ⟨j, hne, -⟩
      exact hne rfl
    · simpa [hu] using hpaid.owes u
  · by_cases hji : j = i
    · subst hji
      have hsettles := hpaid.slots j hj
      rw [hslot] at hsettles
      rw [hslot', owes_update hnot, hcells, Function.update_self]
      exact hsettles.2
    · rw [hothers j hji, owes_update (hfree j hji), hcells, Function.update_of_ne hji]
      exact hpaid.slots j hj
  · have hsum : ∑ j ∈ Finset.range cap, Function.update c i (c i + (s.pc t).owes) j =
        ∑ j ∈ Finset.range cap, c j + (s.pc t).owes := by
      have hrange : i ∈ Finset.range cap := Finset.mem_range.mpr hi
      rw [Finset.sum_update_of_mem hrange, ← Finset.add_sum_erase _ _ hrange,
        Finset.sdiff_singleton_eq_erase]
      ring
    rw [hsum]
    exact hlen.trans (hpaid.len.add_right _)

variable [LinearOrder K]

/-- An access of a thread that pays for each slot in the order of its changes. -/
theorem tick (hpaid : Paid cap h s c) (hinv : Inv cap h s)
    (horder : ∀ i < cap, t ∈ owing h i → (owing h i).head? = some t) :
    ∃ c', Paid cap ((t, (BTreeMap.tick cap s.mem (s.pc t)).2.2) :: h)
      ⟨(BTreeMap.tick cap s.mem (s.pc t)).1,
        Function.update s.pc t (BTreeMap.tick cap s.mem (s.pc t)).2.1⟩ c' := by
  have hturn := tick_turn (m := s.mem) (hinv.bounded t)
  have hlen_lt := hturn.len_lt hpaid.len_lt
  have hpays : ∀ x, (s.pc t).owes = x → x ≠ 0 → ∃ i rest, owing h i = t :: rest := by
    intro x hx hne
    obtain ⟨i, hmem⟩ := (hpaid.owes t).mp (hx ▸ hne)
    have hhead := horder i (hpaid.bound t i hmem) hmem
    exact ⟨i, (owing h i).tail, (List.cons_head?_tail hhead).symm⟩
  generalize BTreeMap.tick cap s.mem (s.pc t) = r at hturn hlen_lt ⊢
  obtain ⟨m', p, a⟩ := r
  generalize hpc : s.pc t = q at hturn
  cases hturn with
  | minor hlen hminor =>
      exact ⟨c, hpaid.quiet (by rw [hpc]; exact hminor.owes) hminor.owes' hlen hminor.event.changes
        hminor.event.occupied⟩
  | stored x i =>
      have hheld : (s.pc t).held = some (i, .filled x.entry) := by rw [hpc]; rfl
      obtain ⟨hi, hfits⟩ := hinv.claimed t _ _ hheld
      have hnone : cells h i = none := hfits.of_filled.2.1
      refine ⟨c, hpaid.change hi (by rw [hpc]; rfl) (by simp [Pc.owes]) rfl (fun j => ?_) ?_
        fun j hj => ?_⟩
      · simp only [changes, Bool.and_eq_true, decide_eq_true_eq]
        exact ⟨And.left, fun hj => ⟨hj, by rw [hj, hnone]; rfl⟩⟩
      · simp [occupied, cells_stored, hnone, Pc.owes]
      · simp [occupied, cells_stored, hj]
  | updated x i v =>
      have hheld : (s.pc t).held = some (i, .changed x.entry) := by rw [hpc]; rfl
      obtain ⟨hi, hfits⟩ := hinv.claimed t _ _ hheld
      obtain ⟨-, q, hcell, -⟩ := hfits.of_changed
      refine ⟨c, hpaid.quiet (by rw [hpc]; rfl) rfl rfl (fun j => ?_) fun j => ?_⟩
      · by_cases hj : j = i <;> simp [changes, hj, hcell]
      · by_cases hj : j = i <;> simp [occupied, cells_stored, hj, hcell]
  | counted x =>
      obtain ⟨i, rest, hslot⟩ := hpays 1 (by rw [hpc]; rfl) (by decide)
      refine ⟨_, hpaid.pay hslot rfl hlen_lt ?_ (fun _ => rfl) fun _ => rfl⟩
      rw [hpc]
      exact s.mem.incLen_modEq
  | freed i x =>
      have hheld : (s.pc t).held = some (i, .drop x) := by rw [hpc]; rfl
      obtain ⟨hi, hfits⟩ := hinv.claimed t _ _ hheld
      obtain ⟨e, -, -, hcell, -⟩ := hfits.of_drop
      refine ⟨c, hpaid.change hi (by rw [hpc]; rfl) (by simp [Pc.owes]) rfl (fun j => ?_) ?_
        fun j hj => ?_⟩
      · simp [changes]
      · simp [occupied, cells_freed, hcell, Pc.owes]
      · simp [occupied, cells_freed, hj]
  | uncounted q =>
      obtain ⟨i, rest, hslot⟩ := hpays (-1) (by rw [hpc]; rfl) (by decide)
      refine ⟨_, hpaid.pay hslot rfl hlen_lt ?_ (fun _ => rfl) fun _ => rfl⟩
      rw [hpc]
      exact s.mem.decLen_modEq
  | cleared i honward =>
      have hminor : Minor .idle (p, a) := honward.minor rfl
      obtain ⟨j, rest, hslot⟩ := hpays (-1) (by rw [hpc]; rfl) (by decide)
      refine ⟨_, hpaid.pay hslot hminor.owes' hlen_lt ?_ hminor.event.changes hminor.event.occupied⟩
      rw [hpc]
      exact s.mem.decLen_modEq

omit [LinearOrder K] in
/-- A call starts with nothing owed. -/
theorem call {q : Call K V} (hpaid : Paid cap h s c) (hidle : s.pc t = .idle) :
    Paid cap ((t, .call q) :: h) ⟨s.mem, Function.update s.pc t (.enter q)⟩ c :=
  hpaid.quiet (by rw [hidle]; rfl) rfl rfl (fun _ => rfl) fun _ => rfl

theorem of_run (hrun : (machine K V cap).RunOf (InOrder cap) h s) : ∃ c, Paid cap h s c := by
  refine hrun.invariant (I := fun h s => ∃ c, Paid cap h s c) ?_ ?_
  · rintro _ rfl
    exact ⟨_, init⟩
  · rintro h s a s' hprev ⟨c, hpaid⟩ horder hstep
    have hinv := Inv.of_run hprev
    cases hstep with
    | call hidle => exact ⟨c, hpaid.call hidle⟩
    | tick hbusy => exact hpaid.tick hinv horder

variable (hpaid : Paid cap h s c)

include hpaid in
omit [LinearOrder K] in
theorem sum_range : 0 ≤ ∑ i ∈ Finset.range cap, c i ∧ ∑ i ∈ Finset.range cap, c i ≤ cap := by
  have hcounted : ∀ i ∈ Finset.range cap, 0 ≤ c i ∧ c i ≤ 1 := by
    intro i hi
    rcases (hpaid.slots i (Finset.mem_range.mp hi)).start with h | h <;> omega
  refine ⟨Finset.sum_nonneg fun i hi => (hcounted i hi).1, ?_⟩
  calc ∑ i ∈ Finset.range cap, c i ≤ ∑ _i ∈ Finset.range cap, (1 : ℤ) :=
        Finset.sum_le_sum fun i hi => (hcounted i hi).2
    _ = cap := by simp

include hpaid in
omit [LinearOrder K] in
/-- The counter is the number of the slots it has counted. -/
theorem len_eq : (s.mem.len : ℤ) = (∑ i ∈ Finset.range cap, c i) % usize := by
  have hlt : (s.mem.len : ℤ) < usize := by exact_mod_cast hpaid.len_lt
  rw [← hpaid.len, Int.emod_eq_of_lt (by positivity) hlt]

end Paid

/-- In every run in which the counter is updated for each slot in the order of the changes of
the slot, the counter is at most the capacity. The map reads as empty when no slot holds a pair
and every thread that has emptied a slot has subtracted it. -/
theorem len_in_range [LinearOrder K] {cap : ℕ} (hrun : (machine K V cap).RunOf (InOrder cap) h s) :
    s.mem.len ≤ cap ∧
      ((∀ i < cap, cells h i = none) → (∀ t x, s.pc t ≠ .uncount x) → s.mem.isEmpty = true) := by
  obtain ⟨c, hpaid⟩ := Paid.of_run hrun
  obtain ⟨hnonneg, hle⟩ := hpaid.sum_range
  have hlen := hpaid.len_eq
  constructor
  · obtain ⟨n, hn⟩ := Int.eq_ofNat_of_zero_le hnonneg
    rw [hn] at hlen hle
    have hmod : s.mem.len = n % usize := by exact_mod_cast hlen
    have hless := Nat.mod_le n usize
    omega
  · intro hempty hsubtracted
    have hzero : ∀ i ∈ Finset.range cap, c i = 0 := by
      intro i hi
      have hsettles := hpaid.slots i (Finset.mem_range.mp hi)
      rw [show occupied h i = 0 by simp [occupied, hempty i (Finset.mem_range.mp hi)]] at hsettles
      refine hsettles.of_zero.resolve_right fun hmem => ?_
      obtain ⟨t, -, ht⟩ := List.mem_map.mp hmem
      cases hpc : s.pc t with
      | uncount x => exact hsubtracted t x hpc
      | _ => simp [hpc, Pc.owes] at ht
    rw [Finset.sum_eq_zero hzero] at hlen
    have hnone : s.mem.len = 0 := by exact_mod_cast hlen
    simp [Mem.isEmpty, hnone]

/-- While one thread stores an entry, another one looks for the least entry, finds it and
takes it out when it has been counted. -/
theorem len_in_range_one : ∃ (h : History ℕ ℕ) (s : State ℕ ℕ),
    (machine ℕ ℕ 2).RunOf (InOrder 2) h s ∧ (1, .ret (.popped (some (5, 50)))) ∈ h ∧
      s.mem.len ≤ 2 ∧ s.mem.isEmpty = true := by
  let r := (playAll 2 (InOrder 2) (.invoke 0 (.insert 5 50) :: goes 0 6 ++
    .invoke 1 .popFirst :: goes 1 10 ++ [.access 0, .access 1])).get (by decide)
  have hrun : (machine ℕ ℕ 2).RunOf (InOrder 2) r.1 r.2 := playAll_run (Option.some_get _).symm
  have hlabels : ∀ a ∈ r.1, a.1 = 0 ∨ a.1 = 1 := by decide
  have hempty : ∀ i < 2, cells r.1 i = none := by decide
  have hpopped : (1, .ret (.popped (some (5, 50)))) ∈ r.1 := by decide
  have hzero : r.2.pc 0 = .idle := by decide
  have hone : r.2.pc 1 = .idle := by decide
  generalize r.1 = h, r.2 = s at hrun hlabels hempty hpopped hzero hone
  obtain ⟨hle, hisEmpty⟩ := len_in_range hrun
  refine ⟨h, s, hrun, hpopped, hle, hisEmpty hempty fun t x hpc => ?_⟩
  have hidle : s.pc t = .idle := by
    by_cases h0 : t = 0
    · rw [h0, hzero]
    by_cases h1 : t = 1
    · rw [h1, hone]
    exact idle_of_untouched hrun fun a ha heq => (hlabels a ha).elim
      (fun h => h0 (heq.symm.trans h)) fun h => h1 (heq.symm.trans h)
  rw [hpc] at hidle
  cases hidle

/-- An entry is popped before its `insert` has counted it: the counter of the empty map wraps. -/
theorem len_wraps : ∃ (h : History ℕ ℕ) (s : State ℕ ℕ),
    (machine ℕ ℕ 2).Run h s ∧ (1, .ret (.popped (some (5, 50)))) ∈ h ∧
      (∀ i < 2, cells h i = none) ∧ (∀ t x, s.pc t ≠ .uncount x) ∧
      ¬ s.mem.len ≤ 2 ∧ s.mem.isEmpty = false := by
  let r := (playAll 2 (fun (_ : History ℕ ℕ) _ _ => True)
    (.invoke 0 (.insert 5 50) :: goes 0 6 ++ .invoke 1 .popFirst :: goes 1 11)).get (by decide)
  have hrun : (machine ℕ ℕ 2).Run r.1 r.2 := playAll_run (Option.some_get _).symm
  have hlabels : ∀ a ∈ r.1, a.1 = 0 ∨ a.1 = 1 := by decide
  have hempty : ∀ i < 2, cells r.1 i = none := by decide
  have hpopped : (1, .ret (.popped (some (5, 50)))) ∈ r.1 := by decide
  have hzero : (r.2.pc 0).owes = 1 := by decide
  have hone : r.2.pc 1 = .idle := by decide
  have hlen : ¬ r.2.mem.len ≤ 2 := by decide
  have hisEmpty : r.2.mem.isEmpty = false := by decide
  generalize r.1 = h, r.2 = s at hrun hlabels hempty hpopped hzero hone hlen hisEmpty
  refine ⟨h, s, hrun, hpopped, hempty, fun t x hpc => ?_, hlen, hisEmpty⟩
  by_cases h0 : t = 0
  · rw [← h0, hpc] at hzero
    cases hzero
  by_cases h1 : t = 1
  · rw [← h1, hpc] at hone
    cases hone
  have hidle := idle_of_untouched (t := t) hrun fun a ha heq => (hlabels a ha).elim
    (fun h => h0 (heq.symm.trans h)) fun h => h1 (heq.symm.trans h)
  rw [hpc] at hidle
  cases hidle

end BTreeMap
