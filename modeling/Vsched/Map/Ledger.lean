import Vsched.Map.Distinct
import Vsched.Map.Sequential

/-!
# No entry of the lock-free map is lost or duplicated

The pairs that have been stored are, up to order, the pairs in the slots and those
taken out of them, and the latter are the pairs `pop_first` has returned and those
it is about to return. As no key is stored twice, each pair is in one of these
places only.
-/

namespace BTreeMap

variable {K V : Type*}

def Event.frees : Event K V → Option (K × V)
  | .freed _ p => p
  | _ => none

def Event.pops : Event K V → Option (K × V)
  | .ret (.popped p) => p
  | _ => none

/-- The pairs that have been taken out of slots. -/
def freed (h : History K V) : List (K × V) :=
  h.filterMap fun a => a.2.frees

/-- The pairs that `pop_first` has returned. -/
def popped (h : History K V) : List (K × V) :=
  h.filterMap fun a => a.2.pops

/-- The pair that `pop_first` is about to return. -/
def Pc.hand : Pc K V → Option (K × V)
  | .uncount (.pop p) => some p
  | _ => none

/-- The pairs that the threads are about to return. -/
def State.hands (s : State K V) (t : ℕ) : Option (K × V) :=
  (s.pc t).hand

/-- Slot `i` is valid, or locked, and holds the pair. -/
def State.Holds (s : State K V) (i : ℕ) (p : K × V) : Prop :=
  ((s.mem.word i).state = .valid ∨ (s.mem.word i).state = .deleting) ∧
    ∃ e, s.mem.entry i = some e ∧ e.pair = p

/-- The pair is in exactly one slot, and no `pop_first` has it; or it is in no slot,
and exactly one `pop_first` is about to return it or has returned it. -/
def Conserved (cap : ℕ) (h : History K V) (s : State K V) (p : K × V) : Prop :=
  (∃! i, i < cap ∧ s.Holds i p) ∧ (∀ t, s.hands t ≠ some p) ∧ p ∉ popped h ∨
  (∀ i, i < cap → ¬ s.Holds i p) ∧
    ((∃! t, s.hands t = some p) ∧ p ∉ popped h ∨
      (∀ t, s.hands t ≠ some p) ∧ ∃! n : ℕ, (popped h)[n]? = some p)

/-- Where the pairs are, the threads from `n` on having made no call. -/
structure Ledger (cap n : ℕ) (h : History K V) (s : State K V) : Prop where
  within : s.Within n
  slots : (stored h).Perm (Slots.contents cap (cells h) ++ freed h)
  hands : (freed h).Perm (popped h ++ Slots.contents n s.hands)

variable {cap n : ℕ} {h : History K V} {s : State K V} {t : ℕ}

theorem Pc.hand_none {p : Pc K V} (hp : p.owes = 0) : p.hand = none := by
  cases p with
  | uncount x => cases hp
  | _ => rfl

theorem minor_lists {a : Event K V} (ha : a.Minor) :
    stored ((t, a) :: h) = stored h ∧ freed ((t, a) :: h) = freed h ∧
      popped ((t, a) :: h) = popped h := by
  cases a with
  | ret r =>
      cases r with
      | popped o =>
          cases o with
          | none => exact ⟨rfl, rfl, rfl⟩
          | some q => exact ha.elim
      | inserted k v o => exact ⟨rfl, rfl, rfl⟩
      | cleared => exact ⟨rfl, rfl, rfl⟩
  | call c => exact ha.elim
  | stored i q => exact ha.elim
  | freed i q => exact ha.elim
  | took i => exact ⟨rfl, rfl, rfl⟩
  | silent => exact ⟨rfl, rfl, rfl⟩

theorem Ledger.widen {n' : ℕ} (hled : Ledger cap n h s) (hle : n ≤ n') : Ledger cap n' h s where
  within := fun t ht => hled.within t (hle.trans ht)
  slots := hled.slots
  hands := by
    rw [Slots.contents_widen hle fun t ht => by rw [State.hands, hled.within t ht]; rfl]
    exact hled.hands

theorem hands_update {m' : Mem K V} {p : Pc K V} :
    State.hands ⟨m', Function.update s.pc t p⟩ = Function.update s.hands t p.hand := by
  funext u
  by_cases hut : u = t
  · subst hut
    simp [State.hands]
  · simp [State.hands, hut]

/-- A step that moves no pair between the hands of the threads. -/
theorem hands_same {m' : Mem K V} {p : Pc K V} (hp : p.hand = s.hands t) :
    State.hands ⟨m', Function.update s.pc t p⟩ = s.hands := by
  rw [hands_update, hp, Function.update_eq_self]

theorem Ledger.hand_lt (hled : Ledger cap n h s) {p : K × V} (hp : s.hands t = some p) :
    t < n := by
  by_contra hge
  rw [State.hands, hled.within t (by omega)] at hp
  cases hp

theorem Ledger.mem_hands (hled : Ledger cap n h s) {p : K × V} (hp : s.hands t = some p) :
    p ∈ Slots.contents n s.hands :=
  Slots.mem_contents.mpr ⟨t, hled.hand_lt hp, hp⟩

variable [LinearOrder K]

theorem Ledger.turn {m' : Mem K V} {r : Pc K V × Event K V} (hled : Ledger cap n h s)
    (hinv : Inv cap h s) (ht : t < n) (hplain : (s.pc t).Plain)
    (hturn : Turn cap s.mem (s.pc t) m' r) :
    Ledger cap n ((t, r.2) :: h) ⟨m', Function.update s.pc t r.1⟩ := by
  refine ⟨hled.within.update ht, ?_, ?_⟩
  · generalize hpc : s.pc t = p at hturn hplain
    cases hturn with
    | minor _ hminor =>
        obtain ⟨hstored, hfreed, -⟩ := minor_lists (t := t) (h := h) hminor.event
        rw [hstored, hfreed, hminor.event.cells]
        exact hled.slots
    | stored x i =>
        have hheld : (s.pc t).held = some (i, .filled x.entry) := by rw [hpc]; rfl
        obtain ⟨hi, hfits⟩ := hinv.claimed t _ _ hheld
        have hfill := Slots.contents_fill (x := x.entry.pair) hi hfits.of_filled.2.1
        rw [cells_stored]
        calc List.Perm (x.entry.pair :: stored h)
              (x.entry.pair :: (Slots.contents cap (cells h) ++ freed h)) := hled.slots.cons _
          List.Perm _ (Slots.contents cap
              (Function.update (cells h) i (some x.entry.pair)) ++ freed h) :=
              hfill.symm.append_right _
    | updated x i v => exact hplain.elim
    | counted x => exact hled.slots
    | freed i x =>
        have hheld : (s.pc t).held = some (i, .drop x) := by rw [hpc]; rfl
        obtain ⟨hi, hfits⟩ := hinv.claimed t _ _ hheld
        obtain ⟨e, -, hentry, hcell, -⟩ := hfits.of_drop
        have hempty := Slots.contents_empty hi hcell
        rw [hentry, cells_freed]
        calc List.Perm (stored h) (Slots.contents cap (cells h) ++ freed h) := hled.slots
          List.Perm _ (e.pair :: Slots.contents cap (Function.update (cells h) i none) ++
              freed h) := hempty.append_right _
          List.Perm _ (Slots.contents cap (Function.update (cells h) i none) ++
              e.pair :: freed h) := List.perm_middle.symm
    | uncounted q => exact hled.slots
    | cleared i honward => exact hplain.elim
  · generalize hpc : s.pc t = p at hturn hplain
    cases hturn with
    | minor _ hminor =>
        obtain ⟨-, hfreed, hpopped⟩ := minor_lists (t := t) (h := h) hminor.event
        have hsame : r.1.hand = s.hands t := by
          rw [State.hands, hpc, Pc.hand_none hminor.owes, Pc.hand_none hminor.owes']
        rw [hfreed, hpopped, hands_same hsame]
        exact hled.hands
    | stored x i =>
        rw [hands_same (by rw [State.hands, hpc]; rfl)]
        exact hled.hands
    | updated x i v => exact hplain.elim
    | counted x =>
        rw [hands_same (by rw [State.hands, hpc]; rfl)]
        exact hled.hands
    | freed i x =>
        have hheld : (s.pc t).held = some (i, .drop x) := by rw [hpc]; rfl
        obtain ⟨e, hpair, hentry, -, -⟩ := (hinv.claimed t _ _ hheld).2.of_drop
        cases x with
        | clear j => exact hplain.elim
        | pop q =>
            obtain rfl := hpair q rfl
            have hnone : s.hands t = none := by rw [State.hands, hpc]; rfl
            have hfill := Slots.contents_fill (x := e.pair) ht hnone
            rw [hentry, hands_update]
            calc List.Perm (e.pair :: freed h)
                  (e.pair :: (popped h ++ Slots.contents n s.hands)) :=
                  hled.hands.cons _
              List.Perm _ (popped h ++ e.pair :: Slots.contents n s.hands) :=
                  List.perm_middle.symm
              List.Perm _ _ := hfill.symm.append_left _
    | uncounted q =>
        have hsome : s.hands t = some q := by rw [State.hands, hpc]; rfl
        have hempty := Slots.contents_empty ht hsome
        rw [hands_update]
        calc List.Perm (freed h) (popped h ++ Slots.contents n s.hands) :=
              hled.hands
          List.Perm _ (popped h ++ q :: _) := hempty.append_left _
          List.Perm _ (q :: popped h ++ _) := List.perm_middle
    | cleared i honward => exact hplain.elim

theorem Ledger.of_run (hrun : (machine K V cap).RunOf Distinct h s) :
    ∃ n, Ledger cap n h s := by
  refine hrun.invariant (I := fun h s => ∃ n, Ledger cap n h s) ?_ ?_
  · rintro _ rfl
    have hnil : Slots.contents cap (cells ([] : History K V)) = [] := by
      simp [Slots.contents, cells]
    refine ⟨0, fun _ _ => rfl, ?_, .refl _⟩
    rw [hnil]
    exact .refl _
  · rintro h s a s' hprev ⟨n, hled⟩ _ hstep
    have hwide := hled.widen (le_max_left n (a.1 + 1))
    have ht : a.1 < max n (a.1 + 1) := by omega
    cases hstep with
    | @call t c hidle =>
        refine ⟨_, hwide.within.update ht, hwide.slots, ?_⟩
        rw [hands_same (by rw [State.hands, hidle]; rfl)]
        exact hwide.hands
    | @tick t hbusy =>
        have hinv := Inv.of_run hprev
        have hturn := tick_turn (m := s.mem) (hinv.bounded t)
        exact ⟨_, hwide.turn hinv ht ((Once.of_run hprev).plain t) hturn⟩

/-- As no entry is ever updated, a slot holds the pair the history has put there. -/
theorem Inv.holds_iff (hinv : Inv cap h s) (hplain : ∀ t, (s.pc t).Plain) {i : ℕ} {p : K × V}
    (hi : i < cap) : s.Holds i p ↔ cells h i = some p := by
  unfold State.Holds
  by_cases hclaim : ∃ t k, (s.pc t).held = some (i, k)
  · obtain ⟨t, k, hk⟩ := hclaim
    have hfits := (hinv.claimed t i k hk).2
    have ht := hplain t
    generalize s.mem.word i = w, s.mem.entry i = d, cells h i = c, live h i = l at hfits ⊢
    cases hfits with
    | changed =>
        -- only an update has written over an entry
        cases hpc : s.pc t <;> rw [hpc] at hk ht <;> simp [Pc.held] at hk
        exact ht.elim
    | reserve => simp
    | filled => simp
    | change => simp
    | check hversion => simp
    | keep => simp
    | drop hpair => simp
  · push Not at hclaim
    have hfree := hinv.unclaimed i hi hclaim
    generalize s.mem.word i = w, s.mem.entry i = d, cells h i = c, live h i = l at hfree ⊢
    cases hfree with
    | empty => simp
    | valid => simp

/-- A pair that has been stored is in exactly one place. -/
theorem Ledger.conserved (hled : Ledger cap n h s) (hinv : Inv cap h s) (honce : Once h s)
    {p : K × V} (hp : p ∈ stored h) : Conserved cap h s p := by
  have hholds : ∀ i, i < cap → (s.Holds i p ↔ cells h i = some p) :=
    fun i hi => hinv.holds_iff honce.plain hi
  have hall := hled.slots.trans (hled.hands.append_left _)
  have hnodup := (hall.nodup_iff).mp honce.nodup.of_map
  obtain ⟨hslots, hrest, hapart⟩ := List.nodup_append.mp hnodup
  obtain ⟨hpopped, hhands, hapart'⟩ := List.nodup_append.mp hrest
  rcases List.mem_append.mp (hall.mem_iff.mp hp) with hmem | hmem
  · obtain ⟨i, hi, hcell⟩ := Slots.mem_contents.mp hmem
    refine .inl ⟨⟨i, ⟨hi, (hholds i hi).mpr hcell⟩, ?_⟩, ?_, ?_⟩
    · rintro j ⟨hj, hholdsj⟩
      rw [← List.map_id (Slots.contents cap (cells h))] at hslots
      exact Slots.contents_inj hslots hj hi ((hholds j hj).mp hholdsj) hcell rfl
    · intro t ht
      exact hapart p hmem p (List.mem_append_right _ (hled.mem_hands ht)) rfl
    · intro hpop
      exact hapart p hmem p (List.mem_append_left _ hpop) rfl
  · have hnone : ∀ i, i < cap → ¬ s.Holds i p := by
      intro i hi hholdsi
      have hcell := Slots.mem_contents.mpr ⟨i, hi, (hholds i hi).mp hholdsi⟩
      exact hapart p hcell p hmem rfl
    refine .inr ⟨hnone, ?_⟩
    rcases List.mem_append.mp hmem with hpop | hhand
    · refine .inr ⟨fun t ht => hapart' p hpop p (hled.mem_hands ht) rfl, ?_⟩
      obtain ⟨k, hk⟩ := List.mem_iff_getElem?.mp hpop
      obtain ⟨hlt, -⟩ := List.getElem?_eq_some_iff.mp hk
      exact ⟨k, hk, fun l hl => ((List.getElem?_inj hlt hpopped).mp (hk.trans hl.symm)).symm⟩
    · refine .inl ⟨?_, fun hpop => hapart' p hpop p hhand rfl⟩
      obtain ⟨t, ht, hand⟩ := Slots.mem_contents.mp hhand
      refine ⟨t, hand, fun u hu => ?_⟩
      rw [← List.map_id (Slots.contents n s.hands)] at hhands
      exact Slots.contents_inj hhands (hled.hand_lt hu) ht hu hand rfl

/-- Without a call in flight the counter is the number of valid slots. -/
theorem Inv.len_exact (hinv : Inv cap h s) (hcap : cap < usize) (hcount : Counted cap n h s)
    (hidle : ∀ t, s.pc t = .idle) : s.mem.len = s.mem.exactLen cap := by
  have hvalid : ∀ i, i < cap → s.mem.isValid i = (cells h i).isSome := by
    intro i hi
    have hfree := hinv.unclaimed i hi fun t k hk => by rw [hidle t] at hk; cases hk
    rw [Mem.isValid]
    generalize s.mem.word i = w, s.mem.entry i = d, cells h i = c, live h i = l at hfree ⊢
    cases hfree <;> rfl
  have howed : s.owed n = 0 := by
    rw [State.owed]
    refine Finset.sum_eq_zero fun t _ => ?_
    rw [hidle t]
    rfl
  have hbalance := hcount.balance
  rw [howed, add_zero, Int.natCast_modEq_iff] at hbalance
  have hle : filled cap h < usize := lt_of_le_of_lt Slots.contents_length_le hcap
  rw [Mem.exactLen, Slots.countP_range hvalid]
  exact Nat.ModEq.eq_of_lt_of_lt hbalance hcount.len_lt hle

/-- Insertions with pairwise distinct keys: a pair whose `insert` has reported a new
entry is in exactly one slot or with exactly one `pop_first`; only inserted pairs are
popped; an `insert` that has failed has left nothing; and the counter is exact
whenever no call is in flight. -/
theorem entries_kept (hcap : cap < usize) (hrun : (machine K V cap).RunOf Distinct h s) :
    (∀ t k v, (t, .ret (.inserted k v (some none))) ∈ h → Conserved cap h s (k, v)) ∧
    (∀ t p, (t, .ret (.popped (some p))) ∈ h → ∃ u, (u, .call (.insert p.1 p.2)) ∈ h) ∧
    (∀ t k v, (t, .ret (.inserted k v none)) ∈ h →
      (∀ i w, i < cap → ¬ s.Holds i (k, w)) ∧ ∀ u w, (u, .ret (.popped (some (k, w)))) ∉ h) ∧
    ((∀ t, s.pc t = .idle) → s.mem.len = s.mem.exactLen cap) := by
  have hinv := Inv.of_run hrun
  have honce := Once.of_run hrun
  obtain ⟨n, hled⟩ := Ledger.of_run hrun
  obtain ⟨n', hcount⟩ := Counted.of_run hrun
  have hpopped : ∀ t p, (t, .ret (.popped (some p))) ∈ h → p ∈ stored h := by
    intro t p hmem
    have hpop : p ∈ popped h := List.mem_filterMap.mpr ⟨_, hmem, rfl⟩
    have hfreed := hled.hands.mem_iff.mpr (List.mem_append_left _ hpop)
    exact hled.slots.mem_iff.mpr (List.mem_append_right _ hfreed)
  refine ⟨?_, ?_, ?_, hinv.len_exact hcap hcount⟩
  · intro t k v hmem
    exact hled.conserved hinv honce (honce.done t k v hmem)
  · intro t p hmem
    exact mem_inserts.mp (honce.source p (hpopped t p hmem))
  · intro t k v hmem
    obtain ⟨-, hk, -⟩ := honce.failed t k v hmem
    refine ⟨?_, ?_⟩
    · intro i w hi hholds
      have hcell := Slots.mem_contents.mpr ⟨i, hi, (hinv.holds_iff honce.plain hi).mp hholds⟩
      exact hk (List.mem_map_of_mem (hled.slots.mem_iff.mpr (List.mem_append_left _ hcell)))
    · intro u w hpop
      exact hk (List.mem_map_of_mem (hpopped u (k, w) hpop))

/-- A pop that has emptied the slot of the only entry and has not returned yet. -/
theorem entries_kept_one : ∃ (h : History ℕ ℕ) (s : State ℕ ℕ),
    (machine ℕ ℕ 2).RunOf Distinct h s ∧ (0, .ret (.inserted 1 10 (some none))) ∈ h ∧
      s.hands 1 = some (1, 10) ∧ Conserved 2 h s (1, 10) := by
  let r := (playAll 2 (Distinct (K := ℕ) (V := ℕ))
    (.invoke 0 (.insert 1 10) :: goes 0 7 ++ .invoke 1 .popFirst :: goes 1 10)).get (by decide)
  have hrun : (machine ℕ ℕ 2).RunOf Distinct r.1 r.2 := playAll_run (Option.some_get _).symm
  have hmem : (0, .ret (.inserted 1 10 (some none))) ∈ r.1 := by decide
  exact ⟨r.1, r.2, hrun, hmem, by decide,
    (entries_kept (by norm_num [usize]) hrun).1 0 1 10 hmem⟩

end BTreeMap
