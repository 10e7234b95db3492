import Vsched.Map.Machine

/-!
# Who owns a slot of the lock-free map

In every run of the machine a slot nobody has claimed is empty or holds a valid
entry under the version of its word. A claimed slot belongs to one thread, and
what that thread stands in front of says whether the slot still holds the pair
the history has put there, and whether that pair still counts as in the map.
-/

namespace BTreeMap

variable {K V : Type*}

/-- What a thread does with the slot it has locked or claimed. -/
inductive Claim (K V : Type*)
  /-- Phase 2 is about to write its entry. -/
  | reserve
  /-- Phase 2 has written its entry. -/
  | filled (e : Entry K V)
  /-- An update that has not written its entry yet. -/
  | change
  /-- An update that has written its entry. -/
  | changed (e : Entry K V)
  /-- `pop_first` is about to compare the entry with its candidate. -/
  | check (c : Candidate K V)
  /-- The slot will be given back with this version. -/
  | keep (version : ℕ)
  /-- The slot will be emptied. -/
  | drop (x : Exit K V)

/-- The slot a thread has locked or claimed and what it does with it. -/
def Pc.held : Pc K V → Option (ℕ × Claim K V)
  | .fetch _ i => some (i, .change)
  | .rewrite _ i _ => some (i, .change)
  | .republish x i _ => some (i, .changed x.entry)
  | .write _ i => some (i, .reserve)
  | .publish x i => some (i, .filled x.entry)
  | .verify _ c => some (c.index, .check c)
  | .restore j lockedVersion => some (j.slot, .keep lockedVersion)
  | .vacate i x => some (i, .drop x)
  | _ => none

/-- The indices of a thread are slots of the map, and it tries to lock a slot only
after it has seen it valid. -/
def Pc.Bounded (cap : ℕ) : Pc K V → Prop
  | .look _ i => i < cap
  | .peek _ i _ => i < cap
  | .lock j => j.slot < cap
  | .cas j current => j.slot < cap ∧ current.state = .valid
  | .claim _ i => i < cap
  | .scan _ i cs => i < cap ∧ ∀ c ∈ cs, c.index < cap
  | .check _ i _ cs => i < cap ∧ ∀ c ∈ cs, c.index < cap
  | .recheck _ i _ cs => i < cap ∧ ∀ c ∈ cs, c.index < cap
  | .copy _ i _ cs => i < cap ∧ ∀ c ∈ cs, c.index < cap
  | .restore j _ => j.slot < cap
  | .sweep i => i < cap
  | _ => True

/-- A slot nobody has claimed. -/
inductive Free : Word → Option (Entry K V) → Option (K × V) → Option (K × V) → Prop
  | empty {d : Option (Entry K V)} : Free ⟨0, .empty⟩ d none none
  | valid {e : Entry K V} :
      Free ⟨e.slotVersion, .valid⟩ (some e) (some e.pair) (some e.pair)

section

variable {w : Word} {d : Option (Entry K V)} {c l : Option (K × V)}

theorem Free.of_valid (h : Free w d c l) (hw : w.state = .valid) :
    ∃ e : Entry K V, w = ⟨e.slotVersion, .valid⟩ ∧ d = some e ∧ c = some e.pair ∧
      l = some e.pair := by
  cases h with
  | empty => cases hw
  | valid => exact ⟨_, rfl, rfl, rfl, rfl⟩

theorem Free.of_empty (h : Free w d c l) (hw : w.state = .empty) : c = none ∧ l = none := by
  cases h with
  | empty => exact ⟨rfl, rfl⟩
  | valid => cases hw

end

/-- An event after which the slots hold what they have held. -/
def Event.Quiet : Event K V → Prop
  | .stored _ _ => False
  | .took _ => False
  | .freed _ _ => False
  | _ => True

section Quiet

variable {h : History K V} {t : ℕ} {a : Event K V}

theorem Event.Quiet.cells (hq : a.Quiet) : cells ((t, a) :: h) = cells h := by
  cases a <;> first | rfl | exact hq.elim

theorem Event.Quiet.live (hq : a.Quiet) : live ((t, a) :: h) = live h := by
  cases a <;> first | rfl | exact hq.elim

end Quiet

variable {cap : ℕ} {h : History K V} {s : State K V} {t i : ℕ}

theorem cells_stored (j : ℕ) (p : K × V) :
    cells ((t, .stored j p) :: h) = Function.update (cells h) j (some p) := by
  funext i
  by_cases hij : i = j <;> simp [cells, hij]

theorem cells_freed (j : ℕ) (p : Option (K × V)) :
    cells ((t, .freed j p) :: h) = Function.update (cells h) j none := by
  funext i
  by_cases hij : i = j <;> simp [cells, hij]

theorem live_stored (j : ℕ) (p : K × V) :
    live ((t, .stored j p) :: h) = Function.update (live h) j (some p) := by
  funext i
  by_cases hij : i = j <;> simp [live, hij]

theorem live_took (j : ℕ) :
    live ((t, .took j) :: h : History K V) = Function.update (live h) j none := by
  funext i
  by_cases hij : i = j <;> simp [live, hij]

/-- Where a thread goes on without a slot. -/
structure Calm (cap : ℕ) (r : Pc K V × Event K V) : Prop where
  held : r.1.held = none
  bounded : r.1.Bounded cap
  quiet : r.2.Quiet

/-- Where a call goes on after a pass over the slots, or a part of it, has not
brought it to an end. An `insert` in progress carries its pair `o`. -/
inductive Onward (cap : ℕ) : Option (K × V) → Pc K V × Event K V → Prop
  | failed (x : Ins K V) :
      Onward cap (some x.entry.pair) (.idle, .ret (.inserted x.key x.value none))
  | look (x : Ins K V) {i : ℕ} (hi : i < cap) :
      Onward cap (some x.entry.pair) (.look x i, .silent)
  | claim (x : Ins K V) {i : ℕ} (hi : i < cap) :
      Onward cap (some x.entry.pair) (.claim x i, .silent)
  | nothing : Onward cap none (.idle, .ret (.popped none))
  | scan {retries i : ℕ} {cs : List (Candidate K V)} (hi : i < cap)
      (hcs : ∀ c ∈ cs, c.index < cap) : Onward cap none (.scan retries i cs, .silent)
  | lock {retries : ℕ} {c : Candidate K V} (hc : c.index < cap) :
      Onward cap none (.lock (.pop retries c), .silent)
  | cleared : Onward cap none (.idle, .ret .cleared)
  | sweep {i : ℕ} (hi : i < cap) : Onward cap none (.sweep i, .silent)

theorem Onward.calm {o : Option (K × V)} {r : Pc K V × Event K V} (h : Onward cap o r) :
    Calm cap r := by
  cases h with
  | failed x => exact ⟨rfl, trivial, trivial⟩
  | look x hi => exact ⟨rfl, hi, trivial⟩
  | claim x hi => exact ⟨rfl, hi, trivial⟩
  | nothing => exact ⟨rfl, trivial, trivial⟩
  | scan hi hcs => exact ⟨rfl, ⟨hi, hcs⟩, trivial⟩
  | lock hc => exact ⟨rfl, hc, trivial⟩
  | cleared => exact ⟨rfl, trivial, trivial⟩
  | sweep hi => exact ⟨rfl, hi, trivial⟩

/-- The pair of the `insert` a slot is locked for. -/
def Job.pending : Job K V → Option (K × V)
  | .update x _ _ => some x.entry.pair
  | _ => none

section

variable {x : Ins K V}

theorem lookNext_onward (hi : i < cap) :
    Onward cap (some x.entry.pair) (lookNext cap x i, .silent) := by
  unfold lookNext
  split
  case isTrue hnext => exact .look x hnext
  case isFalse => exact .claim x (by omega)

theorem insertRetry_onward (hcap : 0 < x.retries → 0 < cap) :
    Onward cap (some x.entry.pair) (insertRetry x) := by
  unfold insertRetry
  split
  · exact .failed x
  case _ retries hretries => exact .look { x with retries := retries } (hcap (by omega))

/-- The first attempt of an `insert`. -/
theorem insertFirst_onward (key : K) (value : V) (insertVersion : ℕ) :
    Onward cap (some (key, value)) (insertRetry ⟨key, value, insertVersion, cap⟩) := by
  have honward := @insertRetry_onward _ _ cap ⟨key, value, insertVersion, cap⟩
  exact honward fun hcap => hcap

theorem claimNext_onward (hi : i < cap) : Onward cap (some x.entry.pair) (claimNext cap x i) := by
  unfold claimNext
  split
  case isTrue hnext => exact .claim x hnext
  case isFalse => exact insertRetry_onward fun _ => by omega

end

theorem sweepFrom_onward : Onward cap none (sweepFrom cap i : Pc K V × Event K V) := by
  unfold sweepFrom
  split
  case isTrue hi => exact .sweep hi
  case isFalse => exact .cleared

/-- What a thread does with the slot it has locked with the version
`lockedVersion`. -/
def Job.hold (j : Job K V) (lockedVersion : ℕ) : Claim K V :=
  if lockedVersion = j.version then
    match j with
    | .update _ _ _ => .change
    | .pop _ c => .check c
    | .clear i _ => .drop (.clear i)
  else .keep lockedVersion

theorem Job.locked_held (j : Job K V) (lockedVersion : ℕ) :
    (j.locked lockedVersion).held = some (j.slot, j.hold lockedVersion) := by
  unfold locked hold
  cases j <;> split <;> rfl

theorem Job.locked_bounded {j : Job K V} (lockedVersion : ℕ) (hj : j.slot < cap) :
    (j.locked lockedVersion).Bounded cap := by
  unfold locked
  cases j <;> split <;> first | exact trivial | exact hj

variable [LinearOrder K]

/-- A claimed slot: its word, its entry, the pair it holds and the pair it adds to
the map. -/
inductive Claim.Fits : Claim K V → Word → Option (Entry K V) → Option (K × V) →
    Option (K × V) → Prop
  | reserve {version : ℕ} {d : Option (Entry K V)} :
      Fits .reserve ⟨version, .writing⟩ d none none
  | filled {version : ℕ} {e : Entry K V} :
      Fits (.filled e) ⟨version, .writing⟩ (some e) none none
  | change {version : ℕ} {e : Entry K V} :
      Fits .change ⟨version, .deleting⟩ (some e) (some e.pair) (some e.pair)
  | changed {version : ℕ} {e : Entry K V} {p : K × V} :
      Fits (.changed e) ⟨version, .deleting⟩ (some e) (some p) (some p)
  | check {c : Candidate K V} {e : Entry K V} (hversion : e.slotVersion = c.slotVersion) :
      Fits (.check c) ⟨c.slotVersion, .deleting⟩ (some e) (some e.pair)
        (if c.Matches e then none else some e.pair)
  | keep {e : Entry K V} :
      Fits (.keep e.slotVersion) ⟨e.slotVersion, .deleting⟩ (some e) (some e.pair)
        (some e.pair)
  | drop {version : ℕ} {e : Entry K V} {x : Exit K V} (hpair : ∀ p, x = .pop p → p = e.pair) :
      Fits (.drop x) ⟨version, .deleting⟩ (some e) (some e.pair) none

section Slot

variable {k : Claim K V} {w : Word} {d : Option (Entry K V)} {c l : Option (K × V)}

theorem Claim.Fits.state (h : k.Fits w d c l) : w.state = .writing ∨ w.state = .deleting := by
  cases h <;> simp

theorem Claim.Fits.of_reserve (h : Claim.reserve.Fits w d c l) :
    (∃ version, w = ⟨version, .writing⟩) ∧ c = none ∧ l = none := by
  cases h
  exact ⟨⟨_, rfl⟩, rfl, rfl⟩

theorem Claim.Fits.of_filled {e : Entry K V} (h : (Claim.filled e).Fits w d c l) :
    d = some e ∧ c = none ∧ l = none := by
  cases h
  exact ⟨rfl, rfl, rfl⟩

theorem Claim.Fits.of_change (h : Claim.change.Fits w d c l) :
    ∃ version, ∃ e : Entry K V, w = ⟨version, .deleting⟩ ∧ d = some e ∧ c = some e.pair ∧
      l = some e.pair := by
  cases h
  exact ⟨_, _, rfl, rfl, rfl, rfl⟩

theorem Claim.Fits.of_changed {e : Entry K V} (h : (Claim.changed e).Fits w d c l) :
    d = some e ∧ ∃ p, c = some p ∧ l = some p := by
  cases h
  exact ⟨rfl, _, rfl, rfl⟩

theorem Claim.Fits.of_check {x : Candidate K V} (h : (Claim.check x).Fits w d c l) :
    ∃ e : Entry K V, e.slotVersion = x.slotVersion ∧ w = ⟨x.slotVersion, .deleting⟩ ∧
      d = some e ∧ c = some e.pair ∧ l = if x.Matches e then none else some e.pair := by
  cases h with
  | check hversion => exact ⟨_, hversion, rfl, rfl, rfl, rfl⟩

theorem Claim.Fits.of_keep {version : ℕ} (h : (Claim.keep version).Fits w d c l) :
    ∃ e : Entry K V, e.slotVersion = version ∧ d = some e ∧ c = some e.pair ∧
      l = some e.pair := by
  cases h
  exact ⟨_, rfl, rfl, rfl, rfl⟩

theorem Claim.Fits.of_drop {x : Exit K V} (h : (Claim.drop x).Fits w d c l) :
    ∃ e : Entry K V, (∀ p, x = .pop p → p = e.pair) ∧ d = some e ∧ c = some e.pair ∧
      l = none := by
  cases h with
  | drop hpair => exact ⟨_, hpair, rfl, rfl, rfl⟩

end Slot

/-- The invariant of the slots after the history `h`. -/
structure Inv (cap : ℕ) (h : History K V) (s : State K V) : Prop where
  bounded : ∀ t, (s.pc t).Bounded cap
  claimed : ∀ t i k, (s.pc t).held = some (i, k) →
    i < cap ∧ k.Fits (s.mem.word i) (s.mem.entry i) (cells h i) (live h i)
  unclaimed : ∀ i, i < cap → (∀ t k, (s.pc t).held ≠ some (i, k)) →
    Free (s.mem.word i) (s.mem.entry i) (cells h i) (live h i)
  exclusive : ∀ t u i k k', (s.pc t).held = some (i, k) → (s.pc u).held = some (i, k') → t = u

theorem Inv.init : Inv cap [] (State.init : State K V) where
  bounded := fun _ => trivial
  claimed := by
    intro t i k hk
    simp [State.init, Pc.held] at hk
  unclaimed := fun _ _ _ => .empty
  exclusive := by
    intro t u i k k' hk
    simp [State.init, Pc.held] at hk

/-- A step of thread `t` that touches no slot but `i` keeps the invariant if slot
`i` is again in order: claimed by `t` alone, or claimed by nobody. -/
theorem Inv.update {m' : Mem K V} {p : Pc K V} {a : Event K V} (hinv : Inv cap h s)
    (hbound : p.Bounded cap)
    (hold : ∀ j k, (s.pc t).held = some (j, k) → j = i)
    (hother : ∀ u k, u ≠ t → (s.pc u).held ≠ some (i, k))
    (hframe : ∀ j, j ≠ i → m'.word j = s.mem.word j ∧ m'.entry j = s.mem.entry j ∧
      cells ((t, a) :: h) j = cells h j ∧ live ((t, a) :: h) j = live h j)
    (hnew : ∀ j k, p.held = some (j, k) → j = i ∧ i < cap ∧
      k.Fits (m'.word i) (m'.entry i) (cells ((t, a) :: h) i) (live ((t, a) :: h) i))
    (hfree : i < cap → p.held = none →
      Free (m'.word i) (m'.entry i) (cells ((t, a) :: h) i) (live ((t, a) :: h) i)) :
    Inv cap ((t, a) :: h) ⟨m', Function.update s.pc t p⟩ where
  bounded := by
    intro u
    by_cases hu : u = t
    · subst hu
      simpa using hbound
    · simpa [hu] using hinv.bounded u
  claimed := by
    intro u j k hk
    by_cases hu : u = t
    · subst hu
      simp only [Function.update_self] at hk
      obtain ⟨rfl, hi, hfits⟩ := hnew j k hk
      exact ⟨hi, hfits⟩
    · simp only [Function.update_of_ne hu] at hk
      have hji : j ≠ i := by
        rintro rfl
        exact hother u k hu hk
      obtain ⟨hword, hentry, hcell, hlive⟩ := hframe j hji
      obtain ⟨hj, hfits⟩ := hinv.claimed u j k hk
      refine ⟨hj, ?_⟩
      simpa only [hword, hentry, hcell, hlive] using hfits
  unclaimed := by
    intro j hj hnone
    by_cases hji : j = i
    · subst hji
      refine hfree hj ?_
      cases hp : p.held with
      | none => rfl
      | some jk =>
          obtain ⟨j', k⟩ := jk
          obtain ⟨rfl, -, -⟩ := hnew j' k hp
          exact absurd (by simpa using hp) (hnone t k)
    · obtain ⟨hword, hentry, hcell, hlive⟩ := hframe j hji
      have hold' : ∀ u k, (s.pc u).held ≠ some (j, k) := by
        intro u k hk
        by_cases hu : u = t
        · subst hu
          exact hji (hold j k hk)
        · exact hnone u k (by simpa [hu] using hk)
      simpa only [hword, hentry, hcell, hlive] using hinv.unclaimed j hj hold'
  exclusive := by
    intro u v j k k' hu hv
    by_cases hut : u = t <;> by_cases hvt : v = t
    · rw [hut, hvt]
    · subst hut
      simp only [Function.update_self, Function.update_of_ne hvt] at hu hv
      obtain ⟨rfl, -, -⟩ := hnew j k hu
      exact absurd hv (hother v k' hvt)
    · subst hvt
      simp only [Function.update_self, Function.update_of_ne hut] at hu hv
      obtain ⟨rfl, -, -⟩ := hnew j k' hv
      exact absurd hu (hother u k hut)
    · simp only [Function.update_of_ne hut, Function.update_of_ne hvt] at hu hv
      exact hinv.exclusive u v j k k' hu hv

/-- A step that leaves the slots alone and holds none keeps the invariant. -/
theorem Inv.stay {m' : Mem K V} {r : Pc K V × Event K V} (hinv : Inv cap h s)
    (hword : m'.word = s.mem.word) (hentry : m'.entry = s.mem.entry)
    (hold : (s.pc t).held = none) (hcalm : Calm cap r) :
    Inv cap ((t, r.2) :: h) ⟨m', Function.update s.pc t r.1⟩ where
  bounded := by
    intro u
    by_cases hu : u = t
    · subst hu
      simpa using hcalm.bounded
    · simpa [hu] using hinv.bounded u
  claimed := by
    intro u j k hk
    rw [hcalm.quiet.cells, hcalm.quiet.live]
    simp only [hword, hentry]
    by_cases hu : u = t
    · subst hu
      simp [hcalm.held] at hk
    · exact hinv.claimed u j k (by simpa [hu] using hk)
  unclaimed := by
    intro j hj hnone
    rw [hcalm.quiet.cells, hcalm.quiet.live]
    simp only [hword, hentry]
    refine hinv.unclaimed j hj ?_
    intro u k hk
    by_cases hu : u = t
    · subst hu
      simp [hold] at hk
    · exact hnone u k (by simpa [hu] using hk)
  exclusive := by
    intro u v j k k' hu hv
    have hut : u ≠ t := by
      rintro rfl
      simp [hcalm.held] at hu
    have hvt : v ≠ t := by
      rintro rfl
      simp [hcalm.held] at hv
    exact hinv.exclusive u v j k k' (by simpa [hut] using hu) (by simpa [hvt] using hv)

/-- A slot in a state that no claim leaves it in is claimed by nobody. -/
theorem Inv.not_claimed (hinv : Inv cap h s) (hw : (s.mem.word i).state ≠ .writing)
    (hd : (s.mem.word i).state ≠ .deleting) : ∀ t k, (s.pc t).held ≠ some (i, k) := by
  intro t k hk
  rcases (hinv.claimed t i k hk).2.state with h | h
  · exact hw h
  · exact hd h

theorem Inv.others {k : Claim K V} (hinv : Inv cap h s) (hk : (s.pc t).held = some (i, k)) :
    ∀ u k', u ≠ t → (s.pc u).held ≠ some (i, k') :=
  fun u _ hu hk' => hu (hinv.exclusive u t i _ k hk' hk)

/-- A valid slot holds an entry under the version of its word. -/
theorem Inv.valid (hinv : Inv cap h s) (hi : i < cap) (hw : (s.mem.word i).state = .valid) :
    ∃ e : Entry K V, s.mem.word i = ⟨e.slotVersion, .valid⟩ ∧ s.mem.entry i = some e ∧
      cells h i = some e.pair ∧ live h i = some e.pair := by
  have hfree := hinv.not_claimed (i := i) (by rw [hw]; simp) (by rw [hw]; simp)
  exact (hinv.unclaimed i hi hfree).of_valid hw

/-- A step that changes only the slot `i` its thread holds. -/
theorem Inv.local {m' : Mem K V} {k : Claim K V} {p : Pc K V} {a : Event K V}
    (hinv : Inv cap h s) (hk : (s.pc t).held = some (i, k))
    (hframe : ∀ j, j ≠ i → m'.word j = s.mem.word j ∧ m'.entry j = s.mem.entry j ∧
      cells ((t, a) :: h) j = cells h j ∧ live ((t, a) :: h) j = live h j)
    (hbound : p.Bounded cap)
    (hnew : ∀ j k', p.held = some (j, k') → j = i ∧
      k'.Fits (m'.word i) (m'.entry i) (cells ((t, a) :: h) i) (live ((t, a) :: h) i))
    (hfree : p.held = none →
      Free (m'.word i) (m'.entry i) (cells ((t, a) :: h) i) (live ((t, a) :: h) i)) :
    Inv cap ((t, a) :: h) ⟨m', Function.update s.pc t p⟩ := by
  obtain ⟨hi, -⟩ := hinv.claimed t i k hk
  refine hinv.update hbound ?_ (hinv.others hk) hframe ?_ fun _ => hfree
  · intro j k' hk'
    rw [hk, Option.some.injEq, Prod.mk.injEq] at hk'
    exact hk'.1.symm
  · intro j k' hk'
    exact ⟨(hnew j k' hk').1, hi, (hnew j k' hk').2⟩

section Onward

variable {c : Candidate K V} {cs : List (Candidate K V)} {j : Job K V}

omit [LinearOrder K] in
theorem candidates_bounded (hcs : ∀ c ∈ cs, c.index < cap) (hc : c.index < cap) :
    ∀ d ∈ cs ++ [c], d.index < cap := by
  intro d hd
  rcases List.mem_append.mp hd with hd | hd
  · exact hcs d hd
  · rw [List.mem_singleton.mp hd]
    exact hc

theorem scanFrom_onward {retries : ℕ} (hcs : ∀ c ∈ cs, c.index < cap) :
    Onward cap none (scanFrom cap retries i cs) := by
  unfold scanFrom
  split
  case isTrue hi => exact .scan hi hcs
  case isFalse =>
    split
    · exact .nothing
    case _ c hmin => exact .lock (hcs c (Candidate.findMin_some hmin).1)

theorem popRetry_onward (retries : ℕ) :
    Onward cap none (popRetry cap retries : Pc K V × Event K V) := by
  unfold popRetry
  split
  · exact .nothing
  · exact scanFrom_onward (by simp)

theorem Job.refused_onward (hj : j.slot < cap) : Onward cap j.pending (j.refused cap) := by
  cases j with
  | update x i version => exact lookNext_onward hj
  | pop retries c => exact popRetry_onward retries
  | clear i version => exact sweepFrom_onward

theorem Job.restored_onward (hj : j.slot < cap) : Onward cap j.pending (j.restored cap) := by
  cases j with
  | update x i version => exact .claim x (by omega)
  | pop retries c => exact popRetry_onward retries
  | clear i version => exact sweepFrom_onward

end Onward

/-- A slot that has just been locked. -/
theorem Job.hold_fits (j : Job K V) (e : Entry K V) :
    (j.hold e.slotVersion).Fits ⟨e.slotVersion, .deleting⟩ (some e) (some e.pair)
      (if j.takes e.slotVersion (some e) then none else some e.pair) := by
  unfold hold
  split
  case isTrue hversion =>
    cases j with
    | update x i version =>
        rw [if_neg (fun htakes => htakes.2)]
        exact .change
    | pop retries c =>
        have htakes : Job.takes (.pop retries c) e.slotVersion (some e) ↔ c.Matches e :=
          and_iff_right hversion
        simp only [htakes]
        rw [show e.slotVersion = c.slotVersion from hversion]
        exact .check hversion
    | clear i version =>
        rw [if_pos ⟨hversion, trivial⟩]
        exact .drop (by simp)
  case isFalse hversion =>
    rw [if_neg (fun htakes => hversion htakes.1)]
    exact .keep

/-- Locking a valid slot. -/
theorem Inv.lock_slot {j : Job K V} (hinv : Inv cap h s) (hnone : (s.pc t).held = none)
    (hj : j.slot < cap) (hw : (s.mem.word j.slot).state = .valid) :
    Inv cap ((t, if j.takes (s.mem.word j.slot).version (s.mem.entry j.slot) then .took j.slot
        else .silent) :: h)
      ⟨s.mem.setWord j.slot ⟨(s.mem.word j.slot).version, .deleting⟩,
        Function.update s.pc t (j.locked (s.mem.word j.slot).version)⟩ := by
  obtain ⟨e, hword, hentry, hcell, hlive⟩ := hinv.valid hj hw
  have hfree := hinv.not_claimed (i := j.slot) (by rw [hw]; simp) (by rw [hw]; simp)
  rw [hword, hentry]
  have hcells : cells ((t, if j.takes e.slotVersion (some e) then .took j.slot else .silent) :: h)
      = cells h := by
    split <;> rfl
  have hlives : live ((t, if j.takes e.slotVersion (some e) then .took j.slot else .silent) :: h)
      = if j.takes e.slotVersion (some e) then Function.update (live h) j.slot none
        else live h := by
    split
    · exact live_took _
    · rfl
  refine hinv.update (i := j.slot) (j.locked_bounded _ hj) ?_ (fun u k _ => hfree u k) ?_ ?_ ?_
  · intro i k hk
    rw [hnone] at hk
    cases hk
  · intro i hi
    refine ⟨Function.update_of_ne hi _ _, rfl, by rw [hcells], ?_⟩
    rw [hlives]
    split
    · exact Function.update_of_ne hi _ _
    · rfl
  · intro i k hk
    rw [j.locked_held, Option.some.injEq, Prod.mk.injEq] at hk
    obtain ⟨rfl, rfl⟩ := hk
    refine ⟨rfl, hj, ?_⟩
    have hfits := j.hold_fits e
    rw [hcells, hcell, hlives]
    simp only [Mem.setWord, Function.update_self]
    rw [hentry]
    split at hfits
    case isTrue htakes => rwa [if_pos htakes, Function.update_self]
    case isFalse htakes => rwa [if_neg htakes, hlive]
  · intro _ hk
    rw [j.locked_held] at hk
    cases hk

/-- Phase 2 claims an empty slot. -/
theorem Inv.claim_slot {x : Ins K V} (hinv : Inv cap h s) (hnone : (s.pc t).held = none)
    (hi : i < cap) (hw : s.mem.word i = .free) :
    Inv cap ((t, .silent) :: h)
      ⟨s.mem.setWord i ⟨x.slotVersion, .writing⟩, Function.update s.pc t (.write x i)⟩ := by
  have hstate : (s.mem.word i).state = .empty := by rw [hw]; rfl
  have hfree := hinv.not_claimed (i := i) (by rw [hstate]; simp) (by rw [hstate]; simp)
  obtain ⟨hcell, hlive⟩ := (hinv.unclaimed i hi hfree).of_empty hstate
  refine hinv.update (i := i) trivial ?_ (fun u k _ => hfree u k) ?_ ?_
    (fun _ hk => by cases hk)
  · intro j k hk
    rw [hnone] at hk
    cases hk
  · intro j hj
    exact ⟨Function.update_of_ne hj _ _, rfl, rfl, rfl⟩
  · intro j k hk
    simp only [Pc.held, Option.some.injEq, Prod.mk.injEq] at hk
    obtain ⟨rfl, rfl⟩ := hk
    refine ⟨rfl, hi, ?_⟩
    simp only [Mem.setWord, Function.update_self]
    change Claim.Fits _ _ _ (cells h _) (live h _)
    rw [hcell, hlive]
    exact .reserve

/-- A slot of which only the owner has written the entry, or the word for another
lock. -/
theorem Inv.rewritten {m' : Mem K V} {k k' : Claim K V} {p : Pc K V} (hinv : Inv cap h s)
    (hk : (s.pc t).held = some (i, k))
    (hframe : ∀ j, j ≠ i → m'.word j = s.mem.word j ∧ m'.entry j = s.mem.entry j)
    (hp : p.held = some (i, k')) (hbound : p.Bounded cap)
    (hfits : k'.Fits (m'.word i) (m'.entry i) (cells h i) (live h i)) :
    Inv cap ((t, .silent) :: h) ⟨m', Function.update s.pc t p⟩ := by
  refine hinv.local hk (fun j hj => ⟨(hframe j hj).1, (hframe j hj).2, rfl, rfl⟩) hbound ?_ ?_
  · intro j k'' hk''
    rw [hp, Option.some.injEq, Prod.mk.injEq] at hk''
    obtain ⟨rfl, rfl⟩ := hk''
    exact ⟨rfl, hfits⟩
  · intro hnone
    rw [hp] at hnone
    cases hnone

theorem Inv.write_slot {x : Ins K V} (hinv : Inv cap h s) (hpc : s.pc t = .write x i) :
    Inv cap ((t, .silent) :: h)
      ⟨s.mem.setEntry i x.entry, Function.update s.pc t (.publish x i)⟩ := by
  have hheld : (s.pc t).held = some (i, .reserve) := by rw [hpc]; rfl
  obtain ⟨⟨version, hword⟩, hcell, hlive⟩ := (hinv.claimed t _ _ hheld).2.of_reserve
  refine hinv.rewritten hheld (fun j hj => ⟨rfl, Function.update_of_ne hj _ _⟩) rfl trivial ?_
  simp only [Mem.setEntry, Function.update_self]
  rw [hword, hcell, hlive]
  exact .filled

theorem Inv.fetch_slot {x : Ins K V} {v : V} (hinv : Inv cap h s) (hpc : s.pc t = .fetch x i) :
    Inv cap ((t, .silent) :: h) ⟨s.mem, Function.update s.pc t (.rewrite x i v)⟩ := by
  have hheld : (s.pc t).held = some (i, .change) := by rw [hpc]; rfl
  exact hinv.rewritten hheld (fun _ _ => ⟨rfl, rfl⟩) rfl trivial (hinv.claimed t _ _ hheld).2

theorem Inv.rewrite_slot {x : Ins K V} {v : V} (hinv : Inv cap h s)
    (hpc : s.pc t = .rewrite x i v) :
    Inv cap ((t, .silent) :: h)
      ⟨s.mem.setEntry i x.entry, Function.update s.pc t (.republish x i v)⟩ := by
  have hheld : (s.pc t).held = some (i, .change) := by rw [hpc]; rfl
  obtain ⟨version, e, hword, -, hcell, hlive⟩ := (hinv.claimed t _ _ hheld).2.of_change
  refine hinv.rewritten hheld (fun j hj => ⟨rfl, Function.update_of_ne hj _ _⟩) rfl trivial ?_
  simp only [Mem.setEntry, Function.update_self]
  rw [hword, hcell, hlive]
  exact .changed

theorem Inv.verify_slot {retries : ℕ} {c : Candidate K V} (hinv : Inv cap h s)
    (hpc : s.pc t = .verify retries c) :
    Inv cap ((t, (BTreeMap.tick cap s.mem (.verify retries c)).2.2) :: h)
      ⟨s.mem, Function.update s.pc t (BTreeMap.tick cap s.mem (.verify retries c)).2.1⟩ := by
  have hheld : (s.pc t).held = some (c.index, .check c) := by rw [hpc]; rfl
  obtain ⟨hindex, hfits⟩ := hinv.claimed t _ _ hheld
  obtain ⟨e, hversion, hword, hentry, hcell, hlive⟩ := hfits.of_check
  simp only [BTreeMap.tick, hentry]
  split
  case isTrue hmatch =>
    refine hinv.rewritten hheld (fun _ _ => ⟨rfl, rfl⟩) rfl trivial ?_
    rw [hword, hentry, hcell, hlive, if_pos hmatch]
    refine .drop ?_
    rintro p ⟨⟩
    rfl
  case isFalse hmatch =>
    refine hinv.rewritten hheld (fun _ _ => ⟨rfl, rfl⟩) rfl hindex ?_
    rw [hword, hentry, hcell, hlive, if_neg hmatch, ← hversion]
    exact .keep

/-- A slot becomes valid with the entry its owner has written. -/
theorem Inv.publish_slot {k : Claim K V} {e : Entry K V} {p : Pc K V} (hinv : Inv cap h s)
    (hk : (s.pc t).held = some (i, k)) (hentry : s.mem.entry i = some e) (hp : p.held = none)
    (hbound : p.Bounded cap) :
    Inv cap ((t, .stored i e.pair) :: h)
      ⟨s.mem.markValid i e.slotVersion, Function.update s.pc t p⟩ := by
  refine hinv.local hk ?_ hbound ?_ ?_
  · intro j hj
    rw [cells_stored, live_stored]
    exact ⟨Function.update_of_ne hj _ _, rfl, Function.update_of_ne hj _ _,
      Function.update_of_ne hj _ _⟩
  · intro j k' hk'
    rw [hp] at hk'
    cases hk'
  · intro _
    rw [cells_stored, live_stored]
    simp only [Mem.markValid, Mem.setWord, Function.update_self]
    rw [hentry]
    exact .valid

/-- A slot is given back with its entry. -/
theorem Inv.restore_slot {j : Job K V} {lockedVersion : ℕ} {r : Pc K V × Event K V}
    (hinv : Inv cap h s) (hpc : s.pc t = .restore j lockedVersion) (hcalm : Calm cap r) :
    Inv cap ((t, r.2) :: h)
      ⟨s.mem.markValid j.slot lockedVersion, Function.update s.pc t r.1⟩ := by
  have hheld : (s.pc t).held = some (j.slot, .keep lockedVersion) := by rw [hpc]; rfl
  obtain ⟨e, rfl, hentry, hcell, hlive⟩ := (hinv.claimed t _ _ hheld).2.of_keep
  refine hinv.local hheld ?_ hcalm.bounded ?_ ?_
  · intro i hi
    rw [hcalm.quiet.cells, hcalm.quiet.live]
    exact ⟨Function.update_of_ne hi _ _, rfl, rfl, rfl⟩
  · intro i k hk
    rw [hcalm.held] at hk
    cases hk
  · intro _
    rw [hcalm.quiet.cells, hcalm.quiet.live]
    simp only [Mem.markValid, Mem.setWord, Function.update_self]
    rw [hentry, hcell, hlive]
    exact .valid

theorem Inv.vacate_slot {x : Exit K V} (hinv : Inv cap h s) (hpc : s.pc t = .vacate i x) :
    Inv cap ((t, .freed i ((s.mem.entry i).map Entry.pair)) :: h)
      ⟨s.mem.markEmpty i, Function.update s.pc t (.uncount x)⟩ := by
  have hheld : (s.pc t).held = some (i, .drop x) := by rw [hpc]; rfl
  obtain ⟨e, -, -, -, hlive⟩ := (hinv.claimed t _ _ hheld).2.of_drop
  refine hinv.local hheld ?_ trivial (fun j k hk => by cases hk) ?_
  · intro j hj
    rw [cells_freed]
    exact ⟨Function.update_of_ne hj _ _, rfl, Function.update_of_ne hj _ _, rfl⟩
  · intro _
    rw [cells_freed]
    change Free _ _ _ (live h i)
    simp only [Mem.markEmpty, Mem.setWord, Function.update_self]
    rw [hlive]
    exact .empty

/-- Every access keeps the invariant. -/
theorem Inv.tick (hinv : Inv cap h s) :
    Inv cap ((t, (BTreeMap.tick cap s.mem (s.pc t)).2.2) :: h)
      ⟨(BTreeMap.tick cap s.mem (s.pc t)).1,
        Function.update s.pc t (BTreeMap.tick cap s.mem (s.pc t)).2.1⟩ := by
  have hbound := hinv.bounded t
  -- a thread without a slot that goes on without one
  have hstay : ∀ {p : Pc K V} {m' : Mem K V} {r : Pc K V × Event K V}, s.pc t = p →
      p.held = none → m'.word = s.mem.word → m'.entry = s.mem.entry → Calm cap r →
      Inv cap ((t, r.2) :: h) ⟨m', Function.update s.pc t r.1⟩ := by
    intro p m' r hp hnone hword hentry hcalm
    exact hinv.stay hword hentry (by rw [hp, hnone]) hcalm
  cases hpc : s.pc t with
  | idle => exact hstay hpc rfl rfl rfl ⟨rfl, trivial, trivial⟩
  | enter c =>
      cases c with
      | insert key value => exact hstay hpc rfl rfl rfl (insertFirst_onward key value _).calm
      | popFirst => exact hstay hpc rfl rfl rfl (popRetry_onward 16).calm
      | clear => exact hstay hpc rfl rfl rfl sweepFrom_onward.calm
  | look x i =>
      rw [hpc] at hbound
      simp only [BTreeMap.tick]
      split
      · exact hstay hpc rfl rfl rfl ⟨rfl, hbound, trivial⟩
      · exact hstay hpc rfl rfl rfl (lookNext_onward hbound).calm
  | peek x i version =>
      rw [hpc] at hbound
      simp only [BTreeMap.tick]
      split
      · split
        · exact hstay hpc rfl rfl rfl ⟨rfl, hbound, trivial⟩
        · exact hstay hpc rfl rfl rfl (lookNext_onward hbound).calm
      · exact hstay hpc rfl rfl rfl (lookNext_onward hbound).calm
  | lock j =>
      rw [hpc] at hbound
      simp only [BTreeMap.tick]
      split
      case isTrue hvalid => exact hstay hpc rfl rfl rfl ⟨rfl, ⟨hbound, hvalid⟩, trivial⟩
      case isFalse => exact hstay hpc rfl rfl rfl (j.refused_onward hbound).calm
  | cas j current =>
      rw [hpc] at hbound
      simp only [BTreeMap.tick]
      split
      case isTrue hsame =>
        subst hsame
        exact hinv.lock_slot (by rw [hpc]; rfl) hbound.1 hbound.2
      case isFalse => exact hstay hpc rfl rfl rfl (j.refused_onward hbound.1).calm
  | fetch x i =>
      have hheld : (s.pc t).held = some (i, .change) := by rw [hpc]; rfl
      obtain ⟨-, e, -, hentry, -, -⟩ := (hinv.claimed t _ _ hheld).2.of_change
      simp only [BTreeMap.tick, hentry]
      exact hinv.fetch_slot hpc
  | rewrite x i v => exact hinv.rewrite_slot hpc
  | republish x i v =>
      have hheld : (s.pc t).held = some (i, .changed x.entry) := by rw [hpc]; rfl
      exact hinv.publish_slot hheld (hinv.claimed t _ _ hheld).2.of_changed.1 rfl trivial
  | updated x v => exact hstay hpc rfl rfl rfl ⟨rfl, trivial, trivial⟩
  | claim x i =>
      rw [hpc] at hbound
      simp only [BTreeMap.tick]
      split
      case isTrue hempty => exact hinv.claim_slot (by rw [hpc]; rfl) hbound hempty
      case isFalse => exact hstay hpc rfl rfl rfl (claimNext_onward hbound).calm
  | write x i => exact hinv.write_slot hpc
  | publish x i =>
      have hheld : (s.pc t).held = some (i, .filled x.entry) := by rw [hpc]; rfl
      exact hinv.publish_slot hheld (hinv.claimed t _ _ hheld).2.of_filled.1 rfl trivial
  | count x => exact hstay hpc rfl rfl rfl ⟨rfl, trivial, trivial⟩
  | scan retries i cs =>
      rw [hpc] at hbound
      simp only [BTreeMap.tick]
      split
      · exact hstay hpc rfl rfl rfl ⟨rfl, hbound, trivial⟩
      · exact hstay hpc rfl rfl rfl (scanFrom_onward hbound.2).calm
  | check retries i version cs =>
      rw [hpc] at hbound
      simp only [BTreeMap.tick]
      split
      · split
        · exact hstay hpc rfl rfl rfl ⟨rfl, hbound, trivial⟩
        · exact hstay hpc rfl rfl rfl (scanFrom_onward hbound.2).calm
      · exact hstay hpc rfl rfl rfl (scanFrom_onward hbound.2).calm
  | recheck retries i version cs =>
      rw [hpc] at hbound
      simp only [BTreeMap.tick]
      split
      · exact hstay hpc rfl rfl rfl ⟨rfl, hbound, trivial⟩
      · exact hstay hpc rfl rfl rfl (scanFrom_onward hbound.2).calm
  | copy retries i version cs =>
      rw [hpc] at hbound
      simp only [BTreeMap.tick]
      split
      · refine hstay hpc rfl rfl rfl (scanFrom_onward ?_).calm
        exact candidates_bounded hbound.2 hbound.1
      · exact hstay hpc rfl rfl rfl (scanFrom_onward hbound.2).calm
  | verify retries c =>
      have hmem : (BTreeMap.tick cap s.mem (.verify retries c)).1 = s.mem := by
        simp only [BTreeMap.tick]
        split
        · split <;> rfl
        · rfl
      rw [hmem]
      exact hinv.verify_slot hpc
  | restore j lockedVersion =>
      have hheld : (s.pc t).held = some (j.slot, .keep lockedVersion) := by rw [hpc]; rfl
      exact hinv.restore_slot hpc (j.restored_onward (hinv.claimed t _ _ hheld).1).calm
  | vacate i x => exact hinv.vacate_slot hpc
  | uncount x =>
      cases x with
      | pop p =>
          exact hstay hpc rfl s.mem.decLen_slots.1 s.mem.decLen_slots.2 ⟨rfl, trivial, trivial⟩
      | clear i =>
          exact hstay hpc rfl s.mem.decLen_slots.1 s.mem.decLen_slots.2 sweepFrom_onward.calm
  | sweep i =>
      rw [hpc] at hbound
      simp only [BTreeMap.tick]
      split
      · exact hstay hpc rfl rfl rfl ⟨rfl, hbound, trivial⟩
      · exact hstay hpc rfl rfl rfl sweepFrom_onward.calm

/-- Every step keeps the invariant. -/
theorem Inv.step {a : ℕ × Event K V} {s' : State K V} (hinv : Inv cap h s)
    (hstep : Step cap s a s') : Inv cap (a :: h) s' := by
  cases hstep with
  | @call t c hidle =>
      have hcalm : Calm cap (Pc.enter c, Event.call c) := ⟨rfl, trivial, trivial⟩
      exact hinv.stay rfl rfl (by rw [hidle]; rfl) hcalm
  | tick _ => exact hinv.tick

theorem Inv.of_run {G : History K V → State K V → ℕ × Event K V → Prop}
    (hrun : (machine K V cap).RunOf G h s) : Inv cap h s := by
  refine hrun.invariant ?_ fun _ _ _ _ _ hinv _ hstep => hinv.step hstep
  rintro _ rfl
  exact .init

end BTreeMap
