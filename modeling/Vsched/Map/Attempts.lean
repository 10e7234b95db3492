import Vsched.Map.Distinct

/-!
# The sixteen attempts of `pop_first`

An attempt of `pop_first` fails if the entry it has chosen is no longer in its slot
when the slot is to be locked. Nobody but another thread takes the entry out, unless
the slot is locked only to be given back. So as long as no such lock is met, each
failed attempt is paid for by an entry that another thread has taken since the call
began, and a call during which fewer than sixteen are taken does not give up.
-/

namespace BTreeMap

variable {K V : Type*}

/-- The entries a `pop_first` has copied, and in the end the one it has chosen. -/
def Pc.candidates : Pc K V → List (Candidate K V)
  | .scan _ _ cs => cs
  | .check _ _ _ cs => cs
  | .recheck _ _ _ cs => cs
  | .copy _ _ _ cs => cs
  | .lock (.pop _ c) => [c]
  | .cas (.pop _ c) _ => [c]
  | _ => []

/-- The slot whose state a `pop_first` is about to load or to compare. -/
def Pc.visits : Pc K V → Option ℕ
  | .scan _ i _ => some i
  | .recheck _ i _ _ => some i
  | .lock (.pop _ c) => some c.index
  | .cas (.pop _ c) _ => some c.index
  | _ => none

/-- The thread is about to lock a slot, or about to give it back. -/
def Pc.Locking : Pc K V → Prop
  | .lock _ => True
  | .cas _ _ => True
  | .restore _ _ => True
  | _ => False

/-- The attempts a `pop_first` has left, the one it is making included. -/
def Pc.attempts : Pc K V → Option ℕ
  | .enter .popFirst => some 16
  | .scan retries _ _ => some (retries + 1)
  | .check retries _ _ _ => some (retries + 1)
  | .recheck retries _ _ _ => some (retries + 1)
  | .copy retries _ _ _ => some (retries + 1)
  | .lock (.pop retries _) => some (retries + 1)
  | .cas (.pop retries _) _ => some (retries + 1)
  | .verify retries _ => some (retries + 1)
  | .restore (.pop retries _) _ => some (retries + 1)
  | _ => none

/-- How many entries the other threads have locked for good since thread `t` has
called `pop_first`. -/
def takenSince (t : ℕ) : History K V → ℕ
  | [] => 0
  | (u, .call .popFirst) :: h => if u = t then 0 else takenSince t h
  | (u, .took _) :: h => if u = t then takenSince t h else takenSince t h + 1
  | _ :: h => takenSince t h

section Taken

variable {h : History K V} {t u : ℕ} {a : Event K V}

theorem takenSince_self (ha : a ≠ .call .popFirst) :
    takenSince t ((t, a) :: h) = takenSince t h := by
  cases a with
  | call c =>
      cases c with
      | popFirst => exact absurd rfl ha
      | insert key value => rfl
      | clear => rfl
  | took i => simp [takenSince]
  | _ => rfl

theorem takenSince_call : takenSince t ((t, .call .popFirst) :: h : History K V) = 0 := by
  simp [takenSince]

theorem takenSince_took (i : ℕ) (hut : u ≠ t) :
    takenSince u ((t, .took i) :: h : History K V) = takenSince u h + 1 := by
  simp [takenSince, hut.symm]

theorem takenSince_other (hut : u ≠ t) (ha : ∀ i, a ≠ .took i) :
    takenSince u ((t, a) :: h) = takenSince u h := by
  cases a with
  | call c =>
      cases c with
      | popFirst => simp [takenSince, hut.symm]
      | insert key value => rfl
      | clear => rfl
  | took i => exact absurd rfl (ha i)
  | _ => rfl

end Taken

variable [LinearOrder K]

section Ends

/-- What returns is outside any call. -/
def Ends (r : Pc K V × Event K V) : Prop :=
  ∀ x, r.2 = .ret x → r.1 = .idle

variable {cap i : ℕ} {m : Mem K V} {x : Ins K V}

omit [LinearOrder K] in
theorem ends_silent {p : Pc K V} : Ends (p, .silent) :=
  fun _ h => by cases h

omit [LinearOrder K] in
theorem insertRetry_ends : Ends (insertRetry x) := by
  unfold insertRetry
  split
  · exact fun _ _ => rfl
  · exact ends_silent

omit [LinearOrder K] in
theorem claimNext_ends : Ends (claimNext cap x i) := by
  unfold claimNext
  split
  · exact ends_silent
  · exact insertRetry_ends

theorem scanFrom_ends {retries : ℕ} {cs : List (Candidate K V)} :
    Ends (scanFrom cap retries i cs) := by
  unfold scanFrom
  split
  · exact ends_silent
  · split
    · exact fun _ _ => rfl
    · exact ends_silent

theorem popRetry_ends {retries : ℕ} : Ends (popRetry cap retries : Pc K V × Event K V) := by
  cases retries with
  | zero => exact fun _ _ => rfl
  | succ retries => exact scanFrom_ends

omit [LinearOrder K] in
theorem sweepFrom_ends : Ends (sweepFrom cap i : Pc K V × Event K V) := by
  unfold sweepFrom
  split
  · exact ends_silent
  · exact fun _ _ => rfl

theorem Job.refused_ends (j : Job K V) : Ends (j.refused cap) := by
  cases j with
  | update x i version => exact ends_silent
  | pop retries c => exact popRetry_ends
  | clear i version => exact sweepFrom_ends

theorem Job.restored_ends (j : Job K V) : Ends (j.restored cap) := by
  cases j with
  | update x i version => exact ends_silent
  | pop retries c => exact popRetry_ends
  | clear i version => exact sweepFrom_ends

theorem tick_ends (p : Pc K V) : Ends (tick cap m p).2 := by
  cases p with
  | enter c =>
      cases c with
      | insert key value => exact insertRetry_ends
      | popFirst => exact popRetry_ends
      | clear => exact sweepFrom_ends
  | lock j =>
      simp only [tick]
      split
      · exact ends_silent
      · exact j.refused_ends
  | cas j current =>
      simp only [tick]
      split
      · intro x hx
        split at hx <;> cases hx
      · exact j.refused_ends
  | claim x i =>
      simp only [tick]
      split
      · exact ends_silent
      · exact claimNext_ends
  | restore j lockedVersion => exact j.restored_ends
  | uncount x =>
      cases x with
      | pop q => exact fun _ _ => rfl
      | clear i => exact sweepFrom_ends
  | sweep i =>
      simp only [tick]
      split
      · exact ends_silent
      · exact sweepFrom_ends
  | updated x oldValue => exact fun _ _ => rfl
  | count x => exact fun _ _ => rfl
  | republish x i oldValue => exact fun _ hx => by cases hx
  | publish x i => exact fun _ hx => by cases hx
  | vacate i x => exact fun _ hx => by cases hx
  | scan retries i cs =>
      simp only [tick]
      split
      · exact ends_silent
      · exact scanFrom_ends
  | check retries i version cs =>
      simp only [tick]
      split
      · split
        · exact ends_silent
        · exact scanFrom_ends
      · exact scanFrom_ends
  | recheck retries i version cs =>
      simp only [tick]
      split
      · exact ends_silent
      · exact scanFrom_ends
  | copy retries i version cs =>
      simp only [tick]
      split <;> exact scanFrom_ends
  | look x i =>
      simp only [tick]
      split <;> exact ends_silent
  | peek x i version =>
      simp only [tick]
      split
      · split <;> exact ends_silent
      · exact ends_silent
  | fetch x i =>
      simp only [tick]
      split <;> exact ends_silent
  | verify retries c =>
      simp only [tick]
      split
      · split <;> exact ends_silent
      · exact ends_silent
  | idle => exact ends_silent
  | rewrite x i oldValue => exact ends_silent
  | write x i => exact ends_silent

end Ends

section Fresh

variable {d d' : ℕ → Option (Entry K V)} {L L' : ℕ → Option (K × V)}

/-- The map holds the entry that has been copied, where it has been found. -/
def Candidate.Lives (d : ℕ → Option (Entry K V)) (L : ℕ → Option (K × V))
    (c : Candidate K V) : Prop :=
  ∃ e, d c.index = some e ∧ c.Matches e ∧ L c.index = some e.pair

/-- The map holds an entry of this version in slot `i`. -/
def Lives (d : ℕ → Option (Entry K V)) (L : ℕ → Option (K × V)) (i version : ℕ) : Prop :=
  ∃ e, d i = some e ∧ e.slotVersion = version ∧ L i = some e.pair

/-- Nothing that the attempt of a `pop_first` relies upon has been taken out. -/
def Pc.Fresh (d : ℕ → Option (Entry K V)) (L : ℕ → Option (K × V)) : Pc K V → Prop
  | .scan _ _ cs => ∀ c ∈ cs, c.Lives d L
  | .check _ i version cs => (∀ c ∈ cs, c.Lives d L) ∧ Lives d L i version
  | .recheck _ i version cs => (∀ c ∈ cs, c.Lives d L) ∧ Lives d L i version
  | .copy _ i version cs => (∀ c ∈ cs, c.Lives d L) ∧ Lives d L i version
  | .lock (.pop _ c) => c.Lives d L
  | .cas (.pop _ c) current => c.Lives d L ∧ current = ⟨c.slotVersion, .valid⟩
  | .verify _ c => ∃ e, d c.index = some e ∧ c.Matches e
  | .restore _ _ => False
  | _ => True

omit [LinearOrder K] in
/-- If the pairs of the map stay, with their entries, an attempt stays fresh. -/
theorem Pc.Fresh.mono {p : Pc K V} (hfresh : p.Fresh d L)
    (hkept : ∀ i q, L i = some q → L' i = some q ∧ d' i = d i)
    (hheld : ∀ i k, p.held = some (i, k) → d' i = d i) : p.Fresh d' L' := by
  have hlives : ∀ c : Candidate K V, c.Lives d L → c.Lives d' L' := by
    rintro c ⟨e, he, hmatch, hL⟩
    obtain ⟨hL', hd⟩ := hkept _ _ hL
    exact ⟨e, hd.trans he, hmatch, hL'⟩
  have hslot : ∀ {i version : ℕ}, Lives d L i version → Lives d' L' i version := by
    rintro i version ⟨e, he, hversion, hL⟩
    obtain ⟨hL', hd⟩ := hkept _ _ hL
    exact ⟨e, hd.trans he, hversion, hL'⟩
  cases p with
  | scan retries i cs => exact fun c hc => hlives c (hfresh c hc)
  | check retries i version cs => exact ⟨fun c hc => hlives c (hfresh.1 c hc), hslot hfresh.2⟩
  | recheck retries i version cs => exact ⟨fun c hc => hlives c (hfresh.1 c hc), hslot hfresh.2⟩
  | copy retries i version cs => exact ⟨fun c hc => hlives c (hfresh.1 c hc), hslot hfresh.2⟩
  | lock j =>
      cases j with
      | pop retries c => exact hlives c hfresh
      | update x i version => exact trivial
      | clear i version => exact trivial
  | cas j current =>
      cases j with
      | pop retries c => exact ⟨hlives c hfresh.1, hfresh.2⟩
      | update x i version => exact trivial
      | clear i version => exact trivial
  | verify retries c =>
      obtain ⟨e, he, hmatch⟩ := hfresh
      exact ⟨e, (hheld _ _ rfl).trans he, hmatch⟩
  | restore j lockedVersion => exact hfresh
  | _ => exact trivial

end Fresh

variable {cap : ℕ} {h : History K V} {s : State K V} {t : ℕ}

omit [LinearOrder K] in
theorem Turn.of_stored {m m' : Mem K V} {p : Pc K V} {r : Pc K V × Event K V}
    (hturn : Turn cap m p m' r) {i : ℕ} {q : K × V} (ha : r.2 = .stored i q) :
    (∃ x, p = .publish x i) ∨ ∃ x v, p = .republish x i v := by
  cases hturn with
  | minor _ hminor =>
      have hevent := hminor.event
      rw [ha] at hevent
      exact hevent.elim
  | stored x j =>
      cases ha
      exact .inl ⟨x, rfl⟩
  | updated x j v =>
      cases ha
      exact .inr ⟨x, v, rfl⟩
  | counted x => cases ha
  | freed j x => cases ha
  | uncounted p => cases ha
  | cleared j honward => cases honward <;> cases ha

/-- A pair of the map is the one of the entry in its slot. -/
theorem Inv.live_pair (hinv : Inv cap h s) (hplain : ∀ t, (s.pc t).Plain) (i : ℕ) (q : K × V)
    (hi : i < cap) (hq : live h i = some q) : ∃ e, s.mem.entry i = some e ∧ e.pair = q := by
  by_cases hclaim : ∃ t k, (s.pc t).held = some (i, k)
  · obtain ⟨t, k, hk⟩ := hclaim
    have hfits := (hinv.claimed t i k hk).2
    have ht := hplain t
    generalize s.mem.word i = w, s.mem.entry i = d, cells h i = c, live h i = l at hfits hq ⊢
    cases hfits with
    | changed =>
        -- only an update has written over an entry
        cases hpc : s.pc t <;> rw [hpc] at hk ht <;> simp [Pc.held] at hk
        exact ht.elim
    | reserve => cases hq
    | filled => cases hq
    | change => exact ⟨_, rfl, Option.some.inj hq⟩
    | check hversion =>
        split at hq
        · cases hq
        · exact ⟨_, rfl, Option.some.inj hq⟩
    | keep => exact ⟨_, rfl, Option.some.inj hq⟩
    | drop hpair => cases hq
  · push Not at hclaim
    have hfree := hinv.unclaimed i hi hclaim
    generalize s.mem.word i = w, s.mem.entry i = d, cells h i = c, live h i = l at hfree hq ⊢
    cases hfree with
    | empty => cases hq
    | valid => exact ⟨_, rfl, Option.some.inj hq⟩

/-- A pair of the map stands in a slot that is valid or locked. -/
theorem Inv.live_word (hinv : Inv cap h s) {i : ℕ} {q : K × V} (hi : i < cap)
    (hq : live h i = some q) :
    (s.mem.word i).state = .valid ∨ (s.mem.word i).state = .deleting := by
  by_cases hclaim : ∃ t k, (s.pc t).held = some (i, k)
  · obtain ⟨t, k, hk⟩ := hclaim
    have hfits := (hinv.claimed t i k hk).2
    generalize s.mem.word i = w, s.mem.entry i = d, cells h i = c, live h i = l at hfits hq ⊢
    cases hfits <;> first | exact .inr rfl | cases hq
  · push Not at hclaim
    have hfree := hinv.unclaimed i hi hclaim
    generalize s.mem.word i = w, s.mem.entry i = d, cells h i = c, live h i = l at hfree hq ⊢
    cases hfree with
    | empty => cases hq
    | valid => exact .inl rfl

/-- Where an access writes an entry there is no pair of the map. -/
theorem Inv.entry_frame (hinv : Inv cap h s) (hplain : (s.pc t).Plain) {i : ℕ} {q : K × V}
    (hq : live ((t, (BTreeMap.tick cap s.mem (s.pc t)).2.2) :: h) i = some q) :
    (BTreeMap.tick cap s.mem (s.pc t)).1.entry i = s.mem.entry i := by
  cases hpc : s.pc t with
  | write x j =>
      rw [hpc] at hq
      have hheld : (s.pc t).held = some (j, .reserve) := by rw [hpc]; rfl
      have hnone := (hinv.claimed t _ _ hheld).2.of_reserve.2.2
      have hij : i ≠ j := by
        rintro rfl
        exact absurd (hnone.symm.trans hq) (by simp)
      exact Function.update_of_ne hij _ _
  | rewrite x j v =>
      rw [hpc] at hplain
      exact hplain.elim
  | _ => rw [tick_entry (by simp) (by simp)]

/-- An access leaves the entry of a slot that another thread holds. -/
theorem Inv.entry_other (hinv : Inv cap h s) {u i : ℕ} {k : Claim K V} (hut : u ≠ t)
    (hk : (s.pc u).held = some (i, k)) :
    (BTreeMap.tick cap s.mem (s.pc t)).1.entry i = s.mem.entry i := by
  have hfree := hinv.others hk
  cases hpc : s.pc t with
  | write x j =>
      have hij : i ≠ j := by
        rintro rfl
        exact hfree t .reserve hut.symm (by rw [hpc]; rfl)
      exact Function.update_of_ne hij _ _
  | rewrite x j v =>
      have hij : i ≠ j := by
        rintro rfl
        exact hfree t .change hut.symm (by rw [hpc]; rfl)
      exact Function.update_of_ne hij _ _
  | _ => rw [tick_entry (by simp) (by simp)]

/-- An entry is put where the map holds none. -/
theorem Inv.stored_empty (hinv : Inv cap h s) (hplain : (s.pc t).Plain) {i : ℕ} {q : K × V}
    (ha : (BTreeMap.tick cap s.mem (s.pc t)).2.2 = .stored i q) : live h i = none := by
  rcases (tick_turn (hinv.bounded t)).of_stored ha with ⟨x, hpc⟩ | ⟨x, v, hpc⟩
  · have hheld : (s.pc t).held = some (i, .filled x.entry) := by rw [hpc]; rfl
    exact (hinv.claimed t _ _ hheld).2.of_filled.2.2
  · rw [hpc] at hplain
    exact hplain.elim

/-- The map keeps its pairs, and the entries in their slots, unless one is locked for
good. -/
theorem Inv.live_stays (hinv : Inv cap h s) (hplain : (s.pc t).Plain) {i : ℕ} {q : K × V}
    (hq : live h i = some q)
    (ha : ∀ j, (BTreeMap.tick cap s.mem (s.pc t)).2.2 ≠ .took j) :
    live ((t, (BTreeMap.tick cap s.mem (s.pc t)).2.2) :: h) i = some q ∧
      (BTreeMap.tick cap s.mem (s.pc t)).1.entry i = s.mem.entry i := by
  have hstays : live ((t, (BTreeMap.tick cap s.mem (s.pc t)).2.2) :: h) i = some q := by
    cases hr : (BTreeMap.tick cap s.mem (s.pc t)).2.2 with
    | stored j p =>
        have hnone := hinv.stored_empty hplain hr
        have hij : i ≠ j := by
          rintro rfl
          exact absurd (hnone.symm.trans hq) (by simp)
        rw [live_stored, Function.update_of_ne hij]
        exact hq
    | took j => exact absurd hr (ha j)
    | _ => exact hq
  exact ⟨hstays, hinv.entry_frame hplain hstays⟩

/-- Insertions with pairwise distinct keys, and no `pop_first` loads or compares the
state of a slot that is locked only to be given back, unless it has copied a lesser
entry than the one in there. While a `pop_first` is under way the other threads take
fewer than sixteen entries out. -/
structure Unhindered (h : History K V) (s : State K V) (a : ℕ × Event K V) : Prop where
  distinct : Distinct h s a
  meets : ∀ i q, (s.pc a.1).visits = some i → (s.mem.word i).state = .deleting →
    live h i = some q → ∃ c ∈ (s.pc a.1).candidates, c.key < q.1
  tries : ∀ t i, t ≠ a.1 → a.2 = .took i → (s.pc t).attempts ≠ none → takenSince t h < 15

/-- Each failed attempt is paid for by an entry that another thread has taken. -/
structure Patient (h : History K V) (s : State K V) : Prop where
  few : ∀ t n, (s.pc t).attempts = some n → takenSince t h < 16
  enough : ∀ t n, (s.pc t).attempts = some n → 16 ≤ n + takenSince t h
  stale : ∀ t n, (s.pc t).attempts = some n → ¬ (s.pc t).Fresh s.mem.entry (live h) →
    17 ≤ n + takenSince t h

/-- What an access of a `pop_first` makes of its attempts, the entries being `d` and the
pairs of the map being `L` before it, and `d'` and `L'` after it. -/
inductive Spent (d d' : ℕ → Option (Entry K V)) (L L' : ℕ → Option (K × V)) (p : Pc K V)
    (r : Pc K V × Event K V) : Prop
  | same {n : ℕ} (hn : p.attempts = some n) (hn' : r.1.attempts = some n)
      (hfresh : p.Fresh d L → r.1.Fresh d' L') : Spent d d' L L' p r
  | again {n : ℕ} (hn : p.attempts = some (n + 1)) (hn' : r.1.attempts = some n)
      (hstale : ¬ p.Fresh d L) (hfresh : r.1.Fresh d' L') : Spent d d' L L' p r
  | ended (hn' : r.1.attempts = none)
      (hlast : p.Locking → r.2 = .ret (.popped none) →
        p.attempts = some 1 ∧ ¬ p.Fresh d L) : Spent d d' L L' p r

section Spent

variable {d d' : ℕ → Option (Entry K V)} {L : ℕ → Option (K × V)} {p : Pc K V}
  {r : Pc K V × Event K V} {retries : ℕ}

omit [LinearOrder K] in
theorem Onward.spent {L' : ℕ → Option (K × V)} {q : K × V} (h : Onward cap (some q) r) :
    Spent d d' L L' p r := by
  cases h with
  | failed x => exact .ended rfl fun _ ha => by cases ha
  | look x hi => exact .ended rfl fun _ ha => by cases ha
  | claim x hi => exact .ended rfl fun _ ha => by cases ha

theorem scanFrom_quiet (i : ℕ) (cs : List (Candidate K V)) :
    (scanFrom cap retries i cs).2.Quiet := by
  unfold scanFrom
  split
  · exact trivial
  · split <;> exact trivial

theorem popRetry_quiet (retries : ℕ) : (popRetry cap retries : Pc K V × Event K V).2.Quiet := by
  unfold popRetry
  split
  · exact trivial
  · exact scanFrom_quiet _ _

/-- A pass goes on, with candidates that are in the map if the attempt was fresh. -/
theorem scanFrom_spent {i : ℕ} {cs : List (Candidate K V)} (hn : p.attempts = some (retries + 1))
    (hseek : ¬ p.Locking) (hcs : p.Fresh d L → ∀ c ∈ cs, c.Lives d' L) :
    Spent d d' L L p (scanFrom cap retries i cs) := by
  unfold scanFrom
  split
  · exact .same hn rfl hcs
  · split
    · exact .ended rfl fun hlock => absurd hlock hseek
    case _ c hmin => exact .same hn rfl fun hfresh => hcs hfresh c (Candidate.findMin_some hmin).1

theorem popRetry_spent (hcap : 0 < cap) (hn : p.attempts = some (retries + 1))
    (hstale : ¬ p.Fresh d L) : Spent d d' L L p (popRetry cap retries) := by
  cases retries with
  | zero => exact .ended rfl fun _ _ => ⟨hn, hstale⟩
  | succ retries =>
      simp only [popRetry, scanFrom, hcap, if_true]
      exact .again hn rfl hstale fun c hc => by cases hc

end Spent

/-- If a `pop_first` meets no slot locked in vain, the slot of a candidate that is in
the map has the word the candidate was copied under. -/
theorem Inv.lives_word (hinv : Inv cap h s) {c : Candidate K V} (hi : c.index < cap)
    (hlives : c.Lives s.mem.entry (live h))
    (hmeets : ∀ q, (s.mem.word c.index).state = .deleting → live h c.index = some q →
      c.key < q.1) : s.mem.word c.index = ⟨c.slotVersion, .valid⟩ := by
  obtain ⟨e, he, hmatch, hlive⟩ := hlives
  rcases hinv.live_word hi hlive with hvalid | hdeleting
  · obtain ⟨e', hword, he', -, -⟩ := hinv.valid hi hvalid
    rw [he, Option.some.injEq] at he'
    rw [hword, ← he', hmatch.2.2]
  · have hlt := hmeets _ hdeleting hlive
    rw [← hmatch.1] at hlt
    exact absurd hlt (lt_irrefl _)

/-- An access of a `pop_first` costs an attempt only if an entry that the attempt relied
upon has been taken out. -/
theorem Inv.spends (hinv : Inv cap h s) (honce : Once h s)
    (hmeets : ∀ i q, (s.pc t).visits = some i → (s.mem.word i).state = .deleting →
      live h i = some q → ∃ c ∈ (s.pc t).candidates, c.key < q.1) :
    Spent s.mem.entry (BTreeMap.tick cap s.mem (s.pc t)).1.entry (live h)
      (live ((t, (BTreeMap.tick cap s.mem (s.pc t)).2.2) :: h)) (s.pc t)
        (BTreeMap.tick cap s.mem (s.pc t)).2 := by
  have hbound := hinv.bounded t
  have hplain := honce.plain t
  cases hpc : s.pc t with
  | idle => exact .ended rfl fun hlock => hlock.elim
  | enter c =>
      cases c with
      | insert key value => exact (insertFirst_onward key value _).spent
      | popFirst =>
          rw [BTreeMap.tick, popRetry, (scanFrom_quiet _ _).live]
          have hn : (Pc.enter .popFirst : Pc K V).attempts = some (15 + 1) := rfl
          exact scanFrom_spent hn id fun _ c hc => absurd hc List.not_mem_nil
      | clear => exact (hpc ▸ hplain : (Pc.enter .clear).Plain).elim
  | look x i =>
      rw [hpc] at hbound
      simp only [BTreeMap.tick]
      split
      · exact .ended rfl fun hlock => hlock.elim
      · exact (lookNext_onward hbound).spent
  | peek x i version =>
      rw [hpc] at hbound
      simp only [BTreeMap.tick]
      split
      · split
        · exact .ended rfl fun hlock => hlock.elim
        · exact (lookNext_onward hbound).spent
      · exact (lookNext_onward hbound).spent
  | lock j =>
      rw [hpc] at hplain hbound hmeets
      cases j with
      | update x i version => exact hplain.elim
      | clear i version => exact hplain.elim
      | pop retries c =>
          have hword := fun hlives => hinv.lives_word hbound hlives fun q hdeleting hq => by
            simpa [Pc.candidates] using hmeets c.index q rfl hdeleting hq
          simp only [BTreeMap.tick]
          split
          · exact .same rfl rfl fun hlives => ⟨hlives, hword hlives⟩
          case isFalse hinvalid =>
            rw [Job.refused, (popRetry_quiet retries).live]
            refine popRetry_spent (Nat.zero_lt_of_lt hbound) rfl fun hlives => hinvalid ?_
            exact congrArg Word.state (hword hlives)
  | cas j current =>
      rw [hpc] at hplain hbound hmeets
      cases j with
      | update x i version => exact hplain.elim
      | clear i version => exact hplain.elim
      | pop retries c =>
          have hword := fun hlives => hinv.lives_word hbound.1 hlives fun q hdeleting hq => by
            simpa [Pc.candidates] using hmeets c.index q rfl hdeleting hq
          simp only [BTreeMap.tick]
          split
          · unfold Job.locked
            split
            · refine .same rfl rfl ?_
              rintro ⟨⟨e, he, hmatch, -⟩, -⟩
              exact ⟨e, he, hmatch⟩
            case isFalse hother =>
              refine .same rfl rfl ?_
              rintro ⟨-, rfl⟩
              exact hother rfl
          case isFalse hother =>
            rw [Job.refused, (popRetry_quiet retries).live]
            refine popRetry_spent (Nat.zero_lt_of_lt hbound.1) rfl ?_
            rintro ⟨hlives, rfl⟩
            exact hother (hword hlives)
  | fetch x i => exact (hpc ▸ hplain : (Pc.fetch x i).Plain).elim
  | rewrite x i v => exact (hpc ▸ hplain : (Pc.rewrite x i v).Plain).elim
  | republish x i v => exact (hpc ▸ hplain : (Pc.republish x i v).Plain).elim
  | updated x v => exact (hpc ▸ hplain : (Pc.updated x v).Plain).elim
  | claim x i =>
      rw [hpc] at hbound
      simp only [BTreeMap.tick]
      split
      · exact .ended rfl fun hlock => hlock.elim
      · exact (claimNext_onward hbound).spent
  | write x i => exact .ended rfl fun hlock => hlock.elim
  | publish x i => exact .ended rfl fun hlock => hlock.elim
  | count x => exact .ended rfl fun hlock => hlock.elim
  | scan retries i cs =>
      have hi : i < cap := (hpc ▸ hbound : (Pc.scan retries i cs).Bounded cap).1
      simp only [BTreeMap.tick]
      split
      case _ version hversion =>
        rw [Mem.getVersionIfValid_eq_some] at hversion
        obtain ⟨e, hword, he, -, hlive⟩ := hinv.valid hi (by rw [hversion])
        rw [hversion, Word.mk.injEq] at hword
        exact .same rfl rfl fun hcs => ⟨hcs, e, he, hword.1.symm, hlive⟩
      · rw [(scanFrom_quiet _ _).live]
        exact scanFrom_spent rfl id fun hcs => hcs
  | check retries i version cs =>
      simp only [BTreeMap.tick]
      split
      · split
        · exact .same rfl rfl id
        · rw [(scanFrom_quiet _ _).live]
          exact scanFrom_spent rfl id fun hfresh => hfresh.1
      · rw [(scanFrom_quiet _ _).live]
        exact scanFrom_spent rfl id fun hfresh => hfresh.1
  | recheck retries i version cs =>
      simp only [BTreeMap.tick]
      split
      · exact .same rfl rfl id
      · rw [(scanFrom_quiet _ _).live]
        exact scanFrom_spent rfl id fun hfresh => hfresh.1
  | copy retries i version cs =>
      simp only [BTreeMap.tick]
      split
      case _ e he =>
        rw [(scanFrom_quiet _ _).live]
        refine scanFrom_spent rfl id ?_
        rintro ⟨hcs, e', he', hversion, hlive⟩ c hc
        rw [he, Option.some.injEq] at he'
        subst he'
        rcases List.mem_append.mp hc with hc | hc
        · exact hcs c hc
        · rw [List.mem_singleton.mp hc]
          exact ⟨e, he, ⟨rfl, rfl, hversion⟩, hlive⟩
      · rw [(scanFrom_quiet _ _).live]
        exact scanFrom_spent rfl id fun hfresh => hfresh.1
  | verify retries c =>
      simp only [BTreeMap.tick]
      split
      case _ e he =>
        split
        · exact .ended rfl fun hlock => hlock.elim
        case isFalse hother =>
          refine .same rfl rfl ?_
          rintro ⟨e', he', hmatch⟩
          rw [he, Option.some.injEq] at he'
          exact hother (he' ▸ hmatch)
      case _ he =>
        refine .same rfl rfl ?_
        rintro ⟨e', he', -⟩
        rw [he] at he'
        cases he'
  | restore j lockedVersion =>
      rw [hpc] at hplain hbound
      cases j with
      | update x i version => exact hplain.elim
      | clear i version => exact hplain.elim
      | pop retries c =>
          rw [BTreeMap.tick, Job.restored, (popRetry_quiet retries).live]
          exact popRetry_spent (Nat.zero_lt_of_lt hbound) rfl id
  | vacate i x => exact .ended rfl fun hlock => hlock.elim
  | uncount x =>
      rw [hpc] at hplain
      cases x with
      | clear i => exact hplain.elim
      | pop q => exact .ended rfl fun hlock => hlock.elim
  | sweep i => exact (hpc ▸ hplain : (Pc.sweep i).Plain).elim

theorem Patient.tick (hpatient : Patient h s) (hinv : Inv cap h s) (honce : Once h s)
    (hguard : Unhindered h s (t, (BTreeMap.tick cap s.mem (s.pc t)).2.2)) :
    Patient ((t, (BTreeMap.tick cap s.mem (s.pc t)).2.2) :: h)
      ⟨(BTreeMap.tick cap s.mem (s.pc t)).1,
        Function.update s.pc t (BTreeMap.tick cap s.mem (s.pc t)).2.1⟩ := by
  have hspends := hinv.spends honce hguard.meets
  have hself : takenSince t ((t, (BTreeMap.tick cap s.mem (s.pc t)).2.2) :: h) =
      takenSince t h := takenSince_self ((tick_turn (hinv.bounded t)).not_call .popFirst)
  have htries := hguard.tries
  have hkept : (∀ j, (BTreeMap.tick cap s.mem (s.pc t)).2.2 ≠ .took j) → ∀ i q, live h i = some q →
      live ((t, (BTreeMap.tick cap s.mem (s.pc t)).2.2) :: h) i = some q ∧
        (BTreeMap.tick cap s.mem (s.pc t)).1.entry i = s.mem.entry i :=
    fun ha i q hq => hinv.live_stays (honce.plain t) hq ha
  have hheld : ∀ u i k, u ≠ t → (s.pc u).held = some (i, k) →
      (BTreeMap.tick cap s.mem (s.pc t)).1.entry i = s.mem.entry i :=
    fun u i k hut hk => hinv.entry_other hut hk
  generalize BTreeMap.tick cap s.mem (s.pc t) = r at hspends hself htries hkept hheld ⊢
  obtain ⟨m', p', a⟩ := r
  constructor
  case few =>
    intro u n hn
    by_cases hut : u = t
    · subst hut
      simp only [Function.update_self] at hn
      rw [hself]
      cases hspends with
      | same hold hnew _ => exact hpatient.few u _ hold
      | again hold hnew _ _ => exact hpatient.few u _ hold
      | ended hnew _ =>
          rw [hnew] at hn
          cases hn
    · simp only [Function.update_of_ne hut] at hn
      by_cases htook : ∃ i, a = .took i
      · obtain ⟨i, rfl⟩ := htook
        have hlt := htries u i hut rfl (by simp [hn])
        rw [takenSince_took i hut]
        omega
      · push Not at htook
        rw [takenSince_other hut htook]
        exact hpatient.few u n hn
  case enough =>
    intro u n hn
    by_cases hut : u = t
    · subst hut
      simp only [Function.update_self] at hn
      rw [hself]
      cases hspends with
      | same hold hnew _ =>
          rw [hnew, Option.some.injEq] at hn
          exact hn ▸ hpatient.enough u _ hold
      | again hold hnew hstale _ =>
          rw [hnew, Option.some.injEq] at hn
          have hle := hpatient.stale u _ hold hstale
          omega
      | ended hnew _ =>
          rw [hnew] at hn
          cases hn
    · simp only [Function.update_of_ne hut] at hn
      have hle := hpatient.enough u n hn
      by_cases htook : ∃ i, a = .took i
      · obtain ⟨i, rfl⟩ := htook
        rw [takenSince_took i hut]
        omega
      · push Not at htook
        rwa [takenSince_other hut htook]
  case stale =>
    intro u n hn hstale
    by_cases hut : u = t
    · subst hut
      simp only [Function.update_self] at hn hstale
      rw [hself]
      cases hspends with
      | same hold hnew hfresh =>
          rw [hnew, Option.some.injEq] at hn
          exact hn ▸ hpatient.stale u _ hold fun hf => hstale (hfresh hf)
      | again hold hnew _ hfresh => exact absurd hfresh hstale
      | ended hnew _ =>
          rw [hnew] at hn
          cases hn
    · simp only [Function.update_of_ne hut] at hn hstale
      by_cases htook : ∃ i, a = .took i
      · obtain ⟨i, rfl⟩ := htook
        have hle := hpatient.enough u n hn
        rw [takenSince_took i hut]
        omega
      · push Not at htook
        rw [takenSince_other hut htook]
        refine hpatient.stale u n hn fun hfresh => hstale ?_
        exact hfresh.mono (hkept htook) fun i k hk => hheld u i k hut hk

omit [LinearOrder K] in
theorem Patient.call {c : Call K V} (hpatient : Patient h s) :
    Patient ((t, .call c) :: h) ⟨s.mem, Function.update s.pc t (.enter c)⟩ := by
  have hother : ∀ u, u ≠ t → takenSince u ((t, .call c) :: h) = takenSince u h :=
    fun u hut => takenSince_other hut (by simp)
  -- the call itself begins with all its attempts
  have hself : ∀ n, (Pc.enter c).attempts = some n →
      n = 16 ∧ takenSince t ((t, .call c) :: h) = 0 := by
    intro n hn
    cases c with
    | popFirst => exact ⟨(Option.some.inj hn).symm, takenSince_call⟩
    | insert key value => cases hn
    | clear => cases hn
  constructor
  case few =>
    intro u n hn
    by_cases hut : u = t
    · subst hut
      simp only [Function.update_self] at hn
      rw [(hself n hn).2]
      omega
    · simp only [Function.update_of_ne hut] at hn
      rw [hother u hut]
      exact hpatient.few u n hn
  case enough =>
    intro u n hn
    by_cases hut : u = t
    · subst hut
      simp only [Function.update_self] at hn
      obtain ⟨rfl, hzero⟩ := hself n hn
      omega
    · simp only [Function.update_of_ne hut] at hn
      rw [hother u hut]
      exact hpatient.enough u n hn
  case stale =>
    intro u n hn hstale
    by_cases hut : u = t
    · subst hut
      simp only [Function.update_self] at hstale
      exact absurd trivial hstale
    · simp only [Function.update_of_ne hut] at hn hstale
      rw [hother u hut]
      exact hpatient.stale u n hn hstale

theorem Patient.of_run (hrun : (machine K V cap).RunOf Unhindered h s) : Patient h s := by
  refine hrun.invariant ?_ ?_
  · rintro _ rfl
    exact ⟨fun t n hn => (by cases hn), fun t n hn => (by cases hn), fun t n hn => by cases hn⟩
  · intro h s a s' hprev hpatient hguard hstep
    cases hstep with
    | call hidle => exact hpatient.call
    | tick _ =>
        have honce := Once.of_run (hprev.mono fun _ _ _ hg => hg.distinct)
        exact hpatient.tick (Inv.of_run hprev) honce hguard

/-- No `pop_first` gives up because it has failed to lock its slot. -/
theorem Patient.finds (hpatient : Patient h s) (hinv : Inv cap h s) (honce : Once h s)
    (hguard : Unhindered h s (t, (BTreeMap.tick cap s.mem (s.pc t)).2.2))
    (hnone : (BTreeMap.tick cap s.mem (s.pc t)).2.2 = .ret (.popped none)) :
    ¬ (s.pc t).Locking := by
  intro hlocking
  have hidle : (BTreeMap.tick cap s.mem (s.pc t)).2.1 = .idle := tick_ends _ _ hnone
  cases hinv.spends honce hguard.meets with
  | same _ hnew _ =>
      rw [hidle] at hnew
      cases hnew
  | again _ hnew _ _ =>
      rw [hidle] at hnew
      cases hnew
  | ended _ hlast =>
      obtain ⟨hone, hstale⟩ := hlast hlocking hnone
      have hle := hpatient.stale t _ hone hstale
      have hlt := hpatient.few t _ hone
      omega

end BTreeMap
