import Vsched.Map.Least

/-!
# What a `pop_first` cannot pass over

Other threads may lead a `pop_first` astray, so that what it returns was the least
entry at no instant of the call. Two things hold of it all the same. What it
returns has been in the map during the call. And an entry that is in its slot and
not locked all through the call is not passed over: nothing greater is returned,
and if nothing is returned, the last attempt has failed on a slot that another
thread was quicker to change.
-/

namespace BTreeMap

variable {K V : Type*}

/-- Slot `i` is valid and holds the entry `e`. -/
def State.Shows (s : State K V) (i : ℕ) (e : Entry K V) : Prop :=
  s.mem.word i = ⟨e.slotVersion, .valid⟩ ∧ s.mem.entry i = some e

/-- The last attempt of a `pop_first` that is about to fail. -/
def Pc.LastTry : Pc K V → Prop
  | .lock (.pop retries _) => retries = 0
  | .cas (.pop retries _) _ => retries = 0
  | .restore (.pop retries _) _ => retries = 0
  | _ => False

variable [LinearOrder K]

/-- What a `pop_first` has made of the entry `e` that slot `i` has shown all the time. -/
def Pc.Minds (i : ℕ) (e : Entry K V) : Pc K V → Prop
  | .scan _ j cs => i < j → ∃ c ∈ cs, c.key = e.key
  | .check _ j version cs => (i < j → ∃ c ∈ cs, c.key = e.key) ∧ (i = j → version = e.slotVersion)
  | .recheck _ j version cs =>
      (i < j → ∃ c ∈ cs, c.key = e.key) ∧ (i = j → version = e.slotVersion)
  | .copy _ j _ cs => i < j → ∃ c ∈ cs, c.key = e.key
  | .lock (.pop _ c) => c.key ≤ e.key
  | .cas (.pop _ c) _ => c.key ≤ e.key
  | .verify _ c => c.key ≤ e.key
  | .vacate _ (.pop x) => x.1 ≤ e.key
  | .uncount (.pop x) => x.1 ≤ e.key
  | _ => True

/-- What comes of an access from `p` on while slot `i` shows `e`. -/
structure Heeds (i : ℕ) (e : Entry K V) (p : Pc K V) (r : Pc K V × Event K V) : Prop where
  minds : r.1.Minds i e
  le : ∀ q, r.2 = .ret (.popped (some q)) → q.1 ≤ e.key
  lastTry : r.2 = .ret (.popped none) → p.LastTry

variable {cap i : ℕ} {e : Entry K V} {m : Mem K V} {p : Pc K V}

/-- An access that returns nothing. -/
theorem Heeds.go {r : Pc K V × Event K V} (hminds : r.1.Minds i e)
    (ha : ∀ o, r.2 ≠ .ret (.popped o)) : Heeds i e p r where
  minds := hminds
  le := fun _ hq => absurd hq (ha _)
  lastTry := fun hnone => absurd hnone (ha _)

theorem Onward.heeds {q : K × V} {r : Pc K V × Event K V} (h : Onward cap (some q) r) :
    Heeds i e p r := by
  cases h <;> exact .go trivial (by simp)

theorem sweepFrom_heeds {j : ℕ} : Heeds i e p (sweepFrom cap j) := by
  unfold sweepFrom
  split <;> exact .go trivial (by simp)

/-- A pass that has the entry among its candidates, or still before it. -/
theorem scanFrom_heeds {retries j : ℕ} {cs : List (Candidate K V)} (hi : i < cap)
    (hcs : i < j → ∃ c ∈ cs, c.key = e.key) : Heeds i e p (scanFrom cap retries j cs) := by
  unfold scanFrom
  split
  · exact .go hcs (by simp)
  case isFalse hj =>
    obtain ⟨c, hc, hkey⟩ := hcs (by omega)
    cases hmin : Candidate.findMin cs with
    | none =>
        rw [Candidate.findMin_eq_none.mp hmin] at hc
        cases hc
    | some d =>
        refine .go ?_ (by simp)
        calc d.key ≤ c.key := (Candidate.findMin_some hmin).2 c hc
          _ = e.key := hkey

/-- A further attempt starts over; there is none behind the last one. -/
theorem popRetry_heeds {retries : ℕ} (hi : i < cap) (hlast : retries = 0 → p.LastTry) :
    Heeds i e p (popRetry cap retries) := by
  cases retries with
  | zero => exact ⟨trivial, (fun _ hq => by cases hq), fun _ => hlast rfl⟩
  | succ retries => exact scanFrom_heeds hi (fun h => absurd h (Nat.not_lt_zero i))

omit [LinearOrder K] in
/-- The entry is in sight of a pass at slot `j` with the candidates `cs`. -/
theorem candidates_step {j : ℕ} {cs : List (Candidate K V)} {c : Candidate K V}
    (hcs : i < j → ∃ d ∈ cs, d.key = e.key) (hc : i = j → c.key = e.key) (h : i < j + 1) :
    ∃ d ∈ cs ++ [c], d.key = e.key := by
  rcases Nat.lt_succ_iff_lt_or_eq.mp h with hlt | heq
  · obtain ⟨d, hd, hkey⟩ := hcs hlt
    exact ⟨d, List.mem_append_left _ hd, hkey⟩
  · exact ⟨c, List.mem_append_right _ (List.mem_singleton.mpr rfl), hc heq⟩

omit [LinearOrder K] in
theorem candidates_skip {j : ℕ} {cs : List (Candidate K V)}
    (hcs : i < j → ∃ d ∈ cs, d.key = e.key) (hne : i ≠ j) (h : i < j + 1) :
    ∃ d ∈ cs, d.key = e.key :=
  hcs (by omega)

theorem tick_heeds (hi : i < cap) (hbound : p.Bounded cap)
    (hword : m.word i = ⟨e.slotVersion, .valid⟩) (hentry : m.entry i = some e)
    (hp : p.Minds i e) : Heeds i e p (tick cap m p).2 := by
  cases p with
  | idle => exact .go trivial (by simp [tick])
  | enter c =>
      cases c with
      | insert key value => exact (insertFirst_onward key value _).heeds
      | popFirst =>
          have hheeds : Heeds i e (.enter .popFirst) (popRetry cap 16) :=
            popRetry_heeds hi fun hzero => by cases hzero
          exact hheeds
      | clear => exact sweepFrom_heeds
  | look x j =>
      simp only [tick]
      split
      · exact .go trivial (by simp)
      · exact (lookNext_onward hbound).heeds
  | peek x j version =>
      simp only [tick]
      split
      · split
        · exact .go trivial (by simp)
        · exact (lookNext_onward hbound).heeds
      · exact (lookNext_onward hbound).heeds
  | lock j =>
      simp only [tick]
      split
      · cases j <;> exact .go hp (by simp)
      · cases j with
        | update x k version => exact (lookNext_onward hbound).heeds
        | pop retries c => exact popRetry_heeds hi id
        | clear k version => exact sweepFrom_heeds
  | cas j current =>
      simp only [tick]
      split
      · refine .go ?_ fun o => by split <;> simp
        cases j with
        | update x k version => simp only [Job.locked]; split <;> exact trivial
        | pop retries c =>
            simp only [Job.locked]
            split
            · exact hp
            · exact trivial
        | clear k version => simp only [Job.locked]; split <;> exact trivial
      · cases j with
        | update x k version => exact (lookNext_onward hbound.1).heeds
        | pop retries c => exact popRetry_heeds hi id
        | clear k version => exact sweepFrom_heeds
  | fetch x j =>
      simp only [tick]
      split <;> exact .go trivial (by simp)
  | rewrite x j oldValue => exact .go trivial (by simp [tick])
  | republish x j oldValue => exact .go trivial (by simp [tick])
  | updated x oldValue => exact .go trivial (by simp [tick])
  | claim x j =>
      simp only [tick]
      split
      · exact .go trivial (by simp)
      · exact (claimNext_onward hbound).heeds
  | write x j => exact .go trivial (by simp [tick])
  | publish x j => exact .go trivial (by simp [tick])
  | count x => exact .go trivial (by simp [tick])
  | scan retries j cs =>
      simp only [tick]
      split
      case _ version hversion =>
        refine .go ⟨hp, ?_⟩ (by simp)
        rintro rfl
        rw [Mem.getVersionIfValid_eq_some, hword, Word.mk.injEq] at hversion
        exact hversion.1.symm
      case _ hnone =>
        refine scanFrom_heeds hi (candidates_skip hp ?_)
        rintro rfl
        rw [Mem.getVersionIfValid_eq_some.mpr hword] at hnone
        cases hnone
  | check retries j version cs =>
      simp only [tick]
      split
      case _ d hd =>
        split
        · exact .go hp (by simp)
        case isFalse hother =>
          refine scanFrom_heeds hi (candidates_skip hp.1 ?_)
          rintro rfl
          rw [hentry, Option.some.injEq] at hd
          exact hother (hd ▸ (hp.2 rfl).symm)
      case _ hnone =>
        refine scanFrom_heeds hi (candidates_skip hp.1 ?_)
        rintro rfl
        rw [hentry] at hnone
        cases hnone
  | recheck retries j version cs =>
      simp only [tick]
      split
      · exact .go hp.1 (by simp)
      case isFalse hother =>
        refine scanFrom_heeds hi (candidates_skip hp.1 ?_)
        rintro rfl
        refine hother (Mem.getVersionIfValid_eq_some.mpr ?_)
        rw [hword, hp.2 rfl]
  | copy retries j version cs =>
      simp only [tick]
      split
      case _ d hd =>
        refine scanFrom_heeds hi (candidates_step hp ?_)
        rintro rfl
        rw [hentry, Option.some.injEq] at hd
        rw [hd]
      case _ hnone =>
        refine scanFrom_heeds hi (candidates_skip hp ?_)
        rintro rfl
        rw [hentry] at hnone
        cases hnone
  | verify retries c =>
      simp only [tick]
      split
      · split
        case isTrue hmatch => exact .go (hmatch.1.trans_le hp) (by simp)
        · exact .go trivial (by simp)
      · exact .go trivial (by simp)
  | restore j lockedVersion =>
      cases j with
      | update x k version => exact .go trivial (by simp [tick, Job.restored])
      | pop retries c => exact popRetry_heeds hi id
      | clear k version => exact sweepFrom_heeds
  | vacate j x => cases x <;> exact .go hp (by simp [tick])
  | uncount x =>
      cases x with
      | pop q =>
          refine ⟨trivial, ?_, fun hnone => by cases hnone⟩
          rintro q' ⟨⟩
          exact hp
      | clear k => exact sweepFrom_heeds
  | sweep j =>
      simp only [tick]
      split
      · exact .go trivial (by simp)
      · exact sweepFrom_heeds

/-- The pair was in the map at some instant since thread `t` has called `pop_first`. -/
def Present (cap t : ℕ) (q : K × V) (h : History K V) : Prop :=
  Labelled.Since (fun a => a = (t, .call .popFirst)) (fun g => ∃ i, i < cap ∧ live g i = some q) h

variable {h : History K V} {s : State K V} {t : ℕ}

theorem Job.locked_gets {d : ℕ → Option (Entry K V)} {j : Job K V} {lockedVersion : ℕ} {q : K × V}
    (hq : (j.locked lockedVersion).gets d = some q) :
    ∃ e', d j.slot = some e' ∧ e'.pair = q := by
  unfold Job.locked at hq
  cases j with
  | update x i version => split at hq <;> cases hq
  | clear i version => split at hq <;> cases hq
  | pop retries c =>
      split at hq
      · cases hd : d c.index with
        | none => simp [Pc.gets, hd] at hq
        | some e' =>
            rw [Pc.gets_verify hd] at hq
            split at hq
            · exact ⟨e', hd, Option.some.inj hq⟩
            · cases hq
      · cases hq

theorem Onward.gets {o : Option (K × V)} {r : Pc K V × Event K V} (h : Onward cap o r)
    (d : ℕ → Option (Entry K V)) : r.1.gets d = none := by
  cases h <;> rfl

/-- What a thread gets hold of by an access it had hold of already, or it is in the map. -/
theorem Inv.gets_own (hinv : Inv cap h s) {q : K × V}
    (hold : ∀ q, (s.pc t).gets s.mem.entry = some q → Present cap t q h)
    (hq : (BTreeMap.tick cap s.mem (s.pc t)).2.1.gets
      (BTreeMap.tick cap s.mem (s.pc t)).1.entry = some q) : Present cap t q h := by
  have hbound := hinv.bounded t
  have hnone : ∀ {o : Option (K × V)} {r : Pc K V × Event K V} {d : ℕ → Option (Entry K V)},
      Onward cap o r → r.1.gets d = some q → Present cap t q h := by
    intro o r d honward hgets
    rw [honward.gets] at hgets
    cases hgets
  cases hpc : s.pc t with
  | cas j current =>
      rw [hpc] at hq hbound
      simp only [BTreeMap.tick] at hq
      split at hq
      case isTrue hsame =>
        obtain ⟨e, he, hpair⟩ := Job.locked_gets hq
        obtain ⟨e', -, he', -, hlive⟩ := hinv.valid hbound.1 (hsame ▸ hbound.2)
        rw [show (s.mem.setWord j.slot ⟨current.version, .deleting⟩).entry = s.mem.entry from rfl,
          he', Option.some.injEq] at he
        rw [← hpair, ← he]
        exact .now ⟨j.slot, hbound.1, hlive⟩
      case isFalse => exact hnone (j.refused_onward hbound.1) hq
  | verify retries c =>
      rw [hpc] at hq hold
      simp only [BTreeMap.tick] at hq
      split at hq
      case _ e he =>
        split at hq
        case isTrue hmatch =>
          refine hold q ((Pc.gets_verify he).trans ?_)
          rw [if_pos hmatch]
          exact hq
        case isFalse => cases hq
      case _ => cases hq
  | vacate i x =>
      rw [hpc] at hq hold
      cases x with
      | pop p => exact hold q hq
      | clear j => cases hq
  | enter c =>
      rw [hpc] at hq
      cases c with
      | insert key value => exact hnone (insertFirst_onward key value _) hq
      | popFirst => exact hnone (popRetry_onward 16) hq
      | clear => exact hnone sweepFrom_onward hq
  | lock j =>
      rw [hpc] at hq hbound
      simp only [BTreeMap.tick] at hq
      split at hq
      · cases hq
      · exact hnone (j.refused_onward hbound) hq
  | restore j lockedVersion =>
      rw [hpc] at hq hbound
      exact hnone (j.restored_onward hbound) hq
  | uncount x =>
      rw [hpc] at hq
      cases x with
      | pop p => cases hq
      | clear j => exact hnone sweepFrom_onward hq
  | look x i =>
      rw [hpc] at hq hbound
      simp only [BTreeMap.tick] at hq
      split at hq
      · cases hq
      · exact hnone (lookNext_onward hbound) hq
  | peek x i version =>
      rw [hpc] at hq hbound
      simp only [BTreeMap.tick] at hq
      split at hq
      · split at hq
        · cases hq
        · exact hnone (lookNext_onward hbound) hq
      · exact hnone (lookNext_onward hbound) hq
  | claim x i =>
      rw [hpc] at hq hbound
      simp only [BTreeMap.tick] at hq
      split at hq
      · cases hq
      · exact hnone (claimNext_onward hbound) hq
  | sweep i =>
      rw [hpc] at hq
      simp only [BTreeMap.tick] at hq
      split at hq
      · cases hq
      · exact hnone sweepFrom_onward hq
  | fetch x i =>
      rw [hpc] at hq
      simp only [BTreeMap.tick] at hq
      split at hq <;> cases hq
  | scan retries i cs =>
      rw [hpc] at hq hbound
      simp only [BTreeMap.tick] at hq
      split at hq
      · cases hq
      · exact hnone (scanFrom_onward hbound.2) hq
  | check retries i version cs =>
      rw [hpc] at hq hbound
      simp only [BTreeMap.tick] at hq
      split at hq
      · split at hq
        · cases hq
        · exact hnone (scanFrom_onward hbound.2) hq
      · exact hnone (scanFrom_onward hbound.2) hq
  | recheck retries i version cs =>
      rw [hpc] at hq hbound
      simp only [BTreeMap.tick] at hq
      split at hq
      · cases hq
      · exact hnone (scanFrom_onward hbound.2) hq
  | copy retries i version cs =>
      rw [hpc] at hq hbound
      simp only [BTreeMap.tick] at hq
      split at hq
      · exact hnone (scanFrom_onward (candidates_bounded hbound.2 hbound.1)) hq
      · exact hnone (scanFrom_onward hbound.2) hq
  | idle => rw [hpc] at hq; cases hq
  | rewrite x i oldValue => rw [hpc] at hq; cases hq
  | republish x i oldValue => rw [hpc] at hq; cases hq
  | updated x oldValue => rw [hpc] at hq; cases hq
  | write x i => rw [hpc] at hq; cases hq
  | publish x i => rw [hpc] at hq; cases hq
  | count x => rw [hpc] at hq; cases hq

/-- What a thread has taken or is about to return was in the map. -/
theorem gets_present (hrun : (machine K V cap).Run h s) (t : ℕ) (q : K × V)
    (hq : (s.pc t).gets s.mem.entry = some q) : Present cap t q h := by
  refine hrun.invariant
    (I := fun h s => ∀ t q, (s.pc t).gets s.mem.entry = some q → Present cap t q h) ?_ ?_ t q hq
  · rintro _ rfl t q hq
    cases hq
  · intro h s a s' hprev ih _ hstep u q hq
    have hinv := Inv.of_run hprev
    cases hstep with
    | @call t c hidle =>
        have hut : u ≠ t := by
          rintro rfl
          simp only [Function.update_self] at hq
          cases hq
        simp only [Function.update_of_ne hut] at hq
        exact (ih u q hq).later fun heq => hut (Prod.mk.inj heq).1.symm
    | @tick t hbusy =>
        have hcall : (t, (tick cap s.mem (s.pc t)).2.2) ≠ (u, .call .popFirst) := by
          intro heq
          exact (tick_turn (hinv.bounded t)).not_call .popFirst (Prod.mk.inj heq).2
        refine Labelled.Since.later ?_ hcall
        by_cases hut : u = t
        · subst hut
          simp only [Function.update_self] at hq
          exact hinv.gets_own (ih u) hq
        · simp only [Function.update_of_ne hut] at hq
          rw [hinv.gets_other hut] at hq
          exact ih u q hq

omit [LinearOrder K] in
/-- A pair is returned by the thread that has taken it. -/
theorem Turn.popped {m' : Mem K V} {r : Pc K V × Event K V} (hturn : Turn cap m p m' r) {q : K × V}
    (ha : r.2 = .ret (.popped (some q))) : p = .uncount (.pop q) := by
  cases hturn with
  | minor _ hminor =>
      have hevent := hminor.event
      rw [ha] at hevent
      exact hevent.elim
  | stored x i => cases ha
  | updated x i v => cases ha
  | counted x => cases ha
  | freed i x => cases ha
  | uncounted q' =>
      cases ha
      rfl
  | cleared i honward =>
      have hevent := (honward.minor (p := .idle) rfl).event
      rw [ha] at hevent
      exact hevent.elim

/-- A `pop_first` keeps in mind what slot `i` shows all the time. -/
theorem minds_during {h₁ h₂ : History K V} (hi : i < cap)
    (hduring : (machine K V cap).During (State.Shows · i e) h₁ (t, .call .popFirst) h₂ s) :
    (s.pc t).Minds i e := by
  refine hduring.invariant (I := fun _ s => (s.pc t).Minds i e) ?_ ?_
  · rintro s₁ s₂ _ hstep _
    generalize ha : (t, Event.call Call.popFirst) = a at hstep
    cases hstep with
    | call hidle =>
        cases ha
        simp [Pc.Minds]
    | @tick u hbusy =>
        cases (Prod.mk.inj ha).1
        exact absurd (Prod.mk.inj ha).2.symm
          ((tick_turn ((Inv.of_run ‹_›).bounded t)).not_call .popFirst)
  · intro h s b s' hrun hshows _ hminds hstep
    cases hstep with
    | @call u c hidle =>
        by_cases hut : t = u
        · subst hut
          simp [Pc.Minds]
        · simpa [hut] using hminds
    | @tick u hbusy =>
        by_cases hut : t = u
        · subst hut
          simpa using (tick_heeds hi ((Inv.of_run hrun).bounded t) hshows.1 hshows.2 hminds).minds
        · simpa [hut] using hminds

/-- Whatever the other threads do, keys being equal or not: what a `pop_first` returns has
been in the map during the call. If moreover slot `i` has been valid with the entry `e` all
through the call, nothing greater than `e` is returned, and nothing at all only if the last
of the attempts has failed to lock its slot. -/
theorem popped_between {s' : State K V} {t : ℕ} {o : Option (K × V)}
    (hrun : (machine K V cap).Run h s)
    (hret : (machine K V cap).step s (t, .ret (.popped o)) s') :
    (∀ q, o = some q → Present cap t q h) ∧
      ∀ i e h₁ h₂, i < cap →
        (machine K V cap).During (State.Shows · i e) h₁ (t, .call .popFirst) h₂ s →
        (∀ q, o = some q → q.1 ≤ e.key) ∧ (o = none → (s.pc t).LastTry) := by
  have hbound := (Inv.of_run hrun).bounded t
  have hturn := tick_turn (m := s.mem) hbound
  generalize ha : (t, Event.ret (Ret.popped o)) = a at hret
  cases hret with
  | call hidle => cases ha
  | tick hbusy =>
      obtain ⟨rfl, hret⟩ := Prod.mk.inj ha
      refine ⟨?_, fun i e h₁ h₂ hi hduring => ?_⟩
      · rintro q rfl
        refine gets_present hrun t q ?_
        rw [hturn.popped hret.symm]
        rfl
      · obtain ⟨-, -, -, -, -, hshows⟩ := id hduring
        have hheeds := tick_heeds hi hbound hshows.1 hshows.2 (minds_during hi hduring)
        refine ⟨?_, ?_⟩
        · rintro q rfl
          exact hheeds.le q hret.symm
        · rintro rfl
          exact hheeds.lastTry hret.symm

instance [DecidableEq V] (s : State K V) (i : ℕ) (e : Entry K V) : Decidable (s.Shows i e) :=
  inferInstanceAs (Decidable (_ ∧ _))

/-- While a `pop_first` is on its way, another thread stores a lesser entry. -/
def storedMeanwhile : List (Choice ℕ ℕ) :=
  goes 1 3 ++ .invoke 0 (.insert 3 30) :: goes 0 9 ++ goes 1 10

/-- An entry stays in its slot while a lesser one is stored and popped. -/
theorem popped_between_one : ∃ (h₁ h₂ : History ℕ ℕ) (s s' : State ℕ ℕ),
    (machine ℕ ℕ 2).During (State.Shows · 0 ⟨5, 50, 1, 1⟩) h₁ (1, .call .popFirst) h₂ s ∧
      (machine ℕ ℕ 2).step s (1, .ret (.popped (some (3, 30)))) s' ∧ 3 ≤ 5 ∧
      Present 2 1 (3, 30) (h₂ ++ (1, .call .popFirst) :: h₁) := by
  let r := (playAll 2 (fun (_ : History ℕ ℕ) _ _ => True)
    (.invoke 0 (.insert 5 50) :: goes 0 7)).get (by decide)
  let x := (perform 2 r.2 (.invoke 1 .popFirst)).get (by decide)
  let r' := (Labelled.playWhile (perform 2) (State.Shows · 0 ⟨5, 50, 1, 1⟩) storedMeanwhile
    x.2).get (by decide)
  let y := (perform 2 r'.2 (.access 1)).get (by decide)
  have hrun : (machine ℕ ℕ 2).Run r.1 r.2 := playAll_run (Option.some_get _).symm
  have hx : perform 2 r.2 (.invoke 1 .popFirst) = some x := (Option.some_get _).symm
  have hcall : x.1 = (1, .call .popFirst) := by decide
  have hplay : Labelled.playWhile (perform 2) (State.Shows · 0 ⟨5, 50, 1, 1⟩) storedMeanwhile
      x.2 = some r' := (Option.some_get _).symm
  have hend : State.Shows r'.2 0 ⟨5, 50, 1, 1⟩ := by decide
  have hy : perform 2 r'.2 (.access 1) = some y := (Option.some_get _).symm
  have hpopped : y.1 = (1, .ret (.popped (some (3, 30)))) := by decide
  generalize r = r, x = x, r' = r', y = y at hrun hx hcall hplay hend hy hpopped
  have hduring := Labelled.System.During.play (fun _ _ _ _ => perform_step) hrun hx hcall hplay hend
  have hret : (machine ℕ ℕ 2).step r'.2 (1, .ret (.popped (some (3, 30)))) y.2 :=
    hpopped ▸ perform_step hy
  obtain ⟨hpresent, hbetween⟩ := popped_between hduring.run hret
  have hle := (hbetween 0 ⟨5, 50, 1, 1⟩ r.1 r'.1 (by decide) hduring).1 (3, 30) rfl
  exact ⟨r.1, r'.1, r'.2, y.2, hduring, hret, hle, hpresent (3, 30) rfl⟩

end BTreeMap
