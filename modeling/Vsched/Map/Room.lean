import Vsched.Foundation.FirstFit
import Vsched.Map.Account

/-!
# No insertion is refused while there is room

An `insert` that finds its key nowhere goes over the slots and takes the first
that is free. Other threads may fill and empty slots while it does, so it may
find every slot taken although there is always a free one. But as long as the
slots that are not free and the insertions that have no slot yet never outnumber
the slots, this does not come about, however the threads interfere.
-/

namespace BTreeMap

variable {K V : Type*}

def Job.place : Job K V → Option ℕ
  | .update _ _ _ => some 0
  | _ => none

/-- The slot in front of which an `insert` stands that has not found one; phase 1 stands in
front of all. -/
def Pc.place : Pc K V → Option ℕ
  | .enter (.insert _ _) => some 0
  | .look _ _ => some 0
  | .peek _ _ _ => some 0
  | .lock j => j.place
  | .cas j _ => j.place
  | .restore j _ => j.place
  | .claim _ i => some i
  | _ => none

/-- The slots that are not free. -/
def Mem.used (cap : ℕ) (m : Mem K V) : Finset ℕ :=
  (Finset.range cap).filter fun i => m.word i ≠ .free

/-- The insertions of the threads below `n` that have not found a slot. -/
def State.seekers (n : ℕ) (s : State K V) : ℕ :=
  FirstFit.seekers n (fun t => (s.pc t).place) 0

/-- The threads are numbered below `n`, and an `insert` is called while the slots that are
not free and the insertions without a slot leave one. -/
def Roomy (n cap : ℕ) (_ : History K V) (s : State K V) : ℕ × Event K V → Prop
  | (t, .call (.insert _ _)) => t < n ∧ s.seekers n + (s.mem.used cap).card < cap
  | (t, _) => t < n

/-- There is a slot for every insertion on its way. -/
def State.HasRoom (n cap : ℕ) (s : State K V) : Prop :=
  FirstFit.Roomy n cap (fun t => (s.pc t).place) (s.mem.used cap)

variable {n cap t i : ℕ} {h : History K V} {s s' : State K V} {m : Mem K V} {p : Pc K V}

theorem Mem.mem_used : i ∈ m.used cap ↔ i < cap ∧ m.word i ≠ .free := by
  rw [used, Finset.mem_filter, Finset.mem_range]

/-- What an access that looks for no slot does to the room. -/
structure Spares (m : Mem K V) (p : Pc K V) (x : Mem K V × Pc K V × Event K V) : Prop where
  place : x.2.1.place = none ∨ p.place ≠ none ∧ x.2.1.place = some 0
  used : ∀ i, x.1.word i ≠ .free → m.word i ≠ .free
  event : ∀ k v, x.2.2 ≠ .ret (.inserted k v none)

theorem Onward.spares {r : Pc K V × Event K V} {m' : Mem K V} (h : Onward cap none r)
    (hword : m'.word = m.word) : Spares m p (m', r) := by
  generalize ho : (none : Option (K × V)) = o at h
  have hused : ∀ i, m'.word i ≠ .free → m.word i ≠ .free := fun i hi => hword ▸ hi
  cases h with
  | failed x => cases ho
  | look x hi => cases ho
  | claim x hi => cases ho
  | nothing => exact ⟨.inl rfl, hused, by simp⟩
  | scan hi hcs => exact ⟨.inl rfl, hused, by simp⟩
  | lock hc => exact ⟨.inl rfl, hused, by simp⟩
  | cleared => exact ⟨.inl rfl, hused, by simp⟩
  | sweep hi => exact ⟨.inl rfl, hused, by simp⟩

/-- A thread that goes on elsewhere. -/
theorem Spares.away {r : Pc K V × Event K V} {m' : Mem K V} (hplace : r.1.place = none)
    (hused : ∀ i, m'.word i ≠ .free → m.word i ≠ .free)
    (hevent : ∀ k v, r.2 ≠ .ret (.inserted k v none)) : Spares m p (m', r) :=
  ⟨.inl hplace, hused, hevent⟩

/-- A thread that goes on with phase 1, or enters phase 2. -/
theorem Spares.back {p' : Pc K V} (hp : p.place ≠ none) (hplace : p'.place = some 0) :
    Spares m p (m, p', .silent) :=
  ⟨.inr ⟨hp, hplace⟩, fun _ hi => hi, by simp⟩

theorem lookNext_place (x : Ins K V) : (lookNext cap x i).place = some 0 := by
  unfold lookNext
  split <;> rfl

variable [LinearOrder K]

theorem Job.refused_spares {j : Job K V} (hj : j.slot < cap) (hp : p.place = j.place) :
    Spares m p (m, j.refused cap) := by
  cases j with
  | update x i version => exact .back (by rw [hp]; simp [Job.place]) (lookNext_place x)
  | pop retries c => exact (popRetry_onward retries).spares rfl
  | clear i version => exact sweepFrom_onward.spares rfl

omit [LinearOrder K] in
theorem Job.place_cases (j : Job K V) : j.place = none ∨ j.place = some 0 := by
  cases j with
  | update x i version => exact .inr rfl
  | pop retries c => exact .inl rfl
  | clear i version => exact .inl rfl

omit [LinearOrder K] in
theorem Job.locked_place (j : Job K V) (lockedVersion : ℕ) :
    (j.locked lockedVersion).place = none ∨
      j.place ≠ none ∧ (j.locked lockedVersion).place = some 0 := by
  unfold locked
  split
  · cases j <;> exact .inl rfl
  · rcases j.place_cases with hplace | hplace
    · exact .inl hplace
    · exact .inr ⟨by rw [hplace]; simp, hplace⟩

theorem Job.restored_spares {j : Job K V} {m' : Mem K V} (hp : p.place = j.place)
    (hused : ∀ i, m'.word i ≠ .free → m.word i ≠ .free) : Spares m p (m', j.restored cap) := by
  cases j with
  | update x i version =>
      exact ⟨.inr ⟨by rw [hp]; simp [Job.place], rfl⟩, hused, by simp [restored]⟩
  | pop retries c =>
      obtain ⟨hplace, -, hevent⟩ : Spares m p (m, popRetry cap retries) :=
        (popRetry_onward retries).spares rfl
      exact ⟨hplace, hused, hevent⟩
  | clear i version =>
      obtain ⟨hplace, -, hevent⟩ : Spares m p (m, sweepFrom cap (i + 1)) :=
        sweepFrom_onward.spares rfl
      exact ⟨hplace, hused, hevent⟩

omit [LinearOrder K] in
/-- The word of a slot that is not free may become any other. -/
theorem used_setWord {w : Word} (hw : m.word i ≠ .free) :
    ∀ j, (m.setWord i w).word j ≠ .free → m.word j ≠ .free := by
  intro j hj
  by_cases hij : j = i
  · subst hij
    exact hw
  · simpa [Mem.setWord, hij] using hj

/-- An access to a slot that its thread holds. -/
theorem Inv.held_used {k : Claim K V} (hinv : Inv cap h s) (hk : (s.pc t).held = some (i, k)) :
    s.mem.word i ≠ .free := by
  intro hfree
  rcases (hinv.claimed t i k hk).2.state with hstate | hstate
  · rw [hfree] at hstate
    cases hstate
  · rw [hfree] at hstate
    cases hstate

/-- The accesses other than those that look for a slot in phase 2. -/
theorem tick_spares (hinv : Inv cap h s)
    (hcap : ∀ key value, s.pc t = .enter (.insert key value) → 0 < cap)
    (hclaim : ∀ x i, s.pc t ≠ .claim x i) :
    Spares s.mem (s.pc t) (tick cap s.mem (s.pc t)) := by
  have hbound := hinv.bounded t
  have hheld : ∀ i k, (s.pc t).held = some (i, k) → s.mem.word i ≠ .free :=
    fun i k hk => hinv.held_used hk
  generalize s.pc t = p at hcap hclaim hbound hheld ⊢
  generalize s.mem = m at hheld ⊢
  cases p with
  | claim x i => exact absurd rfl (hclaim x i)
  | idle => exact .away rfl (fun _ hi => hi) (by simp)
  | enter c =>
      cases c with
      | insert key value =>
          have hpos := hcap key value rfl
          obtain ⟨retries, rfl⟩ : ∃ retries, cap = retries + 1 := ⟨cap - 1, by omega⟩
          exact ⟨.inr ⟨by simp [Pc.place], rfl⟩, fun _ hi => hi, by simp [tick, insertRetry]⟩
      | popFirst => exact (popRetry_onward 16).spares rfl
      | clear => exact sweepFrom_onward.spares rfl
  | look x i =>
      simp only [tick]
      split
      · exact .back (by simp [Pc.place]) rfl
      · exact .back (by simp [Pc.place]) (lookNext_place x)
  | peek x i version =>
      simp only [tick]
      split
      · split
        · exact .back (by simp [Pc.place]) rfl
        · exact .back (by simp [Pc.place]) (lookNext_place x)
      · exact .back (by simp [Pc.place]) (lookNext_place x)
  | lock j =>
      simp only [tick]
      split
      · refine ⟨?_, fun _ hi => hi, by simp⟩
        rcases j.place_cases with hplace | hplace
        · exact .inl hplace
        · exact .inr ⟨by simp [Pc.place, hplace], hplace⟩
      · exact j.refused_spares hbound rfl
  | cas j current =>
      simp only [tick]
      split
      case isTrue hword =>
        refine ⟨j.locked_place _, used_setWord ?_, ?_⟩
        · intro hfree
          rw [hword] at hfree
          have hvalid := hbound.2
          rw [hfree] at hvalid
          cases hvalid
        · intro k v
          split <;> simp
      case isFalse => exact j.refused_spares hbound.1 rfl
  | fetch x i =>
      simp only [tick]
      split <;> exact .away rfl (fun _ hi => hi) (by simp)
  | rewrite x i oldValue => exact .away rfl (fun _ hi => hi) (by simp)
  | republish x i oldValue =>
      exact .away rfl (used_setWord (hheld i _ rfl)) (by simp)
  | updated x oldValue => exact .away rfl (fun _ hi => hi) (by simp)
  | write x i => exact .away rfl (fun _ hi => hi) (by simp)
  | publish x i => exact .away rfl (used_setWord (hheld i _ rfl)) (by simp)
  | count x => exact .away rfl (fun _ hi => hi) (by simp)
  | scan retries i cs =>
      simp only [tick]
      split
      · exact .away rfl (fun _ hi => hi) (by simp)
      · exact (scanFrom_onward hbound.2).spares rfl
  | check retries i version cs =>
      simp only [tick]
      split
      · split
        · exact .away rfl (fun _ hi => hi) (by simp)
        · exact (scanFrom_onward hbound.2).spares rfl
      · exact (scanFrom_onward hbound.2).spares rfl
  | recheck retries i version cs =>
      simp only [tick]
      split
      · exact .away rfl (fun _ hi => hi) (by simp)
      · exact (scanFrom_onward hbound.2).spares rfl
  | copy retries i version cs =>
      simp only [tick]
      split
      · exact (scanFrom_onward (candidates_bounded hbound.2 hbound.1)).spares rfl
      · exact (scanFrom_onward hbound.2).spares rfl
  | verify retries c =>
      simp only [tick]
      split
      · split
        · exact .away rfl (fun _ hi => hi) (by simp)
        · exact .away rfl (fun _ hi => hi) (by simp)
      · exact .away rfl (fun _ hi => hi) (by simp)
  | restore j lockedVersion =>
      exact j.restored_spares rfl (used_setWord (hheld j.slot _ rfl))
  | vacate i x => exact .away rfl (used_setWord (hheld i _ rfl)) (by simp)
  | uncount x =>
      cases x with
      | pop q => exact .away rfl (fun _ hi => hi) (by simp)
      | clear i => exact sweepFrom_onward.spares m.decLen_slots.1
  | sweep i =>
      simp only [tick]
      split
      · exact .away rfl (fun _ hi => hi) (by simp)
      · exact sweepFrom_onward.spares rfl

omit [LinearOrder K] in
theorem place_update : (fun u => (Function.update s.pc t p u).place) =
    Function.update (fun u => (s.pc u).place) t p.place := by
  funext u
  by_cases hu : u = t
  · subst hu
    simp
  · simp [hu]

omit [LinearOrder K] in
theorem Mem.used_claim {w : Word} (hi : i < cap) (hw : w ≠ .free) :
    (m.setWord i w).used cap = insert i (m.used cap) := by
  ext j
  rw [Finset.mem_insert, mem_used, mem_used]
  by_cases hij : j = i
  · subst hij
    simp [setWord, hi, hw]
  · simp [setWord, hij]

/-- An access of a thread that stands in front of slot `place t`, or looks for none. -/
theorem tick_room {place : ℕ → Option ℕ} (hinv : Inv cap h s)
    (hroom : FirstFit.Roomy n cap place (s.mem.used cap)) (ht : t < n)
    (hplace : place t = (s.pc t).place) :
    FirstFit.Roomy n cap (Function.update place t (tick cap s.mem (s.pc t)).2.1.place)
        ((tick cap s.mem (s.pc t)).1.used cap) ∧
      ∀ k v, (tick cap s.mem (s.pc t)).2.2 ≠ .ret (.inserted k v none) := by
  by_cases hclaim : ∃ x i, s.pc t = .claim x i
  · obtain ⟨x, i, hpc⟩ := hclaim
    have hi : i < cap := by
      have hbound := hinv.bounded t
      rw [hpc] at hbound
      exact hbound
    have hhere : place t = some i := by
      rw [hplace, hpc]
      rfl
    simp only [hpc, tick]
    split
    case isTrue hfree =>
      rw [Mem.used_claim hi (by simp [Word.free])]
      exact ⟨hroom.take ht hhere, by simp⟩
    case isFalse htaken =>
      obtain ⟨hnext, hskip⟩ := hroom.skip ht hhere hi (Mem.mem_used.mpr ⟨hi, htaken⟩)
      rw [claimNext, if_pos hnext]
      exact ⟨hskip, by simp⟩
  · rw [not_exists] at hclaim
    have hcap : ∀ key value, s.pc t = .enter (.insert key value) → 0 < cap := by
      intro key value hpc
      have hhere : place t = some 0 := by
        rw [hplace, hpc]
        rfl
      have hsucc : FirstFit.seekers n place 1 + 1 ≤ FirstFit.seekers n place 0 :=
        FirstFit.seekers_succ ht hhere
      have hzero := hroom 0 (Nat.zero_le cap)
      omega
    have hspares := tick_spares hinv hcap fun x i hpc => hclaim x ⟨i, hpc⟩
    refine ⟨hroom.shrink ht (fun i => ?_) ?_, hspares.event⟩
    · rw [hplace]
      rcases hspares.place with hnone | ⟨hseeks, hzero⟩
      · rw [hnone]
        exact Nat.zero_le _
      · rw [hzero]
        exact FirstFit.weight_zero hseeks
    · intro i hi
      rw [Mem.mem_used] at hi ⊢
      exact ⟨hi.1, hspares.used i hi.2⟩

/-- There stays a slot for every insertion on its way, and no `insert` is refused. -/
theorem State.HasRoom.step {a : ℕ × Event K V} (hinv : Inv cap h s) (hroom : s.HasRoom n cap)
    (hguard : Roomy n cap h s a) (hstep : Step cap s a s') :
    s'.HasRoom n cap ∧ ∀ k v, a.2 ≠ .ret (.inserted k v none) := by
  cases hstep with
  | @call t c hidle =>
      refine ⟨?_, by simp⟩
      have hnone : (s.pc t).place = none := by
        rw [hidle]
        rfl
      rw [HasRoom, place_update]
      cases c with
      | insert key value => exact FirstFit.Roomy.join hroom hguard.1 hnone hguard.2
      | popFirst => exact FirstFit.Roomy.shrink hroom hguard (fun i => Nat.zero_le _) subset_rfl
      | clear => exact FirstFit.Roomy.shrink hroom hguard (fun i => Nat.zero_le _) subset_rfl
  | @tick t hbusy =>
      have ht : t < n := by
        have hcall := (tick_turn (m := s.mem) (hinv.bounded t)).not_call
        generalize (tick cap s.mem (s.pc t)).2.2 = a at hguard hcall
        cases a with
        | call c => exact absurd rfl (hcall c)
        | _ => exact hguard
      rw [HasRoom, place_update]
      exact tick_room hinv hroom ht rfl

/-- While the slots that are not free and the insertions that have no slot never outnumber
the slots, no `insert` is refused, keys being equal or not, and whatever the threads pop
and clear meanwhile. -/
theorem inserts_accepted (hrun : (machine K V cap).RunOf (Roomy n cap) h s) :
    ∀ t k v, (t, .ret (.inserted k v none)) ∉ h := by
  have hall : s.HasRoom n cap ∧ ∀ a ∈ h, ∀ k v, a.2 ≠ .ret (.inserted k v none) := by
    refine hrun.invariant (I := fun h s => s.HasRoom n cap ∧
      ∀ a ∈ h, ∀ k v, a.2 ≠ .ret (.inserted k v none)) ?_ ?_
    · rintro _ rfl
      refine ⟨?_, fun a ha => by cases ha⟩
      have hused : (Mem.new : Mem K V).used cap = ∅ := by
        ext i
        simp [Mem.mem_used, Mem.new]
      rw [State.HasRoom, State.init, hused]
      exact FirstFit.Roomy.empty n cap
    · rintro h s a s' hprev ⟨hroom, hold⟩ hguard hstep
      obtain ⟨hroom', hnew⟩ := hroom.step (Inv.of_run hprev) hguard hstep
      refine ⟨hroom', fun b hb => ?_⟩
      rcases List.mem_cons.mp hb with rfl | hb
      · exact hnew
      · exact hold b hb
  intro t k v hmem
  exact hall.2 _ hmem k v rfl

instance (n cap : ℕ) (h : History K V) (s : State K V) (a : ℕ × Event K V) :
    Decidable (Roomy n cap h s a) :=
  match a with
  | (_, .call (.insert _ _)) => inferInstanceAs (Decidable (_ ∧ _))
  | (t, .call .popFirst) => inferInstanceAs (Decidable (t < n))
  | (t, .call .clear) => inferInstanceAs (Decidable (t < n))
  | (t, .stored _ _) => inferInstanceAs (Decidable (t < n))
  | (t, .took _) => inferInstanceAs (Decidable (t < n))
  | (t, .freed _ _) => inferInstanceAs (Decidable (t < n))
  | (t, .ret _) => inferInstanceAs (Decidable (t < n))
  | (t, .silent) => inferInstanceAs (Decidable (t < n))

/-- Two threads go for the first slot at once. -/
theorem inserts_accepted_two : ∃ (h : History ℕ ℕ) (s : State ℕ ℕ),
    (machine ℕ ℕ 2).RunOf (Roomy 2 2) h s ∧ (0, .ret (.inserted 5 50 (some none))) ∈ h ∧
      (1, .ret (.inserted 3 30 (some none))) ∈ h ∧ (0, .ret (.inserted 5 50 none)) ∉ h := by
  let r := (playAll 2 (Roomy (K := ℕ) (V := ℕ) 2 2) (.invoke 0 (.insert 5 50) ::
    .invoke 1 (.insert 3 30) :: goes 0 3 ++ goes 1 4 ++ goes 0 5 ++ goes 1 3)).get (by decide)
  have hrun : (machine ℕ ℕ 2).RunOf (Roomy 2 2) r.1 r.2 := playAll_run (Option.some_get _).symm
  have hfirst : (0, .ret (.inserted 5 50 (some none))) ∈ r.1 := by decide
  have hsecond : (1, .ret (.inserted 3 30 (some none))) ∈ r.1 := by decide
  generalize r = r at hrun hfirst hsecond
  exact ⟨r.1, r.2, hrun, hfirst, hsecond, inserts_accepted hrun 0 5 50⟩

/-- Whenever thread `0` looks at a slot, another entry has just been stored there and the one
in the other slot has been taken out. -/
def alwaysTaken : List (Choice ℕ ℕ) :=
  .invoke 1 (.insert 1 10) :: goes 1 7 ++ .invoke 0 (.insert 5 50) :: goes 0 5 ++
    .invoke 1 (.insert 2 20) :: goes 1 5 ++ .invoke 2 .popFirst :: goes 2 11 ++ goes 1 4 ++
    goes 0 4 ++ .invoke 2 .popFirst :: goes 2 11 ++
    .invoke 1 (.insert 3 30) :: goes 1 7 ++ [.access 0] ++
    .invoke 1 (.insert 4 40) :: goes 1 5 ++ .invoke 2 .popFirst :: goes 2 11 ++ goes 1 4 ++
    [.access 0]

/-- It is not enough that one of two slots is free all the time. -/
theorem refused_beside_free : ∃ (h : History ℕ ℕ) (s : State ℕ ℕ),
    (machine ℕ ℕ 2).RunOf (fun _ s _ => (s.mem.used 2).card ≤ 1) h s ∧
      (0, .ret (.inserted 5 50 none)) ∈ h := by
  let r := (playAll 2 (fun (_ : History ℕ ℕ) s _ => (s.mem.used 2).card ≤ 1)
    alwaysTaken).get (by decide)
  have hrun : (machine ℕ ℕ 2).RunOf (fun _ s _ => (s.mem.used 2).card ≤ 1) r.1 r.2 :=
    playAll_run (Option.some_get _).symm
  have hmem : (0, .ret (.inserted 5 50 none)) ∈ r.1 := by decide
  exact ⟨r.1, r.2, hrun, hmem⟩

end BTreeMap
